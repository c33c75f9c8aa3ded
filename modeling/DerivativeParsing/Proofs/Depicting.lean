import DerivativeParsing.Forest.Derivation
import DerivativeParsing.Language.Yields
import DerivativeParsing.Proofs.Building

/-!
# The graph of a description has its trees

1. `Grammar.Depicts`: the nodes below a node are made like a language, names standing for
   nonterminals. `lower_depicts`: adding the graph of a language makes a node that depicts it.
2. `Grammar.Draws`: every rule has a nonterminal whose body depicts it. `ofRules_draws`: so it is in
   the graph of a list of rules.
3. `Draws.derivation_iff`: a node that depicts a language has the trees of the language.
-/

namespace DerivativeParsing

variable {L : Type}

namespace Grammar

variable {g g₁ g' : Grammar L} {names names' : Names} {rules : List (String × Language)}
  {lang : Language} {id : NodeId} {node : Node L}

/-! ## Nodes that depict languages -/

/-- The nodes below a node are made like a language. -/
def Depicts (names : Names) (g : Grammar L) : Language → NodeId → Prop
  | .epsilon, id => g.arena.get? id = some (.token Kind.epsilon)
  | .token kind, id => g.arena.get? id = some (.token kind)
  | .alt left right, id =>
    ∃ l r, g.arena.get? id = some (.alt l r) ∧ Depicts names g left l ∧ Depicts names g right r
  | .cat left right, id =>
    ∃ l r, g.arena.get? id = some (.cat l r) ∧ Depicts names g left l ∧ Depicts names g right r
  | .rep body, id => ∃ b, g.arena.get? id = some (.rep b) ∧ Depicts names g body b
  | .rule name, id => names.lookup name = some id

/-- Every node but the nonterminals without a body is still there. -/
def Retains (g g' : Grammar L) : Prop :=
  ∀ (id : Nat) node, g.arena.get? id = some node → (∀ name, node ≠ .undefined name) →
    g'.arena.get? id = some node

theorem Retains.refl (g : Grammar L) : g.Retains g := fun _ _ there _ => there

theorem Retains.trans (h : g.Retains g₁) (h' : g₁.Retains g') : g.Retains g' :=
  fun id node there defined => h' id node (h id node there defined) defined

theorem retains_withNode (g : Grammar L) (node : Node L) : g.Retains (g.withNode node) :=
  fun _ _ there _ => (get?_withNode_of_lt (lt_size_of_get? there)).trans there

theorem Depicts.retained (h : g.Depicts names lang id) (retains : g.Retains g') :
    g'.Depicts names lang id := by
  induction lang generalizing id with
  | epsilon | token => exact retains id _ h nofun
  | alt left right ihl ihr | cat left right ihl ihr =>
    obtain ⟨l, r, there, hl, hr⟩ := h
    exact ⟨l, r, retains id _ there nofun, ihl hl, ihr hr⟩
  | rep body ih =>
    obtain ⟨b, there, hb⟩ := h
    exact ⟨b, retains id _ there nofun, ih hb⟩
  | rule name => exact h

/-- Adding the graph of a language makes a node that depicts it. -/
theorem lower_depicts (h : lower names lang g = .ok (id, g')) :
    g.Retains g' ∧ g'.Depicts names lang id := by
  induction lang generalizing g id g' with
  | epsilon | token =>
    obtain ⟨rfl, rfl⟩ := alloc_ok.mp h
    exact ⟨retains_withNode g _, get?_withNode_self _⟩
  | alt left right ihl ihr | cat left right ihl ihr =>
    obtain ⟨l, g₁, hl, h⟩ := Action.bind_ok.mp h
    obtain ⟨r, g₂, hr, h⟩ := Action.bind_ok.mp h
    obtain ⟨rfl, rfl⟩ := alloc_ok.mp h
    obtain ⟨before, left_is⟩ := ihl hl
    obtain ⟨between, right_is⟩ := ihr hr
    have last := retains_withNode g₂
    exact ⟨before.trans (between.trans (last _)), l, r, get?_withNode_self _,
      left_is.retained (between.trans (last _)), right_is.retained (last _)⟩
  | rep body ih =>
    obtain ⟨b, g₁, hb, h⟩ := Action.bind_ok.mp h
    obtain ⟨rfl, rfl⟩ := alloc_ok.mp h
    obtain ⟨before, body_is⟩ := ih hb
    exact ⟨before.trans (retains_withNode g₁ _), b, get?_withNode_self _,
      body_is.retained (retains_withNode g₁ _)⟩
  | rule name =>
    obtain ⟨found, rfl⟩ := resolve_ok.mp h
    exact ⟨.refl g, found⟩

/-! ## Rules -/

/-- Every rule has a nonterminal, whose body depicts it, and only rules have names. -/
structure Draws (names : Names) (rules : List (String × Language)) (g : Grammar L) : Prop where
  rule : ∀ name lang, (name, lang) ∈ rules → ∃ id r body, names.lookup name = some id ∧
    g.arena.get? id = some (.rule r body) ∧ g.Depicts names lang body
  named : ∀ name id, names.lookup name = some id → ∃ lang, (name, lang) ∈ rules

theorem declareAll_named {list : List String} (h : declareAll names list g = .ok (names', g'))
    {name : String} (found : names'.lookup name = some id) :
    name ∈ list ∨ names.lookup name = some id := by
  induction list generalizing names g with
  | nil =>
    obtain ⟨rfl, rfl⟩ := Action.pure_ok.mp h
    exact .inr found
  | cons first rest ih =>
    rw [declareAll] at h
    split at h
    · cases h
    · obtain ⟨new, g₁, -, h⟩ := Action.bind_ok.mp h
      rcases ih h with member | found
      · exact .inl (.tail _ member)
      · rw [lookup_cons] at found
        split at found
        · rename_i same
          exact .inl (same ▸ .head _)
        · exact .inr found

theorem retains_define (body : NodeId) {target : NodeId} {name : String}
    (there : g.arena.get? target = some (.undefined name)) :
    g.Retains (g.revised target fun _ => .rule { name } body) := by
  intro id node there' defined
  rw [get?_revised]
  split
  · rename_i same
    subst same
    exact absurd (Option.some.inj (there'.symm.trans there)) (defined name)
  · exact there'

theorem defineAll_draws {list : List (String × Language)} {u : Unit}
    (h : defineAll names list g = .ok (u, g')) :
    g.Retains g' ∧ ∀ name lang, (name, lang) ∈ list → ∃ id r body, names.lookup name = some id ∧
      g'.arena.get? id = some (.rule r body) ∧ g'.Depicts names lang body := by
  induction list generalizing g with
  | nil =>
    obtain ⟨-, rfl⟩ := Action.pure_ok.mp h
    exact ⟨.refl g, nofun⟩
  | cons first rest ih =>
    obtain ⟨name, lang⟩ := first
    obtain ⟨body, g₁, hb, h⟩ := Action.bind_ok.mp h
    obtain ⟨target, _, hr, h⟩ := Action.bind_ok.mp h
    obtain ⟨found, rfl⟩ := resolve_ok.mp hr
    obtain ⟨_, g₂, hd, later⟩ := Action.bind_ok.mp h
    obtain ⟨name', there, rfl⟩ := define_ok.mp hd
    obtain ⟨before, body_is⟩ := lower_depicts hb
    obtain ⟨after, drawn⟩ := ih later
    have between := (retains_define body there).trans after
    refine ⟨before.trans between, fun other lang' member => ?_⟩
    rcases List.mem_cons.mp member with same | member
    · cases same
      have defined : (g₁.revised target fun _ => .rule { name := name' } body).arena.get? target =
          some (.rule { name := name' } body) := by
        rw [get?_revised, if_pos rfl, there]
        rfl
      exact ⟨target, _, body, found, after target _ defined nofun, body_is.retained between⟩
    · exact drawn other lang' member

/-- When all rules are declared and defined, every one has its nonterminal. -/
theorem draws_of_defined (declared : declareAll [] (rules.map Prod.fst) initial = .ok (names, g₁))
    (defined : defineAll names rules g₁ = .ok ((), g)) : g.Draws names rules := by
  refine ⟨(defineAll_draws defined).2, fun name id found => ?_⟩
  have member := (declareAll_named declared found).resolve_right nofun
  obtain ⟨⟨_, lang⟩, rule, rfl⟩ := List.mem_map.mp member
  exact ⟨lang, rule⟩

theorem ofRules_draws {start : String} (h : ofRules rules start = .ok (id, g)) :
    ∃ names, g.Draws names rules ∧ g.Depicts names (.rule start) id := by
  obtain ⟨names, g₁, declared, defined, found⟩ := ofRules_ok h
  exact ⟨names, draws_of_defined declared defined, found⟩

theorem draws_nil (g : Grammar L) : g.Draws [] [] := ⟨nofun, nofun⟩

/-! ## Trees -/

variable {input : List (Symbol L)} {i j : Nat} {t : Tree (Symbol L)}

theorem Draws.derivation (h : g.Draws names rules) (yields : lang.Yields rules input i j t)
    (depicts : g.Depicts names lang id) : g.Derivation input id i j t := by
  induction yields generalizing id with
  | epsilon | token_epsilon => exact .epsilon depicts
  | token terminal here same => exact .token depicts terminal here same
  | alt_left _ ih =>
    obtain ⟨l, r, there, hl, -⟩ := depicts
    exact .alt_left there (ih hl)
  | alt_right _ ih =>
    obtain ⟨l, r, there, -, hr⟩ := depicts
    exact .alt_right there (ih hr)
  | cat _ _ ihl ihr =>
    obtain ⟨l, r, there, hl, hr⟩ := depicts
    exact .cat there (ihl hl) (ihr hr)
  | rep_nil =>
    obtain ⟨b, there, -⟩ := depicts
    exact .rep_nil there
  | rep_cons lt _ _ ihb ihr =>
    have ⟨b, there, hb⟩ := depicts
    exact .rep_cons there lt (ihb hb) (ihr depicts)
  | rule member _ ih =>
    obtain ⟨id', r, body, found, there, body_is⟩ := h.rule _ _ member
    cases found.symm.trans depicts
    exact .rule there (ih body_is)

/-- What a node says of a language that it depicts. -/
def Shows (names : Names) (rules : List (String × Language)) (g : Grammar L) :
    Node L → Language → Prop
  | .token kind, lang => lang = .epsilon ∧ kind = Kind.epsilon ∨ lang = .token kind
  | .alt l r, lang =>
    ∃ left right, lang = .alt left right ∧ g.Depicts names left l ∧ g.Depicts names right r
  | .cat l r, lang =>
    ∃ left right, lang = .cat left right ∧ g.Depicts names left l ∧ g.Depicts names right r
  | .rep b, lang => ∃ body, lang = .rep body ∧ g.Depicts names body b
  | .rule _ b, lang =>
    ∃ name body, lang = .rule name ∧ (name, body) ∈ rules ∧ g.Depicts names body b
  | _, _ => False

theorem Draws.shows (h : g.Draws names rules) (depicts : g.Depicts names lang id)
    (there : g.arena.get? id = some node) : g.Shows names rules node lang := by
  cases lang with
  | epsilon =>
    cases there.symm.trans depicts
    exact .inl ⟨rfl, rfl⟩
  | token kind =>
    cases there.symm.trans depicts
    exact .inr rfl
  | alt left right | cat left right =>
    obtain ⟨l, r, there', hl, hr⟩ := depicts
    cases there.symm.trans there'
    exact ⟨left, right, rfl, hl, hr⟩
  | rep body =>
    obtain ⟨b, there', hb⟩ := depicts
    cases there.symm.trans there'
    exact ⟨body, rfl, hb⟩
  | rule name =>
    obtain ⟨lang, member⟩ := h.named name id depicts
    obtain ⟨id', r, body, found, there', body_is⟩ := h.rule name lang member
    cases found.symm.trans depicts
    cases there.symm.trans there'
    exact ⟨name, lang, rfl, member, body_is⟩

theorem Draws.yields (h : g.Draws names rules) (derivation : g.Derivation input id i j t)
    (depicts : g.Depicts names lang id) : lang.Yields rules input i j t := by
  induction derivation generalizing lang with
  | epsilon there =>
    obtain ⟨rfl, -⟩ | rfl := h.shows depicts there
    · exact .epsilon
    · exact .token_epsilon
  | token there terminal here same =>
    obtain ⟨-, rfl⟩ | rfl := h.shows depicts there
    · cases terminal
    · exact .token terminal here same
  | alt_left there _ ih =>
    obtain ⟨left, right, rfl, hl, -⟩ := h.shows depicts there
    exact .alt_left (ih hl)
  | alt_right there _ ih =>
    obtain ⟨left, right, rfl, -, hr⟩ := h.shows depicts there
    exact .alt_right (ih hr)
  | cat there _ _ ihl ihr =>
    obtain ⟨left, right, rfl, hl, hr⟩ := h.shows depicts there
    exact .cat (ihl hl) (ihr hr)
  | rep_nil there =>
    obtain ⟨body, rfl, -⟩ := h.shows depicts there
    exact .rep_nil
  | rep_cons there lt _ _ ihb ihr =>
    obtain ⟨body, rfl, hb⟩ := h.shows depicts there
    exact .rep_cons lt (ihb hb) (ihr depicts)
  | rule there _ ih =>
    obtain ⟨name, body, rfl, member, hb⟩ := h.shows depicts there
    exact .rule member (ih hb)

/-- A node that depicts a language has its trees. -/
theorem Draws.derivation_iff (h : g.Draws names rules) (depicts : g.Depicts names lang id) :
    g.Derivation input id i j t ↔ lang.Yields rules input i j t :=
  ⟨fun derivation => h.yields derivation depicts, fun yields => h.derivation yields depicts⟩

end Grammar

end DerivativeParsing
