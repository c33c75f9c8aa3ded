import DerivativeParsing.Grammar.Lowering
import DerivativeParsing.Proofs.Meanings
import DerivativeParsing.Proofs.Rooted

/-!
# The graph of a description

1. `Drafted` is what holds of a graph in the course of being built, and `Adds` how it grows.
2. `lower_ok`: the graph of a language stands for the language.
3. `declareAll_ok`, `defineAll_ok`: nonterminals stand for the rules of their names from the
   beginning, and in the end every one has its body.
4. `Founded`: the graph is between actions, nothing was asked of it yet, it claims nothing too much
   or too little, and its start stands for the description. `ofRules_founded`, `ofLanguage_founded`:
   what is built is so.
-/

namespace DerivativeParsing

open Grammar (nothing lt_size_of_get?)

variable {L : Type}

/-- A node about which nothing was found out yet. -/
def Node.Fresh : Node L → Prop
  | rule r _ => r.memo = none ∧ r.fixpoint = .unstarted ∧ r.busy = false
  | matched _ | thunk _ _ => False
  | _ => True

theorem Node.Fresh.idle {node : Node L} (h : node.Fresh) : node.Idle := by
  cases node with
  | rule r body =>
    obtain ⟨-, state, busy⟩ := h
    simp [Idle, isBegun, isRunning, isBusy, state, busy]
  | matched | thunk => cases h
  | _ => exact idle_of_isFixed rfl

theorem Node.Fresh.isBuilt {node : Node L} (h : node.Fresh) : node.isBuilt := by
  cases node <;> first | rfl | cases h

theorem Node.Fresh.not_isThunk {node : Node L} (h : node.Fresh) : node.isThunk = false := by
  cases node <;> first | rfl | cases h

theorem Node.fresh_of_isCombinator {node : Node L} (comb : node.isCombinator) : node.Fresh := by
  cases node <;> trivial

/-- A graph in the course of being built. -/
structure Drafted [DecidableEq L] (rules : List (String × Language)) (W : World) (g : Grammar L) :
    Prop where
  formed : g.Formed
  sound : Sound (Language.links rules) W g
  memo : g.memo = {}
  fresh : ∀ (id : Nat) node, g.arena.get? id = some node → node.Fresh
  supports : ∀ (id : Nat) node, g.arena.get? id = some node → (∀ name, node ≠ .undefined name) →
    W.Supports id node
  trace : ∀ id : Nat, (W id).trace = []

/-- Nonterminals stand for the rules of their names. -/
def Named (rules : List (String × Language)) (names : Names) (W : World) (g : Grammar L) : Prop :=
  ∀ name id, names.lookup name = some id →
    W id = (Language.rule name).meaning rules ∧ g.Solid id ∧ id ≠ nothing

/-- A graph with more nodes, none of which is a nonterminal. -/
structure Adds (W : World) (g : Grammar L) (W' : World) (g' : Grammar L) : Prop where
  size : g.size ≤ g'.size
  world : ∀ id : Nat, id < g.size → W' id = W id
  old : ∀ id : Nat, id < g.size → g'.arena.get? id = g.arena.get? id
  new : ∀ (id : Nat) node, g.size ≤ id → g'.arena.get? id = some node →
    node.isFixed ∧ ∀ name, node ≠ .undefined name

section Adds

variable {W W₁ W₂ : World} {g g₁ g₂ : Grammar L} {rules : List (String × Language)} {names : Names}
  {id : Nat}

namespace Adds

theorem refl (W : World) (g : Grammar L) : Adds W g W g where
  size := Nat.le_refl _
  world _ _ := rfl
  old _ _ := rfl
  new _ _ le there := absurd (lt_size_of_get? there) (Nat.not_lt.mpr le)

theorem trans (h : Adds W g W₁ g₁) (h' : Adds W₁ g₁ W₂ g₂) : Adds W g W₂ g₂ where
  size := Nat.le_trans h.size h'.size
  world id lt := (h'.world id (Nat.lt_of_lt_of_le lt h.size)).trans (h.world id lt)
  old id lt := (h'.old id (Nat.lt_of_lt_of_le lt h.size)).trans (h.old id lt)
  new id node le there := by
    by_cases lt : id < g₁.size
    · exact h.new id node le ((h'.old id lt).symm.trans there)
    · exact h'.new id node (Nat.le_of_not_lt lt) there

theorem solid (h : Adds W g W₁ g₁) (solid : g.Solid id) : g₁.Solid id := by
  obtain ⟨node, there, solid'⟩ := solid
  exact ⟨node, (h.old id (lt_size_of_get? there)).trans there, solid'⟩

theorem named (h : Adds W g W₁ g₁) (named : Named rules names W g) : Named rules names W₁ g₁ := by
  intro name id found
  obtain ⟨same, solid, alive⟩ := named name id found
  exact ⟨(h.world id solid.lt_size).trans same, h.solid solid, alive⟩

theorem regular (h : Adds W g W₁ g₁) (regular : g.Regular) : g₁.Regular := by
  intro id node there
  by_cases lt : id < g.size
  · exact regular id node ((h.old id lt).symm.trans there)
  · exact h.new id node (Nat.le_of_not_lt lt) there

end Adds

variable [DecidableEq L] {node : Node L} {meaning : Meaning}

theorem Drafted.withNode (h : Drafted rules W g) (fresh : node.Fresh)
    (formed : node.Formed g g.size)
    (fits : (W.put g.size meaning).Fits (Language.links rules) g.size node)
    (supports : (∀ name, node ≠ .undefined name) → (W.put g.size meaning).Supports g.size node)
    (trace : meaning.trace = []) : Drafted rules (W.put g.size meaning) (g.withNode node) where
  formed := h.formed.withNode formed
  sound := h.sound.withNode h.formed fits
  memo := h.memo
  fresh id node' there := by
    rw [Grammar.get?_withNode] at there
    split at there
    · cases there
      exact fresh
    · exact h.fresh id node' there
  supports id node' there defined := by
    rw [Grammar.get?_withNode] at there
    split at there
    · rename_i last
      cases there
      subst last
      exact supports defined
    · exact (h.supports id node' there defined).agree (h.formed.node id node' there)
        (lt_size_of_get? there) fun x lt => World.put_of_lt lt
  trace id := by
    by_cases last : id = g.size
    · rw [last, World.put_self, trace]
    · rw [World.put_of_ne last, h.trace]

omit [DecidableEq L] in
theorem adds_withNode (fixed : node.isFixed) (defined : ∀ name, node ≠ .undefined name) :
    Adds W g (W.put g.size meaning) (g.withNode node) where
  size := by
    rw [Grammar.size_withNode]
    omega
  world id lt := World.put_of_lt lt
  old id lt := Grammar.get?_withNode_of_lt lt
  new id node' le there := by
    rw [Grammar.get?_withNode] at there
    split at there
    · cases there
      exact ⟨fixed, defined⟩
    · exact absurd (lt_size_of_get? there) (Nat.not_lt.mpr le)

end Adds

/-! ## Languages -/

section Lower

variable [DecidableEq L] {W : World} {g g' : Grammar L} {rules : List (String × Language)}
  {names : Names} {lang : Language} {id : NodeId}

omit [DecidableEq L] in
theorem Grammar.resolve_ok {name : String} :
    Grammar.resolve names name g = .ok (id, g') ↔ names.lookup name = some id ∧ g = g' := by
  unfold Grammar.resolve
  cases names.lookup name with
  | some found => rw [Action.pure_ok, Option.some.injEq]
  | none => exact ⟨fun h => (by cases h), fun h => (by cases h.1)⟩

/-- The graph of a language was added. -/
structure Lowered (rules : List (String × Language)) (W : World) (g : Grammar L) (lang : Language)
    (id : NodeId) (W' : World) (g' : Grammar L) : Prop where
  drafted : Drafted rules W' g'
  adds : Adds W g W' g'
  solid : g'.Solid id
  alive : id ≠ nothing
  meaning : W' id = lang.meaning rules

theorem Drafted.lowered (h : Drafted rules W g) (node : Node L) (comb : node.isCombinator)
    (defined : ∀ name, node ≠ .undefined name) (formed : node.Formed g g.size)
    (fits : ∀ W' : World, W' g.size = lang.meaning rules → (∀ x : Nat, x < g.size → W' x = W x) →
      W'.Fits (Language.links rules) g.size node ∧ W'.Supports g.size node) :
    Lowered rules W g lang g.size (W.put g.size (lang.meaning rules)) (g.withNode node) := by
  obtain ⟨fits, supports⟩ := fits (W.put g.size (lang.meaning rules)) (World.put_self _ _ _)
    fun x lt => World.put_of_lt lt
  have solid : node.isThunk = false := by cases node <;> first | rfl | cases comb
  exact ⟨h.withNode (Node.fresh_of_isCombinator comb) formed fits (fun _ => supports) rfl,
    adds_withNode (Node.isFixed_of_isCombinator comb) defined, Grammar.solid_withNode solid,
    h.formed.size_ne_nothing, World.put_self _ _ _⟩

theorem Lowered.after {W₁ W₂ : World} {g₁ g₂ : Grammar L} (h : Lowered rules W₁ g₁ lang id W₂ g₂)
    (adds : Adds W g W₁ g₁) : Lowered rules W g lang id W₂ g₂ :=
  ⟨h.drafted, adds.trans h.adds, h.solid, h.alive, h.meaning⟩

/-- The graph of a language stands for it. -/
theorem lower_ok (drafted : Drafted rules W g) (named : Named rules names W g)
    (h : Grammar.lower names lang g = .ok (id, g')) : ∃ W', Lowered rules W g lang id W' g' := by
  induction lang generalizing W g id g' with
  | epsilon =>
    obtain ⟨rfl, rfl⟩ := Grammar.alloc_ok.mp h
    refine ⟨_,
      drafted.lowered _ rfl nofun trivial fun W' here _ => ⟨fun w hw => ?_, fun n w hw => ?_⟩⟩
    · rw [here]
      rcases hw with ⟨-, rfl⟩ | ⟨terminal, -⟩
      · exact ⟨0, .epsilon⟩
      · cases terminal
    · rw [here] at hw
      cases hw with
      | epsilon => exact .inl ⟨rfl, rfl⟩
  | token kind =>
    obtain ⟨rfl, rfl⟩ := Grammar.alloc_ok.mp h
    refine ⟨_,
      drafted.lowered _ rfl nofun trivial fun W' here _ => ⟨fun w hw => ?_, fun n w hw => ?_⟩⟩
    · rw [here]
      exact Language.meaning_holds.mpr (Language.derives_token.mpr hw)
    · rw [here] at hw
      exact Language.derives_token.mp hw.derives
  | alt left right ihl ihr =>
    obtain ⟨l, g₁, hl, h⟩ := Action.bind_ok.mp h
    obtain ⟨r, g₂, hr, h⟩ := Action.bind_ok.mp h
    obtain ⟨rfl, rfl⟩ := Grammar.alloc_ok.mp h
    obtain ⟨W₁, hl⟩ := ihl drafted named hl
    obtain ⟨W₂, hr⟩ := ihr hl.drafted (hl.adds.named named) hr
    have solidl := hr.adds.solid hl.solid
    have meaningl := (hr.adds.world l hl.solid.lt_size).trans hl.meaning
    refine ⟨_, (hr.drafted.lowered (.alt l r)
      rfl nofun ⟨⟨solidl.lt_size, solidl⟩, hr.solid.lt_size, hr.solid⟩
      fun W' here same => ?_).after (hl.adds.trans hr.adds)⟩
    have left_is := (same l solidl.lt_size).trans meaningl
    have right_is := (same r hr.solid.lt_size).trans hr.meaning
    refine ⟨?_, fun n w hw => ?_⟩
    · show (W' l).Refines (W' _) ∧ (W' r).Refines (W' _)
      rw [left_is, right_is, here]
      exact ⟨Language.left_refines, Language.right_refines⟩
    · rw [here] at hw
      rw [left_is, right_is]
      cases hw with
      | alt_left hw => exact .inl (Ranked.upto_self hw)
      | alt_right hw => exact .inr (Ranked.upto_self hw)
  | cat left right ihl ihr =>
    obtain ⟨l, g₁, hl, h⟩ := Action.bind_ok.mp h
    obtain ⟨r, g₂, hr, h⟩ := Action.bind_ok.mp h
    obtain ⟨rfl, rfl⟩ := Grammar.alloc_ok.mp h
    obtain ⟨W₁, hl⟩ := ihl drafted named hl
    obtain ⟨W₂, hr⟩ := ihr hl.drafted (hl.adds.named named) hr
    have solidl := hr.adds.solid hl.solid
    have meaningl := (hr.adds.world l hl.solid.lt_size).trans hl.meaning
    refine ⟨_, (hr.drafted.lowered (.cat l r)
      rfl nofun ⟨⟨solidl.lt_size, solidl⟩, hr.solid.lt_size, hr.solid⟩
      fun W' here same => ?_).after (hl.adds.trans hr.adds)⟩
    have left_is := (same l solidl.lt_size).trans meaningl
    have right_is := (same r hr.solid.lt_size).trans hr.meaning
    refine ⟨?_, fun n w hw => ?_⟩
    · show (W' l).Joins (W' r) (W' _)
      rw [left_is, right_is, here]
      exact Language.joins
    · rw [here] at hw
      rw [left_is, right_is]
      cases hw with
      | cat hl hr => exact ⟨_, _, rfl, Ranked.upto_self hl, Ranked.upto_self hr⟩
  | rep body ih =>
    obtain ⟨b, g₁, hb, h⟩ := Action.bind_ok.mp h
    obtain ⟨rfl, rfl⟩ := Grammar.alloc_ok.mp h
    obtain ⟨W₁, hb⟩ := ih drafted named hb
    refine ⟨_, (hb.drafted.lowered (.rep b) rfl nofun ⟨hb.solid.lt_size, hb.solid⟩
      fun W' here same => ?_).after hb.adds⟩
    have body_is := (same b hb.solid.lt_size).trans hb.meaning
    refine ⟨?_, fun n w hw => ?_⟩
    · show (W' b).Repeats (W' _)
      rw [body_is, here]
      exact Language.repeats
    · rw [here] at hw
      rw [body_is, here]
      rcases hw.first_item with rfl | ⟨c, u, v, rfl, hu, hv⟩
      · exact .inl rfl
      · exact .inr ⟨c, u, v, rfl, Ranked.upto_self hu, Ranked.upto_self hv⟩
  | rule name =>
    obtain ⟨found, rfl⟩ := Grammar.resolve_ok.mp h
    obtain ⟨same, solid, alive⟩ := named name id found
    exact ⟨W, drafted, .refl W g, solid, alive, same⟩

end Lower

/-! ## Rules -/

section Rules

variable [DecidableEq L] {W : World} {g g' : Grammar L} {rules : List (String × Language)}
  {names names' : Names}

/-- The nonterminals without a body are those of some names. -/
def Awaiting (names : Names) (waiting : List String) (g : Grammar L) : Prop :=
  ∀ (id : Nat) name, g.arena.get? id = some (.undefined name) →
    names.lookup name = some id ∧ name ∈ waiting

theorem lookup_cons (name other : String) (id : NodeId) :
    ((name, id) :: names : Names).lookup other =
      if other = name then some id else names.lookup other := by
  rw [List.lookup_cons]
  by_cases same : other = name
  · rw [if_pos same, beq_iff_eq.mpr same]
  · rw [if_neg same, beq_false_of_ne same]

omit [DecidableEq L] in
theorem declareAll_nodup {list : List String}
    (h : Grammar.declareAll names list g = .ok (names', g')) :
    list.Nodup ∧ ∀ name ∈ list, names.lookup name = none := by
  induction list generalizing names g with
  | nil => exact ⟨.nil, nofun⟩
  | cons name rest ih =>
    rw [Grammar.declareAll] at h
    cases found : names.lookup name with
    | some id =>
      rw [found] at h
      cases h
    | none =>
      rw [found] at h
      obtain ⟨id, g₁, -, h⟩ := Action.bind_ok.mp h
      obtain ⟨nodup, new⟩ := ih h
      have fresh (other : String) (member : other ∈ rest) :
          other ≠ name ∧ names.lookup other = none := by
        have none := new other member
        rw [lookup_cons] at none
        split at none
        · cases none
        · exact ⟨‹_›, none⟩
      refine ⟨List.nodup_cons.mpr
        ⟨fun member => (fresh name member).1 rfl, nodup⟩, fun other member => ?_⟩
      rcases List.mem_cons.mp member with rfl | member
      · exact found
      · exact (fresh other member).2

theorem declareAll_ok {waiting list : List String} (drafted : Drafted rules W g)
    (named : Named rules names W g) (awaiting : Awaiting names waiting g)
    (h : Grammar.declareAll names list g = .ok (names', g')) :
    ∃ W', Drafted rules W' g' ∧ Named rules names' W' g' ∧
      Awaiting names' (waiting ++ list) g' := by
  induction list generalizing names W g waiting with
  | nil =>
    obtain ⟨rfl, rfl⟩ := Action.pure_ok.mp h
    exact ⟨W, drafted, named, by rwa [List.append_nil]⟩
  | cons name rest ih =>
    have found : names.lookup name = none := (declareAll_nodup h).2 name (.head _)
    rw [Grammar.declareAll, found] at h
    obtain ⟨id, g₁, hd, h⟩ := Action.bind_ok.mp h
    obtain ⟨rfl, rfl⟩ := Grammar.alloc_ok.mp hd
    have drafted₁ : Drafted rules (W.put g.size ((Language.rule name).meaning rules))
        (g.withNode (.undefined name)) :=
      drafted.withNode trivial trivial trivial (fun defined => absurd rfl (defined name)) rfl
    have named₁ : Named rules ((name, g.size) :: names)
        (W.put g.size ((Language.rule name).meaning rules))
        (g.withNode (.undefined name)) := by
      intro other id hid
      rw [lookup_cons] at hid
      split at hid
      · rename_i same
        cases hid
        exact ⟨by rw [World.put_self,
          same], Grammar.solid_withNode rfl, drafted.formed.size_ne_nothing⟩
      · obtain ⟨same, solid, alive⟩ := named other id hid
        exact ⟨(World.put_of_lt solid.lt_size).trans same, solid.withNode _, alive⟩
    have awaiting₁ : Awaiting ((name, g.size) :: names) (waiting ++ [name])
        (g.withNode (.undefined name)) := by
      intro id other there
      rw [Grammar.get?_withNode] at there
      rw [lookup_cons]
      split at there
      · rename_i last
        cases there
        exact ⟨by rw [if_pos rfl, last], List.mem_append_right _ (.head _)⟩
      · obtain ⟨hid, member⟩ := awaiting id other there
        refine ⟨?_, List.mem_append_left _ member⟩
        rw [if_neg ?_, hid]
        rintro rfl
        cases hid.symm.trans found
    obtain ⟨W', drafted', named', awaiting'⟩ := ih drafted₁ named₁ awaiting₁ h
    rw [List.append_assoc] at awaiting'
    exact ⟨W', drafted', named', awaiting'⟩

omit [DecidableEq L] in
theorem Grammar.define_ok {target body : NodeId} {u : Unit} :
    Grammar.define target body g = .ok (u, g') ↔
      ∃ name, g.arena.get? target = some (.undefined name) ∧
      g.revised target (fun _ => .rule { name } body) = g' := by
  unfold Grammar.define
  rw [Action.bind_of_ok (Action.get_ok.mpr ⟨rfl, rfl⟩)]
  cases there : g.arena.get? target with
  | none => exact ⟨fun h => (by cases h), fun ⟨_, there', _⟩ => (by cases there')⟩
  | some node =>
    cases node with
    | undefined name =>
      show Grammar.store target (.rule { name } body) g = _ ↔ _
      rw [Grammar.store_ok, Except.ok.injEq, Prod.mk.injEq]
      exact ⟨fun h => ⟨name, rfl, h.2⟩, fun ⟨name', same, h⟩ => ⟨rfl, by cases same; exact h⟩⟩
    | _ => exact ⟨fun h => (by cases h), fun ⟨_, there', _⟩ => (by cases there')⟩

theorem Drafted.define {name : String} {lang : Language} {target body : Nat}
    (drafted : Drafted rules W g) (nodup : (rules.map Prod.fst).Nodup)
    (member : (name, lang) ∈ rules) (there : g.arena.get? target = some (.undefined name))
    (solid : g.Solid body) (target_is : W target = (Language.rule name).meaning rules)
    (body_is : W body = lang.meaning rules) :
    Drafted rules W (g.revised target fun _ => .rule { name } body) := by
  have revised {id : Nat} {node : Node L}
      (there' : (g.revised target fun _ => .rule { name } body).arena.get? id = some node) :
      id = target ∧ node = .rule { name } body ∨ id ≠ target ∧ g.arena.get? id = some node := by
    rw [Grammar.get?_revised] at there'
    split at there'
    · rename_i same
      obtain ⟨-, -, new⟩ := Option.map_eq_some_iff.mp there'
      exact .inl ⟨same.symm, new.symm⟩
    · rename_i other
      exact .inr ⟨Ne.symm other, there'⟩
  have names : W.Fits (Language.links rules) target (.rule { name } body : Node L) := by
    refine ⟨?_, nofun, nofun⟩
    rw [target_is, body_is]
    exact Language.names member
  have supports : W.Supports target (.rule { name } body : Node L) := by
    intro n w hw
    rw [target_is] at hw
    rw [body_is]
    cases hw with
    | @rule _ lang' m _ _ member' lt hw =>
      cases List.inj_on_of_nodup_map nodup member member' rfl
      exact ⟨m, lt, hw⟩
  constructor
  · refine drafted.formed.revised (fun node there' => ?_) (fun there' => ?_) fun node there' => ?_
    · cases Option.some.inj (there.symm.trans there')
      rfl
    · cases Option.some.inj (there.symm.trans there')
    · exact ⟨solid.lt_size, nofun⟩
  · exact drafted.sound.revised fun _ _ => names
  · exact drafted.memo
  · intro id node there'
    rcases revised there' with ⟨-, rfl⟩ | ⟨-, there'⟩
    · exact ⟨rfl, rfl, rfl⟩
    · exact drafted.fresh id node there'
  · intro id node there' defined
    rcases revised there' with ⟨rfl, rfl⟩ | ⟨-, there'⟩
    · exact supports
    · exact drafted.supports id node there' defined
  · exact drafted.trace

theorem defineAll_ok {list : List (String × Language)} {u : Unit} (drafted : Drafted rules W g)
    (named : Named rules names W g) (awaiting : Awaiting names (list.map Prod.fst) g)
    (nodup : (rules.map Prod.fst).Nodup) (sub : ∀ p ∈ list, p ∈ rules)
    (h : Grammar.defineAll names list g = .ok (u, g')) :
    ∃ W', Drafted rules W' g' ∧ Named rules names W' g' ∧ Awaiting names [] g' := by
  induction list generalizing W g with
  | nil =>
    obtain ⟨-, rfl⟩ := Action.pure_ok.mp h
    exact ⟨W, drafted, named, awaiting⟩
  | cons rule rest ih =>
    obtain ⟨name, lang⟩ := rule
    obtain ⟨body, g₁, hb, h⟩ := Action.bind_ok.mp h
    obtain ⟨target, _, hr, h⟩ := Action.bind_ok.mp h
    obtain ⟨found, rfl⟩ := Grammar.resolve_ok.mp hr
    obtain ⟨_, g₂, hd, later⟩ := Action.bind_ok.mp h
    obtain ⟨name', there, rfl⟩ := Grammar.define_ok.mp hd
    obtain ⟨W₁, low⟩ := lower_ok drafted named hb
    have named₁ := low.adds.named named
    have awaiting₁ : Awaiting names (name :: rest.map Prod.fst) g₁ := fun id other there' => by
      by_cases lt : id < g.size
      · exact awaiting id other ((low.adds.old id lt).symm.trans there')
      · exact absurd rfl ((low.adds.new id _ (Nat.le_of_not_lt lt) there').2 other)
    -- two names of one nonterminal are the same, because a rule begins with its own name only
    obtain rfl : name' = name := by
      have same := (named₁ name' target (awaiting₁ target name' there).1).1.symm.trans
        (named₁ name target found).1
      have heads : (name' = name') = (name' = name) := congrFun (congrArg Meaning.heads same) name'
      exact heads ▸ rfl
    have drafted₂ :=
      low.drafted.define nodup (sub _ (.head _)) there low.solid (named₁ name' target found).1
      low.meaning
    have thunk (node : Node L) (there' : g₁.arena.get? target = some node) :
        (Node.rule { name := name' } body : Node L).isThunk = node.isThunk := by
      cases Option.some.inj (there.symm.trans there')
      rfl
    refine ih drafted₂ (fun other id hid => ?_) (fun id other there' => ?_)
      (fun p hp => sub p (.tail _ hp)) later
    · obtain ⟨same, solid, alive⟩ := named₁ other id hid
      exact ⟨same, solid.revised thunk, alive⟩
    · rw [Grammar.get?_revised] at there'
      split at there'
      · obtain ⟨-, -, same⟩ := Option.map_eq_some_iff.mp there'
        cases same
      · rename_i ne
        obtain ⟨hid, member⟩ := awaiting₁ id other there'
        refine ⟨hid, (List.mem_cons.mp member).resolve_left ?_⟩
        rintro rfl
        exact ne (Option.some.inj (found.symm.trans hid))

end Rules

/-! ## What is built -/

/-- A grammar between actions that claims nothing too much or too little, and its start. -/
structure Founded [DecidableEq L] (links : Links) (origin : Meaning) (W : World) (g : Grammar L)
    (start : NodeId) : Prop where
  good : Good links W g
  complete : ∀ k, Complete W g k
  range : g.size > start
  alive : start ≠ nothing
  origin : W start = origin
  fresh : ∀ (id : Nat) node, g.arena.get? id = some node → node.Fresh
  defined : ∀ (id : Nat) name, g.arena.get? id ≠ some (.undefined name)
  trace : ∀ id : Nat, (W id).trace = []
  memo : g.memo = {}

section Founded

variable [DecidableEq L] {W : World} {g : Grammar L} {rules : List (String × Language)}
  {names : Names} {lang : Language} {id : NodeId} {start : String}

/-- The grammar that holds only the node that matches nothing. -/
theorem drafted_initial (rules : List (String × Language)) :
    Drafted rules (fun _ => .void) (Grammar.initial : Grammar L) := by
  have only {id : Nat} {node : Node L}
      (there : (Grammar.initial : Grammar L).arena.get? id = some node) :
      id = 0 ∧ node = .empty := by
    have lt : id < 1 := lt_size_of_get? there
    obtain rfl : id = 0 := by omega
    exact ⟨rfl, (Option.some.inj there).symm⟩
  refine ⟨⟨rfl, fun id node there => ?_, fun id s next found => ?_⟩, ⟨fun id node there => ?_,
    fun id s next found => ?_⟩,
    rfl, fun id node there => ?_, fun id node there _ => ?_, fun _ => rfl⟩
  · obtain ⟨rfl, rfl⟩ := only there
    exact rfl
  · cases (Memo.find?_nil id s).symm.trans found
  · obtain ⟨rfl, rfl⟩ := only there
    exact rfl
  · cases (Memo.find?_nil id s).symm.trans found
  · obtain ⟨rfl, rfl⟩ := only there
    trivial
  · obtain ⟨rfl, rfl⟩ := only there
    exact fun _ _ h => h

/-- When no nonterminal is left without a body, the graph is built. -/
theorem Drafted.founded {meaning : Meaning} (drafted : Drafted rules W g)
    (defined : ∀ (x : Nat) name, g.arena.get? x ≠ some (.undefined name)) (solid : g.Solid id)
    (alive : id ≠ nothing) (here : W id = meaning) :
    Founded (Language.links rules) meaning W g id where
  good := ⟨drafted.formed, drafted.sound, fun id node there => (drafted.fresh id node there).idle⟩
  complete k := by
    refine ⟨fun x node there =>
      ⟨fun _ => drafted.supports x node there ?_, fun r body kind next same memo => ?_,
      fun r body same state => ?_⟩, fun x s next found => ?_⟩
    · rintro name rfl
      exact defined x name there
    · obtain ⟨none, -⟩ := same ▸ drafted.fresh x node there
      cases none.symm.trans memo
    · obtain ⟨-, unstarted, -⟩ := same ▸ drafted.fresh x node there
      cases unstarted.symm.trans state
    · rw [drafted.memo, Memo.find?_nil] at found
      cases found
  range := solid.lt_size
  alive := alive
  origin := here
  fresh := drafted.fresh
  defined := defined
  trace := drafted.trace
  memo := drafted.memo

theorem Founded.rooted {links : Links} {origin : Meaning} (h : Founded links origin W g id) :
    Rooted (g.readings id) (g.size > ·) W g id := by
  have pristine : g.Pristine (g.size > ·) := by
    refine ⟨lt_size_of_get? h.good.formed.nothing,
      h.good.formed.nothing, fun x lt => ?_, fun x node _ there => ?_⟩
    · obtain ⟨node, there⟩ := Grammar.exists_get? lt
      exact ⟨node, there, (h.fresh x node there).isBuilt⟩
    · exact h.good.formed.ranged false x node there
  refine ⟨pristine, h.range, fun _ _ _ _ => .rfl, fun _ _ bears => bears, fun x _ => h.trace x,
    fun x lt input i j hij le holds => ?_⟩
  obtain ⟨n, hn⟩ := holds
  have matched := (h.complete _).matches h.good.formed h.good.sound lt (Nat.le_refl (W.level x)) hn
  exact matched.derivation pristine lt hij le rfl

/-- In what is built every nonterminal has a body, and remembers nothing. -/
theorem Founded.proper {links : Links} {origin : Meaning} (h : Founded links origin W g id) :
    g.Proper := by
  intro x node there
  have fresh := h.fresh x node there
  cases node with
  | undefined name => exact h.defined x name there
  | rule r body =>
    intro kind next hm
    cases fresh.1.symm.trans hm
  | _ => trivial

/-- In what is built no rule has been asked for its nullability. -/
theorem Founded.vetted {links : Links} {origin : Meaning} (h : Founded links origin W g id) :
    Vetted W g :=
  fun x _ _ there asked => absurd (h.fresh x _ there).2.1 asked

theorem Founded.exists_shaped {links : Links} {origin : Meaning} (h : Founded links origin W g id) :
    ∃ parts, g.Shaped id parts := by
  obtain ⟨node, there⟩ := Grammar.exists_get? h.range
  have fresh := h.fresh id node there
  cases node with
  | thunk => exact fresh.elim
  | _ => exact ⟨_, _, there, rfl⟩

omit [DecidableEq L] in
/-- Rules are declared and defined, and the start is one of them. -/
theorem Grammar.ofRules_ok (h : Grammar.ofRules rules start = .ok (id, g)) : ∃ names g₁,
    Grammar.declareAll [] (rules.map Prod.fst) Grammar.initial = .ok (names, g₁) ∧
      Grammar.defineAll names rules g₁ = .ok ((), g) ∧ names.lookup start = some id := by
  obtain ⟨names, g₁, hdeclare, h⟩ := Action.bind_ok.mp h
  obtain ⟨_, g₂, hdefine, h⟩ := Action.bind_ok.mp h
  obtain ⟨root, _, hresolve, h⟩ := Action.bind_ok.mp h
  obtain ⟨found, rfl⟩ := Grammar.resolve_ok.mp hresolve
  obtain ⟨_, _, hget, h⟩ := Action.bind_ok.mp h
  obtain ⟨rfl, rfl⟩ := Action.get_ok.mp hget
  obtain ⟨_, _, hvalidate, h⟩ := Action.bind_ok.mp h
  obtain ⟨-, rfl⟩ := Action.lift_ok.mp hvalidate
  obtain ⟨rfl, rfl⟩ := Action.pure_ok.mp h
  exact ⟨names, g₁, hdeclare, hdefine, found⟩

/-- When all rules are declared and defined, every nonterminal stands for its rule, and none is
without a body. -/
theorem defined_ok {g₁ : Grammar L}
    (declared : Grammar.declareAll [] (rules.map Prod.fst) Grammar.initial = .ok (names, g₁))
    (defined : Grammar.defineAll names rules g₁ = .ok ((), g)) :
    ∃ W, Drafted rules W g ∧ Named rules names W g ∧
      ∀ (x : Nat) name, g.arena.get? x ≠ some (.undefined name) := by
  have nothing : Awaiting [] [] (Grammar.initial : Grammar L) := fun id name there => by
    have lt : id < 1 := lt_size_of_get? there
    obtain rfl : id = 0 := by omega
    cases there
  obtain ⟨W₁, drafted₁, named₁, awaiting₁⟩ :=
    declareAll_ok (drafted_initial rules) (fun _ _ found => by cases found) nothing declared
  obtain ⟨W₂, drafted₂, named₂, awaiting₂⟩ :=
    defineAll_ok drafted₁ named₁ awaiting₁ (declareAll_nodup declared).1 (fun _ hp => hp) defined
  exact ⟨W₂, drafted₂,
    named₂, fun x name there => absurd (awaiting₂ x name there).2 List.not_mem_nil⟩

theorem ofRules_founded (h : Grammar.ofRules rules start = .ok (id, g)) :
    ∃ W, Founded (Language.links rules) ((Language.rule start).meaning rules) W g id := by
  obtain ⟨names, g₁, hdeclare, hdefine, found⟩ := Grammar.ofRules_ok h
  obtain ⟨W, drafted, named, defined⟩ := defined_ok hdeclare hdefine
  obtain ⟨here, solid, alive⟩ := named start id found
  exact ⟨W, drafted.founded defined solid alive here⟩

omit [DecidableEq L] in
/-- A language has a graph, if every name that it refers to has a nonterminal. -/
theorem exists_lower (known : ∀ name ∈ lang.references, (names.lookup name).isSome)
    (g : Grammar L) : ∃ id g', Grammar.lower names lang g = .ok (id, g') := by
  induction lang generalizing g with
  | epsilon | token => exact ⟨_, _, rfl⟩
  | alt left right ihl ihr | cat left right ihl ihr =>
    obtain ⟨l, g₁, hl⟩ := ihl (fun name member => known name (List.mem_append_left _ member)) g
    obtain ⟨r, g₂, hr⟩ := ihr (fun name member => known name (List.mem_append_right _ member)) g₁
    exact ⟨_, _, (Action.bind_of_ok hl).trans ((Action.bind_of_ok hr).trans rfl)⟩
  | rep body ih =>
    obtain ⟨b, g₁, hb⟩ := ih known g
    exact ⟨_, _, (Action.bind_of_ok hb).trans rfl⟩
  | rule name =>
    obtain ⟨id, found⟩ := Option.isSome_iff_exists.mp (known name (.head _))
    exact ⟨id, g, Grammar.resolve_ok.mpr ⟨found, rfl⟩⟩

omit [DecidableEq L] in
theorem regular_initial : (Grammar.initial : Grammar L).Regular := by
  intro id node there
  have lt : id < 1 := lt_size_of_get? there
  obtain rfl : id = 0 := by omega
  cases there
  exact ⟨rfl, nofun⟩

theorem ofLanguage_founded (h : Grammar.ofLanguage lang = .ok (id, g)) :
    g.Regular ∧ ∃ W, Founded (Language.links []) (lang.meaning []) W g id := by
  have built : Grammar.lower [] lang Grammar.initial = .ok (id, g) := h
  obtain ⟨W, low⟩ := lower_ok (drafted_initial []) (fun _ _ found => by cases found) built
  have regular := low.adds.regular regular_initial
  exact ⟨regular, W,
    low.drafted.founded (fun x name there => (regular x _ there).2 name rfl) low.solid low.alive
    low.meaning⟩

end Founded

end DerivativeParsing
