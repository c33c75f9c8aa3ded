import DerivativeParsing.Proofs.Bookkeeping
import DerivativeParsing.Proofs.Depicting

/-!
# Nonterminals and the rules of their names

A body is given its graph while the nonterminals that it refers to may still be without one, so a
node stands for what it should only when the whole list has been gone through.

1. `lower_name?`, `defineAll_labelled`: whatever is added or defined, a name stays that of the one
   nonterminal that was declared for it. `ofRules_labelled`: so it is in the graph of a list of
   rules.
2. `Draws.matches_iff`: a node that depicts a language matches the words that the language derives.
   One inclusion is an induction on derivations of the language, the other on derivations of the
   graph; cycles need no care in either.
3. `built_matches`: every rule has its node, and the node matches what the rule derives.
-/

namespace DerivativeParsing

variable {L : Type}

namespace Grammar

variable {g g' : Grammar L} {names names' : Names} {rules : List (String × Language)}
  {lang : Language} {id x : NodeId} {name : String} {w : Word}

/-! ## Names -/

/-- A name belongs to no nonterminal but the one that was declared for it. -/
def Labelled (names : Names) (g : Grammar L) : Prop :=
  ∀ x name, g.name? x = some name → names.lookup name = some x

theorem lower_name? (run : lower names lang g = .ok (id, g')) (named : g'.name? x = some name) :
    g.name? x = some name := by
  -- a node without a name is added at the end
  have added (g : Grammar L) (node : Node L) (unnamed : node.name? = none)
      (named : (g.withNode node).name? x = some name) : g.name? x = some name := by
    unfold name? at named ⊢
    rw [get?_withNode] at named
    split at named
    · cases unnamed.symm.trans named
    · exact named
  induction lang generalizing g id g' with
  | epsilon | token =>
    obtain ⟨-, rfl⟩ := alloc_ok.mp run
    exact added g _ rfl named
  | alt left right ihl ihr | cat left right ihl ihr =>
    obtain ⟨l, g₁, hl, run⟩ := Action.bind_ok.mp run
    obtain ⟨r, g₂, hr, run⟩ := Action.bind_ok.mp run
    obtain ⟨-, rfl⟩ := alloc_ok.mp run
    exact ihl hl (ihr hr (added g₂ _ rfl named))
  | rep body ih =>
    obtain ⟨b, g₁, hb, run⟩ := Action.bind_ok.mp run
    obtain ⟨-, rfl⟩ := alloc_ok.mp run
    exact ih hb (added g₁ _ rfl named)
  | rule =>
    obtain ⟨-, rfl⟩ := resolve_ok.mp run
    exact named

theorem declareAll_labelled {list : List String} (h : g.Labelled names)
    (run : declareAll names list g = .ok (names', g')) : g'.Labelled names' := by
  induction list generalizing names g with
  | nil =>
    obtain ⟨rfl, rfl⟩ := Action.pure_ok.mp run
    exact h
  | cons first rest ih =>
    have new : names.lookup first = none := (declareAll_nodup run).2 first (.head _)
    rw [declareAll, new] at run
    obtain ⟨id, g₁, declared, run⟩ := Action.bind_ok.mp run
    obtain ⟨rfl, rfl⟩ := alloc_ok.mp declared
    refine ih (fun x name named => ?_) run
    rw [lookup_cons]
    unfold name? at named
    rw [get?_withNode] at named
    split at named
    · rename_i last
      cases named
      rw [if_pos rfl, last]
    · have found := h x name named
      rw [if_neg ?_, found]
      rintro rfl
      cases found.symm.trans new

theorem defineAll_labelled {u : Unit} (h : g.Labelled names)
    (run : defineAll names rules g = .ok (u, g')) : g'.Labelled names := by
  induction rules generalizing g with
  | nil =>
    obtain ⟨-, rfl⟩ := Action.pure_ok.mp run
    exact h
  | cons first rest ih =>
    obtain ⟨body, g₁, lowered, run⟩ := Action.bind_ok.mp run
    obtain ⟨target, _, resolved, run⟩ := Action.bind_ok.mp run
    obtain ⟨-, rfl⟩ := resolve_ok.mp resolved
    obtain ⟨_, g₂, defined, run⟩ := Action.bind_ok.mp run
    obtain ⟨old, there, rfl⟩ := define_ok.mp defined
    refine ih (fun x name named => h x name (lower_name? lowered ?_)) run
    unfold name? at named ⊢
    rw [get?_revised] at named
    split at named
    · rename_i same
      subst same
      rw [there] at named ⊢
      exact named
    · exact named

/-- In the graph of a list of rules a name is that of one nonterminal, and that one has the body of
the rule. -/
theorem ofRules_labelled {start : String} (built : ofRules rules start = .ok (id, g)) :
    ∃ names, g.Draws names rules ∧ names.lookup start = some id ∧
      ∀ x name, g.name? x = some name ↔ names.lookup name = some x := by
  obtain ⟨names, g₁, declared, defined, found⟩ := ofRules_ok built
  have initial : (Grammar.initial : Grammar L).Labelled [] := by
    intro x name named
    obtain ⟨node, there, label⟩ := name?_eq_some.mp named
    obtain ⟨-, undefined⟩ := regular_initial x node there
    cases node with
    | undefined other => exact absurd rfl (undefined other)
    | rule r body => exact absurd (regular_initial x _ there).1 nofun
    | _ => cases label
  refine ⟨names, draws_of_defined declared defined,
    found, fun x name => ⟨?_, defined_name? declared defined⟩⟩
  exact defineAll_labelled (declareAll_labelled initial declared) defined x name

/-! ## Words -/

theorem Draws.matches (h : g.Draws names rules) (derives : lang.Derives rules w)
    (depicts : g.Depicts names lang id) : g.Matches id w := by
  induction derives generalizing id with
  | epsilon | token_epsilon => exact .epsilon depicts
  | token terminal => exact .token depicts terminal
  | alt_left _ ih =>
    obtain ⟨l, r, there, hl, -⟩ := depicts
    exact .alt_left there (ih hl)
  | alt_right _ ih =>
    obtain ⟨l, r, there, -, hr⟩ := depicts
    exact .alt_right there (ih hr)
  | cat _ _ ihl ihr =>
    obtain ⟨l, r, there, hl, hr⟩ := depicts
    exact .cat there (ihl hl) (ihr hr)
  | rep_nil =>
    obtain ⟨b, there, -⟩ := depicts
    exact .rep_nil there
  | rep_cons _ _ ihb ihr =>
    have ⟨b, there, hb⟩ := depicts
    exact .rep_cons there (ihb hb) (ihr depicts)
  | rule member _ ih =>
    -- the name leads to the node that the whole list gave its body, not to what it was when the
    -- reference was made
    obtain ⟨id', r, body, found, there, body_is⟩ := h.rule _ _ member
    cases found.symm.trans depicts
    exact .rule there (ih body_is)

theorem Draws.derives (h : g.Draws names rules) (matched : g.Matches id w)
    (depicts : g.Depicts names lang id) : lang.Derives rules w := by
  induction matched generalizing lang with
  | epsilon there =>
    obtain ⟨rfl, -⟩ | rfl := h.shows depicts there
    · exact .epsilon
    · exact .token_epsilon
  | token there terminal =>
    obtain ⟨-, rfl⟩ | rfl := h.shows depicts there
    · cases terminal
    · exact .token terminal
  | alt_left there _ ih =>
    obtain ⟨left, right, rfl, hl, -⟩ := h.shows depicts there
    exact .alt_left (ih hl)
  | alt_right there _ ih =>
    obtain ⟨left, right, rfl, -, hr⟩ := h.shows depicts there
    exact .alt_right (ih hr)
  | cat there _ _ ihl ihr =>
    obtain ⟨left, right, rfl, hl, hr⟩ := h.shows depicts there
    exact .cat (ihl hl) (ihr hr)
  | rep_nil there =>
    obtain ⟨body, rfl, -⟩ := h.shows depicts there
    exact .rep_nil
  | rep_cons there _ _ ihb ihr =>
    obtain ⟨body, rfl, hb⟩ := h.shows depicts there
    exact .rep_cons (ihb hb) (ihr depicts)
  | rule there _ ih =>
    obtain ⟨name, body, rfl, member, hb⟩ := h.shows depicts there
    exact .rule member (ih hb)
  | matched there | resolved there | waiting there => exact (h.shows depicts there).elim

/-- A node that depicts a language matches the words that the language derives. -/
theorem Draws.matches_iff (h : g.Draws names rules) (depicts : g.Depicts names lang id) :
    g.Matches id w ↔ lang.Derives rules w :=
  ⟨fun matched => h.derives matched depicts, fun derives => h.matches derives depicts⟩

end Grammar

/-! ## Descriptions -/

/-- In the grammar of a list of rules every rule has a node, the only one of its name, and the node
matches the words that the rule derives; the start is the node of the rule of that name. A language
without rules always has a grammar, in which the start matches the words that the language
derives. -/
theorem built_matches :
    (∀ (rules : List (String × Language)) (start : String) (s : NodeId) (g : Grammar L),
      Grammar.ofRules rules start = .ok (s, g) →
        (∀ name lang, (name, lang) ∈ rules → ∃ id, (∀ x, g.name? x = some name ↔ x = id) ∧
          ∀ w, g.Matches id w ↔ (Language.rule name).Derives rules w) ∧
        (∃ lang, (start, lang) ∈ rules) ∧ ∀ x, g.name? x = some start ↔ x = s) ∧
    ∀ lang : Language, lang.isPlain →
    ∃ (s : NodeId) (g : Grammar L), Grammar.ofLanguage lang = .ok (s, g) ∧
      ∀ w, g.Matches s w ↔ lang.Derives [] w := by
  constructor
  · intro rules start s g built
    obtain ⟨names, draws, found, named⟩ := Grammar.ofRules_labelled built
    have only {name : String} {id : NodeId} (found : names.lookup name = some id) (x : NodeId) :
        g.name? x = some name ↔ x = id := by
      rw [named, found, Option.some.injEq, eq_comm]
    refine ⟨fun name lang member => ?_, draws.named start s found, only found⟩
    obtain ⟨id, _, _, found, -⟩ := draws.rule name lang member
    exact ⟨id, only found, fun w => draws.matches_iff found⟩
  · intro lang plain
    have known : ∀ name ∈ lang.references, (([] : Names).lookup name).isSome := by
      rw [Language.references_of_isPlain plain]
      exact nofun
    obtain ⟨s, g, built⟩ := exists_lower (L := L) known Grammar.initial
    exact ⟨s, g, built, fun w => (Grammar.draws_nil g).matches_iff (Grammar.lower_depicts built).2⟩

/-- Two rules that refer to one another, and to themselves. -/
def interlaced : List (String × Language) :=
  [("A", .alt (.cat (.rule "B") (.token 2)) .epsilon),
    ("B", .alt (.cat (.rule "A") (.token 3)) (.cat (.rule "B") (.token 2)))]

theorem built_matches_interlaced :
    ∃ (s : NodeId) (g : Grammar String), Grammar.ofRules interlaced "A" = .ok (s, g) ∧
    (∃ id, (∀ x, g.name? x = some "B" ↔ x = id) ∧
      ∀ w, g.Matches id w ↔ (Language.rule "B").Derives interlaced w) ∧
      ∀ x, g.name? x = some "A" ↔ x = s := by
  obtain ⟨⟨s, g⟩, built⟩ := exists_of_isOk
    (show (Grammar.ofRules (L := String) interlaced "A").isOk = true by decide +kernel)
  obtain ⟨nodes, -, start⟩ := built_matches.1 interlaced "A" s g built
  exact ⟨s, g, built, nodes "B" _ (.tail _ (.head _)), start⟩

end DerivativeParsing
