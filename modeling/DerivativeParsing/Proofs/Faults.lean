import DerivativeParsing.Proofs.Building

/-!
# Which descriptions are refused

A list of rules is gone through twice, and then the start is looked up: first the names are
declared, then the bodies get their graphs. Each time it can fail in one way only, and it fails at
the first place that is wrong.

1. `Faulty` says what is wrong with a description, and which of several faults is reported.
2. `declareAll_repeats`, `lower_unknown`, `defineAll_unknown`: where going through the list fails.
3. `exists_declareAll`, `defineAll_cons`, `exists_defineAll`: that it does not fail elsewhere. A
   nonterminal is without a body until its turn comes (`Pending`), so none is refused a body.
4. `ofRules_faults`: the grammar of a description is built, or else its fault is reported.
-/

namespace DerivativeParsing

open Grammar (lt_size_of_get?)

/-- The names that the bodies of rules refer to, in the order of the list, and in each body from
left to right. -/
def references (rules : List (String × Language)) : List String :=
  rules.flatMap fun rule => rule.2.references

/-- What is wrong with a description. A name repeats an earlier one, and no name before it does;
else a reference is to no rule, and those before it are; else the start is no rule. -/
inductive Faulty (rules : List (String × Language)) (start : String) : Error → Prop
  | repeated {before after : List String} {name : String} :
    rules.map Prod.fst = before ++ name :: after →
    before.Nodup → name ∈ before → Faulty rules start (.duplicateRule name)
  | unknown {before after : List String} {name : String} : (rules.map Prod.fst).Nodup →
    references rules = before ++ name :: after → (∀ other ∈ before, other ∈ rules.map Prod.fst) →
      name ∉ rules.map Prod.fst → Faulty rules start (.unknownRule name)
  | startless : (rules.map Prod.fst).Nodup →
    (∀ name ∈ references rules, name ∈ rules.map Prod.fst) →
    start ∉ rules.map Prod.fst → Faulty rules start (.unknownRule start)

/-! ## The first place that is wrong -/

/-- In a list with repetitions there is a first one. -/
theorem exists_repeat {α : Type} {list : List α} (h : ¬list.Nodup) :
    ∃ before x after, list = before ++ x :: after ∧ before.Nodup ∧ x ∈ before := by
  induction list using List.reverseRecOn with
  | nil => exact absurd .nil h
  | append_singleton list x ih =>
    by_cases nodup : list.Nodup
    · refine ⟨list, x, [], rfl, nodup, ?_⟩
      by_contra new
      exact h (List.nodup_append.mpr ⟨nodup, List.nodup_singleton x, fun a ha b hb => by
        rw [List.mem_singleton.mp hb]
        rintro rfl
        exact new ha⟩)
    · obtain ⟨before, y, after, split, first, member⟩ := ih nodup
      exact ⟨before, y,
        after ++ [x], by rw [split, List.append_assoc, List.cons_append], first, member⟩

/-- A list of which not all is in another has a first element that is not. -/
theorem exists_stranger {list known : List String} (h : ¬∀ name ∈ list, name ∈ known) :
    ∃ before name after, list = before ++ name :: after ∧ (∀ other ∈ before, other ∈ known) ∧
      name ∉ known := by
  induction list with
  | nil => exact absurd (fun _ member => by cases member) h
  | cons first rest ih =>
    by_cases member : first ∈ known
    · have rest : ¬∀ name ∈ rest, name ∈ known := fun all =>
        h (List.forall_mem_cons.mpr ⟨member, all⟩)
      obtain ⟨before, name, after, split, others, stranger⟩ := ih rest
      exact ⟨first :: before, name, after, by
        rw [split, List.cons_append], List.forall_mem_cons.mpr ⟨member, others⟩, stranger⟩
    · exact ⟨[], first, rest, rfl, nofun, member⟩

/-- What comes first in one list after another comes first in the one, or in the other. -/
theorem append_eq_append_cons {α : Type} {a b before after : List α} {x : α}
    (h : a ++ b = before ++ x :: after) :
    (∃ between, before = a ++ between ∧ b = between ++ x :: after) ∨
      ∃ between, a = before ++ x :: between := by
  rcases List.append_eq_append_iff.mp h with ⟨between, before_is, b_is⟩ | ⟨between, a_is, rest⟩
  · exact .inl ⟨between, before_is, b_is⟩
  · cases between with
    | nil => exact .inl ⟨[], by simpa using a_is.symm, rest.symm⟩
    | cons y between =>
      obtain ⟨rfl, -⟩ := List.cons.inj rest
      exact .inr ⟨between, a_is⟩

/-- A description has a fault, or nothing is wrong with it. -/
theorem faulty_or_faultless (rules : List (String × Language)) (start : String) :
    (∃ e, Faulty rules start e) ∨
      (rules.map Prod.fst).Nodup ∧ (∀ name ∈ references rules, name ∈ rules.map Prod.fst) ∧
      start ∈ rules.map Prod.fst := by
  by_cases nodup : (rules.map Prod.fst).Nodup
  · by_cases known : ∀ name ∈ references rules, name ∈ rules.map Prod.fst
    · by_cases found : start ∈ rules.map Prod.fst
      · exact .inr ⟨nodup, known, found⟩
      · exact .inl ⟨_, .startless nodup known found⟩
    · obtain ⟨before, name, after, split, others, stranger⟩ := exists_stranger known
      exact .inl ⟨_, .unknown nodup split others stranger⟩
  · obtain ⟨before, name, after, split, first, member⟩ := exists_repeat nodup
    exact .inl ⟨_, .repeated split first member⟩

variable {L : Type}

section Reading

variable {g g' : Grammar L} {names : Names} {list : List String} {before after : List String}
  {name : String} {lang : Language} {rules : List (String × Language)} {waiting : List String}

/-! ## Names -/

/-- Some names have nonterminals without a body. -/
def Pending (names : Names) (waiting : List String) (g : Grammar L) : Prop :=
  ∀ name ∈ waiting, ∃ id, names.lookup name = some id ∧ g.arena.get? id = some (.undefined name)

theorem isSome_lookup_cons (name other : String) (id : NodeId) :
    (((name, id) :: names : Names).lookup other).isSome ↔
      other = name ∨ (names.lookup other).isSome := by
  rw [lookup_cons]
  split
  · rename_i same
    simp [same]
  · rename_i ne
    simp [ne]

theorem declareAll_repeats (split : list = before ++ name :: after) (nodup : before.Nodup)
    (new : ∀ other ∈ before, names.lookup other = none)
    (known : name ∈ before ∨ (names.lookup name).isSome) :
    Grammar.declareAll names list g = .error (.duplicateRule name) := by
  induction before generalizing names list g with
  | nil =>
    have found : (names.lookup name).isSome := known.resolve_left List.not_mem_nil
    rw [split, List.nil_append, Grammar.declareAll, if_pos found]
    rfl
  | cons first before ih =>
    have unknown : ¬(names.lookup first).isSome := by simp [new first (.head _)]
    rw [split, List.cons_append, Grammar.declareAll, if_neg unknown]
    refine (Action.bind_of_ok rfl).trans
      (ih rfl (List.nodup_cons.mp nodup).2 (fun other member => ?_) ?_)
    · rw [lookup_cons, if_neg, new other (.tail _ member)]
      rintro rfl
      exact (List.nodup_cons.mp nodup).1 member
    · rw [isSome_lookup_cons]
      rcases known with member | found
      · exact (List.mem_cons.mp member).symm.imp_right .inl
      · exact .inr (.inr found)

theorem exists_declareAll (nodup : list.Nodup) (new : ∀ name ∈ list, names.lookup name = none)
    (pending : Pending names waiting g) :
    ∃ names' g', Grammar.declareAll names list g = .ok (names', g') ∧
      Pending names' (waiting ++ list) g' ∧
        ∀ name, (names'.lookup name).isSome ↔ (names.lookup name).isSome ∨ name ∈ list := by
  induction list generalizing names g waiting with
  | nil => exact ⟨names, g, rfl, by rwa [List.append_nil], fun name => by simp⟩
  | cons first rest ih =>
    obtain ⟨stranger, nodup⟩ := List.nodup_cons.mp nodup
    have unknown : ¬(names.lookup first).isSome := by simp [new first (.head _)]
    have pending₁ : Pending ((first, g.size) :: names) (waiting ++ [first])
        (g.withNode (.undefined first)) := by
      intro name member
      rw [lookup_cons]
      by_cases same : name = first
      · exact ⟨g.size, if_pos same, by rw [same, Grammar.get?_withNode_self]⟩
      · have member : name ∈ waiting := by simpa [same] using member
        obtain ⟨id, found, there⟩ := pending name member
        exact ⟨id, (if_neg same).trans found,
          (Grammar.get?_withNode_of_lt (lt_size_of_get? there)).trans there⟩
    obtain ⟨names', g', run, pending', known⟩ := ih nodup (fun name member => by
      rw [lookup_cons, if_neg, new name (.tail _ member)]
      rintro rfl
      exact stranger member) pending₁
    refine ⟨names', g', ?_, ?_, fun name => ?_⟩
    · rw [Grammar.declareAll, if_neg unknown]
      exact (Action.bind_of_ok rfl).trans run
    · rwa [List.append_assoc] at pending'
    · rw [known, isSome_lookup_cons, List.mem_cons, or_assoc, or_left_comm]

/-! ## Bodies -/

/-- The first name without a nonterminal is refused, the left part of a language coming before the
right one. -/
theorem lower_unknown (split : lang.references = before ++ name :: after)
    (known : ∀ other ∈ before, (names.lookup other).isSome) (unknown : names.lookup name = none) :
    Grammar.lower names lang g = .error (.unknownRule name) := by
  induction lang generalizing before after g with
  | epsilon | token => simp [Language.references] at split
  | alt left right ihl ihr | cat left right ihl ihr =>
    rcases append_eq_append_cons split with ⟨between, rfl, right_is⟩ | ⟨between, left_is⟩
    · obtain ⟨l, g₁, hl⟩ :=
        exists_lower (fun other member => known other (List.mem_append_left _ member)) g
      refine (Action.bind_of_ok hl).trans (Action.bind_of_error ?_)
      exact ihr right_is fun other member => known other (List.mem_append_right _ member)
    · exact Action.bind_of_error (ihl left_is known)
  | rep body ih => exact Action.bind_of_error (ih split known)
  | rule other =>
    obtain ⟨rfl, same⟩ : before = [] ∧ [other] = name :: after := by
      cases before with
      | nil => exact ⟨rfl, split⟩
      | cons first before =>
        have := congrArg List.length split
        simp [Language.references] at this
    obtain ⟨rfl, -⟩ := List.cons.inj same
    unfold Grammar.lower Grammar.resolve
    rw [unknown]
    rfl

/-- Adding the graph of a language leaves the slots as they are. -/
theorem lower_old {id : NodeId} (run : Grammar.lower names lang g = .ok (id, g')) {i : Nat}
    (lt : i < g.size) : g'.arena.get? i = g.arena.get? i := by
  induction lang generalizing g id g' with
  | epsilon | token =>
    obtain ⟨-, rfl⟩ := Grammar.alloc_ok.mp run
    exact Grammar.get?_withNode_of_lt lt
  | alt left right ihl ihr | cat left right ihl ihr =>
    obtain ⟨l, g₁, hl, run⟩ := Action.bind_ok.mp run
    obtain ⟨r, g₂, hr, run⟩ := Action.bind_ok.mp run
    obtain ⟨-, rfl⟩ := Grammar.alloc_ok.mp run
    obtain ⟨node, there⟩ := Grammar.exists_get? lt
    have there₁ := (ihl hl lt).trans there
    have there₂ := (ihr hr (lt_size_of_get? there₁)).trans there₁
    rw [Grammar.get?_withNode_of_lt (lt_size_of_get? there₂), there₂, there]
  | rep body ih =>
    obtain ⟨b, g₁, hb, run⟩ := Action.bind_ok.mp run
    obtain ⟨-, rfl⟩ := Grammar.alloc_ok.mp run
    obtain ⟨node, there⟩ := Grammar.exists_get? lt
    have there₁ := (ih hb lt).trans there
    rw [Grammar.get?_withNode_of_lt (lt_size_of_get? there₁), there₁, there]
  | rule name =>
    obtain ⟨-, rfl⟩ := Grammar.resolve_ok.mp run
    rfl

/-- When the turn of a nonterminal comes, it gets its body, and the others stay without. -/
theorem defineAll_cons (lang : Language)
    (known : ∀ other ∈ lang.references, (names.lookup other).isSome)
    (pending : Pending names (name :: waiting) g) (nodup : (name :: waiting).Nodup) :
    ∃ g₁, Pending names waiting g₁ ∧
      ∀ rest, Grammar.defineAll names ((name, lang) :: rest) g =
        Grammar.defineAll names rest g₁ := by
  obtain ⟨body, g₁, lowered⟩ := exists_lower known g
  have pending₁ : Pending names (name :: waiting) g₁ := by
    intro other member
    obtain ⟨id, found, there⟩ := pending other member
    exact ⟨id, found, (lower_old lowered (lt_size_of_get? there)).trans there⟩
  obtain ⟨target, found, there⟩ := pending₁ name (.head _)
  refine ⟨g₁.revised target fun _ => .rule { name } body, fun other member => ?_, fun rest => ?_⟩
  · obtain ⟨id, found', there'⟩ := pending₁ other (.tail _ member)
    refine ⟨id, found', ?_⟩
    rw [Grammar.get?_revised, if_neg, there']
    -- the slot of another name is another slot
    rintro rfl
    cases there.symm.trans there'
    exact (List.nodup_cons.mp nodup).1 member
  · refine (Action.bind_of_ok lowered).trans ?_
    refine (Action.bind_of_ok (Grammar.resolve_ok.mpr ⟨found, rfl⟩)).trans ?_
    have defined :
        Grammar.define target body g₁ = .ok ((), g₁.revised target fun _ => .rule { name } body) :=
      Grammar.define_ok.mpr ⟨name, there, rfl⟩
    exact Action.bind_of_ok defined

theorem exists_defineAll (known : ∀ other ∈ references rules, (names.lookup other).isSome)
    (pending : Pending names (rules.map Prod.fst) g) (nodup : (rules.map Prod.fst).Nodup) :
    ∃ g', Grammar.defineAll names rules g = .ok ((), g') := by
  induction rules generalizing g with
  | nil => exact ⟨g, rfl⟩
  | cons rule rest ih =>
    obtain ⟨g₁, pending₁, next⟩ :=
      defineAll_cons rule.2 (fun other member => known other (List.mem_append_left _ member))
        pending nodup
    rw [next]
    exact ih (fun other member => known other (List.mem_append_right _ member)) pending₁
      (List.nodup_cons.mp nodup).2

/-- The first name in the bodies without a nonterminal is refused. -/
theorem defineAll_unknown (split : references rules = before ++ name :: after)
    (known : ∀ other ∈ before, (names.lookup other).isSome) (unknown : names.lookup name = none)
    (pending : Pending names (rules.map Prod.fst) g) (nodup : (rules.map Prod.fst).Nodup) :
    Grammar.defineAll names rules g = .error (.unknownRule name) := by
  induction rules generalizing before after g with
  | nil => simp [references] at split
  | cons rule rest ih =>
    obtain ⟨first, lang⟩ := rule
    have split : lang.references ++ references rest = before ++ name :: after := split
    rcases append_eq_append_cons split with ⟨between, rfl, later⟩ | ⟨between, here⟩
    · obtain ⟨g₁, pending₁, next⟩ :=
        defineAll_cons lang (fun other member => known other (List.mem_append_left _ member))
          pending nodup
      rw [next]
      exact ih later (fun other member => known other (List.mem_append_right _ member)) pending₁
        (List.nodup_cons.mp nodup).2
    · exact Action.bind_of_error (lower_unknown here known unknown)

end Reading

/-! ## Whole descriptions -/

section Described

variable {rules : List (String × Language)} {start : String} {e : Error}

/-- When the names are different, they are declared, and no others. -/
theorem exists_declared (nodup : (rules.map Prod.fst).Nodup) : ∃ names g,
    Grammar.declareAll [] (rules.map Prod.fst) (Grammar.initial : Grammar L) = .ok (names, g) ∧
      Pending names (rules.map Prod.fst) g ∧
        ∀ name, (names.lookup name).isSome ↔ name ∈ rules.map Prod.fst := by
  have none : Pending [] [] (Grammar.initial : Grammar L) := nofun
  obtain ⟨names, g, run, pending, known⟩ := exists_declareAll nodup (fun _ _ => rfl) none
  exact ⟨names, g, run, pending, fun name => by simpa using known name⟩

theorem ofRules_of_faulty (faulty : Faulty rules start e) :
    (Grammar.ofRules rules start : Except Error (NodeId × Grammar L)) = .error e := by
  cases faulty with
  | repeated split first member =>
    exact Action.bind_of_error (declareAll_repeats split first (fun _ _ => rfl) (.inl member))
  | unknown nodup split others stranger =>
    obtain ⟨names, g, declared, pending, known⟩ := exists_declared (L := L) nodup
    have unknown := Option.not_isSome_iff_eq_none.mp (mt (known _).mp stranger)
    refine (Action.bind_of_ok declared).trans (Action.bind_of_error ?_)
    exact defineAll_unknown split (fun other member => (known other).mpr (others other member))
      unknown pending nodup
  | startless nodup all stranger =>
    obtain ⟨names, g, declared, pending, known⟩ := exists_declared (L := L) nodup
    obtain ⟨g', defined⟩ :=
      exists_defineAll (fun other member => (known other).mpr (all other member)) pending nodup
    refine (Action.bind_of_ok declared).trans
      ((Action.bind_of_ok defined).trans (Action.bind_of_error ?_))
    unfold Grammar.resolve
    rw [Option.not_isSome_iff_eq_none.mp (mt (known _).mp stranger)]
    rfl

/-- When nothing is wrong with a description, its grammar is built. -/
theorem exists_ofRules (nodup : (rules.map Prod.fst).Nodup)
    (all : ∀ name ∈ references rules, name ∈ rules.map Prod.fst)
    (member : start ∈ rules.map Prod.fst) :
    ∃ p, (Grammar.ofRules rules start : Except Error (NodeId × Grammar L)) = .ok p := by
  classical
  obtain ⟨names, g, declared, pending, known⟩ := exists_declared (L := L) nodup
  obtain ⟨g', defined⟩ :=
    exists_defineAll (fun other member => (known other).mpr (all other member)) pending nodup
  obtain ⟨root, found⟩ := Option.isSome_iff_exists.mp ((known start).mpr member)
  obtain ⟨W, drafted, named, bodies⟩ := defined_ok declared defined
  have valid :=
    Grammar.validate_ok (drafted.formed.ranged true) (named start root found).2.1.lt_size bodies
  refine ⟨(root, g'), (Action.bind_of_ok declared).trans ((Action.bind_of_ok defined).trans ?_)⟩
  refine (Action.bind_of_ok (Grammar.resolve_ok.mpr ⟨found, rfl⟩)).trans ?_
  refine (Action.bind_of_ok (Action.get_ok.mpr ⟨rfl, rfl⟩)).trans ?_
  exact (Action.bind_of_ok (Action.lift_ok.mpr ⟨valid, rfl⟩)).trans rfl

/-- The grammar of a list of rules is built exactly if all names are different, every reference in
every body is to a rule, and the start is one. Else the fault of the description is reported: a name
that repeats an earlier one, else a reference to no rule, else the start. No other error comes
up. -/
theorem ofRules_faults (rules : List (String × Language)) (start : String) :
    ((∃ p, (Grammar.ofRules rules start : Except Error (NodeId × Grammar L)) = .ok p) ↔
      (rules.map Prod.fst).Nodup ∧
        (∀ rule ∈ rules, ∀ name ∈ rule.2.references, name ∈ rules.map Prod.fst) ∧
          start ∈ rules.map Prod.fst) ∧
    (∀ e, (Grammar.ofRules rules start : Except Error (NodeId × Grammar L)) = .error e ↔
      Faulty rules start e) ∧
    ∀ (name : String) (node : NodeId),
      ∀ e ∈ [Error.undefined name, .redefined name, .notANonterminal node],
      (Grammar.ofRules rules start : Except Error (NodeId × Grammar L)) ≠ .error e := by
  have bodies : (∀ rule ∈ rules, ∀ name ∈ rule.2.references, name ∈ rules.map Prod.fst) ↔
      ∀ name ∈ references rules, name ∈ rules.map Prod.fst := by
    simp only [references, List.mem_flatMap, forall_exists_index, and_imp]
    exact ⟨fun h name rule member here => h rule member name here, fun h rule member name here =>
      h name rule member here⟩
  have reported (e : Error) :
      (Grammar.ofRules rules start : Except Error (NodeId × Grammar L)) = .error e ↔
      Faulty rules start e := by
    refine ⟨fun refused => ?_, ofRules_of_faulty⟩
    rcases faulty_or_faultless rules start with ⟨e', faulty⟩ | ⟨nodup, all, member⟩
    · cases refused.symm.trans (ofRules_of_faulty faulty)
      exact faulty
    · obtain ⟨p, built⟩ := exists_ofRules (L := L) nodup all member
      cases refused.symm.trans built
  refine ⟨?_, reported, fun name node e member refused => ?_⟩
  · rw [bodies]
    refine ⟨fun ⟨p, built⟩ => ?_, fun ⟨nodup, all, member⟩ => exists_ofRules nodup all member⟩
    refine (faulty_or_faultless rules start).resolve_left fun ⟨e, faulty⟩ => ?_
    cases built.symm.trans (ofRules_of_faulty faulty)
  · have faulty := (reported e).mp refused
    simp only [List.mem_cons, List.not_mem_nil, or_false] at member
    rcases member with rfl | rfl | rfl <;> cases faulty

end Described

end DerivativeParsing
