import DerivativeParsing.Proofs.Building
import DerivativeParsing.Proofs.Extracting
import DerivativeParsing.Proofs.Rooted
import DerivativeParsing.Recognizer

/-!
# Runs of a recognizer

1. `Consistent` says that the node after each symbol stands for no more than what may follow,
   `Exact` that it stands for no less. `Follows` is what a call does to a recognizer.
2. `Fed`, `Asked`, `Recognized`: what the calls answer besides, as far as the invariants go.
   `feed_fed`, `accepted_asked`, `recognize_recognized`: a call that answers, answers so.
3. `Recognizer.Settles`: given enough fuel a call answers, or it breaks, because a symbol is
   consumed with a period of no steps. `feed_settles`, `feedAll_settles`, `recognize_settles`: so do
   the calls. `recognize_breaks_iff` tells when.
-/

namespace DerivativeParsing

open Grammar (nothing lt_size_of_get?)

/-! ## What is left of a meaning after a word -/

/-- What is left of a meaning after symbols of some kinds. -/
def Meaning.afterAll (a : Meaning) (word : Word) : Meaning := word.foldl Meaning.after a

namespace Meaning

variable {a : Meaning} {u w : Word} {kind : Kind}

theorem afterAll_append : a.afterAll (u ++ [kind]) = (a.afterAll u).after kind := by
  rw [afterAll, List.foldl_append]
  rfl

theorem afterAll_holds : (a.afterAll u).words.Holds w ↔ a.words.Holds (u ++ w) := by
  induction u generalizing a with
  | nil => rfl
  | cons first u ih => exact ih (a := a.after first)

end Meaning

/-! ## What holds between calls -/

def Recognizer.word {L : Type} (r : Recognizer L) : Word := r.input.map Symbol.kind

/-- Nothing is claimed too much, if the start is to stand for `origin`. -/
structure Consistent {L : Type} [DecidableEq L] (links : Links) (origin : Meaning) (W : World)
    (r : Recognizer L) : Prop where
  good : Good links W r.grammar
  range : ∀ id ∈ r.chain, r.grammar.size > id
  start : W r.start = origin
  chain : ∀ (k : Nat) id, r.chain[k]? = some id → (W id).Refines (origin.afterAll (r.word.take k))

/-- Nothing is claimed too little, if rules are stored rightly. -/
structure Exact {L : Type} [DecidableEq L] (links : Links) (origin : Meaning) (W : World)
    (r : Recognizer L) : Prop where
  trusting : Trusting links W r.grammar
  chain : Trust links W r.grammar → ∀ (k : Nat) id, r.chain[k]? = some id →
    (origin.afterAll (r.word.take k)).words.Under (W id).words

/-- Rules may be stored wrongly and forgotten again only if they are entangled and nodes are
collected. -/
def Recognizer.Remembers {L : Type} (links : Links) (r : Recognizer L) : Prop :=
  ¬links.Entangled ∨ r.settings.collectEvery = none

/-- What a call does to a recognizer. -/
structure Follows {L : Type} [DecidableEq L] (links : Links) (origin : Meaning) (W : World)
    (r : Recognizer L) (W' : World) (r' : Recognizer L) : Prop where
  consistent : Consistent links origin W' r'
  settings : r'.settings = r.settings
  trusting : r.Remembers links → Trusting links W r.grammar → Trusting links W' r'.grammar
  exact : r.Remembers links → Exact links origin W r → Exact links origin W' r'
  regular : r.grammar.Regular → r'.grammar.Regular
  proper : r.grammar.Proper → r'.grammar.Proper
  vetted : r.grammar.Proper → Vetted W r.grammar → Vetted W' r'.grammar
  names : ∃ names, (r.settings.collectEvery = none → names = some) ∧
    Relocates names W r.grammar r.start W' r'.grammar r'.start

section Follows

variable {L : Type} [DecidableEq L] {links : Links} {origin : Meaning} {W W₁ W₂ W' : World}
  {r r₁ r₂ r' : Recognizer L} {g' : Grammar L}

omit [DecidableEq L] in
theorem Recognizer.current_mem_chain (r : Recognizer L) : r.current ∈ r.chain :=
  List.mem_of_getLast? r.getLast?_chain

omit [DecidableEq L] in
theorem Recognizer.length_word (r : Recognizer L) : r.word.length = r.input.length :=
  List.length_map _

omit [DecidableEq L] in
theorem Recognizer.getElem?_chain (r : Recognizer L) :
    r.chain[r.word.length]? = some r.current := by
  have last := r.getLast?_chain
  rwa [List.getLast?_eq_getElem?, r.length_chain, Nat.add_sub_cancel, ← r.length_word] at last

theorem Consistent.current (h : Consistent links origin W r) :
    (W r.current).Refines (origin.afterAll r.word) := by
  have last := h.chain _ _ r.getElem?_chain
  rwa [List.take_length] at last

theorem Exact.under (h : Exact links origin W r) (trust : Trust links W r.grammar) :
    (origin.afterAll r.word).words.Under (W r.current).words := by
  have last := h.chain trust _ _ r.getElem?_chain
  rwa [List.take_length] at last

theorem Follows.refl (consistent : Consistent links origin W r) : Follows links origin W r W r where
  consistent := consistent
  settings := rfl
  trusting _ h := h
  exact _ h := h
  regular h := h
  proper h := h
  vetted _ h := h
  names := ⟨some, fun _ => rfl, .carried (.refl consistent.good)⟩

theorem Follows.remembers (h : Follows links origin W r W' r') (remembers : r.Remembers links) :
    r'.Remembers links := by
  unfold Recognizer.Remembers
  rw [h.settings]
  exact remembers

theorem Follows.trans (h : Follows links origin W r W₁ r₁) (h' : Follows links origin W₁ r₁ W₂ r₂) :
    Follows links origin W r W₂ r₂ where
  consistent := h'.consistent
  settings := h'.settings.trans h.settings
  trusting remembers trusting := h'.trusting (h.remembers remembers) (h.trusting remembers trusting)
  exact remembers exact := h'.exact (h.remembers remembers) (h.exact remembers exact)
  regular reg := h'.regular (h.regular reg)
  proper proper := h'.proper (h.proper proper)
  vetted proper vetted := h'.vetted (h.proper proper) (h.vetted proper vetted)
  names := by
    obtain ⟨names, still, relocates⟩ := h.names
    obtain ⟨names', still', relocates'⟩ := h'.names
    refine ⟨_, fun none => ?_, relocates.trans relocates'⟩
    rw [h.settings] at still'
    rw [still none, still' none]
    rfl

theorem Follows.rooted (h : Follows links origin W r W' r') (D : Readings L)
    (rooted : ∃ O, Rooted D O W r.grammar r.start) : ∃ O, Rooted D O W' r'.grammar r'.start := by
  obtain ⟨names, -, relocates⟩ := h.names
  obtain ⟨O, rooted⟩ := rooted
  exact ⟨_, relocates.rooted rooted⟩

theorem Follows.alive (h : Follows links origin W r W' r') (alive : r.start ≠ nothing) :
    r'.start ≠ nothing := by
  obtain ⟨names, -, relocates⟩ := h.names
  exact relocates.alive alive

/-- Nothing is claimed too little before a call, and nothing is forgotten in between or stored
wrongly after it. -/
structure Assured (links : Links) (W : World) (r : Recognizer L) (W' : World) (r' : Recognizer L) :
    Prop where
  remembers : r.Remembers links
  trusting : Trusting links W r.grammar
  trust : Trust links W' r'.grammar

/-- What holds of two calls unless rules are entangled, and one of them is stored wrongly, holds of
both together under that exception. -/
theorem both_or_misled {a b tangled uncollected misled misled' : Prop}
    (h : a ∨ tangled ∧ (uncollected → misled)) (h' : b ∨ tangled ∧ (uncollected → misled')) :
    a ∧ b ∨ tangled ∧ (uncollected → misled ∨ misled') := by
  rcases h with ha | ⟨entangled, wrong⟩
  · exact h'.imp (fun hb => ⟨ha, hb⟩) (And.imp_right fun wrong => .inr ∘ wrong)
  · exact .inr ⟨entangled, .inl ∘ wrong⟩

/-- A call is assured, unless rules are entangled; and if nothing is collected, then one of them is
stored wrongly. -/
theorem Follows.assured_or_misled (h : Follows links origin W r W' r')
    (exact : r.Remembers links → Exact links origin W r) :
    Assured links W r W' r' ∨
      links.Entangled ∧ (r.settings.collectEvery = none → r'.grammar.Misled) := by
  by_cases tangled : links.Entangled
  · by_cases misled : r.settings.collectEvery = none → r'.grammar.Misled
    · exact .inr ⟨tangled, misled⟩
    · obtain ⟨none, right⟩ := Classical.not_imp.mp misled
      have remembers : r.Remembers links := .inr none
      have trusting := (exact remembers).trusting
      exact .inl ⟨remembers, trusting,
        (h.trusting remembers trusting).trust h.consistent.good right⟩
  · have remembers : r.Remembers links := .inl tangled
    exact .inl ⟨remembers, (exact remembers).trusting, .of_untangled tangled⟩

def Recognizer.withGrammar (r : Recognizer L) (g : Grammar L) : Recognizer L :=
  { r with grammar := g }

theorem Consistent.carried (h : Consistent links origin W r)
    (carries : Carries links W r.grammar W' g') :
    Follows links origin W r W' (r.withGrammar g') where
  consistent := by
    refine ⟨carries.good, fun id hid => Nat.lt_of_lt_of_le (h.range id hid) carries.size,
      ?_, fun k id there => ?_⟩
    · exact (carries.world _ (h.range _ (.head _))).trans h.start
    · rw [carries.world _ (h.range _ (List.mem_of_getElem? there))]
      exact h.chain k id there
  settings := rfl
  trusting _ := carries.trusting
  exact _ exact := by
    refine ⟨carries.trusting exact.trusting, fun trust k id there => ?_⟩
    rw [carries.world _ (h.range _ (List.mem_of_getElem? there))]
    exact exact.chain (carries.trust trust) k id there
  regular := carries.regular
  proper := carries.proper
  vetted := carries.vetted
  names := ⟨some, fun _ => rfl, .carried carries⟩

omit [DecidableEq L] in
theorem Recognizer.getElem?_chain_start {k : Nat} {id : NodeId} (none : r.taken = #[])
    (there : r.chain[k]? = some id) : k = 0 ∧ id = r.start := by
  rw [chain, none] at there
  cases k with
  | zero => exact ⟨rfl, (Option.some.inj there).symm⟩
  | succ => cases there

theorem Consistent.restarted (h : Consistent links origin W r) :
    Consistent links origin W { r with taken := #[] } where
  good := h.good
  range id hid := by
    obtain rfl := List.mem_singleton.mp hid
    exact h.range _ (.head _)
  start := h.start
  chain k id there := by
    obtain ⟨rfl, rfl⟩ := Recognizer.getElem?_chain_start rfl there
    show (W r.start).Refines origin
    rw [h.start]
    exact .refl origin

theorem exact_restarted (origin_is : W r.start = origin) (trusting : Trusting links W r.grammar) :
    Exact links origin W { r with taken := #[] } where
  trusting := trusting
  chain _ k id there := by
    obtain ⟨rfl, rfl⟩ := Recognizer.getElem?_chain_start rfl there
    show origin.words.Under (W r.start).words
    rw [origin_is]
    exact .refl _

theorem Consistent.reset (h : Consistent links origin W r) :
    Follows links origin W r W { r with taken := #[] } where
  consistent := h.restarted
  settings := rfl
  trusting _ h := h
  exact _ exact := exact_restarted h.start exact.trusting
  regular h := h
  proper h := h
  vetted _ h := h
  names := ⟨some, fun _ => rfl, .carried (.refl h.good)⟩

/-- The same recognizer with another grammar, a symbol more, and the node after it. -/
def Recognizer.advanced (r : Recognizer L) (s : Symbol L) (next : NodeId) (g : Grammar L) :
    Recognizer L :=
  { r with grammar := g, taken := r.taken.push (s, next) }

section Advanced

variable {s : Symbol L} {next : NodeId}

omit [DecidableEq L] in
@[simp] theorem Recognizer.word_advanced : (r.advanced s next g').word = r.word ++ [s.kind] := by
  simp [word, input, advanced]

omit [DecidableEq L] in
@[simp] theorem Recognizer.current_advanced : (r.advanced s next g').current = next := by
  simp [current, advanced]

omit [DecidableEq L] in
@[simp] theorem Recognizer.chain_advanced : (r.advanced s next g').chain = r.chain ++ [next] := by
  simp [chain, advanced]

omit [DecidableEq L] in
/-- A node of the chain after a step was there before, or it is the one that the step led to. -/
theorem Recognizer.getElem?_chain_advanced {k : Nat} {id : NodeId}
    (there : (r.advanced s next g').chain[k]? = some id) :
    r.chain[k]? = some id ∧ (r.advanced s next g').word.take k = r.word.take k ∨
      id = next ∧ (r.advanced s next g').word.take k = r.word ++ [s.kind] := by
  have length : r.chain.length = r.word.length + 1 := by rw [r.length_chain, r.length_word]
  rw [chain_advanced, List.getElem?_append, length] at there
  rw [word_advanced]
  split at there
  · rename_i lt
    exact .inl ⟨there, List.take_append_of_le_length (Nat.le_of_lt_succ lt)⟩
  · obtain ⟨lt, same⟩ := List.getElem?_eq_some_iff.mp there
    rw [List.length_singleton] at lt
    exact .inr ⟨by simpa using same.symm, List.take_of_length_le (by simp; omega)⟩

theorem Consistent.advanced {culling accepts : Bool} (h : Consistent links origin W r)
    (stepped : Stepped links W r.grammar r.current s.kind culling next accepts W' g') :
    Follows links origin W r W' (r.advanced s next g') where
  consistent := by
    refine ⟨stepped.carries.good, fun id hid => ?_, ?_, fun k id there => ?_⟩
    · rw [Recognizer.chain_advanced] at hid
      rcases List.mem_append.mp hid with hid | hid
      · exact Nat.lt_of_lt_of_le (h.range id hid) stepped.carries.size
      · obtain rfl := List.mem_singleton.mp hid
        exact stepped.solid.lt_size
    · exact (stepped.carries.world _ (h.range _ (.head _))).trans h.start
    · rcases Recognizer.getElem?_chain_advanced there with ⟨before, same⟩ | ⟨rfl, same⟩
      · rw [same, stepped.carries.world _ (h.range _ (List.mem_of_getElem? before))]
        exact h.chain k id before
      · rw [same, Meaning.afterAll_append]
        exact stepped.refines.trans (h.current.after s.kind)
  settings := rfl
  trusting _ := stepped.carries.trusting
  exact _ exact := by
    refine ⟨stepped.carries.trusting exact.trusting, fun trust k id there => ?_⟩
    rcases Recognizer.getElem?_chain_advanced there with ⟨before, same⟩ | ⟨rfl, same⟩
    · rw [same, stepped.carries.world _ (h.range _ (List.mem_of_getElem? before))]
      exact exact.chain (stepped.carries.trust trust) k id before
    · rw [same, Meaning.afterAll_append]
      exact ((exact.under (stepped.carries.trust trust)).after s.kind).trans
        (stepped.under exact.trusting trust)
  regular := stepped.carries.regular
  proper := stepped.carries.proper
  vetted := stepped.carries.vetted
  names := ⟨some, fun _ => rfl, .carried stepped.carries⟩

end Advanced

/-! ## Collection -/

def Recognizer.moved (r : Recognizer L) (place : NodeId → Option NodeId) (g : Grammar L) :
    Recognizer L :=
  { r with
    grammar := g
    start := movedBy place r.start
    taken := r.taken.map fun (s, node) => (s, movedBy place node) }

section Moved

variable {place : NodeId → Option NodeId}

omit [DecidableEq L] in
@[simp] theorem Recognizer.word_moved : (r.moved place g').word = r.word := by
  simp [word, input, moved, Function.comp_def]

omit [DecidableEq L] in
@[simp] theorem Recognizer.chain_moved :
    (r.moved place g').chain = r.chain.map (movedBy place) := by
  simp [chain, moved, Function.comp_def]

omit [DecidableEq L] in
@[simp] theorem Recognizer.current_moved :
    (r.moved place g').current = movedBy place r.current := by
  unfold current moved
  cases last : r.taken.back? with
  | none => simp [last]
  | some p => simp [last]

section

variable (has : ∀ id ∈ r.chain, ∃ y, place id = some y) (change : Grammar.Moved place r.grammar g')
include has change

omit [DecidableEq L] in
theorem Recognizer.renamed_of_mem {id : NodeId} (hid : id ∈ r.chain) :
    W.renamed place (movedBy place id) = W id := by
  obtain ⟨y, hy⟩ := has id hid
  rw [Grammar.movedBy_of_some hy, change.renamed hy]

/-- A recognizer after a collection: its nodes stand for what they stood for. Where rules may have
been stored wrongly it can no longer be told from the grammar, unless that does not matter. -/
theorem Consistent.moved (h : Consistent links origin W r)
    (collects : r.settings.collectEvery ≠ none) :
    Follows links origin W r (W.renamed place) (r.moved place g') := by
  have untangled (remembers : r.Remembers links) : ¬links.Entangled :=
    remembers.resolve_right collects
  have chain {k : Nat} {id : NodeId} (there : (r.moved place g').chain[k]? = some id) :
      ∃ old, r.chain[k]? = some old ∧ W.renamed place id = W old := by
    rw [Recognizer.chain_moved, List.getElem?_map] at there
    obtain ⟨old, before, rfl⟩ := Option.map_eq_some_iff.mp there
    exact ⟨old, before, Recognizer.renamed_of_mem has change (List.mem_of_getElem? before)⟩
  have trusting (remembers : r.Remembers links) (trusting : Trusting links W r.grammar) :
      Trusting links (W.renamed place) g' := fun k _ =>
    change.complete (trusting k fun tangled => absurd tangled (untangled remembers))
  exact {
    consistent := by
      refine ⟨change.good h.good, fun id hid => ?_, ?_, fun k id there => ?_⟩
      · rw [Recognizer.chain_moved] at hid
        obtain ⟨old, member, rfl⟩ := List.mem_map.mp hid
        obtain ⟨y, hy⟩ := has old member
        rw [Grammar.movedBy_of_some hy]
        exact change.lt_size hy
      · exact (Recognizer.renamed_of_mem has change (.head _)).trans h.start
      · obtain ⟨old, there, same⟩ := chain there
        rw [same, Recognizer.word_moved]
        exact h.chain k old there
    settings := rfl
    trusting := trusting
    exact := fun remembers exact => by
      refine ⟨trusting remembers exact.trusting, fun _ k id there => ?_⟩
      obtain ⟨old, there, same⟩ := chain there
      rw [same, Recognizer.word_moved]
      exact exact.chain (.of_untangled (untangled remembers)) k old there
    regular := change.regular
    proper := change.proper
    vetted := fun _ => change.vetted
    names := ⟨place, fun none => absurd none collects, .moved change (has _ (.head _))⟩ }

omit [DecidableEq L] in
theorem Recognizer.renamed_current : W.renamed place (r.moved place g').current = W r.current := by
  rw [Recognizer.current_moved, Recognizer.renamed_of_mem has change r.current_mem_chain]

omit [DecidableEq L] in
theorem Recognizer.current_moved_eq_nothing :
    (r.moved place g').current = nothing ↔ r.current = nothing := by
  obtain ⟨y, hy⟩ := has _ r.current_mem_chain
  rw [Recognizer.current_moved, Grammar.movedBy_of_some hy]
  exact change.eq_nothing hy

end

end Moved

/-! ## What comes of a call -/

section Outcome

variable {α β : Type} {act : Nat → Recognizing L α} {k : Nat → α → Recognizing L β}
  {Q Q' : α → Recognizer L → Prop} {R : β → Recognizer L → Prop}

omit [DecidableEq L] in
/-- The call fails, because the recognizer is to collect nodes every no steps. -/
structure Recognizer.Breaks (r : Recognizer L) (act : Nat → Recognizing L α) : Prop where
  zero : r.settings.collectEvery = some 0
  fails : Fails act r (.outOfRange 0)

omit [DecidableEq L] in
/-- Given enough fuel the call answers, and its answer and what it leaves are so; or it breaks. -/
def Recognizer.Settles (r : Recognizer L) (act : Nat → Recognizing L α)
    (Q : α → Recognizer L → Prop) : Prop :=
  (∃ a r', Answers act r (a, r') ∧ Q a r') ∨ r.Breaks act

omit [DecidableEq L] in
/-- Given enough fuel both calls answer, and their answers and what they leave are so; or both
break. -/
def Recognizer.BothSettle (r r₀ : Recognizer L) (act : Nat → Recognizing L α)
    (act₀ : Nat → Recognizing L β) (Q : α → Recognizer L → β → Recognizer L → Prop) : Prop :=
  (∃ a r' a₀ r₀', Answers act r (a, r') ∧ Answers act₀ r₀ (a₀, r₀') ∧ Q a r' a₀ r₀') ∨
    r.Breaks act ∧ r₀.Breaks act₀

namespace Recognizer

omit [DecidableEq L]

theorem Breaks.not_answers {p : α × Recognizer L} (h : r.Breaks act) : ¬Answers act r p :=
  h.fails.not_answers

theorem Breaks.bind (h : r.Breaks act) : r.Breaks fun fuel => act fuel >>= k fuel :=
  ⟨h.zero, h.fails.bind⟩

theorem Breaks.after {a : α} (first : Answers act r (a, r')) (same : r'.settings = r.settings)
    (h : r'.Breaks (k · a)) : r.Breaks fun fuel => act fuel >>= k fuel :=
  ⟨same ▸ h.zero, h.fails.after first⟩

namespace Settles

theorem imp (h : r.Settles act Q) (weaker : ∀ a r', Q a r' → Q' a r') : r.Settles act Q' :=
  h.imp_left fun ⟨a, r', answers, so⟩ => ⟨a, r', answers, weaker a r' so⟩

/-- What holds of every run holds of the answer. -/
theorem of_runs (h : r.Settles act Q)
    (runs : ∀ fuel a r', act fuel r = .ok (a, r') → Q a r' → Q' a r') : r.Settles act Q' := by
  refine h.imp_left fun ⟨a, r', ⟨N, answers⟩, so⟩ => ⟨a, r', ⟨N, answers⟩, ?_⟩
  exact runs N a r' (answers N (Nat.le_refl N)) so

theorem answers (h : r.Settles act Q) (period : r.settings.collectEvery ≠ some 0) :
    ∃ a r', Answers act r (a, r') ∧ Q a r' :=
  h.resolve_right fun broken => period broken.zero

theorem bind (first : r.Settles act Q) (same : ∀ a r', Q a r' → r'.settings = r.settings)
    (next : ∀ a r', Q a r' → r'.Settles (k · a) R) :
    r.Settles (fun fuel => act fuel >>= k fuel) R := by
  rcases first with ⟨a, r₁, answers, so⟩ | broken
  · rcases next a r₁ so with ⟨b, r₂, later, so'⟩ | broken
    · exact .inl ⟨b, r₂, answers.bind later, so'⟩
    · exact .inr (.after answers (same a r₁ so) broken)
  · exact .inr broken.bind

/-- Two calls that break together settle together. -/
theorem both {r₀ : Recognizer L} {act₀ : Nat → Recognizing L β} (h : r.Settles act Q)
    (h₀ : r₀.Settles act₀ R) (alike : r.Breaks act ↔ r₀.Breaks act₀) :
    r.BothSettle r₀ act act₀ fun a r' a₀ r₀' => Q a r' ∧ R a₀ r₀' := by
  rcases h with ⟨a, r', answers, so⟩ | broken
  · obtain ⟨a₀, r₀', answers₀, so₀⟩ := h₀.resolve_right fun broken =>
      (alike.mpr broken).not_answers answers
    exact .inl ⟨a, r', a₀, r₀', answers, answers₀, so, so₀⟩
  · exact .inr ⟨broken, alike.mp broken⟩

end Settles

section Map

variable {act' : Nat → Recognizing L β} {f : α → β}

/-- A call whose answer is made of that of another breaks where the other does. -/
theorem breaks_map (same : ∀ fuel, act' fuel r = (act fuel r).map (Prod.map f id)) :
    r.Breaks act' ↔ r.Breaks act := by
  have error_iff (fuel : Nat) (e : Error) : act' fuel r = .error e ↔ act fuel r = .error e := by
    rw [same]
    cases act fuel r with
    | error e' => rw [Except.map, Except.error.injEq, Except.error.injEq]
    | ok p => exact iff_of_false nofun nofun
  constructor
  · rintro ⟨zero, N, fails⟩
    exact ⟨zero, N, fun fuel le => (error_iff fuel _).mp (fails fuel le)⟩
  · rintro ⟨zero, N, fails⟩
    exact ⟨zero, N, fun fuel le => (error_iff fuel _).mpr (fails fuel le)⟩

theorem breaks_bind_pure :
    r.Breaks (fun fuel => act fuel >>= fun a => pure (f a)) ↔ r.Breaks act :=
  breaks_map fun fuel => by
    show Except.bind (act fuel r) (fun p => .ok (f p.1, p.2)) = _
    cases act fuel r <;> rfl

theorem Settles.map (h : r.Settles act Q)
    (same : ∀ fuel, act' fuel r = (act fuel r).map (Prod.map f id))
    (weaker : ∀ a r', Q a r' → R (f a) r') : r.Settles act' R := by
  refine Or.imp (fun ⟨a, r', ⟨N, answers⟩, so⟩ => ⟨f a, r', ⟨N, fun fuel le => ?_⟩, weaker a r' so⟩)
    (breaks_map same).mpr h
  rw [same, answers fuel le]
  rfl

end Map

namespace BothSettle

variable {r₀ : Recognizer L} {act₀ : Nat → Recognizing L β}
  {S S' : α → Recognizer L → β → Recognizer L → Prop}

theorem imp (h : r.BothSettle r₀ act act₀ S)
    (weaker : ∀ a r' a₀ r₀', S a r' a₀ r₀' → S' a r' a₀ r₀') : r.BothSettle r₀ act act₀ S' :=
  h.imp_left fun ⟨a, r', a₀, r₀', answers, answers₀, so⟩ =>
    ⟨a, r', a₀, r₀', answers, answers₀, weaker a r' a₀ r₀' so⟩

/-- With a period of one step or more, both calls answer. -/
theorem answers (h : r.BothSettle r₀ act act₀ S) (period : r.settings.collectEvery ≠ some 0) :
    ∃ a r' a₀ r₀', Answers act r (a, r') ∧ Answers act₀ r₀ (a₀, r₀') ∧ S a r' a₀ r₀' :=
  h.resolve_right fun broken => period broken.1.zero

end BothSettle

end Recognizer

end Outcome

/-! ## Calls -/

section Calls

variable {s : Symbol L} {next : NodeId} {accepts alive : Bool} {fuel : Nat} {α : Type}
  {act : Eval L α} {a : α}

namespace Recognizer

omit [DecidableEq L] in
theorem onGrammar_of_ok (h : act r.grammar = .ok (a, g')) :
    onGrammar act r = .ok (a, r.withGrammar g') := by
  unfold onGrammar
  simp only [h]
  rfl

omit [DecidableEq L] in
theorem onGrammar_ok : onGrammar act r = .ok (a, r') ↔
    ∃ g', act r.grammar = .ok (a, g') ∧ r.withGrammar g' = r' := by
  constructor
  · intro h
    unfold onGrammar at h
    cases run : act r.grammar with
    | error e =>
      simp only [run] at h
      cases h
    | ok p =>
      simp only [run] at h
      cases h
      exact ⟨p.2, rfl, rfl⟩
  · rintro ⟨g', h, rfl⟩
    exact onGrammar_of_ok h

omit [DecidableEq L] in
/-- When the nodes of the chain are moved, so is the recognizer. -/
theorem collect_of_ok {place : NodeId → Option NodeId}
    (run : Grammar.collect r.chain r.grammar = .ok (r.chain.map (movedBy place), g')) :
    collect r = .ok ((), r.moved place g') := by
  refine (Action.bind_of_ok (Action.get_ok.mpr ⟨rfl, rfl⟩)).trans ?_
  refine (Action.bind_of_ok (onGrammar_of_ok run)).trans ?_
  show Except.ok _ = Except.ok ((), r.moved place g')
  have zipped : ((r.taken.toList.map Prod.fst).zip
      ((r.taken.toList.map Prod.snd).map (movedBy place))).toArray =
        r.taken.map fun (s, node) => (s, movedBy place node) := by
    rw [List.map_map, List.zip_map', ← List.map_toArray]
    rfl
  exact congrArg (fun taken =>
    Except.ok ((), { r with grammar := g', start := movedBy place r.start, taken })) zipped

/-- A collection answers, and moves the nodes of the recognizer. -/
theorem collect_ok (h : Consistent links origin W r) :
    ∃ place g', Grammar.Moved place r.grammar g' ∧
    (∀ id ∈ r.chain, ∃ y, place id = some y) ∧ collect r = .ok ((), r.moved place g') := by
  obtain ⟨place, g', run, moved, has⟩ := Grammar.collect_ok h.good.formed h.range
  exact ⟨place, g', moved, has, collect_of_ok run⟩

theorem feed_stopped (dead : r.settings.stopWhenDead ∧ r.isDead) :
    feed fuel s r = .ok (false, r) := by
  have stops : (r.settings.stopWhenDead && r.current == nothing) = true :=
    Bool.and_eq_true _ _ ▸ dead
  refine (Action.bind_of_ok (Action.get_ok.mpr ⟨rfl, rfl⟩)).trans ?_
  refine (Action.bind_of_ok (Action.get_ok.mpr ⟨rfl, rfl⟩)).trans ?_
  exact congrFun (if_pos stops) r

theorem feed_alive (alive : ¬(r.settings.stopWhenDead ∧ r.isDead)) : feed fuel s r =
    (onGrammar (Grammar.step fuel r.current s r.settings.culling) >>= fun p =>
      Run.landed s p.1 p.2 r.settings) r := by
  have goes : ¬(r.settings.stopWhenDead && r.current == nothing) = true :=
    fun h => alive ((Bool.and_eq_true _ _).mp h)
  refine (Action.bind_of_ok (Action.get_ok.mpr ⟨rfl, rfl⟩)).trans ?_
  refine (Action.bind_of_ok (Action.get_ok.mpr ⟨rfl, rfl⟩)).trans ?_
  exact congrFun (if_neg goes) r

omit [DecidableEq L] in
/-- A step is noted, and then there is a collection or none, if that can be told. -/
theorem landed_eq (r : Recognizer L) (s : Symbol L) (next : NodeId) (accepts : Bool)
    (g' : Grammar L) (settings : Settings) :
    Run.landed s next accepts settings (r.withGrammar g') =
    (do
      if ← settings.collectDue (r.taken.push (s, next)).size then collect
      return !(← get).isDead : Recognizing L Bool)
        (r.advanced s next
          (g'.noted (.stepped (r.taken.push (s, next)).size s.kind next g'.size accepts))) := rfl

section Due

variable {settings : Settings}

omit [DecidableEq L] in
theorem landed_due (due : settings.collectDue (r.taken.push (s, next)).size = .ok true) :
    Run.landed s next accepts settings (r.withGrammar g') =
    (do
      collect
      return !(← get).isDead : Recognizing L Bool)
        (r.advanced s next
          (g'.noted (.stepped (r.taken.push (s, next)).size s.kind next g'.size accepts))) :=
  (landed_eq r s next accepts g' settings).trans (Action.bind_of_ok (Action.lift_ok.mpr ⟨due, rfl⟩))

omit [DecidableEq L] in
theorem landed_not_due (due : settings.collectDue (r.taken.push (s, next)).size = .ok false) :
    Run.landed s next accepts settings (r.withGrammar g') =
      .ok (!(r.advanced s next g').isDead,
        r.advanced s next
          (g'.noted (.stepped (r.taken.push (s, next)).size s.kind next g'.size accepts))) :=
  (landed_eq r s next accepts g' settings).trans (Action.bind_of_ok (Action.lift_ok.mpr ⟨due, rfl⟩))

omit [DecidableEq L] in
/-- With a period of no steps it cannot be told. -/
theorem landed_zero (zero : settings.collectEvery = some 0) :
    Run.landed s next accepts settings (r.withGrammar g') = .error (.outOfRange 0) :=
  (landed_eq r s next accepts g' settings).trans
    (Action.bind_of_error (Action.lift_error (Settings.collectDue_zero _ zero)))

omit [DecidableEq L] in
theorem told_of_landed
    (run : Run.landed s next accepts settings (r.withGrammar g') = .ok (alive, r')) :
    ∃ due, settings.collectDue (r.taken.push (s, next)).size = .ok due :=
  Settings.collectDue_ok _ fun zero => nomatch (landed_zero zero).symm.trans run

omit [DecidableEq L] in
/-- A step was noted, and then there was a collection or none. -/
theorem landed_cases
    (run : Run.landed s next accepts settings (r.withGrammar g') = .ok (alive, r')) :
    ∃ event, alive = !r'.isDead ∧
      (settings.collectDue (r.taken.push (s, next)).size = .ok true ∧
          collect (r.advanced s next (g'.noted event)) = .ok ((), r') ∨
        settings.collectDue (r.taken.push (s, next)).size = .ok false ∧
          r.advanced s next (g'.noted event) = r') := by
  refine ⟨.stepped (r.taken.push (s, next)).size s.kind next g'.size accepts, ?_⟩
  obtain ⟨due, told⟩ := told_of_landed run
  cases due with
  | true =>
    rw [landed_due told] at run
    obtain ⟨_, r₁, collected, last⟩ := Action.bind_ok.mp run
    cases last
    exact ⟨rfl, .inl ⟨told, collected⟩⟩
  | false =>
    rw [landed_not_due told] at run
    cases run
    exact ⟨rfl, .inr ⟨told, rfl⟩⟩

end Due

omit [DecidableEq L] in
theorem isDead_iff : r.isDead ↔ r.current = nothing := beq_iff_eq

/-- After a step nodes stand for what they stood for, whether there is a collection or not. -/
theorem landed_ok (h : Consistent links origin W (r.advanced s next g')) (accepts : Bool)
    (period : r.settings.collectEvery ≠ some 0) :
    ∃ W' r', Run.landed s next accepts r.settings (r.withGrammar g') = .ok (!r'.isDead, r') ∧
      Follows links origin W (r.advanced s next g') W' r' ∧ r'.input = r.input ++ [s] ∧
        W' r'.current = W next ∧ (r'.isDead ↔ next = nothing) ∧
          ∀ parts, g'.Shaped next parts → r'.grammar.Shaped r'.current parts := by
  let event : Event := .stepped (r.taken.push (s, next)).size s.kind next g'.size accepts
  have follows :
      Follows links origin W (r.advanced s next g') W (r.advanced s next (g'.noted event)) :=
    h.carried (.of_eq h.good rfl (.inl rfl))
  have input : (r.advanced s next (g'.noted event)).input = r.input ++ [s] := by
    simp [Recognizer.input, advanced]
  obtain ⟨due, told⟩ := Settings.collectDue_ok (r.taken.push (s, next)).size period
  cases due with
  | true =>
    obtain ⟨place, g'', moved, has, collected⟩ := collect_ok follows.consistent
    have collects : (r.advanced s next (g'.noted event)).settings.collectEvery ≠ none := by
      intro none
      cases (Settings.collectDue_none _ none).symm.trans told
    refine ⟨_, _, ?_, follows.trans (follows.consistent.moved has moved collects), ?_, ?_,
      ?_, fun parts shaped => ?_⟩
    · rw [landed_due told]
      exact (Action.bind_of_ok collected).trans rfl
    · rw [← input]
      simp [Recognizer.input, Recognizer.moved, Function.comp_def]
    · rw [renamed_current has moved, current_advanced]
    · rw [isDead_iff, current_moved_eq_nothing has moved, current_advanced]
    · obtain ⟨y, hy⟩ := has _ (current_mem_chain _)
      rw [current_moved, Grammar.movedBy_of_some hy]
      rw [current_advanced] at hy
      exact moved.shaped hy shaped
  | false =>
    refine ⟨W, _, landed_not_due told, follows, input, ?_, ?_, fun parts shaped => ?_⟩
    · rw [current_advanced]
    · rw [isDead_iff, current_advanced]
    · rw [current_advanced]
      exact shaped

end Recognizer

/-- What a call of `feed` answers, and what it does. -/
structure Fed (links : Links) (origin : Meaning) (W : World) (r : Recognizer L) (s : Symbol L)
    (alive : Bool) (W' : World) (r' : Recognizer L) : Prop where
  follows : Follows links origin W r W' r'
  alive : alive = !r'.isDead
  input : r'.input = r.input ++ [s] ∨ (r.settings.stopWhenDead ∧ r.isDead) ∧ r' = r
  dead : ¬r.isDead → r.settings.culling → r.grammar.Regular → Trusting links W r.grammar →
    (r'.isDead ↔ ∀ w, ¬(W' r'.current).words.Holds w)
  lives : r.settings.culling ∨ r.grammar.Shaped r.current false → r.grammar.Proper →
    Vetted W r.grammar → ¬r'.isDead → ∃ v, origin.words.Holds (r'.word ++ v)
  shaped : r.settings.culling = false → r.grammar.Proper →
    ∀ parts, r.grammar.Shaped r.current parts → r'.grammar.Shaped r'.current parts

theorem Stepped.fed {W₁ : World} {g₁ : Grammar L} (h : Consistent links origin W r)
    (period : r.settings.collectEvery ≠ some 0)
    (stepped : Stepped links W r.grammar r.current s.kind r.settings.culling next accepts W₁ g₁) :
    ∃ W' r', Run.landed s next accepts r.settings (r.withGrammar g₁) = .ok (!r'.isDead, r') ∧
      Fed links origin W r s (!r'.isDead) W' r' := by
  have follows := h.advanced stepped
  obtain ⟨W', r', run, follows', input, current, dead, shaped⟩ :=
    Recognizer.landed_ok follows.consistent accepts period
  refine ⟨W', r', run, follows.trans follows', rfl,
    .inl input, fun _ culling regular trusting => ?_, fun quick proper vetted alive => ?_,
    fun uncul proper parts shape => shaped parts (stepped.shaped uncul proper parts shape)⟩
  · rw [dead, current]
    exact stepped.dead culling regular trusting
  · obtain ⟨v, hv⟩ := stepped.alive quick proper vetted (mt dead.mpr alive)
    have holds : (origin.afterAll r.word).words.Holds (s.kind :: v) := h.current.1 _ hv
    refine ⟨v, ?_⟩
    rw [Recognizer.word, input, List.map_append, List.append_assoc]
    exact Meaning.afterAll_holds.mp holds

theorem feed_fed (h : Consistent links origin W r)
    (run : Recognizer.feed fuel s r = .ok (alive, r')) :
    ∃ W', Fed links origin W r s alive W' r' := by
  by_cases dead : r.settings.stopWhenDead ∧ r.isDead
  · rw [Recognizer.feed_stopped dead] at run
    cases run
    exact ⟨W, .refl h, by rw [dead.2]; rfl, .inr ⟨dead, rfl⟩, fun alive => absurd dead.2 alive,
      fun _ _ _ alive => absurd dead.2 alive, fun _ _ _ shape => shape⟩
  · rw [Recognizer.feed_alive dead] at run
    obtain ⟨⟨next, accepts⟩, _, hs, run⟩ := Action.bind_ok.mp run
    obtain ⟨g₁, hg, rfl⟩ := Recognizer.onGrammar_ok.mp hs
    obtain ⟨W₁, stepped⟩ := step_stepped h.good hg
    have period : r.settings.collectEvery ≠ some 0 := fun zero => by
      cases (Recognizer.landed_zero zero).symm.trans run
    obtain ⟨W', r'', run', fed⟩ := stepped.fed h period
    cases run'.symm.trans run
    exact ⟨W', fed⟩

/-- A symbol that is consumed with a period of no steps breaks the call. -/
theorem feed_breaks (h : Consistent links origin W r)
    (alive : ¬(r.settings.stopWhenDead ∧ r.isDead)) (zero : r.settings.collectEvery = some 0)
    (s : Symbol L) : r.Breaks fun fuel => Recognizer.feed fuel s := by
  obtain ⟨⟨next, accepts⟩, g₁, N, hs⟩ :=
    exists_step h.good (h.range _ r.current_mem_chain) s r.settings.culling
  refine ⟨zero, N, fun fuel le => (Recognizer.feed_alive alive).trans ?_⟩
  exact (Action.bind_of_ok (Recognizer.onGrammar_of_ok (hs fuel le))).trans
    (Recognizer.landed_zero zero)

/-- Given enough fuel, a symbol is consumed. -/
theorem feed_settles (h : Consistent links origin W r) (s : Symbol L) :
    r.Settles (fun fuel => Recognizer.feed fuel s) fun alive r' =>
      ∃ W', Fed links origin W r s alive W' r' := by
  by_cases dead : r.settings.stopWhenDead ∧ r.isDead
  · have run (fuel : Nat) : Recognizer.feed fuel s r = .ok (false, r) :=
      Recognizer.feed_stopped dead
    exact .inl ⟨false, r, ⟨0, fun fuel _ => run fuel⟩, feed_fed h (run 0)⟩
  · by_cases zero : r.settings.collectEvery = some 0
    · exact .inr (feed_breaks h dead zero s)
    · obtain ⟨⟨next, accepts⟩, g₁, N, hs⟩ :=
        exists_step h.good (h.range _ r.current_mem_chain) s r.settings.culling
      obtain ⟨W₁, stepped⟩ := step_stepped h.good (hs N (Nat.le_refl N))
      obtain ⟨W', r', run, fed⟩ := stepped.fed h zero
      refine .inl ⟨!r'.isDead, r', ⟨N, fun fuel le => ?_⟩, W', fed⟩
      refine (Recognizer.feed_alive dead).trans ?_
      exact (Action.bind_of_ok (Recognizer.onGrammar_of_ok (hs fuel le))).trans run

/-- A call with a period of no steps answers only if it does not consume the symbol. -/
theorem stopped_of_feed (zero : r.settings.collectEvery = some 0)
    (run : Recognizer.feed fuel s r = .ok (alive, r')) :
    (r.settings.stopWhenDead ∧ r.isDead) ∧ r' = r := by
  by_cases dead : r.settings.stopWhenDead ∧ r.isDead
  · rw [Recognizer.feed_stopped dead] at run
    cases run
    exact ⟨dead, rfl⟩
  · rw [Recognizer.feed_alive dead] at run
    obtain ⟨⟨next, accepts⟩, _, hs, run⟩ := Action.bind_ok.mp run
    obtain ⟨g₁, hg, rfl⟩ := Recognizer.onGrammar_ok.mp hs
    cases (Recognizer.landed_zero zero).symm.trans run

/-- How much fuel there is does not matter, if it is enough. -/
theorem feed_answers {p : Bool × Recognizer L} (run : Recognizer.feed fuel s r = .ok p) :
    Answers (fun fuel => Recognizer.feed fuel s) r p := by
  by_cases dead : r.settings.stopWhenDead ∧ r.isDead
  · rw [Recognizer.feed_stopped dead] at run
    cases run
    exact ⟨0, fun fuel _ => Recognizer.feed_stopped dead⟩
  · rw [Recognizer.feed_alive dead] at run
    obtain ⟨q, _, hs, run⟩ := Action.bind_ok.mp run
    obtain ⟨g₁, hg, rfl⟩ := Recognizer.onGrammar_ok.mp hs
    obtain ⟨N, answers⟩ := step_answers hg
    refine ⟨N, fun fuel le => (Recognizer.feed_alive dead).trans ?_⟩
    exact (Action.bind_of_ok (Recognizer.onGrammar_of_ok (answers fuel le))).trans run

theorem feedAll_cons {symbols : List (Symbol L)}
    (run : Recognizer.feed fuel s r = .ok (alive, r₁)) :
    Recognizer.feedAll fuel (s :: symbols) r =
      if !alive && r₁.settings.stopWhenDead then .ok ((), r₁)
        else Recognizer.feedAll fuel symbols r₁ := by
  refine (Action.bind_of_ok run).trans ?_
  cases alive
  · refine (Action.bind_of_ok (Action.get_ok.mpr ⟨rfl, rfl⟩)).trans ?_
    cases r₁.settings.stopWhenDead <;> rfl
  · rfl

theorem exists_feed {symbols : List (Symbol L)} {u : Unit}
    (run : Recognizer.feedAll fuel (s :: symbols) r = .ok (u, r')) :
    ∃ alive r₁, Recognizer.feed fuel s r = .ok (alive, r₁) := by
  obtain ⟨alive, r₁, feeding, -⟩ := Action.bind_ok.mp run
  exact ⟨alive, r₁, feeding⟩

/-- What feeding a symbol keeps, feeding several keeps. By induction on the symbols. -/
theorem feedAll_induct {P : Recognizer L → Prop} {symbols : List (Symbol L)} {u : Unit}
    (step : ∀ s alive r r', P r → Recognizer.feed fuel s r = .ok (alive, r') → P r') (h : P r)
    (run : Recognizer.feedAll fuel symbols r = .ok (u, r')) : P r' := by
  induction symbols generalizing r with
  | nil =>
    obtain ⟨-, rfl⟩ := Action.pure_ok.mp run
    exact h
  | cons s symbols ih =>
    obtain ⟨alive, r₁, feeding⟩ := exists_feed run
    rw [feedAll_cons feeding] at run
    split at run
    · cases run
      exact step _ _ _ _ h feeding
    · exact ih (step _ _ _ _ h feeding) run

theorem feedAll_follows {symbols : List (Symbol L)} {u : Unit} (h : Consistent links origin W r)
    (run : Recognizer.feedAll fuel symbols r = .ok (u, r')) :
    ∃ W', Follows links origin W r W' r' ∧
      ∃ rest, r'.input ++ rest = r.input ++ symbols ∧ (rest = [] ∨ r'.isDead) := by
  induction symbols generalizing W r with
  | nil =>
    obtain ⟨-, rfl⟩ := Action.pure_ok.mp run
    exact ⟨W, .refl h, [], rfl, .inl rfl⟩
  | cons s symbols ih =>
    obtain ⟨alive, r₁, hf⟩ := exists_feed run
    rw [feedAll_cons hf] at run
    obtain ⟨W₁, fed⟩ := feed_fed h hf
    have settings := fed.follows.settings
    split at run
    · rename_i stops
      cases run
      obtain ⟨dead, -⟩ := (Bool.and_eq_true _ _).mp stops
      have dead : r'.isDead := by simpa [fed.alive] using dead
      rcases fed.input with input | ⟨-, rfl⟩
      · exact ⟨W₁, fed.follows, symbols, by rw [input, List.append_assoc]; rfl, .inr dead⟩
      · exact ⟨W₁, fed.follows, s :: symbols, rfl, .inr dead⟩
    · rename_i goes
      obtain ⟨W', follows, rest, input, done⟩ := ih fed.follows.consistent run
      refine ⟨W', fed.follows.trans follows, rest, ?_, done⟩
      rcases fed.input with first | ⟨⟨stop, dead⟩, rfl⟩
      · rw [input, first, List.append_assoc]
        rfl
      · exact absurd (by rw [fed.alive, dead, stop]; rfl) goes

theorem feedAll_settles (h : Consistent links origin W r) (symbols : List (Symbol L)) :
    r.Settles (fun fuel => Recognizer.feedAll fuel symbols) fun _ r' =>
      ∃ W', Follows links origin W r W' r' := by
  induction symbols generalizing W r with
  | nil => exact .inl ⟨(), r, ⟨0, fun _ _ => rfl⟩, W, .refl h⟩
  | cons s symbols ih =>
    rcases feed_settles h s with ⟨alive, r₁, ⟨N₁, feeding⟩, W₁, fed⟩ | broken
    · by_cases stops : (!alive && r₁.settings.stopWhenDead) = true
      · refine .inl ⟨(), r₁, ⟨N₁, fun fuel le => (feedAll_cons (feeding fuel le)).trans ?_⟩, W₁,
          fed.follows⟩
        rw [if_pos stops]
      · have goes (fuel : Nat) (le : N₁ ≤ fuel) :
            Recognizer.feedAll fuel (s :: symbols) r = Recognizer.feedAll fuel symbols r₁ :=
          (feedAll_cons (feeding fuel le)).trans (if_neg stops)
        rcases ih fed.follows.consistent with ⟨u, r₂, ⟨N₂, later⟩, W₂, follows⟩ | ⟨zero, N₂, fails⟩
        · refine .inl ⟨u, r₂, ⟨max N₁ N₂, fun fuel le => ?_⟩, W₂, fed.follows.trans follows⟩
          exact (goes fuel (by omega)).trans (later fuel (by omega))
        · refine .inr ⟨fed.follows.settings ▸ zero, max N₁ N₂, fun fuel le => ?_⟩
          exact (goes fuel (by omega)).trans (fails fuel (by omega))
    · exact .inr broken.bind

theorem feedAll_answers {symbols : List (Symbol L)} {p : Unit × Recognizer L}
    (run : Recognizer.feedAll fuel symbols r = .ok p) :
    Answers (fun fuel => Recognizer.feedAll fuel symbols) r p := by
  induction symbols generalizing r with
  | nil => exact ⟨0, fun _ _ => run⟩
  | cons s symbols ih =>
    obtain ⟨alive, r₁, hf, -⟩ := Action.bind_ok.mp run
    rw [feedAll_cons hf] at run
    obtain ⟨N₁, answers⟩ := feed_answers hf
    split at run
    · rename_i stops
      refine ⟨N₁, fun fuel le => (feedAll_cons (answers fuel le)).trans ?_⟩
      rw [if_pos stops, run]
    · rename_i goes
      obtain ⟨N₂, later⟩ := ih run
      refine ⟨max N₁ N₂, fun fuel le => (feedAll_cons (answers fuel (by omega))).trans ?_⟩
      rw [if_neg goes]
      exact later fuel (by omega)

/-! ## Whether the input is accepted -/

/-- What a question whether the input is accepted is answered, and what it does. -/
structure Asked (links : Links) (origin : Meaning) (W : World) (r : Recognizer L) (answer : Bool)
    (W' : World) (r' : Recognizer L) : Prop where
  follows : Follows links origin W r W' r'
  taken : r'.taken = r.taken
  trust : Trust links W' r'.grammar → Trust links W r.grammar
  alive : answer → ¬r.isDead
  sound : answer → origin.words.Holds r.word
  complete : Exact links origin W r → Trust links W' r'.grammar → origin.words.Holds r.word → answer

theorem Recognizer.accepted_ok {answer : Bool} : Recognizer.accepted fuel r = .ok (answer, r') ↔
    ∃ g', Grammar.nullable fuel r.current r.grammar = .ok (answer, g') ∧ r.withGrammar g' = r' := by
  show onGrammar (Grammar.nullable fuel r.current) r = _ ↔ _
  exact onGrammar_ok

theorem accepted_asked {answer : Bool} (h : Consistent links origin W r)
    (run : Recognizer.accepted fuel r = .ok (answer, r')) :
    ∃ W', Asked links origin W r answer W' r' := by
  obtain ⟨g', hn, rfl⟩ := Recognizer.accepted_ok.mp run
  obtain ⟨W', hn⟩ := Grammar.evaluates_of_nullable W hn
  have carries := hn.carries h.good
  have current : W' r.current = W r.current := carries.world _ (h.range _ r.current_mem_chain)
  have whole (holds : (origin.afterAll r.word).words.Nullable) : origin.words.Holds r.word := by
    rw [← List.append_nil r.word]
    exact Meaning.afterAll_holds.mp holds
  have null (yes : answer) : (W r.current).words.Nullable :=
    current ▸ (hn.sound h.good.formed h.good.sound).2 yes
  refine ⟨W', h.carried carries, rfl, carries.trust, fun yes dead => ?_,
    fun yes => whole (h.current.nullable (null yes)), fun exact trust holds => ?_⟩
  · obtain ⟨n, none⟩ := null yes
    rw [Recognizer.isDead_iff.mp dead, h.good.sound.void h.good.formed] at none
    exact none
  · cases answer with
    | true => rfl
    | false =>
      have none := hn.not_nullable h.good exact.trusting trust
      rw [current] at none
      have holds : (origin.afterAll r.word).words.Holds [] :=
        Meaning.afterAll_holds.mpr (by rwa [List.append_nil])
      obtain ⟨n, hn⟩ := holds
      exact absurd (exact.under (carries.trust trust) n [] hn).holds none

theorem exists_accepted (h : Consistent links origin W r) :
    ∃ answer r', Answers Recognizer.accepted r (answer, r') := by
  obtain ⟨b, g', N, answers⟩ := exists_nullable h.good (h.range _ r.current_mem_chain)
  exact ⟨b, r.withGrammar g',
    N, fun fuel le => Recognizer.accepted_ok.mpr ⟨g', answers fuel le, rfl⟩⟩

theorem accepted_answers {p : Bool × Recognizer L} (run : Recognizer.accepted fuel r = .ok p) :
    Answers Recognizer.accepted r p := by
  obtain ⟨answer, r'⟩ := p
  obtain ⟨g', hn, rfl⟩ := Recognizer.accepted_ok.mp run
  obtain ⟨N, answers⟩ := nullable_answers hn
  exact ⟨N, fun fuel le => Recognizer.accepted_ok.mpr ⟨g', answers fuel le, rfl⟩⟩

/-! ## Whole inputs -/

/-- What a call of `recognize` answers, and what it does. -/
structure Recognized (links : Links) (origin : Meaning) (W : World) (r : Recognizer L)
    (symbols : List (Symbol L)) (answer : Bool) (W' : World) (r' : Recognizer L) : Prop where
  follows : Follows links origin W r W' r'
  exact : r.Remembers links → Trusting links W r.grammar → Exact links origin W' r'
  input : answer → r'.input = symbols
  sound : answer → origin.words.Holds (symbols.map Symbol.kind)
  complete : r.Remembers links → Trusting links W r.grammar → Trust links W' r'.grammar →
    origin.words.Holds (symbols.map Symbol.kind) → answer
  consumed : r.Remembers links → Trusting links W r.grammar → Trust links W' r'.grammar →
    origin.words.Holds r'.word → answer

variable {symbols : List (Symbol L)} {o : Recognition}

theorem recognize_ok : Recognizer.recognize fuel symbols r = .ok (o, r') ↔
    ∃ r₁, Recognizer.feedAll fuel symbols { r with taken := #[] } = .ok ((), r₁) ∧
      o.node = r₁.current ∧ Recognizer.accepted fuel r₁ = .ok (o.accepted, r') := by
  constructor
  · intro run
    obtain ⟨_, _, hr, run⟩ := Action.bind_ok.mp run
    obtain rfl := Action.modify_ok.mp hr
    obtain ⟨_, r₁, hf, run⟩ := Action.bind_ok.mp run
    obtain ⟨_, _, hg, run⟩ := Action.bind_ok.mp run
    obtain ⟨rfl, rfl⟩ := Action.get_ok.mp hg
    obtain ⟨answer, r₂, ha, run⟩ := Action.bind_ok.mp run
    obtain ⟨rfl, rfl⟩ := Action.pure_ok.mp run
    exact ⟨r₁, hf, rfl, ha⟩
  · rintro ⟨r₁, hf, node, ha⟩
    refine (Action.bind_of_ok ((Action.modify_ok (u := ())).mpr rfl)).trans ?_
    refine (Action.bind_of_ok hf).trans ?_
    refine (Action.bind_of_ok (Action.get_ok.mpr ⟨rfl, rfl⟩)).trans ?_
    refine (Action.bind_of_ok ha).trans ?_
    obtain ⟨_, _⟩ := o
    cases node
    rfl

/-- Nothing is left of a word after which the recognizer is dead. -/
theorem Exact.not_holds {rest : Word} (h : Exact links origin W r)
    (consistent : Consistent links origin W r) (trust : Trust links W r.grammar) (dead : r.isDead) :
    ¬origin.words.Holds (r.word ++ rest) := by
  intro holds
  obtain ⟨n, hn⟩ := Meaning.afterAll_holds.mpr holds
  obtain ⟨_, -, none⟩ := h.under trust n rest hn
  rw [Recognizer.isDead_iff.mp dead, consistent.good.sound.void consistent.good.formed] at none
  exact none

theorem recognize_recognized (h : Consistent links origin W r)
    (run : Recognizer.recognize fuel symbols r = .ok (o, r')) :
    ∃ W', Recognized links origin W r symbols o.accepted W' r' := by
  obtain ⟨r₁, hf, -, ha⟩ := recognize_ok.mp run
  obtain ⟨W₁, follows, rest, input, done⟩ := feedAll_follows h.restarted hf
  obtain ⟨W', asked⟩ := accepted_asked follows.consistent ha
  have whole : r₁.word ++ rest.map Symbol.kind = symbols.map Symbol.kind := by
    rw [Recognizer.word, ← List.map_append, input]
    rfl
  have all (yes : o.accepted) : rest = [] := done.resolve_right (asked.alive yes)
  have exact (remembers : r.Remembers links) (trusting : Trusting links W r.grammar) :
      Exact links origin W₁ r₁ :=
    follows.exact remembers (exact_restarted h.start trusting)
  refine ⟨W', h.reset.trans (follows.trans asked.follows), fun remembers trusting => ?_, fun yes =>
    ?_, fun yes => ?_,
    fun remembers trusting trust holds => ?_, fun remembers trusting trust holds => ?_⟩
  · exact asked.follows.exact (follows.remembers remembers) (exact remembers trusting)
  · rw [all yes, List.append_nil] at input
    rw [Recognizer.input, asked.taken]
    exact input
  · rw [← whole, all yes, List.map_nil, List.append_nil]
    exact asked.sound yes
  · have exact := exact remembers trusting
    rw [← whole] at holds
    rcases done with rfl | dead
    · rw [List.map_nil, List.append_nil] at holds
      exact asked.complete exact trust holds
    · exact absurd holds (exact.not_holds follows.consistent (asked.trust trust) dead)
  · have word : r'.word = r₁.word :=
      congrArg (fun taken => (taken.toList.map Prod.fst).map Symbol.kind) asked.taken
    exact asked.complete (exact remembers trusting) trust (word ▸ holds)

/-- Given enough fuel, an input is recognized or not. -/
theorem recognize_settles (h : Consistent links origin W r) (symbols : List (Symbol L)) :
    r.Settles (fun fuel => Recognizer.recognize fuel symbols) fun o r' =>
      ∃ W', Recognized links origin W r symbols o.accepted W' r' := by
  rcases feedAll_settles h.restarted symbols with ⟨u, r₁, ⟨N₁, hf⟩, W₁, follows⟩ | ⟨zero, fails⟩
  · obtain ⟨answer, r', N₂, ha⟩ := exists_accepted follows.consistent
    have answers (fuel : Nat) (le : max N₁ N₂ ≤ fuel) :
        Recognizer.recognize fuel symbols r = .ok (⟨r₁.current, answer⟩, r') :=
      recognize_ok.mpr ⟨r₁, hf fuel (by omega), rfl, ha fuel (by omega)⟩
    exact .inl ⟨_, r', ⟨_, answers⟩, recognize_recognized h (answers _ (Nat.le_refl _))⟩
  · have reset : Answers (fun _ => Recognizer.reset) r ((), { r with taken := #[] }) := .const rfl
    exact .inr ⟨zero, .after reset fails.bind⟩

/-- From a start that something can match, an input that is not empty breaks the call if the period
is of no steps. -/
theorem recognize_breaks_iff (h : Consistent links origin W r) (alive : r.start ≠ nothing)
    (symbols : List (Symbol L)) :
    r.Breaks (fun fuel => Recognizer.recognize fuel symbols) ↔
      r.settings.collectEvery = some 0 ∧ symbols ≠ [] := by
  constructor
  · intro broken
    refine ⟨broken.zero, ?_⟩
    rintro rfl
    obtain ⟨answer, r', N, ha⟩ := exists_accepted h.restarted
    have answers : Answers (fun fuel => Recognizer.recognize fuel []) r (⟨r.start, answer⟩, r') :=
      ⟨N, fun fuel le => recognize_ok.mpr ⟨_, rfl, rfl, ha fuel le⟩⟩
    exact broken.not_answers answers
  · rintro ⟨zero, some⟩
    obtain ⟨s, rest, rfl⟩ := List.exists_cons_of_ne_nil some
    have dead :
        ¬(r.settings.stopWhenDead ∧ Recognizer.isDead { r with taken := #[] }) := fun dead =>
      alive (Recognizer.isDead_iff.mp dead.2)
    have reset : Answers (fun _ => Recognizer.reset) r ((), { r with taken := #[] }) := .const rfl
    exact ⟨zero, .after reset (feed_breaks h.restarted dead zero s).fails.bind.bind⟩

theorem recognize_answers {p : Recognition × Recognizer L}
    (run : Recognizer.recognize fuel symbols r = .ok p) :
    Answers (fun fuel => Recognizer.recognize fuel symbols) r p := by
  obtain ⟨r₁, hf, node, ha⟩ := recognize_ok.mp run
  obtain ⟨N₁, hf⟩ := feedAll_answers hf
  obtain ⟨N₂, ha⟩ := accepted_answers ha
  exact ⟨max N₁ N₂, fun fuel le =>
    recognize_ok.mpr ⟨r₁, hf fuel (by omega), node, ha fuel (by omega)⟩⟩

/-! ## Forests -/

theorem Recognizer.forest_ok {f : Forest (Symbol L)} : Recognizer.forest fuel r = .ok (f, r') ↔
    ∃ g', Grammar.forestOfRun fuel r.chain r.input r.grammar = .ok (f, g') ∧
      r.withGrammar g' = r' := by
  show onGrammar (Grammar.forestOfRun fuel r.chain r.input) r = _ ↔ _
  exact onGrammar_ok

theorem forest_follows {f : Forest (Symbol L)} (h : Consistent links origin W r)
    (run : Recognizer.forest fuel r = .ok (f, r')) : ∃ W', Follows links origin W r W' r' := by
  obtain ⟨g', hf, rfl⟩ := Recognizer.forest_ok.mp run
  obtain ⟨W', carries⟩ := Grammar.keeps_forestOfRun fuel _ _ links W _ f g' h.good hf
  exact ⟨W', h.carried carries⟩

theorem parse_follows {f : Option (Forest (Symbol L))} (h : Consistent links origin W r)
    (run : Recognizer.parse fuel symbols r = .ok (f, r')) :
    ∃ W', Follows links origin W r W' r' := by
  obtain ⟨o, r₁, hr, run⟩ := Action.bind_ok.mp run
  obtain ⟨W₁, recognized⟩ := recognize_recognized h hr
  split at run
  · obtain ⟨found, r₂, hf, run⟩ := Action.bind_ok.mp run
    obtain ⟨-, rfl⟩ := Action.pure_ok.mp run
    obtain ⟨W₂, follows⟩ := forest_follows recognized.follows.consistent hf
    exact ⟨W₂, recognized.follows.trans follows⟩
  · obtain ⟨-, rfl⟩ := Action.pure_ok.mp run
    exact ⟨W₁, recognized.follows⟩

end Calls

end Follows

end DerivativeParsing
