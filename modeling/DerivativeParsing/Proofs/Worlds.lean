import DerivativeParsing.Grammar.Matches
import Mathlib.Logic.Function.Basic

/-!
# Worlds: what the nodes of a graph stand for

A node of the graph comes and goes as evaluation rewrites it, but what it stands for does not
change. A world says of every node what that is, whether or not it can be read off the graph at the
moment:

1. its words, each with ranks that bound how many rules are nested in a derivation (`Ranked`);
2. its trace, the kinds it has been derived by, the last one first;
3. its heads, the names of rules that a question about the empty word may come to first;
4. the rules that it may be alone, everything beside them being empty.

`Meaning.Refines` compares two nodes: one may stand in the place of the other. `World.Fits` says
that a node is made of parts that do not claim too much for what it stands for, `World.Supports`
that they do not claim too little. Both are statements about one node and its parts, so they are
easily kept when another node changes.
-/

namespace DerivativeParsing

/-! ## Words with ranks -/

/-- A language whose words have ranks. -/
abbrev Ranked := Nat → Word → Prop

namespace Ranked

/-- A word of a language, of whatever rank. -/
def Holds (a : Ranked) (w : Word) : Prop := ∃ n, a n w

/-- A word of a language, of a rank up to `n`. -/
def Upto (a : Ranked) (n : Nat) (w : Word) : Prop := ∃ m ≤ n, a m w

/-- Whether the empty word belongs to a language. -/
def Nullable (a : Ranked) : Prop := a.Holds []

def none : Ranked := fun _ _ => False

def nil : Ranked := fun _ w => w = []

def union (a b : Ranked) : Ranked := fun n w => a n w ∨ b n w

/-- A word of the first language followed by one of the second. -/
def concat (a b : Ranked) : Ranked := fun n w => ∃ u v, w = u ++ v ∧ a.Upto n u ∧ b.Upto n v

/-- What follows a kind in the words of a language. -/
def after (a : Ranked) (kind : Kind) : Ranked := fun n w => a n (kind :: w)

/-- Every word of a language belongs to another, at no higher rank. -/
def Under (a b : Ranked) : Prop := ∀ n w, a n w → b.Upto n w

variable {a b c : Ranked} {n : Nat} {u v w : Word}

theorem upto_self (h : a n w) : a.Upto n w := ⟨n, Nat.le_refl n, h⟩

theorem Upto.mono {m : Nat} (h : a.Upto m w) (le : m ≤ n) : a.Upto n w := by
  obtain ⟨k, hk, h⟩ := h
  exact ⟨k, Nat.le_trans hk le, h⟩

theorem Upto.holds (h : a.Upto n w) : a.Holds w := by
  obtain ⟨k, -, h⟩ := h
  exact ⟨k, h⟩

theorem Upto.under (h : a.Upto n w) (hab : a.Under b) : b.Upto n w := by
  obtain ⟨k, hk, h⟩ := h
  exact (hab k w h).mono hk

theorem Under.refl (a : Ranked) : a.Under a := fun _ _ => upto_self

theorem Under.trans (hab : a.Under b) (hbc : b.Under c) : a.Under c :=
  fun n w h => (hab n w h).under hbc

theorem Under.after (h : a.Under b) (kind : Kind) : (a.after kind).Under (b.after kind) :=
  fun n w hw => h n (kind :: w) hw

theorem holds_union : (a.union b).Holds w ↔ a.Holds w ∨ b.Holds w := by
  constructor
  · rintro ⟨n, h | h⟩
    · exact .inl ⟨n, h⟩
    · exact .inr ⟨n, h⟩
  · rintro (⟨n, h⟩ | ⟨n, h⟩)
    · exact ⟨n, .inl h⟩
    · exact ⟨n, .inr h⟩

theorem holds_concat : (a.concat b).Holds w ↔ ∃ u v, w = u ++ v ∧ a.Holds u ∧ b.Holds v := by
  constructor
  · rintro ⟨n, u, v, same, hu, hv⟩
    exact ⟨u, v, same, hu.holds, hv.holds⟩
  · rintro ⟨u, v, same, ⟨i, hu⟩, ⟨j, hv⟩⟩
    exact ⟨max i j, u, v, same, ⟨i, Nat.le_max_left i j, hu⟩, j, Nat.le_max_right i j, hv⟩

variable {l r d skipped : Ranked} {kind : Kind}

/-- The derivatives of both sides have all that is left of a choice. -/
theorem under_union (h : ∀ n w, c n w → a.Upto n w ∨ b.Upto n w) (hl : (a.after kind).Under l)
    (hr : (b.after kind).Under r) : (c.after kind).Under (l.union r) := by
  intro n w hw
  rcases h n (kind :: w) hw with ⟨m, hm, hw⟩ | ⟨m, hm, hw⟩
  · obtain ⟨i, hi, hw⟩ := hl m w hw
    exact ⟨i, Nat.le_trans hi hm, .inl hw⟩
  · obtain ⟨i, hi, hw⟩ := hr m w hw
    exact ⟨i, Nat.le_trans hi hm, .inr hw⟩

/-- The derivative of a left part that is not empty has, with the right part, all that is left of a
sequence; otherwise the derivative of the right part has it. -/
theorem concat_or_skipped {n : Nat} {w : Word}
    (h : ∀ n w, c n w → ∃ u v, w = u ++ v ∧ a.Upto n u ∧ b.Upto n v)
    (hl : (a.after kind).Under l) (hw : c n (kind :: w)) :
    l.concat b n w ∨ a.Upto n [] ∧ b.Upto n (kind :: w) := by
  obtain ⟨u, v, same, hu, hv⟩ := h n (kind :: w) hw
  cases u with
  | nil =>
    obtain rfl : kind :: w = v := same
    exact .inr ⟨hu, hv⟩
  | cons first u =>
    obtain ⟨rfl, rfl⟩ : kind = first ∧ w = u ++ v := List.cons.inj same
    obtain ⟨i, hi, hu⟩ := hu
    exact .inl ⟨u, v, rfl, (hl i u hu).mono hi, hv⟩

/-- The derivative of what is repeated has, with the repetition, all that is left of the
repetition. -/
theorem under_repeat
    (h : ∀ n w, c n w → w = [] ∨ ∃ x u v, w = x :: u ++ v ∧ b.Upto n (x :: u) ∧ c.Upto n v)
    (hd : (b.after kind).Under d) : (c.after kind).Under (d.concat c) := by
  intro n w hw
  rcases h n (kind :: w) hw with same | ⟨x, u, v, same, ⟨i, hi, hu⟩, hv⟩
  · cases same
  · obtain ⟨rfl, rfl⟩ : kind = x ∧ w = u ++ v := List.cons.inj same
    exact upto_self ⟨u, v, rfl, (hd i u hu).mono hi, hv⟩

end Ranked

/-! ## Meanings -/

/-- What a node stands for. -/
@[ext]
structure Meaning where
  words : Ranked
  trace : Word
  heads : String → Prop
  alone : String → Prop

namespace Meaning

variable {a a' b b' c : Meaning} {kind : Kind} {words words' : Ranked}

/-- The meaning of the node that matches nothing. -/
def void : Meaning := ⟨.none, [], fun _ => False, fun _ => False⟩

/-- What is left of a meaning after a symbol of a kind. -/
def after (a : Meaning) (kind : Kind) : Meaning :=
  { a with words := a.words.after kind, trace := kind :: a.trace }

/-- The same meaning with other words. -/
def withWords (a : Meaning) (words : Ranked) : Meaning := { a with words }

/-- A meaning lies within another when it was derived by the last of the same kinds, and, if it was
derived by all of them, leads to no other rules. -/
def Within (a b : Meaning) : Prop :=
  a.trace <+: b.trace ∧
    (a.trace = b.trace → (∀ x, a.heads x → b.heads x) ∧ ∀ x, a.alone x → b.alone x)

/-- A meaning refines another that it lies within if it has no other words. -/
def Refines (a b : Meaning) : Prop :=
  (∀ w, a.words.Holds w → b.words.Holds w) ∧ a.Within b

theorem Within.refl (a : Meaning) : a.Within a :=
  ⟨List.prefix_refl _, fun _ => ⟨fun _ h => h, fun _ h => h⟩⟩

theorem Within.length_le (h : a.Within b) : a.trace.length ≤ b.trace.length := h.1.length_le

theorem Within.squeeze {t : Word} (h : a.Within b) (hb : b.trace <+: t) (same : a.trace = t) :
    a.trace = b.trace ∧ b.trace = t := by
  have hb' : b.trace = t := hb.eq_of_length_le (same ▸ h.length_le)
  exact ⟨same.trans hb'.symm, hb'⟩

theorem Within.trans (hab : a.Within b) (hbc : b.Within c) : a.Within c := by
  refine ⟨hab.1.trans hbc.1, fun same => ?_⟩
  obtain ⟨h, h'⟩ := hab.squeeze hbc.1 same
  exact ⟨fun x hx => (hbc.2 h').1 x ((hab.2 h).1 x hx), fun x hx =>
    (hbc.2 h').2 x ((hab.2 h).2 x hx)⟩

theorem Within.after (h : a.Within b) (kind : Kind) : (a.after kind).Within (b.after kind) :=
  ⟨List.cons_prefix_cons.mpr ⟨rfl, h.1⟩, fun same => h.2 (List.tail_eq_of_cons_eq same)⟩

theorem Refines.refl (a : Meaning) : a.Refines a := ⟨fun _ h => h, .refl a⟩

theorem Refines.trans (hab : a.Refines b) (hbc : b.Refines c) : a.Refines c :=
  ⟨fun w h => hbc.1 w (hab.1 w h), hab.2.trans hbc.2⟩

theorem Refines.after (h : a.Refines b) (kind : Kind) : (a.after kind).Refines (b.after kind) :=
  ⟨fun w => h.1 (kind :: w), h.2.after kind⟩

theorem withWords_refines (h : ∀ w, words.Holds w → a.words.Holds w) :
    (a.withWords words).Refines a :=
  ⟨h, Within.refl a⟩

/-- A meaning that lies within `a` refines `a` with more words. -/
theorem Within.refines_withWords (h : b.Within a) (hw : ∀ w, b.words.Holds w → words.Holds w) :
    b.Refines (a.withWords words) :=
  ⟨hw, h⟩

/-- Nothing refines every meaning. -/
theorem void_refines (a : Meaning) : void.Refines a :=
  ⟨fun _ ⟨_, h⟩ => h.elim, List.nil_prefix, fun _ => ⟨fun _ h => h.elim, fun _ h => h.elim⟩⟩

theorem Refines.nullable (h : a.Refines b) : a.words.Nullable → b.words.Nullable :=
  h.1 []

end Meaning

/-! ## How a meaning is made of parts -/

/-- Which rules a rule can begin with, and which it can be alone. -/
structure Links where
  leads : String → String → Prop
  alone : String → String → Prop

namespace Meaning

/-- `l` followed by `r` claims no more than `a`. The right part has not been derived by anything:
derivatives leave it as it is. -/
structure Joins (l r a : Meaning) : Prop where
  words : ∀ u v, l.words.Holds u → r.words.Holds v → a.words.Holds (u ++ v)
  left : l.trace <+: a.trace
  right : r.trace = []
  heads_left : l.trace = a.trace → ∀ x, l.heads x → a.heads x
  heads_right : a.trace = [] → l.words.Nullable → ∀ x, r.heads x → a.heads x
  alone_left : l.trace = a.trace → r.words.Nullable → ∀ x, l.alone x → a.alone x
  alone_right : a.trace = [] → l.words.Nullable → ∀ x, r.alone x → a.alone x

/-- `b` any number of times in a row claims no more than `a`. -/
structure Repeats (b a : Meaning) : Prop where
  nil : a.words.Nullable
  words : ∀ u v, b.words.Holds u → a.words.Holds v → a.words.Holds (u ++ v)
  trace : a.trace = []
  body : b.Within a

/-- A rule of a name with the body `b` claims no more than `a`. -/
structure Names (links : Links) (name : String) (b a : Meaning) : Prop where
  words : ∀ w, b.words.Holds w → a.words.Holds w
  trace : b.trace <+: a.trace
  head : a.heads name
  alone : a.alone name
  heads_body : b.trace = a.trace → ∀ x, b.heads x → links.leads name x
  alone_body : b.trace = a.trace → ∀ x, b.alone x → links.alone name x

variable {a b b' l l' r r' : Meaning} {links : Links} {name : String}

theorem Joins.mono (h : Joins l r a) (hl : l'.Refines l) (hr : r'.Refines r) : Joins l' r' a where
  words u v hu hv := h.words u v (hl.1 u hu) (hr.1 v hv)
  left := hl.2.1.trans h.left
  right := List.prefix_nil.mp (h.right ▸ hr.2.1)
  heads_left same x hx := by
    obtain ⟨part, whole⟩ := hl.2.squeeze h.left same
    exact h.heads_left whole x ((hl.2.2 part).1 x hx)
  heads_right flat null x hx := by
    have hr' : r'.trace = r.trace := (List.prefix_nil.mp (h.right ▸ hr.2.1)).trans h.right.symm
    exact h.heads_right flat (hl.nullable null) x ((hr.2.2 hr').1 x hx)
  alone_left same null x hx := by
    obtain ⟨part, whole⟩ := hl.2.squeeze h.left same
    exact h.alone_left whole (hr.nullable null) x ((hl.2.2 part).2 x hx)
  alone_right flat null x hx := by
    have hr' : r'.trace = r.trace := (List.prefix_nil.mp (h.right ▸ hr.2.1)).trans h.right.symm
    exact h.alone_right flat (hl.nullable null) x ((hr.2.2 hr').2 x hx)

theorem Repeats.mono (h : Repeats b a) (hb : b'.Refines b) : Repeats b' a where
  nil := h.nil
  words u v hu hv := h.words u v (hb.1 u hu) hv
  trace := h.trace
  body := hb.2.trans h.body

theorem Names.mono (h : Names links name b a) (hb : b'.Refines b) : Names links name b' a where
  words w hw := h.words w (hb.1 w hw)
  trace := hb.2.1.trans h.trace
  head := h.head
  alone := h.alone
  heads_body same x hx := by
    obtain ⟨part, whole⟩ := hb.2.squeeze h.trace same
    exact h.heads_body whole x ((hb.2.2 part).1 x hx)
  alone_body same x hx := by
    obtain ⟨part, whole⟩ := hb.2.squeeze h.trace same
    exact h.alone_body whole x ((hb.2.2 part).2 x hx)

/-! ### Derivatives of the parts -/

variable {kind : Kind} {d skipped : Meaning}

theorem nil_refines (h : a.words.Holds [kind]) :
    ((a.after kind).withWords .nil).Refines (a.after kind) := by
  refine withWords_refines fun w => ?_
  rintro ⟨n, rfl⟩
  exact h

theorem union_refines (hl : l.Refines a) (hr : r.Refines a) :
    (a.withWords (l.words.union r.words)).Refines a := by
  refine withWords_refines fun w hw => ?_
  rcases Ranked.holds_union.mp hw with hw | hw
  · exact hl.1 w hw
  · exact hr.1 w hw

theorem Refines.left_union (hl : l.Refines a) : l.Refines (a.withWords (l.words.union r.words)) :=
  hl.2.refines_withWords fun _ hw => Ranked.holds_union.mpr (.inl hw)

theorem Refines.right_union (hr : r.Refines a) : r.Refines (a.withWords (l.words.union r.words)) :=
  hr.2.refines_withWords fun _ hw => Ranked.holds_union.mpr (.inr hw)

/-- The derivative of the left part, followed by the right part. -/
theorem Joins.after (h : Joins l r a) (hd : d.Refines (l.after kind)) :
    Joins d r ((a.after kind).withWords (d.words.concat r.words)) where
  words u v hu hv := Ranked.holds_concat.mpr ⟨u, v, rfl, hu, hv⟩
  left := hd.2.1.trans (List.cons_prefix_cons.mpr ⟨rfl, h.left⟩)
  right := h.right
  heads_left same x hx := by
    obtain ⟨part, whole⟩ := hd.2.squeeze (List.cons_prefix_cons.mpr ⟨rfl, h.left⟩) same
    exact h.heads_left (List.tail_eq_of_cons_eq whole) x ((hd.2.2 part).1 x hx)
  heads_right flat := by cases flat
  alone_left same null x hx := by
    obtain ⟨part, whole⟩ := hd.2.squeeze (List.cons_prefix_cons.mpr ⟨rfl, h.left⟩) same
    exact h.alone_left (List.tail_eq_of_cons_eq whole) null x ((hd.2.2 part).2 x hx)
  alone_right flat := by cases flat

theorem Joins.concat_refines (h : Joins l r a) (hd : d.Refines (l.after kind)) :
    ((a.after kind).withWords (d.words.concat r.words)).Refines (a.after kind) := by
  refine withWords_refines fun w hw => ?_
  obtain ⟨u, v, rfl, hu, hv⟩ := Ranked.holds_concat.mp hw
  exact h.words (kind :: u) v (hd.1 u hu) hv

/-- The derivative of the right part, the left part being empty. -/
theorem Joins.skipped_refines (h : Joins l r a) (null : l.words.Nullable)
    (hd : skipped.Refines (r.after kind)) : skipped.Refines (a.after kind) := by
  refine ⟨fun w hw => h.words [] (kind :: w) null (hd.1 w hw), ?_⟩
  have short : (r.after kind).trace = [kind] := congrArg (kind :: ·) h.right
  refine ⟨(short ▸ hd.2.1).trans (List.cons_prefix_cons.mpr ⟨rfl, List.nil_prefix⟩), fun same => ?_⟩
  -- a derivative by everything is one of a sequence that nothing was derived by
  have flat : a.trace = [] := by
    have len := (short ▸ hd.2.1).length_le
    rw [same] at len
    exact List.length_eq_zero_iff.mp (Nat.le_zero.mp (Nat.le_of_succ_le_succ len))
  have whole : skipped.trace = (r.after kind).trace := by
    rw [same, short]
    exact congrArg (kind :: ·) flat
  exact ⟨fun x hx => h.heads_right flat null x ((hd.2.2 whole).1 x hx),
    fun x hx => h.alone_right flat null x ((hd.2.2 whole).2 x hx)⟩

/-- The derivative of what is repeated, followed by the repetition. -/
theorem Repeats.after (h : Repeats b a) (hd : d.Refines (b.after kind)) :
    Joins d a ((a.after kind).withWords (d.words.concat a.words)) where
  words u v hu hv := Ranked.holds_concat.mpr ⟨u, v, rfl, hu, hv⟩
  left := (hd.2.trans (h.body.after kind)).1
  right := h.trace
  heads_left same := ((hd.2.trans (h.body.after kind)).2 same).1
  heads_right flat := by cases flat
  alone_left same _ := ((hd.2.trans (h.body.after kind)).2 same).2
  alone_right flat := by cases flat

theorem Repeats.concat_refines (h : Repeats b a) (hd : d.Refines (b.after kind)) :
    ((a.after kind).withWords (d.words.concat a.words)).Refines (a.after kind) := by
  refine withWords_refines fun w hw => ?_
  obtain ⟨u, v, rfl, hu, hv⟩ := Ranked.holds_concat.mp hw
  exact h.words (kind :: u) v (hd.1 u hu) hv

/-- The derivative of a rule is a rule over the derivative of its body. -/
theorem Names.after (h : Names links name b a) :
    Names links name (b.after kind) (a.after kind) where
  words w := h.words (kind :: w)
  trace := List.cons_prefix_cons.mpr ⟨rfl, h.trace⟩
  head := h.head
  alone := h.alone
  heads_body same := h.heads_body (List.tail_eq_of_cons_eq same)
  alone_body same := h.alone_body (List.tail_eq_of_cons_eq same)

end Meaning

/-! ## Worlds -/

/-- What every node stands for. -/
abbrev World := NodeId → Meaning

/-- The node that a thunk has been resolved to; `none` while it waits. One that was culled as dead
resolves to the node that matches nothing. -/
def ThunkState.target? : ThunkState → Option NodeId
  | pending | running => none
  | forced target => some target
  | culled target => some (target.getD Grammar.nothing)

/-- What belongs to a nonterminal besides its body does not claim too much: the derivative it
remembers, and that it is nullable. -/
structure Rule.Honest (W : World) (id : NodeId) (r : Rule) : Prop where
  memo : ∀ kind next, r.memo = some (kind, next) → (W next).Refines ((W id).after kind)
  nullable : r.fixpoint = .done true → (W id).words.Nullable

namespace World

variable {L : Type}

/-- The parts of a node claim no more than it stands for. -/
def Fits (links : Links) (W : World) (id : NodeId) : Node L → Prop
  | .empty => W id = .void
  | .undefined _ => True
  | .token kind => ∀ w, kind = Kind.epsilon ∧ w = [] ∨ kind.isTerminal ∧ w = [kind] →
      (W id).words.Holds w
  | .matched _ => (W id).words.Nullable
  | .alt left right => (W left).Refines (W id) ∧ (W right).Refines (W id)
  | .cat left right => (W left).Joins (W right) (W id)
  | .rep body => (W body).Repeats (W id)
  | .rule r body => (W body).Names links r.name (W id) ∧ r.Honest W id
  | .thunk t base =>
    match t.state.target? with
    | some target => (W target).Refines (W id)
    | none => ((W base).after t.symbol.kind).Refines (W id)

/-- The parts of a node claim no less than it stands for. -/
def Supports (W : World) (id : NodeId) : Node L → Prop
  | .empty | .undefined _ => ∀ n w, ¬(W id).words n w
  | .token kind => ∀ n w, (W id).words n w →
      kind = Kind.epsilon ∧ w = [] ∨ kind.isTerminal ∧ w = [kind]
  | .matched _ => ∀ n w, (W id).words n w → w = []
  | .alt left right => ∀ n w, (W id).words n w →
      (W left).words.Upto n w ∨ (W right).words.Upto n w
  | .cat left right => ∀ n w, (W id).words n w →
      ∃ u v, w = u ++ v ∧ (W left).words.Upto n u ∧ (W right).words.Upto n v
  | .rep body => ∀ n w, (W id).words n w →
      w = [] ∨ ∃ c u v, w = c :: u ++ v ∧ (W body).words.Upto n (c :: u) ∧ (W id).words.Upto n v
  | .rule _ body => ∀ n w, (W id).words n w → ∃ m < n, (W body).words m w
  | .thunk t base =>
    match t.state.target? with
    | some target => (W id).words.Under (W target).words
    | none => (W id).words.Under ((W base).words.after t.symbol.kind)

section Thunk

variable {links : Links} {W : World} {id base target : NodeId} {t : Thunk L}

theorem fits_resolved (ht : t.state.target? = some target) :
    W.Fits links id (.thunk t base) ↔ (W target).Refines (W id) := by
  unfold Fits
  simp only [ht]

theorem fits_waiting (ht : t.state.target? = none) :
    W.Fits links id (.thunk t base) ↔ ((W base).after t.symbol.kind).Refines (W id) := by
  unfold Fits
  simp only [ht]

theorem supports_resolved (ht : t.state.target? = some target) :
    W.Supports id (.thunk t base) ↔ (W id).words.Under (W target).words := by
  unfold Supports
  simp only [ht]

theorem supports_waiting (ht : t.state.target? = none) :
    W.Supports id (.thunk t base) ↔ (W id).words.Under ((W base).words.after t.symbol.kind) := by
  unfold Supports
  simp only [ht]

end Thunk

end World

end DerivativeParsing
