import DerivativeParsing.Proofs.Ambiguity

/-!
# Derivatives of languages

What is left of a language without rules after a symbol is a language without rules. It is written
down here as it is taken: a choice keeps both sides, a sequence whose left part may be empty becomes
a choice, and nothing is simplified but what has no words.

1. `Language.derivative` is what is left after a symbol, `Language.pruned` leaves out what has no
   words. `pruned_remainder`: it does not matter when that is left out.
2. `size_lt_of_height`: a language that is not tall is not large.
3. `trees_of_after`: what is left has words only if they are left of words.
4. `Language.endings`: finitely many words, one of which ends whatever can be ended
   (`exists_ending`).
-/

namespace DerivativeParsing

open Finset

namespace Language

/-! ## What is left after a symbol -/

def nothing : Language := .token Kind.void

def isNullable : Language → Bool
  | epsilon | rep _ => true
  | token kind => kind == Kind.epsilon
  | alt left right => left.isNullable || right.isNullable
  | cat left right => left.isNullable && right.isNullable
  | rule _ => false

def isAlive : Language → Bool
  | epsilon | rep _ => true
  | token kind => kind != Kind.void
  | alt left right => left.isAlive || right.isAlive
  | cat left right => left.isAlive && right.isAlive
  | rule _ => false

def derivative (kind : Kind) : Language → Language
  | token expected => if expected.isTerminal ∧ expected = kind then epsilon else nothing
  | alt left right => alt (left.derivative kind) (right.derivative kind)
  | cat left right =>
    if left.isNullable then alt (cat (left.derivative kind) right) (right.derivative kind)
    else cat (left.derivative kind) right
  | rep body => cat (body.derivative kind) (rep body)
  | epsilon | rule _ => nothing

/-- The language without the parts that have no words. What is repeated is kept, if only as the
language without words. -/
def pruned : Language → Language
  | epsilon => epsilon
  | token kind => token kind
  | alt left right =>
    if left.isAlive then if right.isAlive then alt left.pruned right.pruned else left.pruned
    else right.pruned
  | cat left right =>
    if left.isAlive && right.isAlive then cat left.pruned right.pruned else nothing
  | rep body => rep body.pruned
  | rule _ => nothing

/-- How many parts there are, the language itself included. -/
def size : Language → Nat
  | alt left right | cat left right => left.size + right.size + 1
  | rep body => body.size + 1
  | epsilon | token _ | rule _ => 1

/-- How many parts there are one inside the other. -/
def height : Language → Nat
  | alt left right | cat left right => max left.height right.height + 1
  | rep body => body.height + 1
  | epsilon | token _ | rule _ => 1

section Equations

variable {left right body : Language} {kind expected : Kind}

theorem isNullable_alt : (left.alt right).isNullable = (left.isNullable || right.isNullable) := rfl
theorem isNullable_cat : (left.cat right).isNullable = (left.isNullable && right.isNullable) := rfl
theorem isAlive_token : (token kind).isAlive = (kind != Kind.void) := rfl
theorem isAlive_alt : (left.alt right).isAlive = (left.isAlive || right.isAlive) := rfl
theorem isAlive_cat : (left.cat right).isAlive = (left.isAlive && right.isAlive) := rfl

theorem derivative_token :
    (token expected).derivative kind =
      if expected.isTerminal ∧ expected = kind then epsilon else nothing := rfl
theorem derivative_alt :
    (left.alt right).derivative kind = (left.derivative kind).alt (right.derivative kind) := rfl
theorem derivative_cat : (left.cat right).derivative kind =
    if left.isNullable then ((left.derivative kind).cat right).alt (right.derivative kind)
    else (left.derivative kind).cat right := rfl

theorem pruned_alt : (left.alt right).pruned =
    if left.isAlive then if right.isAlive then left.pruned.alt right.pruned else left.pruned
      else right.pruned := rfl
theorem pruned_cat : (left.cat right).pruned =
    if left.isAlive && right.isAlive then left.pruned.cat right.pruned else nothing := rfl
theorem pruned_rep : body.rep.pruned = body.pruned.rep := rfl

theorem size_alt : (left.alt right).size = left.size + right.size + 1 := rfl
theorem size_cat : (left.cat right).size = left.size + right.size + 1 := rfl

theorem height_alt : (left.alt right).height = max left.height right.height + 1 := rfl
theorem height_cat : (left.cat right).height = max left.height right.height + 1 := rfl
theorem height_rep : body.rep.height = body.height + 1 := rfl

end Equations

variable {L : Type}

/-- What is left after some symbols. -/
def after (lang : Language) (symbols : List (Symbol L)) : Language :=
  symbols.foldl (fun lang s => lang.derivative s.kind) lang

/-- What is left after some symbols, when what has no words is left out after each. -/
def remainder (lang : Language) (symbols : List (Symbol L)) : Language :=
  symbols.foldl (fun lang s => (lang.derivative s.kind).pruned) lang

end Language

section Pruning

variable {lang lang' left left' right right' : Language} {kind : Kind} {L : Type} {s : Symbol L}
  {w : List (Symbol L)}

open DerivativeParsing.Language
  (nothing isNullable_alt isNullable_cat isAlive_token isAlive_alt isAlive_cat derivative_alt
    derivative_cat pruned_alt pruned_cat pruned_rep size_alt size_cat)

/-! ## What has no words -/

theorem isAlive_of_isNullable (nullable : lang.isNullable) : lang.isAlive := by
  induction lang with
  | epsilon | rep => rfl
  | token kind =>
    obtain rfl : kind = Kind.epsilon := beq_iff_eq.mp nullable
    rfl
  | alt left right ihl ihr =>
    rw [isNullable_alt, Bool.or_eq_true] at nullable
    rw [isAlive_alt, Bool.or_eq_true]
    exact nullable.imp ihl ihr
  | cat left right ihl ihr =>
    rw [isNullable_cat, Bool.and_eq_true] at nullable
    rw [isAlive_cat, Bool.and_eq_true]
    exact ⟨ihl nullable.1, ihr nullable.2⟩
  | rule => cases nullable

theorem not_isNullable_of_not_isAlive (dead : ¬lang.isAlive) : lang.isNullable = false :=
  Bool.eq_false_iff.mpr (mt isAlive_of_isNullable dead)

/-- Nothing is left of a language that has no words. -/
theorem not_isAlive_derivative (dead : ¬lang.isAlive) : ¬(lang.derivative kind).isAlive := by
  induction lang with
  | epsilon | rep => exact absurd rfl dead
  | token expected =>
    obtain rfl : expected = Kind.void := by simpa [isAlive_token] using dead
    exact dead
  | alt left right ihl ihr =>
    rw [isAlive_alt, Bool.or_eq_true, not_or] at dead
    rw [derivative_alt, isAlive_alt, Bool.or_eq_true, not_or]
    exact ⟨ihl dead.1, ihr dead.2⟩
  | cat left right ihl ihr =>
    have first : ¬((left.derivative kind).cat right).isAlive := by
      rw [isAlive_cat, Bool.and_eq_true] at dead ⊢
      exact fun alive => dead ⟨by_contra fun h => ihl h alive.1, alive.2⟩
    rw [derivative_cat]
    split
    · rename_i nullable
      rw [isAlive_alt, Bool.or_eq_true, not_or]
      rw [isAlive_cat, Bool.and_eq_true, not_and] at dead
      exact ⟨first, ihr (dead (isAlive_of_isNullable nullable))⟩
    · exact first
  | rule => exact dead

theorem not_isAlive_after (dead : ¬lang.isAlive) : ¬(lang.after w).isAlive := by
  induction w generalizing lang with
  | nil => exact dead
  | cons s w ih => exact ih (not_isAlive_derivative dead)

@[simp] theorem after_nothing : nothing.after w = nothing := by
  induction w with
  | nil => rfl
  | cons s w ih => exact ih

theorem after_alt : (left.alt right).after w = (left.after w).alt (right.after w) := by
  induction w generalizing left right with
  | nil => rfl
  | cons s w ih => exact ih

/-! ## Leaving it out -/

theorem pruned_of_not_isAlive (dead : ¬lang.isAlive) : lang.pruned = nothing := by
  induction lang with
  | epsilon | rep => exact absurd rfl dead
  | token kind =>
    obtain rfl : kind = Kind.void := by simpa [isAlive_token] using dead
    rfl
  | alt left right _ ihr =>
    rw [isAlive_alt, Bool.or_eq_true, not_or] at dead
    rw [pruned_alt, if_neg dead.1, ihr dead.2]
  | cat left right => exact if_neg dead
  | rule => rfl

/-- Leaving out keeps whether there are words. -/
@[simp] theorem isAlive_pruned : lang.pruned.isAlive = lang.isAlive := by
  induction lang with
  | epsilon | token | rep | rule => rfl
  | alt left right ihl ihr =>
    rw [pruned_alt]
    cases l : left.isAlive <;> cases r : right.isAlive <;> simp [isAlive_alt, ihl, ihr, l, r]
  | cat left right ihl ihr =>
    rw [pruned_cat]
    cases l : left.isAlive <;> cases r : right.isAlive <;>
      simp [isAlive_token, isAlive_cat, ihl, ihr, l, r, nothing]

@[simp] theorem isNullable_pruned : lang.pruned.isNullable = lang.isNullable := by
  induction lang with
  | epsilon | token | rep | rule => rfl
  | alt left right ihl ihr =>
    rw [pruned_alt]
    split
    · split
      · rw [isNullable_alt, isNullable_alt, ihl, ihr]
      · rename_i dead
        rw [isNullable_alt, ihl, not_isNullable_of_not_isAlive dead, Bool.or_false]
    · rename_i dead
      rw [isNullable_alt, ihr, not_isNullable_of_not_isAlive dead, Bool.false_or]
  | cat left right ihl ihr =>
    rw [pruned_cat]
    split
    · rw [isNullable_cat, isNullable_cat, ihl, ihr]
    · rename_i dead
      exact (@not_isNullable_of_not_isAlive (left.cat right) dead).symm

/-- What was left out is not there to be left out. -/
@[simp] theorem pruned_pruned : lang.pruned.pruned = lang.pruned := by
  induction lang with
  | epsilon | token | rule => rfl
  | alt left right ihl ihr =>
    rw [pruned_alt]
    split
    · split
      · rename_i l r
        rw [pruned_alt, isAlive_pruned, isAlive_pruned, if_pos l, if_pos r, ihl, ihr]
      · exact ihl
    · exact ihr
  | cat left right ihl ihr =>
    rw [pruned_cat]
    split
    · rename_i both
      rw [pruned_cat, isAlive_pruned, isAlive_pruned, if_pos both, ihl, ihr]
    · rfl
  | rep body ih => rw [pruned_rep, pruned_rep, ih]

theorem pruned_alt_of_dead_left (dead : ¬left.isAlive) :
    (left.alt right).pruned = right.pruned := by
  rw [pruned_alt, if_neg dead]

theorem pruned_alt_of_dead_right (dead : ¬right.isAlive) :
    (left.alt right).pruned = left.pruned := by
  rw [pruned_alt, if_neg dead]
  split
  · rfl
  · rename_i dead'
    rw [pruned_of_not_isAlive dead, pruned_of_not_isAlive dead']

theorem pruned_cat_of_isAlive (alive : (left.cat right).isAlive) :
    (left.cat right).pruned = left.pruned.cat right.pruned := if_pos alive

theorem isAlive_congr (same : lang.pruned = lang'.pruned) : lang.isAlive = lang'.isAlive := by
  rw [← isAlive_pruned, same, isAlive_pruned]

theorem pruned_alt_congr (sameLeft : left.pruned = left'.pruned)
    (sameRight : right.pruned = right'.pruned) :
    (left.alt right).pruned = (left'.alt right').pruned := by
  rw [pruned_alt, pruned_alt, sameLeft, sameRight, isAlive_congr sameLeft, isAlive_congr sameRight]

theorem pruned_cat_congr (sameLeft : left.pruned = left'.pruned)
    (sameRight : right.pruned = right'.pruned) :
    (left.cat right).pruned = (left'.cat right').pruned := by
  rw [pruned_cat, pruned_cat, sameLeft, sameRight, isAlive_congr sameLeft, isAlive_congr sameRight]

/-- What has no words may be left out before a symbol as well as after it. -/
theorem pruned_derivative_pruned :
    (lang.pruned.derivative kind).pruned = (lang.derivative kind).pruned := by
  induction lang with
  | epsilon | token | rule => rfl
  | alt left right ihl ihr =>
    by_cases l : left.isAlive
    · by_cases r : right.isAlive
      · rw [pruned_alt, if_pos l, if_pos r]
        exact pruned_alt_congr ihl ihr
      · rw [pruned_alt_of_dead_right r, ihl]
        exact (pruned_alt_of_dead_right (not_isAlive_derivative r)).symm
    · rw [pruned_alt_of_dead_left l, ihr]
      exact (pruned_alt_of_dead_left (not_isAlive_derivative l)).symm
  | cat left right ihl ihr =>
    by_cases both : (left.cat right).isAlive
    · rw [pruned_cat_of_isAlive both, derivative_cat, derivative_cat, isNullable_pruned]
      have first := pruned_cat_congr ihl (@pruned_pruned right)
      split
      · exact pruned_alt_congr first ihr
      · exact first
    · rw [pruned_of_not_isAlive both, pruned_of_not_isAlive (not_isAlive_derivative both)]
      rfl
  | rep body ih => exact pruned_cat_congr ih (@pruned_pruned body.rep)

/-- So leaving it out after each symbol comes to the same as leaving it out in the end. -/
theorem pruned_remainder : (lang.remainder w).pruned = (lang.after w).pruned := by
  suffices h : ∀ lang' : Language, lang'.pruned = lang.pruned →
    (lang'.remainder w).pruned = (lang.after w).pruned from h lang rfl
  intro lang' same
  induction w generalizing lang lang' with
  | nil => exact same
  | cons s w ih =>
    refine ih _ ?_
    rw [pruned_pruned, ← pruned_derivative_pruned, same, pruned_derivative_pruned]

theorem size_pruned_le : lang.pruned.size ≤ lang.size := by
  induction lang with
  | epsilon | token | rule => exact Nat.le_refl _
  | alt left right ihl ihr =>
    rw [pruned_alt, size_alt]
    split
    · split
      · rw [size_alt]
        omega
      · omega
    · omega
  | cat left right ihl ihr =>
    rw [pruned_cat, size_cat]
    split
    · rw [size_cat]
      omega
    · exact Nat.le_add_left 1 _
  | rep body ih => exact Nat.succ_le_succ ih

end Pruning

/-! ## Size and height -/

section Size

variable {lang left right : Language}

open DerivativeParsing.Language (height_alt height_cat height_rep)

/-- Two parts of a language have fewer parts than twice as many as the taller one may have. -/
theorem two_parts_lt (ltl : left.size < 2 ^ left.height) (ltr : right.size < 2 ^ right.height) :
    left.size + right.size + 1 < 2 ^ (max left.height right.height + 1) := by
  have l : 2 ^ left.height ≤ 2 ^ max left.height right.height :=
    Nat.pow_le_pow_right Nat.two_pos (Nat.le_max_left _ _)
  have r : 2 ^ right.height ≤ 2 ^ max left.height right.height :=
    Nat.pow_le_pow_right Nat.two_pos (Nat.le_max_right _ _)
  rw [Nat.pow_succ]
  omega

/-- A language that is not tall has not many parts. -/
theorem size_lt_of_height : lang.size < 2 ^ lang.height := by
  induction lang with
  | epsilon | token | rule => exact Nat.one_lt_two
  | alt left right ihl ihr =>
    rw [height_alt]
    exact two_parts_lt ihl ihr
  | cat left right ihl ihr =>
    rw [height_cat]
    exact two_parts_lt ihl ihr
  | rep body ih =>
    rw [height_rep, Nat.pow_succ]
    show body.size + 1 < _
    omega

end Size

/-! ## Words of what is left -/

section Words

variable {L : Type} [DecidableEq L] {lang left right body : Language} {kind : Kind} {s : Symbol L}
  {w v : List (Symbol L)}

open DerivativeParsing.Language (nothing)

theorem trees_cat_nonempty : ((left.cat right).trees w).Nonempty ↔
    ∃ u v, w = u ++ v ∧ (left.trees u).Nonempty ∧ (right.trees v).Nonempty := by
  constructor
  · rintro ⟨_, member⟩
    obtain ⟨i, -, l, hl, r, hr, rfl⟩ := mem_joined.mp member
    exact ⟨w.take i, w.drop i, (List.take_append_drop i w).symm, ⟨l, hl⟩, ⟨r, hr⟩⟩
  · rintro ⟨u, v, rfl, ⟨l, hl⟩, ⟨r, hr⟩⟩
    refine ⟨l.join r, mem_joined.mpr ⟨u.length, by simp, l, ?_, r, ?_, rfl⟩⟩
    · rwa [List.take_left]
    · rwa [List.drop_left]

theorem trees_rep_nonempty (hs : (body.trees (s :: w)).Nonempty)
    (hv : (body.rep.trees v).Nonempty) : (body.rep.trees (s :: (w ++ v))).Nonempty := by
  obtain ⟨l, hl⟩ := hs
  obtain ⟨r, hr⟩ := hv
  refine ⟨l.join r, ?_⟩
  rw [Language.trees]
  refine mem_iterated_cons.mpr ⟨w.length, by simp, l, ?_, r, ?_, rfl⟩
  · rwa [List.take_left]
  · rwa [List.drop_left]

theorem trees_of_isNullable (nullable : lang.isNullable) :
    (lang.trees ([] : List (Symbol L))).Nonempty := by
  induction lang with
  | epsilon => exact ⟨.nil, by simp [Language.trees]⟩
  | token kind => exact ⟨.nil, mem_single.mpr (.inl ⟨beq_iff_eq.mp nullable, rfl, rfl⟩)⟩
  | alt left right ihl ihr =>
    rw [Language.trees, union_nonempty]
    exact ((Bool.or_eq_true _ _).mp nullable).imp ihl ihr
  | cat left right ihl ihr =>
    obtain ⟨l, r⟩ := (Bool.and_eq_true _ _).mp nullable
    exact trees_cat_nonempty.mpr ⟨[], [], rfl, ihl l, ihr r⟩
  | rep body => exact card_pos.mp (by rw [card_trees_rep_nil]; exact Nat.one_pos)
  | rule => cases nullable

theorem mem_trees_epsilon {t : Tree (Symbol L)} :
    t ∈ Language.epsilon.trees w ↔ w = [] ∧ t = .nil := by
  by_cases none : w = [] <;> simp [Language.trees, none]

theorem not_trees_nothing : ¬(nothing.trees w).Nonempty := by
  rintro ⟨t, member⟩
  rcases mem_single.mp member with ⟨void, -⟩ | ⟨terminal, -⟩
  · cases void
  · cases terminal

/-- What is left after a symbol has a word only if that makes a word after the symbol. -/
theorem trees_of_derivative (h : ((lang.derivative s.kind).trees w).Nonempty) :
    (lang.trees (s :: w)).Nonempty := by
  induction lang generalizing w with
  | epsilon | rule => exact absurd h not_trees_nothing
  | token kind =>
    rw [Language.derivative_token] at h
    split at h
    · rename_i hit
      obtain ⟨t, member⟩ := h
      obtain ⟨rfl, -⟩ := mem_trees_epsilon.mp member
      exact ⟨.leaf s, mem_single.mpr (.inr ⟨hit.1, s, hit.2.symm, rfl, rfl⟩)⟩
    · exact absurd h not_trees_nothing
  | alt left right ihl ihr =>
    rw [Language.derivative_alt, Language.trees, union_nonempty] at h
    rw [Language.trees, union_nonempty]
    exact h.imp ihl ihr
  | cat left right ihl ihr =>
    have first (h : (((left.derivative s.kind).cat right).trees w).Nonempty) :
        ((left.cat right).trees (s :: w)).Nonempty := by
      obtain ⟨u, v, rfl, hu, hv⟩ := trees_cat_nonempty.mp h
      exact trees_cat_nonempty.mpr ⟨s :: u, v, rfl, ihl hu, hv⟩
    rw [Language.derivative_cat] at h
    split at h
    · rename_i nullable
      rw [Language.trees, union_nonempty] at h
      rcases h with h | h
      · exact first h
      · exact trees_cat_nonempty.mpr ⟨[], s :: w, rfl, trees_of_isNullable nullable, ihr h⟩
    · exact first h
  | rep body ih =>
    obtain ⟨u, v, rfl, hu, hv⟩ := trees_cat_nonempty.mp h
    exact trees_rep_nonempty (ih hu) hv

theorem trees_of_after (h : ((lang.after w).trees v).Nonempty) :
    (lang.trees (w ++ v)).Nonempty := by
  induction w generalizing lang with
  | nil => exact h
  | cons s w ih => exact trees_of_derivative (ih h)

end Words

/-! ## Endings -/

namespace Language

variable {L : Type} [DecidableEq L]

/-- A word, if there is one, of symbols with the given lexeme. -/
def sample (lexeme : L) : Language → List (Symbol L)
  | token kind => if kind.isTerminal then [⟨kind, lexeme⟩] else []
  | alt left right => if left.isAlive then left.sample lexeme else right.sample lexeme
  | cat left right => left.sample lexeme ++ right.sample lexeme
  | epsilon | rep _ | rule _ => []

/-- Words one of which can follow, whatever part of a word was read, if any can. -/
def endings (lexeme : L) : Language → Finset (List (Symbol L))
  | token kind => if kind.isTerminal then {[], [⟨kind, lexeme⟩]} else {[]}
  | alt left right => left.endings lexeme ∪ right.endings lexeme
  | cat left right => (left.endings lexeme).image (· ++ right.sample lexeme) ∪ right.endings lexeme
  | rep body => insert [] (body.endings lexeme)
  | epsilon | rule _ => {[]}

end Language

section Endings

variable {L : Type} [DecidableEq L] {lang left right body : Language} {kind : Kind} {s : Symbol L}
  {w v : List (Symbol L)} {lexeme : L}

omit [DecidableEq L] in
theorem Kind.eq_epsilon (filled : kind ≠ Kind.void) (reserved : ¬kind.isTerminal) :
    kind = Kind.epsilon := by
  rcases kind with _ | _ | n
  · exact absurd rfl filled
  · rfl
  · exact absurd (decide_eq_true (Nat.le_add_left 2 n)) reserved

theorem trees_sample (lexeme : L) (alive : lang.isAlive) :
    (lang.trees (lang.sample lexeme)).Nonempty := by
  induction lang with
  | epsilon => exact ⟨.nil, by simp [Language.trees, Language.sample]⟩
  | token kind =>
    rw [Language.sample]
    split
    · rename_i terminal
      exact ⟨.leaf ⟨kind, lexeme⟩, mem_single.mpr (.inr ⟨terminal, _, rfl, rfl, rfl⟩)⟩
    · rename_i reserved
      obtain rfl := Kind.eq_epsilon (bne_iff_ne.mp alive) reserved
      exact trees_of_isNullable rfl
  | alt left right ihl ihr =>
    rw [Language.trees, union_nonempty, Language.sample]
    split
    · rename_i l
      exact .inl (ihl l)
    · rename_i l
      exact .inr (ihr ((Bool.or_eq_true _ _).mp alive |>.resolve_left l))
  | cat left right ihl ihr =>
    obtain ⟨l, r⟩ := (Bool.and_eq_true _ _).mp alive
    exact trees_cat_nonempty.mpr ⟨_, _, rfl, ihl l, ihr r⟩
  | rep body => exact trees_of_isNullable rfl
  | rule => cases alive

theorem endings_derivative : (lang.derivative kind).endings lexeme ⊆ lang.endings lexeme := by
  induction lang with
  | epsilon | rule => exact Finset.Subset.refl _
  | token expected =>
    have least : {[]} ⊆ (Language.token expected).endings lexeme := by
      rw [singleton_subset_iff, Language.endings]
      split <;> simp
    rw [Language.derivative_token]
    split <;> exact least
  | alt left right ihl ihr => exact union_subset_union ihl ihr
  | cat left right ihl ihr =>
    have first : ((left.derivative kind).cat right).endings lexeme ⊆
        (left.cat right).endings lexeme :=
      union_subset_union (image_subset_image ihl) (Finset.Subset.refl _)
    rw [Language.derivative_cat]
    split
    · exact union_subset first (ihr.trans subset_union_right)
    · exact first
  | rep body ih =>
    have unchanged : ((body.derivative kind).endings lexeme).image (· ++ body.rep.sample lexeme) =
        (body.derivative kind).endings lexeme := by simp [Language.sample]
    rw [Language.derivative, Language.endings, unchanged]
    exact union_subset (ih.trans (subset_insert _ _)) (Finset.Subset.refl _)

theorem endings_after : (lang.after w).endings lexeme ⊆ lang.endings lexeme := by
  induction w generalizing lang with
  | nil => exact Finset.Subset.refl _
  | cons s w ih => exact ih.trans endings_derivative

theorem exists_ending (lexeme : L) (alive : lang.isAlive) :
    ∃ x ∈ lang.endings lexeme, (lang.trees x).Nonempty := by
  induction lang with
  | epsilon => exact ⟨[], mem_singleton_self _, trees_of_isNullable rfl⟩
  | token kind =>
    refine ⟨_, ?_, trees_sample lexeme alive⟩
    rw [Language.endings, Language.sample]
    split <;> simp
  | alt left right ihl ihr =>
    rcases (Bool.or_eq_true _ _).mp alive with l | r
    · obtain ⟨x, member, has⟩ := ihl l
      exact ⟨x, mem_union_left _ member, has.mono subset_union_left⟩
    · obtain ⟨x, member, has⟩ := ihr r
      exact ⟨x, mem_union_right _ member, has.mono subset_union_right⟩
  | cat left right ihl ihr =>
    obtain ⟨l, r⟩ := (Bool.and_eq_true _ _).mp alive
    obtain ⟨x, member, has⟩ := ihl l
    refine ⟨x ++ right.sample lexeme, mem_union_left _ (mem_image_of_mem _ member), ?_⟩
    exact trees_cat_nonempty.mpr ⟨_, _, rfl, has, trees_sample lexeme r⟩
  | rep body => exact ⟨[], mem_insert_self _ _, trees_of_isNullable rfl⟩
  | rule => cases alive

/-- Whatever was read, if it can be ended, then one of the endings does. -/
theorem exists_ending_after (lexeme : L) (alive : (lang.after w).isAlive) :
    ∃ x ∈ lang.endings lexeme, (lang.trees (w ++ x)).Nonempty := by
  obtain ⟨x, member, has⟩ := exists_ending lexeme alive
  exact ⟨x, endings_after member, trees_of_after has⟩

end Endings

end DerivativeParsing
