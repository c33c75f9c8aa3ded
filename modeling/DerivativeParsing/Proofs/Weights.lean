import DerivativeParsing.Proofs.Derivatives

/-!
# How large derivatives grow

What is left of a sequence is a choice, with a side for every place where the left part may have
ended; and so it is with a repetition, for every way to cut what was read into iterations. Each of
these ways leads to a tree of its own when what was read is ended. So where words have no more than
so many trees, what is left stays small.

1. `Language.weight` is how large a language is without the parts that have no words. The sides of a
   choice add up (`weight_alt`), so the weight of what is left of a sequence is a sum over its cuts
   (`weight_after_cat`).
2. `weight_after_rep_le`: what is left of a repetition weighs no more than so much for each of its
   trees.
3. `exists_weight_bound`: where there are few trees, what is left is bounded.
-/

namespace DerivativeParsing

open Finset

/-- How large a language is without the parts that have no words. It is counted so that the sides of
a choice add up. -/
def Language.weight (lang : Language) : Nat := if lang.isAlive then lang.pruned.size + 1 else 0

section Weight

variable {L : Type} {lang left right body : Language} {kind : Kind} {w : List (Symbol L)}
  {s : Symbol L} {k : Nat}

open DerivativeParsing.Language (nothing)

theorem weight_of_not_isAlive (dead : ¬lang.isAlive) : lang.weight = 0 := if_neg dead

theorem weight_of_isAlive (alive : lang.isAlive) : lang.weight = lang.pruned.size + 1 :=
  if_pos alive

theorem size_pruned_le_weight : lang.pruned.size ≤ lang.weight + 1 := by
  by_cases alive : lang.isAlive
  · rw [weight_of_isAlive alive]
    omega
  · rw [pruned_of_not_isAlive alive, weight_of_not_isAlive alive]
    exact Nat.le_refl 1

theorem weight_alt : (left.alt right).weight = left.weight + right.weight := by
  by_cases l : left.isAlive
  · by_cases r : right.isAlive
    · have both : (left.alt right).isAlive := (Bool.or_eq_true _ _).mpr (.inl l)
      rw [weight_of_isAlive both, weight_of_isAlive l, weight_of_isAlive r, Language.pruned_alt,
        if_pos l, if_pos r, Language.size_alt]
      omega
    · have same : (left.alt right).isAlive = left.isAlive := by simp [Language.isAlive_alt, r]
      rw [weight_of_not_isAlive r, Language.weight, same, pruned_alt_of_dead_right r]
      rfl
  · have same : (left.alt right).isAlive = right.isAlive := by simp [Language.isAlive_alt, l]
    rw [weight_of_not_isAlive l, Nat.zero_add, Language.weight, same, pruned_alt_of_dead_left l]
    rfl

theorem weight_cat_le :
    (left.cat right).weight ≤ if left.isAlive then left.weight + right.weight else 0 := by
  by_cases both : (left.cat right).isAlive
  · obtain ⟨l, r⟩ := (Bool.and_eq_true _ _).mp both
    rw [weight_of_isAlive both, if_pos l, weight_of_isAlive l, weight_of_isAlive r,
      pruned_cat_of_isAlive both, Language.size_cat]
    omega
  · rw [weight_of_not_isAlive both]
    exact Nat.zero_le _

/-- The parts of what is left of a sequence: of the left part, before it has ended, and of the right
part, wherever it may have begun. -/
theorem weight_after_cat : ((left.cat right).after w).weight = ((left.after w).cat right).weight +
    ∑ i ∈ range w.length,
      if (left.after (w.take i)).isNullable then (right.after (w.drop i)).weight else 0 := by
  induction w generalizing left with
  | nil => rfl
  | cons s w ih =>
    have rest := @ih (left.derivative s.kind)
    rw [List.length_cons, sum_range_succ']
    have first : (left.cat right).after (s :: w) = (((left.cat right).derivative s.kind).after w) :=
      rfl
    rw [first, Language.derivative_cat]
    split
    · rename_i nullable
      rw [after_alt, weight_alt, rest, Nat.add_assoc]
      congr 2
      exact (if_pos nullable).symm
    · rename_i needed
      rw [rest]
      congr 1
      exact (Nat.add_zero _).symm.trans (congrArg _ (if_neg needed).symm)

end Weight

/-! ## Counting trees -/

section Count

variable {L : Type} [DecidableEq L] {lang left right body : Language} {w x : List (Symbol L)}
  {s : Symbol L} {k m : Nat} {lexeme : L}

/-- Each cut before the end of what was read leads to trees of a sequence. -/
theorem sum_trees_cat_le :
    (∑ i ∈ range w.length, (left.trees (w.take i)).card * (right.trees (w.drop i ++ x)).card) ≤
    ((left.cat right).trees (w ++ x)).card := by
  rw [card_trees_cat]
  calc ∑ i ∈ range w.length, (left.trees (w.take i)).card * (right.trees (w.drop i ++ x)).card
      = ∑ i ∈ range w.length,
        (left.trees ((w ++ x).take i)).card * (right.trees ((w ++ x).drop i)).card := by
        refine sum_congr rfl fun i hi => ?_
        have le : i ≤ w.length := Nat.le_of_lt (mem_range.mp hi)
        rw [List.take_append_of_le_length le, List.drop_append_of_le_length le]
    _ ≤ _ := sum_le_sum_of_subset (range_subset_range.mpr (by simp; omega))

/-- So does that a first iteration has not ended, and each end that it may have had. -/
theorem sum_trees_rep_le : (body.trees (s :: (w ++ x))).card +
    (∑ i ∈ range w.length,
      (body.trees (s :: w.take i)).card * (body.rep.trees (w.drop i ++ x)).card) ≤
      (body.rep.trees (s :: (w ++ x))).card := by
  rw [card_trees_rep_cons, sum_range_succ, Nat.add_comm]
  refine Nat.add_le_add ?_ ?_
  · calc ∑ i ∈ range w.length,
      (body.trees (s :: w.take i)).card * (body.rep.trees (w.drop i ++ x)).card
        = ∑ i ∈ range w.length,
        (body.trees (s :: (w ++ x).take i)).card * (body.rep.trees ((w ++ x).drop i)).card := by
          refine sum_congr rfl fun i hi => ?_
          have le : i ≤ w.length := Nat.le_of_lt (mem_range.mp hi)
          rw [List.take_append_of_le_length le, List.drop_append_of_le_length le]
      _ ≤ _ := sum_le_sum_of_subset (range_subset_range.mpr (by simp))
  · rw [List.take_length, List.drop_length, card_trees_rep_nil, Nat.mul_one]

/-- What may have ended has a tree. -/
theorem one_le_trees_of_isNullable (nullable : (lang.after w).isNullable) :
    1 ≤ (lang.trees w).card := by
  have := trees_of_after (trees_of_isNullable (L := L) nullable)
  rw [List.append_nil] at this
  exact card_pos.mpr this

/-- What can be ended has a tree with one of the endings. -/
theorem one_le_sum_trees (lexeme : L) (alive : (lang.after w).isAlive) :
    1 ≤ ∑ x ∈ lang.endings lexeme, (lang.trees (w ++ x)).card := by
  obtain ⟨x, member, has⟩ := exists_ending_after lexeme alive
  calc 1 ≤ (lang.trees (w ++ x)).card := card_pos.mpr has
    _ ≤ _ :=
      single_le_sum (f := fun x => (lang.trees (w ++ x)).card) (fun _ _ => Nat.zero_le _) member

theorem mul_trees_cat_le (u v : List (Symbol L)) :
    (left.trees u).card * (right.trees v).card ≤ ((left.cat right).trees (u ++ v)).card := by
  rw [card_trees_cat]
  have cut : u.length ∈ range ((u ++ v).length + 1) := by
    rw [mem_range, List.length_append]
    omega
  have term := single_le_sum
    (f := fun i => (left.trees ((u ++ v).take i)).card * (right.trees ((u ++ v).drop i)).card)
    (fun _ _ => Nat.zero_le _) cut
  simpa only [List.take_left, List.drop_left] using term

/-! ## The bounds -/

/-- Where each cut that may have been made has a tree, and what comes after it weighs so much for
each tree, the cuts together do. -/
theorem sum_cuts_le {ι : Type} {n : Nat} {ended : Nat → Bool} {f c : Nat → Nat} {g : Nat → ι → Nat}
    {X : Finset ι} (counted : ∀ i < n, ended i → 1 ≤ c i) (le : ∀ i < n, f i ≤ m * ∑ x ∈ X, g i x) :
    (∑ i ∈ range n, if ended i then f i else 0) ≤ m * ∑ x ∈ X, ∑ i ∈ range n, c i * g i x := by
  calc (∑ i ∈ range n, if ended i then f i else 0)
      ≤ ∑ i ∈ range n, m * ∑ x ∈ X, c i * g i x := by
        refine sum_le_sum fun i hi => ?_
        have lt := mem_range.mp hi
        split
        · rename_i here
          calc f i ≤ m * (1 * ∑ x ∈ X, g i x) := by rw [Nat.one_mul]; exact le i lt
            _ ≤ m * (c i * ∑ x ∈ X, g i x) :=
              Nat.mul_le_mul_left m (Nat.mul_le_mul_right _ (counted i lt here))
            _ = m * ∑ x ∈ X, c i * g i x := by rw [mul_sum]
        · exact Nat.zero_le _
    _ = m * ∑ x ∈ X, ∑ i ∈ range n, c i * g i x := by rw [← mul_sum, sum_comm]

/-- What is left weighs no more than so much for each tree that an ending leads to. -/
theorem weight_after_le (lexeme : L) (bound : ∀ w : List (Symbol L), (lang.after w).weight ≤ m)
    (w : List (Symbol L)) :
    (lang.after w).weight ≤ m * ∑ x ∈ lang.endings lexeme, (lang.trees (w ++ x)).card := by
  by_cases alive : (lang.after w).isAlive
  · calc (lang.after w).weight ≤ m * 1 := by rw [Nat.mul_one]; exact bound w
      _ ≤ _ := Nat.mul_le_mul_left m (one_le_sum_trees lexeme alive)
  · rw [weight_of_not_isAlive alive]
    exact Nat.zero_le _

/-- What is left of a sequence weighs no more than its left part, and the right part for each
tree. -/
theorem weight_after_cat_le (lexeme : L) (bound : ∀ w : List (Symbol L), (right.after w).weight ≤ m)
    (w : List (Symbol L)) :
    ((left.cat right).after w).weight ≤ (left.after w).weight + right.weight +
      m * ∑ x ∈ right.endings lexeme, ((left.cat right).trees (w ++ x)).card := by
  rw [weight_after_cat]
  refine Nat.add_le_add ?_ ?_
  · refine weight_cat_le.trans ?_
    split
    · exact Nat.le_refl _
    · exact Nat.zero_le _
  · have counted (i : Nat) (_ : i < w.length) (ended : (left.after (w.take i)).isNullable) :
        1 ≤ (left.trees (w.take i)).card := one_le_trees_of_isNullable ended
    refine (sum_cuts_le counted fun i _ => weight_after_le lexeme bound (w.drop i)).trans ?_
    exact Nat.mul_le_mul_left m (sum_le_sum fun x _ => sum_trees_cat_le)

/-- What is left of a repetition weighs no more than so much for each tree. By induction on the
length of what was read. -/
theorem weight_after_rep_le (lexeme : L) (bound : ∀ w : List (Symbol L), (body.after w).weight ≤ m)
    (s : Symbol L) (w : List (Symbol L)) :
    (body.rep.after (s :: w)).weight ≤
      (m + body.rep.weight) * ∑ x ∈ body.endings lexeme, (body.rep.trees (s :: (w ++ x))).card := by
  induction length : w.length using Nat.strong_induction_on generalizing s w with
  | _ n shorter =>
    subst length
    have first : (((body.derivative s.kind).after w).cat body.rep).weight ≤
        (m + body.rep.weight) * ∑ x ∈ body.endings lexeme, (body.trees (s :: (w ++ x))).card := by
      refine weight_cat_le.trans ?_
      split
      · rename_i alive
        have some : 1 ≤ ∑ x ∈ body.endings lexeme, (body.trees (s :: w ++ x)).card :=
          one_le_sum_trees lexeme alive
        refine Nat.le_trans ?_ (Nat.mul_le_mul_left _ some)
        rw [Nat.mul_one]
        exact Nat.add_le_add_right (bound (s :: w)) _
      · exact Nat.zero_le _
    have counted (i : Nat) (_ : i < w.length)
        (ended : ((body.derivative s.kind).after (w.take i)).isNullable) :
        1 ≤ (body.trees (s :: w.take i)).card :=
        one_le_trees_of_isNullable (w := s :: w.take i) ended
    have later (i : Nat) (lt : i < w.length) : (body.rep.after (w.drop i)).weight ≤
        (m + body.rep.weight) *
        ∑ x ∈ body.endings lexeme, (body.rep.trees (w.drop i ++ x)).card := by
      rw [List.drop_eq_getElem_cons lt]
      refine shorter _ ?_ _ _ rfl
      rw [List.length_drop]
      omega
    have parts : (body.rep.after (s :: w)).weight = _ :=
      @weight_after_cat L (body.derivative s.kind) body.rep w
    rw [parts]
    refine (Nat.add_le_add first (sum_cuts_le counted later)).trans ?_
    rw [← Nat.mul_add, ← sum_add_distrib]
    exact Nat.mul_le_mul_left _ (sum_le_sum fun x _ => sum_trees_rep_le)

omit [DecidableEq L] in
theorem weight_after_epsilon : (Language.epsilon.after w).weight ≤ 2 := by
  cases w with
  | nil => exact Nat.le_refl _
  | cons s w =>
    have left : Language.epsilon.after (s :: w) = Language.nothing := after_nothing
    rw [left]
    exact Nat.zero_le _

/-- Where no word has more than so many trees, the endings lead to no more than so many. -/
theorem sum_endings_le (few : ∀ w : List (Symbol L), w ≠ [] → (lang.trees w).card ≤ k)
    (X : Finset (List (Symbol L))) (some : w ≠ []) :
    ∑ x ∈ X, (lang.trees (w ++ x)).card ≤ X.card * k :=
  sum_le_card_nsmul X
    _ k fun x _ => few (w ++ x) fun none => some (List.append_eq_nil_iff.mp none).1

/-- Where no word has more than so many trees, what is left does not grow. By induction on the
language. -/
theorem exists_weight_bound (lexeme : L)
    (few : ∀ w : List (Symbol L), w ≠ [] → (lang.trees w).card ≤ k) :
    ∃ m, ∀ w : List (Symbol L), (lang.after w).weight ≤ m := by
  induction lang with
  | epsilon => exact ⟨2, fun w => weight_after_epsilon⟩
  | token kind =>
    refine ⟨2, fun w => ?_⟩
    cases w with
    | nil =>
      show (Language.token kind).weight ≤ 2
      unfold Language.weight
      split <;> simp [Language.pruned, Language.size]
    | cons s w =>
      show (((Language.token kind).derivative s.kind).after w).weight ≤ 2
      rw [Language.derivative_token]
      split
      · exact weight_after_epsilon
      · rw [after_nothing]
        exact Nat.zero_le _
  | alt left right ihl ihr =>
    obtain ⟨m, hm⟩ := ihl fun w some => (card_le_card subset_union_left).trans (few w some)
    obtain ⟨n, hn⟩ := ihr fun w some => (card_le_card subset_union_right).trans (few w some)
    refine ⟨m + n, fun w => ?_⟩
    rw [after_alt, weight_alt]
    exact Nat.add_le_add (hm w) (hn w)
  | cat left right ihl ihr =>
    by_cases alive : (left.cat right).isAlive
    · obtain ⟨l, r⟩ := (Bool.and_eq_true _ _).mp alive
      -- with a word of the other part, each tree of a part makes a tree of its own
      have fewLeft (w : List (Symbol L)) (some : w ≠ []) : (left.trees w).card ≤ k :=
        (Nat.le_mul_of_pos_right _ (card_pos.mpr (trees_sample lexeme r))).trans
          ((mul_trees_cat_le w _).trans (few _ (by simp [some])))
      have fewRight (w : List (Symbol L)) (some : w ≠ []) : (right.trees w).card ≤ k :=
        (Nat.le_mul_of_pos_left _ (card_pos.mpr (trees_sample lexeme l))).trans
          ((mul_trees_cat_le _ w).trans (few _ (by simp [some])))
      obtain ⟨m, hm⟩ := ihl fewLeft
      obtain ⟨n, hn⟩ := ihr fewRight
      refine ⟨(left.cat right).weight +
        (m + right.weight + n * ((right.endings lexeme).card * k)), fun w => ?_⟩
      cases w with
      | nil => exact Nat.le_add_right _ _
      | cons s w =>
        have le := @weight_after_cat_le L _ left right n lexeme hn (s :: w)
        have all :=
          Nat.mul_le_mul_left n (sum_endings_le few (right.endings lexeme) (List.cons_ne_nil s w))
        have := hm (s :: w)
        omega
    · exact ⟨0, fun w => (weight_of_not_isAlive (not_isAlive_after alive)).le⟩
  | rep body ih =>
    have fewBody (w : List (Symbol L)) (some : w ≠ []) : (body.trees w).card ≤ k := by
      obtain ⟨s, w, rfl⟩ := List.exists_cons_of_ne_nil some
      exact (Nat.le_add_right _ _).trans ((sum_trees_rep_le (w := []) (x := w)).trans (few _ some))
    obtain ⟨m, hm⟩ := ih fewBody
    refine ⟨body.rep.weight + (m + body.rep.weight) * ((body.endings lexeme).card * k), fun w => ?_⟩
    cases w with
    | nil => exact Nat.le_add_right _ _
    | cons s w =>
      have le := weight_after_rep_le lexeme hm s w
      have all := Nat.mul_le_mul_left (m + body.rep.weight)
        (sum_endings_le few (body.endings lexeme) (List.cons_ne_nil s w))
      exact le.trans (all.trans (Nat.le_add_left _ _))
  | rule =>
    refine ⟨0, fun w => (weight_of_not_isAlive (not_isAlive_after ?_)).le⟩
    exact Bool.false_ne_true

end Count

end DerivativeParsing
