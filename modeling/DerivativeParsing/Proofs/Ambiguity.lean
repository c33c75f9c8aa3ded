import Mathlib.Algebra.BigOperators.Ring.Finset
import Mathlib.Algebra.Order.BigOperators.Group.Finset
import Mathlib.Data.Finset.NAry
import DerivativeParsing.Language.Yields

/-!
# How many trees a word has

The trees of a word of a language without rules are finitely many, and they can be listed. Where a
sequence is cut, and where an iteration of a repetition ends, can be told from a tree, so the trees
of a sequence can be counted cut by cut.

1. `Language.trees` lists the trees of a word. `yields_of_mem_trees`: they are trees that the
   language yields.
2. `card_trees_cat`, `card_trees_rep_nil`, `card_trees_rep_cons`: how many there are of a sequence
   and of a repetition.
-/

namespace DerivativeParsing

open Finset

variable {L : Type} [DecidableEq L]

/-! ## The trees of a word -/

namespace Language

/-- Trees side by side, for every cut of a word of so many symbols. -/
def joined (before after : Nat → Finset (Tree (Symbol L))) (length : Nat) :
    Finset (Tree (Symbol L)) :=
  (range (length + 1)).biUnion fun i => image₂ Tree.join (before i) (after i)

/-- The trees of a repetition, given those of an iteration. Every iteration consumes something. -/
def iterated (parts : List (Symbol L) → Finset (Tree (Symbol L))) :
    List (Symbol L) → Finset (Tree (Symbol L))
  | [] => {.nil}
  | s :: w => joined (fun i => parts (s :: w.take i)) (fun i => iterated parts (w.drop i)) w.length
termination_by w => w.length
decreasing_by
  simp only [List.length_drop, List.length_cons]
  omega

def single (kind : Kind) : List (Symbol L) → Finset (Tree (Symbol L))
  | [] => if kind = Kind.epsilon then {.nil} else ∅
  | [s] => if kind.isTerminal ∧ s.kind = kind then {.leaf s} else ∅
  | _ :: _ :: _ => ∅

/-- The trees of a word of a language without rules. -/
def trees : Language → List (Symbol L) → Finset (Tree (Symbol L))
  | epsilon, w => if w = [] then {.nil} else ∅
  | token kind, w => single kind w
  | alt left right, w => left.trees w ∪ right.trees w
  | cat left right, w =>
    joined (fun i => left.trees (w.take i)) (fun i => right.trees (w.drop i)) w.length
  | rep body, w => iterated body.trees w
  | rule _, _ => ∅

end Language

section Trees

variable {lang left right body : Language} {w : List (Symbol L)} {s : Symbol L}
  {t : Tree (Symbol L)} {before after : Nat → Finset (Tree (Symbol L))} {length : Nat}
  {parts : List (Symbol L) → Finset (Tree (Symbol L))}

theorem mem_joined : t ∈ Language.joined before after length ↔
    ∃ i ≤ length, ∃ l ∈ before i, ∃ r ∈ after i, l.join r = t := by
  simp only [Language.joined, mem_biUnion, mem_range, mem_image₂, Nat.lt_succ_iff]

/-- Each tree of an iteration with each tree of the others makes a tree. -/
theorem mem_iterated_cons : t ∈ Language.iterated parts (s :: w) ↔
    ∃ i ≤ w.length, ∃ l ∈ parts (s :: w.take i), ∃ r ∈ Language.iterated parts (w.drop i),
      l.join r = t := by
  rw [Language.iterated, mem_joined]

omit [DecidableEq L] in
theorem mem_single {kind : Kind} : t ∈ Language.single kind w ↔
    kind = Kind.epsilon ∧ w = [] ∧ t = .nil ∨
      kind.isTerminal ∧ ∃ s, s.kind = kind ∧ w = [s] ∧ t = .leaf s := by
  rcases w with _ | ⟨s, _ | ⟨s', w⟩⟩
  · by_cases h : kind = Kind.epsilon <;> simp [Language.single, h]
  · by_cases h : kind.isTerminal ∧ s.kind = kind
    · simp [Language.single, h.1, h.2]
    · simp only [Language.single, if_neg h, notMem_empty, false_iff]
      rintro (⟨-, none, -⟩ | ⟨terminal, _, same, one, -⟩)
      · cases none
      · cases one
        exact h ⟨terminal, same⟩
  · simp [Language.single]

/-- The leaves of a tree are the word. By induction on the language; for a repetition, on the length
of the word. -/
theorem leaves_of_mem_trees (member : t ∈ lang.trees w) : t.leaves = w := by
  induction lang generalizing w t with
  | epsilon =>
    simp only [Language.trees] at member
    split at member
    · rename_i none
      rw [none, mem_singleton.mp member]
      rfl
    · exact absurd member (notMem_empty t)
  | token kind =>
    rcases mem_single.mp member with ⟨-, rfl, rfl⟩ | ⟨-, s, -, rfl, rfl⟩ <;> rfl
  | alt left right ihl ihr => exact (mem_union.mp member).elim ihl ihr
  | cat left right ihl ihr =>
    obtain ⟨i, -, l, hl, r, hr, rfl⟩ := mem_joined.mp member
    rw [Tree.leaves_join, ihl hl, ihr hr, List.take_append_drop]
  | rep body ih =>
    induction length : w.length using Nat.strong_induction_on generalizing w t with
    | _ n shorter =>
      rw [Language.trees] at member
      cases w with
      | nil =>
        rw [Language.iterated] at member
        rw [mem_singleton.mp member]
        rfl
      | cons s w =>
        obtain ⟨i, -, l, hl, r, hr, rfl⟩ := mem_iterated_cons.mp member
        have less : (w.drop i).length < n := by
          rw [← length, List.length_drop, List.length_cons]
          omega
        rw [Tree.leaves_join, ih hl, shorter _ less hr rfl, List.cons_append, List.take_append_drop]
  | rule => exact absurd member (notMem_empty t)

/-- The trees are those that the language yields, wherever the word stands. -/
theorem yields_of_mem_trees (rules : List (String × Language)) (prior later : List (Symbol L))
    (member : t ∈ lang.trees w) :
    lang.Yields rules (prior ++ w ++ later) prior.length (prior.length + w.length) t := by
  induction lang generalizing prior later w t with
  | epsilon =>
    simp only [Language.trees] at member
    split at member
    · rename_i none
      rw [none, mem_singleton.mp member]
      exact .epsilon
    · exact absurd member (notMem_empty t)
  | token kind =>
    rcases mem_single.mp member with ⟨rfl, rfl, rfl⟩ | ⟨terminal, s, same, rfl, rfl⟩
    · exact .token_epsilon
    · exact .token terminal (by simp) same
  | alt left right ihl ihr =>
    rcases mem_union.mp member with member | member
    · exact .alt_left (ihl prior later member)
    · exact .alt_right (ihr prior later member)
  | cat left right ihl ihr =>
    obtain ⟨i, le, l, hl, r, hr, rfl⟩ := mem_joined.mp member
    have whole : w.take i ++ (w.drop i ++ later) = w ++ later := by
      rw [← List.append_assoc, List.take_append_drop]
    have first := ihl prior (w.drop i ++ later) hl
    have second := ihr (prior ++ w.take i) later hr
    simp only [List.append_assoc, whole, List.length_append, List.length_take, List.length_drop,
      Nat.min_eq_left le] at first second ⊢
    rw [show prior.length + i + (w.length - i) = prior.length + w.length by omega] at second
    exact .cat first second
  | rep body ih =>
    induction length : w.length using Nat.strong_induction_on generalizing w t prior with
    | _ n shorter =>
      rw [Language.trees] at member
      cases w with
      | nil =>
        rw [Language.iterated] at member
        rw [mem_singleton.mp member, ← length]
        exact .rep_nil
      | cons s w =>
        obtain ⟨i, le, l, hl, r, hr, rfl⟩ := mem_iterated_cons.mp member
        have whole : w.take i ++ (w.drop i ++ later) = w ++ later := by
          rw [← List.append_assoc, List.take_append_drop]
        have first := ih prior (w.drop i ++ later) hl
        have less : (w.drop i).length < n := by
          rw [← length, List.length_drop, List.length_cons]
          omega
        have second := shorter _ less (prior ++ s :: w.take i) hr rfl
        simp only [List.append_assoc, List.cons_append, whole, List.length_append, List.length_cons,
          List.length_take, List.length_drop, Nat.min_eq_left le] at first second length ⊢
        rw [show prior.length + (i + 1) + (w.length - i) = prior.length + n by omega] at second
        exact .rep_cons (by omega) first second
  | rule => exact absurd member (notMem_empty t)

/-! ## How many there are -/

/-- Where the cut can be told from the left part, every cut has trees of its own. -/
theorem card_joined (cut : ∀ i ≤ length, ∀ j ≤ length, ∀ t, t ∈ before i → t ∈ before j → i = j) :
    (Language.joined before after length).card =
      ∑ i ∈ range (length + 1), (before i).card * (after i).card := by
  unfold Language.joined
  rw [card_biUnion]
  · refine sum_congr rfl fun i _ => card_image₂ (fun s s' t t' same => ?_) _ _
    exact Tree.join_inj.mp same
  · intro i hi j hj ne
    simp only [Function.onFun, Finset.disjoint_left, mem_image₂]
    rintro _ ⟨l, hl, r, -, rfl⟩ ⟨l', hl', r', -, same⟩
    obtain ⟨rfl, -⟩ := Tree.join_inj.mp same
    refine ne (cut i ?_ j ?_ l' hl hl')
    · exact Nat.lt_succ_iff.mp (mem_range.mp hi)
    · exact Nat.lt_succ_iff.mp (mem_range.mp hj)

omit [DecidableEq L] in
theorem take_inj {i j : Nat} (hi : i ≤ w.length) (hj : j ≤ w.length) (same : w.take i = w.take j) :
    i = j := by
  have := congrArg List.length same
  simpa [hi, hj] using this

theorem card_trees_cat (left right : Language) (w : List (Symbol L)) :
    ((left.cat right).trees w).card =
      ∑ i ∈ range (w.length + 1), (left.trees (w.take i)).card * (right.trees (w.drop i)).card := by
  refine card_joined fun i hi j hj t ht ht' => take_inj hi hj ?_
  rw [← leaves_of_mem_trees ht, leaves_of_mem_trees ht']

theorem card_trees_rep_nil (body : Language) :
    ((body.rep).trees ([] : List (Symbol L))).card = 1 := by
  rw [Language.trees, Language.iterated, card_singleton]

theorem card_trees_rep_cons (body : Language) (s : Symbol L) (w : List (Symbol L)) :
    (body.rep.trees (s :: w)).card =
      ∑ i ∈ range (w.length + 1),
        (body.trees (s :: w.take i)).card * (body.rep.trees (w.drop i)).card := by
  rw [Language.trees, Language.iterated]
  refine card_joined fun i hi j hj t ht ht' => take_inj hi hj ?_
  have same : s :: w.take i = s :: w.take j := by
    rw [← leaves_of_mem_trees ht, leaves_of_mem_trees ht']
  exact (List.cons.inj same).2

end Trees

end DerivativeParsing
