import DerivativeParsing.Proofs.Extension
import Mathlib.Algebra.Order.BigOperators.Group.Finset
import Mathlib.Data.DFinsupp.WellFounded

/-!
# Sums over the nodes of a graph

`Grammar.tally` adds up a quantity over the nodes of a graph. It does not grow when no node's share
grows and new nodes have none.

`Lower n` compares two sequences of numbers by their first `n` entries, as a dictionary compares
words: at the first entry that is not at most as large, it has already been smaller. It is
well-founded.
-/

namespace DerivativeParsing

open scoped BigOperators

namespace Grammar

variable {L : Type}

def tally (g : Grammar L) (f : Nat → Node L → Nat) : Nat :=
  ∑ i ∈ Finset.range g.size, (g.arena.get? i).elim 0 (f i)

variable {g g' : Grammar L} {f f' : Nat → Node L → Nat} {id : Nat} {node : Node L}

theorem tally_congr (same : ∀ i node, g.arena.get? i = some node → f i node = f' i node) :
    g.tally f = g.tally f' := by
  refine Finset.sum_congr rfl fun i _ => ?_
  cases there : g.arena.get? i with
  | none => rfl
  | some node => exact same i node there

/-- The sum over the old nodes of a larger graph in which new nodes have no share. -/
theorem tally_eq_sum_range (size : g.size ≤ g'.size)
    (new : ∀ (i : Nat) node, g.size ≤ i → g'.arena.get? i = some node → f i node = 0) :
    g'.tally f = ∑ i ∈ Finset.range g.size, (g'.arena.get? i).elim 0 (f i) := by
  refine (Finset.sum_subset (Finset.range_mono size) fun i _ old => ?_).symm
  have le : g.size ≤ i := Nat.le_of_not_lt fun lt => old (Finset.mem_range.mpr lt)
  cases there : g'.arena.get? i with
  | none => rfl
  | some node => exact new i node le there

theorem tally_le (size : g.size ≤ g'.size)
    (old : ∀ (i : Nat) node, g.arena.get? i = some node →
      ∃ node', g'.arena.get? i = some node' ∧ f' i node' ≤ f i node)
    (new : ∀ (i : Nat) node, g.size ≤ i → g'.arena.get? i = some node → f' i node = 0) :
    g'.tally f' ≤ g.tally f := by
  rw [tally_eq_sum_range size new]
  refine Finset.sum_le_sum fun i hi => ?_
  obtain ⟨node, there⟩ := exists_get? (Finset.mem_range.mp hi)
  obtain ⟨node', there', le⟩ := old i node there
  rw [there, there']
  exact le

theorem tally_lt (size : g.size ≤ g'.size)
    (old : ∀ (i : Nat) node, g.arena.get? i = some node →
      ∃ node', g'.arena.get? i = some node' ∧ f' i node' ≤ f i node)
    (new : ∀ (i : Nat) node, g.size ≤ i → g'.arena.get? i = some node → f' i node = 0)
    {node' : Node L} (there : g.arena.get? id = some node) (there' : g'.arena.get? id = some node')
    (lt : f' id node' < f id node) : g'.tally f' < g.tally f := by
  rw [tally_eq_sum_range size new]
  refine Finset.sum_lt_sum (fun i hi => ?_) ⟨id, Finset.mem_range.mpr (lt_size_of_get? there), ?_⟩
  · obtain ⟨node₁, there₁⟩ := exists_get? (Finset.mem_range.mp hi)
    obtain ⟨node₂, there₂, le⟩ := old i node₁ there₁
    rw [there₁, there₂]
    exact le
  · rw [there, there']
    exact lt

theorem tally_withNode : (g.withNode node).tally f = g.tally f + f g.size node := by
  unfold tally
  rw [size_withNode, Finset.sum_range_succ, get?_withNode_self]
  refine congrArg (· + _) (Finset.sum_congr rfl fun i hi => ?_)
  rw [get?_withNode_of_lt (Finset.mem_range.mp hi)]

theorem tally_revised {h : Node L → Node L} (there : g.arena.get? id = some node) :
    (g.revised id h).tally f + f id node = g.tally f + f id (h node) := by
  unfold tally
  have hid : id ∈ Finset.range g.size := Finset.mem_range.mpr (lt_size_of_get? there)
  rw [size_revised, ← Finset.add_sum_erase _ _ hid,
    ← Finset.add_sum_erase (Finset.range g.size) _ hid, there, get?_revised, if_pos rfl, there]
  have others : ∑ i ∈ (Finset.range g.size).erase id, ((g.revised id h).arena.get? i).elim 0 (f i) =
      ∑ i ∈ (Finset.range g.size).erase id, (g.arena.get? i).elim 0 (f i) := by
    refine Finset.sum_congr rfl fun i hi => ?_
    rw [get?_revised, if_neg (Ne.symm (Finset.ne_of_mem_erase hi))]
  rw [others]
  show f id (h node) + _ + f id node = f id node + _ + f id (h node)
  omega

end Grammar

/-! ## Comparing sequences -/

/-- The first of two sequences is smaller at one of its first `n` entries, and no larger before. -/
def Lower (n : Nat) (a b : Nat → Nat) : Prop := ∃ i < n, (∀ j < i, a j ≤ b j) ∧ a i < b i

theorem wellFounded_lower (n : Nat) : WellFounded (Lower n) := by
  have lex : WellFounded
      (Pi.Lex (fun i j : Fin n => i < j) (β := fun _ => Nat) (fun {_} a b => a < b)) :=
    Pi.Lex.wellFounded _ fun _ => wellFounded_lt
  refine Subrelation.wf (fun {a b} h => ?_) (InvImage.wf (fun a (i : Fin n) => a i) lex)
  obtain ⟨i, hi, before, less⟩ := h
  -- the first entry at which the sequences differ is smaller
  have differ : ∃ j, a j ≠ b j := ⟨i, Nat.ne_of_lt less⟩
  classical
  have first := Nat.find_spec differ
  have le : Nat.find differ ≤ i := Nat.find_min' differ (Nat.ne_of_lt less)
  refine ⟨⟨Nat.find differ, by omega⟩, fun j hj => ?_, ?_⟩
  · exact not_not.mp (Nat.find_min differ hj)
  · show a (Nat.find differ) < b (Nat.find differ)
    rcases Nat.eq_or_lt_of_le le with same | lt
    · rw [same]
      exact less
    · exact Nat.lt_of_le_of_ne (before _ lt) first

end DerivativeParsing
