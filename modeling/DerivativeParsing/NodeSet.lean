import DerivativeParsing.Arena
import Std.Data.TreeSet.Lemmas

/-!
# Sets of nodes

A walk over a graph has to remember which nodes it has met. Two kinds of set serve: a search tree,
for a walk that meets few of the nodes of a large arena, and one flag for each slot, for a walk that
may meet them all. `NodeSet` is what the walk needs of either, with the one law that it rests on.
-/

namespace DerivativeParsing

/-- A set of nodes that can grow by one. -/
class NodeSet (σ : Type) where
  contains : σ → NodeId → Bool
  insert : σ → NodeId → σ
  contains_insert (s : σ) (i j : NodeId) : contains (insert s i) j = (i == j || contains s j)

theorem NodeSet.contains_insert_iff {σ : Type} [NodeSet σ] {s : σ} {i j : NodeId} :
    contains (insert s i) j = true ↔ i = j ∨ contains s j = true := by
  rw [contains_insert, Bool.or_eq_true, beq_iff_eq]

instance : NodeSet (Std.TreeSet NodeId) where
  contains s i := s.contains i
  insert s i := s.insert i
  contains_insert s i j := by
    rw [Std.TreeSet.contains_insert, Bool.eq_iff_iff]
    simp

/-- A set of nodes as one flag for each slot; slots past the last flag are not in it. -/
structure Marks where
  flags : Array Bool := #[]

namespace Marks

/-- No slot is marked, and there is room for the marks of `size` of them. -/
def none (size : Nat) : Marks := { flags := Array.replicate size false }

def contains (m : Marks) (i : NodeId) : Bool := m.flags.getD i false

/-- Marks a slot, with room for the slots before it if there was none. -/
def mark (m : Marks) (i : NodeId) : Marks :=
  if i < m.flags.size then { flags := m.flags.setIfInBounds i true }
  else { flags := (m.flags ++ Array.replicate (i - m.flags.size) false).push true }

@[simp] theorem contains_none (size : Nat) (i : NodeId) : (none size).contains i = false := by
  by_cases h : i < size <;> simp [none, contains, Array.getD, h]

theorem contains_mark (m : Marks) (i j : NodeId) :
    (m.mark i).contains j = (i == j || m.contains j) := by
  by_cases hi : i < m.flags.size
  · by_cases h : i = j
    · subst h
      simp [contains, mark, hi]
    · simp [contains, mark, hi, h, Array.getD_eq_getD_getElem?]
  · have room : (m.flags ++ Array.replicate (i - m.flags.size) false).size = i := by
      rw [Array.size_append, Array.size_replicate, Nat.add_sub_cancel' (Nat.le_of_not_lt hi)]
    simp only [contains, mark, hi, if_false, Array.getD_eq_getD_getElem?, Array.getElem?_push, room]
    by_cases h : j = i
    · simp [h]
    · rw [if_neg h, beq_false_of_ne (Ne.symm h), Array.getElem?_append, Array.getElem?_replicate]
      by_cases hj : j < m.flags.size
      · simp [hj]
      · simp only [hj, if_false, Array.getElem?_eq_none (Nat.le_of_not_lt hj)]
        split <;> simp

instance : NodeSet Marks := ⟨contains, mark, contains_mark⟩

end Marks

end DerivativeParsing
