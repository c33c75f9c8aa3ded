/-!
# Parse trees

A parse tree is binary: nothing at all, one leaf, or two trees side by side. `nil` stands for a
stretch of input that matched without consuming anything, and `Tree.join` keeps such stretches
from piling up: two of them side by side are one.
-/

namespace DerivativeParsing

/-- A binary tree with data at the leaves. -/
inductive Tree (α : Type)
  | nil
  | leaf (value : α)
  | pair (left right : Tree α)
  deriving DecidableEq, Repr

namespace Tree

variable {α β : Type}

/-- Two trees side by side; two empty trees make an empty one. -/
def join : Tree α → Tree α → Tree α
  | nil, nil => nil
  | left, right => pair left right

def joinAll : List (Tree α) → Tree α
  | [] => nil
  | [t] => t
  | t :: ts => join t (joinAll ts)

def isNil : Tree α → Bool
  | nil => true
  | _ => false

def isPair : Tree α → Bool
  | pair _ _ => true
  | _ => false

def left? : Tree α → Option (Tree α)
  | pair left _ => some left
  | _ => none

def right? : Tree α → Option (Tree α)
  | pair _ right => some right
  | _ => none

def leaves : Tree α → List α
  | nil => []
  | leaf value => [value]
  | pair left right => left.leaves ++ right.leaves

/-- The same tree with other data at its leaves. -/
def map (f : α → β) : Tree α → Tree β
  | nil => nil
  | leaf value => leaf (f value)
  | pair left right => pair (left.map f) (right.map f)

/-- The tree in dotted notation, `()` for the empty tree. -/
def text (f : α → String) : Tree α → String
  | nil => "()"
  | leaf value => f value
  | pair left right => "(" ++ left.text f ++ " . " ++ right.text f ++ ")"

@[simp] theorem leaves_join (s t : Tree α) : (join s t).leaves = s.leaves ++ t.leaves := by
  cases s <;> cases t <;> rfl

/-- Joining loses nothing: both halves can be read back. -/
theorem join_inj {s t s' t' : Tree α} : join s t = join s' t' ↔ s = s' ∧ t = t' := by
  cases s <;> cases t <;> cases s' <;> cases t' <;> simp [join]

@[simp] theorem join_eq_nil {s t : Tree α} : join s t = nil ↔ s = nil ∧ t = nil := by
  cases s <;> cases t <;> simp [join]

@[simp] theorem isNil_iff {t : Tree α} : t.isNil = true ↔ t = nil := by
  cases t <;> simp [isNil]

end Tree

end DerivativeParsing
