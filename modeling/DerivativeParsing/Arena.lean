/-!
# Arenas

An arena is a growing list of slots, each named by its position. A slot may hold the names of other
slots, which is how a graph, cyclic or not, is kept in one flat value.

`Arena.compact` drops the slots that are not marked and slides the others down in their order; it
answers where each slot went. The names held in the slots are left as they were: only the owner of
the arena knows which of its data are names.
-/

namespace DerivativeParsing

/-- The name of a slot: its position. -/
abbrev NodeId := Nat

/-- A list of slots, named by their positions. -/
structure Arena (α : Type) where
  slots : Array α := #[]
  deriving DecidableEq, Repr, Inhabited

/-- A slot with two edges; an edge that is not used is zero. -/
structure Linked (α : Type) where
  left : NodeId := 0
  right : NodeId := 0
  data : α
  deriving DecidableEq, Repr

/-- Where each of the slots flagged in `live` goes when the others are dropped: the `k`-th flagged
slot goes to position `k`. -/
def renumbering (live : List Bool) : Array (Option NodeId) :=
  (live.foldl (fun (places, next) keep =>
    if keep then (places.push (some next), next + 1) else (places.push none, next)) (#[], 0)).1

namespace Arena

variable {α : Type}

def size (a : Arena α) : Nat := a.slots.size

def isEmpty (a : Arena α) : Bool := a.slots.isEmpty

/-- Adds a slot at the end; its name is the size before. -/
def push (a : Arena α) (x : α) : Arena α := { slots := a.slots.push x }

def get? (a : Arena α) (i : NodeId) : Option α := a.slots[i]?

/-- Replaces what a slot holds. Without such a slot nothing changes. -/
def set (a : Arena α) (i : NodeId) (x : α) : Arena α := { slots := a.slots.setIfInBounds i x }

/-- Changes what a slot holds. Without such a slot nothing changes. -/
def modify (a : Arena α) (i : NodeId) (f : α → α) : Arena α := { slots := a.slots.modify i f }

def map {β : Type} (f : α → β) (a : Arena α) : Arena β := { slots := a.slots.map f }

def toList (a : Arena α) : List α := a.slots.toList

def retain (a : Arena α) (live : List Bool) : Arena α :=
  { slots := ((a.slots.toList.zip live).filterMap fun (x, keep) =>
      if keep then some x else none).toArray }

/-- Drops the slots that are not flagged and answers where each slot went. A list of flags that does
not reach the last slot is refused. -/
def compact (a : Arena α) (live : List Bool) : Option (Arena α × Array (Option NodeId)) :=
  if live.length < a.size then none else some (a.retain live, renumbering live)

@[simp] theorem size_push (a : Arena α) (x : α) : (a.push x).size = a.size + 1 := by
  simp [size, push]

@[simp] theorem size_set (a : Arena α) (i : NodeId) (x : α) : (a.set i x).size = a.size := by
  simp [size, set]

@[simp] theorem size_modify (a : Arena α) (i : NodeId) (f : α → α) :
    (a.modify i f).size = a.size := by
  simp [size, modify]

/-- A slot is there exactly when its name is below the size. -/
theorem isSome_get? (a : Arena α) (i : NodeId) : (a.get? i).isSome ↔ i < a.size := by
  simp [get?, size]

/-- Arenas that hold the same in every slot are the same. -/
theorem ext_get? {a b : Arena α} (same : ∀ i, a.get? i = b.get? i) : a = b :=
  congrArg mk (Array.ext_getElem? same)

theorem get?_push (a : Arena α) (x : α) (i : NodeId) :
    (a.push x).get? i = if i = a.size then some x else a.get? i :=
  Array.getElem?_push

theorem get?_set (a : Arena α) (i j : NodeId) (x : α) :
    (a.set i x).get? j = if i = j ∧ i < a.size then some x else a.get? j := by
  simp only [get?, set, size, Array.getElem?_setIfInBounds]
  by_cases h : i = j <;> by_cases hi : i < a.slots.size <;> simp_all

theorem get?_modify (a : Arena α) (i j : NodeId) (f : α → α) :
    (a.modify i f).get? j = if i = j then (a.get? j).map f else a.get? j := by
  simp [get?, modify, Array.getElem?_modify]

end Arena

end DerivativeParsing
