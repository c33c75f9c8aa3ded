import DerivativeParsing.Grammar.Node
import Std.Data.TreeMap.Lemmas

/-!
# Remembered derivatives

Within one pass over the graph a combinator is derived by a symbol at most once: the result is kept
under the node and the whole symbol, lexeme included, because the lexeme is part of the result.
`Memo.find?_record` says that a memo answers what was recorded last.
-/

namespace DerivativeParsing

/-- Derivatives that are already known. -/
structure Memo (L : Type) where
  table : Std.TreeMap NodeId (List (Symbol L × NodeId)) := {}

namespace Memo

variable {L : Type} [DecidableEq L]

instance : Inhabited (Memo L) := ⟨{}⟩

/-- The derivative of a node by a symbol, if it is known. -/
def find? (memo : Memo L) (id : NodeId) (symbol : Symbol L) : Option NodeId :=
  (memo.table.getD id []).lookup symbol

/-- Makes the derivative of a node by a symbol known. -/
def record (memo : Memo L) (id : NodeId) (symbol : Symbol L) (next : NodeId) : Memo L :=
  { table := memo.table.insert id ((symbol, next) :: memo.table.getD id []) }

@[simp] theorem find?_nil (id : NodeId) (symbol : Symbol L) :
    ({} : Memo L).find? id symbol = none := by
  simp [find?]

theorem find?_record (memo : Memo L) (id id' : NodeId) (symbol symbol' : Symbol L) (next : NodeId) :
    (memo.record id symbol next).find? id' symbol' =
      if id = id' ∧ symbol = symbol' then some next else memo.find? id' symbol' := by
  by_cases h : id = id'
  · subst h
    by_cases hs : symbol' = symbol
    · simp [find?, record, hs]
    · have : (symbol' == symbol) = false := by simpa using hs
      simp [find?, record, List.lookup_cons, this, Ne.symm hs]
  · simp [find?, record, Std.TreeMap.getD_insert, h]

end Memo

end DerivativeParsing
