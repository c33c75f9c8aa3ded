import DerivativeParsing.Grammar.Basic
import DerivativeParsing.Language.Derives

/-!
# What a graph means

Three relations say what the nodes of a graph stand for, without reference to how it is evaluated.

1. `Grammar.Matches`: the words that a node matches. A thunk that has been evaluated matches what
   its resolution matches; one that has not matches what may follow its symbol in a word of its
   base.
2. `Grammar.Productive`: the nodes that match something, thunks that have not been evaluated having
   the benefit of the doubt.
3. `Grammar.Reaches`: the nodes that a node depends on.

Each is the least relation with its clauses, so cycles of the graph add nothing by themselves.
-/

namespace DerivativeParsing

def ThunkState.isWaiting : ThunkState → Bool
  | pending | running => true
  | forced _ | culled _ => false

namespace Grammar

variable {L : Type}

/-- The words that a node matches. -/
inductive Matches (g : Grammar L) : NodeId → Word → Prop
  | epsilon {id : NodeId} :
    g.arena.get? id = some (.token Kind.epsilon) → Matches g id []
  | token {id : NodeId} {kind : Kind} :
    g.arena.get? id = some (.token kind) → kind.isTerminal → Matches g id [kind]
  | matched {id : NodeId} {symbol : Symbol L} :
    g.arena.get? id = some (.matched symbol) → Matches g id []
  | alt_left {id left right : NodeId} {w : Word} :
    g.arena.get? id = some (.alt left right) → Matches g left w → Matches g id w
  | alt_right {id left right : NodeId} {w : Word} :
    g.arena.get? id = some (.alt left right) → Matches g right w → Matches g id w
  | cat {id left right : NodeId} {v w : Word} :
    g.arena.get? id = some (.cat left right) → Matches g left v → Matches g right w →
      Matches g id (v ++ w)
  | rep_nil {id body : NodeId} :
    g.arena.get? id = some (.rep body) → Matches g id []
  | rep_cons {id body : NodeId} {v w : Word} :
    g.arena.get? id = some (.rep body) → Matches g body v → Matches g id w → Matches g id (v ++ w)
  | rule {id body : NodeId} {r : Rule} {w : Word} :
    g.arena.get? id = some (.rule r body) → Matches g body w → Matches g id w
  | resolved {id base target : NodeId} {t : Thunk L} {w : Word} :
    g.arena.get? id = some (.thunk t base) → t.resolved? = some target → Matches g target w →
      Matches g id w
  | waiting {id base : NodeId} {t : Thunk L} {w : Word} :
    g.arena.get? id = some (.thunk t base) → t.state.isWaiting →
      Matches g base (t.symbol.kind :: w) → Matches g id w

/-- The nodes that match something, as far as can be told without evaluating a thunk. -/
inductive Productive (g : Grammar L) : NodeId → Prop
  | token {id : NodeId} {kind : Kind} :
    g.arena.get? id = some (.token kind) → kind ≠ Kind.void → Productive g id
  | matched {id : NodeId} {symbol : Symbol L} :
    g.arena.get? id = some (.matched symbol) → symbol.kind ≠ Kind.void → Productive g id
  | undefined {id : NodeId} {name : String} :
    g.arena.get? id = some (.undefined name) → Productive g id
  | alt_left {id left right : NodeId} :
    g.arena.get? id = some (.alt left right) → Productive g left → Productive g id
  | alt_right {id left right : NodeId} :
    g.arena.get? id = some (.alt left right) → Productive g right → Productive g id
  | cat {id left right : NodeId} :
    g.arena.get? id = some (.cat left right) → Productive g left → Productive g right →
      Productive g id
  | rep {id body : NodeId} :
    g.arena.get? id = some (.rep body) → Productive g id
  | rule {id body : NodeId} {r : Rule} :
    g.arena.get? id = some (.rule r body) → Productive g body → Productive g id
  | resolved {id base target : NodeId} {t : Thunk L} :
    g.arena.get? id = some (.thunk t base) → t.resolved? = some target → Productive g target →
      Productive g id
  | waiting {id base : NodeId} {t : Thunk L} :
    g.arena.get? id = some (.thunk t base) → t.state.isWaiting → Productive g id

/-- The nodes that a node depends on, itself included. -/
inductive Reaches (g : Grammar L) (throughPending : Bool) : NodeId → NodeId → Prop
  | refl (id : NodeId) : Reaches g throughPending id id
  | tail {first id next : NodeId} {node : Node L} :
    Reaches g throughPending first id → g.arena.get? id = some node →
      next ∈ node.successors throughPending → Reaches g throughPending first next

theorem Reaches.trans {g : Grammar L} {throughPending : Bool} {a b c : NodeId}
    (hab : Reaches g throughPending a b) (hbc : Reaches g throughPending b c) :
    Reaches g throughPending a c := by
  induction hbc with
  | refl => exact hab
  | tail _ there member ih => exact ih.tail there member

theorem not_matches_of_empty {g : Grammar L} {id : NodeId} {w : Word}
    (there : g.arena.get? id = some .empty) : ¬g.Matches id w := by
  intro h
  cases h <;> simp_all

end Grammar

end DerivativeParsing
