import DerivativeParsing.Grammar.Traversal

/-!
# Collection

Collection drops every node that none of a list of roots depends on and slides the others down in
their order. Every name in the graph follows its node; a rule forgets a derivative that was dropped.
The node that matches nothing is always kept, so it stays in slot 0.
-/

namespace DerivativeParsing

namespace Grammar

variable {L : Type}

/-- Which slots are kept: that of the node that matches nothing, and those that the roots depend on,
through the bases of unevaluated thunks too. -/
def kept (g : Grammar L) (roots : List NodeId) : Except Error (List Bool) :=
  (g.reach (nothing :: roots)).map fun t => (List.range g.size).map t.seen.contains

/-- The grammar that is left when only the slots flagged in `live` are kept, and where the slots
went. -/
def compact (g : Grammar L) (live : List Bool) : Grammar L × (NodeId → Option NodeId) :=
  let places := renumbering live
  let place := fun id => (places[id]?).join
  let arena := (g.arena.retain live).map (Node.relocate place)
  let collected := g.stats.collected + (g.size - arena.size)
  ({ g with arena, memo := {}, stats := { g.stats with collected } }, place)

/-- Drops every node that none of the roots depends on, and answers the new names of the roots. -/
def collect (roots : List NodeId) : Eval L (List NodeId) := do
  let g ← get
  let live ← liftM (g.kept roots)
  let (after, place) := g.compact live
  set after
  note (.collected (g.size - after.size) g.size)
  return roots.map (movedBy place)

end Grammar

end DerivativeParsing
