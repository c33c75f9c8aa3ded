import DerivativeParsing.Grammar.Derivative
import DerivativeParsing.Grammar.Traversal

/-!
# Culling

Culling replaces a node by what is left of it when the parts that match nothing are cut away: a
choice with one dead side becomes its other side, a sequence with a dead part is dead, and a thunk
that has been evaluated is bypassed for good. A repetition never dies, because it matches the empty
word. Edges are changed in place; nothing is allocated.

`cullBy` says how one node is culled when it is known how the others are, and `cullUnder` how often
they can be visited inside each other.

`Grammar.step` is one full step of recognition: derive, settle the nullability of the result, cull.
-/

namespace DerivativeParsing

/-- An action on a grammar in the course of culling: what became of the nodes that are finished is
kept beside it. -/
abbrev Culling (L : Type) := StateT (Std.TreeMap NodeId (Option NodeId)) (Eval L)

/-- An action on the grammar, taken in the course of culling. -/
def Culling.onGrammar {L α : Type} (act : Eval L α) : Culling L α := liftM act

namespace Grammar

open Culling (onGrammar)

variable {L : Type}

/-- Marks a nonterminal as being culled, or as not any more. -/
def setBusy (id : NodeId) (busy : Bool) : Eval L Unit :=
  revise id (.mapRule ({ · with busy }))

/-- Keeps what became of a node, and counts it if it is dead. -/
def finishCull (id : NodeId) (result : Option NodeId) : Culling L (Option NodeId) := do
  if result.isNone && id != nothing then
    onGrammar (modify fun g => { g with stats := { g.stats with pruned := g.stats.pruned + 1 } })
  modify fun finished => finished.insert id result
  return result

/-- How a node that matches something is culled, when `visit` culls the nodes that it leads to. A
nonterminal that is already being culled stands for itself and is not finished by this. -/
@[inline] def trim (visit : NodeId → Culling L (Option NodeId)) (id : NodeId) :
    Node L → Culling L (Option NodeId)
  | .empty => finishCull id none
  | .token _ | .matched _ | .undefined _ => finishCull id (some id)
  | .alt left right => do
    let l ← visit left
    let r ← visit right
    match l, r with
    | some l, some r =>
      onGrammar (store id (.alt l r))
      finishCull id (some id)
    | some l, none => finishCull id (some l)
    | none, r => finishCull id r
  | .cat left right => do
    match ← visit left with
    | none => finishCull id none
    | some l =>
      match ← visit right with
      | none => finishCull id none
      | some r =>
        onGrammar (store id (.cat l r))
        finishCull id (some id)
  | .rep body => do
    if body != nothing then
      let b ← visit body
      onGrammar (store id (.rep (b.getD nothing)))
    finishCull id (some id)
  | .rule r body => do
    if r.busy then return some id
    else
      onGrammar (setBusy id true)
      let b ← visit body
      onGrammar (setBusy id false)
      match b with
      | none => finishCull id none
      | some b =>
        onGrammar (revise id (.setBody b))
        finishCull id (some id)
  | .thunk t _ => do
    match t.state with
    | .pending | .running => finishCull id (some id)
    | .culled target => finishCull id target
    | .forced target =>
      onGrammar (setState id (.culled (some target)))
      let result ← visit target
      onGrammar (setState id (.culled result))
      finishCull id result

/-- Culls a node, given the set of nodes that match something, when `visit` culls the nodes that it
leads to. -/
@[inline] def cullBy (live : Std.TreeSet NodeId) (visit : NodeId → Culling L (Option NodeId))
    (id : NodeId) : Culling L (Option NodeId) := do
  match (← get)[id]? with
  | some result => return result
  | none =>
    let node ← onGrammar (fetch id)
    if live.contains id then trim visit id node else finishCull id none

/-- Culls a node, given the set of nodes that match something. -/
def cullNode (live : Std.TreeSet NodeId) : Nat → NodeId → Culling L (Option NodeId)
  | 0, _ => throw .outOfFuel
  | fuel + 1, id => cullBy live (cullNode live fuel) id

/-- Culls the graph under a node, and answers what the node became, `none` if it matches nothing,
when `visit` culls a node given the set of those that match something. On the way down every
nonterminal is entered once, and between two of them no node comes up twice unless a cycle avoids
all nonterminals; so with `count` nodes to meet the calls nest no deeper than
`(count + 1) * count + 1`. -/
@[inline] def cullUnder (visit : Std.TreeSet NodeId → Nat → NodeId → Culling L (Option NodeId))
    (id : NodeId) : Eval L (Option NodeId) := do
  let g ← get
  let order ← liftM (g.settledOrder id)
  let count := order.length
  (visit (g.productive order) ((count + 1) * (count + 1)) id).run' {}

/-- Culls the graph under a node, and answers what the node became, `none` if it matches nothing. -/
def cull (id : NodeId) : Eval L (Option NodeId) := cullUnder cullNode id

end Grammar

/-! ## Steps -/

/-- One step of recognition: the derivative of a node, culled on request, and whether the derivative
matches the empty word. -/
def Evaluator.step {L : Type} (E : Evaluator L) (id : NodeId) (symbol : Symbol L) (culling : Bool) :
    Eval L (NodeId × Bool) := do
  Grammar.forgetDerivatives
  let next ← E.derive id symbol
  let accepts ← E.nullable next
  if culling then
    let culled ← Grammar.cull next
    return (culled.getD Grammar.nothing, accepts)
  else
    return (next, accepts)

/-- One step of recognition, by plain evaluation. -/
def Grammar.step {L : Type} [DecidableEq L] (fuel : Nat) (id : NodeId) (symbol : Symbol L)
    (culling : Bool) : Eval L (NodeId × Bool) :=
  (Evaluator.plain fuel).step id symbol culling

end DerivativeParsing
