import DerivativeParsing.Grammar.Basic

/-!
# Derivatives of a grammar graph

The derivative of a node by a symbol is a node that matches the rest of every word that starts with
the symbol. `Grammar.derive` takes it by Brzozowski's rules, and takes as little of it as it can:
the derivative of a nonterminal is a new nonterminal over a thunk, so that a recursive rule has a
recursive derivative, and `Grammar.force` evaluates a thunk at most once. A sequence is derived
according to whether its left part matches the empty word, which `Grammar.nullable` answers: a
nonterminal works this out once and keeps the answer, and a question that reaches a nonterminal
while it is still at work is answered no, provisionally.

The three ask questions of one another, and everything else asks questions of them. An `Evaluator`
answers these questions: one level of evaluation is written over any evaluator, so that another one
can be put in place of `Evaluator.plain` and watch what is asked. There the first argument bounds
how deep the questions may nest.
-/

namespace DerivativeParsing

namespace Grammar

variable {L : Type} [DecidableEq L]

/-! ## Bookkeeping -/

/-- Keeps the derivative of a combinator, unless the answer it rests on is provisional, and counts
it. `outer` is whether the derivative in whose course this one was taken was provisional before. -/
def settle (id : NodeId) (symbol : Symbol L) (next : NodeId) (outer : Bool) (g : Grammar L) :
    Grammar L :=
  { g with
    memo := if g.provisional then g.memo else g.memo.record id symbol next
    provisional := g.provisional || outer
    stats := { g.stats with derived := g.stats.derived + 1 } }

/-- Answers the derivative of a combinator that is already known, or takes it by `compute`. -/
def remembering (id : NodeId) (symbol : Symbol L) (compute : Eval L NodeId) : Eval L NodeId := do
  match (← get).memo.find? id symbol with
  | some next => return next
  | none =>
    let outer := (← get).provisional
    modify fun g => { g with provisional := false }
    let next ← compute
    modify (settle id symbol next outer)
    note (.derived symbol.kind id next)
    return next

/-- The derivative of a token: what it matched, if it is a terminal of the symbol's kind. -/
def deriveToken (kind : Kind) (symbol : Symbol L) : Eval L NodeId :=
  if kind.isTerminal && kind == symbol.kind then matched symbol else pure nothing

/-- The derivative of a nonterminal: the one it remembers, or a new nonterminal of the same name
over a thunk of its body. It is remembered before anything evaluates the thunk, so that the body's
own references to the nonterminal find it. -/
def deriveRule (id : NodeId) (r : Rule) (body : NodeId) (symbol : Symbol L) : Eval L NodeId := do
  match r.remembered? symbol.kind with
  | some next => return next
  | none =>
    let thunk ← alloc (.thunk { symbol } body)
    let next ← alloc (.rule { name := r.name } thunk)
    revise id (.mapRule ({ · with memo := some (symbol.kind, next) }))
    return next

/-- Sets what is known about the nullability of a nonterminal. -/
def setFixpoint (id : NodeId) (fixpoint : Fixpoint) : Eval L Unit :=
  revise id (.mapRule ({ · with fixpoint }))

/-- Sets how far the evaluation of a thunk has come. -/
def setState (id : NodeId) (state : ThunkState) : Eval L Unit :=
  revise id (.setState state)

end Grammar

/-! ## One level of evaluation -/

/-- An answer to each kind of question about a node. -/
structure Evaluator (L : Type) where
  derive : NodeId → Symbol L → Eval L NodeId
  nullable : NodeId → Eval L Bool
  force : NodeId → Eval L NodeId

namespace Evaluator

open Grammar

variable {L : Type} (E : Evaluator L)

/-- The derivative of a combinator, by those of the nodes that it is made of. -/
@[inline] def combine (id : NodeId) (symbol : Symbol L) : Node L → Eval L NodeId
  | .token kind => deriveToken kind symbol
  | .alt left right => do
    let l ← E.derive left symbol
    let r ← E.derive right symbol
    alt l r
  | .cat left right => do
    if ← E.nullable left then
      let l ← E.derive left symbol
      let consumed ← cat l right
      let skipped ← E.derive right symbol
      alt consumed skipped
    else
      let l ← E.derive left symbol
      cat l right
  | .rep body => do
    let d ← E.derive body symbol
    cat d id
  | _ => pure nothing

@[inline] def deriveNode [DecidableEq L] (id : NodeId) (symbol : Symbol L) : Eval L NodeId := do
  match ← fetch id with
  | .empty | .matched _ => return nothing
  | .undefined name =>
    note (.undefinedDerived name)
    return nothing
  | .rule r body => deriveRule id r body symbol
  | .thunk _ _ =>
    let target ← E.force id
    E.derive target symbol
  | node => remembering id symbol (E.combine id symbol node)

@[inline] def nullableNode (id : NodeId) : Eval L Bool := do
  match ← fetch id with
  | .empty | .undefined _ => return false
  | .token kind => return kind == Kind.epsilon
  | .matched _ | .rep _ => return true
  | .alt left right =>
    if ← E.nullable left then return true else E.nullable right
  | .cat left right =>
    if ← E.nullable left then E.nullable right else return false
  | .thunk _ _ =>
    let target ← E.force id
    E.nullable target
  | .rule r body =>
    match r.fixpoint with
    | .done answer => return answer
    | .inProgress =>
      modify fun g => { g with provisional := true }
      return false
    | .unstarted =>
      setFixpoint id .inProgress
      let answer ← E.nullable body
      setFixpoint id (.done answer)
      return answer

/-- The node a thunk stands for; any other node stands for itself. -/
@[inline] def forceNode (id : NodeId) : Eval L NodeId := do
  match ← fetch id with
  | .thunk t base =>
    match t.state with
    | .forced target => return target
    | .culled target => return target.getD nothing
    | .running =>
      note (.reentered id)
      return nothing
    | .pending =>
      setState id .running
      let target ← E.derive base t.symbol
      setState id (.forced target)
      modify fun g => { g with stats := { g.stats with forced := g.stats.forced + 1 } }
      note (.forced id t.symbol.kind base target)
      return target
  | _ => return id

/-- Every question fails. -/
def failing (e : Error) : Evaluator L := ⟨fun _ _ => throw e, fun _ => throw e, fun _ => throw e⟩

end Evaluator

/-! ## Evaluation -/

namespace Grammar

variable {L : Type} [DecidableEq L]

mutual

def derive : Nat → NodeId → Symbol L → Eval L NodeId
  | 0, _, _ => throw .outOfFuel
  | fuel + 1, id, symbol =>
    Evaluator.deriveNode ⟨derive fuel, nullable fuel, force fuel⟩ id symbol

def nullable : Nat → NodeId → Eval L Bool
  | 0, _ => throw .outOfFuel
  | fuel + 1, id => Evaluator.nullableNode ⟨derive fuel, nullable fuel, force fuel⟩ id

/-- The node a thunk stands for; any other node stands for itself. -/
def force : Nat → NodeId → Eval L NodeId
  | 0, _ => throw .outOfFuel
  | fuel + 1, id => Evaluator.forceNode ⟨derive fuel, nullable fuel, force fuel⟩ id

end

end Grammar

/-! ## Evaluators -/

namespace Evaluator

variable {L : Type} [DecidableEq L]

/-- Evaluation as deep as `fuel` allows. -/
def plain (fuel : Nat) : Evaluator L :=
  ⟨Grammar.derive fuel, Grammar.nullable fuel, Grammar.force fuel⟩

end Evaluator

end DerivativeParsing
