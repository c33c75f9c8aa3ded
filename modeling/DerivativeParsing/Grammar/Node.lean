import DerivativeParsing.Arena
import DerivativeParsing.Symbol

/-!
# The nodes of a grammar graph

A node is a leaf (nothing, a token, a token that has matched, a nonterminal without a body) or a
combinator that names other nodes of the same arena. A nonterminal carries what evaluation learns
about it; a thunk is a derivative that is taken when it is first needed.
-/

namespace DerivativeParsing

/-- What is known about whether a nonterminal matches the empty word. -/
inductive Fixpoint
  | unstarted
  | inProgress
  | done (nullable : Bool)
  deriving DecidableEq, Repr

/-- What belongs to a nonterminal besides its body. -/
structure Rule where
  name : String
  /-- The kind of the last symbol the rule was derived by, and the result. Input is consumed from
  left to right, so one is enough. -/
  memo : Option (Kind × NodeId) := none
  fixpoint : Fixpoint := .unstarted
  /-- Set while culling is inside the body, so that cycles stop here. -/
  busy : Bool := false
  deriving DecidableEq, Repr

/-- The derivative of the rule by a symbol of a kind, if it is the one that is remembered. -/
def Rule.remembered? (rule : Rule) (kind : Kind) : Option NodeId :=
  rule.memo.bind fun (last, next) => if last = kind then some next else none

/-- How far the evaluation of a thunk has come. -/
inductive ThunkState
  | pending
  | running
  /-- Evaluated, with the node it resolved to. -/
  | forced (target : NodeId)
  /-- Culled after evaluation, with the replacement unless the resolution was dead. -/
  | culled (target : Option NodeId)
  deriving DecidableEq, Repr

/-- A derivative by `symbol` that may not have been taken yet. -/
structure Thunk (L : Type) where
  symbol : Symbol L
  state : ThunkState := .pending
  deriving DecidableEq, Repr

/-- The node a thunk stands for, once it is known and alive. -/
def Thunk.resolved? {L : Type} (thunk : Thunk L) : Option NodeId :=
  match thunk.state with
  | .forced target => some target
  | .culled target => target
  | .pending | .running => none

/-- Where a node is after its arena was renumbered by `place`; the name of a node that was dropped
becomes the name `0`. -/
def movedBy (place : NodeId → Option NodeId) (id : NodeId) : NodeId := (place id).getD 0

/-- A node of a grammar graph. -/
inductive Node (L : Type)
  /-- Matches nothing. -/
  | empty
  /-- Matches one symbol of a kind; the kind `Kind.epsilon` matches the empty word. -/
  | token (kind : Kind)
  /-- A terminal that has already matched `symbol`. -/
  | matched (symbol : Symbol L)
  | alt (left right : NodeId)
  | cat (left right : NodeId)
  | rep (body : NodeId)
  /-- A nonterminal with its body. -/
  | rule (rule : Rule) (body : NodeId)
  /-- A derivative of `base`, taken or not. -/
  | thunk (thunk : Thunk L) (base : NodeId)
  /-- A nonterminal that has been declared but has no body yet. -/
  | undefined (name : String)
  deriving DecidableEq, Repr

namespace Node

variable {L : Type}

instance : Inhabited (Node L) := ⟨empty⟩

/-- The name of a nonterminal, with a body or without. -/
def name? : Node L → Option String
  | rule r _ => some r.name
  | undefined name => some name
  | _ => none

/-- The nodes a node depends on, from left to right. A resolved thunk depends on its resolution; one
that is not depends on its base, which counts only when `throughPending` is set. -/
def successors (throughPending : Bool) : Node L → List NodeId
  | alt left right | cat left right => [left, right]
  | rep body | rule _ body => [body]
  | thunk t base =>
    match t.state with
    | .forced target => [target]
    | .culled target => target.toList
    | .pending | .running => if throughPending then [base] else []
  | empty | token _ | matched _ | undefined _ => []

/-- The same node after its arena was renumbered by `place`. A rule whose remembered derivative was
dropped forgets it. -/
def relocate (place : NodeId → Option NodeId) : Node L → Node L
  | alt left right => alt (movedBy place left) (movedBy place right)
  | cat left right => cat (movedBy place left) (movedBy place right)
  | rep body => rep (movedBy place body)
  | rule r body =>
    let memo := r.memo.bind fun (kind, next) => (place next).map (kind, ·)
    rule { r with memo } (movedBy place body)
  | thunk t base =>
    let state := match t.state with
      | .forced target => .forced (movedBy place target)
      | .culled (some target) => .culled (some (movedBy place target))
      | state => state
    thunk { t with state } (movedBy place base)
  | node => node

/-- Changes what belongs to a nonterminal; other nodes stay as they are. -/
def mapRule (f : Rule → Rule) : Node L → Node L
  | rule r body => rule (f r) body
  | node => node

/-- Gives a nonterminal another body; other nodes stay as they are. -/
def setBody (body : NodeId) : Node L → Node L
  | rule r _ => rule r body
  | node => node

/-- Sets the state of a thunk; other nodes stay as they are. -/
def setState (state : ThunkState) : Node L → Node L
  | thunk t base => thunk { t with state } base
  | node => node

end Node

end DerivativeParsing
