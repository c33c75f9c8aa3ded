import DerivativeParsing.Error
import DerivativeParsing.Grammar.Journal
import DerivativeParsing.Grammar.Memo

/-!
# Grammars

A grammar is a graph of nodes in one arena, together with what evaluation has learned about it.
Nodes are named by their slots, so a nonterminal can refer to itself and nothing owns anything. Slot
0 holds the one node that matches nothing.

Operations on a grammar are actions of the monad `Eval`: they answer a value and the grammar after,
or an error. This module has the actions that build a graph.
-/

namespace DerivativeParsing

/-- Counters of what evaluation did. -/
structure Stats where
  /-- Combinator derivatives that were computed and not remembered. -/
  derived : Nat := 0
  /-- Thunks that were evaluated. -/
  forced : Nat := 0
  /-- Nodes that culling found dead. -/
  pruned : Nat := 0
  /-- Slots that collection reclaimed. -/
  collected : Nat := 0
  deriving DecidableEq, Repr

def Stats.text (stats : Stats) : String :=
  "Stats \x7b derived: " ++ toString stats.derived ++ ", forced: " ++ toString stats.forced ++
    ", pruned: " ++ toString stats.pruned ++ ", collected: " ++ toString stats.collected ++ " \x7d"

/-- A graph of nodes and the state of its evaluation. -/
structure Grammar (L : Type) where
  arena : Arena (Node L)
  /-- Derivatives known in this pass. -/
  memo : Memo L := {}
  /-- Raised when a nullability answer came from a nonterminal that is still in progress. A
  derivative that was computed under such an answer is not remembered. -/
  provisional : Bool := false
  stats : Stats := {}
  /-- What evaluation did, oldest first. -/
  journal : Array Event := #[]

/-- An action on a grammar. -/
abbrev Eval (L : Type) := StateT (Grammar L) (Except Error)

namespace Grammar

variable {L : Type}

def nothing : NodeId := 0

/-- The grammar that holds only the node that matches nothing. -/
def initial : Grammar L := { arena := Arena.push {} .empty }

instance : Inhabited (Grammar L) := ⟨initial⟩

def size (g : Grammar L) : Nat := g.arena.size

/-- The name of the nonterminal in a slot, with a body or without. -/
def name? (g : Grammar L) (id : NodeId) : Option String :=
  (g.arena.get? id).bind Node.name?

def lookup (g : Grammar L) (id : NodeId) : Except Error (Node L) :=
  match g.arena.get? id with
  | some node => .ok node
  | none => .error (.outOfRange id)

/-- The same grammar with nothing in its journal. -/
def clearJournal (g : Grammar L) : Grammar L := { g with journal := #[] }

/-! ## Primitive actions -/

def fetch (id : NodeId) : Eval L (Node L) := fun g =>
  match g.lookup id with
  | .ok node => .ok (node, g)
  | .error e => .error e

/-- Puts a node into a new slot. -/
def alloc (node : Node L) : Eval L NodeId := fun g =>
  .ok (g.arena.size, { g with arena := g.arena.push node })

def store (id : NodeId) (node : Node L) : Eval L Unit :=
  modify fun g => { g with arena := g.arena.set id node }

def revise (id : NodeId) (f : Node L → Node L) : Eval L Unit :=
  modify fun g => { g with arena := g.arena.modify id f }

def note (event : Event) : Eval L Unit :=
  modify fun g => { g with journal := g.journal.push event }

/-! ## Building a graph -/

def token (kind : Kind) : Eval L NodeId := alloc (.token kind)

def epsilon : Eval L NodeId := token Kind.epsilon

/-- A terminal that has already matched a symbol. -/
def matched (symbol : Symbol L) : Eval L NodeId := alloc (.matched symbol)

def alt (left right : NodeId) : Eval L NodeId := alloc (.alt left right)

def cat (left right : NodeId) : Eval L NodeId := alloc (.cat left right)

/-- A sequence of any length, nested to the right and built from its end. -/
def cats : List NodeId → Eval L NodeId
  | [] => epsilon
  | [node] => pure node
  | node :: nodes => do
    let rest ← cats nodes
    cat node rest

def rep (body : NodeId) : Eval L NodeId := alloc (.rep body)

def rule (name : String) (body : NodeId) : Eval L NodeId := alloc (.rule { name } body)

/-- A nonterminal that can be referred to before it has a body. -/
def declare (name : String) : Eval L NodeId := alloc (.undefined name)

def define (target body : NodeId) : Eval L Unit := do
  match (← get).arena.get? target with
  | some (.undefined name) => store target (.rule { name } body)
  | some (.rule r _) => throw (.redefined r.name)
  | _ => throw (.notANonterminal target)

/-! ## Passes -/

/-- Forgets the derivatives of the last pass; rules keep their own. -/
def forgetDerivatives : Eval L Unit :=
  modify fun g => { g with memo := {} }

end Grammar

end DerivativeParsing
