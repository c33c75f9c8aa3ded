import DerivativeParsing.Symbol
import DerivativeParsing.Arena

/-!
# The journal of an evaluation

Evaluation notes what it does as a list of events. An event has a level, for a reader who wants only
the graver ones, and a text.
-/

namespace DerivativeParsing

/-- How grave an event is. -/
inductive Level
  | warn
  | debug
  | trace
  deriving DecidableEq, Repr

namespace Level

/-- The levels from the gravest on. -/
def rank : Level → Nat
  | warn => 0
  | debug => 1
  | trace => 2

def text : Level → String
  | warn => "WARN"
  | debug => "DEBUG"
  | trace => "TRACE"

end Level

/-- Something that evaluation did. -/
inductive Event
  /-- A nonterminal without a body was derived. -/
  | undefinedDerived (name : String)
  /-- A thunk was asked for while it was being evaluated. -/
  | reentered (thunk : NodeId)
  /-- A combinator was derived. -/
  | derived (kind : Kind) (node next : NodeId)
  /-- A thunk was evaluated. -/
  | forced (thunk : NodeId) (kind : Kind) (base next : NodeId)
  /-- The trees of a node over a stretch of the input were found. -/
  | extracted (node : NodeId) (start stop count : Nat)
  /-- A recognizer consumed a symbol. -/
  | stepped (count : Nat) (kind : Kind) (node : NodeId) (size : Nat) (nullable : Bool)
  /-- Slots were reclaimed. -/
  | collected (dropped size : Nat)
  deriving DecidableEq, Repr

namespace Event

def level : Event → Level
  | undefinedDerived _ | reentered _ => .warn
  | stepped .. | collected .. => .debug
  | derived .. | forced .. | extracted .. => .trace

def message : Event → String
  | undefinedDerived name => "deriving undefined nonterminal \x60" ++ name ++ "\x60"
  | reentered thunk => s!"thunk {thunk} re-entered while being forced"
  | derived kind node next => s!"D[{kind}] {node} -> {next}"
  | forced thunk kind base next => s!"forced {thunk} = D[{kind}] {base} -> {next}"
  | extracted node start stop count => s!"trees {node} [{start}..{stop}]: {count}"
  | stepped count kind node size nullable =>
    s!"step {count}: class {kind} -> node {node} ({size} nodes, nullable: {nullable})"
  | collected dropped size => s!"collected {dropped} of {size} nodes"

def line (event : Event) : String := event.level.text ++ " " ++ event.message

end Event

/-- The lines of the events that are at least as grave as `level`, in order. -/
def journalLines (level : Level) (events : List Event) : List String :=
  (events.filter fun event => event.level.rank ≤ level.rank).map Event.line

end DerivativeParsing
