import DerivativeParsing.Grammar.Traversal

/-!
# The text of a node

A node is described with everything below it. A nonterminal is described with its body the first
time it comes up and by its name and slot afterwards, so a cyclic graph has a finite description.
Nothing is evaluated: a thunk that has been is described as what it resolved to, and one that has
not as the derivative it stands for.

`Grammar.describe` makes the description, `Description.text` writes it, `Grammar.display` does both.
-/

namespace DerivativeParsing

/-- What is said of a node and everything below it. -/
inductive Description (L : Type)
  | empty
  | token (kind : Kind)
  | matched (symbol : Symbol L)
  | undefined (name : String)
  | alt (left right : Description L)
  | cat (left right : Description L)
  | rep (body : Description L)
  /-- A nonterminal that comes up for the first time. -/
  | opened (name : String) (id : NodeId) (body : Description L)
  /-- A nonterminal that has come up before. -/
  | again (name : String) (id : NodeId)
  /-- A derivative that has not been taken. -/
  | delayed (kind : Kind) (base : Description L)
  deriving DecidableEq, Repr

namespace Description

variable {L : Type}

/-- The nonterminals of a description in the order of its text, each with whether its body
follows. -/
def nonterminals : Description L → List (NodeId × Bool)
  | alt left right | cat left right => left.nonterminals ++ right.nonterminals
  | rep body | delayed _ body => body.nonterminals
  | opened _ id body => (id, true) :: body.nonterminals
  | again _ id => [(id, false)]
  | empty | token _ | matched _ | undefined _ => []

def text [Lexeme L] : Description L → String
  | empty => "∅"
  | token kind => if kind = Kind.epsilon then "ε" else "(tok " ++ toString kind ++ ")"
  | matched symbol => "(eps " ++ toString symbol.kind ++ " " ++ Lexeme.quoted symbol.lexeme ++ ")"
  | undefined name => "(undefined " ++ name ++ ")"
  | alt left right => "(" ++ left.text ++ " | " ++ right.text ++ ")"
  | cat left right => "(" ++ left.text ++ " " ++ right.text ++ ")"
  | rep body => "(* " ++ body.text ++ ")"
  | opened name id body => "[" ++ name ++ "#" ++ toString id ++ ": " ++ body.text ++ "]"
  | again name id => name ++ "#" ++ toString id
  | delayed kind base => "(D" ++ toString kind ++ " " ++ base.text ++ ")"

end Description

/-- Describing a graph, with the nonterminals that have come up already. -/
abbrev Describing := StateT (Std.TreeSet NodeId) (Except Error)

namespace Grammar

variable {L : Type}

/-- Describes a node. The first number bounds how deep the calls may nest. -/
def describeNode (g : Grammar L) : Nat → NodeId → Describing (Description L)
  | 0, _ => throw .outOfFuel
  | fuel + 1, id => do
    match ← liftM (g.lookup id) with
    | .empty => return .empty
    | .token kind => return .token kind
    | .matched symbol => return .matched symbol
    | .undefined name => return .undefined name
    | .alt left right =>
      let l ← describeNode g fuel left
      let r ← describeNode g fuel right
      return .alt l r
    | .cat left right =>
      let l ← describeNode g fuel left
      let r ← describeNode g fuel right
      return .cat l r
    | .rep body =>
      let b ← describeNode g fuel body
      return .rep b
    | .rule r body =>
      if (← get).contains id then return .again r.name id
      else
        modify fun met => met.insert id
        let b ← describeNode g fuel body
        return .opened r.name id b
    | .thunk t base =>
      match t.state with
      | .forced target => describeNode g fuel target
      | .culled (some target) => describeNode g fuel target
      | .culled none => return .empty
      | .pending | .running =>
        let b ← describeNode g fuel base
        return .delayed t.symbol.kind b

/-- The description of a node. On the way down every nonterminal is opened once, and between two of
them no node comes up twice unless a cycle avoids all nonterminals; so with `count` nodes below the
start the calls nest no deeper than `(count + 1) * count + 1`. -/
def describe (g : Grammar L) (start : NodeId) : Except Error (Description L) := do
  let count ← g.reachable start
  (g.describeNode ((count + 1) * (count + 1)) start).run' {}

def display [Lexeme L] (g : Grammar L) (start : NodeId) : Except Error String :=
  (g.describe start).map Description.text

end Grammar

end DerivativeParsing
