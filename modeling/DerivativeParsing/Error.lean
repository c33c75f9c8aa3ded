import DerivativeParsing.Arena

/-!
# What can go wrong

The first five causes are mistakes in the description of a grammar. The others are faults of
evaluation: a name without a slot or a period without a step, a position without a symbol, and calls
that nest deeper than the caller allowed. A rejected input is an answer and no error.
-/

namespace DerivativeParsing

/-- Why an operation on a grammar failed. -/
inductive Error
  /-- A nonterminal that was declared but not defined can be reached. -/
  | undefined (name : String)
  /-- A nonterminal is defined a second time. -/
  | redefined (name : String)
  /-- A node that was not declared as a nonterminal is given a body. -/
  | notANonterminal (node : NodeId)
  /-- A reference to a rule that is not in the list. -/
  | unknownRule (name : String)
  /-- A rule list gives one name twice. -/
  | duplicateRule (name : String)
  /-- A number out of its range: the name of no slot, or a period of no steps. -/
  | outOfRange (number : Nat)
  /-- A position beyond the end of the input. -/
  | beyondInput (position : Nat)
  /-- Evaluation needs a deeper recursion than it was allowed. -/
  | outOfFuel
  deriving DecidableEq, Repr

namespace Error

def message : Error → String
  | undefined name => "nonterminal \x60" ++ name ++ "\x60 is reachable but was never defined"
  | redefined name => "nonterminal \x60" ++ name ++ "\x60 is already defined"
  | notANonterminal node => "node " ++ toString node ++ " was not declared as a nonterminal"
  | unknownRule name => "no rule named \x60" ++ name ++ "\x60"
  | duplicateRule name => "rule \x60" ++ name ++ "\x60 appears more than once"
  | outOfRange number => toString number ++ " is out of range"
  | beyondInput position => "position " ++ toString position ++ " is beyond the end of the input"
  | outOfFuel => "evaluation is nested too deeply"

/-- Whether the error is a fault of evaluation, not a mistake in a description. -/
def isFault : Error → Bool
  | outOfRange _ | beyondInput _ | outOfFuel => true
  | _ => false

end Error

end DerivativeParsing
