import DerivativeParsing.Text.Quoted

/-!
# Classified input

A lexer hands over symbols: a kind, which alone decides what matches, and a lexeme, which rides
along into the parse trees. Kinds 0 and 1 are reserved for the empty language and the empty word, so
that a grammar can name them as it names a terminal; no input symbol of those kinds is ever matched.
-/

namespace DerivativeParsing

/-- The class of a symbol. -/
abbrev Kind := Nat

namespace Kind

def void : Kind := 0

/-- The kind of the token that matches the empty word. -/
def epsilon : Kind := 1

def isTerminal (c : Kind) : Bool := 2 ≤ c

end Kind

/-- One classified piece of input. -/
structure Symbol (L : Type) where
  kind : Kind
  lexeme : L
  deriving DecidableEq, Repr

/-- How a lexeme is written: as it stands in a tree, and quoted in a diagnostic. -/
class Lexeme (L : Type) where
  text : L → String
  quoted : L → String

instance : Lexeme String := ⟨id, Text.quoted '\x22'⟩

instance : Lexeme Char := ⟨String.singleton, fun c => Text.quoted '\x27' (String.singleton c)⟩

instance : Lexeme UInt32 := ⟨fun n => toString n.toNat, fun n => toString n.toNat⟩

end DerivativeParsing
