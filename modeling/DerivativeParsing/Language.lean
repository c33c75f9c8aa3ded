import DerivativeParsing.Symbol

/-!
# Languages as values

A language is written down before it becomes a graph: the empty word, a token, a choice, a
sequence, a repetition, or a rule referred to by its name. `Language.text` prints one: a choice
lists its alternatives along the right spine, a sequence juxtaposes its parts.
-/

namespace DerivativeParsing

/-- A language over kinds, possibly naming rules that are given elsewhere. -/
inductive Language
  | epsilon
  | token (kind : Kind)
  | alt (left right : Language)
  | cat (left right : Language)
  | rep (body : Language)
  | rule (name : String)
  deriving DecidableEq, Repr

namespace Language

/-- The language of one token; the token of the empty word is the language `epsilon`. -/
def tok (kind : Kind) : Language :=
  if kind = Kind.epsilon then epsilon else token kind

/-- Writes a language. Inside a choice (`inChoice`) a further choice on the right adds its
alternatives to the same list instead of opening a list of its own. -/
def write (inChoice : Bool) : Language → String
  | epsilon => "ε"
  | token kind => "<" ++ toString kind ++ ">"
  | alt left right =>
    let alternatives := write false left ++ "|" ++ write true right
    if inChoice then alternatives else "(" ++ alternatives ++ ")"
  | cat left right => write false left ++ write false right
  | rep body => "(" ++ write false body ++ ")*"
  | rule name => name

def text (lang : Language) : String := write false lang

/-- A sequence of languages, nested to the right; `epsilon` when there is none. -/
def cats : List Language → Language
  | [] => epsilon
  | [x] => x
  | x :: xs => cat x (cats xs)

/-- A choice of languages, nested to the right; the empty language when there is none. -/
def alts : List Language → Language
  | [] => token Kind.void
  | [x] => x
  | x :: xs => alt x (alts xs)

end Language

end DerivativeParsing
