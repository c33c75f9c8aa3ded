import DerivativeParsing.Language.Derives
import DerivativeParsing.Tree

/-!
# The trees of a language

`Language.Yields` relates a language and a stretch of an input to the trees of its derivations: a
token has the symbol as a leaf, what consumes nothing has the empty tree, a sequence joins the trees
of its parts, a choice and a name have the tree of what was chosen, and an iteration of a repetition
consumes at least one symbol and joins its tree to the rest.
-/

namespace DerivativeParsing

namespace Language

/-- The trees of a language over a stretch of an input, given a list of rules. -/
inductive Yields {L : Type} (rules : List (String × Language)) (input : List (Symbol L)) :
    Language → Nat → Nat → Tree (Symbol L) → Prop
  | epsilon {i : Nat} : Yields rules input epsilon i i .nil
  | token_epsilon {i : Nat} : Yields rules input (token Kind.epsilon) i i .nil
  | token {i : Nat} {kind : Kind} {symbol : Symbol L} :
    kind.isTerminal → input[i]? = some symbol → symbol.kind = kind →
      Yields rules input (token kind) i (i + 1) (.leaf symbol)
  | alt_left {left right : Language} {i j : Nat} {t : Tree (Symbol L)} :
    Yields rules input left i j t → Yields rules input (alt left right) i j t
  | alt_right {left right : Language} {i j : Nat} {t : Tree (Symbol L)} :
    Yields rules input right i j t → Yields rules input (alt left right) i j t
  | cat {left right : Language} {i j k : Nat} {s t : Tree (Symbol L)} :
    Yields rules input left i j s → Yields rules input right j k t →
      Yields rules input (cat left right) i k (s.join t)
  | rep_nil {body : Language} {i : Nat} : Yields rules input (rep body) i i .nil
  | rep_cons {body : Language} {i j k : Nat} {s t : Tree (Symbol L)} :
    i < j → Yields rules input body i j s → Yields rules input (rep body) j k t →
      Yields rules input (rep body) i k (s.join t)
  | rule {name : String} {lang : Language} {i j : Nat} {t : Tree (Symbol L)} :
    (name, lang) ∈ rules → Yields rules input lang i j t → Yields rules input (rule name) i j t

end Language

end DerivativeParsing
