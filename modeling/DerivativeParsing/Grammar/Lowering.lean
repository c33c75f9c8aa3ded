import DerivativeParsing.Grammar.Traversal
import DerivativeParsing.Language

/-!
# From languages to graphs

A language becomes a graph from the leaves up, left part first. A list of rules becomes one graph in
which every rule is a nonterminal: all of them are declared before any gets its body, so a body can
refer to any rule, its own included.

`Grammar.ofRules` fails if a name is given twice, else if a body refers to a rule that is not in the
list, else if the start is not in the list.
-/

namespace DerivativeParsing

/-- The nonterminals of a list of rules, by name. -/
abbrev Names := List (String × NodeId)

namespace Grammar

variable {L : Type}

def resolve (names : Names) (name : String) : Eval L NodeId :=
  match names.lookup name with
  | some id => pure id
  | none => throw (.unknownRule name)

def lower (names : Names) : Language → Eval L NodeId
  | .epsilon => epsilon
  | .token kind => token kind
  | .alt left right => do
    let l ← lower names left
    let r ← lower names right
    alt l r
  | .cat left right => do
    let l ← lower names left
    let r ← lower names right
    cat l r
  | .rep body => do
    let b ← lower names body
    rep b
  | .rule name => resolve names name

/-- Declares a nonterminal for each name, in order, and adds them to `names`. -/
def declareAll (names : Names) : List String → Eval L Names
  | [] => pure names
  | name :: rest => do
    if (names.lookup name).isSome then throw (.duplicateRule name)
    else
      let id ← declare name
      declareAll ((name, id) :: names) rest

/-- Gives each declared nonterminal its body, in order. -/
def defineAll (names : Names) : List (String × Language) → Eval L Unit
  | [] => pure ()
  | (name, lang) :: rest => do
    let body ← lower names lang
    let target ← resolve names name
    define target body
    defineAll names rest

/-- Adds the graph of a list of rules and answers the node of the start. -/
def lowerRules (rules : List (String × Language)) (start : String) : Eval L NodeId := do
  let names ← declareAll [] (rules.map Prod.fst)
  defineAll names rules
  let root ← resolve names start
  liftM ((← get).validate root)
  return root

/-- The grammar of a language without rules, and its start. -/
def ofLanguage (lang : Language) : Except Error (NodeId × Grammar L) :=
  (lower [] lang).run initial

/-- The grammar of a list of rules, and the node of the start. -/
def ofRules (rules : List (String × Language)) (start : String) :
    Except Error (NodeId × Grammar L) :=
  (lowerRules rules start).run initial

end Grammar

end DerivativeParsing
