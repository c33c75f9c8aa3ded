import DerivativeParsing.Forest
import DerivativeParsing.Grammar.Cull

/-!
# Reading the forest back

The graph of derivatives forgets what it consumed. So trees are read off a graph that still
describes the whole input, one span of the input at a time: a node, and the stretch that it is asked
to cover.

1. `ends` answers where a match of a node can end that starts at a given position, by deriving the
   node by the rest of the input until it is dead.
2. `trees` answers the trees of a span. A choice has the trees of both sides, a sequence has a pair
   for each split of the stretch, a repetition is a sequence of an item that consumes something and
   the repetition again.
3. A span that comes up again inside itself, through a cycle of the graph, has no trees there; what
   was computed above such a cut is not kept, because elsewhere the span may have them.

No trees means that there is no match. A match that consumed nothing has the empty tree.

Reading a span is written over an `Evaluator`, and with what it does at the spans below and at each
split of a stretch as parameters: other ways of reading differ in these only.
-/

namespace DerivativeParsing

/-- A node and the stretch of input that it is asked to cover. -/
structure Span where
  node : NodeId
  start : Nat
  stop : Nat
  deriving DecidableEq, Repr

/-- The order of spans by node, then start, then stop. -/
def Span.order : Span → Span → Ordering :=
  compareLex (compareOn Span.node) (compareLex (compareOn Span.start) (compareOn Span.stop))

instance : Std.TransCmp Span.order :=
  inferInstanceAs (Std.TransCmp (compareLex _ (compareLex _ _)))

instance : Std.LawfulEqCmp Span.order where
  eq_of_compare {a b} h := by
    obtain ⟨_, _, _⟩ := a
    obtain ⟨_, _, _⟩ := b
    simp only [Span.order, compareLex_eq_eq, compareOn, Std.LawfulEqOrd.compare_eq_iff_eq] at h
    simp [h]

/-- A node and the position where its matches start. -/
structure Site where
  node : NodeId
  start : Nat
  deriving DecidableEq, Repr

def Site.order : Site → Site → Ordering :=
  compareLex (compareOn Site.node) (compareOn Site.start)

instance : Std.TransCmp Site.order :=
  inferInstanceAs (Std.TransCmp (compareLex _ _))

instance : Std.LawfulEqCmp Site.order where
  eq_of_compare {a b} h := by
    obtain ⟨_, _⟩ := a
    obtain ⟨_, _⟩ := b
    simp only [Site.order, compareLex_eq_eq, compareOn, Std.LawfulEqOrd.compare_eq_iff_eq] at h
    simp [h]

/-- What an extraction knows already. -/
structure Extracted (L : Type) where
  /-- Where the matches that start at a site end, ascending. -/
  ends : Std.TreeMap Site (List Nat) Site.order := {}
  /-- The trees of a span. -/
  trees : Std.TreeMap Span (Forest (Symbol L)) Span.order := {}
  /-- Raised when a span came up inside itself. -/
  cut : Bool := false

/-- An action on a grammar in the course of an extraction. -/
abbrev Extraction (L : Type) := StateT (Extracted L) (Eval L)

/-- An action on the grammar, taken in the course of an extraction. -/
def Extraction.onGrammar {L α : Type} (act : Eval L α) : Extraction L α := liftM act

/-! ## Where matches end -/

namespace Evaluator

open Extraction (onGrammar)

variable {L : Type} (E : Evaluator L) (input : List (Symbol L))

/-- Derives a node by symbols, culling, until it is dead, and answers the positions after which it
matched. The first symbol is at position `position`. -/
def replay (id : NodeId) (position : Nat) : List (Symbol L) → Eval L (List Nat)
  | [] => pure []
  | symbol :: rest => do
    let (next, accepts) ← E.step id symbol true
    let later ← if next = Grammar.nothing then pure [] else replay next (position + 1) rest
    return if accepts then (position + 1) :: later else later

/-- Where the matches of a node that start at a position end, found by derivatives. -/
def searchEnds (id : NodeId) (start : Nat) : Eval L (List Nat) := do
  let here ← E.nullable id
  let later ← E.replay id start (input.drop start)
  return if here then start :: later else later

/-- Where the matches of a node that start at a position end. Leaves need no derivatives. -/
def findEnds (id : NodeId) (start : Nat) : Eval L (List Nat) := do
  match ← Grammar.fetch id with
  | .empty | .undefined _ => return []
  | .matched _ => return [start]
  | .token kind =>
    if kind = Kind.epsilon then return [start]
    else
      match input[start]? with
      | some symbol => return if kind.isTerminal && symbol.kind == kind then [start + 1] else []
      | none => return []
  | _ => E.searchEnds input id start

/-- Where the matches of a node that start at a position end; found once. -/
def ends (id : NodeId) (start : Nat) : Extraction L (List Nat) := do
  match (← get).ends[(⟨id, start⟩ : Site)]? with
  | some known => return known
  | none =>
    let found ← onGrammar (E.findEnds input id start)
    modify fun known => { known with ends := known.ends.insert ⟨id, start⟩ found }
    return found

/-! ## The trees of a span -/

variable [DecidableEq L]

/-- Takes in the split of a stretch at `middle` into a match of `left` and a match of `right`, given
the trees of smaller spans. With `consume`, the left part has to consume something. The right part
goes first; without trees there, the left part is not asked. -/
@[inline] def takeSplit {α : Type} (join : α → Forest (Symbol L) → Forest (Symbol L) → α)
    (trees : Span → Extraction L (Forest (Symbol L))) (left right : NodeId) (start stop : Nat)
    (consume : Bool) (found : α) (middle : Nat) : Extraction L α := do
  if stop < middle || (consume && middle == start) then return found
  else
    let r ← trees ⟨right, middle, stop⟩
    if r.isEmpty then return found
    else
      let l ← trees ⟨left, start, middle⟩
      return join found l r

/-- Takes in every split of a stretch. -/
def foldSplits {α : Type} (join : α → Forest (Symbol L) → Forest (Symbol L) → α) (none : α)
    (trees : Span → Extraction L (Forest (Symbol L))) (left right : NodeId) (start stop : Nat)
    (consume : Bool) : Extraction L α := do
  let middles ← E.ends input left start
  middles.foldlM (takeSplit join trees left right start stop consume) none

/-- Every split of a stretch, joined. -/
def splits (trees : Span → Extraction L (Forest (Symbol L))) (left right : NodeId)
    (start stop : Nat) (consume : Bool) : Extraction L (Forest (Symbol L)) :=
  E.foldSplits input (fun found l r => found.union (l.permute r)) .empty trees left right start stop
    consume

/-- The trees of a span, given those of the spans that it is made of, and those of a sequence. -/
def renderBy (splits : NodeId → NodeId → Nat → Nat → Bool → Extraction L (Forest (Symbol L)))
    (trees : Span → Extraction L (Forest (Symbol L))) (span : Span) :
    Extraction L (Forest (Symbol L)) := do
  match ← onGrammar (Grammar.fetch span.node) with
  | .empty | .undefined _ => return .empty
  | .token kind =>
    if kind = Kind.epsilon then return .single .nil
    else
      match input[span.start]? with
      | some symbol => return .single (.leaf symbol)
      | none => throw (.beyondInput span.start)
  | .matched symbol => return .single (.leaf symbol)
  | .alt left right =>
    let l ← trees { span with node := left }
    let r ← trees { span with node := right }
    return l.union r
  | .cat left right => splits left right span.start span.stop false
  | .rep body =>
    if span.start = span.stop then return .single .nil
    else splits body span.node span.start span.stop true
  | .rule _ body => trees { span with node := body }
  | .thunk _ _ =>
    let target ← onGrammar (E.force span.node)
    trees { span with node := target }

/-- The trees of a span, given those of the spans that it is made of. -/
def render (trees : Span → Extraction L (Forest (Symbol L))) (span : Span) :
    Extraction L (Forest (Symbol L)) :=
  E.renderBy input (E.splits input trees) trees span

end Evaluator

namespace Span

open Extraction (onGrammar)

variable {L : Type} [DecidableEq L]

/-- Looks a span up that comes up inside the spans of `path`. If nothing is known of it, if it
matches and is none of them, then it is read. -/
def lookOr (s : Span) (E : Evaluator L) (input : List (Symbol L)) (path : List Span)
    (read : Extraction L (Forest (Symbol L))) : Extraction L (Forest (Symbol L)) := do
  match (← get).trees[s]? with
  | some known => return known
  | none =>
    let stops ← E.ends input s.node s.start
    if !stops.contains s.stop then return .empty
    else if path.contains s then
      modify fun known => { known with cut := true }
      return .empty
    else read

/-- Keeps the trees of a span, unless they rest on a cut. `outer` is whether the span around this
one rested on a cut before. -/
def keep (s : Span) (found : Forest (Symbol L)) (outer : Bool) (known : Extracted L) :
    Extracted L :=
  { known with
    trees := if known.cut then known.trees else known.trees.insert s found
    cut := known.cut || outer }

/-- Reads a span and keeps its trees. -/
def keeping (s : Span) (read : Extraction L (Forest (Symbol L))) :
    Extraction L (Forest (Symbol L)) := do
  let outer := (← get).cut
  modify fun known => { known with cut := false }
  let found ← read
  modify (s.keep found outer)
  onGrammar (Grammar.note (.extracted s.node s.start s.stop found.size))
  return found

/-- Answers the trees of a span that comes up inside the spans of `path`, and remembers them. -/
def visit (s : Span) (E : Evaluator L) (input : List (Symbol L)) (path : List Span)
    (read : Extraction L (Forest (Symbol L))) : Extraction L (Forest (Symbol L)) :=
  s.lookOr E input path (s.keeping read)

/-- Reads spans inside each other: `level` reads one that comes up inside the spans of `path`, given
how to read those that it is made of. The number bounds how deep spans may nest. -/
def nest (level : List Span → Span → (Span → Extraction L (Forest (Symbol L))) →
    Extraction L (Forest (Symbol L))) :
    Nat → List Span → Span → Extraction L (Forest (Symbol L))
  | 0, _, _ => throw .outOfFuel
  | depth + 1, path, span => level path span (nest level depth (span :: path))

end Span

/-! ## Forests of a whole input -/

namespace Evaluator

section

variable {L : Type} (E : Evaluator L)

/-- The positions of the nodes in a list that match the empty word. The first is at `position`. -/
def acceptingAt (position : Nat) : List NodeId → Eval L (List Nat)
  | [] => pure []
  | id :: rest => do
    let accepts ← E.nullable id
    let later ← acceptingAt (position + 1) rest
    return if accepts then position :: later else later

/-- Reads what a run of a recognizer left: `chain` has the start node and the node after each
symbol, so its nullable nodes say which beginnings of the input the start node matches. A run that
is not accepted in the end is not read, and neither is one whose chain does not fit its input. Else
`read` is told the start, and where its matches end. -/
def readRun {α : Type} (unread : α) (read : NodeId → Extracted L → Eval L α) (chain : List NodeId)
    (input : List (Symbol L)) : Eval L α := do
  match chain with
  | [] => return unread
  | start :: after =>
    if after.length ≠ input.length then return unread
    else
      let stops ← E.acceptingAt 0 chain
      if stops.getLast? ≠ some input.length then return unread
      else read start { ends := Std.TreeMap.empty.insert ⟨start, 0⟩ stops }

/-- The forest of a run of a recognizer, given how the trees of a span are read. The empty tree is
left out. -/
def forestBy (trees : Span → Extraction L (Forest (Symbol L))) (chain : List NodeId)
    (input : List (Symbol L)) : Eval L (Forest (Symbol L)) :=
  E.readRun .empty (fun start known => do
    let found ← (trees ⟨start, 0, input.length⟩).run' known
    return found.filter fun t => !t.isNil) chain input

end

variable {L : Type} [DecidableEq L] (E : Evaluator L)

/-- The trees of a span that comes up inside the spans of `path`. -/
def trees (input : List (Symbol L)) :
    Nat → List Span → Span → Extraction L (Forest (Symbol L)) :=
  Span.nest fun path span below => span.visit E input path (E.render input below span)

/-- The forest of a run of a recognizer. -/
def forestOfRun (depth : Nat) (chain : List NodeId) (input : List (Symbol L)) :
    Eval L (Forest (Symbol L)) :=
  E.forestBy (E.trees input depth []) chain input

end Evaluator

/-! ## By plain evaluation -/

namespace Grammar

variable {L : Type} [DecidableEq L] (fuel : Nat) (input : List (Symbol L))

def replay (id : NodeId) (position : Nat) (symbols : List (Symbol L)) : Eval L (List Nat) :=
  (Evaluator.plain fuel).replay id position symbols

def searchEnds (id : NodeId) (start : Nat) : Eval L (List Nat) :=
  (Evaluator.plain fuel).searchEnds input id start

def findEnds (id : NodeId) (start : Nat) : Eval L (List Nat) :=
  (Evaluator.plain fuel).findEnds input id start

def ends (id : NodeId) (start : Nat) : Extraction L (List Nat) :=
  (Evaluator.plain fuel).ends input id start

def splits (trees : Span → Extraction L (Forest (Symbol L))) (left right : NodeId)
    (start stop : Nat) (consume : Bool) : Extraction L (Forest (Symbol L)) :=
  (Evaluator.plain fuel).splits input trees left right start stop consume

def render (trees : Span → Extraction L (Forest (Symbol L))) (span : Span) :
    Extraction L (Forest (Symbol L)) :=
  (Evaluator.plain fuel).render input trees span

/-- The trees of a span that comes up inside the spans of `path`. Spans nest no deeper than
`depth`. -/
def trees (depth : Nat) (path : List Span) (span : Span) : Extraction L (Forest (Symbol L)) :=
  (Evaluator.plain fuel).trees input depth path span

/-- The trees of a node over the whole input, the empty tree included. -/
def parseTrees (start : NodeId) (input : List (Symbol L)) : Eval L (Forest (Symbol L)) :=
  (trees fuel input fuel [] ⟨start, 0, input.length⟩).run' {}

def acceptingAt (position : Nat) (ids : List NodeId) : Eval L (List Nat) :=
  (Evaluator.plain fuel).acceptingAt position ids

/-- The forest of a run of a recognizer. -/
def forestOfRun (chain : List NodeId) (input : List (Symbol L)) : Eval L (Forest (Symbol L)) :=
  (Evaluator.plain fuel).forestOfRun fuel chain input

end Grammar

end DerivativeParsing
