import DerivativeParsing.Forest.Extraction

/-!
# Plain enumeration

Trees can be read without remembering those of any span: every span is enumerated each time that it
comes up, and only a span that comes up inside itself is refused. That takes long, but it is plain
what it answers. `Grammar.enumerate` reads a span so, `Grammar.enumerateRun` the forest of a run.
`Grammar.keptOfRun` answers what `Grammar.forestOfRun` does, and the trees that it remembered.
-/

namespace DerivativeParsing

namespace Grammar

variable {L : Type} [DecidableEq L]

/-- The trees of a span that comes up inside the spans of `path`, without remembering those of other
spans. -/
def enumerate (fuel : Nat) (input : List (Symbol L)) :
    Nat → List Span → Span → Extraction L (Forest (Symbol L)) :=
  Span.nest fun path span below => do
    let stops ← ends fuel input span.node span.start
    if !stops.contains span.stop then return .empty
    else if path.contains span then return .empty
    else render fuel input below span

def enumerateTrees (fuel : Nat) (input : List (Symbol L)) (span : Span) :
    Eval L (Forest (Symbol L)) :=
  (enumerate fuel input fuel [] span).run' {}

/-- The forest of a run of a recognizer, without remembering the trees of any span. -/
def enumerateRun (fuel : Nat) (chain : List NodeId) (input : List (Symbol L)) :
    Eval L (Forest (Symbol L)) :=
  (Evaluator.plain fuel).forestBy (enumerate fuel input fuel []) chain input

/-- The forest of a run of a recognizer, and the trees that are remembered in the end. -/
def keptOfRun (fuel : Nat) (chain : List NodeId) (input : List (Symbol L)) :
    Eval L (Forest (Symbol L) × Std.TreeMap Span (Forest (Symbol L)) Span.order) :=
  (Evaluator.plain fuel).readRun (.empty, {}) (fun start known => do
    let (found, known) ← (trees fuel input fuel [] ⟨start, 0, input.length⟩).run known
    return (found.filter fun t => !t.isNil, known.trees)) chain input

end Grammar

end DerivativeParsing
