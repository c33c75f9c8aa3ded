import DerivativeParsing.Forest.Extraction
import DerivativeParsing.Grammar.Collect
import DerivativeParsing.Grammar.Lowering

/-!
# Recognizers

A recognizer consumes symbols one at a time. It keeps the start of its grammar and the symbols it
has consumed, each with the node that was left after it; the node left last matches exactly what may
still follow. The input is accepted when that node matches the empty word.

`Recognizer.reset` goes back to the start and keeps what the grammar has learned.

The calls are written once, for any state that keeps a run (`Run`) and any answers to what a run
asks of its grammar (`Engine`). A recognizer makes them by plain evaluation.
-/

namespace DerivativeParsing

/-- How a recognizer works. -/
structure Settings where
  /-- Cull the graph after every step. -/
  culling : Bool := true
  /-- Collect unreachable nodes every so many steps. A period of zero fails when a symbol is
  consumed. -/
  collectEvery : Option Nat := none
  /-- Stop deriving when nothing can match any more. -/
  stopWhenDead : Bool := true
  deriving DecidableEq, Repr

namespace Settings

def withCulling (s : Settings) (on : Bool) : Settings := { s with culling := on }

/-- With a collection every `steps` steps, or with none if that is zero. -/
def withCollectEvery (s : Settings) (steps : Nat) : Settings :=
  { s with collectEvery := if steps = 0 then none else some steps }

/-- Stopping when nothing can match any more, or not. -/
def withStopWhenDead (s : Settings) (on : Bool) : Settings := { s with stopWhenDead := on }

/-- Whether a collection is due after so many steps. No number of steps is a multiple of zero or
not: a period of no steps is out of range. -/
def collectDue (settings : Settings) (steps : Nat) : Except Error Bool :=
  match settings.collectEvery with
  | none => return false
  | some 0 => throw (.outOfRange 0)
  | some every => return steps % every == 0

/-- A period of no steps cannot be asked for. -/
theorem collectEvery_withCollectEvery (s : Settings) (steps : Nat) :
    (s.withCollectEvery steps).collectEvery ≠ some 0 := by
  unfold withCollectEvery
  by_cases none : steps = 0
  · simp [none]
  · simp [none]

section CollectDue

variable {settings : Settings} (steps : Nat)

theorem collectDue_zero (zero : settings.collectEvery = some 0) :
    settings.collectDue steps = .error (.outOfRange 0) := by
  rw [collectDue, zero]
  rfl

theorem collectDue_none (none : settings.collectEvery = none) :
    settings.collectDue steps = .ok false := by
  rw [collectDue, none]
  rfl

/-- With a period of one step or more it can be told whether a collection is due. -/
theorem collectDue_ok (period : settings.collectEvery ≠ some 0) :
    ∃ due, settings.collectDue steps = .ok due := by
  cases every : settings.collectEvery with
  | none => exact ⟨false, collectDue_none steps every⟩
  | some n =>
    cases n with
    | zero => exact absurd every period
    | succ n =>
      rw [collectDue, every]
      exact ⟨_, rfl⟩

end CollectDue

end Settings

/-- What came of a whole input: the node left after the last symbol, and whether the input is
accepted. -/
structure Recognition where
  node : NodeId
  accepted : Bool
  deriving DecidableEq, Repr

/-! ## Runs -/

/-- A state in which a run over some input is kept. -/
class Run (σ : Type) (L : outParam Type) where
  settings : σ → Settings
  /-- The node left after the symbols consumed so far. -/
  current : σ → NodeId
  /-- The start node and the node after each symbol. -/
  chain : σ → List NodeId
  /-- The symbols consumed. -/
  input : σ → List (Symbol L)
  /-- How many symbols have been consumed. -/
  steps : σ → Nat
  onGrammar {α : Type} (act : Eval L α) : StateT σ (Except Error) α
  /-- Back to the start, keeping what the grammar has learned. -/
  restart : σ → σ
  /-- Takes in a symbol and the node after it. -/
  enter : Symbol L → NodeId → σ → σ
  /-- Drops the nodes that neither the start nor the chain depends on. -/
  collect : StateT σ (Except Error) Unit

/-- What follows a step: it is taken in, and a collection is made if one is due. Answers whether
anything can still match. -/
def Run.landed {σ L : Type} [Run σ L] (symbol : Symbol L) (next : NodeId) (accepts : Bool)
    (settings : Settings) : StateT σ (Except Error) Bool := do
  modify (Run.enter symbol next)
  let steps := Run.steps (← get)
  Run.onGrammar do
    let size := (← get).size
    Grammar.note (.stepped steps symbol.kind next size accepts)
  if ← settings.collectDue steps then Run.collect
  return !(Run.current (← get) == Grammar.nothing)

/-- What a run asks of its grammar. -/
structure Engine (L : Type) where
  step : NodeId → Symbol L → Bool → Eval L (NodeId × Bool)
  nullable : NodeId → Eval L Bool
  forest : List NodeId → List (Symbol L) → Eval L (Forest (Symbol L))

/-- Something that may be asked of a run. -/
inductive Call (L : Type)
  | feed (symbol : Symbol L)
  | accepted
  | recognize (symbols : List (Symbol L))
  | parse (symbols : List (Symbol L))
  | forest
  | reset

namespace Engine

section

variable {σ L : Type} [Run σ L] (M : Engine L)

/-- Consumes a symbol and answers whether anything can still match. A dead run that is to stop does
not consume it. -/
def feed (symbol : Symbol L) : StateT σ (Except Error) Bool := do
  let settings := Run.settings (← get)
  let node := Run.current (← get)
  if settings.stopWhenDead && node == Grammar.nothing then return false
  else
    let (next, accepts) ← Run.onGrammar (M.step node symbol settings.culling)
    Run.landed symbol next accepts settings

/-- Whether the symbols consumed so far are a complete match. -/
def accepted : StateT σ (Except Error) Bool := do
  let node := Run.current (← get)
  Run.onGrammar (M.nullable node)

/-- Consumes symbols, unless it is to stop and nothing can match any more. -/
def feedAll : List (Symbol L) → StateT σ (Except Error) Unit
  | [] => pure ()
  | symbol :: rest => do
    let alive ← M.feed symbol
    if !alive && (Run.settings (← get)).stopWhenDead then pure ()
    else feedAll rest

def recognize (symbols : List (Symbol L)) : StateT σ (Except Error) Recognition := do
  modify Run.restart
  M.feedAll symbols
  let node := Run.current (← get)
  return { node, accepted := ← M.accepted }

/-- The parse trees of the symbols consumed so far. -/
def forestOf : StateT σ (Except Error) (Forest (Symbol L)) := do
  let chain := Run.chain (← get)
  let input := Run.input (← get)
  Run.onGrammar (M.forest chain input)

/-- Runs a whole input from the start and, if it is accepted, answers its parse trees. -/
def parse (symbols : List (Symbol L)) : StateT σ (Except Error) (Option (Forest (Symbol L))) := do
  let outcome ← M.recognize symbols
  if outcome.accepted then return some (← M.forestOf)
  else return none

def call : Call L → StateT σ (Except Error) Unit
  | .feed symbol => do let _ ← M.feed symbol
  | .accepted => do let _ ← M.accepted
  | .recognize symbols => do let _ ← M.recognize symbols
  | .parse symbols => do let _ ← M.parse symbols
  | .forest => do let _ ← M.forestOf
  | .reset => modify Run.restart

def callAll : List (Call L) → StateT σ (Except Error) Unit
  | [] => pure ()
  | c :: rest => do
    M.call c
    callAll rest

end

/-- What plain evaluation answers. -/
def plain {L : Type} [DecidableEq L] (fuel : Nat) : Engine L :=
  ⟨Grammar.step fuel, Grammar.nullable fuel, Grammar.forestOfRun fuel⟩

end Engine

/-- What an evaluator answers. Spans nest no deeper than `depth`. -/
def Evaluator.engine {L : Type} [DecidableEq L] (E : Evaluator L) (depth : Nat) : Engine L :=
  ⟨E.step, E.nullable, E.forestOfRun depth⟩

/-! ## Recognizers -/

/-- A grammar, its start, and a run over some input. -/
structure Recognizer (L : Type) where
  grammar : Grammar L
  start : NodeId
  /-- The symbols consumed, each with the node after it. -/
  taken : Array (Symbol L × NodeId) := #[]
  settings : Settings := {}

/-- An action of a recognizer. -/
abbrev Recognizing (L : Type) := StateT (Recognizer L) (Except Error)

namespace Recognizer

variable {L : Type}

/-! ## The state of a run -/

/-- The node left after the symbols consumed so far. -/
def current (r : Recognizer L) : NodeId :=
  match r.taken.back? with
  | some (_, node) => node
  | none => r.start

/-- The start node and the node after each symbol. -/
def chain (r : Recognizer L) : List NodeId :=
  r.start :: r.taken.toList.map Prod.snd

def input (r : Recognizer L) : List (Symbol L) :=
  r.taken.toList.map Prod.fst

/-- How many symbols have been consumed. -/
def steps (r : Recognizer L) : Nat := r.taken.size

/-- Whether nothing can match any more. -/
def isDead (r : Recognizer L) : Bool := r.current == Grammar.nothing

/-- The same recognizer with nothing in the journal of its grammar. -/
def clearJournal (r : Recognizer L) : Recognizer L := { r with grammar := r.grammar.clearJournal }

theorem length_chain (r : Recognizer L) : r.chain.length = r.input.length + 1 := by
  simp [chain, input]

theorem length_input (r : Recognizer L) : r.input.length = r.steps := by
  simp [input, steps]

theorem getLast?_chain (r : Recognizer L) : r.chain.getLast? = some r.current := by
  obtain ⟨_, _, ⟨taken⟩, _⟩ := r
  rcases taken.eq_nil_or_concat with rfl | ⟨front, last, rfl⟩ <;>
    simp [chain, current, List.getLast?_cons]

/-! ## Making a recognizer -/

/-- A recognizer for a node of a grammar in which every reachable nonterminal has a body. -/
def ofGrammar (grammar : Grammar L) (start : NodeId) (settings : Settings) :
    Except Error (Recognizer L) := do
  grammar.validate start
  return { grammar, start, settings }

def ofLanguage (lang : Language) (settings : Settings) : Except Error (Recognizer L) := do
  let (start, grammar) ← Grammar.ofLanguage lang
  ofGrammar grammar start settings

/-- A recognizer for a list of rules. -/
def ofRules (rules : List (String × Language)) (start : String) (settings : Settings) :
    Except Error (Recognizer L) := do
  let (start, grammar) ← Grammar.ofRules rules start
  ofGrammar grammar start settings

/-! ## Running -/

/-- Takes an action on the grammar. The grammar is taken out of the recognizer meanwhile, so that it
has one owner and is updated in place. -/
def onGrammar {α : Type} (act : Eval L α) : Recognizing L α := fun r =>
  let grammar := r.grammar
  let r := { r with grammar := default }
  match act grammar with
  | .ok (a, grammar) => .ok (a, { r with grammar })
  | .error e => .error e

/-- Back to the start, keeping what the grammar has learned. -/
def reset : Recognizing L Unit :=
  modify fun r => { r with taken := #[] }

/-- Drops the nodes that neither the start nor the chain depends on. -/
def collect : Recognizing L Unit := do
  let chain := (← get).chain
  let roots ← onGrammar (Grammar.collect chain)
  match roots with
  | [] => pure ()
  | start :: nodes =>
    modify fun r => { r with start, taken := (r.taken.toList.map Prod.fst |>.zip nodes).toArray }

end Recognizer

/-- A recognizer keeps the start and one list of what has been consumed. -/
instance {L : Type} : Run (Recognizer L) L where
  settings := Recognizer.settings
  current := Recognizer.current
  chain := Recognizer.chain
  input := Recognizer.input
  steps := Recognizer.steps
  onGrammar := Recognizer.onGrammar
  restart r := { r with taken := #[] }
  enter symbol next r := { r with taken := r.taken.push (symbol, next) }
  collect := Recognizer.collect

section Run

variable {L : Type} (r : Recognizer L)

@[simp] theorem Recognizer.run_settings : Run.settings r = r.settings := rfl

@[simp] theorem Recognizer.run_current : Run.current r = r.current := rfl

@[simp] theorem Recognizer.run_chain : Run.chain r = r.chain := rfl

@[simp] theorem Recognizer.run_input : Run.input r = r.input := rfl

@[simp] theorem Recognizer.run_steps : Run.steps r = r.steps := rfl

@[simp] theorem Recognizer.run_restart : Run.restart r = { r with taken := #[] } := rfl

@[simp] theorem Recognizer.run_enter (s : Symbol L) (next : NodeId) :
    Run.enter s next r = { r with taken := r.taken.push (s, next) } := rfl

end Run

namespace Recognizer

variable {L : Type} [DecidableEq L] (fuel : Nat)

/-- Consumes a symbol and answers whether anything can still match. -/
def feed (symbol : Symbol L) : Recognizing L Bool := (Engine.plain fuel).feed symbol

/-- Whether the symbols consumed so far are a complete match. -/
def accepted : Recognizing L Bool := (Engine.plain fuel).accepted

def feedAll (symbols : List (Symbol L)) : Recognizing L Unit := (Engine.plain fuel).feedAll symbols

def recognize (symbols : List (Symbol L)) : Recognizing L Recognition :=
  (Engine.plain fuel).recognize symbols

/-- The parse trees of the symbols consumed so far. -/
def forest : Recognizing L (Forest (Symbol L)) := (Engine.plain fuel).forestOf

/-- Runs a whole input from the start and, if it is accepted, answers its parse trees. -/
def parse (symbols : List (Symbol L)) : Recognizing L (Option (Forest (Symbol L))) :=
  (Engine.plain fuel).parse symbols

def call (c : Call L) : Recognizing L Unit := (Engine.plain fuel).call c

def callAll (calls : List (Call L)) : Recognizing L Unit := (Engine.plain fuel).callAll calls

end Recognizer

end DerivativeParsing
