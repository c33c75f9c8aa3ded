import DerivativeParsing.Proofs.Chains
import DerivativeParsing.Proofs.Faults
import DerivativeParsing.Proofs.Histories
import DerivativeParsing.Proofs.Relocation

/-!
# Books

A recognizer may be kept as one list of what has been taken. Kept as a record, with the current
node, the chain, the symbols and their number in fields apart, every call has to bring several of
them up to date, and a collection has to rename some of them.

1. `Books` is the record, with the calls as they keep it.
2. `Accounts`: a call of the record does what the call of the recognizer does, and fails where that
   fails. `Accounts.callAll`: so do calls one after the other.
3. `Recognizer.consumed`: the symbols that were taken since the recognizer was last taken back to
   its start, told from the outside. `input_consumed`: they are the input.
4. `enactAll_name?`: a nonterminal keeps its name, wherever it goes.
5. `books_in_step`: after any calls the fields are in step.
-/

namespace DerivativeParsing

open Grammar (nothing)

/-! ## The fields apart -/

/-- A grammar, its start, and a run over some input, in a record with redundant fields. -/
structure Books (L : Type) where
  grammar : Grammar L
  start : NodeId
  current : NodeId
  /-- The node after each step, starting with the start node. -/
  chain : List NodeId
  /-- The symbols consumed. -/
  input : List (Symbol L)
  /-- How many symbols have been consumed. -/
  steps : Nat
  settings : Settings

/-- An action that keeps the books. -/
abbrev Booking (L : Type) := StateT (Books L) (Except Error)

namespace Books

variable {L α : Type}

def opened (grammar : Grammar L) (start : NodeId) (settings : Settings) : Books L :=
  { grammar, start, current := start, chain := [start], input := [], steps := 0, settings }

def onGrammar (act : Eval L α) : Booking L α := fun b =>
  match act b.grammar with
  | .ok (a, grammar) => .ok (a, { b with grammar })
  | .error e => .error e

/-- Drops the nodes that neither the start nor the chain depends on. The start is collected beside
the chain, which starts with it. -/
def collect : Booking L Unit := do
  let b ← get
  let roots ← onGrammar (Grammar.collect (b.start :: b.chain))
  match roots with
  | [] => pure ()
  | start :: chain => modify fun b => { b with start, chain, current := chain.getLast?.getD start }

end Books

/-- The books are kept as the fields say: every step and every collection brings each of them up to
date. -/
instance {L : Type} : Run (Books L) L where
  settings := Books.settings
  current := Books.current
  chain := Books.chain
  input := Books.input
  steps := Books.steps
  onGrammar := Books.onGrammar
  restart b := { b with current := b.start, chain := [b.start], input := [], steps := 0 }
  enter symbol next b :=
    { b with
      current := next, chain := b.chain ++ [next], input := b.input ++ [symbol], steps :=
        b.steps + 1 }
  collect := Books.collect

def Books.callAll {L : Type} [DecidableEq L] (fuel : Nat) (calls : List (Call L)) :
    Booking L Unit :=
  (Engine.plain fuel).callAll calls

def Source.books {L : Type} (source : Source) (settings : Settings) : Except Error (Books L) := do
  let (start, grammar) ← source.grammar
  grammar.validate start
  return .opened grammar start settings

/-! ## The same calls -/

def Recognizer.books {L : Type} (r : Recognizer L) : Books L where
  grammar := r.grammar
  start := r.start
  current := r.current
  chain := r.chain
  input := r.input
  steps := r.steps
  settings := r.settings

/-- An action that keeps the books of a recognizer answers what the action of the recognizer does,
and leaves the books of what that leaves; or both fail alike. -/
def Accounts {L α : Type} (act' : Booking L α) (act : Recognizing L α) (r : Recognizer L) : Prop :=
  act' r.books = (act r).map fun (a, r') => (a, r'.books)

section Accounts

variable {L α β : Type} {r : Recognizer L} {act' : Booking L α} {act : Recognizing L α}
  {k' : α → Booking L β} {k : α → Recognizing L β} {g' : Grammar L} {s : Symbol L} {next : NodeId}

namespace Accounts

theorem bind (first : Accounts act' act r)
    (later : ∀ a r', act r = .ok (a, r') → Accounts (k' a) (k a) r') :
    Accounts (act' >>= k') (act >>= k) r := by
  unfold Accounts at first ⊢
  show Except.bind (act' r.books) (fun p => k' p.1 p.2) =
    (Except.bind (act r) fun p => k p.1 p.2).map _
  rw [first]
  cases run : act r with
  | error e => rfl
  | ok p => exact later p.1 p.2 run

theorem pure (a : α) : Accounts (pure a) (pure a) r := rfl

theorem lift (x : Except Error α) : Accounts (liftM x) (liftM x) r := by
  cases x <;> rfl

theorem ite {c : Prop} [Decidable c] {other' : Booking L α} {other : Recognizing L α}
    (yes : c → Accounts act' act r) (no : ¬c → Accounts other' other r) :
    Accounts (if c then act' else other') (if c then act else other) r := by
  by_cases h : c
  · rw [if_pos h, if_pos h]
    exact yes h
  · rw [if_neg h, if_neg h]
    exact no h

theorem onGrammar (act : Eval L α) :
    Accounts (Books.onGrammar act) (Recognizer.onGrammar act) r := by
  have same : r.books.grammar = r.grammar := rfl
  simp only [Accounts, Books.onGrammar, Recognizer.onGrammar, same]
  cases act r.grammar with
  | error e => rfl
  | ok p => rfl

theorem get {k' : Books L → Booking L β} {k : Recognizer L → Recognizing L β}
    (later : Accounts (k' r.books) (k r) r) : Accounts (get >>= k') (get >>= k) r := later

theorem restart : Accounts (modify Run.restart) (modify Run.restart) r := rfl

theorem modify {f' : Books L → Books L} {f : Recognizer L → Recognizer L}
    (same : f' r.books = (f r).books) :
    Accounts (modify f') (modify f) r := congrArg (fun b => Except.ok ((), b)) same

end Accounts

theorem books_advanced : (r.advanced s next g').books =
    { r.books with
      grammar := g', current := next, chain := r.chain ++ [next], input := r.input ++ [s], steps :=
        r.steps + 1 } := by
  have steps : (r.advanced s next g').steps = r.steps + 1 := Array.size_push _
  simp only [Recognizer.books, Recognizer.current_advanced, Recognizer.chain_advanced,
    Recognizer.input_advanced, steps]
  rfl

theorem books_moved {place : NodeId → Option NodeId} : (r.moved place g').books =
    { r.books with
      grammar := g', start := movedBy place r.start, current := movedBy place r.current,
      chain := r.chain.map (movedBy place) } := by
  have steps : (r.moved place g').steps = r.steps := Array.size_map
  simp only [Recognizer.books, Recognizer.current_moved, Recognizer.chain_moved,
    Recognizer.input_moved, steps]
  rfl

/-- A collection that has the start twice among its roots keeps the same nodes. -/
theorem collect_cons_mem {roots roots' : List NodeId} {g : Grammar L} {x : NodeId}
    (ranged : g.Ranged true) (range : ∀ root ∈ nothing :: roots, root < g.size) (member : x ∈ roots)
    (run : Grammar.collect roots g = .ok (roots', g')) :
    Grammar.collect (x :: roots) g =
      .ok (movedBy ((Deed.collect roots).place g) x :: roots', g') := by
  obtain ⟨t, reach, same⟩ := Grammar.collect_iff.mp run
  have mem_iff (root : NodeId) : root ∈ nothing :: x :: roots ↔ root ∈ nothing :: roots := by
    simp only [List.mem_cons]
    constructor
    · rintro (h | rfl | h)
      · exact .inl h
      · exact .inr member
      · exact .inr h
    · rintro (h | h)
      · exact .inl h
      · exact .inr (.inr h)
  have range' : ∀ root ∈ nothing :: x :: roots, root < g.size := fun root hroot =>
    range root ((mem_iff root).mp hroot)
  obtain ⟨t', reach', -⟩ := Grammar.reach_ok ranged range'
  have seen (y : NodeId) : t'.seen.contains y = t.seen.contains y := by
    rw [Bool.eq_iff_iff, Grammar.reach_iff ranged range' reach',
      Grammar.reach_iff ranged range reach]
    exact exists_congr fun root => and_congr_left fun _ => mem_iff root
  have flags : (List.range g.size).map t'.seen.contains = (List.range g.size).map t.seen.contains :=
    List.map_congr_left fun y _ => seen y
  have left : g.remaining t'.seen = g.remaining t.seen := congrArg g.compact flags
  refine Grammar.collect_iff.mpr ⟨t', reach', ?_⟩
  rw [left, place_of_reach reach]
  cases same
  rfl

variable [DecidableEq L] {links : Links} {fuel : Nat} {symbols : List (Symbol L)}

namespace Accounts

theorem collect (h : r.Linked links) : Accounts Books.collect Recognizer.collect r := by
  obtain ⟨W, good⟩ := h.reliable.between
  have range : ∀ root ∈ nothing :: r.chain, root < r.grammar.size := by
    intro root member
    rcases List.mem_cons.mp member with rfl | member
    · exact Grammar.lt_size_of_get? good.formed.nothing
    · exact h.range root member
  obtain ⟨_, g', run, -⟩ := Grammar.collect_ok good.formed h.range
  rw [(collect_roots run).1] at run
  have run' := collect_cons_mem (good.formed.ranged true) range (.head _) run
  generalize (Deed.collect r.chain).place r.grammar = place at run run'
  have first : Books.onGrammar (Grammar.collect (r.start :: r.chain)) r.books =
      .ok (movedBy place r.start :: r.chain.map (movedBy place),
        { r.books with grammar := g' }) := by
    have run' : Grammar.collect (r.start :: r.chain) r.books.grammar = _ := run'
    simp only [Books.onGrammar, run']
  have last : (r.chain.map (movedBy place)).getLast?.getD (movedBy place r.start) =
      movedBy place r.current := by
    rw [List.getLast?_map, r.getLast?_chain]
    rfl
  unfold Accounts
  rw [Recognizer.collect_of_ok run]
  refine (Action.bind_of_ok (Action.get_ok.mpr ⟨rfl, rfl⟩)).trans
    ((Action.bind_of_ok first).trans ?_)
  show Except.ok ((), _) = Except.ok ((), (r.moved place g').books)
  rw [books_moved, ← last]

theorem landed {accepts : Bool}
    (h : ∀ event, Recognizer.Linked links (r.advanced s next (g'.noted event))) :
    Accounts (Run.landed s next accepts r.settings) (Run.landed s next accepts r.settings)
      (r.withGrammar g') := by
  refine .bind (.modify books_advanced.symm) fun _ r₁ run => ?_
  obtain rfl := Action.modify_ok.mp run
  refine .get (.bind (.onGrammar _) fun _ r₂ run => ?_)
  obtain ⟨g₂, noted, rfl⟩ := Recognizer.onGrammar_ok.mp run
  obtain rfl := Grammar.note_ok.mp noted
  have linked := h (.stepped (r.taken.push (s, next)).size s.kind next g'.size accepts)
  refine .bind (.lift _) fun due r₃ run => ?_
  obtain ⟨-, rfl⟩ := Action.lift_ok.mp run
  refine .ite (fun _ => ?_) fun _ => .get (.pure _)
  exact .bind (.collect linked) fun _ r₄ _ => .get (.pure _)

theorem feed (h : r.Linked links) :
    Accounts ((Engine.plain fuel).feed s) (Recognizer.feed fuel s) r := by
  refine .get (.get (.ite (fun _ => .pure _) fun _ => ?_))
  refine .bind (.onGrammar _) fun (next, accepts) r₁ run => ?_
  obtain ⟨g', stepped, rfl⟩ := Recognizer.onGrammar_ok.mp run
  exact .landed fun event => h.stepped stepped

theorem accepted : Accounts (Engine.plain fuel).accepted (Recognizer.accepted fuel) r :=
  .get (.onGrammar _)

theorem feedAll (h : r.Linked links) :
    Accounts ((Engine.plain fuel).feedAll symbols) (Recognizer.feedAll fuel symbols) r := by
  induction symbols generalizing r with
  | nil => exact .pure ()
  | cons s rest ih =>
    refine .bind (.feed h) fun alive r₁ run => .get ?_
    exact .ite (fun _ => .pure ()) fun _ => ih (h.feed run)

theorem recognize (h : r.Linked links) :
    Accounts ((Engine.plain fuel).recognize symbols) (Recognizer.recognize fuel symbols) r := by
  refine .bind .restart fun _ r₁ run => ?_
  obtain rfl := Action.modify_ok.mp run
  refine .bind (.feedAll h.restarted) fun _ r₂ _ => .get ?_
  exact .bind .accepted fun _ r₃ _ => .pure _

theorem forest : Accounts (Engine.plain fuel).forestOf (Recognizer.forest fuel) r :=
  .get (.get (.onGrammar _))

theorem parse (h : r.Linked links) :
    Accounts ((Engine.plain fuel).parse symbols) (Recognizer.parse fuel symbols) r := by
  refine .bind (.recognize h) fun o r₁ _ => .ite (fun _ => ?_) fun _ => .pure _
  exact .bind .forest fun f r₂ _ => .pure _

theorem call (c : Call L) (h : r.Linked links) :
    Accounts ((Engine.plain fuel).call c) (Recognizer.call fuel c) r := by
  cases c with
  | feed s => exact .bind (.feed h) fun _ _ _ => .pure _
  | accepted => exact .bind .accepted fun _ _ _ => .pure _
  | recognize symbols => exact .bind (.recognize h) fun _ _ _ => .pure _
  | parse symbols => exact .bind (.parse h) fun _ _ _ => .pure _
  | forest => exact .bind .forest fun _ _ _ => .pure _
  | reset => exact .restart

theorem callAll (calls : List (Call L)) (h : r.Linked links) :
    Accounts (Books.callAll fuel calls) (Recognizer.callAll fuel calls) r := by
  induction calls generalizing r with
  | nil => exact .pure ()
  | cons c rest ih => exact .bind (.call c h) fun _ r₁ run => ih (h.call run)

end Accounts

end Accounts

theorem source_books {L : Type} {source : Source} {settings : Settings} :
    (source.books settings : Except Error (Books L)) =
      (source.recognizer settings).map Recognizer.books := by
  have opened (made : Except Error (NodeId × Grammar L)) :
      (made >>= fun p => do
        p.2.validate p.1
        return Books.opened p.2 p.1 settings : Except Error (Books L)) =
        (made >>= fun p => Recognizer.ofGrammar p.2 p.1 settings).map Recognizer.books := by
    cases made with
    | error => rfl
    | ok p =>
      show Except.bind (p.2.validate p.1) _ = (Except.bind (p.2.validate p.1) _).map _
      cases p.2.validate p.1 <;> rfl
  cases source with
  | plain lang => exact opened (Grammar.ofLanguage lang)
  | ruled rules start => exact opened (Grammar.ofRules rules start)

/-! ## What is consumed -/

namespace Recognizer

variable {L : Type} [DecidableEq L]

def takes (r : Recognizer L) : Bool := !(r.settings.stopWhenDead && r.isDead)

/-- The symbols that are consumed when some are fed one after the other. -/
def takenOf (fuel : Nat) : List (Symbol L) → Recognizer L → List (Symbol L)
  | [], _ => []
  | s :: rest, r =>
    if r.takes then
      match feed fuel s r with
      | .ok (_, r') => s :: takenOf fuel rest r'
      | .error _ => []
    else []

/-- The symbols consumed since the recognizer was last taken back to its start, after one more
call. -/
def logged (fuel : Nat) (before : List (Symbol L)) (r : Recognizer L) : Call L → List (Symbol L)
  | .feed s => before ++ takenOf fuel [s] r
  | .recognize symbols | .parse symbols => takenOf fuel symbols { r with taken := #[] }
  | .accepted | .forest => before
  | .reset => []

/-- The symbols consumed since the recognizer was last taken back to its start, after some calls. -/
def consumed (fuel : Nat) : List (Call L) → List (Symbol L) → Recognizer L → List (Symbol L)
  | [], before, _ => before
  | c :: rest, before, r =>
    match call fuel c r with
    | .ok (_, r') => consumed fuel rest (logged fuel before r c) r'
    | .error _ => before

end Recognizer

section Consumed

variable {L : Type} [DecidableEq L] {r r' : Recognizer L} {s : Symbol L} {symbols : List (Symbol L)}
  {fuel : Nat} {alive : Bool} {u : Unit}

omit [DecidableEq L] in
theorem takes_iff : r.takes ↔ ¬(r.settings.stopWhenDead ∧ r.isDead) := by
  rw [Recognizer.takes, Bool.not_eq_true', ← Bool.not_eq_true, Bool.and_eq_true]

theorem feed_entered (takes : r.takes) (run : Recognizer.feed fuel s r = .ok (alive, r')) :
    r'.input = r.input ++ [s] ∧ alive = !r'.isDead ∧ r'.settings = r.settings := by
  rw [Recognizer.feed_alive (takes_iff.mp takes)] at run
  obtain ⟨⟨next, accepts⟩, _, stepping, landing⟩ := Action.bind_ok.mp run
  obtain ⟨g', -, rfl⟩ := Recognizer.onGrammar_ok.mp stepping
  obtain ⟨event, rfl, ⟨-, collected⟩ | ⟨-, rfl⟩⟩ := Recognizer.landed_cases landing
  · obtain ⟨place, g'', -, -, rfl, -⟩ := Recognizer.exists_of_collect collected
    exact ⟨by simp, rfl, rfl⟩
  · exact ⟨Recognizer.input_advanced, rfl, rfl⟩

theorem takenOf_cons (takes : r.takes) (run : Recognizer.feed fuel s r = .ok (alive, r')) :
    Recognizer.takenOf fuel (s :: symbols) r = s :: Recognizer.takenOf fuel symbols r' := by
  rw [Recognizer.takenOf, if_pos takes]
  simp only [run]

theorem takenOf_stopped (stops : ¬r.takes) : Recognizer.takenOf fuel symbols r = [] := by
  cases symbols with
  | nil => rfl
  | cons s rest => rw [Recognizer.takenOf, if_neg stops]

/-- What is fed one after the other is entered as long as symbols are taken. By induction on the
symbols. -/
theorem feedAll_entered (run : Recognizer.feedAll fuel symbols r = .ok (u, r')) :
    r'.input = r.input ++ Recognizer.takenOf fuel symbols r := by
  induction symbols generalizing r with
  | nil =>
    obtain ⟨-, rfl⟩ := Action.pure_ok.mp run
    exact (List.append_nil _).symm
  | cons s rest ih =>
    obtain ⟨alive, r₁, feeding⟩ := exists_feed run
    rw [feedAll_cons feeding] at run
    by_cases takes : r.takes
    · obtain ⟨input, yes, settings⟩ := feed_entered takes feeding
      rw [takenOf_cons takes feeding]
      split at run
      · rename_i dead
        cases run
        have stops : ¬r'.takes := by
          rw [yes, Bool.not_not, Bool.and_comm] at dead
          simp [Recognizer.takes, dead]
        rw [takenOf_stopped stops, input]
      · rw [ih run, input, List.append_assoc]
        rfl
    · have stops := not_not.mp (mt takes_iff.mpr takes)
      rw [Recognizer.feed_stopped stops] at feeding
      cases feeding
      rw [takenOf_stopped takes, List.append_nil]
      split at run
      · cases run
        rfl
      · rename_i goes
        exact absurd (by simp [stops.1]) goes

theorem recognize_entered {o : Recognition}
    (run : Recognizer.recognize fuel symbols r = .ok (o, r')) :
    r'.input = Recognizer.takenOf fuel symbols { r with taken := #[] } := by
  obtain ⟨r₁, feeding, -, asking⟩ := recognize_ok.mp run
  obtain ⟨g', -, rfl⟩ := Recognizer.accepted_ok.mp asking
  exact feedAll_entered feeding

theorem call_entered {c : Call L} (run : Recognizer.call fuel c r = .ok (u, r')) :
    r'.input = Recognizer.logged fuel r.input r c := by
  cases c with
  | feed s =>
    obtain ⟨alive, _, feeding, last⟩ := Action.bind_ok.mp run
    obtain ⟨-, rfl⟩ := Action.pure_ok.mp last
    by_cases takes : r.takes
    · rw [Recognizer.logged, takenOf_cons takes feeding]
      exact (feed_entered takes feeding).1
    · cases (Recognizer.feed_stopped (not_not.mp (mt takes_iff.mpr takes))).symm.trans feeding
      rw [Recognizer.logged, takenOf_stopped takes, List.append_nil]
  | accepted =>
    obtain ⟨answer, _, asking, last⟩ := Action.bind_ok.mp run
    obtain ⟨-, rfl⟩ := Action.pure_ok.mp last
    obtain ⟨g', -, rfl⟩ := Recognizer.accepted_ok.mp asking
    rfl
  | recognize symbols =>
    obtain ⟨o, _, recognizing, last⟩ := Action.bind_ok.mp run
    obtain ⟨-, rfl⟩ := Action.pure_ok.mp last
    exact recognize_entered recognizing
  | parse symbols =>
    obtain ⟨found, _, parsing, last⟩ := Action.bind_ok.mp run
    obtain ⟨-, rfl⟩ := Action.pure_ok.mp last
    obtain ⟨o, r₁, recognizing, rest⟩ := Action.bind_ok.mp parsing
    have entered := recognize_entered recognizing
    split at rest
    · obtain ⟨f, r₂, reading, last⟩ := Action.bind_ok.mp rest
      obtain ⟨g', -, rfl⟩ := Recognizer.forest_ok.mp reading
      obtain ⟨-, rfl⟩ := Action.pure_ok.mp last
      exact entered
    · obtain ⟨-, rfl⟩ := Action.pure_ok.mp rest
      exact entered
  | forest =>
    obtain ⟨f, _, reading, last⟩ := Action.bind_ok.mp run
    obtain ⟨-, rfl⟩ := Action.pure_ok.mp last
    obtain ⟨g', -, rfl⟩ := Recognizer.forest_ok.mp reading
    rfl
  | reset =>
    obtain rfl := Action.modify_ok.mp run
    rfl

/-- The input is what was consumed. By induction on the calls. -/
theorem input_consumed {calls : List (Call L)}
    (run : Recognizer.callAll fuel calls r = .ok (u, r')) :
    r'.input = Recognizer.consumed fuel calls r.input r := by
  induction calls generalizing r with
  | nil =>
    obtain ⟨-, rfl⟩ := Action.pure_ok.mp run
    rfl
  | cons c rest ih =>
    obtain ⟨_, r₁, first, run⟩ := Action.bind_ok.mp run
    have called : Recognizer.call fuel c r = .ok ((), r₁) := first
    rw [Recognizer.consumed, ih run, call_entered called]
    simp only [called]

end Consumed

/-! ## The start -/

section Start

variable {L : Type} {g g' : Grammar L} {names : Names} {rules : List (String × Language)}
  {start name : String} {id x y : NodeId} {place : NodeId → Option NodeId} {u : Unit}

theorem name?_eq_some :
    g.name? id = some name ↔ ∃ node, g.arena.get? id = some node ∧ node.name? = some name :=
  Option.bind_eq_some_iff

theorem Node.Becomes.name?_eq {node node' : Node L} (h : node.Becomes node') :
    node'.name? = node.name? := by
  cases h with
  | rule name => exact congrArg some name.symm
  | _ => rfl

theorem Node.Recast.name?_eq {node node' : Node L} (h : node.Recast node') :
    node'.name? = node.name? := by
  cases h <;> rfl

theorem Node.name?_relocate (node : Node L) : (node.relocate place).name? = node.name? := by
  cases node <;> rfl

theorem defineAll_name? (run : Grammar.defineAll names rules g = .ok (u, g'))
    (named : g.name? id = some name) : g'.name? id = some name := by
  induction rules generalizing g with
  | nil =>
    obtain ⟨-, rfl⟩ := Action.pure_ok.mp run
    exact named
  | cons first rest ih =>
    obtain ⟨body, g₁, lowered, run⟩ := Action.bind_ok.mp run
    obtain ⟨target, _, resolved, run⟩ := Action.bind_ok.mp run
    obtain ⟨-, rfl⟩ := Grammar.resolve_ok.mp resolved
    obtain ⟨_, g₂, defined, run⟩ := Action.bind_ok.mp run
    obtain ⟨name', waiting, rfl⟩ := Grammar.define_ok.mp defined
    obtain ⟨node, there, label⟩ := name?_eq_some.mp named
    have there := (lower_old lowered (Grammar.lt_size_of_get? there)).trans there
    refine ih run (name?_eq_some.mpr ?_)
    rw [Grammar.get?_revised, there]
    split
    · rename_i same
      subst same
      cases there.symm.trans waiting
      exact ⟨_, rfl, label⟩
    · exact ⟨node, rfl, label⟩

/-- When all rules are declared and defined, every name is that of its nonterminal. -/
theorem defined_name? {g₁ : Grammar L}
    (declared : Grammar.declareAll [] (rules.map Prod.fst) Grammar.initial = .ok (names, g₁))
    (defined : Grammar.defineAll names rules g₁ = .ok ((), g))
    (found : names.lookup name = some id) : g.name? id = some name := by
  obtain ⟨names', g₁', declared', pending, known⟩ :=
    exists_declared (L := L) (declareAll_nodup declared).1
  cases declared.symm.trans declared'
  obtain ⟨id', found', there⟩ := pending name ((known name).mp (by rw [found]; rfl))
  cases found.symm.trans found'
  exact defineAll_name? defined (name?_eq_some.mpr ⟨_, there, rfl⟩)

/-- The start of a list of rules is the nonterminal of that name. -/
theorem ofRules_name? (built : Grammar.ofRules rules start = .ok (id, g)) :
    g.name? id = some start := by
  obtain ⟨names, g₁, declared, defined, found⟩ := Grammar.ofRules_ok built
  exact defined_name? declared defined found

variable [DecidableEq L] {links : Links} {W : World} {culling : Bool}

theorem Turns.name? (h : Turns W g culling place g') (good : Good links W g)
    (named : g.name? x = some name) (hx : place x = some y) : g'.name? y = some name := by
  obtain ⟨node, there, label⟩ := name?_eq_some.mp named
  refine name?_eq_some.mpr ?_
  cases h with
  | evaluates evaluated =>
    cases hx
    obtain ⟨node', there', becomes⟩ := evaluated.extension.node x node there
    exact ⟨node', there', becomes.name?_eq.trans label⟩
  | stays arena =>
    cases hx
    exact ⟨node, arena ▸ there, label⟩
  | culls run =>
    cases hx
    obtain ⟨node', there', recast⟩ := (cull_changes good run).2.node x node there
    exact ⟨node', there', recast.name?_eq.trans label⟩
  | collects _ moved => exact ⟨_, (moved.part hx there).1, node.name?_relocate.trans label⟩

theorem enactAll_name? {fuel : Nat} {deeds : List (Deed L)} (good : Good links W g)
    (run : Grammar.enactAll fuel deeds g = .ok (u, g')) (named : g.name? x = some name)
    (followed : Grammar.follow (Grammar.enact fuel) Deed.place deeds g x = some y) :
    g'.name? y = some name := by
  refine (enactAll_follow (Q := fun g x => (∃ W, Good links W g) ∧ g.name? x = some name)
    (fun d u g g' x y h run hx => ?_) ⟨⟨W, good⟩, named⟩ run followed).2
  obtain ⟨⟨W, good⟩, named⟩ := h
  have turns := enact_turns W good.formed run
  exact ⟨turns.good good, turns.name? good named hx⟩

end Start

/-! ## In step -/

/-- The redundant fields agree, and what a node of the chain matches, the node before it matches
after the symbol in between. -/
structure Books.InStep {L : Type} (b : Books L) : Prop where
  chain_length : b.chain.length = b.input.length + 1
  input_length : b.input.length = b.steps
  current : b.chain.getLast? = some b.current
  start : b.chain[0]? = some b.start
  neighbours : ∀ (i : Nat) x y s w, b.chain[i]? = some x → b.chain[i + 1]? = some y →
    b.input[i]? = some s → b.grammar.Matches y w → b.grammar.Matches x (s.kind :: w)

section InStep

variable {L : Type} [DecidableEq L] {links : Links} {r r₀ : Recognizer L} {source : Source}
  {settings : Settings}

theorem Recognizer.Linked.inStep (h : r.Linked links) : r.books.InStep where
  chain_length := r.length_chain
  input_length := r.length_input
  current := r.getLast?_chain
  start := rfl
  neighbours _ _ _ _ _ hx hy hs matched := h.matches_cons hx hy hs matched

theorem recognizer_linked (built : source.recognizer settings = .ok r₀) :
    r₀.Linked source.links := by
  obtain ⟨W, g, start, rfl, founded, -⟩ := exists_founded built
  refine ⟨founded.reliable, fun x member => ?_, fun i x y s _ hy => ?_⟩
  · obtain rfl := List.mem_singleton.mp member
    exact founded.range
  · cases hy

/-- Books are opened with what was built, and given enough fuel they are kept through any calls,
unless the period is of no steps and a symbol is consumed. Whatever was called, they are the books
of the recognizer after the same calls, and they are in step: there is one node more than there are
symbols, which are those that were consumed since the last time it was taken back to its start; the
chain leads from the start to the current node, each one matching what the next one matches after
the symbol in between; and the start is where the node that it was built with went, the nonterminal
of that name where there are rules. -/
theorem books_in_step (built : source.recognizer settings = .ok r₀) (calls : List (Call L)) :
    source.books settings = .ok r₀.books ∧
      ((∃ b, Answers (fun fuel => Books.callAll fuel calls) r₀.books ((), b)) ∨
        (settings.collectEvery = some 0 ∧ ∃ c ∈ calls, c.consumes) ∧
          Fails (fun fuel => Books.callAll fuel calls) r₀.books (.outOfRange 0)) ∧
      ∀ fuel b, Books.callAll fuel calls r₀.books = .ok ((), b) →
        (∃ r, source.after settings fuel calls = .ok r ∧ r.books = b) ∧ b.InStep ∧
        b.input = Recognizer.consumed fuel calls [] r₀ ∧
        (∃ deeds, Grammar.enactAll fuel deeds r₀.grammar = .ok ((), b.grammar) ∧
          Grammar.follow (Grammar.enact fuel) Deed.place deeds r₀.grammar r₀.start = some b.start) ∧
        ∀ rules start, source = .ruled rules start → b.grammar.name? b.start = some start := by
  have linked := recognizer_linked built
  refine ⟨by rw [source_books, built]; rfl, ?_, fun fuel b run => ?_⟩
  · obtain ⟨settles, breaks_iff, -⟩ := calls_settled built calls
    have kept (fuel : Nat) :
        Accounts (Books.callAll fuel calls) (Recognizer.callAll fuel calls) r₀ :=
      .callAll calls linked
    rcases settles with ⟨_, r, ⟨n, answers⟩, -⟩ | broken
    · refine .inl ⟨r.books, n, fun fuel enough => (kept fuel).trans ?_⟩
      exact congrArg (Except.map _) (answers fuel enough)
    · obtain ⟨n, fails⟩ := broken.fails
      refine .inr ⟨breaks_iff.mp broken, n, fun fuel enough => (kept fuel).trans ?_⟩
      exact congrArg (Except.map _) (fails fuel enough)
  · rw [Accounts.callAll calls linked] at run
    cases called : Recognizer.callAll fuel calls r₀ with
    | error e =>
      rw [called] at run
      cases run
    | ok p =>
      obtain ⟨u, r⟩ := p
      rw [called] at run
      cases run
      obtain ⟨deeds, done, followed⟩ := Recognizing.Tracks.callAll calls _ _ _ called
      have entered := input_consumed called
      refine ⟨⟨r, after_ok.mpr ⟨r₀, built, called⟩, rfl⟩, (linked.callAll called).inStep, ?_,
        ⟨deeds, done, followed⟩, ?_⟩
      · obtain ⟨_, _, _, rfl, -⟩ := exists_founded built
        exact entered
      · rintro rules start rfl
        obtain ⟨id, g, made, rfl⟩ := ofRules_ok built
        obtain ⟨W, good⟩ := linked.reliable.between
        exact enactAll_name? good done (ofRules_name? made) followed

/-- With a collection after every step, of a grammar that is left recursive. -/
theorem books_in_step_leftRecursive : ∃ (r₀ : Recognizer String) (b : Books String),
    leftRecursive.recognizer (({} : Settings).withCollectEvery 1) = .ok r₀ ∧
      Books.callAll 30 [.parse [⟨2, "a"⟩], .feed ⟨2, "b"⟩, .accepted] r₀.books = .ok ((), b) ∧
        b.InStep ∧
        b.input = Recognizer.consumed 30 [.parse [⟨2, "a"⟩], .feed ⟨2, "b"⟩, .accepted] [] r₀ ∧
          b.grammar.name? b.start = some "S" := by
  let settings := ({} : Settings).withCollectEvery 1
  let calls : List (Call String) := [.parse [⟨2, "a"⟩], .feed ⟨2, "b"⟩, .accepted]
  obtain ⟨r₀, built⟩ := leftRecursive_made settings
  have kept : ((leftRecursive.books settings : Except Error (Books String)) >>=
      fun b => Books.callAll 30 calls b).isOk =
      true := by decide +kernel
  obtain ⟨opened, -, all⟩ := books_in_step built calls
  rw [opened] at kept
  obtain ⟨⟨_, b⟩, run⟩ := exists_of_isOk kept
  obtain ⟨-, step, input, -, name⟩ := all 30 b run
  exact ⟨r₀, b, built, run, step, input, name _ _ rfl⟩

end InStep

end DerivativeParsing
