import DerivativeParsing.Proofs.Collections
import DerivativeParsing.Proofs.Parsing

/-!
# The same forest, read in two ways

After a run the forest is read with the help of the nodes that were left after each symbol: they say
where the matches of the start end. The trees of an input may also be read off the grammar as it was
built, which then finds out by itself where they end.

1. `recognizeForest_settles`: the forest of a run has the trees that the start bears, also if the
   run stopped early.
2. `forest_reread`: both forests are the same, unless rules are entangled. Without the nodes of a
   run the start is asked at once whether it matches the empty word; with them, it is derived first.
-/

namespace DerivativeParsing

/-! ## The forest of a run -/

section Run

variable {L : Type} [DecidableEq L] {links : Links} {origin : Meaning} {g : Grammar L}
  {start : NodeId} {W : World} {r : Recognizer L}

/-- Given enough fuel, an input is run and its forest is read. If rules are stored rightly, then
exactly what is derived is accepted, and the forest is what the start gives over the whole input; if
the run stopped early, that is nothing. -/
theorem recognizeForest_settles (h : Consistent links origin W r)
    (rooted : ∃ O, Rooted (g.readings start) O W r.grammar r.start) (symbols : List (Symbol L)) :
    r.Settles (fun fuel => Recognizer.recognizeForest fuel symbols) fun p r' =>
      ∃ W', Follows links origin W r W' r' ∧
      (Assured links W r W' r' → (p.1 = true ↔ g.Derivable symbols ⟨start, 0, symbols.length⟩) ∧
        (g.readings start).Gives symbols p.2) := by
  refine (recognize_settles h symbols).bind (fun _ _ ⟨_, recognized⟩ => recognized.follows.settings)
    fun o r₁ ⟨W₁, recognized⟩ => ?_
  have consistent := recognized.follows.consistent
  have rooted' := recognized.follows.rooted _ rooted
  obtain ⟨O, rooted₁⟩ := rooted'
  obtain ⟨f, W', g', reading, carries, reaps⟩ := exists_forest consistent rooted₁
  refine .inl ⟨(o.accepted, f), r₁.withGrammar g', .bind reading (.const rfl), W',
    recognized.follows.trans (consistent.carried carries), fun assured => ?_⟩
  have trust := carries.trust assured.trust
  have accepted : o.accepted = true ↔ g.Derivable symbols ⟨start, 0, symbols.length⟩ := by
    rw [show g.Derivable symbols ⟨start, 0, symbols.length⟩ ↔
      _ from (h.holds_iff rooted symbols).symm]
    exact ⟨recognized.sound, recognized.complete assured.remembers assured.trusting trust⟩
  refine ⟨accepted, ?_⟩
  cases yes : o.accepted with
  | true =>
    have bears := reaps.bears ⟨recognized.exact assured.remembers assured.trusting, assured.trust⟩
    rwa [recognized.input yes] at bears
  | false =>
    -- a tree of what was consumed would make it accepted
    have rejected : ¬o.accepted = true := by rw [yes]; exact Bool.false_ne_true
    have none : f = .empty := by
      refine Forest.eq_empty fun t ht => rejected ?_
      have holds := (consistent.holds_iff ⟨O, rooted₁⟩ r₁.input).mpr ⟨t, (reaps.sound t ht).2⟩
      exact recognized.consumed assured.remembers assured.trusting trust holds
    have bears : g.Bears symbols ∅ ⟨start, 0, symbols.length⟩ .empty :=
      .none (mt accepted.mpr rejected)
    exact ⟨.empty, bears, none⟩

end Run

/-! ## Two ways -/

section Reread

variable {L : Type} [DecidableEq L] {source : Source} {settings : Settings} {r : Recognizer L}
  {fuel : Nat} {symbols : List (Symbol L)}

/-- The forest of a run over an input, and the trees of the input that are read off the grammar as
it was built, are the same in the same order, the empty tree left out; and if the input is not
accepted, there are none. The exception is that rules are entangled, and, without collections, that
one of them is stored wrongly. Only the run may break. -/
theorem forest_reread (built : source.recognizer settings = .ok r) (symbols : List (Symbol L)) :
    ∃ found g', Answers (fun fuel => Grammar.parseTrees fuel r.start symbols) r.grammar
      (found, g') ∧
      r.Settles (fun fuel => Recognizer.recognizeForest fuel symbols) fun p r' =>
        p.2 = found.filter (fun t => !t.isNil) ∧ (p.1 = false → p.2 = .empty ∧ found = .empty) ∨
          source.links.Entangled ∧
            (settings.collectEvery = none → r'.grammar.Misled ∨ g'.Misled) := by
  obtain ⟨W, consistent, exact, rfl, -, O, rooted⟩ := recognizer_consistent built
  have trusting : Trusting source.links W r.grammar → Trusting source.links W r.grammar := id
  obtain ⟨found, W₁, g', reading, carries, sound, bears⟩ :=
    exists_parseTrees rooted consistent.good trusting symbols
  refine ⟨found, g', reading, ?_⟩
  refine (recognizeForest_settles consistent ⟨O, rooted⟩ symbols).imp
    fun p r' ⟨W', follows, spec⟩ => ?_
  have outcomes := both_or_misled (follows.assured_or_misled fun _ => exact)
    ((consistent.carried carries).assured_or_misled fun _ => exact)
  refine outcomes.imp_left fun ⟨assured, assured₁⟩ => ?_
  obtain ⟨accepted, gives⟩ := spec assured
  have bears := bears ⟨assured₁.trusting, assured₁.trust⟩
  have same : p.2 = found.filter fun t => !t.isNil := gives.unique ⟨found, bears, rfl⟩
  refine ⟨same, fun rejected => ?_⟩
  have none : found = .empty := Forest.eq_empty fun t ht => by
    have yes := accepted.mpr ⟨t, sound t ht⟩
    exact Bool.false_ne_true (rejected.symm.trans yes)
  exact ⟨by rw [same, none]; rfl, none⟩

theorem forest_reread_leftRecursive : ∃ r : Recognizer String, leftRecursive.recognizer {} = .ok r ∧
    ∃ found g', Answers (fun fuel => Grammar.parseTrees fuel r.start [⟨2, "a"⟩, ⟨2, "b"⟩]) r.grammar
      (found, g') ∧
      ∃ p r', Answers (fun fuel => Recognizer.recognizeForest fuel [⟨2, "a"⟩, ⟨2, "b"⟩]) r (p, r') ∧
        (p.2 = found.filter (fun t => !t.isNil) ∧ (p.1 = false → p.2 = .empty ∧ found = .empty) ∨
          leftRecursive.links.Entangled ∧
            (({} : Settings).collectEvery = none → r'.grammar.Misled ∨ g'.Misled)) := by
  obtain ⟨r, built⟩ := leftRecursive_made {}
  obtain ⟨found, g', reading, settles⟩ := forest_reread built [⟨2, "a"⟩, ⟨2, "b"⟩]
  have period : r.settings.collectEvery ≠ some 0 := settings_of_recognizer built ▸ nofun
  exact ⟨r, built, found, g', reading, settles.answers period⟩

/-- How many trees are read off a run over an input, and how many off the grammar as it was built,
if the fuel lasts. -/
def Source.rereads? (source : Source) (settings : Settings) (fuel : Nat)
    (symbols : List (Symbol L)) : Option (Nat × Nat) :=
  match source.recognizer settings with
  | .ok r =>
    match Recognizer.recognizeForest fuel symbols r,
      Grammar.parseTrees fuel r.start symbols r.grammar with
    | .ok (p, _), .ok (found, _) => some (p.2.size, found.size)
    | _, _ => none
  | .error _ => none

theorem exists_of_rereads? {m n : Nat} (h : source.rereads? settings fuel symbols = some (m, n)) :
    ∃ r p r' found g', source.recognizer settings = .ok r ∧
      Answers (fun fuel => Recognizer.recognizeForest fuel symbols) r (p, r') ∧
        Answers (fun fuel => Grammar.parseTrees fuel r.start symbols) r.grammar (found, g') ∧
          p.2.size = m ∧ found.size = n := by
  unfold Source.rereads? at h
  cases built : (source.recognizer settings : Except Error (Recognizer L)) with
  | error => simp only [built] at h; cases h
  | ok r =>
    simp only [built] at h
    cases run : Recognizer.recognizeForest fuel symbols r with
    | error => simp only [run] at h; cases h
    | ok q =>
      cases reading : Grammar.parseTrees fuel r.start symbols r.grammar with
      | error => simp only [run, reading] at h; cases h
      | ok q' =>
        simp only [run, reading, Option.some.injEq, Prod.mk.injEq] at h
        have recognizing : Lasts fuel fun n => Recognizer.recognizeForest n symbols :=
          Lasts.bind (fun _ _ run => recognize_answers run) fun _ =>
            lasts_forest.bind fun _ => .const _
        exact ⟨r, q.1, q.2, q'.1, q'.2, rfl, recognizing _ _ run,
          Grammar.lasts_parseTrees _ _ _ _ reading, h.1, h.2⟩

/-- Two rules that stand for one another, before a token or alone; the first may be empty. -/
def recurring : Source :=
  .ruled [("A", .alt (.cat (.rule "B") (.token 4)) .epsilon), ("B", .rule "A")] "A"

/-- The input is accepted and has a tree. But if the trees are read off the grammar as it was built,
the first rule is asked before anything else whether it matches the empty word. Then the second is
asked for its sake, and stored as not matching it. -/
theorem parseTrees_misses_recurring : ∃ (r : Recognizer String) (p : Bool × Forest (Symbol String))
    (r' : Recognizer String) (found : Forest (Symbol String)) (g' : Grammar String),
      recurring.recognizer {} = .ok r ∧
      Answers (fun fuel => Recognizer.recognizeForest fuel [⟨4, "d"⟩]) r (p, r') ∧
        Answers (fun fuel => Grammar.parseTrees fuel r.start [⟨4, "d"⟩]) r.grammar (found, g') ∧
          p.2.size = 1 ∧ found.size = 0 :=
  exists_of_rereads?
    (show recurring.rereads? {} 30 [(⟨4, "d"⟩ : Symbol String)] = some (1, 0) by decide +kernel)

end Reread

end DerivativeParsing
