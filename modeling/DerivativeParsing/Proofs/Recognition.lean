import DerivativeParsing.Proofs.Depicting
import DerivativeParsing.Proofs.Running

/-!
# Recognition

What a recognizer answers, compared with what its description derives.

1. A `Source` is what a recognizer is built from, a `Call` what may be asked of it; `Source.after`
   is the recognizer after a history of calls.
2. `derives_of_recognize`: what is accepted is derived, whatever happened before.
3. `recognize_complete`: what is derived is accepted, unless a rule was stored as not matching the
   empty word that it matches. That takes two rules one of which leads to the other and may be alone
   in it.
4. `recognize_after`: under the same exception, history does not matter.
5. `plain_exact`: without rules there is no exception, and the recognizer knows when nothing can
   match.
-/

namespace DerivativeParsing

variable {L : Type}

/-! ## Histories -/

/-- What a recognizer is built from: a language without rules, or a list of rules and a start. -/
inductive Source
  | plain (lang : Language)
  | ruled (rules : List (String × Language)) (start : String)

namespace Source

def context : Source → List (String × Language)
  | plain _ => []
  | ruled rules _ => rules

/-- The language of the start. -/
def lang : Source → Language
  | plain lang => lang
  | ruled _ start => .rule start

/-- Whether the kinds of an input are a word of the start. -/
def Derives (source : Source) (symbols : List (Symbol L)) : Prop :=
  source.lang.Derives source.context (symbols.map Symbol.kind)

/-- How the rules lead to one another. -/
def links (source : Source) : Links := Language.links source.context

/-- What the start stands for. -/
def origin (source : Source) : Meaning := source.lang.meaning source.context

/-- Whether there are no rules. -/
def isPlain : Source → Bool
  | plain _ => true
  | ruled _ _ => false

def recognizer (settings : Settings) : Source → Except Error (Recognizer L)
  | plain lang => Recognizer.ofLanguage lang settings
  | ruled rules start => Recognizer.ofRules rules start settings

end Source

/-- The recognizer for a source after a history of calls. -/
def Source.after [DecidableEq L] (source : Source) (settings : Settings) (fuel : Nat)
    (calls : List (Call L)) : Except Error (Recognizer L) := do
  let r ← source.recognizer settings
  let (_, r) ← Recognizer.callAll fuel calls r
  return r

/-- What is answered to an input after a history of calls, if the fuel lasts. -/
def Source.answer? [DecidableEq L] (source : Source) (settings : Settings) (fuel : Nat)
    (calls : List (Call L)) (symbols : List (Symbol L)) : Option Bool :=
  match source.after settings fuel calls with
  | .ok r =>
    match Recognizer.recognize fuel symbols r with
    | .ok (o, _) => some o.accepted
    | .error _ => none
  | .error _ => none

/-! ## The invariant of a history -/

section History

variable [DecidableEq L] {links : Links} {origin : Meaning} {W : World} {r r' r₀ : Recognizer L}
  {g : Grammar L} {source : Source} {settings : Settings} {fuel : Nat} {calls : List (Call L)}
  {c : Call L} {start : NodeId} {symbols : List (Symbol L)} {rules : List (String × Language)}
  {lang : Language} {start' : String}

theorem call_follows {u : Unit} (h : Consistent links origin W r)
    (run : Recognizer.call fuel c r = .ok (u, r')) : ∃ W', Follows links origin W r W' r' := by
  cases c with
  | feed s =>
    obtain ⟨alive, r₁, hf, run⟩ := Action.bind_ok.mp run
    obtain ⟨-, rfl⟩ := Action.pure_ok.mp run
    obtain ⟨W', fed⟩ := feed_fed h hf
    exact ⟨W', fed.follows⟩
  | accepted =>
    obtain ⟨b, r₁, ha, run⟩ := Action.bind_ok.mp run
    obtain ⟨-, rfl⟩ := Action.pure_ok.mp run
    obtain ⟨W', asked⟩ := accepted_asked h ha
    exact ⟨W', asked.follows⟩
  | recognize symbols =>
    obtain ⟨o, r₁, hr, run⟩ := Action.bind_ok.mp run
    obtain ⟨-, rfl⟩ := Action.pure_ok.mp run
    obtain ⟨W', recognized⟩ := recognize_recognized h hr
    exact ⟨W', recognized.follows⟩
  | parse symbols =>
    obtain ⟨f, r₁, hp, run⟩ := Action.bind_ok.mp run
    obtain ⟨-, rfl⟩ := Action.pure_ok.mp run
    exact parse_follows h hp
  | forest =>
    obtain ⟨f, r₁, hf, run⟩ := Action.bind_ok.mp run
    obtain ⟨-, rfl⟩ := Action.pure_ok.mp run
    exact forest_follows h hf
  | reset =>
    obtain rfl := Action.modify_ok.mp run
    exact ⟨W, h.reset⟩

/-- What each of some calls keeps, all of them keep. By induction on the history. -/
theorem callAll_induct {P : Recognizer L → Prop} {u : Unit}
    (step : ∀ c ∈ calls, ∀ u r r', P r → Recognizer.call fuel c r = .ok (u, r') → P r') (h : P r)
    (run : Recognizer.callAll fuel calls r = .ok (u, r')) : P r' := by
  induction calls generalizing r with
  | nil =>
    obtain ⟨-, rfl⟩ := Action.pure_ok.mp run
    exact h
  | cons c rest ih =>
    obtain ⟨_, r₁, first, run⟩ := Action.bind_ok.mp run
    exact ih (fun c member => step c (.tail _ member)) (step c (.head _) _ _ _ h first) run

theorem callAll_follows {u : Unit} (h : Consistent links origin W r)
    (run : Recognizer.callAll fuel calls r = .ok (u, r')) :
    ∃ W', Follows links origin W r W' r' := by
  refine callAll_induct (P := fun r' => ∃ W', Follows links origin W r W' r') ?_ ⟨W, .refl h⟩ run
  rintro c - u r₁ r₂ ⟨W₁, follows⟩ first
  obtain ⟨W₂, follows'⟩ := call_follows follows.consistent first
  exact ⟨W₂, follows.trans follows'⟩

/-- A recognizer that was just made has consumed nothing. -/
theorem Founded.consistent (h : Founded links origin W g start) (settings : Settings) :
    Consistent links origin W { grammar := g, start, settings } where
  good := h.good
  range id hid := by
    obtain rfl := List.mem_singleton.mp hid
    exact h.range
  start := h.origin
  chain k id there := by
    obtain ⟨rfl, rfl⟩ := Recognizer.getElem?_chain_start rfl there
    show (W _).Refines origin
    rw [h.origin]
    exact .refl origin

theorem Founded.exact (h : Founded links origin W g start) (settings : Settings) :
    Exact links origin W { grammar := g, start, settings } where
  trusting k _ := h.complete k
  chain _ k id there := by
    obtain ⟨rfl, rfl⟩ := Recognizer.getElem?_chain_start rfl there
    show origin.words.Under (W _).words
    rw [h.origin]
    exact .refl _

omit [DecidableEq L] in
theorem ofGrammar_ok (h : Recognizer.ofGrammar g start settings = .ok r) :
    { grammar := g, start, settings } = r := by
  unfold Recognizer.ofGrammar at h
  cases valid : g.validate start with
  | error e =>
    rw [valid] at h
    cases h
  | ok =>
    rw [valid] at h
    exact Except.ok.inj h

omit [DecidableEq L] in
theorem ofRules_ok (h : Recognizer.ofRules rules start' settings = .ok r) : ∃ start g,
    Grammar.ofRules rules start' = .ok (start, g) ∧ { grammar := g, start, settings } = r := by
  unfold Recognizer.ofRules at h
  cases built : (Grammar.ofRules rules start' : Except Error (NodeId × Grammar L)) with
  | error e =>
    rw [built] at h
    cases h
  | ok p =>
    rw [built] at h
    exact ⟨p.1, p.2, rfl, ofGrammar_ok h⟩

omit [DecidableEq L] in
theorem ofLanguage_ok (h : Recognizer.ofLanguage lang settings = .ok r) : ∃ start g,
    Grammar.ofLanguage lang = .ok (start, g) ∧ { grammar := g, start, settings } = r := by
  unfold Recognizer.ofLanguage at h
  cases built : (Grammar.ofLanguage lang : Except Error (NodeId × Grammar L)) with
  | error e =>
    rw [built] at h
    cases h
  | ok p =>
    rw [built] at h
    exact ⟨p.1, p.2, rfl, ofGrammar_ok h⟩

theorem exists_ofLanguage (plain : lang.isPlain) (settings : Settings) :
    ∃ r : Recognizer L, Recognizer.ofLanguage lang settings = .ok r := by
  obtain ⟨start, g, built⟩ :
      ∃ start g, (Grammar.ofLanguage lang : Except Error (NodeId × Grammar L)) = .ok (start, g) :=
    exists_lower (fun name member => by simp [Language.references_of_isPlain plain] at member)
      Grammar.initial
  obtain ⟨regular, W, founded⟩ := ofLanguage_founded built
  have valid := Grammar.validate_ok (founded.good.formed.ranged true) founded.range
    fun id name there => (regular id _ there).2 name rfl
  refine ⟨{ grammar := g, start, settings }, ?_⟩
  unfold Recognizer.ofLanguage Recognizer.ofGrammar
  rw [built]
  show Except.bind (g.validate start) _ = _
  rw [valid]
  rfl

omit [DecidableEq L] in
/-- The start derives the trees that the description has. -/
theorem derivation_iff_yields (h : source.recognizer settings = .ok r) {input : List (Symbol L)}
    {i j : Nat} {t : Tree (Symbol L)} :
    r.grammar.Derivation input r.start i j t ↔ source.lang.Yields source.context input i j t := by
  cases source with
  | plain lang =>
    obtain ⟨start, g, built, rfl⟩ := ofLanguage_ok h
    exact (Grammar.draws_nil g).derivation_iff (Grammar.lower_depicts built).2
  | ruled rules start' =>
    obtain ⟨start, g, built, rfl⟩ := ofRules_ok h
    obtain ⟨names, draws, depicts⟩ := Grammar.ofRules_draws built
    exact draws.derivation_iff depicts

omit [DecidableEq L] in
/-- The graph does not depend on the settings. -/
theorem recognizer_grammar {settings' : Settings} (h : source.recognizer settings = .ok r)
    (h' : source.recognizer settings' = .ok r') : r.grammar = r'.grammar ∧ r.start = r'.start := by
  cases source with
  | plain lang =>
    obtain ⟨start, g, built, rfl⟩ := ofLanguage_ok h
    obtain ⟨start', g', built', rfl⟩ := ofLanguage_ok h'
    cases built.symm.trans built'
    exact ⟨rfl, rfl⟩
  | ruled rules name =>
    obtain ⟨start, g, built, rfl⟩ := ofRules_ok h
    obtain ⟨start', g', built', rfl⟩ := ofRules_ok h'
    cases built.symm.trans built'
    exact ⟨rfl, rfl⟩

theorem exists_of_isOk {ε α : Type} {result : Except ε α} (h : result.isOk = true) :
    ∃ a, result = .ok a := by
  cases result with
  | error => cases h
  | ok a => exact ⟨a, rfl⟩

theorem exists_of_any {ε α : Type} {result : Except ε α} {p : α → Bool}
    (h : result.toOption.any p = true) : ∃ a, result = .ok a ∧ p a = true := by
  cases result with
  | error => cases h
  | ok a => exact ⟨a, rfl, h⟩

omit [DecidableEq L] in
/-- The settings are only taken along: whether a recognizer is made does not depend on them. -/
theorem recognizer_settings (source : Source) (settings settings' : Settings) :
    (source.recognizer settings' : Except Error (Recognizer L)) =
      (source.recognizer settings).map fun r => { r with settings := settings' } := by
  have ofGrammar (g : Grammar L) (start : NodeId) : Recognizer.ofGrammar g start settings' =
      (Recognizer.ofGrammar g start settings).map fun r => { r with settings := settings' } := by
    unfold Recognizer.ofGrammar
    cases g.validate start <;> rfl
  have lowered (made : Except Error (NodeId × Grammar L)) :
      (made >>= fun p => Recognizer.ofGrammar p.2 p.1 settings') =
        (made >>= fun p => Recognizer.ofGrammar p.2 p.1 settings).map fun r =>
        { r with settings := settings' } := by
    cases made with
    | error => rfl
    | ok p => exact ofGrammar p.2 p.1
  cases source with
  | plain lang => exact lowered (Grammar.ofLanguage lang)
  | ruled rules start => exact lowered (Grammar.ofRules rules start)

omit [DecidableEq L] in
theorem exists_recognizer (made : (source.recognizer {} : Except Error (Recognizer L)).isOk = true)
    (settings : Settings) : ∃ r : Recognizer L, source.recognizer settings = .ok r := by
  obtain ⟨r, built⟩ := exists_of_isOk made
  rw [recognizer_settings source {} settings, built]
  exact ⟨_, rfl⟩

/-- A recognizer that was just made has consumed nothing, and its grammar is as it was built. -/
theorem exists_founded (h : source.recognizer settings = .ok r) : ∃ W g start,
    { grammar := g, start, settings } = r ∧ Founded source.links source.origin W g start ∧
      (source.isPlain → g.Regular) := by
  cases source with
  | plain lang =>
    obtain ⟨start, g, built, rfl⟩ := ofLanguage_ok h
    obtain ⟨regular, W, founded⟩ := ofLanguage_founded built
    exact ⟨W, g, start, rfl, founded, fun _ => regular⟩
  | ruled rules start' =>
    obtain ⟨start, g, built, rfl⟩ := ofRules_ok h
    obtain ⟨W, founded⟩ := ofRules_founded built
    exact ⟨W, g, start, rfl, founded, nofun⟩

theorem recognizer_consistent (h : source.recognizer settings = .ok r) :
    ∃ W, Consistent source.links source.origin W r ∧ Exact source.links source.origin W r ∧
      r.settings = settings ∧ (source.isPlain → r.grammar.Regular) ∧
        ∃ O, Rooted (r.grammar.readings r.start) O W r.grammar r.start := by
  obtain ⟨W, g, start, rfl, founded, regular⟩ := exists_founded h
  exact ⟨W, founded.consistent settings, founded.exact settings, rfl, regular, _, founded.rooted⟩

theorem after_ok : source.after settings fuel calls = .ok r ↔
    ∃ r₀, source.recognizer settings = .ok r₀ ∧ Recognizer.callAll fuel calls r₀ = .ok ((), r) := by
  unfold Source.after
  cases source.recognizer settings with
  | error e => exact ⟨fun h => (by cases h), fun ⟨_, h, _⟩ => (by cases h)⟩
  | ok r₀ =>
    show (Recognizer.callAll fuel calls r₀ >>= fun p => pure p.2) = .ok r ↔ _
    cases run : Recognizer.callAll fuel calls r₀ with
    | error e =>
      refine ⟨fun h => (by cases h), fun ⟨_, same, h⟩ => ?_⟩
      cases Except.ok.inj same
      cases run.symm.trans h
    | ok p =>
      constructor
      · intro h
        cases Except.ok.inj h
        exact ⟨r₀, rfl, run⟩
      · rintro ⟨_, same, h⟩
        cases Except.ok.inj same
        cases run.symm.trans h
        rfl

theorem after_error {e : Error} (built : source.recognizer settings = .ok r₀)
    (run : Recognizer.callAll fuel calls r₀ = .error e) :
    source.after settings fuel calls = .error e := by
  rw [Source.after, built]
  show (Recognizer.callAll fuel calls r₀ >>= fun p => pure p.2) = _
  rw [run]
  rfl

/-- After any history nothing is claimed too much, and nothing too little, if what was stored
wrongly is remembered. The start reads what it did when it was built. -/
theorem after_consistent (h : source.after settings fuel calls = .ok r) :
    ∃ W, Consistent source.links source.origin W r ∧
      (r.Remembers source.links → Exact source.links source.origin W r) ∧
        r.settings = settings ∧ (source.isPlain → r.grammar.Regular) ∧
          ∀ r₀, source.recognizer settings = .ok r₀ →
            ∃ O, Rooted (r₀.grammar.readings r₀.start) O W r.grammar r.start := by
  obtain ⟨r₀, built, run⟩ := after_ok.mp h
  obtain ⟨W₀, consistent, exact, rfl, regular, rooted⟩ := recognizer_consistent built
  obtain ⟨W, follows⟩ := callAll_follows consistent run
  refine ⟨W, follows.consistent, fun remembers => follows.exact ?_ exact, follows.settings,
    fun plain => follows.regular (regular plain), fun r₁ built' => ?_⟩
  · unfold Recognizer.Remembers at remembers ⊢
    rwa [← follows.settings]
  · cases built.symm.trans built'
    exact follows.rooted _ rooted

theorem settings_of_after (h : source.after settings fuel calls = .ok r) :
    r.settings = settings := by
  obtain ⟨W, -, -, same, -⟩ := after_consistent h
  exact same

theorem after_nil (fuel : Nat) (built : source.recognizer settings = .ok r) :
    source.after settings fuel [] = .ok r :=
  after_ok.mpr ⟨r, built, rfl⟩

theorem settings_of_recognizer (built : source.recognizer settings = .ok r) :
    r.settings = settings :=
  settings_of_after (after_nil 0 built)

/-- The start is never the node that matches nothing, not even if it matches nothing. -/
theorem after_alive (h : source.after settings fuel calls = .ok r) : r.start ≠ Grammar.nothing := by
  obtain ⟨r₀, built, run⟩ := after_ok.mp h
  obtain ⟨W₀, g, start, rfl, founded, -⟩ := exists_founded built
  obtain ⟨W, follows⟩ := callAll_follows (founded.consistent settings) run
  exact follows.alive founded.alive

theorem isDead_of_recognizer (built : source.recognizer settings = .ok r) : r.isDead = false := by
  have alive := after_alive (after_nil 0 built)
  obtain ⟨W, g, start, rfl, -⟩ := exists_founded built
  exact Bool.eq_false_iff.mpr fun dead => alive (Recognizer.isDead_iff.mp dead)

/-- An input breaks the call exactly if it is not empty and the period is of no steps. -/
theorem recognize_breaks_after (h : source.after settings fuel calls = .ok r)
    (symbols : List (Symbol L)) :
    r.Breaks (fun fuel => Recognizer.recognize fuel symbols) ↔
      settings.collectEvery = some 0 ∧ symbols ≠ [] := by
  obtain ⟨W, consistent, -, rfl, -⟩ := after_consistent h
  exact recognize_breaks_iff consistent (after_alive h) symbols

theorem answer?_eq_some {answer : Bool} :
    source.answer? settings fuel calls symbols = some answer ↔ ∃ r o r',
      source.after settings fuel calls = .ok r ∧ Recognizer.recognize fuel symbols r = .ok (o, r') ∧
        o.accepted = answer := by
  unfold Source.answer?
  cases source.after settings fuel calls with
  | error => exact ⟨fun h => (by cases h), fun ⟨_, _, _, h, _⟩ => (by cases h)⟩
  | ok r =>
    cases run : Recognizer.recognize fuel symbols r with
    | error =>
      refine ⟨fun h => (by simp only [run] at h; cases h), fun ⟨_, _, _, same, h, _⟩ => ?_⟩
      cases Except.ok.inj same
      cases run.symm.trans h
    | ok p =>
      simp only [run, Option.some.injEq]
      refine ⟨fun h => ⟨r, p.1, p.2, rfl, run, h⟩, fun ⟨_, _, _, same, h, yes⟩ => ?_⟩
      cases Except.ok.inj same
      cases run.symm.trans h
      exact yes

/-- What a recognizer that was just made answers. -/
theorem exists_recognizer_of_answer? {answer : Bool}
    (h : source.answer? settings fuel [] symbols = some answer) :
    ∃ r o r', source.recognizer settings = .ok r ∧
      Recognizer.recognize fuel symbols r = .ok (o, r') ∧ o.accepted = answer := by
  obtain ⟨r, o, r', history, run, answered⟩ := answer?_eq_some.mp h
  obtain ⟨r₀, built, same⟩ := after_ok.mp history
  obtain ⟨-, rfl⟩ := Action.pure_ok.mp same
  exact ⟨r₀, o, r', built, run, answered⟩

end History

/-! ## What is answered -/

section Answers

variable [DecidableEq L] {r r₀ r' : Recognizer L} {source : Source} {settings : Settings}
  {fuel fuel' : Nat} {calls : List (Call L)} {symbols : List (Symbol L)} {o : Recognition}

/-- Whatever happened before, what is accepted is derived. -/
theorem derives_of_recognize (history : source.after settings fuel calls = .ok r)
    (run : Recognizer.recognize fuel' symbols r = .ok (o, r')) (yes : o.accepted = true) :
    source.Derives symbols := by
  obtain ⟨W, consistent, -⟩ := after_consistent history
  obtain ⟨W', recognized⟩ := recognize_recognized consistent run
  exact Language.meaning_holds.mp (recognized.sound yes)

/-- One or more tokens, with the recursion on the left. -/
def leftRecursive : Source :=
  .ruled [("S", .alt (.cat (.rule "S") (.token 2)) (.token 2))] "S"

theorem leftRecursive_made (settings : Settings) :
    ∃ r : Recognizer String, leftRecursive.recognizer settings = .ok r :=
  exists_recognizer (by decide +kernel) settings

theorem leftRecursive_used : ∃ r : Recognizer String,
    leftRecursive.after {} 30 [.parse [⟨2, "a"⟩], .feed ⟨2, "b"⟩] = .ok r :=
  exists_of_isOk (by decide +kernel)

theorem derives_of_recognize_leftRecursive :
    ∃ (r : Recognizer String) (o : Recognition) (r' : Recognizer String),
    leftRecursive.after {} 30 [.parse [⟨2, "a"⟩], .feed ⟨2, "b"⟩, .forest] = .ok r ∧
      Recognizer.recognize 30 [⟨2, "a"⟩, ⟨2, "b"⟩] r = .ok (o, r') ∧ o.accepted = true ∧
        leftRecursive.Derives [(⟨2, "a"⟩ : Symbol String), ⟨2, "b"⟩] := by
  obtain ⟨r, o, r', history, run, yes⟩ := answer?_eq_some.mp (show
    leftRecursive.answer? {} 30 [.parse [⟨2, "a"⟩], .feed ⟨2, "b"⟩, .forest]
      [(⟨2, "a"⟩ : Symbol String), ⟨2, "b"⟩] = some true by decide +kernel)
  exact ⟨r, o, r', history, run, yes, derives_of_recognize history run yes⟩

/-- What is derived is accepted, unless rules are entangled; and if nothing is collected, then one
of them is stored wrongly. -/
theorem accepted_or_misled (history : source.after settings fuel calls = .ok r)
    (run : Recognizer.recognize fuel' symbols r = .ok (o, r')) (derives : source.Derives symbols) :
    o.accepted = true ∨
      source.links.Entangled ∧ (settings.collectEvery = none → r'.grammar.Misled) := by
  obtain ⟨W, consistent, exact, rfl, -⟩ := after_consistent history
  obtain ⟨W', recognized⟩ := recognize_recognized consistent run
  exact (recognized.follows.assured_or_misled exact).imp_left fun ⟨remembers, trusting, trust⟩ =>
    recognized.complete remembers trusting trust (Language.meaning_holds.mpr derives)

/-- After any history an input is recognized or not, given enough fuel. It is accepted exactly if it
is derived, unless rules are entangled. -/
theorem recognize_settles_after (history : source.after settings fuel calls = .ok r)
    (symbols : List (Symbol L)) :
    r.Settles (fun fuel => Recognizer.recognize fuel symbols) fun o r' =>
      (o.accepted = true ↔ source.Derives symbols) ∨
        source.Derives symbols ∧ source.links.Entangled ∧
        (settings.collectEvery = none → r'.grammar.Misled) := by
  obtain ⟨W, consistent, -⟩ := after_consistent history
  refine (recognize_settles consistent symbols).of_runs fun fuel o r' run ⟨_, recognized⟩ => ?_
  by_cases derives : source.Derives symbols
  · exact (accepted_or_misled history run derives).imp
      (fun yes => iff_of_true yes derives) fun misled => ⟨derives, misled⟩
  · exact .inl ⟨fun yes => Language.meaning_holds.mp (recognized.sound yes), fun h =>
      absurd h derives⟩

/-- Given enough fuel, an input is recognized or not, and one that is derived is accepted, unless
rules are entangled. Without collections, one of them is then stored as not matching the empty word
that it matches. Only a period of no steps breaks the call. -/
theorem recognize_complete {rules : List (String × Language)} {start : String}
    (built : Recognizer.ofRules rules start settings = .ok r) (symbols : List (Symbol L)) :
    r.Settles (fun fuel => Recognizer.recognize fuel symbols) fun o r' =>
      (Language.rule start).Derives rules (symbols.map Symbol.kind) →
        o.accepted = true ∨
          (Language.links rules).Entangled ∧
            (settings.collectEvery = none → r'.grammar.Misled) := by
  have history : (Source.ruled rules start).after settings 0 [] = .ok r := after_nil 0 built
  obtain ⟨W, consistent, -⟩ := after_consistent history
  exact (recognize_settles consistent symbols).of_runs fun _ _ _ run _ =>
    accepted_or_misled history run

theorem recognize_complete_leftRecursive : ∃ r : Recognizer String,
    Recognizer.ofRules leftRecursive.context "S" {} = .ok r ∧
      ∃ o r', Answers (fun fuel => Recognizer.recognize fuel [⟨2, "a"⟩, ⟨2, "b"⟩]) r (o, r') ∧
        ((Language.rule "S").Derives leftRecursive.context [2, 2] →
          o.accepted = true ∨
            (Language.links leftRecursive.context).Entangled ∧
              (({} : Settings).collectEvery = none → r'.grammar.Misled)) := by
  obtain ⟨r, built⟩ := leftRecursive_made {}
  have same : r.settings = {} := settings_of_recognizer built
  exact ⟨r, built, (recognize_complete built [⟨2, "a"⟩, ⟨2, "b"⟩]).answers (same ▸ nofun)⟩

/-- Two rules of which each begins with the other. -/
def entwined : Source :=
  .ruled [("A", .alt (.cat (.rule "B") (.token 3)) (.token 2)), ("B", .rule "A")] "A"

/-- The second rule is first asked for the sake of the first, whether it matches the empty word, and
what it then answers is kept: after one token neither is found to match. -/
theorem recognize_misses_entwined :
    ∃ (r : Recognizer String) (o : Recognition) (r' : Recognizer String),
    Recognizer.ofRules entwined.context "A" {} = .ok r ∧
      Answers (fun fuel => Recognizer.recognize fuel [⟨2, "a"⟩, ⟨3, "x"⟩]) r (o, r') ∧
        o.accepted = false ∧ (Language.rule "A").Derives entwined.context [2, 3] := by
  obtain ⟨r, o, r', built, run, no⟩ := exists_recognizer_of_answer? (show
    entwined.answer? {} 30 [] [(⟨2, "a"⟩ : Symbol String), ⟨3, "x"⟩] = some false by decide +kernel)
  refine ⟨r, o, r', built, recognize_answers run, no, ?_⟩
  have token : (Language.rule "A").Derives entwined.context [2] :=
    .rule (.head _) (.alt_right (.token rfl))
  exact .rule (.head _) (.alt_left (.cat (.rule (.tail _ (.head _)) token) (.token rfl)))

/-- What is accepted after a history of calls is accepted without it and the other way around,
unless rules are entangled. Without collections, one of them is then stored wrongly after either
run. A call that breaks does so with a history and without it. -/
theorem recognize_after (history : source.after settings fuel calls = .ok r)
    (fresh : source.recognizer settings = .ok r₀) (symbols : List (Symbol L)) :
    r.BothSettle r₀ (fun fuel => Recognizer.recognize fuel symbols)
      (fun fuel => Recognizer.recognize fuel symbols) fun o r' o₀ r₀' =>
        o.accepted = o₀.accepted ∨ source.Derives symbols ∧ source.links.Entangled ∧
          (settings.collectEvery = none → r'.grammar.Misled ∨ r₀'.grammar.Misled) := by
  have before : source.after settings 0 [] = .ok r₀ := after_nil 0 fresh
  have alike :=
    (recognize_breaks_after history symbols).trans (recognize_breaks_after before symbols).symm
  refine ((recognize_settles_after history symbols).both (recognize_settles_after before symbols)
    alike).imp ?_
  rintro o r' o₀ r₀' ⟨accepted | ⟨derives, tangled, misled⟩, accepted₀⟩
  · rcases accepted₀ with accepted₀ | ⟨derives, tangled, misled⟩
    · exact .inl (Bool.eq_iff_iff.mpr (accepted.trans accepted₀.symm))
    · exact .inr ⟨derives, tangled, fun none => .inr (misled none)⟩
  · exact .inr ⟨derives, tangled, fun none => .inl (misled none)⟩

theorem recognize_after_leftRecursive : ∃ r r₀ : Recognizer String,
    leftRecursive.after {} 30 [.parse [⟨2, "a"⟩], .feed ⟨2, "b"⟩] = .ok r ∧
      leftRecursive.recognizer {} = .ok r₀ ∧
        ∃ o r' o₀ r₀', Answers (fun fuel => Recognizer.recognize fuel [⟨2, "a"⟩]) r (o, r') ∧
          Answers (fun fuel => Recognizer.recognize fuel [⟨2, "a"⟩]) r₀ (o₀, r₀') ∧
            (o.accepted = o₀.accepted ∨
              leftRecursive.Derives [(⟨2, "a"⟩ : Symbol String)] ∧ leftRecursive.links.Entangled ∧
                (({} : Settings).collectEvery = none →
                r'.grammar.Misled ∨ r₀'.grammar.Misled)) := by
  obtain ⟨r, history⟩ := leftRecursive_used
  obtain ⟨r₀, fresh, -⟩ := after_ok.mp history
  have period : r.settings.collectEvery ≠ some 0 := settings_of_after history ▸ nofun
  exact ⟨r, r₀, history, fresh, (recognize_after history fresh [⟨2, "a"⟩]).answers period⟩

/-- Two rules that stand for one another, one of which may be empty, behind different tokens. -/
def forked : Source :=
  .ruled [("S", .alt (.cat (.token 2) (.rule "A")) (.cat (.token 3) (.cat (.rule "B") (.token 4)))),
    ("A", .alt (.rule "B") .epsilon), ("B", .rule "A")] "S"

/-- Asking for the first rule has the second stored as not matching the empty word, which it is not
when it is asked for first. -/
theorem recognize_forked_depends :
    ∃ (r r₀ : Recognizer String) (o o₀ : Recognition) (r' r₀' : Recognizer String),
    forked.after {} 30 [.recognize [⟨2, "y"⟩]] = .ok r ∧ forked.recognizer {} = .ok r₀ ∧
      Answers (fun fuel => Recognizer.recognize fuel [⟨3, "z"⟩, ⟨4, "c"⟩]) r (o, r') ∧
        Answers (fun fuel => Recognizer.recognize fuel [⟨3, "z"⟩, ⟨4, "c"⟩]) r₀ (o₀, r₀') ∧
          o.accepted = false ∧ o₀.accepted = true := by
  have ⟨asked, unasked⟩ :
      forked.answer? {} 30 [.recognize [⟨2, "y"⟩]] [(⟨3, "z"⟩ : Symbol String), ⟨4, "c"⟩] =
      some false ∧ forked.answer? {} 30 [] [(⟨3, "z"⟩ : Symbol String), ⟨4, "c"⟩] = some true := by
      decide +kernel
  obtain ⟨r, o, r', history, run, no⟩ := answer?_eq_some.mp asked
  obtain ⟨r₀, o₀, r₀', fresh, run₀, yes⟩ := exists_recognizer_of_answer? unasked
  exact ⟨r, r₀, o, o₀, r', r₀', history, fresh, recognize_answers run,
    recognize_answers run₀, no, yes⟩

theorem forked_used : ∃ r : Recognizer String,
    forked.after (({} : Settings).withCollectEvery 1) 30
      [.parse [⟨2, "y"⟩], .feed ⟨3, "z"⟩] = .ok r :=
  exists_of_isOk (by decide +kernel)

/-! ## Languages without rules -/

theorem callAll_stopped (dead : r.settings.stopWhenDead ∧ r.isDead) (fuel : Nat)
    (symbols : List (Symbol L)) :
    Recognizer.callAll fuel (symbols.map Call.feed) r = .ok ((), r) := by
  induction symbols with
  | nil => rfl
  | cons s symbols ih =>
    have feed : Recognizer.call fuel (.feed s) r = .ok ((), r) :=
      (Action.bind_of_ok (Recognizer.feed_stopped dead)).trans rfl
    exact (Action.bind_of_ok feed).trans ih

theorem feeds_settle {links : Links} {origin : Meaning} {W : World}
    (h : Consistent links origin W r) (symbols : List (Symbol L)) :
    r.Settles (fun fuel => Recognizer.callAll fuel (symbols.map Call.feed)) fun _ r' =>
      ∃ rest, r'.input ++ rest = r.input ++ symbols ∧
        (rest = [] ∨ r'.settings.stopWhenDead ∧ r'.isDead) := by
  induction symbols generalizing W r with
  | nil => exact .inl ⟨(), r, ⟨0, fun _ _ => rfl⟩, [], rfl, .inl rfl⟩
  | cons s symbols ih =>
    by_cases dead : r.settings.stopWhenDead ∧ r.isDead
    · exact .inl ⟨(), r, ⟨0, fun fuel _ => callAll_stopped dead fuel _⟩, s :: symbols, rfl,
        .inr dead⟩
    · have first : r.Settles (fun fuel => Recognizer.call fuel (.feed s)) fun _ r₁ =>
          ∃ alive W₁, Fed links origin W r s alive W₁ r₁ :=
        (feed_settles h s).bind (fun _ _ ⟨_, fed⟩ => fed.follows.settings) fun alive r₁ ⟨W₁, fed⟩ =>
          .inl ⟨(), r₁, .const rfl, alive, W₁, fed⟩
      refine first.bind
        (fun _ _ ⟨_, _, fed⟩ => fed.follows.settings) fun _ r₁ ⟨alive, W₁, fed⟩ => ?_
      refine (ih fed.follows.consistent).imp fun _ r₂ ⟨rest, input, done⟩ => ⟨rest, ?_, done⟩
      rw [input, fed.input.resolve_right fun h => dead h.1, List.append_assoc]
      rfl

section Plain

variable {lang : Language}

theorem plain_after (history : (Source.plain lang).after settings fuel calls = .ok r) :
    ∃ W, Consistent (Language.links []) (lang.meaning []) W r ∧
      Exact (Language.links []) (lang.meaning []) W r ∧ r.settings = settings ∧
        r.grammar.Regular := by
  obtain ⟨W, consistent, exact, settings, regular, -⟩ := after_consistent history
  exact ⟨W, consistent, exact (.inl Language.not_entangled_nil), settings, regular rfl⟩

/-- Symbols can always be consumed, except every no steps. -/
theorem plain_feeds (plain : lang.isPlain) (settings : Settings) (symbols : List (Symbol L)) :
    (∃ r : Recognizer L,
      (∃ N, ∀ fuel ≥ N, (Source.plain lang).after settings fuel (symbols.map Call.feed) = .ok r) ∧
        ∃ rest, r.input ++ rest = symbols ∧ (rest = [] ∨ settings.stopWhenDead ∧ r.isDead)) ∨
      settings.collectEvery = some 0 ∧ symbols ≠ [] ∧ ∃ N, ∀ fuel ≥ N,
        (Source.plain lang).after settings fuel (symbols.map Call.feed) =
          .error (.outOfRange 0) := by
  obtain ⟨r₀, built⟩ := exists_ofLanguage (L := L) plain settings
  have built : (Source.plain lang).recognizer settings = .ok r₀ := built
  have empty : r₀.input = [] := by
    obtain ⟨start, g, -, rfl⟩ := ofLanguage_ok built
    rfl
  obtain ⟨W, consistent, -, same, -⟩ := recognizer_consistent built
  rcases feeds_settle consistent symbols with ⟨_, r, ⟨N, run⟩, rest, input, done⟩ | ⟨zero, N, fails⟩
  · have history (fuel : Nat) (le : fuel ≥ N) :
        (Source.plain lang).after settings fuel (symbols.map Call.feed) = .ok r :=
      after_ok.mpr ⟨r₀, built, run fuel le⟩
    rw [settings_of_after (history N (Nat.le_refl N))] at done
    exact .inl ⟨r, ⟨N, history⟩, rest, by rw [input, empty, List.nil_append], done⟩
  · refine .inr ⟨same ▸ zero, ?_, N, fun fuel le => after_error built (fails fuel le)⟩
    rintro rfl
    cases fails N (Nat.le_refl N)

omit [DecidableEq L] in
/-- Without rules there is nothing to be stored wrongly. -/
theorem trust_nil (W : World) (g : Grammar L) : Trust (Language.links []) W g :=
  .of_untangled Language.not_entangled_nil

theorem plain_accepted (history : (Source.plain lang).after settings fuel calls = .ok r) :
    ∃ answer r', Answers Recognizer.accepted r (answer, r') ∧
      (answer = true ↔ lang.Derives [] r.word) := by
  obtain ⟨W, consistent, exact, -⟩ := plain_after history
  obtain ⟨answer, r', N, run⟩ := exists_accepted consistent
  obtain ⟨W', asked⟩ := accepted_asked consistent (run N (Nat.le_refl N))
  refine ⟨answer, r',
    ⟨N, run⟩, fun yes => Language.meaning_holds.mp (asked.sound yes), fun derives => ?_⟩
  exact asked.complete exact (trust_nil _ _) (Language.meaning_holds.mpr derives)

/-- The current node stands for exactly what may follow. -/
theorem current_holds {W : World}
    (consistent : Consistent (Language.links []) (lang.meaning []) W r)
    (exact : Exact (Language.links []) (lang.meaning []) W r) {v : Word} :
    (W r.current).words.Holds v ↔ lang.Derives [] (r.word ++ v) := by
  rw [← Language.meaning_holds, ← Meaning.afterAll_holds]
  refine ⟨consistent.current.1 v, fun ⟨n, hn⟩ => ?_⟩
  exact (exact.under (trust_nil _ _) n v hn).holds

theorem plain_feed (history : (Source.plain lang).after settings fuel calls = .ok r)
    (s : Symbol L) :
    r.Settles (fun fuel => Recognizer.feed fuel s) fun alive _ =>
      settings.culling → ¬r.isDead →
      (alive = true ↔ ∃ v, lang.Derives [] (r.word ++ s.kind :: v)) := by
  obtain ⟨W, consistent, exact, rfl, regular⟩ := plain_after history
  refine (feed_settles consistent s).imp fun alive r' ⟨W', fed⟩ culling live => ?_
  have exact' := fed.follows.exact (.inl Language.not_entangled_nil) exact
  have word : r'.word = r.word ++ [s.kind] := by
    rw [Recognizer.word, fed.input.resolve_right fun h => live h.1.2, List.map_append]
    rfl
  have dead := fed.dead live culling regular exact.trusting
  calc alive = true ↔ ¬r'.isDead := by rw [fed.alive, Bool.not_eq_true', Bool.not_eq_true]
    _ ↔ ∃ v, (W' r'.current).words.Holds v := by rw [dead, not_forall_not]
    _ ↔ ∃ v, lang.Derives [] (r.word ++ s.kind :: v) := exists_congr fun v => by
      rw [current_holds fed.follows.consistent exact', word, List.append_assoc]
      rfl

/-- Without rules, symbols can always be consumed, unless the period is of no steps: then the first
one breaks the call. After any history the recognizer answers exactly whether its input is a word of
the language. While it is not dead and culls, it answers exactly whether one more symbol leaves the
beginning of a word, if it answers and does not break. -/
theorem plain_exact (plain : lang.isPlain) (settings : Settings) :
    (∀ symbols : List (Symbol L), (∃ r : Recognizer L,
      (∃ N, ∀ fuel ≥ N, (Source.plain lang).after settings fuel (symbols.map Call.feed) = .ok r) ∧
        ∃ rest, r.input ++ rest = symbols ∧ (rest = [] ∨ settings.stopWhenDead ∧ r.isDead)) ∨
      settings.collectEvery = some 0 ∧ symbols ≠ [] ∧ ∃ N, ∀ fuel ≥ N,
        (Source.plain lang).after settings fuel (symbols.map Call.feed) = .error (.outOfRange 0)) ∧
      ∀ (fuel : Nat) (calls : List (Call L)) (r : Recognizer L),
        (Source.plain lang).after settings fuel calls = .ok r →
          (∃ answer r', Answers Recognizer.accepted r (answer, r') ∧
            (answer = true ↔ lang.Derives [] r.word)) ∧
          ∀ s : Symbol L, r.Settles (fun fuel => Recognizer.feed fuel s) fun alive _ =>
            settings.culling → ¬r.isDead →
              (alive = true ↔ ∃ v, lang.Derives [] (r.word ++ s.kind :: v)) :=
  ⟨plain_feeds plain settings, fun _ _ _ history => ⟨plain_accepted history, plain_feed history⟩⟩

end Plain

/-- Tokens of two kinds in any order, closed by one of a third. -/
def closedList : Language := .cat (.rep (.alt (.token 2) (.token 3))) (.token 4)

theorem plain_exact_closedList : closedList.isPlain = true ∧ ∃ r : Recognizer String,
    (∃ N, ∀ fuel ≥ N, (Source.plain closedList).after {} fuel [.feed ⟨2, "a"⟩] = .ok r) ∧
      (∃ answer r', Answers Recognizer.accepted r (answer, r') ∧
        (answer = true ↔ closedList.Derives [] r.word)) ∧
      ∃ alive r', Answers (fun fuel => Recognizer.feed fuel ⟨4, "z"⟩) r (alive, r') ∧
        (({} : Settings).culling → ¬r.isDead →
          (alive = true ↔ ∃ v, closedList.Derives [] (r.word ++ 4 :: v))) := by
  have plain : closedList.isPlain = true := rfl
  obtain ⟨feeds, exact⟩ := plain_exact (L := String) plain {}
  obtain ⟨r, ⟨N, after⟩, -⟩ := (feeds [⟨2, "a"⟩]).resolve_right fun ⟨zero, _⟩ => nomatch zero
  have history := after N (Nat.le_refl N)
  obtain ⟨accepted, feed⟩ := exact N _ r history
  have period : r.settings.collectEvery ≠ some 0 := settings_of_after history ▸ nofun
  exact ⟨plain, r, ⟨N, after⟩, accepted, (feed ⟨4, "z"⟩).answers period⟩

/-- A token any number of times. -/
def tokens : Language := .rep (.token 2)

theorem tokens_made (settings : Settings) :
    ∃ r : Recognizer String, (Source.plain tokens).recognizer settings = .ok r :=
  exists_recognizer (by decide +kernel) settings

/-- Nothing keeps a period of no steps out of the settings. Then a symbol breaks the call, though it
begins a word. -/
theorem feed_breaks_tokens : ∃ r : Recognizer String,
    (Source.plain tokens).recognizer { collectEvery := some 0 } = .ok r ∧
      r.settings.culling = true ∧ r.isDead = false ∧ (∃ v, tokens.Derives [] (r.word ++ 2 :: v)) ∧
        r.Breaks fun fuel => Recognizer.feed fuel ⟨2, "a"⟩ := by
  obtain ⟨r, built⟩ := tokens_made { collectEvery := some 0 }
  obtain ⟨W, consistent, -, same, -⟩ := recognizer_consistent built
  have live := isDead_of_recognizer built
  have word : r.word = [] := by
    obtain ⟨start, g, -, rfl⟩ := ofLanguage_ok built
    rfl
  refine ⟨r, built, by rw [same], live, ⟨[], ?_⟩, feed_breaks consistent ?_ (by rw [same]) _⟩
  · rw [word]
    exact .rep_cons (v := [2]) (.token rfl) .rep_nil
  · rw [live]
    nofun

end Answers

end DerivativeParsing
