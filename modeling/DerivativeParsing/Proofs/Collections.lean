import DerivativeParsing.Proofs.Forests
import DerivativeParsing.Proofs.Recognition

/-!
# Recognizers that collect and those that do not

Nodes are collected between two symbols, and what is left stands for what it stood for. But a
nonterminal whose remembered derivative is collected is derived anew, so the graphs of two
recognizers of which only one collects soon differ. What they answer is compared through what the
graphs stand for.

1. `Recognizer.feeds`: symbols are consumed one by one, and the answers are listed.
2. `Alert` is what holds of a recognizer after any symbols. It determines which answer comes next:
   `Alert.alive_iff`.
3. `Alongside`: two recognizers that answered alike, and go on to do so if the symbols are of the
   same kinds. `Abreast`: their symbols are the same.
4. `calls_collecting`: collections change no answer and no forest, unless rules are entangled.
-/

namespace DerivativeParsing

/-! ## Symbols one by one -/

namespace Recognizer

variable {L : Type} [DecidableEq L]

/-- Consumes symbols one by one and lists the answers. -/
def feeds (fuel : Nat) : List (Symbol L) → Recognizing L (List Bool)
  | [] => pure []
  | symbol :: rest => do
    let alive ← feed fuel symbol
    return alive :: (← feeds fuel rest)

/-- Consumes symbols one by one and answers the parse trees. -/
def feedsForest (fuel : Nat) (symbols : List (Symbol L)) :
    Recognizing L (List Bool × Forest (Symbol L)) := do
  let answers ← feeds fuel symbols
  return (answers, ← forest fuel)

/-- Runs a whole input from the start and answers the parse trees, whether it is accepted or not. -/
def recognizeForest (fuel : Nat) (symbols : List (Symbol L)) :
    Recognizing L (Bool × Forest (Symbol L)) := do
  let outcome ← recognize fuel symbols
  return (outcome.accepted, ← forest fuel)

end Recognizer

section Feeds

variable {L : Type} [DecidableEq L] {links : Links} {origin : Meaning} {W : World}
  {r r₁ r' : Recognizer L} {s : Symbol L} {symbols : List (Symbol L)} {fuel : Nat}
  {answers : List Bool}

theorem feeds_cons_ok :
    Recognizer.feeds fuel (s :: symbols) r = .ok (answers, r') ↔ ∃ alive r₁ rest,
    Recognizer.feed fuel s r = .ok (alive, r₁) ∧ Recognizer.feeds fuel symbols r₁ = .ok (rest, r') ∧
      alive :: rest = answers := by
  constructor
  · intro run
    obtain ⟨alive, r₁, hf, run⟩ := Action.bind_ok.mp run
    obtain ⟨rest, r₂, hr, run⟩ := Action.bind_ok.mp run
    obtain ⟨rfl, rfl⟩ := Action.pure_ok.mp run
    exact ⟨alive, r₁, rest, hf, hr, rfl⟩
  · rintro ⟨alive, r₁, rest, hf, hr, rfl⟩
    exact (Action.bind_of_ok hf).trans ((Action.bind_of_ok hr).trans rfl)

theorem feeds_stopped (dead : r.settings.stopWhenDead ∧ r.isDead)
    (run : Recognizer.feeds fuel symbols r = .ok (answers, r')) : r' = r := by
  induction symbols generalizing answers with
  | nil => exact (Action.pure_ok.mp run).2.symm
  | cons s symbols ih =>
    obtain ⟨alive, r₁, rest, hf, hr, -⟩ := feeds_cons_ok.mp run
    cases (Recognizer.feed_stopped dead).symm.trans hf
    exact ih hr

theorem feeds_settles (h : Consistent links origin W r) (symbols : List (Symbol L)) :
    r.Settles (fun fuel => Recognizer.feeds fuel symbols) fun _ r' => r'.settings = r.settings := by
  induction symbols generalizing W r with
  | nil => exact .inl ⟨[], r, .const rfl, rfl⟩
  | cons s symbols ih =>
    refine (feed_settles h s).bind
      (fun _ _ ⟨_, fed⟩ => fed.follows.settings) fun alive r₁ ⟨W₁, fed⟩ => ?_
    have same := fed.follows.settings
    exact ((ih fed.follows.consistent).bind (fun _ _ so => so) fun _ r₂ so =>
      .inl ⟨_, r₂, .const rfl, so.trans same⟩)

theorem feeds_input (h : Consistent links origin W r)
    (run : Recognizer.feeds fuel symbols r = .ok (answers, r')) :
    ∃ rest, r'.input ++ rest = r.input ++ symbols := by
  induction symbols generalizing W r answers with
  | nil =>
    obtain ⟨-, rfl⟩ := Action.pure_ok.mp run
    exact ⟨[], rfl⟩
  | cons s symbols ih =>
    obtain ⟨alive, r₁, later, hf, hr, -⟩ := feeds_cons_ok.mp run
    obtain ⟨W₁, fed⟩ := feed_fed h hf
    rcases fed.input with input | ⟨dead, rfl⟩
    · obtain ⟨rest, whole⟩ := ih fed.follows.consistent hr
      exact ⟨rest, by rw [whole, input, List.append_assoc]; rfl⟩
    · exact ⟨s :: symbols, by rw [feeds_stopped dead hr]⟩

/-- To consume all symbols at once is to consume them one by one: those that are left out would be
answered without being consumed. -/
theorem feedAll_of_feeds (h : Consistent links origin W r)
    (run : Recognizer.feeds fuel symbols r = .ok (answers, r')) :
    Recognizer.feedAll fuel symbols r = .ok ((), r') := by
  induction symbols generalizing W r answers with
  | nil =>
    obtain ⟨-, rfl⟩ := Action.pure_ok.mp run
    rfl
  | cons s symbols ih =>
    obtain ⟨alive, r₁, rest, hf, hr, -⟩ := feeds_cons_ok.mp run
    obtain ⟨W₁, fed⟩ := feed_fed h hf
    rw [feedAll_cons hf]
    split
    · rename_i stops
      obtain ⟨dead, stop⟩ := (Bool.and_eq_true _ _).mp stops
      have dead : r₁.isDead := by simpa [fed.alive] using dead
      rw [feeds_stopped ⟨stop, dead⟩ hr]
    · exact ih fed.follows.consistent hr

end Feeds

/-! ## The answer to a symbol -/

section Alert

variable {L : Type} [DecidableEq L] {links : Links} {origin : Meaning} {D : Readings L}
  {parts alive : Bool} {W W' : World} {g : Grammar L} {start : NodeId} {r r' : Recognizer L}
  {s : Symbol L} {symbols : List (Symbol L)} {fuel : Nat} {answers : List Bool}

/-- What holds of a recognizer after any symbols. Without culling the current node keeps the shape
of the start. -/
structure Alert (links : Links) (origin : Meaning) (D : Readings L) (parts : Bool) (W : World)
    (r : Recognizer L) : Prop where
  consistent : Consistent links origin W r
  exact : ¬links.Entangled → Exact links origin W r
  proper : r.grammar.Proper
  vetted : Vetted W r.grammar
  rooted : ∃ O, Rooted D O W r.grammar r.start
  shaped : r.settings.culling = false → r.grammar.Shaped r.current parts

theorem Founded.alert (h : Founded links origin W g start) (shaped : g.Shaped start parts)
    (settings : Settings) :
    Alert links origin (g.readings start) parts W { grammar := g, start, settings } where
  consistent := h.consistent settings
  exact _ := h.exact settings
  proper := h.proper
  vetted := h.vetted
  rooted := ⟨_, h.rooted⟩
  shaped _ := shaped

namespace Alert

theorem fed (h : Alert links origin D parts W r) (fed : Fed links origin W r s alive W' r') :
    Alert links origin D parts W' r' where
  consistent := fed.follows.consistent
  exact untangled := fed.follows.exact (.inl untangled) (h.exact untangled)
  proper := fed.follows.proper h.proper
  vetted := fed.follows.vetted h.proper h.vetted
  rooted := fed.follows.rooted D h.rooted
  shaped off := by
    rw [fed.follows.settings] at off
    exact fed.shaped off h.proper parts (h.shaped off)

theorem feeds (h : Alert links origin D parts W r)
    (run : Recognizer.feeds fuel symbols r = .ok (answers, r')) :
    ∃ W', Alert links origin D parts W' r' := by
  induction symbols generalizing W r answers with
  | nil =>
    obtain ⟨-, rfl⟩ := Action.pure_ok.mp run
    exact ⟨W, h⟩
  | cons s symbols ih =>
    obtain ⟨alive, r₁, rest, hf, hr, -⟩ := feeds_cons_ok.mp run
    obtain ⟨W₁, fed⟩ := feed_fed h.consistent hf
    exact ih (h.fed fed) hr

/-- The answer to a symbol that is consumed. Without culling, a start with parts is never taken for
dead. Else the answer is whether the beginning of a word has been consumed. -/
theorem alive_iff (h : Alert links origin D parts W r) (untangled : ¬links.Entangled)
    (fed : Fed links origin W r s alive W' r') :
    alive = true ↔
      r.settings.culling = false ∧ parts = true ∨ ∃ v, origin.words.Holds (r'.word ++ v) := by
  have h' := h.fed fed
  rw [fed.alive, Bool.not_eq_true', ← Bool.not_eq_true]
  constructor
  · intro live
    by_cases quick : r.settings.culling = true ∨ r.grammar.Shaped r.current false
    · exact .inr (fed.lives quick h.proper h.vetted live)
    · have off : r.settings.culling = false := Bool.eq_false_iff.mpr fun on => quick (.inl on)
      refine .inl ⟨off, Bool.eq_false_or_eq_true parts |>.resolve_right fun none => quick (.inr ?_)⟩
      exact none ▸ h.shaped off
  · rintro (⟨off, rfl⟩ | ⟨v, hv⟩) dead
    · have shaped := fed.shaped off h.proper true (h.shaped off)
      exact shaped.ne_nothing h'.consistent.good.formed (Recognizer.isDead_iff.mp dead)
    · exact (h'.exact untangled).not_holds h'.consistent (.of_untangled untangled) dead hv

end Alert

end Alert

/-! ## Two recognizers -/

section Abreast

variable {L : Type} [DecidableEq L] {links : Links} {origin : Meaning} {D D₀ : Readings L}
  {parts : Bool} {W W₀ : World} {r r' r₀ r₀' : Recognizer L} {symbols symbols₀ : List (Symbol L)}
  {fuel fuel₀ : Nat} {answers answers₀ : List Bool}

/-- Two recognizers that have consumed symbols of the same kinds and work alike, except for
collections. -/
structure Alongside (r r₀ : Recognizer L) : Prop where
  culling : r.settings.culling = r₀.settings.culling
  stops : r.settings.stopWhenDead = r₀.settings.stopWhenDead
  word : r.word = r₀.word
  dead : r.isDead = r₀.isDead

/-- Recognizers that go alongside answer symbols of a kind alike and stay so: both stop, or both
consume them. -/
theorem Alongside.fed {s s₀ : Symbol L} {alive alive₀ : Bool} {W' W₀' : World}
    (alongside : Alongside r r₀) (untangled : ¬links.Entangled) (h : Alert links origin D parts W r)
    (h₀ : Alert links origin D₀ parts W₀ r₀) (kind : s.kind = s₀.kind)
    (run : Recognizer.feed fuel s r = .ok (alive, r')) (fed : Fed links origin W r s alive W' r')
    (run₀ : Recognizer.feed fuel₀ s₀ r₀ = .ok (alive₀, r₀'))
    (fed₀ : Fed links origin W₀ r₀ s₀ alive₀ W₀' r₀') : alive = alive₀ ∧ Alongside r' r₀' := by
  by_cases stopped : r.settings.stopWhenDead ∧ r.isDead
  · have stopped₀ : r₀.settings.stopWhenDead ∧ r₀.isDead :=
      alongside.stops ▸ alongside.dead ▸ stopped
    cases (Recognizer.feed_stopped stopped).symm.trans run
    cases (Recognizer.feed_stopped stopped₀).symm.trans run₀
    exact ⟨rfl, alongside⟩
  · have goes₀ : ¬(r₀.settings.stopWhenDead ∧ r₀.isDead) :=
      alongside.stops ▸ alongside.dead ▸ stopped
    have word : r'.word = r₀'.word := by
      rw [Recognizer.word, Recognizer.word, fed.input.resolve_right fun h => stopped h.1,
        fed₀.input.resolve_right fun h => goes₀ h.1, List.map_append, List.map_append]
      exact congr_arg₂ (· ++ ·) alongside.word (congrArg ([·]) kind)
    have same : alive = alive₀ := by
      rw [Bool.eq_iff_iff, h.alive_iff untangled fed, h₀.alive_iff untangled fed₀,
        alongside.culling, word]
    refine ⟨same, ⟨?_, ?_, word, ?_⟩⟩
    · rw [fed.follows.settings, fed₀.follows.settings, alongside.culling]
    · rw [fed.follows.settings, fed₀.follows.settings, alongside.stops]
    · rw [fed.alive, fed₀.alive] at same
      exact Bool.not_inj same

theorem Alongside.feeds (alongside : Alongside r r₀) (untangled : ¬links.Entangled)
    (h : Alert links origin D parts W r) (h₀ : Alert links origin D₀ parts W₀ r₀)
    (kinds : symbols.map Symbol.kind = symbols₀.map Symbol.kind)
    (run : Recognizer.feeds fuel symbols r = .ok (answers, r'))
    (run₀ : Recognizer.feeds fuel₀ symbols₀ r₀ = .ok (answers₀, r₀')) :
    answers = answers₀ ∧ Alongside r' r₀' := by
  induction symbols generalizing W W₀ r r₀ symbols₀ answers answers₀ with
  | nil =>
    obtain rfl : symbols₀ = [] := List.map_eq_nil_iff.mp kinds.symm
    obtain ⟨rfl, rfl⟩ := Action.pure_ok.mp run
    obtain ⟨rfl, rfl⟩ := Action.pure_ok.mp run₀
    exact ⟨rfl, alongside⟩
  | cons s symbols ih =>
    obtain ⟨s₀, symbols₀, rfl, kind, kinds⟩ := List.map_eq_cons_iff.mp kinds.symm
    obtain ⟨alive, r₁, rest, hf, hr, rfl⟩ := feeds_cons_ok.mp run
    obtain ⟨alive₀, r₂, rest₀, hf₀, hr₀, rfl⟩ := feeds_cons_ok.mp run₀
    obtain ⟨W₁, fed⟩ := feed_fed h.consistent hf
    obtain ⟨W₂, fed₀⟩ := feed_fed h₀.consistent hf₀
    obtain ⟨rfl, alongside⟩ := alongside.fed untangled h h₀ kind.symm hf fed hf₀ fed₀
    obtain ⟨rfl, alongside⟩ := ih alongside (h.fed fed) (h₀.fed fed₀) kinds.symm hr hr₀
    exact ⟨rfl, alongside⟩

/-- Two recognizers that have consumed the same symbols and work alike, except for collections. -/
structure Abreast (r r₀ : Recognizer L) : Prop extends Alongside r r₀ where
  input : r.input = r₀.input

/-- What has been consumed is a beginning of the symbols, so the same symbols leave recognizers
abreast. -/
theorem Abreast.feeds (abreast : Abreast r r₀) (untangled : ¬links.Entangled)
    (h : Alert links origin D parts W r) (h₀ : Alert links origin D₀ parts W₀ r₀)
    (run : Recognizer.feeds fuel symbols r = .ok (answers, r'))
    (run₀ : Recognizer.feeds fuel₀ symbols r₀ = .ok (answers₀, r₀')) :
    answers = answers₀ ∧ Abreast r' r₀' := by
  obtain ⟨same, alongside⟩ := abreast.toAlongside.feeds untangled h h₀ rfl run run₀
  obtain ⟨rest, input⟩ := feeds_input h.consistent run
  obtain ⟨rest₀, input₀⟩ := feeds_input h₀.consistent run₀
  have length : r'.input.length = r₀'.input.length := by
    rw [← r'.length_word, ← r₀'.length_word, alongside.word]
  refine ⟨same, alongside, ?_⟩
  rw [abreast.input, ← input₀] at input
  exact List.append_inj_left input length

end Abreast

/-! ## Forests -/

section Forests

variable {L : Type} [DecidableEq L] {links : Links} {origin : Meaning} {D : Readings L}
  {parts : Bool} {W : World} {g : Grammar L} {start : NodeId} {r : Recognizer L}
  {input symbols : List (Symbol L)} {f f' : Forest (Symbol L)}

/-- Given enough fuel, the forest is found, and it is the one that the start gives. -/
theorem exists_forest_gives (h : Consistent links origin W r)
    (exact : ¬links.Entangled → Exact links origin W r)
    (rooted : ∃ O, Rooted D O W r.grammar r.start) :
    ∃ f r', Answers (fun fuel => Recognizer.forest fuel) r (f, r') ∧
      (¬links.Entangled → D.Gives r.input f) := by
  obtain ⟨O, rooted⟩ := rooted
  obtain ⟨f, W', g', reading, -, reaps⟩ := exists_forest h rooted
  exact ⟨f, r.withGrammar g',
    reading, fun untangled => reaps.bears ⟨exact untangled, .of_untangled untangled⟩⟩

theorem Alert.exists_feedsForest (h : Alert links origin D parts W r)
    (period : r.settings.collectEvery ≠ some 0) (symbols : List (Symbol L)) :
    ∃ p r' fuel r₁, Answers (fun fuel => Recognizer.feedsForest fuel symbols) r (p, r') ∧
      Recognizer.feeds fuel symbols r = .ok (p.1, r₁) ∧
        (¬links.Entangled → D.Gives r₁.input p.2) := by
  obtain ⟨answers, r₁, ⟨N, feeding⟩, -⟩ := (feeds_settles h.consistent symbols).answers period
  have run := feeding N (Nat.le_refl N)
  obtain ⟨W₁, alert⟩ := h.feeds run
  obtain ⟨f, r', reading, gives⟩ := exists_forest_gives alert.consistent alert.exact alert.rooted
  exact ⟨(answers, f), r', N, r₁, .bind ⟨N, feeding⟩ (.bind reading (.const rfl)), run, gives⟩

/-- A recognizer that has consumed nothing runs an input as if its symbols came one by one. -/
theorem Alert.exists_recognizeForest (h : Alert links origin D parts W r) (fresh : r.taken = #[])
    (period : r.settings.collectEvery ≠ some 0) (symbols : List (Symbol L)) :
    ∃ p r' fuel answers r₁,
      Answers (fun fuel => Recognizer.recognizeForest fuel symbols) r (p, r') ∧
      Recognizer.feeds fuel symbols r = .ok (answers, r₁) ∧
        (¬links.Entangled → (p.1 = true ↔ origin.words.Holds r₁.word) ∧ D.Gives r₁.input p.2) := by
  obtain ⟨answers, r₁, ⟨N, feeding⟩, -⟩ := (feeds_settles h.consistent symbols).answers period
  have run := feeding N (Nat.le_refl N)
  obtain ⟨W₁, alert⟩ := h.feeds run
  obtain ⟨b, r₂, M, asking⟩ := exists_accepted alert.consistent
  obtain ⟨W₂, asked⟩ := accepted_asked alert.consistent (asking M (Nat.le_refl M))
  have follows := asked.follows
  obtain ⟨f, r', reading, gives⟩ := exists_forest_gives follows.consistent
    (fun untangled => follows.exact (.inl untangled) (alert.exact untangled))
    (follows.rooted D alert.rooted)
  have recognizing :
      Answers (fun fuel => Recognizer.recognize fuel symbols) r (⟨r₁.current, b⟩, r₂) := by
    refine ⟨max N M, fun fuel le => recognize_ok.mpr ⟨r₁, ?_, rfl, asking fuel (by omega)⟩⟩
    rw [← fresh]
    exact feedAll_of_feeds h.consistent (feeding fuel (by omega))
  refine ⟨(b, f), r', N, answers, r₁, .bind recognizing (.bind reading (.const rfl)),
    run, fun untangled => ⟨?_, ?_⟩⟩
  · exact ⟨asked.sound, asked.complete (alert.exact untangled) (.of_untangled untangled)⟩
  · have input : r₂.input = r₁.input := by rw [Recognizer.input, Recognizer.input, asked.taken]
    exact input ▸ gives untangled

end Forests

/-! ## What is answered -/

section Collecting

variable {L : Type} [DecidableEq L] {source : Source} {settings : Settings} {every : Nat}
  {rOn rOff : Recognizer L}

/-- Recognizers that were just made for a source, one with collections and one without, are
abreast. -/
theorem exists_abreast (on : source.recognizer (settings.withCollectEvery every) = .ok rOn)
    (off : source.recognizer (settings.withCollectEvery 0) = .ok rOff) :
    Abreast rOn rOff ∧ rOn.taken = #[] ∧ rOff.taken = #[] ∧ ∃ g start parts W,
      Alert source.links source.origin (Grammar.readings g start) parts W rOn ∧
        Alert source.links source.origin (Grammar.readings g start) parts W rOff := by
  obtain ⟨W, g, start, rfl, founded, -⟩ := exists_founded on
  obtain ⟨_, g₀, start₀, rfl, -⟩ := exists_founded off
  obtain ⟨rfl, rfl⟩ : g = g₀ ∧ start = start₀ := recognizer_grammar on off
  obtain ⟨parts, shaped⟩ := founded.exists_shaped
  exact ⟨⟨⟨rfl, rfl, rfl, rfl⟩, rfl⟩, rfl, rfl, g, start, parts, W, founded.alert shaped _,
    founded.alert shaped _⟩

/-- With collections, however often, and without them, the same inputs are accepted, the same is
answered to each symbol, and the same trees are found in the same order, unless rules are
entangled. -/
theorem calls_collecting (on : source.recognizer (settings.withCollectEvery every) = .ok rOn)
    (off : source.recognizer (settings.withCollectEvery 0) = .ok rOff) (symbols : List (Symbol L)) :
    (∃ p r' p₀ r₀', Answers (fun fuel => Recognizer.recognizeForest fuel symbols) rOn (p, r') ∧
      Answers (fun fuel => Recognizer.recognizeForest fuel symbols) rOff (p₀, r₀') ∧
        (p = p₀ ∨ source.links.Entangled)) ∧
    ∃ p r' p₀ r₀', Answers (fun fuel => Recognizer.feedsForest fuel symbols) rOn (p, r') ∧
      Answers (fun fuel => Recognizer.feedsForest fuel symbols) rOff (p₀, r₀') ∧
        (p = p₀ ∨ source.links.Entangled) := by
  obtain ⟨abreast, fresh, fresh₀, g, start, parts, W, h, h₀⟩ := exists_abreast on off
  have period : rOn.settings.collectEvery ≠ some 0 :=
    settings_of_recognizer on ▸ settings.collectEvery_withCollectEvery every
  have period₀ : rOff.settings.collectEvery ≠ some 0 :=
    settings_of_recognizer off ▸ settings.collectEvery_withCollectEvery 0
  constructor
  · obtain ⟨p, r', _, _, r₁, recognizing, run, spec⟩ :=
      h.exists_recognizeForest fresh period symbols
    obtain ⟨p₀, r₀', _, _, r₂, recognizing₀, run₀, spec₀⟩ :=
      h₀.exists_recognizeForest fresh₀ period₀ symbols
    refine ⟨p, r', p₀, r₀', recognizing, recognizing₀,
      Classical.or_iff_not_imp_right.mpr fun untangled => ?_⟩
    obtain ⟨-, abreast⟩ := abreast.feeds untangled h h₀ run run₀
    obtain ⟨accepted, gives⟩ := spec untangled
    obtain ⟨accepted₀, gives₀⟩ := spec₀ untangled
    refine Prod.ext (Bool.eq_iff_iff.mpr ?_) ?_
    · rw [accepted, accepted₀, abreast.word]
    · exact (abreast.input ▸ gives).unique gives₀
  · obtain ⟨p, r', _, r₁, feeding, run, gives⟩ := h.exists_feedsForest period symbols
    obtain ⟨p₀, r₀', _, r₂, feeding₀, run₀, gives₀⟩ := h₀.exists_feedsForest period₀ symbols
    refine ⟨p, r', p₀, r₀', feeding, feeding₀,
      Classical.or_iff_not_imp_right.mpr fun untangled => ?_⟩
    obtain ⟨answers, abreast⟩ := abreast.feeds untangled h h₀ run run₀
    exact Prod.ext answers ((abreast.input ▸ gives untangled).unique (gives₀ untangled))

theorem calls_collecting_leftRecursive : ∃ rOn rOff : Recognizer String,
    leftRecursive.recognizer (({} : Settings).withCollectEvery 1) = .ok rOn ∧
      leftRecursive.recognizer (({} : Settings).withCollectEvery 0) = .ok rOff ∧
        ∃ p r' p₀ r₀',
          Answers (fun fuel => Recognizer.feedsForest fuel [⟨2, "a"⟩, ⟨2, "b"⟩]) rOn (p, r') ∧
          Answers (fun fuel => Recognizer.feedsForest fuel [⟨2, "a"⟩, ⟨2, "b"⟩]) rOff (p₀, r₀') ∧
            (p = p₀ ∨ leftRecursive.links.Entangled) := by
  obtain ⟨rOn, on⟩ := leftRecursive_made (({} : Settings).withCollectEvery 1)
  obtain ⟨rOff, off⟩ := leftRecursive_made (({} : Settings).withCollectEvery 0)
  exact ⟨rOn, rOff, on, off, (calls_collecting on off [⟨2, "a"⟩, ⟨2, "b"⟩]).2⟩

/-- Two rules that stand for one another, asked for at two places, one of which leads nowhere. -/
def revisited : Source :=
  .ruled [("S", .alt (.cat (.rule "A") (.token 0)) (.cat (.token 2) (.rule "B"))),
    ("A", .alt (.rule "B") (.token 2)), ("B", .rule "A")] "S"

/-- After the first symbol the derivative of the second rule is asked for the sake of that of the
first, and what it then answers is kept with it. A collection drops both, for they lead nowhere, so
that the second symbol has the rule derived anew. Without one the derivative is remembered, and its
answer too. -/
theorem recognize_revisited_depends :
    ∃ (rOn rOff : Recognizer String) (o o₀ : Recognition) (r' r₀' : Recognizer String),
      revisited.recognizer (({} : Settings).withCollectEvery 1) = .ok rOn ∧
        revisited.recognizer (({} : Settings).withCollectEvery 0) = .ok rOff ∧
          Answers (fun fuel => Recognizer.recognize fuel [⟨2, "a"⟩, ⟨2, "b"⟩]) rOn (o, r') ∧
            Answers (fun fuel => Recognizer.recognize fuel [⟨2, "a"⟩, ⟨2, "b"⟩]) rOff (o₀, r₀') ∧
              o.accepted = true ∧ o₀.accepted = false := by
  obtain ⟨rOn, o, r', on, run, yes⟩ := exists_recognizer_of_answer? (show
    revisited.answer? (({} : Settings).withCollectEvery 1) 30 []
    [(⟨2, "a"⟩ : Symbol String), ⟨2, "b"⟩] =
      some true by decide +kernel)
  obtain ⟨rOff, o₀, r₀', off, run₀, no⟩ := exists_recognizer_of_answer? (show
    revisited.answer? (({} : Settings).withCollectEvery 0) 30 []
    [(⟨2, "a"⟩ : Symbol String), ⟨2, "b"⟩] =
      some false by decide +kernel)
  exact ⟨rOn, rOff, o, o₀, r', r₀', on, off, recognize_answers run, recognize_answers run₀, yes, no⟩

end Collecting

end DerivativeParsing
