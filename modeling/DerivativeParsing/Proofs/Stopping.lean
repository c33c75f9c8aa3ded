import DerivativeParsing.Proofs.Deeds
import DerivativeParsing.Proofs.Handing
import DerivativeParsing.Proofs.Histories

/-!
# Stopping early

A recognizer that is to stop stands still once nothing can match any more. One that is not to goes
on deriving the node that matches nothing, makes room for what it leaves, and collects.

1. `step_nothing`: a step from the node that matches nothing leads back to it. So what is dead stays
   dead: `feed_dead`, and so do all calls, `callAll_dead`, until the recognizer starts again.
2. `feed_stopping`: a symbol that is fed to a recognizer that is not dead does the same, whether it
   is to stop or not.
3. `feedAll_stopping`: so the two do the same until nothing can match any more, and then one of them
   prolongs its chain. `recognize_stopping`, `parse_stopping`: they answer the same.
4. `calls_stopping`: so it is with those that were just built.
-/

namespace DerivativeParsing

open Grammar (nothing)

section Dead

variable {L : Type} [DecidableEq L] {links : Links} {origin : Meaning} {W : World}
  {g g' : Grammar L} {r r' : Recognizer L} {s : Symbol L} {next : NodeId}
  {culling accepts alive : Bool} {fuel : Nat} {u : Unit}

/-! ## What is dead stays dead -/

/-- A step from the node that matches nothing leads back to it. -/
theorem step_nothing (good : Good links W g)
    (run : Grammar.step fuel nothing s culling g = .ok ((next, accepts), g')) : next = nothing := by
  obtain ⟨d, g₁, g₂, derived, asked, trimmed⟩ := Grammar.step_ok.mp run
  have first : g.forgotten.arena.get? nothing = some .empty := good.formed.nothing
  obtain ⟨W₁, derived⟩ := Grammar.evaluates_of_derive W derived
  obtain ⟨W₂, asked⟩ := Grammar.evaluates_of_nullable W₁ asked
  have here : d = nothing := by
    rcases derived.of_partless rfl ⟨.empty, first, rfl⟩ with rfl | ⟨-, -, there⟩
    · rfl
    · cases first.symm.trans there
  subst here
  cases culling with
  | false => exact (trimmed_false trimmed).1.symm
  | true =>
    have good₂ := (asked.carries (derived.carries good.forgotten.good).good).good
    obtain ⟨result, g₃, culled, rest⟩ := Action.bind_ok.mp trimmed
    cases (cull_nothing good₂).symm.trans culled
    obtain ⟨rfl, -⟩ := Action.pure_ok.mp rest
    rfl

theorem feed_dead (h : Consistent links origin W r)
    (run : Recognizer.feed fuel s r = .ok (alive, r')) (dead : r.isDead) : r'.isDead := by
  by_cases stops : r.settings.stopWhenDead ∧ r.isDead
  · rw [Recognizer.feed_stopped stops] at run
    cases run
    exact dead
  · rw [Recognizer.feed_alive stops] at run
    obtain ⟨⟨next, accepts⟩, _, stepping, run⟩ := Action.bind_ok.mp run
    obtain ⟨g₁, hg, rfl⟩ := Recognizer.onGrammar_ok.mp stepping
    obtain ⟨W₁, stepped⟩ := step_stepped h.good hg
    have period : r.settings.collectEvery ≠ some 0 := fun zero => by
      cases (Recognizer.landed_zero zero).symm.trans run
    obtain ⟨W', r'', landed, -, -, -, dead', -⟩ :=
      Recognizer.landed_ok (h.advanced stepped).consistent accepts period
    cases landed.symm.trans run
    rw [Recognizer.isDead_iff.mp dead] at hg
    exact dead'.mpr (step_nothing h.good hg)

theorem feedAll_dead {symbols : List (Symbol L)} (h : Consistent links origin W r)
    (run : Recognizer.feedAll fuel symbols r = .ok (u, r')) (dead : r.isDead) : r'.isDead := by
  refine (feedAll_induct (P := fun r => (∃ W, Consistent links origin W r) ∧ r.isDead) ?_
    ⟨⟨W, h⟩, dead⟩ run).2
  rintro s alive r₁ r₂ ⟨⟨W₁, consistent⟩, dead⟩ feeding
  obtain ⟨W₂, fed⟩ := feed_fed consistent feeding
  exact ⟨⟨W₂, fed.follows.consistent⟩, feed_dead consistent feeding dead⟩

/-- The calls that take a recognizer back to its start. -/
def Call.restarts : Call L → Bool
  | .recognize _ | .parse _ | .reset => true
  | .feed _ | .accepted | .forest => false

theorem call_dead {c : Call L} (h : Consistent links origin W r) (goes : c.restarts = false)
    (run : Recognizer.call fuel c r = .ok (u, r')) (dead : r.isDead) : r'.isDead := by
  cases c with
  | feed s =>
    obtain ⟨alive, _, feeding, last⟩ := Action.bind_ok.mp run
    obtain ⟨-, rfl⟩ := Action.pure_ok.mp last
    exact feed_dead h feeding dead
  | accepted =>
    obtain ⟨answer, _, asking, last⟩ := Action.bind_ok.mp run
    obtain ⟨-, rfl⟩ := Action.pure_ok.mp last
    obtain ⟨g', -, rfl⟩ := Recognizer.accepted_ok.mp asking
    exact dead
  | forest =>
    obtain ⟨f, _, reading, last⟩ := Action.bind_ok.mp run
    obtain ⟨-, rfl⟩ := Action.pure_ok.mp last
    obtain ⟨g', -, rfl⟩ := Recognizer.forest_ok.mp reading
    exact dead
  | recognize _ | parse _ | reset => cases goes

/-- Unless it starts again, a dead recognizer stays so, whatever is asked of it. -/
theorem callAll_dead {calls : List (Call L)} (h : Consistent links origin W r)
    (go : ∀ c ∈ calls, c.restarts = false) (run : Recognizer.callAll fuel calls r = .ok (u, r'))
    (dead : r.isDead) : r'.isDead := by
  refine (callAll_induct (P := fun r => (∃ W, Consistent links origin W r) ∧ r.isDead) ?_
    ⟨⟨W, h⟩, dead⟩ run).2
  rintro c member u r₁ r₂ ⟨⟨W₁, consistent⟩, dead⟩ first
  obtain ⟨W₂, follows⟩ := call_follows consistent first
  exact ⟨⟨W₂, follows.consistent⟩, call_dead consistent (go c member) first dead⟩

end Dead

/-! ## With the setting and without -/

/-- The recognizer, to stop when nothing can match any more or not. -/
def Recognizer.stopping {L : Type} (r : Recognizer L) (on : Bool) : Recognizer L :=
  { r with settings := r.settings.withStopWhenDead on }

section Stopping

variable {L : Type} [DecidableEq L] {links : Links} {origin : Meaning} {W : World}
  {r r₀ r₁ r' r₀' : Recognizer L} {s : Symbol L} {symbols : List (Symbol L)} {alive : Bool}
  {fuel : Nat} {u : Unit}

theorem Consistent.stopping (h : Consistent links origin W r) (on : Bool) :
    Consistent links origin W (r.stopping on) :=
  ⟨h.good, h.range, h.start, h.chain⟩

omit [DecidableEq L] in
theorem collect_stopping (run : Recognizer.collect r = .ok (u, r')) (on : Bool) :
    Recognizer.collect (r.stopping on) = .ok ((), r'.stopping on) := by
  obtain ⟨place, g', collected, -, rfl, -⟩ := Recognizer.exists_of_collect run
  exact Recognizer.collect_of_ok (r := r.stopping on) collected

omit [DecidableEq L] in
theorem landed_stopping {next : NodeId} {accepts : Bool} {g' : Grammar L}
    (run : Run.landed s next accepts r.settings (r.withGrammar g') = .ok (alive, r')) (on : Bool) :
    Run.landed s next accepts (r.stopping on).settings ((r.stopping on).withGrammar g') =
      .ok (alive, r'.stopping on) := by
  obtain ⟨due, told⟩ := Recognizer.told_of_landed run
  have told' :
      (r.stopping on).settings.collectDue ((r.stopping on).taken.push (s, next)).size = .ok due :=
    told
  cases due with
  | true =>
    rw [Recognizer.landed_due told] at run
    rw [Recognizer.landed_due told']
    obtain ⟨_, r₁, collected, rest⟩ := Action.bind_ok.mp run
    cases rest
    exact Action.bind_of_ok (collect_stopping collected on)
  | false =>
    rw [Recognizer.landed_not_due told] at run
    rw [Recognizer.landed_not_due told']
    cases run
    rfl

/-- Whether a recognizer is to stop does not matter while it is not dead. -/
theorem feed_stopping (goes : ¬r.isDead) (run : Recognizer.feed fuel s r = .ok (alive, r'))
    (on : Bool) : Recognizer.feed fuel s (r.stopping on) = .ok (alive, r'.stopping on) := by
  have goes' : ¬((r.stopping on).settings.stopWhenDead ∧ (r.stopping on).isDead) :=
    fun stops => goes stops.2
  rw [Recognizer.feed_alive fun stops => goes stops.2] at run
  rw [Recognizer.feed_alive goes']
  obtain ⟨⟨next, accepts⟩, _, stepping, landing⟩ := Action.bind_ok.mp run
  obtain ⟨g', stepped, rfl⟩ := Recognizer.onGrammar_ok.mp stepping
  have stepping' :
      Recognizer.onGrammar (Grammar.step fuel r.current s r.settings.culling) (r.stopping on) =
      .ok ((next, accepts), (r.stopping on).withGrammar g') := Recognizer.onGrammar_of_ok stepped
  exact (Action.bind_of_ok stepping').trans (landed_stopping landing on)

omit [DecidableEq L] in
@[simp] theorem stopping_stopping (on on' : Bool) : (r.stopping on').stopping on = r.stopping on :=
  rfl

/-- Two recognizers, of which one is to stop, do the same until nothing can match any more. Then one
of them stands still, and the other one prolongs its chain. By induction on the symbols. -/
theorem feedAll_stopping (h : Consistent links origin W r)
    (run : Recognizer.feedAll fuel symbols (r.stopping true) = .ok ((), r₁))
    (run₀ : Recognizer.feedAll fuel symbols (r.stopping false) = .ok ((), r₀)) :
    r₁.stopping false = r₀ ∨ r₁.isDead ∧ r₀.isDead ∧ r₁.Prolongs fuel r₀ := by
  induction symbols generalizing W r with
  | nil =>
    cases run
    cases run₀
    exact .inl rfl
  | cons s rest ih =>
    obtain ⟨alive, r₂, feeding⟩ := exists_feed run
    by_cases dead : r.isDead
    · -- One of them does not take the symbol, and no other one either.
      rw [Recognizer.feed_stopped (r := r.stopping true) ⟨rfl, dead⟩] at feeding
      cases feeding
      rw [feedAll_cons (Recognizer.feed_stopped (r := r.stopping true) ⟨rfl, dead⟩)] at run
      cases run
      have prolongs : (r.stopping false).Prolongs fuel r₀ :=
        Recognizing.Prolongs.feedAll _ _ _ _ run₀
      exact .inr ⟨dead, feedAll_dead (h.stopping false) run₀ dead, prolongs⟩
    · have feeding' : Recognizer.feed fuel s r = .ok (alive, r₂.stopping r.settings.stopWhenDead) :=
        feed_stopping (r := r.stopping true) dead feeding r.settings.stopWhenDead
      obtain ⟨W₂, fed⟩ := feed_fed h feeding'
      have on := feed_stopping dead feeding' true
      have off := feed_stopping dead feeding' false
      rw [feedAll_cons on] at run
      rw [feedAll_cons off] at run₀
      have goes : (!alive && (r₂.stopping false).settings.stopWhenDead) = false := Bool.and_false _
      rw [stopping_stopping, if_neg (Bool.eq_false_iff.mp goes)] at run₀
      cases alive with
      | true => exact ih fed.follows.consistent run run₀
      | false =>
        cases run
        have dead₂ : (r₂.stopping r.settings.stopWhenDead).isDead := by simpa using fed.alive
        have prolongs : (r₂.stopping false).Prolongs fuel r₀ :=
          Recognizing.Prolongs.feedAll _ _ _ _ run₀
        exact .inr ⟨dead₂,
          feedAll_dead (fed.follows.consistent.stopping false) run₀ dead₂, prolongs⟩

/-! ## Whole inputs -/

/-- What a recognizer that was to stop leaves of a whole input, and what one that was not to does:
they accept the same, they end alike if they accept it, and the second one goes on from where the
first one has stopped. -/
theorem recognize_stopping {o o₀ : Recognition} (h : Consistent links origin W r)
    (run : Recognizer.recognize fuel symbols (r.stopping true) = .ok (o, r'))
    (run₀ : Recognizer.recognize fuel symbols (r.stopping false) = .ok (o₀, r₀')) :
    o.accepted = o₀.accepted ∧ (o.accepted → r'.stopping false = r₀') ∧ ∃ r₁,
      Recognizer.feedAll fuel symbols { r.stopping true with taken := #[] } = .ok ((), r₁) ∧
        r₁.chain = r'.chain ∧ r₁.Prolongs fuel r₀' := by
  obtain ⟨r₁, feeding, -, asking⟩ := recognize_ok.mp run
  obtain ⟨r₀, feeding₀, -, asking₀⟩ := recognize_ok.mp run₀
  obtain ⟨W₁, follows, -⟩ := feedAll_follows (h.restarted.stopping true) feeding
  obtain ⟨W₀, follows₀, -⟩ := feedAll_follows (h.restarted.stopping false) feeding₀
  have prolongs : r₀.Prolongs fuel r₀' := Recognizing.Prolongs.accepted _ _ _ asking₀
  have chain : r₁.chain = r'.chain := by
    obtain ⟨g', -, rfl⟩ := Recognizer.accepted_ok.mp asking
    rfl
  rcases feedAll_stopping h.restarted feeding feeding₀ with rfl | ⟨dead, dead₀, further⟩
  · obtain ⟨g', asked, rfl⟩ := Recognizer.accepted_ok.mp asking
    obtain ⟨g₀', asked₀, rfl⟩ := Recognizer.accepted_ok.mp asking₀
    obtain ⟨same, rfl⟩ := Prod.mk.inj (Except.ok.inj (asked.symm.trans asked₀))
    exact ⟨same, fun _ => rfl, r₁, feeding, chain, prolongs⟩
  · -- Nothing can match any more, and neither accepts.
    obtain ⟨W₂, asked⟩ := accepted_asked follows.consistent asking
    obtain ⟨W₃, asked₀⟩ := accepted_asked follows₀.consistent asking₀
    have rejects : o.accepted = false := Bool.eq_false_iff.mpr fun yes => asked.alive yes dead
    have rejects₀ : o₀.accepted = false := Bool.eq_false_iff.mpr fun yes => asked₀.alive yes dead₀
    refine ⟨rejects.trans rejects₀.symm, fun yes => ?_, r₁, feeding, chain, further.trans prolongs⟩
    exact absurd yes (Bool.eq_false_iff.mp rejects)

theorem parse_stopping {answer answer₀ : Option (Forest (Symbol L))}
    (h : Consistent links origin W r)
    (run : Recognizer.parse fuel symbols (r.stopping true) = .ok (answer, r'))
    (run₀ : Recognizer.parse fuel symbols (r.stopping false) = .ok (answer₀, r₀')) :
    answer = answer₀ := by
  obtain ⟨o, r₁, recognizing, rest⟩ := Action.bind_ok.mp run
  obtain ⟨o₀, r₀, recognizing₀, rest₀⟩ := Action.bind_ok.mp run₀
  obtain ⟨same, alike, -⟩ := recognize_stopping h recognizing recognizing₀
  by_cases yes : o.accepted
  · obtain rfl := alike yes
    rw [if_pos yes] at rest
    rw [if_pos (same ▸ yes)] at rest₀
    obtain ⟨f, r₂, reading, last⟩ := Action.bind_ok.mp rest
    obtain ⟨f₀, r₃, reading₀, last₀⟩ := Action.bind_ok.mp rest₀
    obtain ⟨g', read, -⟩ := Recognizer.forest_ok.mp reading
    obtain ⟨g₀', read₀, -⟩ := Recognizer.forest_ok.mp reading₀
    obtain ⟨rfl, -⟩ := Action.pure_ok.mp last
    obtain ⟨rfl, -⟩ := Action.pure_ok.mp last₀
    obtain ⟨rfl, -⟩ := Prod.mk.inj (Except.ok.inj (read.symm.trans read₀))
    rfl
  · rw [if_neg yes] at rest
    rw [if_neg fun yes₀ => yes (same ▸ yes₀)] at rest₀
    obtain ⟨rfl, -⟩ := Action.pure_ok.mp rest
    obtain ⟨rfl, -⟩ := Action.pure_ok.mp rest₀
    rfl

/-- Whatever a dead recognizer is asked, it takes no symbol and accepts nothing. With a period of no
steps it must be to stop, for otherwise it derives on. -/
theorem dead_answers (h : Consistent links origin W r) (dead : r.isDead)
    (stops : r.settings.collectEvery = some 0 → r.settings.stopWhenDead) :
    (∀ s, ∃ r', Answers (fun fuel => Recognizer.feed fuel s) r (false, r')) ∧
      ∃ r', Answers Recognizer.accepted r (false, r') := by
  constructor
  · intro s
    by_cases period : r.settings.collectEvery = some 0
    · exact ⟨r, 0, fun fuel _ => Recognizer.feed_stopped ⟨stops period, dead⟩⟩
    · obtain ⟨alive, r', ⟨N, feeding⟩, W', fed⟩ := (feed_settles h s).answers period
      have run := feeding N (Nat.le_refl N)
      have none : alive = false := by rw [fed.alive, feed_dead h run dead, Bool.not_true]
      exact ⟨r', N, none ▸ feeding⟩
  · obtain ⟨answer, r', N, asking⟩ := exists_accepted h
    obtain ⟨W', asked⟩ := accepted_asked h (asking N (Nat.le_refl N))
    have none : answer = false := Bool.eq_false_iff.mpr fun yes => asked.alive yes dead
    exact ⟨r', N, none ▸ asking⟩

end Stopping

section Sources

variable {L : Type} [DecidableEq L] {source : Source} {settings : Settings}
  {rOn rOff : Recognizer L}

/-- Whether a recognizer that was just built is to stop when nothing can match any more makes no
difference to what is accepted or parsed, or to whether that breaks, and its chain is a beginning of
the other one's, under the names that collections give. When no more can match, then no more will,
whether it is to stop or not: until the recognizer starts again, every symbol is answered so, and
nothing is accepted. -/
theorem calls_stopping (on : source.recognizer (settings.withStopWhenDead true) = .ok rOn)
    (off : source.recognizer (settings.withStopWhenDead false) = .ok rOff) :
    (∀ symbols, rOn.BothSettle rOff (fun fuel => Recognizer.recognize fuel symbols)
      (fun fuel => Recognizer.recognize fuel symbols) fun o r o₀ r₀ => o.accepted = o₀.accepted ∧
        ∃ N, ∀ fuel ≥ N, ∃ r₁, Recognizer.feedAll fuel symbols rOn = .ok ((), r₁) ∧
          r₁.chain = r.chain ∧ r₁.Prolongs fuel r₀) ∧
    (∀ symbols, rOn.BothSettle rOff (fun fuel => Recognizer.parse fuel symbols)
      (fun fuel => Recognizer.parse fuel symbols) fun answer _ answer₀ _ => answer = answer₀) ∧
    ∀ stop fuel calls r s r₁ later r₂,
      source.after (L := L) (settings.withStopWhenDead stop) fuel calls = .ok r →
      Recognizer.feed fuel s r = .ok (false, r₁) → (∀ c ∈ later, Call.restarts c = false) →
      Recognizer.callAll fuel later r₁ = .ok ((), r₂) →
        (∀ s, ∃ r₃, Answers (fun fuel => Recognizer.feed fuel s) r₂ (false, r₃)) ∧
          ∃ r₃, Answers Recognizer.accepted r₂ (false, r₃) := by
  obtain ⟨W, g, start, rfl, founded, -⟩ := exists_founded on
  obtain ⟨_, g₀, start₀, rfl, -⟩ := exists_founded off
  obtain ⟨rfl, rfl⟩ : g = g₀ ∧ start = start₀ := recognizer_grammar on off
  have h := founded.consistent settings
  have hOn : Consistent source.links source.origin W
      (⟨g, start, #[], settings.withStopWhenDead true⟩ : Recognizer L) := h.stopping true
  have hOff : Consistent source.links source.origin W
      (⟨g, start, #[], settings.withStopWhenDead false⟩ : Recognizer L) := h.stopping false
  refine ⟨fun symbols => ?_, fun symbols => ?_, ?_⟩
  · have alike := (recognize_breaks_iff hOn founded.alive symbols).trans
      (recognize_breaks_iff hOff founded.alive symbols).symm
    refine Or.imp_left ?_
      ((recognize_settles hOn symbols).both (recognize_settles hOff symbols) alike)
    rintro ⟨o, r, o₀, r₀, ⟨N, recognizing⟩, ⟨N₀, recognizing₀⟩, -⟩
    have both (fuel : Nat) (le : max N N₀ ≤ fuel) :=
      recognize_stopping h (recognizing fuel (by omega)) (recognizing₀ fuel (by omega))
    exact ⟨o, r, o₀, r₀, ⟨N, recognizing⟩, ⟨N₀, recognizing₀⟩, (both _ (Nat.le_refl _)).1, max N N₀,
      fun fuel le => (both fuel le).2.2⟩
  · have rooted : ∃ O, Rooted (g.readings start) O W g start := ⟨_, founded.rooted⟩
    have alike := (parse_breaks_iff hOn rooted founded.alive symbols).trans
      (parse_breaks_iff hOff rooted founded.alive symbols).symm
    refine Or.imp_left ?_
      ((parse_settles hOn rooted symbols).both (parse_settles hOff rooted symbols) alike)
    rintro ⟨answer, r, answer₀, r₀, ⟨N, parsing⟩, ⟨N₀, parsing₀⟩, -⟩
    exact ⟨answer, r, answer₀, r₀, ⟨N, parsing⟩, ⟨N₀, parsing₀⟩,
      parse_stopping h (parsing (max N N₀) (by omega)) (parsing₀ (max N N₀) (by omega))⟩
  · intro stop fuel calls r s r₁ later r₂ history feeding go run
    obtain ⟨W₁, consistent, -⟩ := after_consistent history
    obtain ⟨W₂, fed⟩ := feed_fed consistent feeding
    obtain ⟨W₃, follows⟩ := callAll_follows fed.follows.consistent run
    have dead : r₁.isDead := by simpa using fed.alive
    refine dead_answers follows.consistent
      (callAll_dead fed.follows.consistent go run dead) fun zero => ?_
    -- With a period of no steps it has stopped already, or the symbol would have been consumed.
    rw [follows.settings, fed.follows.settings] at zero ⊢
    exact (stopped_of_feed zero feeding).1.1

theorem calls_stopping_leftRecursive : ∃ rOn rOff : Recognizer String,
    leftRecursive.recognizer (({} : Settings).withStopWhenDead true) = .ok rOn ∧
      leftRecursive.recognizer (({} : Settings).withStopWhenDead false) = .ok rOff ∧
        ∃ o r o₀ r₀, Answers (fun fuel => Recognizer.recognize fuel [⟨3, "a"⟩, ⟨2, "b"⟩])
          rOn (o, r) ∧
          Answers (fun fuel => Recognizer.recognize fuel [⟨3, "a"⟩, ⟨2, "b"⟩]) rOff (o₀, r₀) ∧
            o.accepted = o₀.accepted ∧ ∃ N, ∀ fuel ≥ N, ∃ r₁,
              Recognizer.feedAll fuel [⟨3, "a"⟩, ⟨2, "b"⟩] rOn = .ok ((), r₁) ∧ r₁.chain = r.chain ∧
                r₁.Prolongs fuel r₀ := by
  obtain ⟨rOn, on⟩ := leftRecursive_made (({} : Settings).withStopWhenDead true)
  obtain ⟨rOff, off⟩ := leftRecursive_made (({} : Settings).withStopWhenDead false)
  exact ⟨rOn, rOff, on, off, ((calls_stopping on off).1 [⟨3, "a"⟩, ⟨2, "b"⟩]).answers
    (settings_of_recognizer on ▸ nofun)⟩

end Sources

end DerivativeParsing
