import DerivativeParsing.Proofs.Forests
import DerivativeParsing.Proofs.Recognition

/-!
# Histories have an end

Whatever was asked of a recognizer before, the next call comes to an end, given enough fuel. So does
every finite sequence of calls: a description has as many symbols as are fed to it, and each of them
is consumed by a step that ends. All of them are answered, unless the recognizer is to collect nodes
every no steps.

1. `Recognizer.respondAll` makes calls and keeps the answers. `respond_settles`: a call is answered.
2. `respondAll_settles`: so are calls one after the other, by induction on the history.
   `respondAll_breaks_iff` tells when they are not.
3. `calls_settled`: so are those that are made of a recognizer that was just built, and fuel lasts.
-/

namespace DerivativeParsing

open Grammar (nothing)

/-- What is answered to a call. -/
inductive Response (L : Type)
  /-- Whether anything can still match. -/
  | fed (alive : Bool)
  /-- Whether there is a complete match. -/
  | judged (accepted : Bool)
  | parsed (answer : Option (Forest (Symbol L)))
  | read (forest : Forest (Symbol L))
  | done

namespace Recognizer

variable {L : Type} [DecidableEq L]

def respond (fuel : Nat) : Call L → Recognizing L (Response L)
  | .feed symbol => return .fed (← feed fuel symbol)
  | .accepted => return .judged (← accepted fuel)
  | .recognize symbols => return .judged (← recognize fuel symbols).accepted
  | .parse symbols => return .parsed (← parse fuel symbols)
  | .forest => return .read (← forest fuel)
  | .reset => do
    reset
    return .done

/-- Makes calls one after the other, and keeps the answers, and how many symbols have been consumed
after each. -/
def respondAll (fuel : Nat) : List (Call L) → Recognizing L (List (Response L × Nat))
  | [] => pure []
  | c :: rest => do
    let response ← respond fuel c
    let steps := (← get).steps
    let later ← respondAll fuel rest
    return (response, steps) :: later

variable {fuel : Nat} {r r' : Recognizer L}

/-- A call whose answer is kept does what it does when it is forgotten. -/
theorem call_eq_respond (fuel : Nat) (c : Call L) (r : Recognizer L) :
    call fuel c r = (respond fuel c r).map (Prod.map (fun _ => ()) id) := by
  have forget {α : Type} (act : Recognizing L α) (f : α → Response L) :
      (act >>= fun _ => pure ()) r =
      ((act >>= fun a => pure (f a)) r).map (Prod.map (fun _ => ()) id) := by
    show Except.bind (act r) (fun p => .ok ((), p.2)) =
      (Except.bind (act r) fun p => .ok (f p.1, p.2)).map _
    cases act r <;> rfl
  cases c with
  | reset => rfl
  | _ => exact forget _ _

theorem call_of_respond {c : Call L} {response : Response L}
    (run : respond fuel c r = .ok (response, r')) : call fuel c r = .ok ((), r') := by
  rw [call_eq_respond, run]
  rfl

theorem callAll_eq_respondAll (fuel : Nat) (calls : List (Call L)) (r : Recognizer L) :
    callAll fuel calls r = (respondAll fuel calls r).map (Prod.map (fun _ => ()) id) := by
  induction calls generalizing r with
  | nil => rfl
  | cons c rest ih =>
    show Except.bind (call fuel c r) (fun p => callAll fuel rest p.2) =
      (Except.bind (respond fuel c r) fun p => Except.bind (respondAll fuel rest p.2) fun q =>
        .ok ((p.1, p.2.steps) :: q.1, q.2)).map _
    rw [call_eq_respond]
    cases respond fuel c r with
    | error e => rfl
    | ok p =>
      show callAll fuel rest p.2 = (Except.bind (respondAll fuel rest p.2) _).map _
      rw [ih]
      cases respondAll fuel rest p.2 <;> rfl

end Recognizer

section Calls

variable {L : Type} [DecidableEq L] {links : Links} {origin : Meaning} {D : Readings L} {W : World}
  {r r' : Recognizer L}

theorem respond_settles (h : Consistent links origin W r)
    (rooted : ∃ O, Rooted D O W r.grammar r.start) (c : Call L) :
    r.Settles (fun fuel => Recognizer.respond fuel c) fun _ r' =>
      ∃ W', Follows links origin W r W' r' := by
  suffices settles : r.Settles (fun fuel => Recognizer.respond fuel c) fun _ _ => True from
    settles.of_runs fun _ _ _ run _ => call_follows h (Recognizer.call_of_respond run)
  cases c with
  | feed s =>
    exact (feed_settles h s).bind (fun _ _ ⟨_, fed⟩ => fed.follows.settings)
      fun _ r' _ => .inl ⟨_, r', .const rfl, trivial⟩
  | accepted =>
    obtain ⟨answer, r', asking⟩ := exists_accepted h
    exact .inl ⟨_, r', .bind asking (.const rfl), trivial⟩
  | recognize symbols =>
    exact (recognize_settles h symbols).bind
      (fun _ _ ⟨_, recognized⟩ => recognized.follows.settings)
      fun _ r' _ => .inl ⟨_, r', .const rfl, trivial⟩
  | parse symbols =>
    exact (parse_settles h rooted symbols).bind (fun _ _ ⟨_, parsed⟩ => parsed.follows.settings)
      fun _ r' _ => .inl ⟨_, r', .const rfl, trivial⟩
  | forest =>
    obtain ⟨O, rooted⟩ := rooted
    obtain ⟨f, W', g', reading, -⟩ := exists_forest h rooted
    exact .inl ⟨_, r.withGrammar g', .bind reading (.const rfl), trivial⟩
  | reset => exact .inl ⟨_, { r with taken := #[] }, .const rfl, trivial⟩

theorem call_settles (h : Consistent links origin W r)
    (rooted : ∃ O, Rooted D O W r.grammar r.start) (c : Call L) :
    r.Settles (fun fuel => Recognizer.call fuel c) fun _ r' =>
      ∃ W', Follows links origin W r W' r' :=
  (respond_settles h rooted c).map
    (fun fuel => Recognizer.call_eq_respond fuel c r) fun _ _ so => so

/-- Given enough fuel, calls are answered one after the other. -/
theorem respondAll_settles (h : Consistent links origin W r)
    (rooted : ∃ O, Rooted D O W r.grammar r.start) (calls : List (Call L)) :
    r.Settles (fun fuel => Recognizer.respondAll fuel calls) fun _ _ => True := by
  induction calls generalizing W r with
  | nil => exact .inl ⟨_, r, .const rfl, trivial⟩
  | cons c rest ih =>
    refine (respond_settles h rooted c).bind (fun _ _ ⟨_, follows⟩ => follows.settings)
      fun response r₁ ⟨W₁, follows⟩ => ?_
    -- how many symbols have been consumed is looked up in between
    rcases ih follows.consistent (follows.rooted D rooted) with ⟨responses, r₂, answers, -⟩ | broken
    · exact .inl ⟨_, r₂, .bind (a := r₁) (.const rfl) (.bind answers (.const rfl)), trivial⟩
    · exact .inr (.after (a := r₁) (.const rfl) rfl broken.bind)

/-! ### When calls break -/

/-- Whether a recognizer that has consumed nothing consumes a symbol in the course of the call. -/
def Call.consumes {L : Type} : Call L → Bool
  | .feed _ => true
  | .recognize symbols | .parse symbols => !symbols.isEmpty
  | .accepted | .forest | .reset => false

/-- A recognizer that has consumed nothing, with a start that is not the node that matches
nothing. -/
structure Recognizer.Idle (r : Recognizer L) : Prop where
  taken : r.taken = #[]
  alive : r.start ≠ nothing

omit [DecidableEq L] in
theorem Recognizer.Idle.isDead_eq (idle : r.Idle) : r.isDead = false := by
  have current : r.current = r.start := by rw [Recognizer.current, idle.taken]; rfl
  exact Bool.eq_false_iff.mpr fun dead => idle.alive (current ▸ Recognizer.isDead_iff.mp dead)

theorem respond_breaks_iff (h : Consistent links origin W r)
    (rooted : ∃ O, Rooted D O W r.grammar r.start) (idle : r.Idle) (c : Call L) :
    r.Breaks (fun fuel => Recognizer.respond fuel c) ↔
      r.settings.collectEvery = some 0 ∧ c.consumes := by
  have answered {response : Response L} {r' : Recognizer L}
      (answers : Answers (fun fuel => Recognizer.respond fuel c) r (response, r'))
      (quiet : c.consumes = false) :
      r.Breaks (fun fuel => Recognizer.respond fuel c) ↔
        r.settings.collectEvery = some 0 ∧ c.consumes :=
    iff_of_false (fun broken => broken.not_answers answers) fun ⟨_, consumes⟩ => by
      cases quiet.symm.trans consumes
  have some_iff (symbols : List (Symbol L)) : (!symbols.isEmpty) = true ↔ symbols ≠ [] := by
    cases symbols <;> simp
  cases c with
  | feed s =>
    refine ⟨fun broken => ⟨broken.zero, rfl⟩, fun ⟨zero, _⟩ => (feed_breaks h ?_ zero s).bind⟩
    exact fun dead => by cases idle.isDead_eq.symm.trans dead.2
  | accepted =>
    obtain ⟨answer, r', asking⟩ := exists_accepted h
    exact answered (.bind asking (.const rfl)) rfl
  | recognize symbols =>
    refine Recognizer.breaks_bind_pure.trans ((recognize_breaks_iff h idle.alive _).trans ?_)
    exact and_congr_right fun _ => (some_iff symbols).symm
  | parse symbols =>
    refine Recognizer.breaks_bind_pure.trans
      ((parse_breaks_iff h rooted idle.alive symbols).trans ?_)
    exact and_congr_right fun _ => (some_iff symbols).symm
  | forest =>
    obtain ⟨O, rooted⟩ := rooted
    obtain ⟨f, W', g', reading, -⟩ := exists_forest h rooted
    exact answered (.bind reading (.const rfl)) rfl
  | reset => exact answered (.const rfl) rfl

theorem taken_of_recognize {symbols : List (Symbol L)} {fuel : Nat} {o : Recognition}
    (h : Consistent links origin W r) (idle : r.Idle) (zero : r.settings.collectEvery = some 0)
    (run : Recognizer.recognize fuel symbols r = .ok (o, r')) : r'.taken = #[] := by
  have breaks_iff := recognize_breaks_iff h idle.alive symbols
  have quiet : symbols = [] := Classical.byContradiction fun some =>
    (breaks_iff.mpr ⟨zero, some⟩).not_answers (recognize_answers run)
  subst quiet
  obtain ⟨r₁, feeding, -, asking⟩ := recognize_ok.mp run
  obtain ⟨-, rfl⟩ := Action.pure_ok.mp feeding
  obtain ⟨g', -, rfl⟩ := Recognizer.accepted_ok.mp asking
  rfl

/-- With a period of no steps only calls that consume nothing are answered. -/
theorem idle_of_call {c : Call L} {fuel : Nat} {u : Unit} (h : Consistent links origin W r)
    (idle : r.Idle) (zero : r.settings.collectEvery = some 0)
    (run : Recognizer.call fuel c r = .ok (u, r')) : r'.Idle := by
  obtain ⟨W', follows⟩ := call_follows h run
  refine ⟨?_, follows.alive idle.alive⟩
  cases c with
  | feed s =>
    obtain ⟨alive, r₁, feeding, last⟩ := Action.bind_ok.mp run
    obtain ⟨-, rfl⟩ := Action.pure_ok.mp last
    obtain ⟨-, rfl⟩ := stopped_of_feed zero feeding
    exact idle.taken
  | accepted =>
    obtain ⟨answer, r₁, asking, last⟩ := Action.bind_ok.mp run
    obtain ⟨-, rfl⟩ := Action.pure_ok.mp last
    obtain ⟨g', -, rfl⟩ := Recognizer.accepted_ok.mp asking
    exact idle.taken
  | recognize symbols =>
    obtain ⟨o, r₁, recognizing, last⟩ := Action.bind_ok.mp run
    obtain ⟨-, rfl⟩ := Action.pure_ok.mp last
    exact taken_of_recognize h idle zero recognizing
  | parse symbols =>
    obtain ⟨answer, r₁, parsing, last⟩ := Action.bind_ok.mp run
    obtain ⟨-, rfl⟩ := Action.pure_ok.mp last
    obtain ⟨o, r₂, recognizing, rest⟩ := Action.bind_ok.mp parsing
    have taken := taken_of_recognize h idle zero recognizing
    split at rest
    · obtain ⟨f, r₃, reading, last⟩ := Action.bind_ok.mp rest
      obtain ⟨-, rfl⟩ := Action.pure_ok.mp last
      obtain ⟨g', -, rfl⟩ := Recognizer.forest_ok.mp reading
      exact taken
    · obtain ⟨-, rfl⟩ := Action.pure_ok.mp rest
      exact taken
  | forest =>
    obtain ⟨f, r₁, reading, last⟩ := Action.bind_ok.mp run
    obtain ⟨-, rfl⟩ := Action.pure_ok.mp last
    obtain ⟨g', -, rfl⟩ := Recognizer.forest_ok.mp reading
    exact idle.taken
  | reset =>
    obtain rfl := Action.modify_ok.mp run
    rfl

/-- Calls break exactly if one of them consumes a symbol and the period is of no steps. By induction
on the calls: before that one nothing has been consumed. -/
theorem respondAll_breaks_iff (h : Consistent links origin W r)
    (rooted : ∃ O, Rooted D O W r.grammar r.start) (idle : r.Idle) (calls : List (Call L)) :
    r.Breaks (fun fuel => Recognizer.respondAll fuel calls) ↔
      r.settings.collectEvery = some 0 ∧ ∃ c ∈ calls, c.consumes := by
  induction calls generalizing W r with
  | nil =>
    have answers : Answers (fun fuel => Recognizer.respondAll fuel []) r ([], r) := .const rfl
    exact iff_of_false
      (fun broken => broken.not_answers answers) fun ⟨_, _, member, _⟩ => nomatch member
  | cons c rest ih =>
    by_cases zero : r.settings.collectEvery = some 0
    · have breaks_iff := respond_breaks_iff h rooted idle c
      rcases respond_settles h rooted c with ⟨response, r₁, answers, W₁, follows⟩ | broken
      · have quiet : ¬c.consumes := fun consumes =>
          (breaks_iff.mpr ⟨zero, consumes⟩).not_answers answers
        have idle₁ : r₁.Idle := by
          obtain ⟨N, answers⟩ := answers
          exact idle_of_call h idle zero (Recognizer.call_of_respond (answers N (Nat.le_refl N)))
        have rooted₁ := follows.rooted D rooted
        have later := ih follows.consistent rooted₁ idle₁
        rw [follows.settings] at later
        rw [List.exists_mem_cons_iff, or_iff_right quiet, ← later]
        constructor
        · intro broken
          refine (respondAll_settles follows.consistent rooted₁
            rest).resolve_left fun ⟨_, _, answers', _⟩ => ?_
          exact broken.not_answers
            (.bind answers (.bind (a := r₁) (.const rfl) (.bind answers' (.const rfl))))
        · intro broken
          have looked : r₁.Breaks fun fuel => do
              let steps := (← get).steps
              let later ← Recognizer.respondAll fuel rest
              return (response, steps) :: later := .after (a := r₁) (.const rfl) rfl broken.bind
          exact .after answers follows.settings looked
      · exact iff_of_true broken.bind ⟨zero, c, .head _, (breaks_iff.mp broken).2⟩
    · exact iff_of_false (fun broken => zero broken.zero) fun both => zero both.1

end Calls

section Histories

variable {L : Type} [DecidableEq L] {source : Source} {settings : Settings} {r : Recognizer L}

/-- A recognizer that was just made has consumed nothing. -/
theorem idle_of_recognizer (built : source.recognizer settings = .ok r) : r.Idle := by
  refine ⟨?_, after_alive (after_nil 0 built)⟩
  obtain ⟨W, g, start, rfl, -⟩ := exists_founded built
  rfl

/-- Whatever is asked of a recognizer, however its rules go round in circles, comes to an end, given
enough fuel; and from some amount on it does not matter how much there is. It is answered, unless
the period is of no steps and one of the calls consumes a symbol. -/
theorem calls_settled (built : source.recognizer settings = .ok r) (calls : List (Call L)) :
    r.Settles (fun fuel => Recognizer.callAll fuel calls) (fun _ _ => True) ∧
      (r.Breaks (fun fuel => Recognizer.callAll fuel calls) ↔
        settings.collectEvery = some 0 ∧ ∃ c ∈ calls, c.consumes) ∧
      ∃ N, ∀ fuel ≥ N, Recognizer.callAll fuel calls r ≠ .error .outOfFuel := by
  obtain ⟨W, consistent, -, same, -, rooted⟩ := recognizer_consistent built
  have calling (fuel : Nat) := Recognizer.callAll_eq_respondAll fuel calls r
  have settles : r.Settles (fun fuel => Recognizer.callAll fuel calls) fun _ _ => True :=
    (respondAll_settles consistent rooted calls).map calling fun _ _ so => so
  refine ⟨settles, ?_, ?_⟩
  · rw [← same]
    exact (Recognizer.breaks_map calling).trans
      (respondAll_breaks_iff consistent rooted (idle_of_recognizer built) calls)
  · rcases settles with ⟨_, _, ⟨N, answers⟩, -⟩ | ⟨-, N, fails⟩
    · exact ⟨N, fun fuel le exhausted => nomatch (answers fuel le).symm.trans exhausted⟩
    · exact ⟨N, fun fuel le exhausted => nomatch (fails fuel le).symm.trans exhausted⟩

/-- Two rules that are each other, on the left of a token and alone; and one that matches
nothing. -/
def hopeless : Source :=
  .ruled [("A", .alt (.rule "B") (.cat (.rule "A") (.token 2))),
    ("B", .alt (.rule "A") (.rule "C")), ("C", .cat (.token 2) (.rule "C"))] "A"

theorem calls_settled_hopeless : ∃ r : Recognizer String, hopeless.recognizer {} = .ok r ∧
    (∃ u r', Answers (fun fuel => Recognizer.callAll fuel
      [.feed ⟨2, "a"⟩, .accepted, .recognize [⟨2, "a"⟩, ⟨2, "b"⟩], .reset, .feed ⟨3, "c"⟩]) r
        (u, r') ∧ True) ∧
    ∃ N, ∀ fuel ≥ N, Recognizer.callAll fuel
      [.feed ⟨2, "a"⟩, .accepted, .recognize [⟨2, "a"⟩, ⟨2, "b"⟩], .reset, .feed ⟨3, "c"⟩] r ≠
        .error .outOfFuel := by
  obtain ⟨r, built⟩ := exists_recognizer
    (show (hopeless.recognizer {} : Except Error (Recognizer String)).isOk = true by
    decide +kernel) {}
  obtain ⟨settles, -, lasts⟩ := calls_settled built
    [.feed ⟨2, "a"⟩, .accepted, .recognize [⟨2, "a"⟩, ⟨2, "b"⟩], .reset, .feed ⟨3, "c"⟩]
  exact ⟨r, built, settles.answers (settings_of_recognizer built ▸ nofun), lasts⟩

end Histories

end DerivativeParsing
