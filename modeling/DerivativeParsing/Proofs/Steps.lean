import DerivativeParsing.Proofs.Culling
import DerivativeParsing.Proofs.Termination

/-!
# Steps of recognition

1. `Stepped` says what a step answers and leaves: a node for what may follow the symbol, which
   claims nothing too much, and nothing too little if rules are stored rightly; whether nothing has
   to follow; and that something may follow a node that is not taken for dead.
2. `step_stepped`: a step that answers, answers so.
3. `exists_step`: given enough fuel, a step answers. `step_answers`: how much does not matter.
-/

namespace DerivativeParsing

open Grammar (nothing lt_size_of_get?)

/-! ## What a step is made of -/

namespace Grammar

variable {L : Type} {g g' : Grammar L} {id next : NodeId} {s : Symbol L} {culling accepts : Bool}
  {fuel : Nat}

/-- With no derivatives known. -/
def forgotten (g : Grammar L) : Grammar L := { g with memo := {} }

@[simp] theorem size_forgotten : g.forgotten.size = g.size := rfl

/-- The last part of a step: culling, if it is wanted. -/
def trimmed (next : NodeId) (culling : Bool) : Eval L NodeId := do
  if culling then return (← cull next).getD nothing else return next

theorem step_ok [DecidableEq L] : step fuel id s culling g = .ok ((next, accepts), g') ↔
    ∃ d g₁ g₂, derive fuel id s g.forgotten = .ok (d, g₁) ∧ nullable fuel d g₁ = .ok (accepts, g₂) ∧
      trimmed d culling g₂ = .ok (next, g') := by
  unfold step Evaluator.step forgetDerivatives trimmed
  constructor
  · intro h
    obtain ⟨_, _, hm, h⟩ := Action.bind_ok.mp h
    obtain rfl := Action.modify_ok.mp hm
    obtain ⟨d, g₁, hd, h⟩ := Action.bind_ok.mp h
    obtain ⟨b, g₂, hn, h⟩ := Action.bind_ok.mp h
    cases culling with
    | true =>
      obtain ⟨result, g₃, hc, h⟩ := Action.bind_ok.mp h
      obtain ⟨same, rfl⟩ := Action.pure_ok.mp h
      cases same
      exact ⟨_, g₁, g₂, hd, hn, Action.bind_ok.mpr ⟨result, g₃, hc, rfl⟩⟩
    | false =>
      obtain ⟨same, rfl⟩ := Action.pure_ok.mp h
      cases same
      exact ⟨_, g₁, g₂, hd, hn, rfl⟩
  · rintro ⟨d, g₁, g₂, hd, hn, hc⟩
    refine (Action.bind_of_ok ((Action.modify_ok (u := ())).mpr rfl)).trans ?_
    refine (Action.bind_of_ok hd).trans ?_
    refine (Action.bind_of_ok hn).trans ?_
    cases culling with
    | true =>
      obtain ⟨result, g₃, hr, h⟩ := Action.bind_ok.mp hc
      obtain ⟨rfl, rfl⟩ := Action.pure_ok.mp h
      exact Action.bind_of_ok hr
    | false =>
      obtain ⟨rfl, rfl⟩ := Action.pure_ok.mp hc
      rfl

end Grammar

/-! ## What a step does -/

/-- What a step answers, and what it leaves. -/
structure Stepped {L : Type} [DecidableEq L] (links : Links) (W : World) (g : Grammar L)
    (id : NodeId) (kind : Kind) (culling : Bool) (next : NodeId) (accepts : Bool) (W' : World)
    (g' : Grammar L) : Prop where
  carries : Carries links W g W' g'
  solid : g'.Solid next
  refines : (W' next).Refines ((W id).after kind)
  under : Trusting links W g → Trust links W' g' → ((W id).words.after kind).Under (W' next).words
  dead : culling → g.Regular → Trusting links W g → (next = nothing ↔ ∀ w, ¬(W' next).words.Holds w)
  alive : culling ∨ g.Shaped id false → g.Proper → Vetted W g → next ≠ nothing →
    ((W id).words.after kind).Lives
  shaped : culling = false → g.Proper → ∀ parts, g.Shaped id parts → g'.Shaped next parts
  sound : accepts → ((W id).words.after kind).Nullable
  complete : Trusting links W g → Trust links W' g' → ((W id).words.after kind).Nullable → accepts

section Step

variable {L : Type} [DecidableEq L] {links : Links} {W : World} {g g' : Grammar L} {id next : Nat}
  {s : Symbol L} {culling accepts : Bool} {fuel : Nat}

theorem Good.forgotten (good : Good links W g) : Carries links W g W g.forgotten :=
  .of_eq good rfl (.inr rfl)

/-- What is left after culling, if it is wanted, claims neither more nor less. -/
theorem trimmed_ok (good : Good links W g) (solid : g.Solid id) (culling : Bool) :
    ∃ next g', Grammar.trimmed id culling g = .ok (next, g') ∧ Carries links W g W g' ∧
      g'.Solid next ∧ (W next).Refines (W id) ∧
      (∀ k, Complete W g k → W.level id ≤ k → (W id).words.Under (W next).words) ∧
      (culling → g.Regular → (∀ w, ¬(W id).words.Holds w) → next = nothing) := by
  cases culling with
  | true =>
    obtain ⟨result, g', run, carries, solid', refines, under, dead⟩ := cull_ok good solid
    refine ⟨result.getD nothing, g', Action.bind_ok.mpr ⟨_, _, run, rfl⟩, carries, solid',
      refines, under, fun _ regular empty => ?_⟩
    rw [dead regular empty]
    rfl
  | false =>
    exact ⟨id, g, rfl, .refl good, solid, .refl _, fun _ _ _ => Ranked.Under.refl _, nofun⟩

omit [DecidableEq L] in
/-- Without culling nothing is done after a step. -/
theorem trimmed_false (run : Grammar.trimmed id false g = .ok (next, g')) : id = next ∧ g = g' :=
  Action.pure_ok.mp run

/-- With culling something is left only of a node that is found to match something. -/
theorem trimmed_productive (good : Good links W g) (lt : id < g.size)
    (run : Grammar.trimmed id true g = .ok (next, g')) (some : next ≠ nothing) :
    g.Productive id := by
  obtain ⟨result, g₁, hc, run⟩ := Action.bind_ok.mp run
  obtain ⟨rfl, rfl⟩ := Action.pure_ok.mp run
  cases result with
  | none => exact absurd rfl some
  | some => exact cull_productive good lt hc

theorem step_stepped (good : Good links W g)
    (h : Grammar.step fuel id s culling g = .ok ((next, accepts), g')) :
    ∃ W', Stepped links W g id s.kind culling next accepts W' g' := by
  obtain ⟨d, g₁, g₂, hd, hn, hc⟩ := Grammar.step_ok.mp h
  obtain ⟨W₁, hd⟩ := Grammar.evaluates_of_derive W hd
  obtain ⟨W₂, hn⟩ := Grammar.evaluates_of_nullable W₁ hn
  have carries₀ := good.forgotten
  have carries₁ := hd.carries carries₀.good
  have carries₂ := hn.carries carries₁.good
  have solid₁ : g₁.Solid d := (hd.formed carries₀.good.formed).2
  have solid₂ := solid₁.extended hn.extension
  have id_lt : id < g.size := hd.range
  have id_same : W₁ id = W id := carries₁.world id id_lt
  have d_same : W₂ d = W₁ d := carries₂.world d solid₁.lt_size
  have d_refines : (W₂ d).Refines ((W id).after s.kind) := by
    rw [d_same, ← id_same]
    exact (hd.sound carries₀.good.formed carries₀.good.sound).2
  obtain ⟨next', g₃, run, carries₃, solid, refines, under, dead⟩ :=
    trimmed_ok carries₂.good solid₂ culling
  cases run.symm.trans hc
  have whole := carries₀.trans (carries₁.trans (carries₂.trans carries₃))
  have d_under (trusting : Trusting links W g) (trust : Trust links W₂ g') :
      (W₂ d).words.Under (W₂ next).words :=
    have trusting₂ := (carries₀.trans (carries₁.trans carries₂)).trusting trusting
    under _ (trusting₂.complete (carries₃.trust trust) _) (Nat.le_refl _)
  refine ⟨W₂, whole, solid, refines.trans d_refines, fun trusting trust => ?_,
    fun cul regular trusting => ⟨?_, fun empty => ?_⟩, fun quick proper vetted some => ?_,
    fun uncul proper parts shaped => ?_,
    fun yes => d_refines.nullable ((hn.sound carries₁.good.formed carries₁.good.sound).2 yes),
    fun trusting trust holds => ?_⟩
  · have first := hd.under carries₀.good (carries₀.trusting trusting)
      ((carries₂.trans carries₃).trust trust)
    rw [id_same, ← d_same] at first
    exact first.trans (d_under trusting trust)
  · rintro rfl w ⟨n, hw⟩
    rw [whole.good.sound.void whole.good.formed] at hw
    exact hw
  · -- without rules there is nothing to be stored wrongly
    have trust : Trust links W₂ g' := fun _ k x r body there => by
      cases (whole.regular regular x _ there).1
    refine dead cul ((carries₀.trans (carries₁.trans carries₂)).regular regular) fun w hw => ?_
    obtain ⟨n, hw⟩ := hw
    exact empty w (d_under trusting trust n w hw).holds
  · cases culling with
    | true =>
      have productive := trimmed_productive carries₂.good solid₂.lt_size hc some
      obtain ⟨w, hw⟩ := hn.vital (carries₁.good.ready solid₁.lt_size) carries₂.good.quiet
        ((carries₀.trans carries₁).proper proper) ((carries₀.trans carries₁).vetted proper vetted)
        productive
      exact ⟨w, d_refines.1 w hw⟩
    | false =>
      obtain ⟨rfl, rfl⟩ := trimmed_false hc
      have shaped : g.forgotten.Shaped id false := quick.resolve_left Bool.false_ne_true
      exact ⟨[], hd.nullable_of_partless rfl carries₀.good.sound shaped some⟩
  · subst uncul
    obtain ⟨rfl, rfl⟩ := trimmed_false hc
    have shaped : g.forgotten.Shaped id parts := shaped
    exact hn.extension.shaped (hd.shaped rfl carries₀.good.formed (carries₀.proper proper) shaped)
  · cases accepts with
    | true => rfl
    | false =>
      obtain ⟨n, hn'⟩ := holds
      have first :=
        hd.under carries₀.good (carries₀.trusting trusting) ((carries₂.trans carries₃).trust trust)
      rw [id_same, ← d_same] at first
      exact absurd (first n [] hn').holds (hn.not_nullable carries₁.good
        ((carries₀.trans carries₁).trusting trusting) (carries₃.trust trust))

/-- A step answers with more fuel what it answers with some. -/
theorem step_answers {p : NodeId × Bool} (h : Grammar.step fuel id s culling g = .ok (p, g')) :
    Answers (fun fuel => Grammar.step fuel id s culling) g (p, g') := by
  obtain ⟨d, g₁, g₂, hd, hn, hc⟩ := Grammar.step_ok.mp h
  obtain ⟨W₁, hd⟩ := Grammar.evaluates_of_derive (fun _ => .void) hd
  obtain ⟨W₂, hn⟩ := Grammar.evaluates_of_nullable W₁ hn
  obtain ⟨N₁, hd⟩ := hd.answers
  obtain ⟨N₂, hn⟩ := hn.answers
  refine ⟨max N₁ N₂, fun fuel le => Grammar.step_ok.mpr ⟨d, g₁, g₂, ?_, ?_, hc⟩⟩
  · exact hd fuel (by omega)
  · exact hn fuel (by omega)

theorem nullable_answers {b : Bool} (h : Grammar.nullable fuel id g = .ok (b, g')) :
    Answers (fun fuel => Grammar.nullable fuel id) g (b, g') := by
  obtain ⟨W', h⟩ := Grammar.evaluates_of_nullable (fun _ => .void) h
  exact h.answers

theorem exists_nullable (good : Good links W g) (lt : id < g.size) :
    ∃ b g', Answers (fun fuel => Grammar.nullable fuel id) g (b, g') := by
  obtain ⟨b, W', g', h⟩ := (good.ready (q := .nullable id) lt).nullable_answered
  exact ⟨b, g', h.answers⟩

/-- Given enough fuel, a step answers. -/
theorem exists_step (good : Good links W g) (lt : id < g.size) (s : Symbol L) (culling : Bool) :
    ∃ p g', Answers (fun fuel => Grammar.step fuel id s culling) g (p, g') := by
  have carries₀ := good.forgotten
  obtain ⟨d, W₁, g₁, hd⟩ := (carries₀.good.ready (q := .derive id s) lt).derive_answered
  have carries₁ := hd.carries carries₀.good
  have solid₁ : g₁.Solid d := (hd.formed carries₀.good.formed).2
  obtain ⟨b, g₂, N₂, hn⟩ := exists_nullable carries₁.good solid₁.lt_size
  obtain ⟨W₂, hn'⟩ := Grammar.evaluates_of_nullable W₁ (hn N₂ (Nat.le_refl _))
  obtain ⟨next, g₃, hc, -⟩ :=
    trimmed_ok (hn'.carries carries₁.good).good (solid₁.extended hn'.extension) culling
  obtain ⟨N₁, hd⟩ := hd.answers
  refine ⟨(next, b), g₃, max N₁ N₂, fun fuel le => Grammar.step_ok.mpr ⟨d, g₁, g₂, ?_, ?_, hc⟩⟩
  · exact hd fuel (by omega)
  · exact hn fuel (by omega)

end Step

end DerivativeParsing
