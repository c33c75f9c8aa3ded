import DerivativeParsing.Proofs.Shapes
import DerivativeParsing.Proofs.Shrinking

/-!
# What a question about the empty word finds out

When culling decides whether a node matches something, it gives a thunk that has not been evaluated
the benefit of the doubt. A node whose nullability has been asked for needs no such benefit: the
question has evaluated every thunk on its way, and where it had no need to look any further it had
found a word.

1. `Vital`: a node stands for a word if it is found to match something.
2. `Seen`: how far a question about nullability has looked. `Probed`: the bodies of the rules that
   are done have been seen. `Evaluates.probed`: evaluation keeps this, and what was asked for has
   been seen.
3. `Probed.vital`: when nothing is under way, what has been seen is vital.
4. `Vetted`: between actions, every rule that was ever asked for is vital. `Evaluates.vetted`,
   `Evaluates.vital`.
-/

namespace DerivativeParsing

open Grammar (nothing lt_size_of_get?)

/-! ## Vital nodes -/

/-- Some word of a language. -/
def Ranked.Lives (a : Ranked) : Prop := ∃ w, a.Holds w

theorem Meaning.Refines.lives {a b : Meaning} (h : a.Refines b) (lives : a.words.Lives) :
    b.words.Lives :=
  lives.imp h.1

theorem Meaning.Joins.lives {a b c : Meaning} (h : a.Joins b c) (left : a.words.Lives)
    (right : b.words.Lives) : c.words.Lives := by
  obtain ⟨u, hu⟩ := left
  obtain ⟨v, hv⟩ := right
  exact ⟨u ++ v, h.words u v hu hv⟩

/-- A node that stands for a word, if it is found to match something. -/
def Vital {L : Type} (W : World) (g : Grammar L) (x : Nat) : Prop :=
  g.Productive x → (W x).words.Lives

theorem Thunk.target?_of_resolved? {L : Type} {t : Thunk L} {target : NodeId}
    (h : t.resolved? = some target) : t.state.target? = some target := by
  obtain ⟨s, state⟩ := t
  cases state with
  | pending | running => cases h
  | forced => exact h
  | culled next =>
    cases h
    rfl

theorem ThunkState.target?_cases {L : Type} {state : ThunkState} {target : NodeId}
    (h : state.target? = some target) :
    target = nothing ∨ ∀ s : Symbol L, (⟨s, state⟩ : Thunk L).resolved? = some target := by
  cases state with
  | pending | running => cases h
  | forced next =>
    cases h
    exact .inr fun _ => rfl
  | culled next =>
    cases next with
    | none => exact .inl (Option.some.inj h).symm
    | some next =>
      cases h
      exact .inr fun _ => rfl

theorem ThunkState.isWaiting_iff {state : ThunkState} : state.isWaiting ↔ state.target? = none := by
  cases state <;> simp [isWaiting, target?]

section

variable {L : Type} [DecidableEq L] {links : Links} {W W₁ W' : World} {g g₁ g' : Grammar L}
  {x id : Nat} {kind : Kind}

omit [DecidableEq L] in
theorem World.Fits.lives_of_token (fits : W.Fits links x (.token kind : Node L))
    (some : kind ≠ Kind.void) : (W x).words.Lives := by
  by_cases epsilon : kind = Kind.epsilon
  · exact ⟨[], fits [] (.inl ⟨epsilon, rfl⟩)⟩
  · have terminal : kind.isTerminal :=
      decide_eq_true (Nat.lt_of_le_of_ne (Nat.one_le_iff_ne_zero.mpr some) (Ne.symm epsilon))
    exact ⟨[kind], fits [kind] (.inr ⟨terminal, rfl⟩)⟩

/-- What is not derived by anything depends on no thunk that has not been evaluated. -/
theorem Sound.vital_of_flat (sound : Sound links W g) (proper : g.Proper)
    (flat : (W x).trace = []) : Vital W g x := by
  refine fun productive =>
    productive.least (P := fun x => (W x).trace = [] → (W x).words.Lives) ?_ flat
  intro x node there _ shows flat
  have fits := sound.node x node there
  have prefix_nil {t : Word} (h : t <+: (W x).trace) : t = [] := List.prefix_nil.mp (flat ▸ h)
  cases node with
  | empty => exact shows.elim
  | token => exact fits.lives_of_token shows
  | matched => exact ⟨[], fits⟩
  | alt left right =>
    rcases shows with shows | shows
    · exact fits.1.lives (shows (prefix_nil fits.1.2.1))
    · exact fits.2.lives (shows (prefix_nil fits.2.2.1))
  | cat left right => exact fits.lives (shows.1 (prefix_nil fits.left)) (shows.2 fits.right)
  | rep body => exact ⟨[], fits.nil⟩
  | rule r body =>
    obtain ⟨w, hw⟩ := shows (prefix_nil fits.1.trace)
    exact ⟨w, fits.1.words w hw⟩
  | thunk t base =>
    rcases shows with waiting | ⟨target, resolved, shows⟩
    · have fits := (World.fits_waiting (ThunkState.isWaiting_iff.mp waiting)).mp fits
      cases prefix_nil fits.2.1
    · have fits := (World.fits_resolved (Thunk.target?_of_resolved? resolved)).mp fits
      exact fits.lives (shows (prefix_nil fits.2.1))
  | undefined => exact (proper x _ there).elim

/-- Evaluation makes no node match something that did not. -/
theorem Retains.productive (keep : Retains W g W' g') (formed : g.Formed) (lt : x < g.size)
    (productive : g'.Productive x) : g.Productive x := by
  refine productive.least (P := fun x => g.size > x → g.Productive x) ?_ lt
  intro x node there' _ shows lt
  obtain ⟨node₀, there⟩ := Grammar.exists_get? lt
  have formed₀ := formed.node x node₀ there
  refine (Grammar.productive_iff there).mpr ?_
  cases node₀ with
  | empty | token | matched | undefined =>
    cases (keep.fixed x _ there rfl).symm.trans there'
    exact shows
  | alt =>
    cases (keep.fixed x _ there rfl).symm.trans there'
    exact shows.imp (· formed₀.1.2.lt_size) (· formed₀.2.2.lt_size)
  | cat =>
    cases (keep.fixed x _ there rfl).symm.trans there'
    exact ⟨shows.1 formed₀.1.2.lt_size, shows.2 formed₀.2.2.lt_size⟩
  | rep => trivial
  | rule r body =>
    obtain ⟨r', there₁, -⟩ := keep.rule x r body there
    cases there₁.symm.trans there'
    exact shows formed₀.1
  | thunk t base =>
    obtain ⟨t', there₁, -, keep'⟩ := keep.thunk x t base there
    cases there₁.symm.trans there'
    cases known : t.state.target? with
    | none => exact .inl (ThunkState.isWaiting_iff.mpr known)
    | some target =>
      have known' := keep' target known
      rcases shows with waiting | ⟨target', resolved, shows⟩
      · cases (ThunkState.isWaiting_iff.mp waiting).symm.trans known'
      · cases (Thunk.target?_of_resolved? resolved).symm.trans known'
        have productive := shows (formed₀.2 target known).lt_size
        rcases ThunkState.target?_cases (L := L) known with rfl | resolved
        · exact ((Grammar.productive_iff formed.nothing).mp productive).elim
        · exact .inr ⟨target, resolved t.symbol, productive⟩

theorem Vital.retained (h : Vital W g x) (keep : Retains W g W' g') (formed : g.Formed)
    (lt : x < g.size) : Vital W' g' x := by
  intro productive
  rw [keep.world x lt]
  exact h (keep.productive formed lt productive)

/-! ## What has been seen -/

/-- How far a question about nullability has looked: up to rules that it has been asked of, and up
to nodes that are vital anyway. It need not look at the right part of a sequence, which no thunk is
below. -/
inductive Seen {L : Type} (W : World) (g : Grammar L) : Nat → Prop
  | vital {x : Nat} : Vital W g x → Seen W g x
  | undefined {x : Nat} {name : String} : g.arena.get? x = some (.undefined name) → Seen W g x
  | alt {x left right : Nat} : g.arena.get? x = some (.alt left right) → Seen W g left →
    Seen W g right → Seen W g x
  | cat {x left right : Nat} : g.arena.get? x = some (.cat left right) → Seen W g left → Seen W g x
  | thunk {x base target : Nat} {t : Thunk L} : g.arena.get? x = some (.thunk t base) →
    t.state.target? = some target → Seen W g target → Seen W g x
  | rule {x body : Nat} {r : Rule} :
    g.arena.get? x = some (.rule r body) → r.fixpoint ≠ .unstarted → Seen W g x

def Grammar.IsDone {L : Type} (g : Grammar L) (x : Nat) : Prop :=
  ∃ r body b, g.arena.get? x = some (.rule r body) ∧ r.fixpoint = .done b

/-- What a rule whose nullability is known stands for has been seen, or the rule is vital anyway. -/
def Probed {L : Type} (W : World) (g : Grammar L) : Prop :=
  ∀ (x : Nat) r body b, g.arena.get? x = some (.rule r body) → r.fixpoint = .done b →
    Vital W g x ∨ Seen W g body

theorem Seen.retained (h : Seen W g x) (keep : Retains W g W' g') (formed : g.Formed)
    (lt : x < g.size) : Seen W' g' x := by
  induction h with
  | vital vital => exact .vital (vital.retained keep formed lt)
  | undefined there => exact .undefined (keep.fixed _ _ there rfl)
  | alt there _ _ ihl ihr =>
    have formed₀ := formed.node _ _ there
    exact .alt (keep.fixed _ _ there rfl) (ihl formed₀.1.2.lt_size) (ihr formed₀.2.2.lt_size)
  | cat there _ ih => exact .cat (keep.fixed _ _ there rfl) (ih (formed.node _ _ there).1.2.lt_size)
  | thunk there target _ ih =>
    obtain ⟨t', there', -, keep'⟩ := keep.thunk _ _ _ there
    exact .thunk there' (keep' _ target) (ih ((formed.node _ _ there).2 _ target).lt_size)
  | rule there asked =>
    obtain ⟨r', there', asked'⟩ := keep.asked _ _ _ there asked
    exact .rule there' asked'

/-- What is known of rules stays known, if their bodies have been seen where it is new. -/
theorem Probed.retained (h : Probed W g) (keep : Retains W g W' g') (formed : g.Formed)
    (new : ∀ (x : Nat) r body b, g'.arena.get? x = some (.rule r body) → r.fixpoint = .done b →
      g.IsDone x ∨ Seen W' g' body) : Probed W' g' := by
  intro x r body b there' done
  rcases new x r body b there' done with ⟨r₀, body₀, b₀, there, done₀⟩ | seen
  · obtain ⟨r₁, there₁, -⟩ := keep.rule x r₀ body₀ there
    cases there₁.symm.trans there'
    rcases h x r₀ body b₀ there done₀ with vital | seen
    · exact .inl (vital.retained keep formed (lt_size_of_get? there))
    · exact .inr (seen.retained keep formed (formed.node x _ there).1)
  · exact .inr seen

namespace Probed

theorem of_arena (h : Probed W g) (keep : Retains W g W g') (formed : g.Formed)
    (arena : g'.arena = g.arena) : Probed W g' :=
  h.retained keep formed fun _ r body b there done => .inl ⟨r, body, b, arena ▸ there, done⟩

theorem withFixed {node : Node L} {m : Meaning} (h : Probed W g) (formed : g.Formed)
    (fixed : node.isFixed) : Probed (W.put g.size m) (g.withNode node) := by
  have ext : Extends W g (W.put g.size m) (g.withNode node) := .withFixed fixed m
  refine h.retained ext.retains formed fun x r body b there done => ?_
  rw [Grammar.get?_withNode] at there
  split at there
  · cases there
    cases fixed
  · exact .inl ⟨r, body, b, there, done⟩

theorem withDerivedRule {r : Rule} {body : Nat} {s : Symbol L} {m m' : Meaning} (h : Probed W g)
    (formed : g.Formed) (there : g.arena.get? id = some (.rule r body)) :
    Probed ((W.put g.size m).put (g.size + 1) m') (g.withDerivedRule id r body s) := by
  have ext : Extends W g ((W.put g.size m).put (g.size + 1) m') (g.withDerivedRule id r body s) :=
    .withDerivedRule
  refine h.retained ext.retains formed fun x r' body' b there' done => ?_
  rw [Grammar.get?_withDerivedRule there] at there'
  split at there'
  · cases there'
    cases done
  · split at there'
    · cases there'
    · split at there'
      · rename_i same
        cases there'
        exact .inl ⟨r, body, b, same ▸ there, done⟩
      · exact .inl ⟨r', body', b, there', done⟩

theorem begun {r : Rule} {body : Nat} (h : Probed W g) (formed : g.Formed)
    (there : g.arena.get? id = some (.rule r body)) (state : r.fixpoint = .unstarted) :
    Probed W (g.begun id) := by
  refine h.retained (.begun there state) formed fun x r' body' b there' done => ?_
  rw [Grammar.begun, Grammar.get?_revised] at there'
  split at there'
  · rename_i same
    subst same
    rw [there] at there'
    cases there'
    cases done
  · exact .inl ⟨r', body', b, there', done⟩

theorem done {r : Rule} {body : Nat} {b : Bool} (h : Probed W g) (formed : g.Formed)
    (there : g.arena.get? id = some (.rule r body)) (state : r.fixpoint = .inProgress)
    (seen : Seen W g body) : Probed W (g.done id b) := by
  have keep : Retains W g W (g.done id b) := .done there state
  refine h.retained keep formed fun x r' body' b' there' done => ?_
  rw [Grammar.done, Grammar.get?_revised] at there'
  split at there'
  · rename_i same
    subst same
    rw [there] at there'
    cases there'
    exact .inr (seen.retained keep formed (formed.node _ _ there).1)
  · exact .inl ⟨r', body', b', there', done⟩

theorem setState {state : ThunkState} (h : Probed W g) (keep : Retains W g W g') (formed : g.Formed)
    (arena : g'.arena = (g.revised id (.setState state)).arena) : Probed W g' := by
  refine h.retained keep formed fun x r body b there done => ?_
  rw [arena, Grammar.get?_revised] at there
  split at there
  · obtain ⟨node, there, same⟩ := Option.map_eq_some_iff.mp there
    cases node <;> cases same
    exact .inl ⟨r, body, b, there, done⟩
  · exact .inl ⟨r, body, b, there, done⟩

end Probed

/-! ## Evaluation keeps this -/

/-- A question about nullability has looked at the node. -/
def Question.Looked {L : Type} (W : World) (g : Grammar L) : Question L → Prop
  | nullable id => Seen W g id
  | _ => True

variable {q : Question L} {a : Reply}

/-- A node that is found to match the empty word is vital. -/
theorem Evaluates.vital_of_nullable (h : Evaluates W g (.nullable id) (.truth true) W' g')
    (formed : g.Formed) (sound : Sound links W g) : Vital W' g' id :=
  fun _ => ⟨[], (h.sound formed sound).2 rfl⟩

theorem Evaluates.probed (h : Evaluates W g q a W' g') (ready : Ready links W g q)
    (probed : Probed W g) : Probed W' g' ∧ q.Looked W' g' := by
  have ext := h.extension
  induction h with
  | spent | rule_known | known | miss | force_other | force_resolved => exact ⟨probed, trivial⟩
  | undefined | force_running => exact ⟨probed.of_arena ext.retains ready.formed rfl, trivial⟩
  | rule_new there => exact ⟨probed.withDerivedRule ready.formed there, trivial⟩
  | thunk there hf hd ihf ihd =>
    have probed₁ := (ihf ready.force_of_derive probed hf.extension).1
    exact ⟨(ihd (ready.derive_target hf) probed₁ hd.extension).1, trivial⟩
  | @fresh W W₁ g g₁ id next s node there comb new hc ih =>
    have down := probed.of_arena (.certain W g) ready.formed rfl
    have probed₁ := (ih ready.compute down hc.extension).1
    have up : Extends W₁ g₁ W₁ (g₁.finished id s next g.provisional) := .finished
    exact ⟨probed₁.of_arena up.retains (hc.formed ready.compute.formed).1 rfl, trivial⟩
  | hit => exact ⟨probed.withFixed ready.formed rfl, trivial⟩
  | alt there hl hr ihl ihr =>
    have ready₁ := ready.after hl
    have there₁ := hl.extension.get?_fixed there rfl
    have probed₁ := (ihl (ready.left_of_alt there) probed hl.extension).1
    have probed₂ := (ihr (ready₁.right_of_alt there₁) probed₁ hr.extension).1
    exact ⟨probed₂.withFixed (ready₁.after hr).formed rfl, trivial⟩
  | cat there hb hl ihb ihl =>
    have ready₁ := ready.after hb
    have there₁ := hb.extension.get?_fixed there rfl
    have probed₁ := (ihb (ready.left_of_cat there).1 probed hb.extension).1
    have probed₂ := (ihl (ready₁.left_of_cat there₁).2 probed₁ hl.extension).1
    exact ⟨probed₂.withFixed (ready₁.after hl).formed rfl, trivial⟩
  | @cat_nullable W W₁ W₂ W₃ W₄ g g₁ g₂ g₄ id left right l skipped s there hb hl same hr ihb
      ihl ihr =>
    have ready₁ := ready.after hb
    have there₁ := hb.extension.get?_fixed there rfl
    have ready₃ := ready.right_of_consumed there hb hl same
    have probed₁ := (ihb (ready.left_of_cat there).1 probed hb.extension).1
    have probed₂ := (ihl (ready₁.left_of_cat there₁).2 probed₁ hl.extension).1
    have probed₃ : Probed W₃ (g₂.withNode (.cat l right)) := by
      rw [same]
      exact probed₂.withFixed (ready₁.after hl).formed rfl
    have probed₄ := (ihr ready₃ probed₃ hr.extension).1
    exact ⟨probed₄.withFixed (hr.formed ready₃.formed).1 rfl, trivial⟩
  | rep there hd ih =>
    have probed₁ := (ih (ready.body_of_rep there) probed hd.extension).1
    exact ⟨probed₁.withFixed (ready.after hd).formed rfl, trivial⟩
  | @nullable_plain W g id node b there plain =>
    refine ⟨probed, ?_⟩
    have fits := ready.sound.node id node there
    cases node with
    | empty => exact .vital fun productive => ((Grammar.productive_iff there).mp productive).elim
    | token =>
      exact .vital fun productive =>
        fits.lives_of_token ((Grammar.productive_iff there).mp productive)
    | matched => exact .vital fun _ => ⟨[], fits⟩
    | rep => exact .vital fun _ => ⟨[], fits.nil⟩
    | undefined => exact .undefined there
    | _ => cases plain
  | @nullable_left W W₁ g g₁ id left right there hl ih =>
    have whole : Evaluates W g (.nullable id) (.truth true) W₁ g₁ := .nullable_left there hl
    exact ⟨(ih (ready.nullable_left_of_alt there) probed hl.extension).1,
      .vital (whole.vital_of_nullable ready.formed ready.sound)⟩
  | nullable_right there hl hr ihl ihr =>
    have ready₁ := ready.after hl
    have there₁ := hl.extension.get?_fixed there rfl
    have readyl := ready₁.nullable_left_of_alt there₁
    obtain ⟨probed₁, seenl⟩ := ihl (ready.nullable_left_of_alt there) probed hl.extension
    obtain ⟨probed₂, seenr⟩ := ihr (ready₁.nullable_right_of_alt there₁) probed₁ hr.extension
    exact ⟨probed₂, .alt (hr.extension.get?_fixed there₁ rfl)
      (Seen.retained seenl hr.extension.retains ready₁.formed readyl.range) seenr⟩
  | nullable_first there hl ih =>
    obtain ⟨probed₁, seen⟩ := ih (ready.nullable_left_of_cat there) probed hl.extension
    exact ⟨probed₁, .cat (hl.extension.get?_fixed there rfl) seen⟩
  | nullable_second there hl hr ihl ihr =>
    have ready₁ := ready.after hl
    have there₁ := hl.extension.get?_fixed there rfl
    have readyl := ready₁.nullable_left_of_cat there₁
    have null := (hl.sound ready.formed ready.sound).2 rfl
    obtain ⟨probed₁, seen⟩ := ihl (ready.nullable_left_of_cat there) probed hl.extension
    exact ⟨(ihr (ready₁.nullable_right_of_cat there₁ null) probed₁ hr.extension).1,
      .cat (hr.extension.get?_fixed there₁ rfl)
      (Seen.retained seen hr.extension.retains ready₁.formed readyl.range)⟩
  | nullable_thunk there hf hn ihf ihn =>
    have probed₁ := (ihf ready.force_of_nullable probed hf.extension).1
    obtain ⟨probed₂, seen⟩ := ihn (ready.nullable_target hf) probed₁ hn.extension
    obtain ⟨t₁, there₁, known⟩ := hf.resolves there (ready.force_of_nullable.not_running there)
    obtain ⟨t₂, there₂, -, keep⟩ := hn.extension.retains.thunk _ _ _ there₁
    exact ⟨probed₂, .thunk there₂ (keep _ known) seen⟩
  | nullable_done there state => exact ⟨probed, .rule there (by rw [state]; nofun)⟩
  | nullable_cycle there state =>
    exact ⟨probed.of_arena ext.retains ready.formed rfl, .rule there (by rw [state]; nofun)⟩
  | @nullable_rule W W₁ g g₁ id body r b there state hb ih =>
    have ready₀ := ready.body_of_rule there
    obtain ⟨probed₁, seen⟩ := ih ready₀ (probed.begun ready.formed there state) hb.extension
    obtain ⟨r₁, there₁, -, -, step⟩ := hb.extension.get?_rule (Grammar.get?_begun there)
    have state₁ : r₁.fixpoint = .inProgress := by
      generalize r₁.fixpoint = fixpoint at step
      cases step
      rfl
    exact ⟨probed₁.done (hb.formed ready₀.formed).1 there₁ state₁ seen,
      .rule (Grammar.get?_done there₁) nofun⟩
  | @force_pending W W₁ g g₁ id base target t there state hd ih =>
    have ready₀ := ready.base_of_thunk there state
    have probed₁ :=
      (ih ready₀ (probed.setState (.running there state) ready.formed rfl) hd.extension).1
    obtain ⟨t₁, there₁, -, step⟩ := hd.extension.get?_thunk (Grammar.get?_running there)
    have state₁ : t₁.state = .running := by
      generalize t₁.state = state at step
      cases step
      rfl
    have keep : Retains W₁ g₁ W₁ (g₁.resolved id t base target) := .resolved there₁ state₁
    exact ⟨probed₁.setState keep (hd.formed ready₀.formed).1 rfl, trivial⟩

/-! ## When nothing is under way -/

/-- When no rule is in progress, what has been seen is vital. -/
theorem Probed.vital (probed : Probed W g) (sound : Sound links W g) (quiet : g.Quiet)
    (proper : g.Proper) (seen : Seen W g x) : Vital W g x := by
  refine fun productive => productive.least (P := fun x => Seen W g x → (W x).words.Lives) ?_ seen
  intro x node there productive shows seen
  have fits := sound.node x node there
  cases seen with
  | vital vital => exact vital productive
  | undefined there' => exact (proper x _ there').elim
  | alt there' seenl seenr =>
    cases Option.some.inj (there.symm.trans there')
    rcases shows with shows | shows
    · exact fits.1.lives (shows seenl)
    · exact fits.2.lives (shows seenr)
  | cat there' seen =>
    cases Option.some.inj (there.symm.trans there')
    -- the right part has not been looked at, but nothing has derived it
    exact fits.lives (shows.1 seen)
      (sound.vital_of_flat proper fits.right ((Grammar.productive_iff there).mp productive).2)
  | thunk there' target seen =>
    cases Option.some.inj (there.symm.trans there')
    rcases shows with waiting | ⟨target', resolved, shows⟩
    · cases (ThunkState.isWaiting_iff.mp waiting).symm.trans target
    · cases (Thunk.target?_of_resolved? resolved).symm.trans target
      exact ((World.fits_resolved target).mp fits).lives (shows seen)
  | @rule _ body r there' asked =>
    cases Option.some.inj (there.symm.trans there')
    cases state : r.fixpoint with
    | unstarted => exact absurd state asked
    | inProgress => exact absurd state (quiet x _ there).1
    | done b =>
      rcases probed x r body b there state with vital | seen
      · exact vital productive
      · obtain ⟨w, hw⟩ := shows seen
        exact ⟨w, fits.1.words w hw⟩

/-- Every rule that was asked for its nullability is vital. -/
def Vetted {L : Type} (W : World) (g : Grammar L) : Prop :=
  ∀ (x : Nat) r body, g.arena.get? x = some (.rule r body) → r.fixpoint ≠ .unstarted → Vital W g x

omit [DecidableEq L] in
theorem Vetted.of_eq (h : Vetted W g) (arena : g'.arena = g.arena) : Vetted W g' :=
  fun x r body there asked productive => h x r body (arena ▸ there) asked (productive.of_eq arena)

omit [DecidableEq L] in
theorem Vetted.probed (h : Vetted W g) : Probed W g := fun x r body b there done =>
  .inl (h x r body there (by rw [done]; nofun))

/-- A question leaves every rule that was asked for vital. -/
theorem Evaluates.vetted (h : Evaluates W g q a W' g') (ready : Ready links W g q)
    (quiet : g'.Quiet) (proper : g.Proper) (vetted : Vetted W g) : Vetted W' g' :=
  fun _ _ _ there asked =>
  (h.probed ready vetted.probed).1.vital (h.sound ready.formed ready.sound).1 quiet
    (h.proper proper)
    (.rule there asked)

theorem Evaluates.vital {b : Bool} (h : Evaluates W g (.nullable id) (.truth b) W' g')
    (ready : Ready links W g (.nullable id)) (quiet : g'.Quiet) (proper : g.Proper)
    (vetted : Vetted W g) : Vital W' g' id :=
  have ⟨probed, seen⟩ := h.probed ready vetted.probed
  probed.vital (h.sound ready.formed ready.sound).1 quiet (h.proper proper) seen

end

end DerivativeParsing
