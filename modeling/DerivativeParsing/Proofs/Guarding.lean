import DerivativeParsing.Proofs.Recognition

/-!
# Evaluation does not meet its own unfinished work

A thunk that is asked for while it is being evaluated has no answer yet, and neither has a
nonterminal that was in progress before the evaluation of a thunk began, whose answer would go into
the thunk for good.

1. `Evaluator.guarded` is evaluation that raises an alarm in either case.
2. `Faithful` says of two actions that they do the same to a grammar, and note no thunk as asked for
   too early.
3. `watched`: wherever a question may be asked, the guarded evaluation is faithful. A thunk stands
   at a higher level than its base, and at the level of the base and below nothing is frozen.
-/

namespace DerivativeParsing

open Grammar (nothing lt_size_of_get?)

/-! ## Raising the alarm -/

def Grammar.underway {L : Type} (g : Grammar L) : List NodeId :=
  (List.range g.size).filter fun id => match g.arena.get? id with
    | some (.rule r _) => r.fixpoint == .inProgress
    | _ => false

/-- Whether a slot holds a thunk that is being evaluated. -/
def Grammar.isRunning {L : Type} (g : Grammar L) (id : NodeId) : Bool :=
  match g.arena.get? id with
  | some (.thunk t _) => t.state == .running
  | _ => false

/-- Evaluation that raises the alarm when it comes to its own unfinished work: when a thunk is asked
for while it is being evaluated, or whether a frozen nonterminal matches the empty word. In the
course of the evaluation of a thunk all nonterminals are frozen that were in progress when it
began. -/
def Evaluator.guarded {L : Type} [DecidableEq L] (alarm : Error) : Nat → List NodeId → Evaluator L
  | 0, _ => failing .outOfFuel
  | fuel + 1, frozen =>
    { derive := (guarded alarm fuel frozen).deriveNode
      nullable := fun id =>
        if frozen.contains id then throw alarm else (guarded alarm fuel frozen).nullableNode id
      force := fun id g =>
        if g.isRunning id then throw alarm
          else (guarded alarm fuel (g.underway ++ frozen)).forceNode id g }

/-! ## Faithful actions -/

/-- A state with a journal. -/
class Journaled (σ : Type) where
  journal : σ → Array Event

instance {L : Type} : Journaled (Grammar L) := ⟨Grammar.journal⟩

instance {L : Type} : Journaled (Recognizer L) := ⟨fun r => r.grammar.journal⟩

/-- In a state, the action notes no thunk that is asked for too early. -/
def Hushed {σ α : Type} [Journaled σ] (act : StateT σ (Except Error) α) (s : σ) : Prop :=
  ∀ a s', act s = .ok (a, s') →
    ∀ t, Event.reentered t ∈ Journaled.journal s' → Event.reentered t ∈ Journaled.journal s

/-- In a state, the second action does what the first does, and that notes no thunk that is asked
for too early. -/
def Faithful {σ α : Type} [Journaled σ] (act act' : StateT σ (Except Error) α) (s : σ) : Prop :=
  act' s = act s ∧ Hushed act s

section Faithful

variable {σ α β : Type} [Journaled σ] {act act' : StateT σ (Except Error) α}
  {k k' : α → StateT σ (Except Error) β} {s s' : σ}

namespace Hushed

theorem of_journal (h : ∀ a s', act s = .ok (a, s') → Journaled.journal s' = Journaled.journal s) :
    Hushed act s :=
  fun a s' run _ mem => h a s' run ▸ mem

theorem pure (a : α) : Hushed (pure a : StateT σ (Except Error) α) s :=
  of_journal fun _ _ run => by rw [(Action.pure_ok.mp run).2]

theorem throw (e : Error) : Hushed (throw e : StateT σ (Except Error) α) s :=
  fun _ _ run => (Action.throw_ok.mp run).elim

theorem get : Hushed (get : StateT σ (Except Error) σ) s :=
  of_journal fun _ _ run => by rw [(Action.get_ok.mp run).2]

theorem lift (x : Except Error α) : Hushed (liftM x : StateT σ (Except Error) α) s :=
  of_journal fun _ _ run => by rw [(Action.lift_ok.mp run).2]

theorem modify {f : σ → σ} (h : Journaled.journal (f s) = Journaled.journal s) :
    Hushed (modify f : StateT σ (Except Error) Unit) s :=
  of_journal fun _ _ run => by rw [← Action.modify_ok.mp run, h]

theorem bind (first : Hushed act s) (next : ∀ a s', act s = .ok (a, s') → Hushed (k a) s') :
    Hushed (act >>= k) s := by
  intro b s₂ run t mem
  obtain ⟨a, s₁, ha, hk⟩ := Action.bind_ok.mp run
  exact first a s₁ ha t (next a s₁ ha b s₂ hk t mem)

end Hushed

namespace Faithful

theorem refl (h : Hushed act s) : Faithful act act s := ⟨rfl, h⟩

theorem pure (a : α) : Faithful (pure a : StateT σ (Except Error) α) (Pure.pure a) s :=
  .refl (.pure a)

theorem throw (e : Error) :
    Faithful (throw e : StateT σ (Except Error) α) (MonadExcept.throw e) s := .refl (.throw e)

theorem bind (first : Faithful act act' s)
    (next : ∀ a s', act s = .ok (a, s') → Faithful (k a) (k' a) s') :
    Faithful (act >>= k) (act' >>= k') s := by
  refine ⟨?_, first.2.bind fun a s' run => (next a s' run).2⟩
  show (act' s >>= fun p => k' p.1 p.2) = (act s >>= fun p => k p.1 p.2)
  rw [first.1]
  cases run : act s with
  | error e => rfl
  | ok p => exact (next p.1 p.2 run).1

/-- After an action that answers and leaves the journal as it was. -/
theorem next {a : α} (run : act s = .ok (a, s'))
    (journal : Journaled.journal s' = Journaled.journal s) (h : Faithful (k a) (k' a) s') :
    Faithful (act >>= k) (act >>= k') s := by
  refine .bind (.refl (.of_journal fun a₁ s₁ run₁ => ?_)) fun a₁ s₁ run₁ => ?_
  · cases run₁.symm.trans run
    exact journal
  · cases run₁.symm.trans run
    exact h

end Faithful

end Faithful

section Primitives

variable {L β : Type} {g : Grammar L} {id : NodeId} {node : Node L}

namespace Hushed

theorem alloc (node : Node L) : Hushed (Grammar.alloc node) g :=
  of_journal fun _ _ run => by rw [← (Grammar.alloc_ok.mp run).2]; rfl

theorem revise (id : NodeId) (f : Node L → Node L) : Hushed (Grammar.revise id f) g :=
  of_journal fun _ _ run => by rw [← Grammar.revise_ok.mp run]; rfl

theorem note {event : Event} (other : ∀ t, event ≠ .reentered t) :
    Hushed (Grammar.note event : Eval L Unit) g := by
  intro _ g' run t mem
  obtain rfl := Grammar.note_ok.mp run
  exact (Array.mem_push.mp mem).resolve_right fun same => other t same.symm

theorem fetch (id : NodeId) : Hushed (Grammar.fetch id) g :=
  of_journal fun _ _ run => by rw [(Grammar.fetch_ok.mp run).2]

end Hushed

namespace Faithful

theorem fetched {k k' : Node L → Eval L β} (there : g.arena.get? id = some node)
    (h : Faithful (k node) (k' node) g) :
    Faithful (Grammar.fetch id >>= k) (Grammar.fetch id >>= k') g :=
  .next (Grammar.fetch_ok.mpr ⟨there, rfl⟩) rfl h

theorem of_missing {k k' : Node L → Eval L β} (missing : g.arena.get? id = none) :
    Faithful (Grammar.fetch id >>= k) (Grammar.fetch id >>= k') g := by
  have fails (k : Node L → Eval L β) : (Grammar.fetch id >>= k) g = .error (.outOfRange id) := by
    show (Grammar.fetch id g >>= fun p => k p.1 p.2) = _
    rw [Grammar.fetch, Grammar.lookup, missing]
    rfl
  exact ⟨(fails k').trans (fails k).symm, fun a g' run => by rw [fails k] at run; cases run⟩

/-- A derivative that is known is answered, another is computed. -/
theorem remembering [DecidableEq L] {s : Symbol L} {act act' : Eval L NodeId}
    (h : Faithful act act' g.certain) :
    Faithful (Grammar.remembering id s act) (Grammar.remembering id s act') g := by
  refine .next (Action.get_ok.mpr ⟨rfl, rfl⟩) rfl ?_
  cases g.memo.find? id s with
  | some next => exact .pure next
  | none =>
    have lowered : (modify fun g => { g with provisional := false } : Eval L Unit) g =
        .ok ((), g.certain) := rfl
    refine .next (Action.get_ok.mpr ⟨rfl, rfl⟩) rfl (.next lowered rfl ?_)
    exact h.bind fun next g₁ _ =>
      .refl (.bind (.modify rfl) fun _ _ _ => .bind (.note nofun) fun _ _ _ => .pure _)

end Faithful

end Primitives

/-! ## Questions -/

/-- Frozen nonterminals are above a level. -/
def Apart {L : Type} (W : World) (g : Grammar L) (frozen : List NodeId) (n : Nat) : Prop :=
  ∀ x ∈ frozen, x < g.size ∧ n < W.level x

section Watched

variable {L : Type} [DecidableEq L] {links : Links} {W W₁ : World} {g g₁ : Grammar L}
  {q q' : Question L} {a : Reply} {frozen : List NodeId} {id n : Nat} {s : Symbol L} {alarm : Error}
  {fuel : Nat}

omit [DecidableEq L] in
theorem Grammar.mem_underway : id ∈ g.underway ↔
    ∃ r body, g.arena.get? id = some (.rule r body) ∧ r.fixpoint = .inProgress := by
  unfold underway
  rw [List.mem_filter, List.mem_range]
  constructor
  · rintro ⟨-, begun⟩
    split at begun
    · exact ⟨_, _, ‹_›, beq_iff_eq.mp begun⟩
    · cases begun
  · rintro ⟨r, body, there, begun⟩
    refine ⟨lt_size_of_get? there, ?_⟩
    rw [there]
    exact beq_iff_eq.mpr begun

/-- A question that may be asked where everything frozen is above its level. -/
structure Posed (links : Links) (W : World) (g : Grammar L) (frozen : List NodeId) (n : Nat)
    (q : Question L) : Prop where
  ready : Ready links W g q
  apart : Apart W g frozen n
  level : W.level q.id ≤ n

theorem Posed.extended (h : Posed links W g frozen n q) (ext : Extends W g W₁ g₁)
    (ready : Ready links W₁ g₁ q) : Posed links W₁ g₁ frozen n q where
  ready := ready
  apart x hx := by
    obtain ⟨lt, above⟩ := h.apart x hx
    exact ⟨Nat.lt_of_lt_of_le lt ext.size, by rwa [ext.level lt]⟩
  level := by
    rw [ext.level h.ready.range]
    exact h.level

/-- A question may still be asked after another was answered. -/
theorem Posed.after (h : Posed links W g frozen n q) (he : Evaluates W g q' a W₁ g₁) :
    Posed links W₁ g₁ frozen n q :=
  h.extended he.extension (h.ready.after he)

theorem Posed.sub (h : Posed links W g frozen n q) (size : g₁.size = g.size)
    (ready : Ready links W g₁ q') (le : W.level q'.id ≤ W.level q.id) :
    Posed links W g₁ frozen n q' where
  ready := ready
  apart x hx := size ▸ h.apart x hx
  level := Nat.le_trans le h.level

/-- What a thunk stands for has no higher level. -/
theorem Posed.target {target : NodeId} (h : Posed links W g frozen n q) (same : q.id = id)
    (ready : Ready links W g (.force id)) (he : Evaluates W g (.force id) (.node target) W₁ g₁)
    (next : Ready links W₁ g₁ q') (is : q'.id = target) : Posed links W₁ g₁ frozen n q' := by
  have refines : (W₁ target).Refines (W₁ id) := (he.sound ready.formed ready.sound).2
  refine (h.after he).sub rfl next ?_
  rw [is, same]
  exact refines.level_le

/-- At the level of its base and below, nothing is in progress or frozen when a thunk is
evaluated. -/
theorem Posed.base {t : Thunk L} {base : NodeId} (h : Posed links W g frozen n (.force id))
    (there : g.arena.get? id = some (.thunk t base)) (state : t.state = .pending) :
    Posed links W (g.running id) (g.underway ++ frozen) (W.level base) (.derive base t.symbol) where
  ready := h.ready.base_of_thunk there state
  apart x hx := by
    have lower : W.level base < W.level id :=
      ((World.fits_waiting (by rw [state]; rfl)).mp (h.ready.sound.node id _ there)).2.length_le
    rw [Grammar.running, Grammar.size_revised]
    rcases List.mem_append.mp hx with hx | hx
    · obtain ⟨r, body, there', begun⟩ := Grammar.mem_underway.mp hx
      exact ⟨lt_size_of_get? there', Nat.lt_of_lt_of_le lower (h.ready.begun x r body there' begun)⟩
    · obtain ⟨lt, above⟩ := h.apart x hx
      exact ⟨lt, Nat.lt_of_lt_of_le (Nat.lt_of_lt_of_le lower h.level) (Nat.le_of_lt above)⟩
  level := Nat.le_refl _

/-- With so much fuel, the guarded evaluation is faithful wherever a question may be asked. -/
structure Watched (L : Type) [DecidableEq L] (alarm : Error) (fuel : Nat) : Prop where
  derive : ∀ {links W} {g : Grammar L} {frozen id n s}, Posed links W g frozen n (.derive id s) →
    Faithful (Grammar.derive fuel id s) ((Evaluator.guarded alarm fuel frozen).derive id s) g
  nullable : ∀ {links W} {g : Grammar L} {frozen id n}, Posed links W g frozen n (.nullable id) →
    Faithful (Grammar.nullable fuel id) ((Evaluator.guarded alarm fuel frozen).nullable id) g
  force : ∀ {links W} {g : Grammar L} {frozen id n}, Posed links W g frozen n (.force id) →
    Faithful (Grammar.force fuel id) ((Evaluator.guarded alarm fuel frozen).force id) g

theorem Watched.zero : Watched L alarm 0 where
  derive _ := .throw _
  nullable _ := .throw _
  force _ := .throw _

variable (ih : Watched L alarm fuel)
include ih

/-! ### Derivatives -/

section Derivatives

variable (h : Posed links W g frozen n (.derive id s))
include h

theorem Watched.derive_combinator {node : Node L} (there : g.arena.get? id = some node)
    (comb : node.isCombinator) :
    Faithful (Grammar.derive (fuel + 1) id s)
      ((Evaluator.guarded alarm (fuel + 1) frozen).derive id s) g := by
  have computing := h.ready.compute
  have part (x : NodeId) (ready : Ready links W g.certain (.derive x s))
      (le : W.level x ≤ W.level id) :
      Posed links W g.certain frozen n (.derive x s) := h.sub rfl ready le
  have fits := h.ready.sound.node id _ there
  show Faithful ((Evaluator.plain fuel).deriveNode id s)
    ((Evaluator.guarded alarm fuel frozen).deriveNode id s) g
  refine .fetched there ?_
  cases node with
  | token kind =>
    refine .refl (Faithful.remembering (.refl (.of_journal fun next g' run => ?_))).2
    have run := Grammar.deriveToken_ok.mp run
    split at run
    · rw [← run.2]
      rfl
    · rw [← run.2]
  | alt left right =>
    have posedl := part left (computing.left_of_alt there) fits.1.level_le
    have posedr := part right (computing.right_of_alt there) fits.2.level_le
    refine .remembering ((ih.derive posedl).bind fun l g₁ hl => ?_)
    obtain ⟨W₁, hl⟩ := Grammar.evaluates_of_derive W hl
    exact (ih.derive (posedr.after hl)).bind fun r g₂ _ => .refl (.alloc _)
  | cat left right =>
    obtain ⟨asking, first⟩ := computing.left_of_cat there
    have joins : (W left).Joins (W right) (W id) := fits
    have posedb : Posed links W g.certain frozen n (.nullable left) :=
      h.sub rfl asking joins.left.length_le
    have posedl := part left first joins.left.length_le
    have second := computing.right_of_cat there
    have level : W.level right ≤ W.level id := by
      show (W right).trace.length ≤ _
      rw [joins.right]
      exact Nat.zero_le _
    have posedr := part right second level
    refine .remembering ((ih.nullable posedb).bind fun b g₁ hb => ?_)
    obtain ⟨W₁, hb⟩ := Grammar.evaluates_of_nullable W hb
    cases b with
    | false =>
      exact (ih.derive (posedl.after hb)).bind fun l g₂ _ => .refl (.alloc _)
    | true =>
      refine (ih.derive (posedl.after hb)).bind fun l g₂ hl => ?_
      obtain ⟨W₂, hl⟩ := Grammar.evaluates_of_derive W₁ hl
      obtain ⟨W₃, same⟩ : ∃ W₃, W₃ = W₂.put g₂.size
          (((W₂ id).after s.kind).withWords ((W₂ l).words.concat (W₂ right).words)) := ⟨_, rfl⟩
      have new : Extends W₂ g₂ W₃ (g₂.withNode (.cat l right)) := .put same rfl
      have posed := posedr.extended ((hb.extension.trans hl.extension).trans new)
        (computing.right_of_consumed there hb hl same)
      refine .next (Grammar.alloc_ok.mpr ⟨rfl, rfl⟩) rfl ?_
      exact (ih.derive posed).bind fun skipped g₃ _ => .refl (.alloc _)
  | rep body =>
    have posed := part body (computing.body_of_rep there) fits.body.level_le
    exact .remembering ((ih.derive posed).bind fun d g₁ _ => .refl (.alloc _))
  | _ => cases comb

theorem Watched.derive_succ :
    Faithful (Grammar.derive (fuel + 1) id s)
      ((Evaluator.guarded alarm (fuel + 1) frozen).derive id s) g := by
  obtain ⟨node, there⟩ : ∃ node, g.arena.get? id = some node := Grammar.exists_get? h.ready.range
  by_cases comb : node.isCombinator
  · exact ih.derive_combinator h there comb
  show Faithful ((Evaluator.plain fuel).deriveNode id s)
    ((Evaluator.guarded alarm fuel frozen).deriveNode id s) g
  refine .fetched there ?_
  cases node with
  | empty | matched => exact .pure nothing
  | undefined name => exact .refl (.bind (.note nofun) fun _ _ _ => .pure _)
  | rule r body =>
    refine .refl (.of_journal fun next g' run => ?_)
    have run := Grammar.deriveRule_ok.mp run
    split at run
    · rw [run.2]
    · rw [← run.2]
      rfl
  | thunk t base =>
    have asking := h.ready.force_of_derive
    refine (ih.force (h.sub rfl asking (Nat.le_refl _))).bind fun target g₁ hf => ?_
    obtain ⟨W₁, hf⟩ := Grammar.evaluates_of_force W hf
    exact ih.derive (h.target rfl asking hf (h.ready.derive_target hf) rfl)
  | token | alt | cat | rep => exact absurd rfl comb

end Derivatives

/-! ### Nullability -/

theorem Watched.nullable_succ (h : Posed links W g frozen n (.nullable id)) :
    Faithful (Grammar.nullable (fuel + 1) id)
      ((Evaluator.guarded alarm (fuel + 1) frozen).nullable id) g := by
  obtain ⟨node, there⟩ : ∃ node, g.arena.get? id = some node := Grammar.exists_get? h.ready.range
  have free : ¬frozen.contains id = true := fun mem =>
    absurd (h.apart id (List.contains_iff_mem.mp mem)).2 (Nat.not_lt_of_le h.level)
  have same : (Evaluator.guarded alarm (fuel + 1) frozen : Evaluator L).nullable id =
      (Evaluator.guarded alarm fuel frozen).nullableNode id := if_neg free
  have fits := h.ready.sound.node id _ there
  rw [same]
  show Faithful ((Evaluator.plain fuel : Evaluator L).nullableNode id)
    ((Evaluator.guarded alarm fuel frozen).nullableNode id) g
  refine .fetched there ?_
  cases node with
  | empty | undefined | token | matched | rep => exact .pure _
  | alt left right =>
    have posedl := h.sub rfl (h.ready.nullable_left_of_alt there) fits.1.level_le
    have posedr := h.sub rfl (h.ready.nullable_right_of_alt there) fits.2.level_le
    refine (ih.nullable posedl).bind fun b g₁ hb => ?_
    obtain ⟨W₁, hb⟩ := Grammar.evaluates_of_nullable W hb
    cases b with
    | true => exact .pure true
    | false => exact ih.nullable (posedr.after hb)
  | cat left right =>
    have joins : (W left).Joins (W right) (W id) := fits
    have posedl := h.sub rfl (h.ready.nullable_left_of_cat there) joins.left.length_le
    refine (ih.nullable posedl).bind fun b g₁ hb => ?_
    obtain ⟨W₁, hb⟩ := Grammar.evaluates_of_nullable W hb
    cases b with
    | false => exact .pure false
    | true =>
      have null : (W left).words.Nullable := by
        have null := (hb.sound h.ready.formed h.ready.sound).2 rfl
        rwa [hb.extension.world left posedl.ready.range] at null
      have level : W.level right ≤ W.level id := by
        show (W right).trace.length ≤ _
        rw [joins.right]
        exact Nat.zero_le _
      exact ih.nullable ((h.sub rfl (h.ready.nullable_right_of_cat there null) level).after hb)
  | thunk t base =>
    have asking := h.ready.force_of_nullable
    refine (ih.force (h.sub rfl asking (Nat.le_refl _))).bind fun target g₁ hf => ?_
    obtain ⟨W₁, hf⟩ := Grammar.evaluates_of_force W hf
    exact ih.nullable (h.target rfl asking hf (h.ready.nullable_target hf) rfl)
  | rule r body =>
    obtain ⟨name, memo, fixpoint, busy⟩ := r
    cases fixpoint with
    | done answer => exact .pure answer
    | inProgress => exact .refl (.bind (.modify rfl) fun _ _ _ => .pure _)
    | unstarted =>
      have posed : Posed links W (g.begun id) frozen n (.nullable body) :=
        h.sub (Grammar.size_begun g id) (h.ready.body_of_rule there) fits.1.trace.length_le
      refine .next ((Grammar.revise_ok (u := ())).mpr rfl)
        rfl ((ih.nullable posed).bind fun b g₁ _ => ?_)
      exact .refl (.bind (.revise _ _) fun _ _ _ => .pure _)

/-! ### Thunks -/

theorem Watched.force_succ (h : Posed links W g frozen n (.force id)) :
    Faithful (Grammar.force (fuel + 1) id)
      ((Evaluator.guarded alarm (fuel + 1) frozen).force id) g := by
  obtain ⟨node, there⟩ : ∃ node, g.arena.get? id = some node := Grammar.exists_get? h.ready.range
  have idle : ¬g.isRunning id = true := by
    unfold Grammar.isRunning
    rw [there]
    cases node with
    | thunk t base => exact fun running => h.ready.not_running there (beq_iff_eq.mp running)
    | _ => exact nofun
  have same : (Evaluator.guarded alarm (fuel + 1) frozen).force id g =
      (Evaluator.guarded alarm fuel (g.underway ++ frozen)).forceNode id g := if_neg idle
  suffices Faithful ((Evaluator.plain fuel : Evaluator L).forceNode id)
      ((Evaluator.guarded alarm fuel (g.underway ++ frozen)).forceNode id)
      g from ⟨same.trans this.1, this.2⟩
  refine .fetched there ?_
  cases node with
  | thunk t base =>
    obtain ⟨symbol, state⟩ := t
    cases state with
    | forced target => exact .pure target
    | culled target => exact .pure _
    | running => exact absurd rfl (h.ready.not_running there)
    | pending =>
      have posed := h.base there rfl
      refine .next ((Grammar.revise_ok (u := ())).mpr rfl)
        rfl ((ih.derive posed).bind fun target g₁ _ => ?_)
      exact .refl (.bind (.revise _ _) fun _ _ _ => .bind (.modify rfl) fun _ _ _ =>
        .bind (.note nofun) fun _ _ _ => .pure _)
  | _ => exact .pure id

end Watched

/-- Wherever a question may be asked, the guarded evaluation is faithful. By induction on how deep
questions may nest. -/
theorem watched (L : Type) [DecidableEq L] (alarm : Error) (fuel : Nat) : Watched L alarm fuel := by
  induction fuel with
  | zero => exact .zero
  | succ fuel ih => exact ⟨ih.derive_succ, ih.nullable_succ, ih.force_succ⟩

end DerivativeParsing
