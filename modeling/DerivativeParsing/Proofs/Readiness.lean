import DerivativeParsing.Proofs.Soundness
import Mathlib.Logic.Relation

/-!
# What may be asked while other questions are open

Rules in progress and thunks under evaluation are marked in the graph, and a question that comes to
them is answered too early. The level of a node is the length of its trace. Levels keep questions
apart: while a derivative is taken, everything that is marked has a higher level than the node that
is derived; while nullability is worked out, no rule of a lower level is in progress, and those of
the same level lead to every rule that the question may come to first.

1. `Ready` says that a question may be asked.
2. For each way of evaluation a lemma says that the questions it asks may be asked, if the question
   it answers may. In particular no thunk is ever asked for while it is being evaluated
   (`Ready.not_running`).
-/

namespace DerivativeParsing

open Grammar (lt_size_of_get?)

/-- The level of a node: how many symbols it has been derived by. -/
def World.level (W : World) (id : Nat) : Nat := (W id).trace.length

theorem World.level_congr {W W' : World} {x : Nat} (h : W' x = W x) : W'.level x = W.level x :=
  congrArg (fun m : Meaning => m.trace.length) h

/-- The level that rules in progress must have when a question is asked. -/
def Question.floor {L : Type} (W : World) : Question L → Nat
  | derive id _ | compute id _ => W.level id + 1
  | nullable id | force id => W.level id

/-- A question that may be asked. -/
structure Ready {L : Type} [DecidableEq L] (links : Links) (W : World) (g : Grammar L)
    (q : Question L) : Prop where
  formed : g.Formed
  sound : Sound links W g
  range : g.size > q.id
  begun : ∀ (x : Nat) r body, g.arena.get? x = some (.rule r body) → r.fixpoint = .inProgress →
    q.floor W ≤ W.level x
  running : ∀ (x : Nat) t base, g.arena.get? x = some (.thunk t base) → t.state = .running →
    W.level q.id < W.level x
  leads : ∀ (x : Nat) r body, g.arena.get? x = some (.rule r body) → r.fixpoint = .inProgress →
    W.level x = W.level q.id → ∀ head, (W q.id).heads head →
    Relation.TransGen links.leads r.name head

theorem Meaning.Within.level_le {W : World} {x y : Nat} (h : (W x).Within (W y)) :
    W.level x ≤ W.level y :=
  h.length_le

theorem Meaning.Refines.level_le {W : World} {x y : Nat} (h : (W x).Refines (W y)) :
    W.level x ≤ W.level y :=
  h.2.length_le

namespace Extends

variable {L : Type} [DecidableEq L] {W W' : World} {g g' : Grammar L}

theorem level {x : Nat} (h : Extends W g W' g') (lt : x < g.size) : W'.level x = W.level x :=
  World.level_congr (h.world x lt)

theorem begun {x : Nat} {r : Rule} {body : NodeId} (h : Extends W g W' g')
    (there : g'.arena.get? x = some (.rule r body)) (state : r.fixpoint = .inProgress) :
    x < g.size ∧ ∃ r₀, g.arena.get? x = some (.rule r₀ body) ∧ r₀.fixpoint = .inProgress ∧
      r₀.name = r.name := by
  by_cases new : g.size ≤ x
  · exact absurd state (h.idle x _ new there).1
  · have lt := Nat.lt_of_not_le new
    obtain ⟨node, there₀⟩ := Grammar.exists_get? lt
    obtain ⟨node', there', step⟩ := h.node x node there₀
    cases Option.some.inj (there.symm.trans there')
    have was : node.isBegun := step.isBegun_iff.mp state
    refine ⟨lt, ?_⟩
    cases step with
    | same => exact ⟨r, there₀, state, rfl⟩
    | rule name _ _ => exact ⟨_, there₀, was, name⟩

theorem running {x : Nat} {t : Thunk L} {base : NodeId} (h : Extends W g W' g')
    (there : g'.arena.get? x = some (.thunk t base)) (state : t.state = .running) :
    x < g.size ∧ ∃ t₀, g.arena.get? x = some (.thunk t₀ base) ∧ t₀.state = .running := by
  by_cases new : g.size ≤ x
  · exact absurd state (h.idle x _ new there).2.1
  · have lt := Nat.lt_of_not_le new
    obtain ⟨node, there₀⟩ := Grammar.exists_get? lt
    obtain ⟨node', there', step⟩ := h.node x node there₀
    cases Option.some.inj (there.symm.trans there')
    have was : node.isRunning := step.isRunning_iff.mp state
    refine ⟨lt, ?_⟩
    cases step with
    | same => exact ⟨t, there₀, state⟩
    | thunk _ _ => exact ⟨_, there₀, was⟩

end Extends

namespace Ready

variable {L : Type} [DecidableEq L] {links : Links} {W W₁ : World} {g g₁ : Grammar L}
  {q q' : Question L} {a : Reply} {id : Nat} {s : Symbol L}

theorem extended (h : Ready links W g q) (ext : Extends W g W₁ g₁) (formed : g₁.Formed)
    (sound : Sound links W₁ g₁) : Ready links W₁ g₁ q where
  formed := formed
  sound := sound
  range := Nat.lt_of_lt_of_le h.range ext.size
  begun x r body there state := by
    obtain ⟨lt, r₀, there₀, state₀, -⟩ := ext.begun there state
    have floor : q.floor W₁ = q.floor W := by
      have := ext.level h.range
      cases q <;> simp only [Question.floor, Question.id] at this ⊢ <;> rw [this]
    rw [floor, ext.level lt]
    exact h.begun x r₀ body there₀ state₀
  running x t base there state := by
    obtain ⟨lt, t₀, there₀, state₀⟩ := ext.running there state
    rw [ext.level lt, ext.level h.range]
    exact h.running x t₀ base there₀ state₀
  leads x r body there state level head hx := by
    obtain ⟨lt, r₀, there₀, state₀, name⟩ := ext.begun there state
    rw [ext.level lt, ext.level h.range] at level
    rw [ext.world q.id h.range] at hx
    rw [← name]
    exact h.leads x r₀ body there₀ state₀ level head hx

/-- A question may still be asked after another was answered. -/
theorem after (h : Ready links W g q) (he : Evaluates W g q' a W₁ g₁) : Ready links W₁ g₁ q :=
  h.extended he.extension (he.formed h.formed).1 (he.sound h.formed h.sound).1

/-- Beside the nodes and the known derivatives, changes do not matter. -/
theorem of_eq (h : Ready links W g q) (arena : g₁.arena = g.arena) (memo : g₁.memo = g.memo) :
    Ready links W g₁ q :=
  h.extended (.of_eq arena memo) (h.formed.of_eq arena memo) (h.sound.of_eq arena memo)

/-- A derivative may be taken, or nullability worked out, of what has no higher level. -/
theorem of_derive (h : Ready links W g q) (floor : q.floor W = W.level q.id + 1)
    (range : g.size > q'.id) (le : W.level q'.id ≤ W.level q.id) : Ready links W g q' where
  formed := h.formed
  sound := h.sound
  range := range
  begun x r body there state := by
    have := h.begun x r body there state
    have : q'.floor W ≤ W.level q'.id + 1 := by cases q' <;> simp [Question.floor, Question.id]
    omega
  running x t base there state := Nat.lt_of_le_of_lt le (h.running x t base there state)
  leads x r body there state level := by
    have := h.begun x r body there state
    omega

/-- Nullability may be worked out of a node with no other heads. -/
theorem of_nullable {x : Nat} (h : Ready links W g (.nullable id)) (range : g.size > x)
    (le : W.level x ≤ W.level id)
    (heads : W.level x = W.level id → ∀ head, (W x).heads head → (W id).heads head) :
    Ready links W g (.nullable x) where
  formed := h.formed
  sound := h.sound
  range := range
  begun y r body there state := Nat.le_trans le (h.begun y r body there state)
  running y t base there state := Nat.lt_of_le_of_lt le (h.running y t base there state)
  leads y r body there state level head hx := by
    have floor : W.level id ≤ W.level y := h.begun y r body there state
    have level : W.level y = W.level x := level
    have same : W.level x = W.level id := by omega
    exact h.leads y r body there state (level.trans same) head (heads same head hx)

theorem of_refines {x : Nat} (h : Ready links W g (.nullable id)) (range : g.size > x)
    (hx : (W x).Refines (W id)) : Ready links W g (.nullable x) :=
  h.of_nullable range hx.level_le fun same => (hx.2.2 (hx.2.1.eq_of_length same)).1

/-! ## The questions that are asked -/

theorem force_of_derive (h : Ready links W g (.derive id s)) : Ready links W g (.force id) :=
  h.of_derive rfl h.range (Nat.le_refl _)

theorem force_of_nullable (h : Ready links W g (.nullable id)) : Ready links W g (.force id) :=
  ⟨h.formed, h.sound, h.range, h.begun, h.running, h.leads⟩

theorem derive_target {target : NodeId} (h : Ready links W g (.derive id s))
    (hf : Evaluates W g (.force id) (.node target) W₁ g₁) :
    Ready links W₁ g₁ (.derive target s) := by
  have target_id : (W₁ target).Refines (W₁ id) := (hf.sound h.formed h.sound).2
  have solid : g₁.Solid target := (hf.formed h.formed).2
  exact (h.after hf).of_derive rfl solid.lt_size target_id.level_le

theorem compute (h : Ready links W g (.derive id s)) : Ready links W g.certain (.compute id s) := by
  have same : Ready links W g (.compute id s) := h.of_derive rfl h.range (Nat.le_refl _)
  exact same.of_eq rfl rfl

section Combinators

variable {left right body : NodeId}

theorem left_of_alt (h : Ready links W g (.compute id s))
    (there : g.arena.get? id = some (.alt left right)) : Ready links W g (.derive left s) :=
  h.of_derive rfl (h.formed.node id _ there).1.2.lt_size (h.sound.node id _ there).1.level_le

theorem right_of_alt (h : Ready links W g (.compute id s))
    (there : g.arena.get? id = some (.alt left right)) : Ready links W g (.derive right s) :=
  h.of_derive rfl (h.formed.node id _ there).2.2.lt_size (h.sound.node id _ there).2.level_le

theorem left_of_cat (h : Ready links W g (.compute id s))
    (there : g.arena.get? id = some (.cat left right)) :
    Ready links W g (.nullable left) ∧ Ready links W g (.derive left s) := by
  have range := (h.formed.node id _ there).1.2.lt_size
  have le : W.level left ≤ W.level id := (h.sound.node id _ there).left.length_le
  exact ⟨h.of_derive rfl range le, h.of_derive rfl range le⟩

theorem right_of_cat (h : Ready links W g (.compute id s))
    (there : g.arena.get? id = some (.cat left right)) : Ready links W g (.derive right s) := by
  refine h.of_derive rfl (h.formed.node id _ there).2.2.lt_size ?_
  have flat : (W right).trace = [] := (h.sound.node id _ there).right
  show (W right).trace.length ≤ _
  rw [flat]
  exact Nat.zero_le _

theorem body_of_rep (h : Ready links W g (.compute id s))
    (there : g.arena.get? id = some (.rep body)) : Ready links W g (.derive body s) :=
  h.of_derive rfl (h.formed.node id _ there).2.lt_size (h.sound.node id _ there).body.level_le

/-! ### Nullability -/

theorem nullable_left_of_alt (h : Ready links W g (.nullable id))
    (there : g.arena.get? id = some (.alt left right)) : Ready links W g (.nullable left) :=
  h.of_refines (h.formed.node id _ there).1.2.lt_size (h.sound.node id _ there).1

theorem nullable_right_of_alt (h : Ready links W g (.nullable id))
    (there : g.arena.get? id = some (.alt left right)) : Ready links W g (.nullable right) :=
  h.of_refines (h.formed.node id _ there).2.2.lt_size (h.sound.node id _ there).2

theorem nullable_left_of_cat (h : Ready links W g (.nullable id))
    (there : g.arena.get? id = some (.cat left right)) : Ready links W g (.nullable left) := by
  have joins : (W left).Joins (W right) (W id) := h.sound.node id _ there
  exact h.of_nullable (h.formed.node id _ there).1.2.lt_size joins.left.length_le fun same =>
    joins.heads_left (joins.left.eq_of_length same)

theorem nullable_right_of_cat (h : Ready links W g (.nullable id))
    (there : g.arena.get? id = some (.cat left right)) (null : (W left).words.Nullable) :
    Ready links W g (.nullable right) := by
  have joins : (W left).Joins (W right) (W id) := h.sound.node id _ there
  have flat : W.level right = 0 := by
    show (W right).trace.length = 0
    rw [joins.right]
    rfl
  refine h.of_nullable (h.formed.node id _ there).2.2.lt_size (by omega) fun same => ?_
  have flat' : (W id).trace.length = 0 := same.symm.trans flat
  exact joins.heads_right (List.length_eq_zero_iff.mp flat') null

end Combinators

theorem nullable_target {target : NodeId} (h : Ready links W g (.nullable id))
    (hf : Evaluates W g (.force id) (.node target) W₁ g₁) :
    Ready links W₁ g₁ (.nullable target) := by
  have target_id : (W₁ target).Refines (W₁ id) := (hf.sound h.formed h.sound).2
  have solid : g₁.Solid target := (hf.formed h.formed).2
  exact (h.after hf).of_refines solid.lt_size target_id

/-- The right part of a sequence may be derived after the left part was, and was put in front of
it. -/
theorem right_of_consumed {left right l : NodeId} {b : Bool} {W₂ W₃ : World} {g₂ : Grammar L}
    (h : Ready links W g (.compute id s)) (there : g.arena.get? id = some (.cat left right))
    (hb : Evaluates W g (.nullable left) (.truth b) W₁ g₁)
    (hl : Evaluates W₁ g₁ (.derive left s) (.node l) W₂ g₂)
    (same : W₃ = W₂.put g₂.size
      (((W₂ id).after s.kind).withWords ((W₂ l).words.concat (W₂ right).words))) :
    Ready links W₃ (g₂.withNode (.cat l right)) (.derive right s) := by
  have h₁ := h.after hb
  have h₂ := h₁.after hl
  have there₂ := (hb.extension.trans hl.extension).get?_fixed there rfl
  obtain ⟨formed₃, sound₃, -⟩ := h₂.sound.consumed h₂.formed there₂ (hl.formed h₁.formed).2
    (hl.sound h₁.formed h₁.sound).2 rfl
  have new : Extends W₂ g₂ W₃ (g₂.withNode (.cat l right)) := .put same rfl
  rw [← same] at sound₃
  exact (h₂.extended new formed₃ sound₃).right_of_cat (new.get?_fixed there₂ rfl)

/-- When a rule is put in progress, the nullability of its body may be worked out. -/
theorem body_of_rule {r : Rule} {body : NodeId} (h : Ready links W g (.nullable id))
    (there : g.arena.get? id = some (.rule r body)) :
    Ready links W (g.begun id) (.nullable body) := by
  have names : (W body).Names links r.name (W id) := (h.sound.node id _ there).1
  have le : W.level body ≤ W.level id := names.trace.length_le
  -- a rule in progress is the one that was put there, or was in progress before
  have split (x : Nat) (r' : Rule) (body' : NodeId)
      (there' : (g.begun id).arena.get? x = some (.rule r' body')) :
      x = id ∧ r'.name = r.name ∨ g.arena.get? x = some (.rule r' body') := by
    rw [Grammar.begun, Grammar.get?_revised] at there'
    by_cases same : id = x
    · subst same
      rw [if_pos rfl, there] at there'
      cases there'
      exact .inl ⟨rfl, rfl⟩
    · rw [if_neg same] at there'
      exact .inr there'
  refine ⟨h.formed.setFixpoint, h.sound.begun, Nat.lt_of_lt_of_le (h.formed.node id _ there).1 ?_,
    ?_, ?_, ?_⟩
  · exact Nat.le_of_eq (Grammar.size_begun g id).symm
  · intro x r' body' there' state
    rcases split x r' body' there' with ⟨rfl, -⟩ | old
    · exact le
    · exact Nat.le_trans le (h.begun x r' body' old state)
  · intro x t base there' state
    rw [Grammar.begun, Grammar.get?_revised] at there'
    by_cases same : id = x
    · subst same
      rw [if_pos rfl, there] at there'
      cases there'
    · rw [if_neg same] at there'
      exact Nat.lt_of_le_of_lt le (h.running x t base there' state)
  · intro x r' body' there' state level head hx
    have level : W.level x = W.level body := level
    rcases split x r' body' there' with ⟨rfl, name⟩ | old
    · rw [name]
      exact .single (names.heads_body (names.trace.eq_of_length level.symm) head hx)
    · have floor : W.level id ≤ W.level x := h.begun x r' body' old state
      have flat : W.level body = W.level id := by omega
      refine (h.leads x r' body' old state (level.trans flat) r.name names.head).tail ?_
      exact names.heads_body (names.trace.eq_of_length flat) head hx

/-- When a thunk is put under evaluation, its base may be derived. -/
theorem base_of_thunk {t : Thunk L} {base : NodeId} (h : Ready links W g (.force id))
    (there : g.arena.get? id = some (.thunk t base)) (state : t.state = .pending) :
    Ready links W (g.running id) (.derive base t.symbol) := by
  have fits := (World.fits_waiting (t := t) (by rw [state]; rfl)).mp (h.sound.node id _ there)
  have lt : W.level base < W.level id := fits.2.length_le
  have split (x : Nat) (node : Node L) (there' : (g.running id).arena.get? x = some node) :
      x = id ∧ node = .thunk { t with state := .running } base ∨ g.arena.get? x = some node := by
    rw [Grammar.running, Grammar.get?_revised] at there'
    by_cases same : id = x
    · subst same
      rw [if_pos rfl, there] at there'
      cases there'
      exact .inl ⟨rfl, rfl⟩
    · rw [if_neg same] at there'
      exact .inr there'
  have begun (x : Nat) (r : Rule) (body : NodeId)
      (there' : (g.running id).arena.get? x = some (.rule r body))
      (state : r.fixpoint = .inProgress) : W.level base < W.level x := by
    rcases split x _ there' with ⟨-, other⟩ | old
    · cases other
    · exact Nat.lt_of_lt_of_le lt (h.begun x r body old state)
  refine ⟨h.formed.running, h.sound.running there state,
    Nat.lt_of_lt_of_le (h.formed.node id _ there).1 ?_, begun, ?_, ?_⟩
  · exact Nat.le_of_eq (Grammar.size_running g id).symm
  · intro x t' base' there' state'
    rcases split x _ there' with ⟨rfl, -⟩ | old
    · exact lt
    · exact Nat.lt_trans lt (h.running x t' base' old state')
  · intro x r body there' state' level
    exact absurd level (Nat.ne_of_gt (begun x r body there' state'))

/-- No thunk is asked for while it is being evaluated. -/
theorem not_running {t : Thunk L} {base : NodeId} (h : Ready links W g (.force id))
    (there : g.arena.get? id = some (.thunk t base)) : t.state ≠ .running := fun state =>
  Nat.lt_irrefl _ (h.running id t base there state)

end Ready

end DerivativeParsing
