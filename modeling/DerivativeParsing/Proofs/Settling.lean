import DerivativeParsing.Proofs.Readiness

/-!
# What can be read off a graph

Evaluation does not take the same derivative twice in a pass, except that one that rests on a
provisional answer is not remembered. Such an answer comes from a rule in progress, so it is given
only as long as there are rules whose nullability has not been worked out.

1. `Settled`: the nullability of a node can be read off the graph. It stays so, and asking for it
   changes nothing.
2. `Calm`: every question about nullability that the derivative of a node asks is settled. A
   derivative makes the node calm, and the derivative of a calm node is remembered.
-/

namespace DerivativeParsing

open Grammar (lt_size_of_get?)

/-- What is known in a grammar is known in another that has its nodes. -/
structure Retains {L : Type} [DecidableEq L] (W : World) (g : Grammar L) (W' : World)
    (g' : Grammar L) : Prop where
  size : g.size ≤ g'.size
  fixed : ∀ (id : Nat) node, g.arena.get? id = some node → node.isFixed →
    g'.arena.get? id = some node
  rule : ∀ (id : Nat) r body, g.arena.get? id = some (.rule r body) →
    ∃ r', g'.arena.get? id = some (.rule r' body) ∧
    ∀ b, r.fixpoint = .done b → r'.fixpoint = .done b
  asked : ∀ (id : Nat) r body, g.arena.get? id = some (.rule r body) → r.fixpoint ≠ .unstarted →
    ∃ r', g'.arena.get? id = some (.rule r' body) ∧ r'.fixpoint ≠ .unstarted
  thunk : ∀ (id : Nat) t base, g.arena.get? id = some (.thunk t base) →
    ∃ t', g'.arena.get? id = some (.thunk t' base) ∧ t'.symbol = t.symbol ∧
      ∀ target, t.state.target? = some target → t'.state.target? = some target
  memo : ∀ (id : Nat) s, (g.memo.find? id s).isSome → (g'.memo.find? id s).isSome
  world : ∀ id : Nat, id < g.size → W' id = W id

section

variable {L : Type} [DecidableEq L] {links : Links} {W W₁ W' : World} {g g₁ g' : Grammar L}
  {id : Nat}

theorem Extends.retains (h : Extends W g W' g') : Retains W g W' g' where
  size := h.size
  fixed _ _ there fixed := h.get?_fixed there fixed
  rule id r body there := by
    obtain ⟨r', there', -, -, step⟩ := h.get?_rule there
    refine ⟨r', there', fun b state => ?_⟩
    rw [state] at step
    generalize r'.fixpoint = fixpoint at step
    cases step
    rfl
  asked id r body there asked := by
    obtain ⟨r', there', -, -, step⟩ := h.get?_rule there
    refine ⟨r', there', fun unstarted => asked ?_⟩
    rw [unstarted] at step
    generalize r.fixpoint = fixpoint at step
    cases step
    rfl
  thunk id t base there := by
    obtain ⟨t', there', symbol, step⟩ := h.get?_thunk there
    refine ⟨t', there', symbol.symm, fun target known => ?_⟩
    generalize t.state = state at step known
    generalize t'.state = state' at step
    cases step with
    | same => exact known
    | evaluated => cases known
  memo := h.memo
  world := h.world

namespace Retains

theorem refl (W : World) (g : Grammar L) : Retains W g W g := (Extends.refl W g).retains

theorem certain (W : World) (g : Grammar L) : Retains W g W g.certain :=
  have h : Extends W g W g.certain := .of_eq rfl rfl
  h.retains

theorem trans (h : Retains W g W₁ g₁) (h' : Retains W₁ g₁ W' g') : Retains W g W' g' where
  size := Nat.le_trans h.size h'.size
  fixed id node there fixed := h'.fixed id node (h.fixed id node there fixed) fixed
  rule id r body there := by
    obtain ⟨r₁, there₁, keep₁⟩ := h.rule id r body there
    obtain ⟨r₂, there₂, keep₂⟩ := h'.rule id r₁ body there₁
    exact ⟨r₂, there₂, fun b state => keep₂ b (keep₁ b state)⟩
  asked id r body there asked := by
    obtain ⟨r₁, there₁, asked₁⟩ := h.asked id r body there asked
    exact h'.asked id r₁ body there₁ asked₁
  thunk id t base there := by
    obtain ⟨t₁, there₁, symbol₁, keep₁⟩ := h.thunk id t base there
    obtain ⟨t₂, there₂, symbol₂, keep₂⟩ := h'.thunk id t₁ base there₁
    exact ⟨t₂, there₂, symbol₂.trans symbol₁, fun target known => keep₂ target (keep₁ target known)⟩
  memo id s known := h'.memo id s (h.memo id s known)
  world id lt := (h'.world id (Nat.lt_of_lt_of_le lt h.size)).trans (h.world id lt)

theorem revised {f : Node L → Node L}
    (fixed : ∀ node, node.isFixed → f node = node)
    (rule : ∀ r body, g.arena.get? id = some (.rule r body) →
      ∃ r', f (.rule r body) = .rule r' body ∧ (∀ b, r.fixpoint = .done b → r'.fixpoint = .done b) ∧
        (r.fixpoint ≠ .unstarted → r'.fixpoint ≠ .unstarted))
    (thunk : ∀ t base, g.arena.get? id = some (.thunk t base) →
      ∃ t', f (.thunk t base) = .thunk t' base ∧ t'.symbol = t.symbol ∧
        ∀ target, t.state.target? = some target → t'.state.target? = some target) :
    Retains W g W (g.revised id f) where
  size := Nat.le_of_eq (Grammar.size_revised _ _ _).symm
  fixed i node there plain := by
    rw [Grammar.get?_revised, there]
    split
    · rw [Option.map_some, fixed node plain]
    · rfl
  rule i r body there := by
    rw [Grammar.get?_revised, there]
    by_cases same : id = i
    · subst same
      obtain ⟨r', hr, keep, -⟩ := rule r body there
      exact ⟨r', by rw [if_pos rfl, Option.map_some, hr], keep⟩
    · exact ⟨r, by rw [if_neg same], fun _ state => state⟩
  asked i r body there asked := by
    rw [Grammar.get?_revised, there]
    by_cases same : id = i
    · subst same
      obtain ⟨r', hr, -, keep⟩ := rule r body there
      exact ⟨r', by rw [if_pos rfl, Option.map_some, hr], keep asked⟩
    · exact ⟨r, by rw [if_neg same], asked⟩
  thunk i t base there := by
    rw [Grammar.get?_revised, there]
    by_cases same : id = i
    · subst same
      obtain ⟨t', ht, symbol, keep⟩ := thunk t base there
      exact ⟨t', by rw [if_pos rfl, Option.map_some, ht], symbol, keep⟩
    · exact ⟨t, by rw [if_neg same], rfl, fun _ known => known⟩
  memo _ _ known := known
  world _ _ := rfl

theorem begun {r : Rule} {body : NodeId} (there : g.arena.get? id = some (.rule r body))
    (state : r.fixpoint = .unstarted) : Retains W g W (g.begun id) := by
  refine revised (fun node fixed => ?_) (fun r' body' there' => ?_) fun t base there' => ?_
  · cases node <;> first | rfl | cases fixed
  · cases Option.some.inj (there.symm.trans there')
    exact ⟨_, rfl, fun b done => (by cases state.symm.trans done), nofun⟩
  · cases Option.some.inj (there.symm.trans there')

theorem done {r : Rule} {body : NodeId} {b : Bool} (there : g.arena.get? id = some (.rule r body))
    (state : r.fixpoint = .inProgress) : Retains W g W (g.done id b) := by
  refine revised (fun node fixed => ?_) (fun r' body' there' => ?_) fun t base there' => ?_
  · cases node <;> first | rfl | cases fixed
  · cases Option.some.inj (there.symm.trans there')
    exact ⟨_, rfl, fun b done => (by cases state.symm.trans done), nofun⟩
  · cases Option.some.inj (there.symm.trans there')

theorem running {t : Thunk L} {base : NodeId} (there : g.arena.get? id = some (.thunk t base))
    (state : t.state = .pending) : Retains W g W (g.running id) := by
  refine revised (fun node fixed => ?_) (fun r' body' there' => ?_) fun t' base' there' => ?_
  · cases node <;> first | rfl | cases fixed
  · cases Option.some.inj (there.symm.trans there')
  · cases Option.some.inj (there.symm.trans there')
    refine ⟨_, rfl, rfl, fun target known => ?_⟩
    rw [state] at known
    cases known

theorem resolved {t t' : Thunk L} {base base' target : NodeId}
    (there : g.arena.get? id = some (.thunk t base)) (state : t.state = .running) :
    Retains W g W (g.resolved id t' base' target) := by
  have h : Retains W g W (g.revised id (.setState (.forced target))) := by
    refine revised (fun node fixed => ?_) (fun r' body' there' => ?_) fun t' base' there' => ?_
    · cases node <;> first | rfl | cases fixed
    · cases Option.some.inj (there.symm.trans there')
    · cases Option.some.inj (there.symm.trans there')
      refine ⟨_, rfl, rfl, fun target known => ?_⟩
      rw [state] at known
      cases known
  exact ⟨h.size, h.fixed, h.rule, h.asked, h.thunk, h.memo, h.world⟩

end Retains

/-! ## Settled nullability -/

/-- The nullability of a node can be read off the graph. -/
inductive Settled {L : Type} (g : Grammar L) : Nat → Bool → Prop
  | plain {id : Nat} {node : Node L} {b : Bool} : g.arena.get? id = some node →
    node.nullable? = some b → Settled g id b
  | alt_left {id left right : Nat} :
    g.arena.get? id = some (.alt left right) → Settled g left true → Settled g id true
  | alt_right {id left right : Nat} {b : Bool} : g.arena.get? id = some (.alt left right) →
    Settled g left false → Settled g right b → Settled g id b
  | cat_left {id left right : Nat} :
    g.arena.get? id = some (.cat left right) → Settled g left false → Settled g id false
  | cat_right {id left right : Nat} {b : Bool} : g.arena.get? id = some (.cat left right) →
    Settled g left true → Settled g right b → Settled g id b
  | thunk {id base target : Nat} {t : Thunk L} {b : Bool} : g.arena.get? id = some (.thunk t base) →
    t.state.target? = some target → Settled g target b → Settled g id b
  | rule {id body : Nat} {r : Rule} {b : Bool} : g.arena.get? id = some (.rule r body) →
    r.fixpoint = .done b → Settled g id b

omit [DecidableEq L] in
theorem Node.isFixed_of_nullable? {node : Node L} {b : Bool} (h : node.nullable? = some b) :
    node.isFixed := by
  cases node <;> first | rfl | cases h

theorem Settled.retained {b : Bool} (h : Settled g id b) (keep : Retains W g W' g') :
    Settled g' id b := by
  induction h with
  | plain there plain => exact .plain (keep.fixed _ _ there (Node.isFixed_of_nullable? plain)) plain
  | alt_left there _ ih => exact .alt_left (keep.fixed _ _ there rfl) ih
  | alt_right there _ _ ihl ihr => exact .alt_right (keep.fixed _ _ there rfl) ihl ihr
  | cat_left there _ ih => exact .cat_left (keep.fixed _ _ there rfl) ih
  | cat_right there _ _ ihl ihr => exact .cat_right (keep.fixed _ _ there rfl) ihl ihr
  | thunk there target _ ih =>
    obtain ⟨t', there', -, keep'⟩ := keep.thunk _ _ _ there
    exact .thunk there' (keep' _ target) ih
  | rule there state =>
    obtain ⟨r', there', keep'⟩ := keep.rule _ _ _ there
    exact .rule there' (keep' _ state)

theorem Evaluates.of_resolved {t : Thunk L} {base target next : Nat}
    (h : Evaluates W g (.force id) (.node next) W' g')
    (there : g.arena.get? id = some (.thunk t base)) (known : t.state.target? = some target) :
    next = target ∧ g' = g := by
  cases h with
  | force_resolved there' known' =>
    cases Option.some.inj (there.symm.trans there')
    exact ⟨Option.some.inj (known'.symm.trans known), rfl⟩
  | _ => simp_all [Node.isThunk, ThunkState.target?]

theorem Evaluates.resolves {t : Thunk L} {base target : Nat}
    (h : Evaluates W g (.force id) (.node target) W' g')
    (there : g.arena.get? id = some (.thunk t base)) (idle : t.state ≠ .running) :
    ∃ t', g'.arena.get? id = some (.thunk t' base) ∧ t'.state.target? = some target := by
  cases h with
  | force_other there' other =>
    cases Option.some.inj (there.symm.trans there')
    cases other
  | force_resolved there' known =>
    cases Option.some.inj (there.symm.trans there')
    exact ⟨t, there, known⟩
  | force_running there' state =>
    cases Option.some.inj (there.symm.trans there')
    exact absurd state idle
  | @force_pending _ W₁ _ g₁ _ _ _ _ there' state hd =>
    cases Option.some.inj (there.symm.trans there')
    obtain ⟨t₁, there₁, -⟩ := hd.extension.get?_thunk (Grammar.get?_running there)
    exact ⟨_, Grammar.get?_resolved there₁, rfl⟩

/-- A thunk stands for what it was resolved to. While it is under evaluation it is taken for the
node that matches nothing. -/
theorem Evaluates.stands {t : Thunk L} {base target : Nat}
    (h : Evaluates W g (.force id) (.node target) W' g')
    (there : g.arena.get? id = some (.thunk t base)) :
    target = Grammar.nothing ∨
      ∃ t', g'.arena.get? id = some (.thunk t' base) ∧ t'.state.target? = some target := by
  by_cases idle : t.state = .running
  · left
    cases h with
    | force_running => rfl
    | force_other there' other | force_resolved there' other | force_pending there' other =>
      cases Option.some.inj (there.symm.trans there')
      first | cases other | cases (idle ▸ other)
  · exact .inr (h.resolves there idle)

/-- A settled question has its answer, and asking it changes nothing. -/
theorem Settled.unchanged {b b' : Bool} (h : Settled g id b)
    (he : Evaluates W g (.nullable id) (.truth b') W' g') : b' = b ∧ g' = g := by
  induction h generalizing W W' b' g' with
  | plain there plain =>
    cases he with
    | nullable_plain there' plain' =>
      cases Option.some.inj (there.symm.trans there')
      exact ⟨Option.some.inj (plain'.symm.trans plain), rfl⟩
    | nullable_left there' | nullable_right there' | nullable_first there' | nullable_second there'
    | nullable_thunk there' | nullable_done there' | nullable_cycle there' | nullable_rule there' =>
      cases Option.some.inj (there.symm.trans there')
      cases plain
  | alt_left there _ ih =>
    cases he with
    | nullable_left there' hl =>
      cases Option.some.inj (there.symm.trans there')
      exact ih hl
    | nullable_right there' hl hr =>
      cases Option.some.inj (there.symm.trans there')
      cases (ih hl).1
    | _ => simp_all [Node.nullable?]
  | alt_right there _ _ ihl ihr =>
    cases he with
    | nullable_left there' hl =>
      cases Option.some.inj (there.symm.trans there')
      cases (ihl hl).1
    | nullable_right there' hl hr =>
      cases Option.some.inj (there.symm.trans there')
      obtain ⟨-, rfl⟩ := ihl hl
      exact ihr hr
    | _ => simp_all [Node.nullable?]
  | cat_left there _ ih =>
    cases he with
    | nullable_first there' hl =>
      cases Option.some.inj (there.symm.trans there')
      exact ih hl
    | nullable_second there' hl hr =>
      cases Option.some.inj (there.symm.trans there')
      cases (ih hl).1
    | _ => simp_all [Node.nullable?]
  | cat_right there _ _ ihl ihr =>
    cases he with
    | nullable_first there' hl =>
      cases Option.some.inj (there.symm.trans there')
      cases (ihl hl).1
    | nullable_second there' hl hr =>
      cases Option.some.inj (there.symm.trans there')
      obtain ⟨-, rfl⟩ := ihl hl
      exact ihr hr
    | _ => simp_all [Node.nullable?]
  | thunk there target _ ih =>
    cases he with
    | nullable_thunk there' hf hn =>
      obtain ⟨rfl, rfl⟩ := hf.of_resolved there target
      exact ih hn
    | _ => simp_all [Node.nullable?]
  | rule there state =>
    cases he with
    | nullable_done there' state' =>
      cases Option.some.inj (there.symm.trans there')
      exact ⟨Fixpoint.done.inj (state'.symm.trans state), rfl⟩
    | _ => simp_all [Node.nullable?]

def Above (W : World) (g : Grammar L) (n : Nat) : Prop :=
  ∀ (x : Nat) r body, g.arena.get? x = some (.rule r body) → r.fixpoint = .inProgress →
    n < W.level x

theorem Above.extended {n : Nat} (above : Above W g n) (h : Extends W g W' g') : Above W' g' n := by
  intro x r body there state
  obtain ⟨lt, r₀, there₀, state₀, -⟩ := h.begun there state
  rw [h.level lt]
  exact above x r₀ body there₀ state₀

theorem Ready.above {s : Symbol L} (h : Ready links W g (.compute id s)) : Above W g (W.level id) :=
  h.begun

/-- A question about nullability settles itself, if all rules in progress are above its level. -/
theorem Evaluates.settled {b : Bool} {n : Nat} (h : Evaluates W g (.nullable id) (.truth b) W' g')
    (ready : Ready links W g (.nullable id)) (le : W.level id ≤ n) (above : Above W g n) :
    Settled g' id b := by
  generalize hq : Question.nullable id = q at h
  generalize ha : Reply.truth b = a at h
  induction h generalizing id b with
  | nullable_plain there plain =>
    cases hq
    cases ha
    exact .plain there plain
  | nullable_left there hl ih =>
    cases hq
    cases ha
    have lel := (ready.sound.node _ _ there).1.level_le
    exact .alt_left (hl.extension.get?_fixed there rfl)
      (ih (ready.nullable_left_of_alt there) (Nat.le_trans lel le) above rfl rfl)
  | nullable_right there hl hr ihl ihr =>
    cases hq
    cases ha
    have ready₁ := ready.after hl
    have there₁ := hl.extension.get?_fixed there rfl
    have lel := (ready.sound.node _ _ there).1.level_le
    have ler := (ready₁.sound.node _ _ there₁).2.level_le
    rw [hl.extension.level (lt_size_of_get? there)] at ler
    have settled := ihl (ready.nullable_left_of_alt there) (Nat.le_trans lel le) above rfl rfl
    exact .alt_right (hr.extension.get?_fixed there₁ rfl) (settled.retained hr.extension.retains)
      (ihr (ready₁.nullable_right_of_alt there₁) (Nat.le_trans ler le)
        (above.extended hl.extension) rfl rfl)
  | nullable_first there hl ih =>
    cases hq
    cases ha
    have lel := (ready.sound.node _ _ there).left.length_le
    exact .cat_left (hl.extension.get?_fixed there rfl)
      (ih (ready.nullable_left_of_cat there) (Nat.le_trans lel le) above rfl rfl)
  | @nullable_second W W₁ W₂ g g₁ g₂ id left right b there hl hr ihl ihr =>
    cases hq
    cases ha
    have ready₁ := ready.after hl
    have there₁ := hl.extension.get?_fixed there rfl
    have lel := (ready.sound.node _ _ there).left.length_le
    have flat : W₁.level right = 0 := by
      show (W₁ right).trace.length = 0
      rw [(ready₁.sound.node _ _ there₁).right]
      rfl
    have null := (hl.sound ready.formed ready.sound).2 rfl
    have settled := ihl (ready.nullable_left_of_cat there) (Nat.le_trans lel le) above rfl rfl
    exact .cat_right (hr.extension.get?_fixed there₁ rfl) (settled.retained hr.extension.retains)
      (ihr (ready₁.nullable_right_of_cat there₁ null) (by omega)
        (above.extended hl.extension) rfl rfl)
  | @nullable_thunk W W₁ W₂ g g₁ g₂ id base target t b there hf hn ihf ihn =>
    cases hq
    cases ha
    have ready₁ := ready.nullable_target hf
    have target_id : (W₁ target).Refines (W₁ id) := (hf.sound ready.formed ready.sound).2
    have lower := target_id.level_le
    rw [hf.extension.level (lt_size_of_get? there)] at lower
    have settled := ihn ready₁ (Nat.le_trans lower le) (above.extended hf.extension) rfl rfl
    obtain ⟨t₁, there₁, known⟩ := hf.resolves there (ready.force_of_nullable.not_running there)
    obtain ⟨t₂, there₂, -, keep⟩ := hn.extension.retains.thunk _ _ _ there₁
    exact .thunk there₂ (keep _ known) settled
  | nullable_done there state =>
    cases hq
    cases ha
    exact .rule there state
  | nullable_cycle there state =>
    cases hq
    exact absurd (above _ _ _ there state) (Nat.not_lt.mpr le)
  | @nullable_rule W W₁ g g₁ id body r b there state hb ih =>
    cases hq
    cases ha
    obtain ⟨r₁, there₁, -⟩ := hb.extension.get?_rule (Grammar.get?_begun there)
    exact .rule (Grammar.get?_done there₁) rfl
  | _ => cases hq

/-! ## Calm derivatives -/

/-- All that the derivative of a node asks about nullability is settled, or the derivative is
known. -/
inductive Calm (g : Grammar L) (s : Symbol L) : Nat → Prop
  | other {id : Nat} {node : Node L} : g.arena.get? id = some node → node.isCombinator = false →
    node.isThunk = false → Calm g s id
  | known {id : Nat} {node : Node L} : g.arena.get? id = some node → node.isCombinator →
    (g.memo.find? id s).isSome → Calm g s id
  | token {id : Nat} {kind : Kind} : g.arena.get? id = some (.token kind) → Calm g s id
  | alt {id left right : Nat} : g.arena.get? id = some (.alt left right) → Calm g s left →
    Calm g s right → Calm g s id
  | cat {id left right : Nat} : g.arena.get? id = some (.cat left right) → Settled g left false →
    Calm g s left → Calm g s id
  | cat_nullable {id left right : Nat} : g.arena.get? id = some (.cat left right) →
    Settled g left true → Calm g s left → Calm g s right → Calm g s id
  | rep {id body : Nat} : g.arena.get? id = some (.rep body) → Calm g s body → Calm g s id

variable {s : Symbol L}

omit [DecidableEq L] in
theorem Node.not_isSpent_of_isCombinator {node : Node L} (h : node.isCombinator) :
    node.isSpent = false := by
  cases node <;> first | rfl | cases h

theorem Calm.retained (h : Calm g s id) (keep : Retains W g W' g') : Calm g' s id := by
  induction h with
  | @other id node there comb solid =>
    cases node with
    | rule r body =>
      obtain ⟨r', there', -⟩ := keep.rule id r body there
      exact .other there' rfl rfl
    | empty | matched | undefined => exact .other (keep.fixed id _ there rfl) rfl rfl
    | thunk => cases solid
    | _ => cases comb
  | known there comb found =>
    exact .known (keep.fixed _ _ there (Node.isFixed_of_isCombinator comb)) comb
      (keep.memo _ _ found)
  | token there => exact .token (keep.fixed _ _ there rfl)
  | alt there _ _ ihl ihr => exact .alt (keep.fixed _ _ there rfl) ihl ihr
  | cat there settled _ ih => exact .cat (keep.fixed _ _ there rfl) (settled.retained keep) ih
  | cat_nullable there settled _ _ ihl ihr =>
    exact .cat_nullable (keep.fixed _ _ there rfl) (settled.retained keep) ihl ihr
  | rep there _ ih => exact .rep (keep.fixed _ _ there rfl) ih

theorem Extends.calm (h : Extends W g W' g') (calm : Calm g s id) : Calm g' s id :=
  calm.retained h.retains

/-- A question that took a derivative has left the node calm. -/
def Question.Calmed (g : Grammar L) : Question L → Prop
  | derive id s | compute id s => g.Solid id → Calm g s id
  | _ => True

/-- Deriving a node makes it calm. -/
theorem Evaluates.calmed {q : Question L} {a : Reply} (h : Evaluates W g q a W' g')
    (ready : Ready links W g q) : q.Calmed g' := by
  have ext := h.extension
  induction h with
  | @spent W g id s node there spent =>
    exact fun _ => .other there (by cases node <;> first | rfl | exact absurd spent nofun)
      (by cases node <;> first | rfl | exact absurd spent nofun)
  | undefined there | rule_known there => exact fun _ => .other there rfl rfl
  | rule_new there => exact fun _ => ext.calm (.other there rfl rfl)
  | thunk there =>
    rintro ⟨node, there', solid⟩
    obtain ⟨t', there₂, -⟩ := ext.get?_thunk there
    cases Option.some.inj (there'.symm.trans there₂)
    cases solid
  | known there comb found => exact fun _ => .known there comb (by rw [found]; rfl)
  | @fresh W W₁ g g₁ id next s node there comb new hc ih =>
    have up : Extends W₁ g₁ W₁ (g₁.finished id s next g.provisional) := .finished
    exact fun solid => up.calm (ih ready.compute hc.extension solid)
  | hit there | miss there => exact fun _ => ext.calm (.token there)
  | @alt W W₁ W₂ g g₁ g₂ id left right l r s there hl hr ihl ihr =>
    have ready₁ := ready.after hl
    have there₁ := hl.extension.get?_fixed there rfl
    have there₂ := hr.extension.get?_fixed there₁ rfl
    have formed₂ := (hr.formed ready₁.formed).1.node id _ there₂
    have new (m : Meaning) : Extends W₂ g₂ (W₂.put g₂.size m) (g₂.withNode (.alt l r)) :=
      .withFixed rfl _
    have calml : Calm g₁ s left :=
      ihl (ready.left_of_alt there) hl.extension (ready₁.formed.node id _ there₁).1.2
    have calmr : Calm g₂ s right := ihr (ready₁.right_of_alt there₁) hr.extension formed₂.2.2
    exact fun _ => (new .void).calm (.alt there₂ (hr.extension.calm calml) calmr)
  | @cat W W₁ W₂ g g₁ g₂ id left right l s there hb hl ihb ihl =>
    have ready₁ := ready.after hb
    have there₁ := hb.extension.get?_fixed there rfl
    have there₂ := hl.extension.get?_fixed there₁ rfl
    have formed₂ := (hl.formed ready₁.formed).1.node id _ there₂
    have new (m : Meaning) : Extends W₂ g₂ (W₂.put g₂.size m) (g₂.withNode (.cat l right)) :=
      .withFixed rfl _
    have le : W.level left ≤ W.level id := (ready.sound.node id _ there).left.length_le
    have settled : Settled g₁ left false := hb.settled (ready.left_of_cat there).1 le ready.above
    have calml : Calm g₂ s left := ihl (ready₁.left_of_cat there₁).2 hl.extension formed₂.1.2
    exact fun _ => (new .void).calm (.cat there₂ (settled.retained hl.extension.retains) calml)
  | @cat_nullable W W₁ W₂ W₃ W₄ g g₁ g₂ g₄ id left right l skipped s there hb hl same hr ihb
      ihl ihr =>
    have ready₁ := ready.after hb
    have there₁ := hb.extension.get?_fixed there rfl
    have there₂ := hl.extension.get?_fixed there₁ rfl
    have formed₂ := (hl.formed ready₁.formed).1.node id _ there₂
    have ready₃ := ready.right_of_consumed there hb hl same
    have new₃ : Extends W₂ g₂ W₃ (g₂.withNode (.cat l right)) := .put same rfl
    have ext₄ := new₃.trans hr.extension
    have new₄ (m : Meaning) :
        Extends W₄ g₄ (W₄.put g₄.size m) (g₄.withNode (.alt g₂.size skipped)) :=
      .withFixed rfl _
    have le : W.level left ≤ W.level id := (ready.sound.node id _ there).left.length_le
    have settled : Settled g₁ left true := hb.settled (ready.left_of_cat there).1 le ready.above
    have calml : Calm g₂ s left := ihl (ready₁.left_of_cat there₁).2 hl.extension formed₂.1.2
    have calmr : Calm g₄ s right := ihr ready₃ hr.extension (formed₂.2.2.extended ext₄)
    refine fun _ =>
      (new₄ .void).calm (.cat_nullable (ext₄.get?_fixed there₂ rfl) ?_ (ext₄.calm calml) calmr)
    exact settled.retained (hl.extension.trans ext₄).retains
  | @rep W W₁ g g₁ id body d s there hd ih =>
    have there₁ := hd.extension.get?_fixed there rfl
    have formed₁ := (hd.formed ready.formed).1.node id _ there₁
    have new (m : Meaning) : Extends W₁ g₁ (W₁.put g₁.size m) (g₁.withNode (.cat d id)) :=
      .withFixed rfl _
    have calm : Calm g₁ s body := ih (ready.body_of_rep there) hd.extension formed₁.2
    exact fun _ => (new .void).calm (.rep there₁ calm)
  | _ => trivial

/-- The derivative of a combinator is known, or it is computed with the flag down. -/
theorem Evaluates.of_combinator {next : Nat} {node : Node L}
    (h : Evaluates W g (.derive id s) (.node next) W' g') (there : g.arena.get? id = some node)
    (comb : node.isCombinator) :
    (g.memo.find? id s = some next ∧ g' = g) ∨
      ∃ g₁, Evaluates W g.certain (.compute id s) (.node next) W' g₁ ∧
        g' = g₁.finished id s next g.provisional := by
  cases h with
  | known _ _ found => exact .inl ⟨found, rfl⟩
  | fresh _ _ _ hc => exact .inr ⟨_, hc, rfl⟩
  | @spent _ _ _ _ node' there' spent =>
    have same : node = node' := Option.some.inj (there.symm.trans there')
    cases (same ▸ Node.not_isSpent_of_isCombinator comb).symm.trans spent
  | undefined there' | rule_known there' | rule_new there' | thunk there' =>
    cases Option.some.inj (there.symm.trans there')
    cases comb

/-- The derivative of a calm node rests on no provisional answer, so it is remembered. -/
theorem Calm.steady {W₀ : World} {g₀ : Grammar L} {next : Nat} (h : Calm g₀ s id)
    (keep : Retains W₀ g₀ W g) (he : Evaluates W g (.derive id s) (.node next) W' g') :
    g'.provisional = g.provisional ∧
      ∀ node, g.arena.get? id = some node → node.isCombinator → (g'.memo.find? id s).isSome := by
  -- a combinator's derivative is remembered if the flag stays down while it is computed
  have combinator {W W' : World} {g g' : Grammar L} {x next : Nat} {node : Node L}
      (there : g.arena.get? x = some node) (comb : node.isCombinator)
      (he : Evaluates W g (.derive x s) (.node next) W' g')
      (down : ∀ g₁, Evaluates W g.certain (.compute x s) (.node next) W' g₁ →
        g₁.provisional = false) :
      g'.provisional = g.provisional ∧ ∀ node, g.arena.get? x = some node → node.isCombinator →
        (g'.memo.find? x s).isSome := by
    rcases he.of_combinator there comb with ⟨found, rfl⟩ | ⟨g₁, hc, rfl⟩
    · exact ⟨rfl, fun _ _ _ => by rw [found]; rfl⟩
    · have down := down g₁ hc
      refine ⟨?_, fun _ _ _ => ?_⟩
      · show (g₁.provisional || g.provisional) = g.provisional
        rw [down, Bool.false_or]
      · rw [Grammar.memo_finished, down, if_neg Bool.false_ne_true, Memo.find?_record,
          if_pos ⟨rfl, rfl⟩]
        rfl
  induction h generalizing W g W' g' next with
  | @other id node there comb solid =>
    -- a leaf or a rule, whose derivative asks nothing
    have leaf : ∀ node', g.arena.get? id = some node' → node'.isCombinator = false ∧
        node'.isThunk = false := by
      intro node' there'
      cases node with
      | rule r body =>
        obtain ⟨r', there₁, -⟩ := keep.rule id r body there
        cases Option.some.inj (there'.symm.trans there₁)
        exact ⟨rfl, rfl⟩
      | empty | matched | undefined =>
        cases Option.some.inj (there'.symm.trans (keep.fixed id _ there rfl))
        exact ⟨rfl, rfl⟩
      | thunk => cases solid
      | _ => cases comb
    refine ⟨?_, fun node' there' comb' => ?_⟩
    · cases he with
      | spent | undefined | rule_known | rule_new | known => rfl
      | thunk there' => cases (leaf _ there').2
      | fresh there' comb' => cases (leaf _ there').1.symm.trans comb'
    · cases (leaf _ there').1.symm.trans comb'
  | @known id node there comb found =>
    have there' := keep.fixed _ _ there (Node.isFixed_of_isCombinator comb)
    have found' := keep.memo _ _ found
    cases he with
    | known => exact ⟨rfl, fun _ _ _ => found'⟩
    | fresh _ _ new =>
      rw [new] at found'
      cases found'
    | @spent _ _ _ _ node' there₁ spent =>
      have same : node = node' := Option.some.inj (there'.symm.trans there₁)
      cases (same ▸ Node.not_isSpent_of_isCombinator comb).symm.trans spent
    | undefined there₁ | rule_known there₁ | rule_new there₁ | thunk there₁ =>
      cases Option.some.inj (there'.symm.trans there₁)
      cases comb
  | token there =>
    have there' := keep.fixed _ _ there rfl
    refine combinator there' rfl he fun g₁ hc => ?_
    cases hc with
    | hit | miss => rfl
    | alt there₁ | cat there₁ | cat_nullable there₁ | rep there₁ =>
      cases Option.some.inj (there'.symm.trans there₁)
  | alt there _ _ ihl ihr =>
    have there' := keep.fixed _ _ there rfl
    have down : Retains W g W g.certain := .certain W g
    refine combinator there' rfl he fun g₁ hc => ?_
    cases hc with
    | alt there₁ hl hr =>
      cases Option.some.inj (there'.symm.trans there₁)
      have keep₁ := (keep.trans down).trans hl.extension.retains
      exact (ihr keep₁ hr).1.trans (ihl (keep.trans down) hl).1
    | hit there₁ | miss there₁ | cat there₁ | cat_nullable there₁ | rep there₁ =>
      cases Option.some.inj (there'.symm.trans there₁)
  | cat there settled _ ih =>
    have there' := keep.fixed _ _ there rfl
    have down : Retains W g W g.certain := .certain W g
    refine combinator there' rfl he fun g₁ hc => ?_
    cases hc with
    | cat there₁ hb hl =>
      cases Option.some.inj (there'.symm.trans there₁)
      have keep₁ := (keep.trans down).trans hb.extension.retains
      obtain ⟨-, rfl⟩ := (settled.retained (keep.trans down)).unchanged hb
      exact (ih keep₁ hl).1
    | cat_nullable there₁ hb =>
      cases Option.some.inj (there'.symm.trans there₁)
      cases ((settled.retained (keep.trans down)).unchanged hb).1
    | hit there₁ | miss there₁ | alt there₁ | rep there₁ =>
      cases Option.some.inj (there'.symm.trans there₁)
  | cat_nullable there settled _ _ ihl ihr =>
    have there' := keep.fixed _ _ there rfl
    have down : Retains W g W g.certain := .certain W g
    refine combinator there' rfl he fun g₁ hc => ?_
    cases hc with
    | cat there₁ hb =>
      cases Option.some.inj (there'.symm.trans there₁)
      cases ((settled.retained (keep.trans down)).unchanged hb).1
    | cat_nullable there₁ hb hl same hr =>
      cases Option.some.inj (there'.symm.trans there₁)
      have keep₁ := (keep.trans down).trans hb.extension.retains
      obtain ⟨-, rfl⟩ := (settled.retained (keep.trans down)).unchanged hb
      have keep₂ := keep₁.trans hl.extension.retains
      exact (ihr (keep₂.trans (Extends.put same (by rfl)).retains) hr).1.trans (ihl keep₁ hl).1
    | hit there₁ | miss there₁ | alt there₁ | rep there₁ =>
      cases Option.some.inj (there'.symm.trans there₁)
  | rep there _ ih =>
    have there' := keep.fixed _ _ there rfl
    have down : Retains W g W g.certain := .certain W g
    refine combinator there' rfl he fun g₁ hc => ?_
    cases hc with
    | rep there₁ hd =>
      cases Option.some.inj (there'.symm.trans there₁)
      exact (ih (keep.trans down) hd).1
    | hit there₁ | miss there₁ | alt there₁ | cat there₁ | cat_nullable there₁ =>
      cases Option.some.inj (there'.symm.trans there₁)

end

end DerivativeParsing
