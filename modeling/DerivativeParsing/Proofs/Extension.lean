import DerivativeParsing.Proofs.Evaluation

/-!
# Evaluation only adds

Evaluation adds nodes, and of the nodes that are there it changes three things only: what a rule
remembers, a rule's nullability once it is known, and the state of a thunk once it is resolved.

1. `Node.Becomes` says this of one node, `Extends` of a grammar and its world.
2. `Evaluates.extension`: a grammar after evaluation extends the grammar before. In particular a
   rule is in progress, or a thunk under evaluation, after it exactly if it was before.
-/

namespace DerivativeParsing

/-- What the nullability of a rule may turn into. -/
inductive Fixpoint.Becomes : Fixpoint → Fixpoint → Prop
  | same (state : Fixpoint) : Becomes state state
  | settled (answer : Bool) : Becomes .unstarted (.done answer)

/-- What the state of a thunk may turn into. -/
inductive ThunkState.Becomes : ThunkState → ThunkState → Prop
  | same (state : ThunkState) : Becomes state state
  | evaluated (target : NodeId) : Becomes .pending (.forced target)

/-- What a node may turn into. -/
inductive Node.Becomes {L : Type} : Node L → Node L → Prop
  | same (node : Node L) : Becomes node node
  | rule {r r' : Rule} {body : NodeId} : r.name = r'.name → r.busy = r'.busy →
      r.fixpoint.Becomes r'.fixpoint → Becomes (.rule r body) (.rule r' body)
  | thunk {t t' : Thunk L} {base : NodeId} : t.symbol = t'.symbol → t.state.Becomes t'.state →
      Becomes (.thunk t base) (.thunk t' base)

theorem Fixpoint.Becomes.trans {a b c : Fixpoint} (hab : a.Becomes b) (hbc : b.Becomes c) :
    a.Becomes c := by
  cases hab with
  | same => exact hbc
  | settled answer =>
    cases hbc
    exact .settled answer

theorem ThunkState.Becomes.trans {a b c : ThunkState} (hab : a.Becomes b) (hbc : b.Becomes c) :
    a.Becomes c := by
  cases hab with
  | same => exact hbc
  | evaluated target =>
    cases hbc
    exact .evaluated target

namespace Node

variable {L : Type} {a b c : Node L}

theorem Becomes.trans (hab : a.Becomes b) (hbc : b.Becomes c) : a.Becomes c := by
  cases hab with
  | same => exact hbc
  | rule name busy state =>
    cases hbc with
    | same => exact .rule name busy state
    | rule name' busy' state' =>
      exact .rule (name.trans name') (busy.trans busy') (state.trans state')
  | thunk symbol state =>
    cases hbc with
    | same => exact .thunk symbol state
    | thunk symbol' state' => exact .thunk (symbol.trans symbol') (state.trans state')

/-- Whether a node is neither a rule nor a thunk. Evaluation leaves such nodes as they are. -/
def isFixed : Node L → Bool
  | rule _ _ | thunk _ _ => false
  | _ => true

theorem isFixed_of_isCombinator {node : Node L} (h : node.isCombinator) : node.isFixed := by
  cases node <;> first | rfl | cases h

theorem Becomes.eq_of_isFixed (h : a.Becomes b) (fixed : a.isFixed) : b = a := by
  cases h with
  | same => rfl
  | rule | thunk => cases fixed

theorem Becomes.isThunk_eq (h : a.Becomes b) : b.isThunk = a.isThunk := by
  cases h <;> rfl

/-- A rule that is in progress. -/
def isBegun : Node L → Prop
  | rule r _ => r.fixpoint = .inProgress
  | _ => False

/-- A thunk that is being evaluated. -/
def isRunning : Node L → Prop
  | thunk t _ => t.state = .running
  | _ => False

/-- A rule that is being culled. -/
def isBusy : Node L → Prop
  | rule r _ => r.busy = true
  | _ => False

/-- A node at which nothing is under way. -/
def Idle (node : Node L) : Prop := ¬node.isBegun ∧ ¬node.isRunning ∧ ¬node.isBusy

theorem idle_of_isFixed (fixed : a.isFixed) : a.Idle := by
  cases a <;> simp_all [Idle, isBegun, isRunning, isBusy, isFixed]

theorem Becomes.isBegun_iff (h : a.Becomes b) : b.isBegun ↔ a.isBegun := by
  cases h with
  | same | thunk => rfl
  | rule _ _ state =>
    simp only [isBegun]
    generalize Rule.fixpoint _ = x at state ⊢
    generalize Rule.fixpoint _ = y at state ⊢
    cases state with
    | same => rfl
    | settled => simp

theorem Becomes.isRunning_iff (h : a.Becomes b) : b.isRunning ↔ a.isRunning := by
  cases h with
  | same | rule => rfl
  | thunk _ state =>
    simp only [isRunning]
    generalize Thunk.state _ = x at state ⊢
    generalize Thunk.state _ = y at state ⊢
    cases state with
    | same => rfl
    | evaluated => simp

theorem Becomes.isBusy_iff (h : a.Becomes b) : b.isBusy ↔ a.isBusy := by
  cases h with
  | same | thunk => rfl
  | rule _ busy _ => simp only [isBusy, busy]

theorem Becomes.idle_iff (h : a.Becomes b) : b.Idle ↔ a.Idle := by
  unfold Idle
  rw [h.isBegun_iff, h.isRunning_iff, h.isBusy_iff]

end Node

/-- Nothing is under way in a grammar. -/
def Grammar.Quiet {L : Type} (g : Grammar L) : Prop :=
  ∀ (id : Nat) node, g.arena.get? id = some node → node.Idle

/-! ## Extensions -/

/-- What evaluation may do to a grammar and its world. -/
structure Extends {L : Type} [DecidableEq L] (W : World) (g : Grammar L) (W' : World)
    (g' : Grammar L) : Prop where
  size : g.size ≤ g'.size
  node : ∀ (id : Nat) node, g.arena.get? id = some node →
    ∃ node', g'.arena.get? id = some node' ∧ node.Becomes node'
  idle : ∀ (id : Nat) node, g.size ≤ id → g'.arena.get? id = some node → node.Idle
  memo : ∀ (id : Nat) s, (g.memo.find? id s).isSome → (g'.memo.find? id s).isSome
  world : ∀ id : Nat, id < g.size → W' id = W id

namespace Extends

open Grammar

variable {L : Type} [DecidableEq L] {W W₁ W₂ : World} {g g₁ g₂ : Grammar L} {id : Nat}

/-- A grammar extends one with the same nodes and derivatives. -/
theorem of_eq (arena : g₁.arena = g.arena) (memo : g₁.memo = g.memo) : Extends W g W g₁ where
  size := Nat.le_of_eq (congrArg Arena.size arena.symm)
  node id node there := ⟨node, by rw [arena, there], .same node⟩
  idle id node le there := by
    rw [arena] at there
    exact absurd (lt_size_of_get? there) (Nat.not_lt.mpr le)
  memo id s known := by rw [memo, known]
  world _ _ := rfl

theorem refl (W : World) (g : Grammar L) : Extends W g W g := of_eq rfl rfl

theorem trans (h : Extends W g W₁ g₁) (h' : Extends W₁ g₁ W₂ g₂) : Extends W g W₂ g₂ where
  size := Nat.le_trans h.size h'.size
  node id node there := by
    obtain ⟨node₁, there₁, step⟩ := h.node id node there
    obtain ⟨node₂, there₂, step'⟩ := h'.node id node₁ there₁
    exact ⟨node₂, there₂, step.trans step'⟩
  idle id node le there := by
    by_cases new : g₁.size ≤ id
    · exact h'.idle id node new there
    · obtain ⟨node₁, there₁⟩ := exists_get? (Nat.lt_of_not_le new)
      obtain ⟨node₂, there₂, step⟩ := h'.node id node₁ there₁
      cases Option.some.inj (there.symm.trans there₂)
      exact step.idle_iff.mpr (h.idle id node₁ le there₁)
  memo id s known := h'.memo id s (h.memo id s known)
  world id lt := (h'.world id (Nat.lt_of_lt_of_le lt h.size)).trans (h.world id lt)

theorem withNode (node : Node L) {m : Meaning} (idle : node.Idle) :
    Extends W g (W.put g.size m) (g.withNode node) where
  size := by rw [size_withNode]; omega
  node id node' there :=
    ⟨node', by rw [get?_withNode_of_lt (lt_size_of_get? there), there], .same _⟩
  idle id node' le there := by
    rw [get?_withNode] at there
    by_cases last : id = g.size
    · rw [if_pos last] at there
      cases there
      exact idle
    · rw [if_neg last] at there
      exact absurd (lt_size_of_get? there) (Nat.not_lt.mpr le)
  memo _ _ known := known
  world _ lt := World.put_of_lt lt

/-- A new node that is neither a rule nor a thunk, whatever it stands for. -/
theorem withFixed {node : Node L} (fixed : node.isFixed) (meaning : Meaning) :
    Extends W g (W.put g.size meaning) (g.withNode node) :=
  withNode node (Node.idle_of_isFixed fixed)

theorem put {node : Node L} {meaning : Meaning} (same : W₁ = W.put g.size meaning)
    (fixed : node.isFixed) : Extends W g W₁ (g.withNode node) := by
  rw [same]
  exact .withFixed fixed meaning

theorem revised {f : Node L → Node L}
    (step : ∀ node, g.arena.get? id = some node → node.Becomes (f node)) :
    Extends W g W (g.revised id f) where
  size := Nat.le_of_eq (size_revised _ _ _).symm
  node i node there := by
    rw [get?_revised, there]
    by_cases same : id = i
    · rw [if_pos same]
      subst same
      exact ⟨f node, rfl, step node there⟩
    · rw [if_neg same]
      exact ⟨node, rfl, .same node⟩
  idle i node le there :=
    absurd (lt_size_of_get? there) (by rw [size_revised]; exact Nat.not_lt.mpr le)
  memo _ _ known := known
  world _ _ := rfl

theorem withDerivedRule {r : Rule} {body : NodeId} {s : Symbol L} {m m' : Meaning} :
    Extends W g ((W.put g.size m).put (g.size + 1) m') (g.withDerivedRule id r body s) := by
  have first : Extends W g (W.put g.size m) (g.withNode (.thunk { symbol := s } body)) :=
    withNode _ (by simp [Node.Idle, Node.isBegun, Node.isRunning, Node.isBusy])
  have second :=
    withNode (W := W.put g.size m) (g := g.withNode (.thunk { symbol := s } body)) (m := m')
    (.rule { name := r.name } g.size)
      (by simp [Node.Idle, Node.isBegun, Node.isRunning, Node.isBusy])
  rw [size_withNode] at second
  refine (first.trans second).trans (revised fun node _ => ?_)
  cases node with
  | rule => exact .rule rfl rfl (.same _)
  | _ => exact .same _

theorem finished {s : Symbol L} {next : NodeId} {outer : Bool} :
    Extends W g W (g.finished id s next outer) where
  size := Nat.le_refl _
  node i node there := ⟨node, there, .same node⟩
  idle i node le there := absurd (lt_size_of_get? there) (Nat.not_lt.mpr le)
  memo i s' known := by
    rw [memo_finished]
    split
    · exact known
    · rw [Memo.find?_record]
      split
      · rfl
      · exact known
  world _ _ := rfl

/-! ## What stays of a node -/

theorem get?_fixed {node : Node L} (h : Extends W g W₁ g₁) (there : g.arena.get? id = some node)
    (fixed : node.isFixed) : g₁.arena.get? id = some node := by
  obtain ⟨node', there', step⟩ := h.node id node there
  rw [there', step.eq_of_isFixed fixed]

theorem get?_rule {r : Rule} {body : NodeId} (h : Extends W g W₁ g₁)
    (there : g.arena.get? id = some (.rule r body)) :
    ∃ r', g₁.arena.get? id = some (.rule r' body) ∧ r.name = r'.name ∧ r.busy = r'.busy ∧
      r.fixpoint.Becomes r'.fixpoint := by
  obtain ⟨node', there', step⟩ := h.node id _ there
  cases step with
  | same => exact ⟨r, there', rfl, rfl, .same _⟩
  | rule name busy state => exact ⟨_, there', name, busy, state⟩

theorem get?_thunk {t : Thunk L} {base : NodeId} (h : Extends W g W₁ g₁)
    (there : g.arena.get? id = some (.thunk t base)) :
    ∃ t', g₁.arena.get? id = some (.thunk t' base) ∧ t.symbol = t'.symbol ∧
      t.state.Becomes t'.state := by
  obtain ⟨node', there', step⟩ := h.node id _ there
  cases step with
  | same => exact ⟨t, there', rfl, .same _⟩
  | thunk symbol state => exact ⟨_, there', symbol, state⟩

/-- A rule that was put in progress is extended by being done. -/
theorem done {r : Rule} {body : NodeId} {b : Bool} (there : g.arena.get? id = some (.rule r body))
    (state : r.fixpoint = .unstarted) (h : Extends W (g.begun id) W₁ g₁) :
    Extends W g W₁ (g₁.done id b) where
  size := by
    rw [size_done]
    exact Nat.le_trans (Nat.le_of_eq (size_begun g id).symm) h.size
  node i node there' := by
    by_cases same : id = i
    · subst same
      cases Option.some.inj (there.symm.trans there')
      obtain ⟨r₁, there₁, name, busy, -⟩ := h.get?_rule (get?_begun there)
      refine ⟨.rule { r₁ with fixpoint := .done b } body, get?_done there₁, .rule name busy ?_⟩
      rw [state]
      exact .settled b
    · obtain ⟨node₁, there₁, step⟩ :=
        h.node i node (by rw [begun, get?_revised, if_neg same, there'])
      exact ⟨node₁, by rw [Grammar.done, get?_revised, if_neg same, there₁], step⟩
  idle i node le there' := by
    have old : i ≠ id := fun same => absurd (lt_size_of_get? there) (by omega)
    rw [Grammar.done, get?_revised, if_neg (Ne.symm old)] at there'
    exact h.idle i node (by rw [size_begun]; exact le) there'
  memo i s known := h.memo i s known
  world i lt := h.world i (by rw [size_begun]; exact lt)

/-- A thunk that was put under evaluation is extended by being resolved. -/
theorem resolved {t : Thunk L} {base target : NodeId}
    (there : g.arena.get? id = some (.thunk t base)) (state : t.state = .pending)
    (h : Extends W (g.running id) W₁ g₁) : Extends W g W₁ (g₁.resolved id t base target) where
  size := by
    rw [size_resolved]
    exact Nat.le_trans (Nat.le_of_eq (size_running g id).symm) h.size
  node i node there' := by
    by_cases same : id = i
    · subst same
      cases Option.some.inj (there.symm.trans there')
      obtain ⟨t₁, there₁, symbol, -⟩ := h.get?_thunk (get?_running there)
      refine ⟨.thunk { t₁ with state := .forced target } base, get?_resolved there₁,
        .thunk symbol ?_⟩
      rw [state]
      exact .evaluated target
    · obtain ⟨node₁, there₁, step⟩ :=
        h.node i node (by rw [running, get?_revised, if_neg same, there'])
      exact ⟨node₁, by rw [get?_resolved_of_ne same, there₁], step⟩
  idle i node le there' := by
    have old : i ≠ id := fun same => absurd (lt_size_of_get? there) (by omega)
    rw [get?_resolved_of_ne (Ne.symm old)] at there'
    exact h.idle i node (by rw [size_running]; exact le) there'
  memo i s known := h.memo i s known
  world i lt := h.world i (by rw [size_running]; exact lt)

end Extends

/-! ## Evaluation extends -/

section Evaluation

variable {L : Type} [DecidableEq L] {W W' : World} {g g' : Grammar L} {q : Question L} {a : Reply}

theorem Evaluates.extension (h : Evaluates W g q a W' g') : Extends W g W' g' := by
  induction h with
  | spent | rule_known | known | miss | nullable_plain | nullable_done | force_other
  | force_resolved => exact .refl _ _
  | undefined | nullable_cycle | force_running => exact .of_eq rfl rfl
  | rule_new => exact .withDerivedRule
  | thunk _ _ _ ihf ihd => exact ihf.trans ihd
  | @fresh W W₁ g g₁ id next s node _ _ _ _ ih =>
    have down : Extends W g W g.certain := .of_eq rfl rfl
    have up : Extends W₁ g₁ W₁ (g₁.finished id s next g.provisional) := .finished
    exact (down.trans ih).trans up
  | hit => exact .withFixed rfl _
  | alt _ _ _ ihl ihr => exact (ihl.trans ihr).trans (.withFixed rfl _)
  | cat _ _ _ ihb ihl => exact (ihb.trans ihl).trans (.withFixed rfl _)
  | cat_nullable _ _ _ same _ ihb ihl ihr =>
    subst same
    exact (((ihb.trans ihl).trans (.withFixed rfl _)).trans ihr).trans (.withFixed rfl _)
  | rep _ _ ih => exact ih.trans (.withFixed rfl _)
  | nullable_left _ _ ih | nullable_first _ _ ih => exact ih
  | nullable_right _ _ _ ihl ihr | nullable_second _ _ _ ihl ihr => exact ihl.trans ihr
  | nullable_thunk _ _ _ ihf ihn => exact ihf.trans ihn
  | nullable_rule there state _ ih => exact ih.done there state
  | force_pending there state _ ih => exact ih.resolved there state

end Evaluation

end DerivativeParsing
