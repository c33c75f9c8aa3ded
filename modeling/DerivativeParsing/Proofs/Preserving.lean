import DerivativeParsing.Proofs.Operations

/-!
# What operations leave as it is

Derivatives share nodes with the grammar and with one another, so an operation that changed a node
which it has no business with would change what others stand for.

1. `Operation.evaluates` are the operations that evaluate and do not cull. `operate_gains`: these
   add nodes, and change of those that are there what is known about rules and thunks only.
2. `structure_preserved`: so does any series of them, and culling changes edges of what it must
   only.
-/

namespace DerivativeParsing

/-- What evaluation leaves of a grammar: nodes may be added, and for those that were there, what a
rule remembers, whether it matches the empty word, and the state of a thunk may have become
known. -/
structure Grammar.Gains {L : Type} (g g' : Grammar L) : Prop where
  size : g.size ≤ g'.size
  node : ∀ (id : Nat) node, g.arena.get? id = some node →
    ∃ node', g'.arena.get? id = some node' ∧ node.Becomes node'

/-- Whether an operation evaluates, and does not cull or collect. -/
def Operation.evaluates {L : Type} : Operation L → Bool
  | derive _ _ | nullable _ | force _ => true
  | step _ _ culling => !culling
  | cull _ | collect _ => false

section Gains

variable {L : Type} [DecidableEq L] {W W' : World} {g g₁ g' : Grammar L} {fuel : Nat}
  {op : Operation L} {ops : List (Operation L)} {q : Question L} {a : Reply} {u : Unit}
  {id : NodeId}

omit [DecidableEq L] in
theorem Grammar.Gains.refl (g : Grammar L) : g.Gains g :=
  ⟨Nat.le_refl _, fun _ node there => ⟨node, there, .same node⟩⟩

omit [DecidableEq L] in
theorem Grammar.Gains.trans (h : g.Gains g₁) (h' : g₁.Gains g') : g.Gains g' where
  size := Nat.le_trans h.size h'.size
  node id node there := by
    obtain ⟨node₁, there₁, step⟩ := h.node id node there
    obtain ⟨node', there', step'⟩ := h'.node id node₁ there₁
    exact ⟨node', there', step.trans step'⟩

theorem Evaluates.gains (h : Evaluates W g q a W' g') : g.Gains g' :=
  ⟨h.extension.size, h.extension.node⟩

theorem derive_gains {s : Symbol L} {next : NodeId}
    (run : Grammar.derive fuel id s g = .ok (next, g')) : g.Gains g' := by
  obtain ⟨W', evaluated⟩ := Grammar.evaluates_of_derive (fun _ => .void) run
  exact evaluated.gains

theorem nullable_gains {answer : Bool} (run : Grammar.nullable fuel id g = .ok (answer, g')) :
    g.Gains g' := by
  obtain ⟨W', evaluated⟩ := Grammar.evaluates_of_nullable (fun _ => .void) run
  exact evaluated.gains

theorem force_gains {target : NodeId} (run : Grammar.force fuel id g = .ok (target, g')) :
    g.Gains g' := by
  obtain ⟨W', evaluated⟩ := Grammar.evaluates_of_force (fun _ => .void) run
  exact evaluated.gains

/-- A step without culling forgets the derivatives of the step before, and evaluates. -/
theorem step_gains {s : Symbol L} {p : NodeId × Bool}
    (run : Grammar.step fuel id s false g = .ok (p, g')) : g.Gains g' := by
  obtain ⟨_, g₁, forgotten, run⟩ := Action.bind_ok.mp run
  obtain rfl := Action.modify_ok.mp forgotten
  obtain ⟨next, g₂, derived, run⟩ := Action.bind_ok.mp run
  obtain ⟨accepts, g₃, asked, run⟩ := Action.bind_ok.mp run
  obtain ⟨-, rfl⟩ := Action.pure_ok.mp run
  have forgets : g.Gains { g with memo := {} } :=
    ⟨Nat.le_refl _, fun _ node there => ⟨node, there, .same node⟩⟩
  exact forgets.trans ((derive_gains derived).trans (nullable_gains asked))

/-- An operation that evaluates changes no node otherwise than evaluation does. -/
theorem operate_gains (evaluates : op.evaluates) (run : Grammar.operate fuel op g = .ok (u, g')) :
    g.Gains g' := by
  cases op with
  | derive id s =>
    obtain ⟨_, run⟩ := exists_of_forgotten run
    exact derive_gains run
  | nullable id =>
    obtain ⟨_, run⟩ := exists_of_forgotten run
    exact nullable_gains run
  | force id =>
    obtain ⟨_, run⟩ := exists_of_forgotten run
    exact force_gains run
  | step id s culling =>
    obtain ⟨_, run⟩ := exists_of_forgotten run
    cases culling with
    | false => exact step_gains run
    | true => cases evaluates
  | cull | collect => cases evaluates

/-- In whatever state a grammar is, operations that evaluate add nodes. Of a node that was there,
they change nothing but what a rule remembers and whether it is known to match the empty word, and
the state of a thunk.

If the edges of a grammar lead to nodes, and every cycle passes through a nonterminal, then culling
answers. It adds no node, and touches nothing but nodes and the number of those that were found
dead. The only nodes that it changes match something and are reached without passing a thunk that
has not been evaluated: their edges may lead elsewhere afterwards, and thunks that have been
evaluated count as culled. -/
theorem structure_preserved (g : Grammar L) :
    (∀ fuel ops u g', (∀ op ∈ ops, op.evaluates) → Grammar.operateAll fuel ops g = .ok (u, g') →
    g.Gains g') ∧
      (g.Ranged false → g.Stratified →
      ∀ id < g.size, ∃ result g', Grammar.cull id g = .ok (result, g') ∧
        g'.size = g.size ∧ g.Apart g' ∧ ∀ (x : Nat) node, g.arena.get? x = some node →
          ∃ node', g'.arena.get? x = some node' ∧ node.Recast node' ∧
            (node' = node ∨ node.isRewirable ∧ g.Productive x ∧ g.Reaches false id x)) := by
  refine ⟨fun fuel ops u g' evaluates run => ?_, fun ranged stratified id lt => ?_⟩
  · exact operateAll_induct (P := g.Gains) (fun op member u g₁ g₂ gained run =>
      gained.trans (operate_gains (evaluates op member) run)) (.refl g) run
  · obtain ⟨result, g', run, change⟩ := cull_rewires ranged stratified lt
    refine ⟨result, g', run, change.size, cull_apart run, fun x node there => ?_⟩
    obtain ⟨node', there', recast⟩ := change.node x node there
    refine ⟨node', there', recast, ?_⟩
    by_cases touched : node.isRewirable ∧ g.Productive x ∧ g.Reaches false id x
    · exact .inr touched
    · have kept := change.kept x node there fun inside => Bool.eq_false_iff.mpr fun rewirable =>
        touched ⟨rewirable, inside⟩
      exact .inl (Option.some.inj (there'.symm.trans kept))

theorem structure_preserved_leftRecursive :
    ∃ g g' : Grammar String, leftRecursive.worked 30 chores = .ok g ∧
    Grammar.operateAll 30 [.derive 1 ⟨3, "c"⟩, .nullable 1, .step 1 ⟨2, "a"⟩ false] g =
      .ok ((), g') ∧ g.Gains g' ∧ 6 < g.size ∧
        ∃ result g', Grammar.cull 6 g = .ok (result, g') ∧ g'.size = g.size ∧ g.Apart g' ∧
        ∀ (x : Nat) node, g.arena.get? x = some node →
        ∃ node', g'.arena.get? x = some node' ∧ node.Recast node' ∧
          (node' = node ∨ node.isRewirable ∧ g.Productive x ∧ g.Reaches false 6 x) := by
  obtain ⟨g, history, facts⟩ :=
    exists_worked (show ((leftRecursive.worked 30 chores).toOption.any fun g =>
    decide (6 < g.size) &&
      (Grammar.operateAll 30 [.derive 1 ⟨3, "c"⟩, .nullable 1, .step 1 ⟨2, "a"⟩ false] g).isOk) =
      true by decide +kernel)
  obtain ⟨lt, runs⟩ := Bool.and_eq_true_iff.mp facts
  have lt : 6 < g.size := of_decide_eq_true lt
  obtain ⟨⟨u, g'⟩, run⟩ := exists_of_isOk runs
  obtain ⟨W, good, -⟩ := worked_good history
  obtain ⟨evaluating, culling⟩ := structure_preserved g
  exact ⟨g, g', history, run, evaluating 30 _ u g' (by simp [Operation.evaluates]) run, lt,
    culling (good.formed.ranged false) good.formed.stratified 6 lt⟩

end Gains

end DerivativeParsing
