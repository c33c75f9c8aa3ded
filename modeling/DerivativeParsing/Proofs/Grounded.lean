import DerivativeParsing.Grammar.Display
import DerivativeParsing.Proofs.Histories

/-!
# No name dangles

Names are held in five places: edges, what rules remember, what thunks were resolved to, the
derivatives known in a pass, and the chain of a recognizer. Whatever was asked of a recognizer, all
of them are names of slots.

1. `Grammar.Grounded` and `Recognizer.Grounded` say so, and that only the first slot is empty.
2. `describeNode_ok`: a description is found. On the way down a rule is opened once, and between two
   of them the names of combinators go down and the levels of thunks do.
3. `Grammar.Serving`: whatever may be asked of a grammar at its slots is answered, so nothing is
   looked up in vain, and no name dangles after it. `Good.serving`: so it is with every grammar
   between actions.
4. `after_grounded`: so it is after every history.
-/

namespace DerivativeParsing

open Grammar (nothing lt_size_of_get?)

/-! ## Names that are held -/

/-- The names that a node holds, those that it does not depend on included. -/
def Node.held {L : Type} : Node L → List NodeId
  | alt left right | cat left right => [left, right]
  | rep body => [body]
  | rule r body => body :: (r.memo.map Prod.snd).toList
  | thunk t base => base :: t.resolved?.toList
  | empty | token _ | matched _ | undefined _ => []

/-- No name in a grammar dangles, and only the first slot matches nothing by itself. -/
structure Grammar.Grounded {L : Type} [DecidableEq L] (g : Grammar L) : Prop where
  node : ∀ (id : Nat) node, g.arena.get? id = some node → ∀ x ∈ node.held, x < g.size
  memo : ∀ (id : Nat) s next, g.memo.find? id s = some next → next < g.size
  empty : ∀ id : Nat, g.arena.get? id = some .empty ↔ id = nothing

/-- No name in a recognizer dangles. -/
structure Recognizer.Grounded {L : Type} [DecidableEq L] (r : Recognizer L) : Prop where
  grammar : r.grammar.Grounded
  start : r.start < r.grammar.size
  current : r.current < r.grammar.size
  chain : ∀ id ∈ r.chain, id < r.grammar.size

section Grounded

variable {L : Type} [DecidableEq L] {links : Links} {origin : Meaning} {W : World} {g : Grammar L}
  {r : Recognizer L} {id x : NodeId} {node : Node L}

omit [DecidableEq L] in
theorem Node.Formed.held_lt (h : node.Formed g id) (mem : x ∈ node.held) : x < g.size := by
  cases node with
  | alt left right | cat left right =>
    rcases List.mem_pair.mp mem with rfl | rfl
    · exact h.1.2.lt_size
    · exact h.2.2.lt_size
  | rep body =>
    obtain rfl := List.mem_singleton.mp mem
    exact h.2.lt_size
  | rule r body =>
    rcases List.mem_cons.mp mem with rfl | mem
    · exact h.1
    · obtain ⟨⟨kind, next⟩, known, rfl⟩ := Option.map_eq_some_iff.mp (Option.mem_toList.mp mem)
      exact (h.2 kind next known).lt_size
  | thunk t base =>
    rcases List.mem_cons.mp mem with rfl | mem
    · exact h.1
    · refine (h.2 x ?_).lt_size
      obtain ⟨s, state⟩ := t
      cases state with
      | culled target =>
        obtain rfl : target = some x := Option.mem_toList.mp mem
        rfl
      | _ => exact Option.mem_toList.mp mem
  | _ => cases mem

theorem Grammar.Formed.grounded (h : g.Formed) : g.Grounded where
  node id node there _ mem := (h.node id node there).held_lt mem
  memo id s next found := (h.memo id s next found).2.lt_size
  empty id := ⟨h.node id .empty, fun same => same ▸ h.nothing⟩

theorem Consistent.grounded (h : Consistent links origin W r) : r.Grounded where
  grammar := h.good.formed.grounded
  start := h.range _ (.head _)
  current := h.range _ r.current_mem_chain
  chain := h.range

end Grounded

/-! ## Descriptions are found -/

section Descriptions

open scoped Classical

variable {L : Type} {W : World} {g : Grammar L} {order : List NodeId}
  {met met' : Std.TreeSet NodeId} {id x : NodeId} {node : Node L} {fuel : Nat}

/-- How many rules have not been opened. -/
noncomputable def unopened (order : List NodeId) (met : Std.TreeSet NodeId) : Nat :=
  order.countP fun x => !met.contains x

/-- How many nodes can be met from a node on, before a rule is. -/
noncomputable def descent (order : List NodeId) (W : World) (g : Grammar L) (id : NodeId) : Nat :=
  match g.arena.get? id with
  | some (.rule _ _) => 0
  | some (.thunk _ _) => order.countP fun x => decide (g.Solid x ∨ W.level x ≤ W.level id)
  | _ => order.countP fun x => decide (g.Solid x ∧ x ≤ id)

/-- How deep the calls nest when a node is described. -/
noncomputable def toil (order : List NodeId) (W : World) (g : Grammar L) (met : Std.TreeSet NodeId)
    (id : NodeId) :
    Nat :=
  unopened order met * (order.length + 1) + descent order W g id + 1

theorem descent_le (order : List NodeId) (W : World) (g : Grammar L) (id : NodeId) :
    descent order W g id ≤ order.length := by
  unfold descent
  split
  · exact Nat.zero_le _
  · exact List.countP_le_length
  · exact List.countP_le_length

theorem descent_of_isFixed (there : g.arena.get? id = some node) (fixed : node.isFixed) :
    descent order W g id = order.countP fun x => decide (g.Solid x ∧ x ≤ id) := by
  unfold descent
  rw [there]
  cases node <;> first | rfl | cases fixed

theorem descent_of_thunk {t : Thunk L} {base : NodeId}
    (there : g.arena.get? id = some (.thunk t base)) :
    descent order W g id = order.countP fun x => decide (g.Solid x ∨ W.level x ≤ W.level id) := by
  unfold descent
  rw [there]

/-- What is met from a node on that is no thunk has its name or one before it. -/
theorem descent_le_of_solid (solid : g.Solid x) :
    descent order W g x ≤ order.countP fun y => decide (g.Solid y ∧ y ≤ x) := by
  obtain ⟨node, there, other⟩ := solid
  cases node with
  | rule =>
    unfold descent
    rw [there]
    exact Nat.zero_le _
  | thunk => cases other
  | _ => rw [descent_of_isFixed there rfl]

theorem descent_part (there : g.arena.get? id = some node) (fixed : node.isFixed) (mem : id ∈ order)
    (part : g.Part id x) : descent order W g x < descent order W g id := by
  have other : node.isThunk = false := by cases node <;> first | rfl | cases fixed
  refine Nat.lt_of_le_of_lt (descent_le_of_solid part.2) ?_
  rw [descent_of_isFixed there fixed]
  refine Grammar.countP_lt mem (decide_eq_true ⟨⟨node, there, other⟩, Nat.le_refl _⟩)
    (decide_eq_false ?_)
    fun y hy => decide_eq_true ?_
  · exact fun h => Nat.lt_irrefl _ (Nat.lt_of_lt_of_le part.1 h.2)
  · obtain ⟨solid, le⟩ := of_decide_eq_true hy
    exact ⟨solid, Nat.le_trans le (Nat.le_of_lt part.1)⟩

/-- From a thunk to what it was resolved to, or to its base. -/
theorem descent_thunk {t : Thunk L} {base : NodeId} (there : g.arena.get? id = some (.thunk t base))
    (mem : id ∈ order) (lt : x < g.size) (next : g.Solid x ∨ W.level x < W.level id) :
    descent order W g x < descent order W g id := by
  have thunk : ¬g.Solid id := fun ⟨node, there', other⟩ => by
    cases Option.some.inj (there.symm.trans there')
    cases other
  rw [descent_of_thunk there]
  by_cases solid : g.Solid x
  · refine Nat.lt_of_le_of_lt (descent_le_of_solid solid) ?_
    refine Grammar.countP_lt mem (decide_eq_true (.inr (Nat.le_refl _)))
      (decide_eq_false fun h => thunk h.1)
      fun y hy => decide_eq_true (.inl (of_decide_eq_true hy).1)
  · have lower := next.resolve_left solid
    obtain ⟨node, there'⟩ := Grammar.exists_get? lt
    cases node with
    | thunk =>
      rw [descent_of_thunk there']
      refine Grammar.countP_lt mem (decide_eq_true (.inr (Nat.le_refl _))) (decide_eq_false ?_)
        fun y hy => decide_eq_true
        ((of_decide_eq_true hy).imp_right fun le => Nat.le_trans le (Nat.le_of_lt lower))
      rintro (h | h)
      · exact thunk h
      · exact Nat.lt_irrefl _ (Nat.lt_of_lt_of_le lower h)
    | _ => exact absurd ⟨_, there', rfl⟩ solid

theorem unopened_mono (keep : ∀ x, met.contains x → met'.contains x) :
    unopened order met' ≤ unopened order met := by
  refine List.countP_mono_left fun x _ hx => ?_
  rw [Bool.not_eq_true'] at hx ⊢
  exact Bool.eq_false_iff.mpr fun h => Bool.eq_false_iff.mp hx (keep x h)

theorem unopened_insert (mem : id ∈ order) (new : ¬met.contains id) :
    unopened order (met.insert id) < unopened order met := by
  refine Grammar.countP_lt mem (by rw [Bool.eq_false_iff.mpr new]; rfl) ?_ fun x hx => ?_
  · rw [Grammar.contains_insert_iff.mpr (.inl rfl)]
    rfl
  · rw [Bool.not_eq_true'] at hx ⊢
    exact Bool.eq_false_iff.mpr fun h =>
      Bool.eq_false_iff.mp hx (Grammar.contains_insert_iff.mpr (.inr h))

def Described (g : Grammar L) (fuel : Nat) (id : NodeId) (met : Std.TreeSet NodeId) : Prop :=
  ∃ d met', g.describeNode fuel id met = .ok (d, met') ∧ ∀ x, met.contains x → met'.contains x

theorem lookup_bind {β : Type} {k : Node L → Describing β} (there : g.arena.get? id = some node) :
    ((liftM (g.lookup id) : Describing (Node L)) >>= k) met = k node met :=
  Action.bind_of_ok (Action.lift_ok.mpr ⟨Grammar.lookup_ok.mpr there, rfl⟩)

/-- Every node is described, if the calls can nest deep enough. By induction on how deep. -/
theorem describeNode_ok [DecidableEq L] {links : Links} (formed : g.Formed)
    (sound : Sound links W g) (closed : g.Closed true (· ∈ order)) (fuel : Nat) :
    ∀ (id : NodeId) (met : Std.TreeSet NodeId), id ∈ order →
      toil order W g met id ≤ fuel → Described g fuel id met := by
  induction fuel with
  | zero => exact fun id met _ enough => absurd enough (Nat.not_succ_le_zero _)
  | succ fuel ih =>
    intro id met mem enough
    obtain ⟨node, there⟩ := Grammar.exists_get? (closed.range id mem)
    have next {x : NodeId} (hx : x ∈ node.successors true) : x ∈ order :=
      closed.successors id node mem there x hx
    have formed_node := formed.node id node there
    have below {x : NodeId} {met' : Std.TreeSet NodeId} (hx : x ∈ node.successors true)
        (keep : ∀ x, met.contains x → met'.contains x)
        (lower : descent order W g x < descent order W g id) : Described g fuel x met' := by
      have fewer : unopened order met' ≤ unopened order met := unopened_mono keep
      have := Nat.mul_le_mul_right (order.length + 1) fewer
      exact ih x met' (next hx) (by unfold toil at enough ⊢; omega)
    unfold Described
    rw [Grammar.describeNode, lookup_bind there]
    cases node with
    | empty | token | matched | undefined => exact ⟨_, met, rfl, fun _ h => h⟩
    | alt left right | cat left right =>
      obtain ⟨l, met₁, runl, keep₁⟩ :=
        below (.head _) (fun _ h => h) (descent_part there rfl mem formed_node.1)
      obtain ⟨r, met₂, runr, keep₂⟩ :=
        below (.tail _ (.head _)) keep₁ (descent_part there rfl mem formed_node.2)
      exact ⟨_, met₂, (Action.bind_of_ok runl).trans ((Action.bind_of_ok runr).trans rfl),
        fun x h => keep₂ x (keep₁ x h)⟩
    | rep body =>
      obtain ⟨b, met₁, run, keep⟩ :=
        below (.head _) (fun _ h => h) (descent_part there rfl mem formed_node)
      exact ⟨_, met₁, (Action.bind_of_ok run).trans rfl, keep⟩
    | rule r body =>
      by_cases old : met.contains id = true
      · refine ⟨.again r.name id, met,
          (Action.bind_of_ok (Action.get_ok.mpr ⟨rfl, rfl⟩)).trans ?_, fun _ h => h⟩
        rw [if_pos old]
        rfl
      · have opened := Nat.mul_le_mul_right (order.length + 1) (unopened_insert mem old)
        have short := descent_le order W g body
        obtain ⟨b, met₁, run, keep⟩ := ih body (met.insert id) (next (.head _)) (by
          rw [Nat.succ_mul] at opened
          unfold toil at enough ⊢
          omega)
        refine ⟨.opened r.name id b, met₁,
          (Action.bind_of_ok (Action.get_ok.mpr ⟨rfl, rfl⟩)).trans ?_,
          fun x h => keep x (Grammar.contains_insert_iff.mpr (.inr h))⟩
        rw [if_neg old]
        refine (Action.bind_of_ok ((Action.modify_ok (u := ())).mpr rfl)).trans ?_
        exact (Action.bind_of_ok run).trans rfl
    | thunk t base =>
      obtain ⟨s, state⟩ := t
      have fits := sound.node id _ there
      have waiting (ht : state.target? = none) : W.level base < W.level id :=
        ((World.fits_waiting ht).mp fits).2.length_le
      cases state with
      | forced target =>
        exact below (.head _) (fun _ h => h)
          (descent_thunk there mem (formed_node.2 target rfl).lt_size
            (.inl (formed_node.2 target rfl)))
      | culled target =>
        cases target with
        | none => exact ⟨_, met, rfl, fun _ h => h⟩
        | some target =>
          exact below (.head _) (fun _ h => h)
            (descent_thunk there mem (formed_node.2 target rfl).lt_size
              (.inl (formed_node.2 target rfl)))
      | pending | running =>
        obtain ⟨b, met₁, run, keep⟩ :=
          below (.head _) (fun _ h => h)
            (descent_thunk there mem formed_node.1 (.inr (waiting rfl)))
        exact ⟨_, met₁, (Action.bind_of_ok run).trans rfl, keep⟩

theorem reachable_ok [DecidableEq L] {links : Links} (good : Good links W g) (lt : id < g.size) :
    ∃ order : List NodeId, g.reachable id = .ok order.length ∧ id ∈ order ∧
      g.Closed true (· ∈ order) := by
  obtain ⟨t, run, walked, all⟩ :=
    Grammar.reach_walked (good.formed.ranged true) (show ∀ x ∈ [id], g.size > x by simpa using lt)
  exact ⟨t.finished, by
    rw [Grammar.reachable, run]; rfl, walked.mem_finished.mpr (all id (.head _)),
    walked.closed_finished⟩

theorem describe_ok [DecidableEq L] {links : Links} (good : Good links W g) (lt : id < g.size) :
    ∃ d, g.describe id = .ok d := by
  obtain ⟨order, count, mem, closed⟩ := reachable_ok good lt
  obtain ⟨d, met, run, -⟩ := describeNode_ok good.formed good.sound closed
    ((order.length + 1) * (order.length + 1)) id {} mem (by
      have := Nat.mul_le_mul_right (order.length + 1)
        (List.countP_le_length (p := fun x => !(∅ : Std.TreeSet NodeId).contains x) (l := order))
      have := descent_le order W g id
      rw [toil, unopened, Nat.succ_mul]
      omega)
  refine ⟨d, ?_⟩
  rw [Grammar.describe, count]
  show Except.map Prod.fst (g.describeNode _ id {}) = _
  rw [run]
  rfl

end Descriptions

/-! ## What may be asked of a grammar -/

/-- Whatever may be asked of a grammar at its slots is answered, given enough fuel. No name is
looked up in vain on the way, and none dangles afterwards. -/
structure Grammar.Serving {L : Type} [DecidableEq L] (g : Grammar L) : Prop where
  derive : ∀ (id : Nat) s, id < g.size → ∃ next g',
    Answers (fun fuel => Grammar.derive fuel id s) g (next, g') ∧ next < g'.size ∧ g'.Grounded
  nullable : ∀ id < g.size, ∃ b g', Answers (fun fuel => Grammar.nullable fuel id) g (b, g') ∧
    g'.Grounded
  force : ∀ id < g.size, ∃ target g',
    Answers (fun fuel => Grammar.force fuel id) g (target, g') ∧ target < g'.size ∧ g'.Grounded
  cull : ∀ id < g.size, ∃ result g',
    Grammar.cull id g = .ok (result, g') ∧ (∀ next, result = some next → next < g'.size) ∧
    g'.Grounded
  step : ∀ (id : Nat) s culling, id < g.size → ∃ next accepts g',
    Answers (fun fuel => Grammar.step fuel id s culling) g ((next, accepts), g') ∧ next < g'.size ∧
    g'.Grounded
  collect : ∀ roots, (∀ id ∈ roots, id < g.size) → ∃ places g',
    Grammar.collect roots g = .ok (places, g') ∧ (∀ id ∈ places, id < g'.size) ∧ g'.Grounded
  reachable : ∀ id < g.size, ∃ count, g.reachable id = .ok count
  display : ∀ [Lexeme L], ∀ id < g.size, ∃ text, g.display id = .ok text

section Serving

variable {L : Type} [DecidableEq L] {links : Links} {W : World} {g : Grammar L}

theorem Good.grounded (good : Good links W g) : g.Grounded := good.formed.grounded

theorem Good.derive_grounded (good : Good links W g) (id : Nat) (s : Symbol L) (lt : id < g.size) :
    ∃ next g',
    Answers (fun fuel => Grammar.derive fuel id s) g (next, g') ∧ next < g'.size ∧ g'.Grounded := by
  obtain ⟨next, W', g', h⟩ := (good.ready (q := .derive id s) lt).derive_answered
  exact ⟨next, g', h.answers, (h.formed good.formed).2.lt_size, (h.carries good).good.grounded⟩

theorem Good.nullable_grounded (good : Good links W g) (id : Nat) (lt : id < g.size) : ∃ b g',
    Answers (fun fuel => Grammar.nullable fuel id) g (b, g') ∧ g'.Grounded := by
  obtain ⟨b, W', g', h⟩ := (good.ready (q := .nullable id) lt).nullable_answered
  exact ⟨b, g', h.answers, (h.carries good).good.grounded⟩

theorem Good.force_grounded (good : Good links W g) (id : Nat) (lt : id < g.size) : ∃ target g',
    Answers (fun fuel => Grammar.force fuel id) g (target, g') ∧ target < g'.size ∧
      g'.Grounded := by
  obtain ⟨target, W', g', h⟩ := (good.ready (q := .force id) lt).force_answered
  exact ⟨target, g', h.answers, (h.formed good.formed).2.lt_size, (h.carries good).good.grounded⟩

theorem Good.cull_grounded (good : Good links W g) (id : Nat) (lt : id < g.size) : ∃ result g',
    Grammar.cull id g = .ok (result, g') ∧ (∀ next, result = some next → next < g'.size) ∧
      g'.Grounded := by
  obtain ⟨order, result, F', g', run, trimmed, -, became, -⟩ := cull_trims good lt
  refine ⟨result, g', run, fun next same => ?_, trimmed.formed.grounded⟩
  subst same
  exact trimmed.closed.range next became.1

theorem Good.step_grounded (good : Good links W g) (id : Nat) (s : Symbol L) (culling : Bool)
    (lt : id < g.size) :
    ∃ next accepts g',
      Answers (fun fuel => Grammar.step fuel id s culling) g ((next, accepts), g') ∧
      next < g'.size ∧ g'.Grounded := by
  obtain ⟨⟨next, accepts⟩, g', N, run⟩ := exists_step good lt s culling
  obtain ⟨W', stepped⟩ := step_stepped good (run N (Nat.le_refl N))
  exact ⟨next, accepts, g', ⟨N, run⟩, stepped.solid.lt_size, stepped.carries.good.grounded⟩

theorem Good.collect_grounded (good : Good links W g) (roots : List NodeId)
    (range : ∀ id ∈ roots, id < g.size) :
    ∃ places g', Grammar.collect roots g = .ok (places, g') ∧ (∀ id ∈ places, id < g'.size) ∧
      g'.Grounded := by
  obtain ⟨place, g', run, moved, has⟩ := Grammar.collect_ok good.formed range
  refine ⟨_, g', run, fun id mem => ?_, (moved.good good).grounded⟩
  obtain ⟨old, member, rfl⟩ := List.mem_map.mp mem
  obtain ⟨y, hy⟩ := has old member
  rw [Grammar.movedBy_of_some hy]
  exact moved.lt_size hy

theorem Good.serving (good : Good links W g) : g.Serving where
  derive := good.derive_grounded
  nullable := good.nullable_grounded
  force := good.force_grounded
  cull := good.cull_grounded
  step := good.step_grounded
  collect := good.collect_grounded
  reachable id lt := by
    obtain ⟨order, count, -⟩ := reachable_ok good lt
    exact ⟨order.length, count⟩
  display id lt := by
    obtain ⟨d, run⟩ := describe_ok good lt
    exact ⟨d.text, by rw [Grammar.display, run]; rfl⟩

end Serving

/-! ## After a history -/

section Histories

variable {L : Type} [DecidableEq L] {source : Source} {settings : Settings} {fuel : Nat}
  {calls : List (Call L)} {r : Recognizer L}

/-- After every history of calls no name dangles; whatever may be asked of the grammar then is
answered. So is every further call, unless it breaks, and no name dangles after it. -/
theorem after_grounded (history : source.after settings fuel calls = .ok r) :
    r.Grounded ∧ r.grammar.Serving ∧
      ∀ c : Call L, r.Settles (fun fuel => Recognizer.call fuel c) fun _ r' => r'.Grounded := by
  obtain ⟨r₀, built, run⟩ := after_ok.mp history
  obtain ⟨W₀, consistent₀, -, -, -, rooted₀⟩ := recognizer_consistent built
  obtain ⟨W, follows⟩ := callAll_follows consistent₀ run
  have consistent := follows.consistent
  refine ⟨consistent.grounded, consistent.good.serving, fun c => ?_⟩
  exact (call_settles consistent (follows.rooted _ rooted₀) c).imp fun _ _ ⟨_, follows'⟩ =>
    follows'.consistent.grounded

theorem after_grounded_leftRecursive : ∃ r : Recognizer String,
    leftRecursive.after { collectEvery := some 1 } 30
      [.parse [⟨2, "a"⟩, ⟨2, "b"⟩], .reset, .feed ⟨2, "c"⟩] = .ok r ∧
      r.Grounded ∧ r.grammar.Serving ∧
        ∀ c : Call String, ∃ u r', Answers (fun fuel => Recognizer.call fuel c) r (u, r') ∧
          r'.Grounded := by
  obtain ⟨r, history⟩ :=
    exists_of_isOk (show (leftRecursive.after (L := String) { collectEvery := some 1 } 30
    [.parse [⟨2, "a"⟩, ⟨2, "b"⟩], .reset, .feed ⟨2, "c"⟩]).isOk = true by decide +kernel)
  obtain ⟨grounded, serving, calling⟩ := after_grounded history
  have period : r.settings.collectEvery ≠ some 0 := settings_of_after history ▸ nofun
  exact ⟨r, history, grounded, serving, fun c => (calling c).answers period⟩

end Histories

end DerivativeParsing
