import DerivativeParsing.Proofs.Verdicts

/-!
# How culling compacts a graph

A culling goes through the graph once. It comes back to a rule that it has not left yet, and then it
takes the rule as it is; and it answers for a thunk that was culled before without looking beneath
it. So it has to be shown that nothing stays in reach that should have been led past.

1. `Grammar.Owned`: a thunk is led to only by the rule that was made with it. Once the thunk is
   culled, the rule leads past it. `Evaluates.owned` and `Grammar.Moved.owned`: evaluation and
   collection keep this.
2. `Grammar.Final`: a node past which no edge is to be led. `Shrinks.final_unique`: there is one for
   each node.
3. `Compacting` is what holds in the course of culling, beside that nodes shrink and are judged:
   what is finished leads to what is finished, or to a rule that is not left yet.
   `cullNode_compacts`: it is kept.
4. `cull_compacts`: when the culling is over, no rule is left open.
-/

namespace DerivativeParsing

open Grammar (nothing lt_size_of_get?)

/-! ## Thunks and their rules -/

/-- A state that a thunk has when it was culled. -/
def ThunkState.isCulled : ThunkState → Bool
  | .culled _ => true
  | _ => false

/-- A rule whose body is a thunk was made with it, in the slot after it. The thunk was not culled,
unless the rule is being culled. -/
structure Grammar.Owned {L : Type} (g : Grammar L) : Prop where
  range : ∀ (x : NodeId) r body, g.arena.get? x = some (.rule r body) → body < g.size
  owner : ∀ (x : NodeId) r body t base, g.arena.get? x = some (.rule r body) →
    g.arena.get? body = some (.thunk t base) →
    x = body + 1 ∧ (t.state.isCulled = true → r.busy = true)

/-- Whether a node is a rule that culling has come to and not left. -/
def Grammar.Busy {L : Type} (g : Grammar L) (id : NodeId) : Prop :=
  ∃ r body, g.arena.get? id = some (.rule r body) ∧ r.busy = true

/-- What may become of a rule or a thunk so that it is still owned as it was: the rule keeps its
body, and it is still being culled if it was; the thunk is not culled if it was not. -/
inductive Node.Continues {L : Type} : Node L → Node L → Prop
  | fixed {node node' : Node L} : node'.isFixed → Continues node node'
  | rule {r r' : Rule} {body : NodeId} :
    (r.busy = true → r'.busy = true) → Continues (.rule r body) (.rule r' body)
  | thunk {t t' : Thunk L} {base base' : NodeId} :
    (t'.state.isCulled = true → t.state.isCulled = true) →
    Continues (.thunk t base) (.thunk t' base')

section Owned

variable {L : Type} {g g' : Grammar L} {id : NodeId} {node : Node L}
  {place : NodeId → Option NodeId}

/-- A collection keeps nodes side by side: a slot between them would hold a node from between
them. -/
theorem Grammar.Moved.succ (moved : Grammar.Moved place g g') {x y y' : NodeId}
    (hx : place x = some y) (hx' : place (x + 1) = some y') : y' = y + 1 := by
  refine Nat.le_antisymm (Nat.le_of_not_lt fun gap => ?_)
    (moved.mono _ _ _ _ hx hx' (Nat.lt_succ_self x))
  obtain ⟨z, hz⟩ := moved.back (y + 1) (Nat.lt_trans gap (moved.lt_size hx'))
  rcases Nat.lt_trichotomy z x with before | rfl | after
  · have := moved.mono _ _ _ _ hz hx before
    omega
  · have := Option.some.inj (hz.symm.trans hx)
    omega
  · rcases Nat.lt_or_eq_of_le after with after | rfl
    · have := moved.mono _ _ _ _ hx' hz after
      omega
    · have := Option.some.inj (hz.symm.trans hx')
      omega

theorem Node.Continues.refl (node : Node L) : node.Continues node := by
  cases node with
  | rule => exact .rule fun busy => busy
  | thunk => exact .thunk fun culled => culled
  | _ => exact .fixed rfl

namespace Grammar.Owned

/-- Every node is one that was there, or it is neither a rule nor a thunk. -/
theorem step (h : g.Owned) (size : g.size ≤ g'.size)
    (old : ∀ (x : NodeId) node', g'.arena.get? x = some node' →
      node'.isFixed ∨ ∃ node, g.arena.get? x = some node ∧ node.Continues node') : g'.Owned := by
  have rules {x : NodeId} {r' : Rule} {body : NodeId}
      (there : g'.arena.get? x = some (.rule r' body)) :
      ∃ r, g.arena.get? x = some (.rule r body) ∧ (r.busy = true → r'.busy = true) := by
    rcases old x _ there with fixed | ⟨node, before, fixed | keep⟩
    · cases fixed
    · cases fixed
    · exact ⟨_, before, keep⟩
  have thunks {x : NodeId} {t' : Thunk L} {base' : NodeId}
      (there : g'.arena.get? x = some (.thunk t' base')) :
      ∃ t base, g.arena.get? x = some (.thunk t base) ∧
      (t'.state.isCulled = true → t.state.isCulled = true) := by
    rcases old x _ there with fixed | ⟨node, before, fixed | - | keep⟩
    · cases fixed
    · cases fixed
    · exact ⟨_, _, before, keep⟩
  constructor
  · intro x r' body there
    obtain ⟨r, before, -⟩ := rules there
    exact Nat.lt_of_lt_of_le (h.range x r body before) size
  · intro x r' body t' base' there below
    obtain ⟨r, before, busy⟩ := rules there
    obtain ⟨t, base, before', culled⟩ := thunks below
    obtain ⟨same, owner⟩ := h.owner x r body t base before before'
    exact ⟨same, fun state => busy (owner (culled state))⟩

theorem of_eq (h : g.Owned) (arena : g'.arena = g.arena) : g'.Owned :=
  h.step (Nat.le_of_eq (congrArg Arena.size arena.symm)) fun _ node there =>
    .inr ⟨node, arena ▸ there, .refl node⟩

theorem withNode (h : g.Owned) (fixed : node.isFixed) : (g.withNode node).Owned := by
  refine h.step (by simp) fun x node' there => ?_
  rw [get?_withNode] at there
  split at there
  · cases there
    exact .inl fixed
  · exact .inr ⟨node', there, .refl node'⟩

theorem revised {f : Node L → Node L} (h : g.Owned)
    (continues : ∀ node, g.arena.get? id = some node → node.Continues (f node)) :
    (g.revised id f).Owned := by
  refine h.step (Nat.le_of_eq (size_revised _ _ _).symm) fun x node' there => ?_
  rw [get?_revised] at there
  split at there
  · rename_i same
    subst same
    obtain ⟨node, before, rfl⟩ := Option.map_eq_some_iff.mp there
    exact .inr ⟨node, before, continues node before⟩
  · exact .inr ⟨node', there, .refl node'⟩

theorem mapRule {f : Rule → Rule} (h : g.Owned) (busy : ∀ r, r.busy = true → (f r).busy = true) :
    (g.revised id (.mapRule f)).Owned :=
  h.revised fun node _ => by
    cases node with
    | rule r => exact .rule (busy r)
    | _ => exact .refl _

theorem setState {state : ThunkState} (h : g.Owned) (uncut : state.isCulled = false) :
    (g.revised id (.setState state)).Owned :=
  h.revised fun node _ => by
    cases node with
    | thunk => exact .thunk fun culled => absurd (culled.symm.trans uncut) nofun
    | _ => exact .refl _

theorem setCulled {target : Option NodeId} (h : g.Owned) (busy : g.Busy (id + 1)) :
    (g.revised id (.setState (.culled target))).Owned := by
  have rules {x : NodeId} {r : Rule} {body : NodeId}
      (there : (g.revised id (.setState (.culled target))).arena.get? x = some (.rule r body)) :
      g.arena.get? x = some (.rule r body) := by
    rw [get?_revised] at there
    split at there
    · obtain ⟨node, before, same⟩ := Option.map_eq_some_iff.mp there
      cases node <;> cases same
      simp_all
    · exact there
  constructor
  · intro x r body there
    rw [size_revised]
    exact h.range x r body (rules there)
  · intro x r body t base there below
    rw [get?_revised] at below
    split at below
    · rename_i same
      subst same
      obtain ⟨node, before, same⟩ := Option.map_eq_some_iff.mp below
      cases node <;> cases same
      obtain ⟨rfl, -⟩ := h.owner x r id _ _ (rules there) before
      obtain ⟨r', body', there', busy⟩ := busy
      cases Option.some.inj (there'.symm.trans (rules there))
      exact ⟨rfl, fun _ => busy⟩
    · exact h.owner x r body t base (rules there) below

/-- A rule gets another body. If that is a thunk, it is the one that was made with the rule. -/
theorem relead {r r' : Rule} {body body' : NodeId} (h : g.Owned) (size : g'.size = g.size)
    (others : ∀ x, x ≠ id → g'.arena.get? x = g.arena.get? x)
    (before : g.arena.get? id = some (.rule r body))
    (here : g'.arena.get? id = some (.rule r' body')) (range : body' < g.size)
    (below : ∀ t base, g.arena.get? body' = some (.thunk t base) →
      id = body' + 1 ∧ t.state.isCulled = false) :
    g'.Owned := by
  have thunks {x : NodeId} {t : Thunk L} {base : NodeId}
      (there : g'.arena.get? x = some (.thunk t base)) : g.arena.get? x = some (.thunk t base) := by
    refine (others x ?_).symm.trans there
    rintro rfl
    cases here.symm.trans there
  constructor
  · intro x r₁ b there
    rw [size]
    by_cases same : x = id
    · subst same
      cases here.symm.trans there
      exact range
    · exact h.range x r₁ b ((others x same).symm.trans there)
  · intro x r₁ b t base there under
    by_cases same : x = id
    · subst same
      cases here.symm.trans there
      obtain ⟨owner, uncut⟩ := below t base (thunks under)
      exact ⟨owner, fun culled => absurd (culled.symm.trans uncut) nofun⟩
    · exact h.owner x r₁ b t base ((others x same).symm.trans there) (thunks under)

theorem withDerivedRule {r : Rule} {body : NodeId} {s : Symbol L} (h : g.Owned) :
    (g.withDerivedRule id r body s).Owned := by
  suffices made : ((g.withNode (.thunk { symbol := s } body)).withNode
    (.rule { name := r.name } g.size)).Owned from
    made.mapRule fun _ busy => busy
  constructor
  · intro x r' b there
    simp only [size_withNode]
    rw [get?_withNode, get?_withNode] at there
    split at there
    · cases there
      exact Nat.lt_succ_of_lt (Nat.lt_succ_self _)
    split at there
    · cases there
    · exact Nat.lt_add_right 2 (h.range x r' b there)
  · intro x r' b t base there below
    rw [get?_withNode, get?_withNode] at there below
    split at below
    · cases below
    split at there
    · rename_i last
      cases there
      rw [size_withNode] at last
      rw [if_pos rfl] at below
      cases below
      exact ⟨last, nofun⟩
    split at there
    · cases there
    split at below
    · rename_i new
      exact absurd (new ▸ h.range x r' b there) (Nat.lt_irrefl _)
    · exact h.owner x r' b t base there below

theorem moved (h : g.Owned) (moved : Grammar.Moved place g g') : g'.Owned := by
  constructor
  · intro y r' body' there'
    obtain ⟨x, node, hx, there, same, has⟩ := moved.get?_back there'
    cases node with
    | rule r body =>
      cases same
      exact moved.lt_size ((moved.part hx there).2 _ (.head _))
    | _ => cases same
  · intro y r' body' t' base' there' below'
    obtain ⟨x, node, hx, there, same, -⟩ := moved.get?_back there'
    cases node with
    | rule r body =>
      cases same
      have hbody := (moved.part hx there).2 _ (.head _)
      obtain ⟨z, node, hz, below, same, -⟩ := moved.get?_back below'
      cases moved.injective hz hbody
      cases node with
      | thunk t base =>
        cases same
        obtain ⟨rfl, culled⟩ := h.owner x r body t base there below
        refine ⟨moved.succ hbody hx, fun state => culled ?_⟩
        obtain ⟨s, state₀⟩ := t
        cases state₀ with
        | culled => rfl
        | _ => cases state
      | _ => cases same
    | _ => cases same

end Grammar.Owned

/-- Evaluation makes rules and thunks together, and culls nothing. -/
theorem Evaluates.owned [DecidableEq L] {W W' : World} {q : Question L} {a : Reply}
    (h : Evaluates W g q a W' g') (owned : g.Owned) : g'.Owned := by
  induction h with
  | spent | rule_known | known | miss | nullable_plain | nullable_done | force_other
  | force_resolved => exact owned
  | undefined | nullable_cycle | force_running => exact owned.of_eq rfl
  | rule_new => exact owned.withDerivedRule
  | thunk _ _ _ ihf ihd => exact ihd (ihf owned)
  | fresh _ _ _ _ ih => exact (ih (owned.of_eq rfl)).of_eq rfl
  | hit => exact owned.withNode rfl
  | alt _ _ _ ihl ihr => exact (ihr (ihl owned)).withNode rfl
  | cat _ _ _ ihb ihl => exact (ihl (ihb owned)).withNode rfl
  | cat_nullable _ _ _ _ _ ihb ihl ihr => exact (ihr ((ihl (ihb owned)).withNode rfl)).withNode rfl
  | rep _ _ ih => exact (ih owned).withNode rfl
  | nullable_left _ _ ih | nullable_first _ _ ih => exact ih owned
  | nullable_right _ _ _ ihl ihr | nullable_second _ _ _ ihl ihr => exact ihr (ihl owned)
  | nullable_thunk _ _ _ ihf ihn => exact ihn (ihf owned)
  | nullable_rule _ _ _ ih =>
    exact (ih (owned.mapRule fun _ busy => busy)).mapRule fun _ busy => busy
  | @force_pending W W₁ g g₁ id base target t _ _ _ ih =>
    have resolved : (g₁.revised id (.setState (.forced target))).Owned :=
      (ih (owned.setState rfl)).setState rfl
    exact resolved.of_eq rfl

end Owned

/-! ## Where edges are to lead -/

/-- Whether no edge is to be led past the node: both sides of a choice match something, and no thunk
is resolved. -/
def Node.Final {L : Type} (g : Grammar L) : Node L → Prop
  | .alt left right => g.Productive left ∧ g.Productive right
  | .thunk t _ => t.resolved? = none
  | _ => True

def Grammar.Final {L : Type} (g : Grammar L) (id : NodeId) : Prop :=
  ∀ node, g.arena.get? id = some node → node.Final g

section Final

variable {L : Type} {g : Grammar L} {x y z : NodeId}

/-- A thunk that is not resolved, and was not culled as dead, is still to be evaluated. -/
theorem waiting_of_unresolved {t : Thunk L} {base : NodeId} (unresolved : t.resolved? = none)
    (unculled : (Node.thunk t base).Unculled) : t.state.isWaiting := by
  obtain ⟨s, state⟩ := t
  cases state with
  | pending | running => rfl
  | forced => cases unresolved
  | culled target =>
    cases target with
    | none => exact absurd rfl unculled
    | some => cases unresolved

theorem not_culled_of_waiting {state : ThunkState} (waiting : state.isWaiting) :
    state.isCulled = false := by
  cases state with
  | pending | running | forced => rfl
  | culled => cases waiting

/-- Edges to a node that matches something are led to one place only. -/
theorem Grammar.Shrinks.final_unique (h : g.Shrinks x y) (h' : g.Shrinks x z)
    (productive : g.Productive x) (hy : g.Final y) (hz : g.Final z) : y = z := by
  induction h with
  | refl id =>
    cases h' with
    | refl => rfl
    | alt_left there dead => exact absurd (hy _ there).2 dead
    | alt_right there dead => exact absurd (hy _ there).1 dead
    | resolved there resolved => cases resolved.symm.trans (hy _ there)
  | alt_left there dead h ih =>
    have alive := ((Grammar.productive_iff there).mp productive).resolve_right dead
    cases h' with
    | refl => exact absurd (hz _ there).2 dead
    | alt_left there' _ h' =>
      cases Option.some.inj (there.symm.trans there')
      exact ih h' alive hy
    | alt_right there' dead' =>
      cases Option.some.inj (there.symm.trans there')
      exact absurd alive dead'
    | resolved there' => cases Option.some.inj (there.symm.trans there')
  | alt_right there dead h ih =>
    have alive := ((Grammar.productive_iff there).mp productive).resolve_left dead
    cases h' with
    | refl => exact absurd (hz _ there).1 dead
    | alt_left there' dead' =>
      cases Option.some.inj (there.symm.trans there')
      exact absurd alive dead'
    | alt_right there' _ h' =>
      cases Option.some.inj (there.symm.trans there')
      exact ih h' alive hy
    | resolved there' => cases Option.some.inj (there.symm.trans there')
  | resolved there resolved h ih =>
    have alive := (Grammar.Shrinks.resolved there resolved (.refl _)).productive_iff.mp productive
    cases h' with
    | refl => cases resolved.symm.trans (hz _ there)
    | alt_left there' | alt_right there' => cases Option.some.inj (there.symm.trans there')
    | resolved there' resolved' h' =>
      cases Option.some.inj (there.symm.trans there')
      cases resolved.symm.trans resolved'
      exact ih h' alive hy

/-- All that is left of a node but the node itself is no thunk. -/
theorem Grammar.Shrinks.solid [DecidableEq L] (h : g.Shrinks x y) (formed : g.Formed) :
    x = y ∨ g.Solid y := by
  have below {z y : NodeId} (solid : g.Solid z) (ih : z = y ∨ g.Solid y) : g.Solid y := by
    rcases ih with rfl | solid'
    · exact solid
    · exact solid'
  induction h with
  | refl => exact .inl rfl
  | alt_left there _ _ ih => exact .inr (below (formed.node _ _ there).1.2 ih)
  | alt_right there _ _ ih => exact .inr (below (formed.node _ _ there).2.2 ih)
  | resolved there resolved _ ih =>
    exact .inr (below ((formed.node _ _ there).2 _ (Thunk.target?_of_resolved? resolved)) ih)

theorem Grammar.Solid.shrinks [DecidableEq L] (solid : g.Solid x) (h : g.Shrinks x y)
    (formed : g.Formed) : g.Solid y := by
  rcases h.solid formed with rfl | solid'
  · exact solid
  · exact solid'

end Final

/-! ## In the course of culling -/

/-- Whether an edge may lead to a node in the course of culling: it was finished and stayed, or it
will. -/
def Tidy {L : Type} (F : Std.TreeMap NodeId (Option NodeId)) (g : Grammar L) (id : NodeId) : Prop :=
  F[id]? = some (some id) ∨ g.Busy id

/-- What holds in the course of culling: the nodes have been shrunk, and judged where they are
finished. What is left of a finished node was finished too, or will be; and so it is with what a
finished node leads to, if the node stayed. -/
structure Compacting {L : Type} (g₀ : Grammar L) (F : Std.TreeMap NodeId (Option NodeId))
    (g : Grammar L) : Prop where
  shrinking : Shrinking g₀ F g
  judged : Judged g₀ F g
  owned : g.Owned
  lively : ∀ x, g.Busy x → g₀.Productive x
  final : ∀ (x y : NodeId), F[x]? = some (some y) → g₀.Final y
  lands : ∀ (x y : NodeId), F[x]? = some (some y) → Tidy F g y
  parts : ∀ (x : NodeId) node, F[x]? = some (some x) → g.arena.get? x = some node →
    node = .rep nothing ∨ ∀ y ∈ node.successors false, Tidy F g y

/-- What a visit does: what may be led to still may, and the rules that are open are the same. -/
structure Grows {L : Type} (F : Std.TreeMap NodeId (Option NodeId)) (g : Grammar L)
    (F' : Std.TreeMap NodeId (Option NodeId)) (g' : Grammar L) : Prop where
  tidy : ∀ x, Tidy F g x → Tidy F' g' x
  busy : ∀ x, g'.Busy x ↔ g.Busy x

/-- What holds after a visit to a node. -/
structure Visited {L : Type} (g₀ : Grammar L) (id : NodeId) (F : Std.TreeMap NodeId (Option NodeId))
    (g : Grammar L) (F' : Std.TreeMap NodeId (Option NodeId)) (g' : Grammar L)
    (result : Option NodeId) : Prop where
  compacting : Compacting g₀ F' g'
  grows : Grows F g F' g'
  remains : g₀.Remains id result
  right : result.isSome ↔ g₀.Productive id
  final : ∀ y, result = some y → g₀.Final y
  lands : ∀ y, result = some y → Tidy F' g' y

/-- A node that culling may come to: a thunk only from its rule, and only once. -/
def Grammar.Open {L : Type} (g : Grammar L) (id : NodeId) : Prop :=
  ∀ t base, g.arena.get? id = some (.thunk t base) → t.state.isCulled = false ∧ g.Busy (id + 1)

section Compacting

variable {L : Type} {g₀ g g₁ g' : Grammar L} {F F' : Std.TreeMap NodeId (Option NodeId)}
  {id : NodeId} {result given : Option NodeId} {live : Std.TreeSet NodeId} {fuel : Nat}
  {P : NodeId → Prop}

theorem Grows.refl (F : Std.TreeMap NodeId (Option NodeId)) (g : Grammar L) : Grows F g F g :=
  ⟨fun _ tidy => tidy, fun _ => .rfl⟩

theorem Grows.trans {F₁ : Std.TreeMap NodeId (Option NodeId)} (h : Grows F g F₁ g₁)
    (h' : Grows F₁ g₁ F' g') : Grows F g F' g' :=
  ⟨fun x tidy => h'.tidy x (h.tidy x tidy), fun x => (h'.busy x).trans (h.busy x)⟩

theorem Grammar.busy_congr {x : NodeId} (same : g'.arena.get? x = g.arena.get? x) :
    g'.Busy x ↔ g.Busy x := by
  unfold Grammar.Busy
  rw [same]

/-- Of rules nothing is changed when the state of a thunk is set. -/
theorem Grammar.busy_setState {state : ThunkState} {x : NodeId} :
    (g.revised id (.setState state)).Busy x ↔ g.Busy x := by
  unfold Grammar.Busy
  rw [Grammar.get?_revised]
  split
  · rename_i same
    subst same
    cases g.arena.get? id with
    | none => rfl
    | some node =>
      cases node with
      | thunk => exact iff_of_false (by rintro ⟨_, _, ⟨⟩, _⟩) (by rintro ⟨_, _, ⟨⟩, _⟩)
      | _ => exact .rfl
  · rfl

/-- What was finished as it is stays so when it is finished again. -/
theorem Compacting.finished (h : Compacting g₀ F g) (remains : g₀.Remains id given)
    (right : given.isSome ↔ g₀.Productive id) (final : ∀ y, given = some y → g₀.Final y)
    (tidy : Tidy F g id) : given = some id := by
  -- in either case the node stays in the end, as the first time
  have stays : g₀.Final id ∧ g₀.Productive id := by
    rcases tidy with done | busy
    · exact ⟨h.final id id done, (h.judged.results id _ done).mp rfl⟩
    · refine ⟨fun node₀ there₀ => ?_, h.lively id busy⟩
      obtain ⟨r, body, there, -⟩ := busy
      obtain ⟨_, there₁, shrunk⟩ := h.shrinking.get?_back there
      cases Option.some.inj (there₀.symm.trans there₁)
      obtain ⟨r₀, b₀, rfl, -⟩ := Node.shrunk_rule shrunk
      trivial
  cases given with
  | none => exact absurd (right.mpr stays.2) nofun
  | some y => rw [Grammar.Shrinks.final_unique (.refl id) remains stays.2 stays.1 (final y rfl)]

theorem Grammar.finishCull_result (run : Grammar.finishCull id given F g = .ok ((result, F'), g')) :
    given = result := by
  obtain ⟨g₁, run', -⟩ := Grammar.finishCull_ok (F := F) (g := g) id given
  cases run'.symm.trans run
  rfl

/-- What holds after a node was finished, and left if it is a rule. -/
structure Finished {L : Type} (g₀ : Grammar L) (id : NodeId)
    (F : Std.TreeMap NodeId (Option NodeId)) (g : Grammar L)
    (F' : Std.TreeMap NodeId (Option NodeId)) (g' : Grammar L) (result : Option NodeId) : Prop where
  compacting : Compacting g₀ F' g'
  tidy : ∀ x, Tidy F g x → Tidy F' g' x
  busy : ∀ x, g'.Busy x ↔ x ≠ id ∧ g.Busy x
  final : ∀ y, result = some y → g₀.Final y
  lands : ∀ y, result = some y → Tidy F' g' y

theorem Compacting.finish (h : Compacting g₀ F g)
    (frame : ∀ x, x ≠ id → g₁.arena.get? x = g.arena.get? x) (left : ¬g₁.Busy id) (owned : g₁.Owned)
    (final : ∀ y, result = some y → g₀.Final y) (lands : ∀ y, result = some y → y ≠ id → Tidy F g y)
    (parts : ∀ node, result = some id → g₁.arena.get? id = some node →
      node = .rep nothing ∨ ∀ y ∈ node.successors false, y = id ∨ Tidy F g y)
    (shrinking' : Shrinking g₀ F' g') (judged' : Judged g₀ F' g')
    (run : Grammar.finishCull id result F g₁ = .ok ((given, F'), g')) :
    Finished g₀ id F g F' g' result := by
  obtain ⟨g₂, run', arena, -⟩ := Grammar.finishCull_ok (F := F) (g := g₁) id result
  cases run'.symm.trans run
  have here : (F.insert id result)[id]? = some result := by simp
  have others {x : NodeId} (other : x ≠ id) : (F.insert id result)[x]? = F[x]? := by
    rw [Std.TreeMap.getElem?_insert,
      if_neg fun same => other (Std.LawfulEqCmp.eq_of_compare same).symm]
  have same {x : NodeId} (other : x ≠ id) : g'.arena.get? x = g.arena.get? x :=
    arena ▸ frame x other
  have busy (x : NodeId) : g'.Busy x ↔ x ≠ id ∧ g.Busy x := by
    by_cases here : x = id
    · subst here
      exact iff_of_false
        (fun busy => left ((Grammar.busy_congr (by rw [arena])).mp busy)) fun both => both.1 rfl
    · rw [Grammar.busy_congr (same here), and_iff_right here]
  have remains := shrinking'.results id result here
  have tidy (x : NodeId) (tidy : Tidy F g x) : Tidy (F.insert id result) g' x := by
    by_cases same : x = id
    · subst same
      exact .inl
        (here.trans (congrArg some (h.finished remains (judged'.results x result here) final tidy)))
    · exact tidy.imp (fun done => (others same).trans done) fun open_ => (busy x).mpr ⟨same, open_⟩
  have landed (y : NodeId) (answer : result = some y) : Tidy (F.insert id result) g' y := by
    by_cases back : y = id
    · subst back
      exact .inl (here.trans (congrArg some answer))
    · exact tidy y (lands y answer back)
  refine ⟨⟨shrinking', judged', owned.of_eq arena, fun x open_ => h.lively x ((busy x).mp open_).2,
    fun x y done => ?_, fun x y done => ?_, fun x node done there => ?_⟩, tidy, busy, final, landed⟩
  · by_cases same : x = id
    · subst same
      exact final y (Option.some.inj (here.symm.trans done))
    · exact h.final x y ((others same).symm.trans done)
  · by_cases same : x = id
    · subst same
      exact landed y (Option.some.inj (here.symm.trans done))
    · exact tidy y (h.lands x y ((others same).symm.trans done))
  · by_cases finished : x = id
    · subst finished
      have stays : result = some x := Option.some.inj (here.symm.trans done)
      refine (parts node stays (arena ▸ there)).imp_right fun leads y member => ?_
      rcases leads y member with rfl | tidied
      · exact .inl done
      · exact tidy y tidied
    · refine (h.parts x node ((others finished).symm.trans done)
        ((same finished).symm.trans there)).imp_right ?_
      exact fun leads y member => tidy y (leads y member)

/-- A node that is no rule is finished after the nodes below it were visited. -/
theorem Finished.visited {F₁ : Std.TreeMap NodeId (Option NodeId)}
    (h : Finished g₀ id F₁ g₁ F' g' result) (grows : Grows F g F₁ g₁) (idle : ¬g.Busy id)
    (remains : g₀.Remains id result) (productive : g₀.Productive id) :
    Visited g₀ id F g F' g' result where
  compacting := h.compacting
  grows := by
    refine ⟨fun x tidy => h.tidy x (grows.tidy x tidy), fun x => ?_⟩
    rw [h.busy, grows.busy]
    refine and_iff_right_of_imp fun busy => ?_
    rintro rfl
    exact idle busy
  remains := remains
  right := iff_of_true (remains.isSome productive) productive
  final := h.final
  lands := h.lands

theorem Grammar.not_busy {node : Node L} {x : NodeId} (there : g.arena.get? x = some node)
    (plain : ∀ r body, node ≠ .rule r body) : ¬g.Busy x := by
  rintro ⟨r, body, there', -⟩
  exact plain r body (Option.some.inj (there.symm.trans there'))

/-- A node is revised that was not finished, and is no rule that is left by this. -/
theorem Compacting.revised {f : Node L → Node L} (h : Compacting g₀ F g) (new : F[id]? = none)
    (shrinking : Shrinking g₀ F (g.revised id f)) (judged : Judged g₀ F (g.revised id f))
    (owned : (g.revised id f).Owned) (productive : g₀.Productive id)
    (busy : g.Busy id → (g.revised id f).Busy id) : Compacting g₀ F (g.revised id f) := by
  have others {x : NodeId} (other : x ≠ id) : (g.revised id f).arena.get? x = g.arena.get? x := by
    rw [Grammar.get?_revised, if_neg (Ne.symm other)]
  have tidy (x : NodeId) (tidy : Tidy F g x) : Tidy F (g.revised id f) x := by
    refine tidy.imp_right fun open_ => ?_
    by_cases same : x = id
    · subst same
      exact busy open_
    · exact (Grammar.busy_congr (others same)).mpr open_
  have other {x y : NodeId} (done : F[x]? = some (some y)) : x ≠ id := by
    rintro rfl
    cases new.symm.trans done
  refine ⟨shrinking, judged, owned, fun x open_ => ?_,
    h.final, fun x y done => tidy y (h.lands x y done), fun x node done there => ?_⟩
  · by_cases same : x = id
    · exact same ▸ productive
    · exact h.lively x ((Grammar.busy_congr (others same)).mp open_)
  · refine (h.parts x node done
      ((others (other done)).symm.trans there)).imp_right fun leads y member => ?_
    exact tidy y (leads y member)

section Open

variable [DecidableEq L] {x y : NodeId}

omit [DecidableEq L] in
theorem Shrinking.solid_iff (h : Shrinking g₀ F g) : g.Solid x ↔ g₀.Solid x := by
  have kind {node₀ node : Node L} (shrunk : node₀.Shrunk g₀ node) :
      node.isThunk = node₀.isThunk := by
    cases shrunk <;> rfl
  constructor
  · rintro ⟨node, there, solid⟩
    obtain ⟨node₀, there₀, shrunk⟩ := h.get?_back there
    exact ⟨node₀, there₀, (kind shrunk).symm.trans solid⟩
  · rintro ⟨node₀, there₀, solid⟩
    obtain ⟨node, there, shrunk⟩ := h.node x node₀ there₀
    exact ⟨node, there, (kind shrunk).trans solid⟩

omit [DecidableEq L] in
theorem Grammar.Solid.open (solid : g.Solid x) : g.Open x := by
  intro t base there
  obtain ⟨node, there', plain⟩ := solid
  cases Option.some.inj (there.symm.trans there')
  cases plain

/-- Culling may come to what is left of a node that is no thunk. -/
theorem Compacting.open_of_part (h : Compacting g₀ F g) (formed : g₀.Formed) (solid : g₀.Solid x)
    (left : g₀.Shrinks x y) : g.Open y :=
  Grammar.Solid.open (h.shrinking.solid_iff.mpr (solid.shrinks left formed))

end Open

section Opened

variable {r : Rule} {body b x : NodeId}

/-- With a rule open. -/
def Grammar.opened (g : Grammar L) (id : NodeId) : Grammar L :=
  g.revised id (.mapRule ({ · with busy := true }))

/-- With a rule no more open, which has another body. -/
def Grammar.released (g : Grammar L) (id body : NodeId) : Grammar L :=
  (g.revised id (.mapRule ({ · with busy := false }))).revised id (.setBody body)

theorem Grammar.get?_opened (there : g.arena.get? id = some (.rule r body)) :
    (g.opened id).arena.get? x =
      if id = x then some (.rule { r with busy := true } body) else g.arena.get? x := by
  unfold opened
  rw [get?_revised]
  split
  · rename_i same
    subst same
    rw [there]
    rfl
  · rfl

theorem Grammar.busy_opened (there : g.arena.get? id = some (.rule r body)) :
    (g.opened id).Busy x ↔ x = id ∨ g.Busy x := by
  by_cases same : x = id
  · subst same
    refine iff_of_true ⟨{ r with busy := true }, body, ?_, rfl⟩ (.inl rfl)
    rw [get?_opened there, if_pos rfl]
  · rw [or_iff_right same]
    refine busy_congr ?_
    rw [get?_opened there, if_neg (Ne.symm same)]

theorem Grammar.get?_released (there : g.arena.get? id = some (.rule r body)) :
    (g.released id b).arena.get? x =
      if id = x then some (.rule { r with busy := false } b) else g.arena.get? x := by
  unfold released
  rw [get?_revised, get?_revised]
  split
  · rename_i same
    subst same
    rw [there]
    rfl
  · rfl

theorem Grammar.not_busy_released (there : g.arena.get? id = some (.rule r body)) :
    ¬(g.released id b).Busy id := by
  rintro ⟨r', body', there', busy⟩
  rw [get?_released there, if_pos rfl] at there'
  cases there'
  cases busy

/-- A rule is opened when culling comes to it. A thunk that it leads to is its own, and was not
culled. -/
theorem Compacting.opened (h : Compacting g₀ F g) (new : F[id]? = none)
    (productive : g₀.Productive id) (there : g.arena.get? id = some (.rule r body))
    (idle : r.busy = false) :
    Compacting g₀ F (g.opened id) ∧ ∀ t base, (g.opened id).arena.get? body = some (.thunk t base) →
      id = body + 1 ∧ t.state.isCulled = false := by
  obtain ⟨_, there₀, shrunk⟩ := h.shrinking.get?_back there
  obtain ⟨r₀, b₀, rfl, -⟩ := Node.shrunk_rule shrunk
  refine ⟨h.revised new (h.shrinking.marked there₀ true)
    ⟨h.judged.results, h.judged.unculled.mapRule _⟩
    (h.owned.mapRule fun _ _ => rfl) productive fun _ => (Grammar.busy_opened there).mpr (.inl rfl),
    fun t base below => ?_⟩
  rw [Grammar.get?_opened there] at below
  split at below
  · cases below
  · obtain ⟨owner, culled⟩ := h.owned.owner id r body t base there below
    exact ⟨owner, Bool.eq_false_iff.mpr fun state => absurd (idle.symm.trans (culled state)) nofun⟩

/-- What a rule is released with is a thunk only if it led to that thunk, and the thunk was not
evaluated. -/
theorem Visited.owned_released [DecidableEq L] {F₁ : Std.TreeMap NodeId (Option NodeId)} {r₁ : Rule}
    {b₁ : NodeId} (visit : Visited g₀ body F (g.opened id) F₁ g₁ (some b)) (formed : g₀.Formed)
    (there₁ : g₁.arena.get? id = some (.rule r₁ b₁)) (range : b < g₁.size)
    (h₁ : Compacting g₀ F (g.opened id))
    (below : ∀ t base, (g.opened id).arena.get? body = some (.thunk t base) →
      id = body + 1 ∧ t.state.isCulled = false) : (g₁.released id b).Owned := by
  have size : (g₁.released id b).size = g₁.size :=
    (Grammar.size_revised _ _ _).trans (Grammar.size_revised _ _ _)
  have here := (Grammar.get?_released (b := b) (x := id) there₁).trans (if_pos rfl)
  refine visit.compacting.owned.relead size (fun x other => ?_)
    there₁ here range fun t base under => ?_
  · rw [Grammar.get?_released there₁, if_neg (Ne.symm other)]
  · obtain ⟨_, under₀, shrunk⟩ := visit.compacting.shrinking.get?_back under
    have thunk : ¬g₀.Solid b := fun solid => by
      obtain ⟨_, under₁, plain⟩ := visit.compacting.shrinking.solid_iff.mpr solid
      cases Option.some.inj (under.symm.trans under₁)
      cases plain
    obtain rfl := (Grammar.Shrinks.solid visit.remains formed).resolve_right thunk
    have final := visit.final _ rfl _ under₀
    cases shrunk with
    | same =>
      obtain ⟨_, opened, shrunk⟩ := h₁.shrinking.node _ _ under₀
      refine ⟨?_, not_culled_of_waiting
        (waiting_of_unresolved final (visit.compacting.judged.unculled _ _ under))⟩
      cases shrunk with
      | same => exact (below _ _ opened).1
      | thunk => exact (below _ _ opened).1
    | thunk resolved => cases resolved.symm.trans final

end Opened

/-- Culling a node with so much fuel is a visit. -/
def Compacts (g₀ : Grammar L) (P : NodeId → Prop) (live : Std.TreeSet NodeId) (fuel : Nat) : Prop :=
  ∀ (id : NodeId) F g r F' g', P id → Compacting g₀ F g → g.Open id →
    Grammar.cullNode live fuel id F g = .ok ((r, F'), g') → Visited g₀ id F g F' g' r

section Trim

variable [DecidableEq L] (ih : Compacts g₀ P live fuel) (formed : g₀.Formed)
  (closed : g₀.Closed false P) (h : Compacting g₀ F g) (member : P id)
  (productive : g₀.Productive id) (shrinking' : Shrinking g₀ F' g') (judged' : Judged g₀ F' g')
  (remains : g₀.Remains id result)

section Stays

include productive shrinking' judged' remains

omit [DecidableEq L] in
include h in
theorem compacts_leaf {node : Node L} (there : g.arena.get? id = some node) (idle : ¬g.Busy id)
    (leaf : node = .rep nothing ∨ node.successors false = []) (final : g₀.Final id)
    (run : Grammar.finishCull id (some id) F g = .ok ((result, F'), g')) :
    Visited g₀ id F g F' g' result := by
  obtain rfl := Grammar.finishCull_result run
  have finished :=
    h.finish (fun _ _ => rfl) idle h.owned (fun y same => Option.some.inj same ▸ final)
    (fun y same other => absurd (Option.some.inj same).symm other) (fun node' _ there' => ?_)
      shrinking' judged' run
  · exact finished.visited (.refl F g) idle remains productive
  · cases Option.some.inj (there.symm.trans there')
    refine leaf.imp_right fun none y member => ?_
    rw [none] at member
    cases member

omit [DecidableEq L] in
/-- A combinator that stays leads to what its parts became. -/
theorem compacts_stored {F₁ : Std.TreeMap NodeId (Option NodeId)} {node : Node L}
    (h₁ : Compacting g₀ F₁ g₁) (grows : Grows F g F₁ g₁) (idle : ¬g.Busy id) (fixed : node.isFixed)
    (final : g₀.Final id) (leads : node = .rep nothing ∨ ∀ y ∈ node.successors false, Tidy F₁ g₁ y)
    (run : Grammar.finishCull id (some id) F₁ (g₁.revised id fun _ => node) =
      .ok ((result, F'), g')) :
    Visited g₀ id F g F' g' result := by
  obtain rfl := Grammar.finishCull_result run
  have here {node' : Node L} (there : (g₁.revised id fun _ => node).arena.get? id = some node') :
      node' = node := by
    rw [Grammar.get?_revised, if_pos rfl] at there
    obtain ⟨_, -, same⟩ := Option.map_eq_some_iff.mp there
    exact same.symm
  have others (x : NodeId) (other : x ≠ id) :
      (g₁.revised id fun _ => node).arena.get? x = g₁.arena.get? x := by
    rw [Grammar.get?_revised, if_neg (Ne.symm other)]
  have left : ¬(g₁.revised id fun _ => node).Busy id := by
    rintro ⟨r, body, there, -⟩
    cases here there
    cases fixed
  exact (h₁.finish others left (h₁.owned.revised fun _ _ => .fixed fixed)
    (fun y same => Option.some.inj same ▸ final)
    (fun y same other => absurd (Option.some.inj same).symm other)
    (fun node' _ there => here there ▸ leads.imp_right fun leads y member => .inr (leads y member))
      shrinking' judged'
    run).visited grows idle remains productive

end Stays

include ih formed closed h member productive shrinking' judged' remains

theorem compacts_alt {left right : NodeId} (there : g.arena.get? id = some (.alt left right))
    (run : Grammar.trim (Grammar.cullNode live fuel) id (.alt left right) F g =
      .ok ((result, F'), g')) :
    Visited g₀ id F g F' g' result := by
  obtain ⟨_, there₀, shrunk⟩ := h.shrinking.get?_back there
  obtain ⟨l₀, r₀, rfl, hl, hr⟩ := Node.shrunk_alt shrunk
  obtain ⟨⟨-, solidl⟩, ⟨-, solidr⟩⟩ := formed.node _ _ there₀
  have inl : P left := hl.closed closed (closed.successors _ _ member there₀ _ (.head _))
  have inr : P right := hr.closed closed (closed.successors _ _ member there₀ _ (.tail _ (.head _)))
  have idle := Grammar.not_busy there nofun
  rw [Grammar.trim] at run
  obtain ⟨l, F₁, g₁, run₁, run⟩ := Culling.bind_ok.mp run
  have visitl := ih left F g l F₁ g₁ inl h (h.open_of_part formed solidl hl) run₁
  obtain ⟨r, F₂, g₂, run₂, run⟩ := Culling.bind_ok.mp run
  have visitr := ih right F₁ g₁ r F₂ g₂ inr visitl.compacting
    (visitl.compacting.open_of_part formed solidr hr) run₂
  have grows := visitl.grows.trans visitr.grows
  have idle₂ : ¬g₂.Busy id := fun busy => idle ((grows.busy id).mp busy)
  have sidel : l.isSome ↔ g₀.Productive l₀ := visitl.right.trans hl.productive_iff.symm
  have sider : r.isSome ↔ g₀.Productive r₀ := visitr.right.trans hr.productive_iff.symm
  -- where a side is dead, what is left of the other side is not the choice, past which edges are
  -- led
  have bypass {given : Option NodeId} (final : ∀ y, given = some y → g₀.Final y)
      (lands : ∀ y, given = some y → Tidy F₂ g₂ y) (dead : ¬(g₀.Productive l₀ ∧ g₀.Productive r₀))
      (run : Grammar.finishCull id given F₂ g₂ = .ok ((result, F'), g')) :
        Visited g₀ id F g F' g' result := by
    obtain rfl := Grammar.finishCull_result run
    refine (visitr.compacting.finish (fun _ _ => rfl) idle₂ visitr.compacting.owned final
      (fun y same _ => lands y same)
      (fun _ same => ?_) shrinking' judged' run).visited grows idle remains productive
    exact absurd (final id same _ there₀) dead
  cases l with
  | none =>
    have dead : ¬g₀.Productive l₀ := fun alive => Bool.false_ne_true (sidel.mpr alive)
    exact bypass visitr.final visitr.lands (fun both => dead both.1) run
  | some l =>
    have lands : Tidy F₂ g₂ l := visitr.grows.tidy l (visitl.lands l rfl)
    cases r with
    | none =>
      have dead : ¬g₀.Productive r₀ := fun alive => Bool.false_ne_true (sider.mpr alive)
      refine bypass visitl.final (fun y same => ?_) (fun both => dead both.2) run
      exact Option.some.inj same ▸ lands
    | some r =>
      have run := Grammar.store_bind.symm.trans run
      have final : g₀.Final id := fun node there => by
        cases Option.some.inj (there₀.symm.trans there)
        exact ⟨sidel.mp rfl, sider.mp rfl⟩
      refine compacts_stored productive shrinking' judged' remains visitr.compacting grows idle
        rfl final (.inr ?_) run
      intro y member
      rcases List.mem_pair.mp member with rfl | rfl
      · exact lands
      · exact visitr.lands _ rfl

theorem compacts_cat {left right : NodeId} (there : g.arena.get? id = some (.cat left right))
    (run : Grammar.trim (Grammar.cullNode live fuel) id (.cat left right) F g =
      .ok ((result, F'), g')) :
    Visited g₀ id F g F' g' result := by
  obtain ⟨_, there₀, shrunk⟩ := h.shrinking.get?_back there
  obtain ⟨l₀, r₀, rfl, hl, hr⟩ := Node.shrunk_cat shrunk
  obtain ⟨⟨-, solidl⟩, ⟨-, solidr⟩⟩ := formed.node _ _ there₀
  have inl : P left := hl.closed closed (closed.successors _ _ member there₀ _ (.head _))
  have inr : P right := hr.closed closed (closed.successors _ _ member there₀ _ (.tail _ (.head _)))
  have idle := Grammar.not_busy there nofun
  rw [Grammar.trim] at run
  obtain ⟨l, F₁, g₁, run₁, run⟩ := Culling.bind_ok.mp run
  have visitl := ih left F g l F₁ g₁ inl h (h.open_of_part formed solidl hl) run₁
  -- a sequence that matches something has no dead part
  cases l with
  | none =>
    cases Grammar.finishCull_result run
    exact absurd productive remains
  | some l =>
    obtain ⟨r, F₂, g₂, run₂, run⟩ := Culling.bind_ok.mp run
    have visitr := ih right F₁ g₁ r F₂ g₂ inr visitl.compacting
      (visitl.compacting.open_of_part formed solidr hr) run₂
    cases r with
    | none =>
      cases Grammar.finishCull_result run
      exact absurd productive remains
    | some r =>
      have run := Grammar.store_bind.symm.trans run
      have final : g₀.Final id := fun node there => by
        cases Option.some.inj (there₀.symm.trans there)
        trivial
      refine compacts_stored productive shrinking' judged' remains visitr.compacting
        (visitl.grows.trans visitr.grows) idle rfl final (.inr ?_) run
      intro y member
      rcases List.mem_pair.mp member with rfl | rfl
      · exact visitr.grows.tidy _ (visitl.lands _ rfl)
      · exact visitr.lands _ rfl

theorem compacts_rep {body : NodeId} (there : g.arena.get? id = some (.rep body))
    (run : Grammar.trim (Grammar.cullNode live fuel) id (.rep body) F g = .ok ((result, F'), g')) :
    Visited g₀ id F g F' g' result := by
  obtain ⟨_, there₀, shrunk⟩ := h.shrinking.get?_back there
  obtain ⟨b₀, next, rfl, hb, rfl⟩ := Node.shrunk_rep shrunk
  have idle := Grammar.not_busy there nofun
  have final : g₀.Final id := fun node there => by
    cases Option.some.inj (there₀.symm.trans there)
    trivial
  rw [Grammar.trim] at run
  cases next with
  | none =>
    rw [if_neg (by simp)] at run
    exact compacts_leaf h productive shrinking' judged' remains there idle (.inl rfl) final run
  | some body =>
    by_cases dead : body = nothing
    · subst dead
      rw [if_neg (by simp)] at run
      exact compacts_leaf h productive shrinking' judged' remains there idle (.inl rfl) final run
    · rw [if_pos (by simpa using dead)] at run
      have inb : P body :=
        Grammar.Shrinks.closed hb closed (closed.successors _ _ member there₀ _ (.head _))
      obtain ⟨b, F₁, g₁, run₁, run⟩ := Culling.bind_ok.mp run
      have visit :=
        ih body F g b F₁ g₁ inb h (h.open_of_part formed (formed.node _ _ there₀).2 hb) run₁
      have run := Grammar.store_bind.symm.trans run
      refine compacts_stored productive shrinking' judged' remains visit.compacting visit.grows idle
        rfl final ?_ run
      cases b with
      | none => exact .inl rfl
      | some b =>
        refine .inr fun y member => ?_
        cases List.mem_singleton.mp member
        exact visit.lands b rfl

theorem compacts_rule {r : Rule} {body : NodeId} (new : F[id]? = none)
    (there : g.arena.get? id = some (.rule r body))
    (run : Grammar.trim (Grammar.cullNode live fuel) id (.rule r body) F g =
      .ok ((result, F'), g')) :
    Visited g₀ id F g F' g' result := by
  obtain ⟨_, there₀, shrunk⟩ := h.shrinking.get?_back there
  obtain ⟨r₀, b₀, rfl, hb⟩ := Node.shrunk_rule shrunk
  have final : g₀.Final id := fun node there => by
    cases Option.some.inj (there₀.symm.trans there)
    trivial
  rw [Grammar.trim] at run
  by_cases busy : r.busy = true
  · rw [if_pos busy] at run
    obtain ⟨rfl, rfl, rfl⟩ := Culling.pure_ok.mp run
    refine ⟨h, .refl F g, remains, iff_of_true rfl productive, fun y same => ?_, fun y same => ?_⟩
    · exact Option.some.inj same ▸ final
    · exact Option.some.inj same ▸ .inr ⟨r, body, there, busy⟩
  rw [if_neg busy] at run
  have idle : ¬g.Busy id := by
    rintro ⟨r', body', there', busy'⟩
    cases Option.some.inj (there.symm.trans there')
    exact busy busy'
  have inb : P body := hb.closed closed (closed.successors _ _ member there₀ _ (.head _))
  obtain ⟨h₁, below⟩ := h.opened new productive there (Bool.eq_false_iff.mpr busy)
  have opens : (g.opened id).Open body := fun t base there' => by
    obtain ⟨owner, uncut⟩ := below t base there'
    exact ⟨uncut, (Grammar.busy_opened there).mpr (.inl owner.symm)⟩
  have run := Grammar.revise_bind.symm.trans run
  obtain ⟨b, F₁, g₁, run₁, run⟩ := Culling.bind_ok.mp run
  have visit := ih body F (g.opened id) b F₁ g₁ inb h₁ opens run₁
  have run := Grammar.revise_bind.symm.trans run
  cases b with
  | none =>
    cases Grammar.finishCull_result run
    exact absurd productive remains
  | some b =>
    have run := Grammar.revise_bind.symm.trans run
    obtain rfl := Grammar.finishCull_result run
    obtain ⟨r₁, b₁, there₁⟩ : ∃ r₁ b₁, g₁.arena.get? id = some (.rule r₁ b₁) := by
      obtain ⟨_, there₁, shrunk₁⟩ := visit.compacting.shrinking.node id _ there₀
      cases shrunk₁ with
      | same | rule => exact ⟨_, _, there₁⟩
    have inside : P b := Grammar.Shrinks.closed visit.remains closed inb
    have owned := visit.owned_released formed there₁
      (visit.compacting.shrinking.size ▸ closed.range b inside) h₁ below
    have frame (x : NodeId) (other : x ≠ id) :
        (g₁.released id b).arena.get? x = g₁.arena.get? x := by
      rw [Grammar.get?_released there₁, if_neg (Ne.symm other)]
    have finished := visit.compacting.finish frame (Grammar.not_busy_released there₁) owned
      (fun y same => Option.some.inj same ▸ final)
      (fun y same other => absurd (Option.some.inj same).symm other)
      (fun node _ there' => ?_) shrinking' judged' run
    · refine ⟨finished.compacting,
        ⟨fun x tidy => finished.tidy x (visit.grows.tidy x (tidy.imp_right fun open_ => ?_)),
        fun x => ?_⟩, remains, iff_of_true rfl productive, finished.final, finished.lands⟩
      · exact (Grammar.busy_opened there).mpr (.inr open_)
      · rw [finished.busy, visit.grows.busy, Grammar.busy_opened there]
        constructor
        · rintro ⟨other, same | open_⟩
          · exact absurd same other
          · exact open_
        · exact fun open_ => ⟨fun same => idle (same ▸ open_), .inr open_⟩
    · rw [Grammar.get?_released there₁, if_pos rfl] at there'
      cases there'
      refine .inr fun y member => .inr ?_
      cases List.mem_singleton.mp member
      exact visit.lands b rfl

theorem compacts_thunk {t : Thunk L} {base : NodeId} (new : F[id]? = none) (opens : g.Open id)
    (there : g.arena.get? id = some (.thunk t base))
    (run : Grammar.trim (Grammar.cullNode live fuel) id (.thunk t base) F g =
      .ok ((result, F'), g')) :
    Visited g₀ id F g F' g' result := by
  obtain ⟨uncut, owner⟩ := opens t base there
  obtain ⟨s, state⟩ := t
  obtain ⟨node₀, there₀, shrunk⟩ := h.shrinking.get?_back there
  have idle := Grammar.not_busy there nofun
  rw [Grammar.trim] at run
  cases state with
  | culled => cases uncut
  | pending | running =>
    refine compacts_leaf h productive shrinking' judged' remains there idle (.inr rfl)
      (fun node there' => ?_) run
    cases Option.some.inj (there₀.symm.trans there')
    cases shrunk
    exact (rfl : (none : Option NodeId) = none)
  | forced target =>
    cases Node.shrunk_forced shrunk
    have inside : P target := closed.successors _ _ member there₀ _ (.head _)
    have solid : g₀.Solid target := (formed.node _ _ there₀).2 _ rfl
    -- only the rule that is open leads to the thunk, so no one comes to it again
    let opened := g.revised id (.setState (.culled (some target)))
    have busy {g : Grammar L} {left : Option NodeId} (x : NodeId) :
        (g.revised id (.setState (.culled left))).Busy x ↔ g.Busy x := Grammar.busy_setState
    have run := Grammar.revise_bind.symm.trans run
    obtain ⟨b, F₁, g₁, run₁, run⟩ := Culling.bind_ok.mp run
    have unculled : opened.Unculled := h.judged.unculled.setState fun same => by cases same
    have h₁ : Compacting g₀ F opened :=
      h.revised new (h.shrinking.culled there₀ rfl (Grammar.remains_self target))
      ⟨h.judged.results, unculled⟩ (h.owned.setCulled owner) productive (busy id).mpr
    have visit :=
      ih target F opened b F₁ g₁ inside h₁ (h₁.open_of_part formed solid (.refl target)) run₁
    have run := Grammar.revise_bind.symm.trans run
    obtain rfl := Grammar.finishCull_result run
    have same (x : NodeId) : g₁.Busy x ↔ g.Busy x := (visit.grows.busy x).trans (busy x)
    have others (x : NodeId) (other : x ≠ id) :
        (g₁.revised id (.setState (.culled b))).arena.get? x = g₁.arena.get? x := by
      rw [Grammar.get?_revised, if_neg (Ne.symm other)]
    have apart (y : NodeId) (answer : b = some y) : y ≠ id := by
      rintro rfl
      cases (visit.final y answer _ there₀ : (some target : Option NodeId) = none)
    have finished :=
      visit.compacting.finish others (fun open_ => idle ((same id).mp ((busy id).mp open_)))
      (visit.compacting.owned.setCulled ((same _).mpr owner)) visit.final
        (fun y answer _ => visit.lands y answer)
      (fun _ answer => absurd rfl (apart id answer)) shrinking' judged' run
    refine finished.visited ⟨fun x tidy => ?_, same⟩ idle remains productive
    exact visit.grows.tidy x (tidy.imp_right (busy x).mpr)

end Trim

theorem cullNode_compacts [DecidableEq L] (formed : g₀.Formed) (closed : g₀.Closed false P)
    (alive : ∀ x, P x → (live.contains x ↔ g₀.Productive x)) (fuel : Nat) :
    Compacts g₀ P live fuel := by
  have shrinks := cullNode_shrinks closed fun x hx productive => (alive x hx).mpr productive
  have judges := checkedNode_judged .outOfFuel closed alive
  induction fuel with
  | zero => exact fun _ _ _ _ _ _ _ _ _ run => by cases run
  | succ fuel ih =>
    intro id F g r F' g' member h opens run
    obtain ⟨shrinking', remains⟩ := shrinks (fuel + 1) id F g r F' g' member h.shrinking run
    obtain ⟨judged', right, -⟩ := judges (fuel + 1) id F g r F' g' member h.shrinking h.judged run
    cases done : F[id]? with
    | some result =>
      cases (Grammar.cullNode_finished done).symm.trans run
      refine ⟨h, .refl F g, remains, right, fun y same => ?_, fun y same => ?_⟩
      · exact h.final id y (done.trans (congrArg some same))
      · exact h.lands id y (done.trans (congrArg some same))
    | none =>
      obtain ⟨node, there⟩ := Grammar.exists_get? (h.shrinking.size ▸ closed.range id member)
      rw [Grammar.cullNode_new done there] at run
      by_cases contained : live.contains id
      · have productive := (alive id member).mp contained
        rw [if_pos contained] at run
        have leaf (plain : ∀ r body, node ≠ .rule r body) (leaf : node.successors false = [])
            (final : g₀.Final id) (run : Grammar.finishCull id (some id) F g = .ok ((r, F'), g')) :
            Visited g₀ id F g F' g' r :=
          compacts_leaf h productive shrinking' judged' remains there (Grammar.not_busy there plain)
            (.inr leaf) final run
        cases node with
        | empty =>
          cases Grammar.finishCull_result run
          exact absurd productive remains
        | token | matched | undefined =>
          refine leaf nofun rfl (fun node there₀ => ?_) run
          obtain ⟨_, there₁, shrunk⟩ := h.shrinking.get?_back there
          cases Option.some.inj (there₀.symm.trans there₁)
          cases shrunk
          trivial
        | alt =>
          exact compacts_alt ih formed closed h member productive shrinking' judged'
            remains there run
        | cat =>
          exact compacts_cat ih formed closed h member productive shrinking' judged'
            remains there run
        | rep =>
          exact compacts_rep ih formed closed h member productive shrinking' judged'
            remains there run
        | rule =>
          exact compacts_rule ih formed closed h member productive shrinking' judged' remains
            done there run
        | thunk =>
          exact compacts_thunk ih formed closed h member productive shrinking' judged' remains done
            opens there run
      · rw [if_neg contained] at run
        have dead : ¬g₀.Productive id := fun productive =>
          contained ((alive id member).mpr productive)
        have idle : ¬g.Busy id := fun busy => dead (h.lively id busy)
        cases Grammar.finishCull_result run
        have finished := h.finish (fun _ _ => rfl) idle h.owned (fun _ same => by cases same)
          (fun _ same => by cases same) (fun _ same => by cases same) shrinking' judged' run
        refine ⟨finished.compacting, ⟨finished.tidy, fun x => ?_⟩, remains, right, finished.final,
          finished.lands⟩
        rw [finished.busy]
        refine and_iff_right_of_imp fun busy => ?_
        rintro rfl
        exact idle busy

end Compacting

/-! ## When culling is over -/

/-- What is left of a node, and all that it leads to, is compact: it matches something, and no thunk
in it is resolved. Where what a repetition repeats was dead, the repetition leads to the node that
matches nothing, which is none of it. -/
structure Grammar.Compact {L : Type} (g : Grammar L) (V : NodeId → Prop) : Prop where
  productive : ∀ x, V x → g.Productive x
  waiting : ∀ x t base, V x → g.arena.get? x = some (.thunk t base) → t.state.isWaiting
  leads : ∀ x node, V x → g.arena.get? x = some node →
    node = .rep nothing ∨ ∀ y ∈ node.successors false, V y

section Over

variable {L : Type} [DecidableEq L] {links : Links} {W : World} {g g' : Grammar L} {id x y : NodeId}
  {result : Option NodeId}

omit [DecidableEq L] in
/-- What is left of what matches something matches something when it was shrunk. -/
theorem Grammar.Productive.shrunk {F : Std.TreeMap NodeId (Option NodeId)} (h : g.Productive x)
    (culled : Shrinking g F g') (left : g.Shrinks x y) : g'.Productive y := by
  let P (x : NodeId) : Prop := g.Productive x ∧ ∀ y, g.Shrinks x y → g'.Productive y
  refine (h.least (P := P) fun x node there productive shows =>
    ⟨productive, fun y left => ?_⟩).2 y left
  cases left with
  | refl =>
    obtain ⟨node', there', shrunk⟩ := culled.node x node there
    refine (Grammar.productive_iff there').mpr ?_
    cases shrunk with
    | same => exact shows.mono fun z hz => hz.2 z (.refl z)
    | alt hl hr => exact shows.imp (fun hz => hz.2 _ hl) fun hz => hz.2 _ hr
    | cat hl hr => exact ⟨shows.1.2 _ hl, shows.2.2 _ hr⟩
    | rep => trivial
    | rule hb => exact shows.2 _ hb
    | @thunk t base target result resolved remains =>
      rcases shows with waiting | ⟨target', resolved', alive, further⟩
      · exact absurd waiting (Grammar.not_waiting_of_resolved resolved)
      · cases resolved.symm.trans resolved'
        cases result with
        | none => exact absurd alive remains
        | some next => exact .inr ⟨next, rfl, further next remains⟩
  | alt_left there' dead left =>
    cases Option.some.inj (there.symm.trans there')
    exact (shows.resolve_right fun hz => dead hz.1).2 y left
  | alt_right there' dead left =>
    cases Option.some.inj (there.symm.trans there')
    exact (shows.resolve_left fun hz => dead hz.1).2 y left
  | resolved there' resolved left =>
    cases Option.some.inj (there.symm.trans there')
    rcases shows with waiting | ⟨target', resolved', -, further⟩
    · exact absurd waiting (Grammar.not_waiting_of_resolved resolved)
    · cases resolved.symm.trans resolved'
      exact further y left

omit [DecidableEq L] in
/-- In every closed set that a shrunk node was in is all that it leads to, unless the node repeats
nothing. -/
theorem Shrinking.parts {F : Std.TreeMap NodeId (Option NodeId)} {P : NodeId → Prop} {node : Node L}
    (culled : Shrinking g F g') (closed : g.Closed false P) (hx : P x)
    (there : g'.arena.get? x = some node) :
    node = .rep nothing ∨ ∀ y ∈ node.successors false, P y := by
  obtain ⟨node₀, there₀, shrunk⟩ := culled.get?_back there
  have part {y z : NodeId} (member : y ∈ node₀.successors false) (left : g.Shrinks y z) : P z :=
    left.closed closed (closed.successors x _ hx there₀ y member)
  cases shrunk with
  | same => exact .inr (closed.successors x _ hx there₀)
  | alt hl hr | cat hl hr =>
    refine .inr fun y member => ?_
    rcases List.mem_pair.mp member with rfl | rfl
    · exact part (.head _) hl
    · exact part (.tail _ (.head _)) hr
  | @rep b result remains =>
    cases result with
    | none => exact .inl rfl
    | some next => exact .inr fun y member => List.mem_singleton.mp member ▸ part (.head _) remains
  | rule hb => exact .inr fun y member => List.mem_singleton.mp member ▸ part (.head _) hb
  | @thunk t base target result resolved remains =>
    cases result with
    | none => exact .inr nofun
    | some next =>
      exact .inr fun y member =>
        List.mem_singleton.mp member ▸ part (Grammar.mem_successors_of_resolved resolved) remains

omit [DecidableEq L] in
/-- Of what is compact, the part in a set that was closed before the graph was shrunk is compact. -/
theorem Grammar.Compact.within {F : Std.TreeMap NodeId (Option NodeId)} {V P : NodeId → Prop}
    (h : g'.Compact V) (culled : Shrinking g F g') (closed : g.Closed false P) :
    g'.Compact fun x => V x ∧ P x where
  productive x hx := h.productive x hx.1
  waiting x t base hx there := h.waiting x t base hx.1 there
  leads x node hx there := by
    rcases h.leads x node hx.1 there with nothing_left | leads
    · exact .inl nothing_left
    · refine (culled.parts closed hx.2 there).imp_right fun parts y member => ?_
      exact ⟨leads y member, parts y member⟩

omit [DecidableEq L] in
theorem Grammar.Quiet.not_busy (quiet : g.Quiet) (x : NodeId) : ¬g.Busy x := by
  rintro ⟨r, body, there, busy⟩
  exact (quiet x _ there).2.2 busy

omit [DecidableEq L] in
/-- Before a culling no node is finished and no rule open. -/
theorem Compacting.start (quiet : g.Quiet) (unculled : g.Unculled) (owned : g.Owned) :
    Compacting g {} g := by
  have none {x : NodeId} {r : Option NodeId} :
      ({} : Std.TreeMap NodeId (Option NodeId))[x]? ≠ some r := by simp
  exact ⟨.start g, ⟨fun _ _ done => absurd done none, unculled⟩,
    owned, fun x busy => absurd busy (quiet.not_busy x),
    fun _ _ done => absurd done none, fun _ _ done => absurd done none, fun _ _ done =>
      absurd done none⟩

/-- When a culling is over, what is left of the node is compact, and it is a part of what the node
reached. -/
theorem cull_compacts (between : g.Between links) (owned : g.Owned) (solid : g.Solid id)
    (run : Grammar.cull id g = .ok (result, g')) :
    g'.Owned ∧
      ∃ V, g'.Compact V ∧ (∀ x, V x → g.Reaches false id x) ∧ ∀ y, result = some y → V y := by
  obtain ⟨⟨W, good⟩, unculled⟩ := between
  obtain ⟨order, ordered, mem, closed⟩ :=
    Grammar.settledOrder_ok (good.formed.ranged false) solid.lt_size
  obtain ⟨F', culled⟩ := (Grammar.cull_iff ordered).mp run
  have alive (x : NodeId) (hx : x ∈ order) : (g.productive order).contains x ↔ g.Productive x :=
    ⟨Grammar.productive_of_live, fun productive => productive.live closed hx⟩
  have visit := cullNode_compacts good.formed closed alive _ id {} g result F' g' mem
    (.start good.quiet unculled owned) solid.open culled
  have idle (x : NodeId) : ¬g'.Busy x := fun busy =>
    good.quiet.not_busy x ((visit.grows.busy x).mp busy)
  -- no rule is open any more, so what may be led to was finished and stayed
  have stays {x : NodeId} (tidy : Tidy F' g' x) : F'[x]? = some (some x) :=
    tidy.resolve_right (idle x)
  have reached : g.Closed false (g.Reaches false id) :=
    Grammar.closed_reaches (good.formed.ranged false) solid.lt_size
  suffices compact : g'.Compact fun x => F'[x]? = some (some x) by
    refine ⟨visit.compacting.owned, _,
      compact.within visit.compacting.shrinking reached, fun _ hx => hx.2, ?_⟩
    rintro y rfl
    exact ⟨stays (visit.lands y rfl), Grammar.Shrinks.closed visit.remains reached (.refl id)⟩
  refine ⟨fun x done => ?_, fun x t base done there => ?_, fun x node done there => ?_⟩
  · exact ((visit.compacting.judged.results x _ done).mp rfl).shrunk
      visit.compacting.shrinking (.refl x)
  · obtain ⟨_, there₀, shrunk⟩ := visit.compacting.shrinking.get?_back there
    have final := visit.compacting.final x x done _ there₀
    cases shrunk with
    | same => exact waiting_of_unresolved final (visit.compacting.judged.unculled x _ there)
    | thunk resolved => cases resolved.symm.trans final
  · exact (visit.compacting.parts x node done there).imp_right fun leads y member =>
      stays (leads y member)

end Over

end DerivativeParsing
