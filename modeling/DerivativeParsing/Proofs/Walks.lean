import DerivativeParsing.Grammar.Matches
import DerivativeParsing.Grammar.Traversal
import DerivativeParsing.Proofs.Actions

/-!
# What a walk meets

1. `walk_ok`: a walk through a graph whose edges lead to slots that are there ends, with a set of
   nodes that contains what it was to enter and what any of its nodes depends on.
2. `passed_of_walk`, `refused_of_walk`: a walk that ends has passed what it met, and one that fails
   has come to what it must not.
3. `productive_mem` and `productive_closed`: the nodes found to match something are the least set
   that is closed under `shown`.
-/

namespace DerivativeParsing

namespace Grammar

variable {L σ : Type} [NodeSet σ] {g : Grammar L} {throughPending : Bool} {root : NodeId}

/-! ## Walks -/

def Ranged (g : Grammar L) (throughPending : Bool) : Prop :=
  ∀ (id : Nat) node, g.arena.get? id = some node → ∀ x ∈ node.successors throughPending, g.size > x

/-- What holds in the course of a walk. -/
structure Walked (g : Grammar L) (throughPending : Bool) (work : List Visit) (t : Traversal σ) :
    Prop where
  enter : ∀ x : Nat, .enter x ∈ work → x < g.size
  seen : ∀ x : Nat, NodeSet.contains t.seen x → x < g.size ∧ (x ∈ t.finished ∨ .leave x ∈ work)
  finished : ∀ x : Nat, x ∈ t.finished → NodeSet.contains t.seen x
  leave : ∀ x : Nat, .leave x ∈ work → NodeSet.contains t.seen x
  closed : ∀ (x : Nat) node, NodeSet.contains t.seen x → g.arena.get? x = some node →
    ∀ y ∈ node.successors throughPending, NodeSet.contains t.seen y ∨ .enter y ∈ work

theorem enter_mem_stack {x : NodeId} {nodes : List NodeId} {work : List Visit} :
    .enter x ∈ stack nodes work ↔ x ∈ nodes ∨ .enter x ∈ work := by
  unfold stack
  induction nodes generalizing work with
  | nil => simp
  | cons y nodes ih =>
    rw [List.foldl_cons, ih, List.mem_cons, List.mem_cons, Visit.enter.injEq]
    exact or_left_comm.trans or_assoc.symm

theorem leave_mem_stack {x : NodeId} {nodes : List NodeId} {work : List Visit} :
    .leave x ∈ stack nodes work ↔ .leave x ∈ work := by
  unfold stack
  induction nodes generalizing work with
  | nil => rfl
  | cons y nodes ih =>
    rw [List.foldl_cons, ih, List.mem_cons]
    exact ⟨fun h => h.resolve_left nofun, .inr⟩

namespace Walked

variable {work : List Visit} {t : Traversal σ} {id : NodeId}

theorem finish (h : Walked g throughPending (.leave id :: work) t) :
    Walked g throughPending work { t with finished := id :: t.finished } where
  enter x hx := h.enter x (.tail _ hx)
  seen x hx := by
    obtain ⟨lt, done | todo⟩ := h.seen x hx
    · exact ⟨lt, .inl (.tail _ done)⟩
    · rcases List.mem_cons.mp todo with same | todo
      · cases same
        exact ⟨lt, .inl (.head _)⟩
      · exact ⟨lt, .inr todo⟩
  finished x hx := by
    rcases List.mem_cons.mp hx with rfl | hx
    · exact h.leave x (.head _)
    · exact h.finished x hx
  leave x hx := h.leave x (.tail _ hx)
  closed x node hx there y hy := by
    rcases h.closed x node hx there y hy with done | todo
    · exact .inl done
    · exact .inr ((List.mem_cons.mp todo).resolve_left nofun)

theorem pass (h : Walked g throughPending (.enter id :: work) t)
    (old : NodeSet.contains t.seen id) : Walked g throughPending work t where
  enter x hx := h.enter x (.tail _ hx)
  seen x hx := by
    obtain ⟨lt, done | todo⟩ := h.seen x hx
    · exact ⟨lt, .inl done⟩
    · exact ⟨lt, .inr ((List.mem_cons.mp todo).resolve_left nofun)⟩
  finished := h.finished
  leave x hx := h.leave x (.tail _ hx)
  closed x node hx there y hy := by
    rcases h.closed x node hx there y hy with done | todo
    · exact .inl done
    · rcases List.mem_cons.mp todo with same | todo
      · cases same
        exact .inl old
      · exact .inr todo

theorem meet {node : Node L} (h : Walked g throughPending (.enter id :: work) t)
    (ranged : g.Ranged throughPending) (there : g.arena.get? id = some node) :
    Walked g throughPending (stack (node.successors throughPending) (.leave id :: work))
      { t with seen := NodeSet.insert t.seen id } := by
  have seen {x : Nat} : NodeSet.contains (NodeSet.insert t.seen id) x ↔
      id = x ∨ NodeSet.contains t.seen x := NodeSet.contains_insert_iff
  refine ⟨fun x hx => ?_, fun x hx => ?_, fun x hx =>
    seen.mpr (.inr (h.finished x hx)), fun x hx => ?_, fun x node' hx there' y hy => ?_⟩
  · rcases enter_mem_stack.mp hx with hx | hx
    · exact ranged id node there x hx
    · exact h.enter x (.tail _ ((List.mem_cons.mp hx).resolve_left nofun))
  · rcases seen.mp hx with rfl | hx
    · exact ⟨h.enter id (.head _), .inr (leave_mem_stack.mpr (.head _))⟩
    · obtain ⟨lt, done | todo⟩ := h.seen x hx
      · exact ⟨lt, .inl done⟩
      · exact ⟨lt,
          .inr (leave_mem_stack.mpr (.tail _ ((List.mem_cons.mp todo).resolve_left nofun)))⟩
  · rcases List.mem_cons.mp (leave_mem_stack.mp hx) with same | hx
    · cases same
      exact seen.mpr (.inl rfl)
    · exact seen.mpr (.inr (h.leave x (.tail _ hx)))
  · rcases seen.mp hx with rfl | hx
    · cases Option.some.inj (there.symm.trans there')
      exact .inr (enter_mem_stack.mpr (.inl hy))
    · rcases h.closed x node' hx there' y hy with done | todo
      · exact .inl (seen.mpr (.inr done))
      · rcases List.mem_cons.mp todo with same | todo
        · cases same
          exact .inl (seen.mpr (.inl rfl))
        · exact .inr (enter_mem_stack.mpr (.inr (.tail _ todo)))

end Walked

/-- A walk that meets a node for the first time goes on with its successors, unless it refuses the
node. -/
theorem walk_enter_of_new {refuse : Node L → Option Error} {work : List Visit} {t : Traversal σ}
    {id : NodeId} {node : Node L} (new : ¬NodeSet.contains t.seen id)
    (there : g.arena.get? id = some node) (free : refuse node = none) :
    g.walk throughPending refuse (.enter id :: work) t =
      g.walk throughPending refuse (stack (node.successors throughPending) (.leave id :: work))
        { t with seen := NodeSet.insert t.seen id } := by
  rw [walk, dif_neg new]
  split
  · rename_i missing
    cases missing.symm.trans there
  · rename_i node' there'
    cases Option.some.inj (there.symm.trans there')
    simp only [free]

theorem met_of_walk {refuse : Node L → Option Error} {work : List Visit} {t t' : Traversal σ}
    (run : g.walk throughPending refuse work t = .ok t') :
    (∀ x : Nat, NodeSet.contains t.seen x → NodeSet.contains t'.seen x) ∧
      ∀ x : Nat, .enter x ∈ work → NodeSet.contains t'.seen x := by
  induction work, t using @walk.induct L σ _ g throughPending refuse with
  | case1 t =>
    rw [walk] at run
    cases run
    exact ⟨fun _ hx => hx, nofun⟩
  | case2 id work t ih =>
    rw [walk] at run
    obtain ⟨seen, enter⟩ := ih run
    exact ⟨seen, fun x hx => enter x ((List.mem_cons.mp hx).resolve_left nofun)⟩
  | case3 id work t old ih =>
    rw [walk, dif_pos old] at run
    obtain ⟨seen, enter⟩ := ih run
    refine ⟨seen, fun x hx => ?_⟩
    rcases List.mem_cons.mp hx with same | hx
    · cases same
      exact seen id old
    · exact enter x hx
  | case4 id work t new missing =>
    rw [walk, dif_neg new] at run
    split at run
    · cases run
    · rename_i there
      cases missing.symm.trans there
  | case5 id work t new node there e refused =>
    rw [walk, dif_neg new] at run
    split at run
    · cases run
    · rename_i node' there'
      cases Option.some.inj (there.symm.trans there')
      simp only [refused] at run
      cases run
  | case6 id work t new node there free ih =>
    rw [walk_enter_of_new new there free] at run
    obtain ⟨seen, enter⟩ := ih run
    refine ⟨fun x hx => seen x (NodeSet.contains_insert_iff.mpr (.inr hx)), fun x hx => ?_⟩
    rcases List.mem_cons.mp hx with same | hx
    · cases same
      exact seen id (NodeSet.contains_insert_iff.mpr (.inl rfl))
    · exact enter x (enter_mem_stack.mpr (.inr (.tail _ hx)))

def leaving (work : List Visit) : List NodeId :=
  work.filterMap fun
    | .enter _ => none
    | .leave id => some id

theorem leaving_stack (nodes : List NodeId) (work : List Visit) :
    leaving (stack nodes work) = leaving work := by
  unfold stack
  induction nodes generalizing work with
  | nil => rfl
  | cons x nodes ih =>
    rw [List.foldl_cons, ih]
    rfl

theorem nodup_of_walk {refuse : Node L → Option Error} {work : List Visit} {t t' : Traversal σ}
    (nodup : (t.finished ++ leaving work).Nodup)
    (seen : ∀ x ∈ t.finished ++ leaving work, NodeSet.contains t.seen x)
    (run : g.walk throughPending refuse work t = .ok t') : t'.finished.Nodup := by
  induction work, t using @walk.induct L σ _ g throughPending refuse with
  | case1 t =>
    rw [walk] at run
    cases run
    exact List.append_nil t'.finished ▸ nodup
  | case2 id work t ih =>
    rw [walk] at run
    have moved : (t.finished ++ id :: leaving work).Perm (id :: t.finished ++ leaving work) :=
      List.perm_middle
    exact ih (moved.nodup nodup) (fun x member => seen x (moved.mem_iff.mpr member)) run
  | case3 id work t old ih =>
    rw [walk, dif_pos old] at run
    exact ih nodup seen run
  | case4 id work t new missing =>
    rw [walk, dif_neg new] at run
    split at run
    · cases run
    · cases missing.symm.trans ‹_›
  | case5 id work t new node there e refused =>
    rw [walk, dif_neg new] at run
    split at run
    · cases run
    · rename_i node' there'
      cases Option.some.inj (there.symm.trans there')
      simp only [refused] at run
      cases run
  | case6 id work t new node there free ih =>
    rw [walk_enter_of_new new there free] at run
    have moved : (t.finished ++ id :: leaving work).Perm (id :: (t.finished ++ leaving work)) :=
      List.perm_middle
    refine ih ?_ (fun x member => NodeSet.contains_insert_iff.mpr ?_) run
    · rw [leaving_stack]
      exact moved.symm.nodup (List.nodup_cons.mpr ⟨fun member => new (seen id member), nodup⟩)
    · rw [leaving_stack] at member
      rcases List.mem_cons.mp (moved.mem_iff.mp member) with rfl | member
      · exact .inl rfl
      · exact .inr (seen x member)

section Passed

variable {refuse : Node L → Option Error} {x : NodeId}

/-- A node that a walk passed, with its successors met or still to meet. -/
def Passed (g : Grammar L) (throughPending : Bool) (refuse : Node L → Option Error)
    (work : List Visit) (seen : NodeId → Prop) (x : NodeId) : Prop :=
  ∃ node, g.arena.get? x = some node ∧ refuse node = none ∧
    ∀ y ∈ node.successors throughPending, seen y ∨ .enter y ∈ work

theorem Passed.imp {work work' : List Visit} {seen seen' : NodeId → Prop}
    (h : g.Passed throughPending refuse work seen x)
    (le : ∀ y, seen y ∨ .enter y ∈ work → seen' y ∨ .enter y ∈ work') :
    g.Passed throughPending refuse work' seen' x := by
  obtain ⟨node, there, free, met⟩ := h
  exact ⟨node, there, free, fun y hy => le y (met y hy)⟩

theorem passed_of_walk {work : List Visit} {t t' : Traversal σ}
    (h : ∀ x, NodeSet.contains t.seen x →
      g.Passed throughPending refuse work (NodeSet.contains t.seen ·) x)
    (run : g.walk throughPending refuse work t = .ok t') :
    ∀ x, NodeSet.contains t'.seen x →
    g.Passed throughPending refuse [] (NodeSet.contains t'.seen ·) x := by
  induction work, t using @walk.induct L σ _ g throughPending refuse with
  | case1 t =>
    rw [walk] at run
    cases run
    exact h
  | case2 id work t ih =>
    rw [walk] at run
    refine ih (fun x hx => (h x hx).imp fun y hy => ?_) run
    rcases hy with hy | hy
    · exact .inl hy
    · exact .inr ((List.mem_cons.mp hy).resolve_left nofun)
  | case3 id work t old ih =>
    rw [walk, dif_pos old] at run
    refine ih (fun x hx => (h x hx).imp fun y hy => ?_) run
    rcases hy with hy | hy
    · exact .inl hy
    · rcases List.mem_cons.mp hy with same | hy
      · cases same
        exact .inl old
      · exact .inr hy
  | case4 id work t new missing =>
    rw [walk, dif_neg new] at run
    split at run
    · cases run
    · cases missing.symm.trans ‹_›
  | case5 id work t new node there e refused =>
    rw [walk, dif_neg new] at run
    split at run
    · cases run
    · rename_i node' there'
      cases Option.some.inj (there.symm.trans there')
      simp only [refused] at run
      cases run
  | case6 id work t new node there free ih =>
    rw [walk_enter_of_new new there free] at run
    have seen {y : NodeId} : NodeSet.contains (NodeSet.insert t.seen id) y ↔
        id = y ∨ NodeSet.contains t.seen y :=
      NodeSet.contains_insert_iff
    refine ih (fun x hx => ?_) run
    rcases seen.mp hx with rfl | hx
    · exact ⟨node, there, free, fun y hy => .inr (enter_mem_stack.mpr (.inl hy))⟩
    · refine (h x hx).imp fun y hy => ?_
      rcases hy with hy | hy
      · exact .inl (seen.mpr (.inr hy))
      · rcases List.mem_cons.mp hy with same | hy
        · cases same
          exact .inl (seen.mpr (.inl rfl))
        · exact .inr (enter_mem_stack.mpr (.inr (.tail _ hy)))

/-- A walk meets only what it was to enter, and what follows from that. -/
theorem mem_of_walk {P : NodeId → Prop} {work : List Visit} {t t' : Traversal σ}
    (closed : ∀ x node, P x → g.arena.get? x = some node →
      ∀ y ∈ node.successors throughPending, P y) (met : ∀ x, NodeSet.contains t.seen x → P x)
    (todo : ∀ x, .enter x ∈ work → P x) (run : g.walk throughPending refuse work t = .ok t') :
    ∀ x, NodeSet.contains t'.seen x → P x := by
  induction work, t using @walk.induct L σ _ g throughPending refuse with
  | case1 t =>
    rw [walk] at run
    cases run
    exact met
  | case2 id work t ih =>
    rw [walk] at run
    exact ih met (fun x hx => todo x (.tail _ hx)) run
  | case3 id work t old ih =>
    rw [walk, dif_pos old] at run
    exact ih met (fun x hx => todo x (.tail _ hx)) run
  | case4 id work t new missing =>
    rw [walk, dif_neg new] at run
    split at run
    · cases run
    · cases missing.symm.trans ‹_›
  | case5 id work t new node there e refused =>
    rw [walk, dif_neg new] at run
    split at run
    · cases run
    · rename_i node' there'
      cases Option.some.inj (there.symm.trans there')
      simp only [refused] at run
      cases run
  | case6 id work t new node there free ih =>
    rw [walk_enter_of_new new there free] at run
    have here : P id := todo id (.head _)
    refine ih (fun x hx => ?_) (fun x hx => ?_) run
    · rcases NodeSet.contains_insert_iff.mp hx with rfl | hx
      · exact here
      · exact met x hx
    · rcases enter_mem_stack.mp hx with hx | hx
      · exact closed id node here there x hx
      · exact todo x (.tail _ ((List.mem_cons.mp hx).resolve_left nofun))

/-- A walk that fails has come to a slot that is not there, or to a node that it refuses. -/
theorem refused_of_walk {P : NodeId → Prop} {work : List Visit} {t : Traversal σ} {e : Error}
    (closed : ∀ x node, P x → g.arena.get? x = some node →
      ∀ y ∈ node.successors throughPending, P y) (todo : ∀ x, .enter x ∈ work → P x)
    (run : g.walk throughPending refuse work t = .error e) :
    ∃ x, P x ∧ (g.arena.get? x = none ∧ e = .outOfRange x ∨
      ∃ node, g.arena.get? x = some node ∧ refuse node = some e) := by
  induction work, t using @walk.induct L σ _ g throughPending refuse with
  | case1 t =>
    rw [walk] at run
    cases run
  | case2 id work t ih =>
    rw [walk] at run
    exact ih (fun x hx => todo x (.tail _ hx)) run
  | case3 id work t old ih =>
    rw [walk, dif_pos old] at run
    exact ih (fun x hx => todo x (.tail _ hx)) run
  | case4 id work t new missing =>
    rw [walk, dif_neg new] at run
    split at run
    · cases run
      exact ⟨id, todo id (.head _), .inl ⟨missing, rfl⟩⟩
    · cases missing.symm.trans ‹_›
  | case5 id work t new node there e' refused =>
    rw [walk, dif_neg new] at run
    split at run
    · cases there.symm.trans ‹_›
    · rename_i node' there'
      cases Option.some.inj (there.symm.trans there')
      simp only [refused] at run
      cases run
      exact ⟨id, todo id (.head _), .inr ⟨node, there, refused⟩⟩
  | case6 id work t new node there free ih =>
    rw [walk_enter_of_new new there free] at run
    refine ih (fun x hx => ?_) run
    rcases enter_mem_stack.mp hx with hx | hx
    · exact closed id node (todo id (.head _)) there x hx
    · exact todo x (.tail _ ((List.mem_cons.mp hx).resolve_left nofun))

end Passed

/-- A walk that refuses no node ends. -/
theorem walk_ok {refuse : Node L → Option Error} (ranged : g.Ranged throughPending)
    (free : ∀ (id : Nat) node, g.arena.get? id = some node → refuse node = none) {work : List Visit}
    {t : Traversal σ} (h : Walked g throughPending work t) :
    ∃ t', g.walk throughPending refuse work t = .ok t' ∧ Walked g throughPending [] t' := by
  induction work, t using @walk.induct L σ _ g throughPending refuse with
  | case1 t => exact ⟨t, by rw [walk], h⟩
  | case2 id work t ih =>
    obtain ⟨t', ok, h'⟩ := ih h.finish
    exact ⟨t', by rw [walk, ok], h'⟩
  | case3 id work t old ih =>
    obtain ⟨t', ok, h'⟩ := ih (h.pass old)
    exact ⟨t', by rw [walk, dif_pos old, ok], h'⟩
  | case4 id work t new missing =>
    obtain ⟨node, there⟩ := exists_get? (h.enter id (.head _))
    cases missing.symm.trans there
  | case5 id work t new node there e refused => cases refused.symm.trans (free id node there)
  | case6 id work t new node there _ ih =>
    obtain ⟨t', ok, h'⟩ := ih (h.meet ranged there)
    exact ⟨t', by rw [walk_enter_of_new new there (free id node there), ok], h'⟩

theorem walked_start {t : Traversal σ} (roots : List NodeId)
    (empty : ∀ x, NodeSet.contains t.seen x = false) (unfinished : t.finished = [])
    (range : ∀ x ∈ roots, g.size > x) : Walked g throughPending (stack roots []) t where
  enter x hx := range x ((enter_mem_stack.mp hx).resolve_right nofun)
  seen x hx := by
    rw [empty] at hx
    cases hx
  finished x hx := by
    rw [unfinished] at hx
    cases hx
  leave x hx := by cases leave_mem_stack.mp hx
  closed x _ hx := by
    rw [empty] at hx
    cases hx

/-- A list of nodes with all that they depend on, pending thunks apart. -/
structure Closed (g : Grammar L) (throughPending : Bool) (P : Nat → Prop) : Prop where
  range : ∀ x, P x → x < g.size
  successors : ∀ x node, P x → g.arena.get? x = some node →
    ∀ y ∈ node.successors throughPending, P y

section Reaches

variable {x y : NodeId} {P : NodeId → Prop}

theorem Closed.reaches (closed : g.Closed throughPending P) (hx : P x)
    (reaches : g.Reaches throughPending x y) : P y := by
  induction reaches with
  | refl => exact hx
  | tail _ there member ih => exact closed.successors _ _ ih there _ member

theorem Reaches.head {z : NodeId} {node : Node L} (there : g.arena.get? x = some node)
    (member : y ∈ node.successors throughPending) (reaches : g.Reaches throughPending y z) :
    g.Reaches throughPending x z := ((Reaches.refl x).tail there member).trans reaches

theorem reaches_iff {node : Node L} (there : g.arena.get? x = some node) :
    g.Reaches throughPending x y ↔
      y = x ∨ ∃ z ∈ node.successors throughPending, g.Reaches throughPending z y := by
  constructor
  · intro reaches
    induction reaches with
    | refl => exact .inl rfl
    | tail _ there' member ih =>
      rcases ih with rfl | ⟨z, first, reaches⟩
      · cases there.symm.trans there'
        exact .inr ⟨_, member, .refl _⟩
      · exact .inr ⟨z, first, reaches.tail there' member⟩
  · rintro (rfl | ⟨z, first, reaches⟩)
    · exact .refl y
    · exact reaches.head there first

theorem Reaches.lt_size (reaches : g.Reaches throughPending x y) (ranged : g.Ranged throughPending)
    (lt : x < g.size) : y < g.size := by
  cases reaches with
  | refl => exact lt
  | tail _ there member => exact ranged _ _ there _ member

theorem closed_reaches (ranged : g.Ranged throughPending) (lt : x < g.size) :
    g.Closed throughPending (g.Reaches throughPending x) where
  range _ reaches := reaches.lt_size ranged lt
  successors _ _ reaches there _ member := reaches.tail there member

/-- Only the node that matches nothing is reached from it. -/
theorem reaches_nothing (first : g.arena.get? nothing = some .empty) :
    g.Reaches throughPending nothing x ↔ x = nothing := by
  constructor
  · intro reaches
    induction reaches with
    | refl => rfl
    | tail _ there member ih =>
      subst ih
      cases Option.some.inj (there.symm.trans first)
      cases member
  · rintro rfl
    exact .refl _

end Reaches

theorem Walked.done {t : Traversal σ} (h : Walked g throughPending [] t) :
    Closed g throughPending fun x => NodeSet.contains t.seen x where
  range x hx := (h.seen x hx).1
  successors x node hx there y hy := (h.closed x node hx there y hy).resolve_right nofun

theorem Walked.mem_finished {t : Traversal σ} {x : Nat} (h : Walked g throughPending [] t) :
    x ∈ t.finished ↔ NodeSet.contains t.seen x :=
  ⟨h.finished x, fun hx => (h.seen x hx).2.resolve_right nofun⟩

/-- The nodes that a walk has finished, with all that they depend on. -/
theorem Walked.closed_finished {t : Traversal σ} (h : Walked g throughPending [] t) :
    Closed g throughPending (· ∈ t.finished) where
  range x hx := (h.seen x (h.mem_finished.mp hx)).1
  successors x node hx there y hy :=
    h.mem_finished.mpr (h.done.successors x node (h.mem_finished.mp hx) there y hy)

theorem settledOrder_ok (ranged : g.Ranged false) (lt : g.size > root) :
    ∃ order, g.settledOrder root = .ok order ∧ root ∈ order ∧ Closed g false (· ∈ order) := by
  have start : Walked g false [.enter root] { seen := (∅ : Std.TreeSet NodeId) } :=
    walked_start [root] (fun _ => by simp [NodeSet.contains]) rfl (by simpa using lt)
  obtain ⟨t, ok, h⟩ := walk_ok ranged (fun _ _ _ => rfl) start
  have closed := h.closed_finished
  have enter := (met_of_walk ok).2
  refine ⟨t.finished.reverse, by rw [settledOrder, ok]; rfl,
    List.mem_reverse.mpr (h.mem_finished.mpr (enter root (.head _))),
    fun x hx => closed.range x (List.mem_reverse.mp hx), fun x node hx there y hy =>
      List.mem_reverse.mpr ?_⟩
  exact closed.successors x node (List.mem_reverse.mp hx) there y hy

theorem lt_size_of_walk {refuse : Node L → Option Error} {t t' : Traversal σ} {id : NodeId}
    {work : List Visit} (new : ¬NodeSet.contains t.seen id)
    (run : g.walk throughPending refuse (.enter id :: work) t = .ok t') : id < g.size := by
  rw [walk, dif_neg new] at run
  split at run
  · cases run
  · exact lt_size_of_get? ‹_›

theorem lt_size_of_settledOrder {order : List NodeId} (run : g.settledOrder root = .ok order) :
    root < g.size := by
  unfold settledOrder at run
  cases walked :
    g.walk false (fun _ => none) [.enter root] { seen := (∅ : Std.TreeSet NodeId) } with
  | error e =>
    rw [walked] at run
    cases run
  | ok t => exact lt_size_of_walk (by simp [NodeSet.contains]) walked

theorem lt_size_of_validate {u : Unit} (run : g.validate root = .ok u) : root < g.size := by
  unfold validate at run
  cases walked : g.walk true refuseUndefined [.enter root] { seen := Marks.none g.size } with
  | error e =>
    rw [walked] at run
    cases run
  | ok t => exact lt_size_of_walk (Bool.eq_false_iff.mp (Marks.contains_none _ root)) walked

theorem seen_of_reach {roots : List NodeId} {t : Traversal Marks} (run : g.reach roots = .ok t)
    {x : NodeId} (member : x ∈ roots) : t.seen.contains x :=
  (met_of_walk run).2 x (enter_mem_stack.mpr (.inl member))

/-- What a walk through pending thunks starts from is there. -/
theorem lt_size_of_reach {roots : List NodeId} {t : Traversal Marks} (run : g.reach roots = .ok t)
    {x : NodeId} (member : x ∈ roots) : x < g.size := by
  have passed := passed_of_walk (fun y hy => by
    rw [show NodeSet.contains (Marks.none g.size) y = false from Marks.contains_none _ y] at hy
    cases hy) run
  obtain ⟨node, there, -⟩ := passed x (seen_of_reach run member)
  exact lt_size_of_get? there

/-- A walk through pending thunks too ends, having met the roots. -/
theorem reach_walked {roots : List NodeId} (ranged : g.Ranged true)
    (range : ∀ x ∈ roots, g.size > x) :
    ∃ t, g.reach roots = .ok t ∧ Walked g true [] t ∧ ∀ x ∈ roots, t.seen.contains x := by
  obtain ⟨t, ok, h⟩ :=
    walk_ok ranged (fun _ _ _ => rfl) (walked_start roots (t := { seen := Marks.none g.size })
    (fun x => Marks.contains_none _ x) rfl range)
  exact ⟨t, ok, h, fun x hx => seen_of_reach ok hx⟩

theorem reach_ok {roots : List NodeId} (ranged : g.Ranged true) (range : ∀ x ∈ roots, g.size > x) :
    ∃ t, g.reach roots = .ok t ∧ (∀ x ∈ roots, t.seen.contains x) ∧
      Closed g true fun x => t.seen.contains x := by
  obtain ⟨t, ok, h, all⟩ := reach_walked ranged range
  exact ⟨t, ok, all, h.done⟩

/-- Where every nonterminal has a body, none is found to be without. -/
theorem validate_ok (ranged : g.Ranged true) (lt : g.size > root)
    (defined : ∀ (id : Nat) name, g.arena.get? id ≠ some (.undefined name)) :
    g.validate root = .ok () := by
  have free (id : Nat) (node : Node L) (there : g.arena.get? id = some node) :
      refuseUndefined node = none := by
    cases node with
    | undefined name => exact absurd there (defined id name)
    | _ => rfl
  have start : Walked g true [.enter root] { seen := Marks.none g.size } :=
    walked_start [root] (fun x => Marks.contains_none _ x) rfl (by simpa using lt)
  obtain ⟨t, ok, -⟩ := walk_ok ranged free start
  rw [validate, ok]
  rfl

/-! ## Nodes that match something -/

def swept (g : Grammar L) (found : List NodeId × Std.TreeSet NodeId) (id : NodeId) :
    List NodeId × Std.TreeSet NodeId :=
  if g.shown found.2 id then (found.1, found.2.insert id) else (id :: found.1, found.2)

theorem sweep_eq (order : List NodeId) (live : Std.TreeSet NodeId) :
    g.sweep order live =
      ((order.foldl g.swept ([], live)).1.reverse, (order.foldl g.swept ([], live)).2) := rfl

theorem contains_insert_iff {live : Std.TreeSet NodeId} {id x : NodeId} :
    (live.insert id).contains x ↔ id = x ∨ live.contains x :=
  NodeSet.contains_insert_iff (s := live)

variable {P : Nat → Prop} {order : List NodeId} {live : Std.TreeSet NodeId}

/-- What a sweep adds is shown, given what was there before. -/
theorem swept_mem (step : ∀ live id, (∀ x, live.contains x → P x) → g.shown live id → P id)
    (found : List NodeId × Std.TreeSet NodeId) (h : ∀ x, found.2.contains x → P x) :
    ∀ x, (order.foldl g.swept found).2.contains x → P x := by
  induction order generalizing found with
  | nil => exact h
  | cons id order ih =>
    rw [List.foldl_cons]
    refine ih _ fun x hx => ?_
    unfold swept at hx
    split at hx
    · rename_i shown
      rcases contains_insert_iff.mp hx with rfl | hx
      · exact step found.2 id h shown
      · exact h x hx
    · exact h x hx

/-- Every node is left over or found, and what was found stays so. -/
theorem swept_all (order : List NodeId) (found : List NodeId × Std.TreeSet NodeId) :
    (∀ x, found.2.contains x → (order.foldl g.swept found).2.contains x) ∧
      (∀ x ∈ found.1, x ∈ (order.foldl g.swept found).1) ∧
      ∀ x ∈ order, x ∈ (order.foldl g.swept found).1 ∨
        (order.foldl g.swept found).2.contains x := by
  induction order generalizing found with
  | nil => exact ⟨fun _ h => h, fun _ h => h, nofun⟩
  | cons id order ih =>
    rw [List.foldl_cons]
    obtain ⟨kept, left, all⟩ := ih (g.swept found id)
    have once : (∀ x, found.2.contains x → (g.swept found id).2.contains x) ∧
        (∀ x ∈ found.1, x ∈ (g.swept found id).1) ∧
        (id ∈ (g.swept found id).1 ∨ (g.swept found id).2.contains id) := by
      unfold swept
      split
      · exact ⟨fun x hx => contains_insert_iff.mpr (.inr hx), fun _ h => h,
          .inr (contains_insert_iff.mpr (.inl rfl))⟩
      · exact ⟨fun _ h => h, fun x hx => .tail _ hx, .inl (.head _)⟩
    refine ⟨fun x hx => kept x (once.1 x hx), fun x hx => left x (once.2.1 x hx), fun x hx => ?_⟩
    rcases List.mem_cons.mp hx with rfl | hx
    · exact once.2.2.imp (left x) (kept x)
    · exact all x hx

theorem swept_none (order : List NodeId) (found : List NodeId × Std.TreeSet NodeId)
    (h : found.1.length + order.length ≤ (order.foldl g.swept found).1.length) :
    (order.foldl g.swept found).2 = found.2 ∧ ∀ x ∈ order, g.shown found.2 x = false := by
  have bound (order : List NodeId) (found : List NodeId × Std.TreeSet NodeId) :
      (order.foldl g.swept found).1.length ≤ found.1.length + order.length := by
    induction order generalizing found with
    | nil => exact Nat.le_refl _
    | cons id order ih =>
      rw [List.foldl_cons, List.length_cons]
      refine Nat.le_trans (ih _) ?_
      unfold swept
      split
      · show found.1.length + _ ≤ _
        omega
      · rw [List.length_cons]
        omega
  induction order generalizing found with
  | nil => exact ⟨rfl, nofun⟩
  | cons id order ih =>
    rw [List.foldl_cons, List.length_cons] at h
    have le := bound order (g.swept found id)
    rw [List.foldl_cons]
    by_cases shown : g.shown found.2 id
    · have same : (g.swept found id).1 = found.1 := by rw [swept, if_pos shown]
      rw [same] at le
      omega
    · have swept : g.swept found id = (id :: found.1, found.2) := if_neg shown
      rw [swept] at h ⊢
      obtain ⟨same, none⟩ := ih (id :: found.1, found.2) (by rw [List.length_cons]; omega)
      refine ⟨same, fun x hx => ?_⟩
      rcases List.mem_cons.mp hx with rfl | hx
      · exact Bool.eq_false_iff.mpr shown
      · exact none x hx

/-- What is found to match something does so by one of its parts. -/
theorem saturate_mem (step : ∀ live id, (∀ x, live.contains x → P x) → g.shown live id → P id)
    (h : ∀ x, live.contains x → P x) : ∀ x, (g.saturate order live).contains x → P x := by
  induction order, live using saturate.induct g with
  | case1 order live others live' sweep less ih =>
    rw [saturate, sweep]
    simp only [less, if_true]
    rw [sweep_eq] at sweep
    obtain ⟨-, rfl⟩ := Prod.mk.inj sweep
    exact ih (swept_mem step _ h)
  | case2 order live others live' sweep less =>
    rw [saturate, sweep]
    simp only [less, if_false]
    rw [sweep_eq] at sweep
    obtain ⟨-, rfl⟩ := Prod.mk.inj sweep
    exact swept_mem step _ h

theorem saturate_closed : (∀ x, live.contains x → (g.saturate order live).contains x) ∧
    ∀ x ∈ order, g.shown (g.saturate order live) x → (g.saturate order live).contains x := by
  induction order, live using saturate.induct g with
  | case1 order live others live' sweep less ih =>
    rw [saturate, sweep]
    simp only [less, if_true]
    rw [sweep_eq] at sweep
    obtain ⟨rfl, rfl⟩ := Prod.mk.inj sweep
    obtain ⟨kept, -, all⟩ := swept_all (g := g) order ([], live)
    refine ⟨fun x hx => ih.1 x (kept x hx), fun x hx shown => ?_⟩
    rcases all x hx with left | found
    · exact ih.2 x (List.mem_reverse.mpr left) shown
    · exact ih.1 x found
  | case2 order live others live' sweep less =>
    rw [saturate, sweep]
    simp only [less, if_false]
    rw [sweep_eq] at sweep
    obtain ⟨rfl, rfl⟩ := Prod.mk.inj sweep
    rw [List.length_reverse] at less
    obtain ⟨same, none⟩ := swept_none (g := g) order ([], live) (by
      rw [List.length_nil, Nat.zero_add]
      exact Nat.le_of_not_lt less)
    rw [same]
    exact ⟨fun _ h => h, fun x hx shown => by cases (none x hx).symm.trans shown⟩

theorem productive_mem (step : ∀ live id, (∀ x, live.contains x → P x) → g.shown live id → P id)
    {x : Nat} (h : (g.productive order).contains x) : P x :=
  saturate_mem step (fun x hx => by simp at hx) x h

theorem productive_closed {x : Nat} (mem : x ∈ order) (shown : g.shown (g.productive order) x) :
    (g.productive order).contains x :=
  saturate_closed.2 x mem shown

end Grammar

end DerivativeParsing
