import DerivativeParsing.Proofs.Deeds

/-!
# What culling finds dead

Before it culls, culling works out which nodes match something, from one another until nothing is
added. Then it goes through the graph and changes the edges that this rests on.

1. `Grammar.Unculled`: no thunk is kept as dead.
2. `Grammar.checkedCull`: culling which raises an alarm when what it answers for a node is not the
   verdict on it.
3. `Judged` is what holds in the course of culling, beside that nodes shrink. `checkedNode_judged`:
   it is kept, and no alarm is raised.
4. `cull_judges`: nothing is left by culling of what matches nothing, and only of that; nor by the
   way.
-/

namespace DerivativeParsing

open Grammar (nothing)

/-! ## Thunks that are kept as dead -/

/-- A node other than a thunk that was culled as dead. -/
def Node.Unculled {L : Type} : Node L → Prop
  | .thunk t _ => t.state ≠ .culled none
  | _ => True

/-- No thunk was culled as dead. -/
def Grammar.Unculled {L : Type} (g : Grammar L) : Prop :=
  ∀ (x : NodeId) node, g.arena.get? x = some node → node.Unculled

section Unculled

variable {L : Type} {g g' : Grammar L} {node : Node L} {id : NodeId}
  {place : NodeId → Option NodeId}

theorem Node.unculled_of_isThunk (plain : node.isThunk = false) : node.Unculled := by
  cases node with
  | thunk => cases plain
  | _ => trivial

namespace Grammar.Unculled

theorem of_eq (h : g.Unculled) (arena : g'.arena = g.arena) : g'.Unculled :=
  fun x node there => h x node (arena ▸ there)

theorem withNode (h : g.Unculled) (new : node.Unculled) : (g.withNode node).Unculled := by
  intro x node' there
  rw [get?_withNode] at there
  split at there
  · cases there
    exact new
  · exact h x node' there

theorem revised {f : Node L → Node L} (h : g.Unculled)
    (keeps : ∀ node, g.arena.get? id = some node → node.Unculled → (f node).Unculled) :
    (g.revised id f).Unculled := by
  intro x node there
  rw [get?_revised] at there
  split at there
  · rename_i same
    subst same
    obtain ⟨node', there', rfl⟩ := Option.map_eq_some_iff.mp there
    exact keeps node' there' (h _ node' there')
  · exact h x node there

theorem mapRule (h : g.Unculled) (f : Rule → Rule) : (g.revised id (.mapRule f)).Unculled :=
  h.revised fun node _ kept => by cases node <;> exact kept

theorem setState {state : ThunkState} (h : g.Unculled) (alive : state ≠ .culled none) :
    (g.revised id (.setState state)).Unculled :=
  h.revised fun node _ kept => by
    cases node with
    | thunk => exact alive
    | _ => exact kept

theorem withDerivedRule {r : Rule} {body : NodeId} {s : Symbol L} (h : g.Unculled) :
    (g.withDerivedRule id r body s).Unculled := by
  have h₁ : (g.withNode (.thunk { symbol := s } body)).Unculled := h.withNode nofun
  have h₂ : ((g.withNode (.thunk { symbol := s } body)).withNode
    (.rule { name := r.name } g.size)).Unculled :=
    h₁.withNode trivial
  exact h₂.mapRule _

theorem moved (h : g.Unculled) (moved : Grammar.Moved place g g') : g'.Unculled := by
  intro j node' there
  obtain ⟨i, node, -, was, rfl, -⟩ := moved.get?_back there
  have kept := h i node was
  cases node with
  | thunk t base =>
    obtain ⟨s, state⟩ := t
    cases state with
    | culled target =>
      cases target with
      | none => exact absurd rfl kept
      | some target => exact nofun
    | _ => exact nofun
  | _ => trivial

end Grammar.Unculled

/-- Evaluation keeps no thunk as dead. -/
theorem Evaluates.unculled [DecidableEq L] {W W' : World} {q : Question L} {a : Reply}
    (h : Evaluates W g q a W' g') (unculled : g.Unculled) : g'.Unculled := by
  induction h with
  | spent | rule_known | known | miss | nullable_plain | nullable_done | force_other
  | force_resolved =>
    exact unculled
  | undefined | nullable_cycle | force_running => exact unculled.of_eq rfl
  | rule_new => exact unculled.withDerivedRule
  | thunk _ _ _ ihf ihd => exact ihd (ihf unculled)
  | fresh _ _ _ _ ih => exact (ih (unculled.of_eq rfl)).of_eq rfl
  | hit => exact unculled.withNode trivial
  | alt _ _ _ ihl ihr => exact (ihr (ihl unculled)).withNode trivial
  | cat _ _ _ ihb ihl => exact (ihl (ihb unculled)).withNode trivial
  | cat_nullable _ _ _ _ _ ihb ihl ihr =>
    exact (ihr ((ihl (ihb unculled)).withNode trivial)).withNode trivial
  | rep _ _ ih => exact (ih unculled).withNode trivial
  | nullable_left _ _ ih | nullable_first _ _ ih => exact ih unculled
  | nullable_right _ _ _ ihl ihr | nullable_second _ _ _ ihl ihr => exact ihr (ihl unculled)
  | nullable_thunk _ _ _ ihf ihn => exact ihn (ihf unculled)
  | nullable_rule _ _ _ ih => exact (ih (unculled.mapRule _)).mapRule _
  | @force_pending W W₁ g g₁ id base target t _ _ _ ih =>
    exact Grammar.Unculled.of_eq (g := g₁.revised id (.setState (.forced target)))
      ((ih (unculled.setState nofun)).setState nofun) rfl

end Unculled

/-! ## Culling that checks its answers -/

namespace Grammar

variable {L : Type}

open scoped Classical in
/-- Whether a node matches something, as far as can be told without evaluating a thunk. -/
noncomputable def verdict (g : Grammar L) (id : NodeId) : Bool := decide (g.Productive id)

theorem verdict_iff {g : Grammar L} {id : NodeId} : g.verdict id = true ↔ g.Productive id := by
  classical exact decide_eq_true_iff

/-- Culls a node, and raises the alarm if something is left where the verdict is that nothing is to
be, or nothing where something is: for the node itself, and for every node that culling comes to on
the way. -/
def checkedNode (alarm : Error) (verdict : NodeId → Bool) (live : Std.TreeSet NodeId) :
    Nat → NodeId → Culling L (Option NodeId)
  | 0, _ => throw .outOfFuel
  | fuel + 1, id => do
    let result ← cullBy live (checkedNode alarm verdict live fuel) id
    if result.isSome = verdict id then return result else throw alarm

/-- Culls the graph under a node, with every answer checked. -/
def checkedCull (alarm : Error) (verdict : NodeId → Bool) (id : NodeId) : Eval L (Option NodeId) :=
  cullUnder (checkedNode alarm verdict) id

end Grammar

/-! ## In the course of culling -/

/-- What holds in the course of culling: something is left of the finished nodes that match
something, and of no others, and no thunk is kept as dead. -/
structure Judged {L : Type} (g₀ : Grammar L) (F : Std.TreeMap NodeId (Option NodeId))
    (g : Grammar L) : Prop where
  results : ∀ (x : NodeId) result, F[x]? = some result → (result.isSome ↔ g₀.Productive x)
  unculled : g.Unculled

section Judged

variable {L : Type} {g₀ g g' : Grammar L} {F F' : Std.TreeMap NodeId (Option NodeId)} {id : NodeId}
  {result given : Option NodeId} {live : Std.TreeSet NodeId} {fuel : Nat} {P : NodeId → Prop}
  {visit : NodeId → Culling L (Option NodeId)}

theorem Grammar.Remains.isSome (remains : g₀.Remains id result) (productive : g₀.Productive id) :
    result.isSome := by
  cases result with
  | none => exact absurd productive remains
  | some => rfl

namespace Judged

theorem revised {f : Node L → Node L} (h : Judged g₀ F g)
    (keeps : ∀ node, g.arena.get? id = some node → node.Unculled → (f node).Unculled) :
    Judged g₀ F (g.revised id f) :=
  ⟨h.results, h.unculled.revised keeps⟩

theorem stored {node : Node L} (h : Judged g₀ F g) (plain : node.isThunk = false) :
    Judged g₀ F (g.revised id fun _ => node) :=
  h.revised fun _ _ _ => Node.unculled_of_isThunk plain

theorem finish (h : Judged g₀ F g) (right : given.isSome ↔ g₀.Productive id)
    (run : Grammar.finishCull id given F g = .ok ((result, F'), g')) :
    Judged g₀ F' g' ∧ result = given := by
  obtain ⟨g₁, run', arena, -⟩ := Grammar.finishCull_ok (F := F) (g := g) id given
  cases run'.symm.trans run
  exact ⟨⟨Culling.forall_insert right h.results, h.unculled.of_eq arena⟩, rfl⟩

/-- A node that matches something is finished with what is left of it. -/
theorem finish_alive (h : Judged g₀ F g) (productive : g₀.Productive id)
    (remains : g₀.Remains id result)
    (run : Grammar.finishCull id given F g = .ok ((result, F'), g')) : Judged g₀ F' g' := by
  obtain ⟨g₁, run', -⟩ := Grammar.finishCull_ok (F := F) (g := g) id given
  cases run'.symm.trans run
  exact (h.finish (iff_of_true (remains.isSome productive) productive) run).1

end Judged

/-- A visit does what culling does, the nodes stay judged, and what is answered is the verdict. -/
def Judges (g₀ : Grammar L) (P : NodeId → Prop) (live : Std.TreeSet NodeId) (fuel : Nat)
    (visit : NodeId → Culling L (Option NodeId)) : Prop :=
  ∀ (id : NodeId) F g r F' g', P id → Shrinking g₀ F g → Judged g₀ F g →
    Grammar.cullNode live fuel id F g = .ok ((r, F'), g') →
      Judged g₀ F' g' ∧ (r.isSome ↔ g₀.Productive id) ∧ visit id F g = .ok ((r, F'), g')

section Trim

variable (ih : Judges g₀ P live fuel visit) (shrinks : CullShrinks g₀ P live fuel)
  (closed : g₀.Closed false P) (h : Shrinking g₀ F g) (judged : Judged g₀ F g) (member : P id)
  (productive : g₀.Productive id) (remains : g₀.Remains id result)
include ih shrinks closed h judged member productive remains

theorem judged_alt {left right : NodeId} (there : g.arena.get? id = some (.alt left right))
    (run : Grammar.trim (Grammar.cullNode live fuel) id (.alt left right) F g =
      .ok ((result, F'), g')) :
    Judged g₀ F' g' ∧ Grammar.trim visit id (.alt left right) F g = .ok ((result, F'), g') := by
  obtain ⟨_, there₀, shrunk⟩ := h.get?_back there
  obtain ⟨l₀, r₀, rfl, hl, hr⟩ := Node.shrunk_alt shrunk
  have inl : P left := hl.closed closed (closed.successors _ _ member there₀ _ (.head _))
  have inr : P right := hr.closed closed (closed.successors _ _ member there₀ _ (.tail _ (.head _)))
  rw [Grammar.trim] at run ⊢
  obtain ⟨l, F₁, g₁, run₁, run⟩ := Culling.bind_ok.mp run
  obtain ⟨h₁, -⟩ := shrinks left F g l F₁ g₁ inl h run₁
  obtain ⟨judged₁, -, visit₁⟩ := ih left F g l F₁ g₁ inl h judged run₁
  obtain ⟨r, F₂, g₂, run₂, run⟩ := Culling.bind_ok.mp run
  obtain ⟨judged₂, -, visit₂⟩ := ih right F₁ g₁ r F₂ g₂ inr h₁ judged₁ run₂
  rw [Culling.bind_of_ok visit₁, Culling.bind_of_ok visit₂]
  refine ⟨?_, run⟩
  cases l with
  | none => exact judged₂.finish_alive productive remains run
  | some l =>
    cases r with
    | none => exact judged₂.finish_alive productive remains run
    | some r =>
      have run := Grammar.store_bind.symm.trans run
      have judged₃ : Judged g₀ F₂ (g₂.revised id fun _ => .alt l r) := judged₂.stored rfl
      exact judged₃.finish_alive productive remains run

theorem judged_cat {left right : NodeId} (there : g.arena.get? id = some (.cat left right))
    (run : Grammar.trim (Grammar.cullNode live fuel) id (.cat left right) F g =
      .ok ((result, F'), g')) :
    Judged g₀ F' g' ∧ Grammar.trim visit id (.cat left right) F g = .ok ((result, F'), g') := by
  obtain ⟨_, there₀, shrunk⟩ := h.get?_back there
  obtain ⟨l₀, r₀, rfl, hl, hr⟩ := Node.shrunk_cat shrunk
  have inl : P left := hl.closed closed (closed.successors _ _ member there₀ _ (.head _))
  have inr : P right := hr.closed closed (closed.successors _ _ member there₀ _ (.tail _ (.head _)))
  rw [Grammar.trim] at run ⊢
  obtain ⟨l, F₁, g₁, run₁, run⟩ := Culling.bind_ok.mp run
  obtain ⟨h₁, -⟩ := shrinks left F g l F₁ g₁ inl h run₁
  obtain ⟨judged₁, -, visit₁⟩ := ih left F g l F₁ g₁ inl h judged run₁
  rw [Culling.bind_of_ok visit₁]
  cases l with
  | none => exact ⟨judged₁.finish_alive productive remains run, run⟩
  | some l =>
    obtain ⟨r, F₂, g₂, run₂, run⟩ := Culling.bind_ok.mp run
    obtain ⟨judged₂, -, visit₂⟩ := ih right F₁ g₁ r F₂ g₂ inr h₁ judged₁ run₂
    refine ⟨?_, (Culling.bind_of_ok visit₂).trans run⟩
    cases r with
    | none => exact judged₂.finish_alive productive remains run
    | some r =>
      have run := Grammar.store_bind.symm.trans run
      have judged₃ : Judged g₀ F₂ (g₂.revised id fun _ => .cat l r) := judged₂.stored rfl
      exact judged₃.finish_alive productive remains run

omit shrinks in
theorem judged_rep {body : NodeId} (there : g.arena.get? id = some (.rep body))
    (run : Grammar.trim (Grammar.cullNode live fuel) id (.rep body) F g = .ok ((result, F'), g')) :
    Judged g₀ F' g' ∧ Grammar.trim visit id (.rep body) F g = .ok ((result, F'), g') := by
  rw [Grammar.trim] at run ⊢
  by_cases dead : body = nothing
  · rw [if_neg (by simpa using dead)] at run ⊢
    exact ⟨judged.finish_alive productive remains run, run⟩
  · rw [if_pos (by simpa using dead)] at run ⊢
    obtain ⟨_, there₀, shrunk⟩ := h.get?_back there
    obtain ⟨b₀, next, rfl, hb, rfl⟩ := Node.shrunk_rep shrunk
    cases next with
    | none => exact absurd rfl dead
    | some body =>
      have inb : P body :=
        Grammar.Shrinks.closed hb closed (closed.successors _ _ member there₀ _ (.head _))
      obtain ⟨b, F₁, g₁, run₁, run⟩ := Culling.bind_ok.mp run
      obtain ⟨judged₁, -, visit₁⟩ := ih body F g b F₁ g₁ inb h judged run₁
      refine ⟨?_, (Culling.bind_of_ok visit₁).trans run⟩
      have run := Grammar.store_bind.symm.trans run
      have judged₂ : Judged g₀ F₁ (g₁.revised id fun _ => .rep (b.getD nothing)) :=
        judged₁.stored rfl
      exact judged₂.finish_alive productive remains run

omit shrinks in
theorem judged_rule {r : Rule} {body : NodeId} (there : g.arena.get? id = some (.rule r body))
    (run : Grammar.trim (Grammar.cullNode live fuel) id (.rule r body) F g =
      .ok ((result, F'), g')) :
    Judged g₀ F' g' ∧ Grammar.trim visit id (.rule r body) F g = .ok ((result, F'), g') := by
  rw [Grammar.trim] at run ⊢
  by_cases busy : r.busy = true
  · rw [if_pos busy] at run ⊢
    obtain ⟨rfl, rfl, rfl⟩ := Culling.pure_ok.mp run
    exact ⟨judged, run⟩
  · rw [if_neg busy] at run ⊢
    obtain ⟨_, there₀, shrunk⟩ := h.get?_back there
    obtain ⟨r₀, b₀, rfl, hb⟩ := Node.shrunk_rule shrunk
    have inb : P body := hb.closed closed (closed.successors _ _ member there₀ _ (.head _))
    have mark {F : Std.TreeMap NodeId (Option NodeId)} {g : Grammar L} (busy : Bool)
        (judged : Judged g₀ F g) : Judged g₀ F (g.revised id (.mapRule ({ · with busy }))) :=
        ⟨judged.results, judged.unculled.mapRule _⟩
    have run := Grammar.revise_bind.symm.trans run
    obtain ⟨b, F₁, g₁, run₁, run⟩ := Culling.bind_ok.mp run
    obtain ⟨judged₁, -, visit₁⟩ :=
      ih body F _ b F₁ g₁ inb (h.marked there₀ true) (mark true judged) run₁
    refine ⟨?_, Grammar.revise_bind.trans ((Culling.bind_of_ok visit₁).trans run)⟩
    have run := Grammar.revise_bind.symm.trans run
    cases b with
    | none => exact (mark false judged₁).finish_alive productive remains run
    | some b =>
      have run := Grammar.revise_bind.symm.trans run
      exact ((mark false
        judged₁).revised fun node _ kept => by cases node <;> exact kept).finish_alive productive
        remains run

omit shrinks in
theorem judged_thunk {t : Thunk L} {base : NodeId} (there : g.arena.get? id = some (.thunk t base))
    (run : Grammar.trim (Grammar.cullNode live fuel) id (.thunk t base) F g =
      .ok ((result, F'), g')) :
    Judged g₀ F' g' ∧ Grammar.trim visit id (.thunk t base) F g = .ok ((result, F'), g') := by
  obtain ⟨s, state⟩ := t
  rw [Grammar.trim] at run ⊢
  cases state with
  | pending | running | culled => exact ⟨judged.finish_alive productive remains run, run⟩
  | forced target =>
    obtain ⟨_, there₀, shrunk⟩ := h.get?_back there
    cases Node.shrunk_forced shrunk
    have inside : P target := closed.successors _ _ member there₀ _ (.head _)
    -- what a thunk that matches something was resolved to does too
    have alive : g₀.Productive target := by
      rcases (Grammar.productive_iff there₀).mp productive with waiting | ⟨_, resolved, alive⟩
      · cases waiting
      · cases resolved
        exact alive
    have set {F : Std.TreeMap NodeId (Option NodeId)} {g : Grammar L} {left : Option NodeId}
        (judged : Judged g₀ F g) (some : left ≠ none) :
        Judged g₀ F (g.revised id (.setState (.culled left))) :=
      ⟨judged.results, judged.unculled.setState fun same => some (ThunkState.culled.inj same)⟩
    have run := Grammar.revise_bind.symm.trans run
    obtain ⟨b, F₁, g₁, run₁, run⟩ := Culling.bind_ok.mp run
    have h' := h.culled there₀ rfl (Grammar.remains_self target)
    obtain ⟨judged₁, right, visit₁⟩ :=
      ih target F _ b F₁ g₁ inside h' (set judged (Option.some_ne_none target)) run₁
    refine ⟨?_, Grammar.revise_bind.trans ((Culling.bind_of_ok visit₁).trans run)⟩
    have run := Grammar.revise_bind.symm.trans run
    exact (set judged₁ (Option.isSome_iff_ne_none.mp (right.mpr alive))).finish_alive productive
      remains run

end Trim

/-- By induction on the fuel: no alarm is raised, and what is finished is finished with the verdict
on it. -/
theorem checkedNode_judged (alarm : Error) (closed : g₀.Closed false P)
    (alive : ∀ x, P x → (live.contains x ↔ g₀.Productive x)) (fuel : Nat) :
    Judges g₀ P live fuel (Grammar.checkedNode alarm g₀.verdict live fuel) := by
  have shrinks (fuel : Nat) : CullShrinks g₀ P live fuel :=
    cullNode_shrinks closed (fun x hx productive => (alive x hx).mpr productive) fuel
  induction fuel with
  | zero => exact fun _ _ _ _ _ _ _ _ _ run => by cases run
  | succ fuel ih =>
    intro id F g r F' g' member h judged run
    obtain ⟨-, remains⟩ := shrinks (fuel + 1) id F g r F' g' member h run
    -- it is enough that the visit does what culling does, and answers the verdict
    suffices visited : Judged g₀ F' g' ∧ (r.isSome ↔ g₀.Productive id) ∧
        Grammar.cullBy live (Grammar.checkedNode alarm g₀.verdict live fuel) id F g =
        .ok ((r, F'), g') by
      obtain ⟨judged', right, visit⟩ := visited
      refine ⟨judged', right, ?_⟩
      have agrees : r.isSome = g₀.verdict id :=
        Bool.eq_iff_iff.mpr (right.trans Grammar.verdict_iff.symm)
      rw [Grammar.checkedNode, Culling.bind_of_ok visit, if_pos agrees]
      rfl
    cases done : F[id]? with
    | some result =>
      cases (Grammar.cullNode_finished done).symm.trans run
      exact ⟨judged, judged.results id r done, Grammar.cullBy_finished done⟩
    | none =>
      obtain ⟨node, there⟩ := Grammar.exists_get? (h.size ▸ closed.range id member)
      rw [Grammar.cullNode_new done there] at run
      rw [Grammar.cullBy_new done there]
      by_cases contained : live.contains id
      · have productive := (alive id member).mp contained
        rw [if_pos contained] at run ⊢
        have right : r.isSome ↔ g₀.Productive id :=
          iff_of_true (remains.isSome productive) productive
        have trimmed : Judged g₀ F' g' ∧
            Grammar.trim (Grammar.checkedNode alarm g₀.verdict live fuel) id node F g =
            .ok ((r, F'), g') := by
          cases node with
          | empty => exact ⟨judged.finish_alive productive remains run, run⟩
          | token | matched | undefined =>
            have run : Grammar.finishCull id (some id) F g = .ok ((r, F'), g') := run
            exact ⟨judged.finish_alive productive remains run, run⟩
          | alt =>
            exact judged_alt ih (shrinks fuel) closed h judged member productive remains there run
          | cat =>
            exact judged_cat ih (shrinks fuel) closed h judged member productive remains there run
          | rep => exact judged_rep ih closed h judged member productive remains there run
          | rule => exact judged_rule ih closed h judged member productive remains there run
          | thunk => exact judged_thunk ih closed h judged member productive remains there run
        exact ⟨trimmed.1, right, trimmed.2⟩
      · have dead : (none : Option NodeId).isSome ↔ g₀.Productive id :=
          iff_of_false nofun fun productive => contained ((alive id member).mpr productive)
        rw [if_neg contained] at run ⊢
        obtain ⟨judged', rfl⟩ := judged.finish dead run
        exact ⟨judged', dead, run⟩

end Judged

/-! ## Culling a graph -/

section Cull

variable {L : Type} [DecidableEq L] {links : Links} {W : World} {g g' : Grammar L} {id : NodeId}
  {result : Option NodeId} {order : List NodeId} {source : Source} {fuel : Nat}
  {ops : List (Operation L)}

omit [DecidableEq L] in
/-- Culling leaves nothing of a node exactly if the node matches nothing. So it is with every node
that it comes to, and no thunk is kept as dead. -/
theorem cull_judges (ranged : g.Ranged false) (lt : id < g.size) (unculled : g.Unculled)
    (run : Grammar.cull id g = .ok (result, g')) :
    (result = none ↔ ¬g.Productive id) ∧
      (∀ alarm, Grammar.checkedCull alarm g.verdict id g = .ok (result, g')) ∧
      g'.Unculled := by
  obtain ⟨order, ordered, mem, closed⟩ := Grammar.settledOrder_ok ranged lt
  obtain ⟨F', culled⟩ := (Grammar.cull_iff ordered).mp run
  have alive (x : NodeId) (hx : x ∈ order) : (g.productive order).contains x ↔ g.Productive x :=
    ⟨Grammar.productive_of_live, fun productive => productive.live closed hx⟩
  have start : Judged g {} g := ⟨fun x r hr => by simp at hr, unculled⟩
  have judges (alarm : Error) :=
    checkedNode_judged alarm closed alive _ id {} g _ F' _ mem (.start g) start culled
  obtain ⟨judged, right, -⟩ := judges .outOfFuel
  refine ⟨?_, fun alarm => (Grammar.cullUnder_iff ordered).mpr ⟨F', (judges alarm).2.2⟩,
    judged.unculled⟩
  rw [← right, Option.not_isSome_iff_eq_none]

/-- Nothing that is done keeps a thunk as dead. -/
theorem Turns.unculled {culling : Bool} {place : NodeId → Option NodeId}
    (h : Turns W g culling place g') (good : Good links W g) (unculled : g.Unculled) :
    g'.Unculled := by
  cases h with
  | evaluates evaluated => exact evaluated.unculled unculled
  | stays arena => exact unculled.of_eq arena
  | culls run =>
    exact (cull_judges (good.formed.ranged false) (Grammar.lt_size_of_cull run) unculled run).2.2
  | collects _ moved => exact unculled.moved moved

/-- In what was built no thunk is kept as dead: there is none. -/
theorem Founded.unculled {origin : Meaning} {start : NodeId}
    (founded : Founded links origin W g start) : g.Unculled := by
  intro x node there
  have fresh := founded.fresh x node there
  cases node with
  | thunk => exact fresh.elim
  | _ => trivial

/-- A grammar between calls: it is as it must be between actions, and no thunk is kept as dead. -/
def Grammar.Between (links : Links) (g : Grammar L) : Prop := (∃ W, Good links W g) ∧ g.Unculled

theorem Founded.between {origin : Meaning} {start : NodeId}
    (founded : Founded links origin W g start) :
    g.Between links := ⟨⟨W, founded.good⟩, founded.unculled⟩

theorem Turns.between {culling : Bool} {place : NodeId → Option NodeId}
    (h : Turns W g culling place g') (good : Good links W g) (unculled : g.Unculled) :
    g'.Between links := ⟨h.good good, h.unculled good unculled⟩

/-- A deed leads from between calls to between calls, and does what it may. -/
theorem enact_between {d : Deed L} {u : Unit} (h : g.Between links)
    (run : Grammar.enact fuel d g = .ok (u, g')) :
    g'.Between links ∧ ∃ W, Good links W g ∧ Turns W g d.isCull (d.place g) g' := by
  obtain ⟨⟨W, good⟩, unculled⟩ := h
  have turns := enact_turns W good.formed run
  exact ⟨turns.between good unculled, W, good, turns⟩

theorem worked_unculled (history : source.worked fuel ops = .ok g) : g.Unculled := by
  refine (Source.worked_induct (P := Grammar.Between source.links) (fun start g built => ?_)
    (fun op _ u g g' h run => operate_induct (fun d u g g' h run => (enact_between h run).1) h run)
    history).2
  obtain ⟨W, founded⟩ := grammar_founded built
  exact founded.between

/-- After any operations no thunk is kept as dead, and culling a node always answers: nothing
exactly if the node matches nothing. So it is with every node that culling comes to, and it keeps no
thunk as dead either. What has matched a terminal counts as matching something. -/
theorem cull_verdict (history : source.worked fuel ops = .ok g) (lt : id < g.size) :
    g.Unculled ∧ (∀ x symbol, g.arena.get? x = some (.matched symbol) → g.Productive x) ∧
      ∃ result g', Grammar.cull id g = .ok (result, g') ∧ (result = none ↔ ¬g.Productive id) ∧
        (∀ alarm, Grammar.checkedCull alarm g.verdict id g = .ok (result, g')) ∧ g'.Unculled := by
  obtain ⟨W, good, -⟩ := worked_good history
  have unculled := worked_unculled history
  obtain ⟨_, result, _, g', run, -⟩ := cull_trims good lt
  refine ⟨unculled, fun x symbol there => ?_, result, g', run,
    cull_judges (good.formed.ranged false) lt unculled run⟩
  exact (Grammar.Matches.matched there).productive good.formed

theorem cull_verdict_leftRecursive :
    ∃ g : Grammar String, leftRecursive.worked 30 chores = .ok g ∧ 6 < g.size ∧
    g.Unculled ∧ (∀ x symbol, g.arena.get? x = some (.matched symbol) → g.Productive x) ∧
      ∃ result g', Grammar.cull 6 g = .ok (result, g') ∧ (result = none ↔ ¬g.Productive 6) ∧
        (∀ alarm, Grammar.checkedCull alarm g.verdict 6 g = .ok (result, g')) ∧ g'.Unculled := by
  obtain ⟨g, history, lt⟩ := leftRecursive_worked
  exact ⟨g, history, lt, cull_verdict history lt⟩

end Cull

end DerivativeParsing
