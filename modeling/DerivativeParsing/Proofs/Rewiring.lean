import DerivativeParsing.Proofs.Shrinking
import Mathlib.Logic.Relation

/-!
# Where culling rewires a graph

Culling goes down a graph that it changes on the way, and comes back to nodes. That it answers all
the same rests on the graph before alone: its edges have to lead to nodes, and none of its cycles
may avoid all nonterminals.

1. `Recasts` says how culling changes nodes, `Rewires` which ones it does not change.
2. `Grammar.Leads` are the edges that are followed between two nonterminals, `cost` bounds how deep
   the calls nest.
3. `cullNode_rewires`: culling a node answers, and rewires only nodes that match something.
   `cull_rewires`: so does culling the graph under a node, and none but what the node reaches.
-/

namespace DerivativeParsing

open Grammar (nothing lt_size_of_get?)
open Relation (TransGen ReflTransGen)

/-! ## How nodes change -/

/-- What a node may be changed to by culling. -/
inductive Node.Recast {L : Type} : Node L → Node L → Prop
  | same (node : Node L) : Recast node node
  | alt {l r l' r' : NodeId} : Recast (.alt l r) (.alt l' r')
  | cat {l r l' r' : NodeId} : Recast (.cat l r) (.cat l' r')
  | rep {b b' : NodeId} : Recast (.rep b) (.rep b')
  | rule {r : Rule} {b b' : NodeId} : Recast (.rule r b) (.rule r b')
  | thunk {s : Symbol L} {base : NodeId} {state : ThunkState} {result : Option NodeId} :
    Recast (.thunk ⟨s, state⟩ base) (.thunk ⟨s, .culled result⟩ base)

theorem Node.Recast.trans {L : Type} {a b c : Node L} (hab : a.Recast b) (hbc : b.Recast c) :
    a.Recast c := by
  cases hab with
  | same => exact hbc
  | alt =>
    cases hbc with
    | same | alt => exact .alt
  | cat =>
    cases hbc with
    | same | cat => exact .cat
  | rep =>
    cases hbc with
    | same | rep => exact .rep
  | rule =>
    cases hbc with
    | same | rule => exact .rule
  | thunk =>
    cases hbc with
    | same | thunk => exact .thunk

/-- How culling changes a grammar. -/
structure Recasts {L : Type} (g g' : Grammar L) : Prop where
  size : g'.size = g.size
  memo : g'.memo = g.memo
  node : ∀ (id : Nat) node, g.arena.get? id = some node →
    ∃ node', g'.arena.get? id = some node' ∧ node.Recast node'

namespace Recasts

variable {L : Type} {g g₁ g₂ g' : Grammar L} {id : Nat} {node node' : Node L}

theorem of_eq (arena : g'.arena = g.arena) (memo : g'.memo = g.memo) : Recasts g g' where
  size := by rw [Grammar.size, Grammar.size, arena]
  memo := memo
  node _ node there := ⟨node, arena ▸ there, .same node⟩

theorem refl (g : Grammar L) : Recasts g g := of_eq rfl rfl

theorem trans (h : Recasts g g₁) (h' : Recasts g₁ g₂) : Recasts g g₂ where
  size := h'.size.trans h.size
  memo := h'.memo.trans h.memo
  node id node there := by
    obtain ⟨node₁, there₁, step⟩ := h.node id node there
    obtain ⟨node₂, there₂, step'⟩ := h'.node id node₁ there₁
    exact ⟨node₂, there₂, step.trans step'⟩

theorem revised {f : Node L → Node L}
    (step : ∀ node, g.arena.get? id = some node → node.Recast (f node)) :
    Recasts g (g.revised id f) where
  size := Grammar.size_revised _ _ _
  memo := rfl
  node i node there := by
    rw [Grammar.get?_revised, there]
    by_cases same : id = i
    · subst same
      exact ⟨f node, if_pos rfl, step node there⟩
    · exact ⟨node, if_neg same, .same node⟩

theorem get?_back (h : Recasts g g') (there : g'.arena.get? id = some node') :
    ∃ node, g.arena.get? id = some node ∧ node.Recast node' := by
  obtain ⟨node, there₀⟩ := Grammar.exists_get? (h.size ▸ lt_size_of_get? there)
  obtain ⟨node₁, there₁, step⟩ := h.node id node there₀
  cases Option.some.inj (there.symm.trans there₁)
  exact ⟨node, there₀, step⟩

theorem rule_iff (h : Recasts g g') {r : Rule} :
    (∃ body, g'.arena.get? id = some (.rule r body)) ↔
      ∃ body, g.arena.get? id = some (.rule r body) := by
  constructor
  · rintro ⟨body, there⟩
    obtain ⟨node, there₀, step⟩ := h.get?_back there
    cases step with
    | same => exact ⟨body, there₀⟩
    | rule => exact ⟨_, there₀⟩
  · rintro ⟨body, there⟩
    obtain ⟨node', there', step⟩ := h.node id _ there
    cases step with
    | same => exact ⟨body, there'⟩
    | rule => exact ⟨_, there'⟩

end Recasts

/-- Whether culling can change a node: it leads to others, and if it is a thunk, it has been
evaluated and has not been culled. -/
def Node.isRewirable {L : Type} : Node L → Bool
  | alt _ _ | cat _ _ | rep _ | rule _ _ => true
  | thunk t _ =>
    match t.state with
    | .forced _ => true
    | .pending | .running | .culled _ => false
  | empty | token _ | matched _ | undefined _ => false

/-- How culling changes a grammar, if it leaves all nodes but those of `T` as they are. -/
structure Rewires {L : Type} (T : NodeId → Prop) (g g' : Grammar L) :
    Prop extends Recasts g g' where
  kept : ∀ (id : Nat) node, g.arena.get? id = some node → (T id → node.isRewirable = false) →
    g'.arena.get? id = some node

namespace Rewires

variable {L : Type} {T : NodeId → Prop} {g g₁ g₂ : Grammar L} {id : Nat} {node : Node L}
  {f f' : Node L → Node L}

theorem of_eq (arena : g₁.arena = g.arena) (memo : g₁.memo = g.memo) : Rewires T g g₁ where
  toRecasts := .of_eq arena memo
  kept _ _ there _ := arena ▸ there

theorem refl (g : Grammar L) : Rewires T g g := of_eq rfl rfl

theorem trans (h : Rewires T g g₁) (h' : Rewires T g₁ g₂) : Rewires T g g₂ where
  toRecasts := h.toRecasts.trans h'.toRecasts
  kept id node there fixed := h'.kept id node (h.kept id node there fixed) fixed

/-- A node of `T` is changed, other nodes are changed in between, and then it is changed again. -/
theorem around (h : Rewires T (g.revised id f) g₂) (there : g.arena.get? id = some node)
    (touched : T id) (rewirable : node.isRewirable)
    (step : ∀ node₂, (f node).Recast node₂ → node.Recast (f' node₂)) :
    Rewires T g (g₂.revised id f') where
  size := by rw [Grammar.size_revised, h.size, Grammar.size_revised]
  memo := h.memo
  node i node' there' := by
    by_cases same : id = i
    · subst same
      cases Option.some.inj (there.symm.trans there')
      obtain ⟨node₂, there₂, change⟩ :=
        h.node id (f node) (by rw [Grammar.get?_revised, if_pos rfl, there]; rfl)
      exact ⟨f' node₂, by rw [Grammar.get?_revised, if_pos rfl, there₂]; rfl, step node₂ change⟩
    · obtain ⟨node₂, there₂, change⟩ :=
        h.node i node' (by rw [Grammar.get?_revised, if_neg same, there'])
      exact ⟨node₂, by rw [Grammar.get?_revised, if_neg same, there₂], change⟩
  kept i node' there' fixed := by
    have other : id ≠ i := by
      rintro rfl
      cases Option.some.inj (there.symm.trans there')
      exact Bool.noConfusion (rewirable.symm.trans (fixed touched))
    rw [Grammar.get?_revised, if_neg other]
    exact h.kept i node' (by rw [Grammar.get?_revised, if_neg other, there']) fixed

theorem revised (touched : T id)
    (step : ∀ node, g.arena.get? id = some node → node.isRewirable ∧ node.Recast (f node)) :
    Rewires T g (g.revised id f) where
  toRecasts := .revised fun node there => (step node there).2
  kept i node there fixed := by
    have other : id ≠ i := by
      rintro rfl
      exact Bool.noConfusion ((step node there).1.symm.trans (fixed touched))
    rw [Grammar.get?_revised, if_neg other, there]

end Rewires

/-! ## How deep the calls nest -/

namespace Grammar

variable {L : Type} {g g' : Grammar L} {x y z : NodeId} {node : Node L} {order : List NodeId}

/-- An edge that is followed without entering a nonterminal. -/
def Leads (g : Grammar L) (x y : NodeId) : Prop :=
  ∃ node, g.arena.get? x = some node ∧ (∀ r body, node ≠ .rule r body) ∧ y ∈ node.successors false

def Stratified (g : Grammar L) : Prop := ∀ x, ¬TransGen g.Leads x x

theorem Shrinks.leads (h : g.Shrinks x y) : ReflTransGen g.Leads x y := by
  induction h with
  | refl => exact .refl
  | alt_left there _ _ ih => exact .head ⟨_, there, nofun, .head _⟩ ih
  | alt_right there _ _ ih => exact .head ⟨_, there, nofun, .tail _ (.head _)⟩ ih
  | resolved there resolved _ ih =>
    exact .head ⟨_, there, nofun, mem_successors_of_resolved resolved⟩ ih

/-- A rule that is not being culled. -/
def Free (g : Grammar L) (x : Nat) : Prop :=
  ∃ r, (∃ body, g.arena.get? x = some (.rule r body)) ∧ r.busy = false

end Grammar

section Cost

open scoped Classical

variable {L : Type} {T : NodeId → Prop} {g₀ g g' : Grammar L} {order : List NodeId} {id x y : Nat}
  {node : Node L}

/-- How many rules can still be entered. -/
noncomputable def free (order : List NodeId) (g : Grammar L) : Nat :=
  order.countP fun x => decide (g.Free x)

/-- How many nodes can be met from a node on, before a rule is entered. -/
noncomputable def below (order : List NodeId) (g₀ : Grammar L) (id : Nat) : Nat :=
  order.countP fun x => decide (TransGen g₀.Leads id x)

/-- How deep the calls nest when a node is culled, in the course of culling a graph that was `g₀`
before. -/
noncomputable def cost (order : List NodeId) (g₀ g : Grammar L) (id : Nat) : Nat :=
  free order g * (order.length + 1) + below order g₀ id + 1

theorem free_le (order : List NodeId) (g : Grammar L) : free order g ≤ order.length :=
  List.countP_le_length

theorem below_le (order : List NodeId) (g₀ : Grammar L) (id : Nat) :
    below order g₀ id ≤ order.length :=
  List.countP_le_length

/-- The calls nest no deeper than the fuel that culling a graph starts with. -/
theorem cost_le (order : List NodeId) (g₀ g : Grammar L) (id : Nat) :
    cost order g₀ g id ≤ (order.length + 1) * (order.length + 1) := by
  have := Nat.mul_le_mul_right (order.length + 1) (free_le order g)
  have := below_le order g₀ id
  unfold cost
  rw [Nat.succ_mul]
  omega

theorem Recasts.free_eq (h : Recasts g g') : free order g' = free order g := by
  have same (x : Nat) : g'.Free x = g.Free x := by
    unfold Grammar.Free
    simp only [h.rule_iff]
  unfold free
  simp only [same]

theorem below_lt (stratified : g₀.Stratified) (leads : TransGen g₀.Leads id x) (mem : x ∈ order) :
    below order g₀ x < below order g₀ id :=
  Grammar.countP_lt mem (decide_eq_true leads) (decide_eq_false (stratified x)) fun _ hy =>
    decide_eq_true (leads.trans (of_decide_eq_true hy))

/-- While a rule is being culled, there is one less to enter. -/
theorem free_busy {r : Rule} {body : NodeId} (there : g.arena.get? id = some (.rule r body))
    (idle : r.busy = false) (mem : id ∈ order) :
    free order (g.revised id (.mapRule ({ · with busy := true }))) < free order g := by
  refine Grammar.countP_lt mem (decide_eq_true ⟨r, ⟨body, there⟩, idle⟩)
    (decide_eq_false ?_) fun x hx => ?_
  · rintro ⟨r', ⟨body', there'⟩, idle'⟩
    rw [Grammar.get?_revised, if_pos rfl, there] at there'
    cases there'
    cases idle'
  · obtain ⟨r', ⟨body', there'⟩, idle'⟩ := of_decide_eq_true hx
    rw [Grammar.get?_revised] at there'
    by_cases same : id = x
    · subst same
      rw [if_pos rfl, there] at there'
      cases there'
      cases idle'
    · rw [if_neg same] at there'
      exact decide_eq_true ⟨r', ⟨body', there'⟩, idle'⟩

end Cost

/-! ## Culling a node -/

section Trim

variable {L : Type}

/-- In the course of culling a graph, an action answers, and rewires nodes of `T` only. -/
def CullAnswers (T : NodeId → Prop) (act : Culling L (Option NodeId))
    (F : Std.TreeMap NodeId (Option NodeId)) (g : Grammar L) : Prop :=
  ∃ result F' g', act F g = .ok ((result, F'), g') ∧ Rewires T g g'

/-- What culling rests on: it comes to nodes of `P` only, in the graph as it was before, which are
counted in `order`, and those that match something are in `live`. -/
structure CullBasis (P : NodeId → Prop) (order : List NodeId) (live : Std.TreeSet NodeId)
    (g₀ : Grammar L) : Prop where
  stratified : g₀.Stratified
  closed : g₀.Closed false P
  counted : ∀ x, P x → x ∈ order
  alive : ∀ x, P x → g₀.Productive x → live.contains x

/-- All nodes of `P` that calls can nest deep enough for are culled, in the course of culling a
graph that was `g₀` before. -/
def CullRewires (P T : NodeId → Prop) (order : List NodeId) (g₀ : Grammar L)
    (live : Std.TreeSet NodeId) (fuel : Nat) : Prop :=
  ∀ (id : NodeId) F g, P id → Shrinking g₀ F g → cost order g₀ g id ≤ fuel →
    CullAnswers T (Grammar.cullNode live fuel id) F g

variable {P T : NodeId → Prop} {order : List NodeId} {live : Std.TreeSet NodeId} {fuel : Nat}
  {F F₂ : Std.TreeMap NodeId (Option NodeId)} {g₀ g g₂ : Grammar L}
  {id left right body base : NodeId} {node : Node L}

theorem Rewires.finish {act : Culling L (Option NodeId)} (h : Rewires T g g₂) (id : NodeId)
    (result : Option NodeId) (run : act F g = Grammar.finishCull id result F₂ g₂) :
    CullAnswers T act F g := by
  obtain ⟨g', run', arena, memo⟩ := Grammar.finishCull_ok (F := F₂) (g := g₂) id result
  exact ⟨result, _, g', run.trans run', h.trans (.of_eq arena memo)⟩

/-- After an action, a node is led on to what is left of those that it led to, and finished. -/
theorem Rewires.finish_revised {act : Culling L (Option NodeId)} {f : Node L → Node L}
    (h : Rewires T g g₂) (there : g.arena.get? id = some node) (touched : T id)
    (step : ∀ node₂, node.Recast node₂ → node₂.isRewirable ∧ node₂.Recast (f node₂))
    (run : act F g = Grammar.finishCull id (some id) F₂ (g₂.revised id f)) :
    CullAnswers T act F g := by
  refine (h.trans (.revised touched fun node₂ there₂ => ?_)).finish id (some id) run
  obtain ⟨node', there', change⟩ := h.node id node there
  cases there₂.symm.trans there'
  exact step node₂ change

variable (basis : CullBasis P order live g₀) (ih : CullRewires P T order g₀ live fuel)
  (member : P id) (enough : cost order g₀ g id ≤ fuel + 1)
include basis ih member enough

/-- What was an edge of a node, or is left of where it led, is culled, after others were. -/
theorem rewires_next {node₀ : Node L} {x₀ x : NodeId} (there₀ : g₀.arena.get? id = some node₀)
    (other : ∀ r body, node₀ ≠ .rule r body) (next : x₀ ∈ node₀.successors false)
    (left : g₀.Shrinks x₀ x) (h₂ : Shrinking g₀ F₂ g₂) (change : Recasts g g₂) :
    ∃ result F' g', Grammar.cullNode live fuel x F₂ g₂ = .ok ((result, F'), g') ∧ Rewires T g₂ g' ∧
      Shrinking g₀ F' g' := by
  have inside : P x := left.closed basis.closed (basis.closed.successors _ _ member there₀ x₀ next)
  have leads : TransGen g₀.Leads id x := .head' ⟨node₀, there₀, other, next⟩ left.leads
  have less := below_lt basis.stratified leads (basis.counted x inside)
  have enough' : cost order g₀ g₂ x ≤ fuel := by
    unfold cost at enough ⊢
    rw [change.free_eq]
    omega
  obtain ⟨result, F', g', run, rewires⟩ := ih x F₂ g₂ inside h₂ enough'
  have shrinks := cullNode_shrinks basis.closed basis.alive fuel x F₂ g₂ result F' g' inside h₂ run
  exact ⟨result, F', g', run, rewires, shrinks.1⟩

variable (h : Shrinking g₀ F g) (touched : T id)
include h touched

theorem rewires_alt (there : g.arena.get? id = some (.alt left right)) :
    CullAnswers T (Grammar.trim (Grammar.cullNode live fuel) id (.alt left right)) F g := by
  obtain ⟨_, there₀, shrunk⟩ := h.get?_back there
  obtain ⟨l₀, r₀, rfl, hl, hr⟩ := Node.shrunk_alt shrunk
  obtain ⟨l, F₁, g₁, run₁, change₁, h₁⟩ :=
    rewires_next basis ih member enough there₀ nofun (.head _) hl h (.refl g)
  obtain ⟨r, F₂, g₂, run₂, change₂, -⟩ :=
    rewires_next basis ih member enough there₀ nofun (.tail _ (.head _)) hr h₁ change₁.toRecasts
  have change := change₁.trans change₂
  match l, r with
  | none, r => exact change.finish id r ((Culling.bind_of_ok run₁).trans (Culling.bind_of_ok run₂))
  | some l, none =>
    exact change.finish id (some l) ((Culling.bind_of_ok run₁).trans (Culling.bind_of_ok run₂))
  | some l, some r =>
    refine change.finish_revised there touched (fun node₂ step => ?_)
      ((Culling.bind_of_ok run₁).trans ((Culling.bind_of_ok run₂).trans Grammar.store_bind))
    cases step <;> exact ⟨rfl, .alt⟩

theorem rewires_cat (there : g.arena.get? id = some (.cat left right)) :
    CullAnswers T (Grammar.trim (Grammar.cullNode live fuel) id (.cat left right)) F g := by
  obtain ⟨_, there₀, shrunk⟩ := h.get?_back there
  obtain ⟨l₀, r₀, rfl, hl, hr⟩ := Node.shrunk_cat shrunk
  obtain ⟨l, F₁, g₁, run₁, change₁, h₁⟩ :=
    rewires_next basis ih member enough there₀ nofun (.head _) hl h (.refl g)
  match l with
  | none => exact change₁.finish id none (Culling.bind_of_ok run₁)
  | some l =>
    obtain ⟨r, F₂, g₂, run₂, change₂, -⟩ :=
    rewires_next basis ih member enough there₀ nofun (.tail _ (.head _)) hr h₁ change₁.toRecasts
    have change := change₁.trans change₂
    match r with
    | none =>
      exact change.finish id none ((Culling.bind_of_ok run₁).trans (Culling.bind_of_ok run₂))
    | some r =>
      refine change.finish_revised there touched (fun node₂ step => ?_)
        ((Culling.bind_of_ok run₁).trans ((Culling.bind_of_ok run₂).trans Grammar.store_bind))
      cases step <;> exact ⟨rfl, .cat⟩

theorem rewires_rep (there : g.arena.get? id = some (.rep body)) :
    CullAnswers T (Grammar.trim (Grammar.cullNode live fuel) id (.rep body)) F g := by
  by_cases dead : body = nothing
  · have start : Grammar.trim (Grammar.cullNode live fuel) id (.rep body) F g =
        Grammar.finishCull id (some id) F g := by
      rw [Grammar.trim, if_neg (by simp [dead])]
    exact (Rewires.refl g).finish id (some id) start
  · obtain ⟨_, there₀, shrunk⟩ := h.get?_back there
    obtain ⟨b₀, remains, rfl, hb, rfl⟩ := Node.shrunk_rep shrunk
    cases remains with
    | none => exact absurd rfl dead
    | some body =>
      have other (r : Rule) (x : NodeId) : Node.rep b₀ ≠ (.rule r x : Node L) := by simp
      obtain ⟨b, F₁, g₁, run, change, -⟩ :=
        rewires_next basis ih member enough there₀ other (.head _) hb h (.refl g)
      have start : Grammar.trim (Grammar.cullNode live fuel) id (.rep body) F g =
          Grammar.finishCull id (some id) F₁ (g₁.revised id fun _ => .rep (b.getD nothing)) := by
        rw [Grammar.trim, if_pos (by simpa using dead)]
        exact (Culling.bind_of_ok run).trans Grammar.store_bind
      refine change.finish_revised there touched (fun node₂ step => ?_) start
      cases step <;> exact ⟨rfl, .rep⟩

theorem rewires_rule {r : Rule} (there : g.arena.get? id = some (.rule r body)) :
    CullAnswers T (Grammar.trim (Grammar.cullNode live fuel) id (.rule r body)) F g := by
  by_cases busy : r.busy
  · refine ⟨some id, F, g, ?_, .refl g⟩
    rw [Grammar.trim, if_pos busy]
    rfl
  have idle : r.busy = false := Bool.eq_false_iff.mpr busy
  obtain ⟨_, there₀, shrunk⟩ := h.get?_back there
  obtain ⟨r₀, b₀, rfl, hb⟩ := Node.shrunk_rule shrunk
  have inside : P body :=
    hb.closed basis.closed (basis.closed.successors _ _ member there₀ _ (.head _))
  have enough' : cost order g₀ (g.revised id (.mapRule ({ · with busy := true }))) body ≤ fuel := by
    have less :=
      Nat.mul_le_mul_right (order.length + 1) (free_busy there idle (basis.counted id member))
    rw [Nat.succ_mul] at less
    have := below_le order g₀ body
    unfold cost at enough ⊢
    omega
  obtain ⟨b, F₂, g₂, run, inner⟩ := ih body F _ inside (h.marked there₀ true) enough'
  have change : Rewires T g (g₂.revised id (.mapRule ({ · with busy := false }))) := by
    refine inner.around there touched rfl fun node₂ step => ?_
    rw [show r = { { r with busy := true } with busy := false } by rw [← idle]]
    cases step <;> exact .rule
  cases b with
  | none =>
    have start : Grammar.trim (Grammar.cullNode live fuel) id (.rule r body) F g =
        Grammar.finishCull id none F₂ (g₂.revised id (.mapRule ({ · with busy := false }))) := by
      rw [Grammar.trim, if_neg busy]
      exact Grammar.revise_bind.trans ((Culling.bind_of_ok run).trans Grammar.revise_bind)
    exact change.finish id none start
  | some b =>
    have start : Grammar.trim (Grammar.cullNode live fuel) id (.rule r body) F g =
        Grammar.finishCull id (some id) F₂
          ((g₂.revised id (.mapRule ({ · with busy := false }))).revised id (.setBody b)) := by
      rw [Grammar.trim, if_neg busy]
      exact Grammar.revise_bind.trans
        ((Culling.bind_of_ok run).trans (Grammar.revise_bind.trans Grammar.revise_bind))
    refine change.finish_revised there touched (fun node₂ step => ?_) start
    cases step <;> exact ⟨rfl, .rule⟩

theorem rewires_thunk {t : Thunk L} (there : g.arena.get? id = some (.thunk t base)) :
    CullAnswers T (Grammar.trim (Grammar.cullNode live fuel) id (.thunk t base)) F g := by
  obtain ⟨s, state⟩ := t
  cases state with
  | pending | running => exact (Rewires.refl g).finish id (some id) rfl
  | culled target => exact (Rewires.refl g).finish id target rfl
  | forced target =>
    obtain ⟨_, there₀, shrunk⟩ := h.get?_back there
    cases Node.shrunk_forced shrunk
    have marked := h.culled there₀ rfl (Grammar.remains_self target)
    have set : Recasts g (g.revised id (.setState (.culled (some target)))) := by
      refine .revised fun node there' => ?_
      cases there.symm.trans there'
      exact .thunk
    obtain ⟨result, F₂, g₂, run, inner, -⟩ :=
      rewires_next basis ih member enough there₀ nofun (.head _) (.refl target) marked set
    -- the thunk is set twice, and in between it counts as culled
    have change : Rewires T g (g₂.revised id (.setState (.culled result))) := by
      refine inner.around there touched rfl fun node₂ step => ?_
      cases step <;> exact .thunk
    exact change.finish id result
      (Grammar.revise_bind.trans ((Culling.bind_of_ok run).trans Grammar.revise_bind))

omit ih member enough h touched in
/-- By induction on the fuel: culling a node answers, and rewires none but nodes that match
something. -/
theorem cullNode_rewires (reached : ∀ x, P x → live.contains x → T x) (fuel : Nat) :
    CullRewires P T order g₀ live fuel := by
  induction fuel with
  | zero =>
    intro id F g _ _ enough
    unfold cost at enough
    omega
  | succ fuel ih =>
    intro id F g member h enough
    cases done : F[id]? with
    | some result => exact ⟨result, F, g, Grammar.cullNode_finished done, .refl g⟩
    | none =>
      obtain ⟨node, there⟩ := Grammar.exists_get? (h.size ▸ basis.closed.range id member)
      have start : Grammar.cullNode live (fuel + 1) id F g =
          (if live.contains id then Grammar.trim (Grammar.cullNode live fuel) id node
            else Grammar.finishCull id none) F g := Grammar.cullNode_new done there
      split at start
      · rename_i found
        have touched := reached id member found
        suffices CullAnswers T (Grammar.trim (Grammar.cullNode live fuel) id node) F g by
          obtain ⟨result, F', g', run, change⟩ := this
          exact ⟨result, F', g', start.trans run, change⟩
        cases node with
        | empty => exact (Rewires.refl g).finish id none rfl
        | token | matched | undefined => exact (Rewires.refl g).finish id (some id) rfl
        | alt => exact rewires_alt basis ih member enough h touched there
        | cat => exact rewires_cat basis ih member enough h touched there
        | rep => exact rewires_rep basis ih member enough h touched there
        | rule => exact rewires_rule basis ih member enough h touched there
        | thunk => exact rewires_thunk basis ih member enough h touched there
      · exact (Rewires.refl g).finish id none start

end Trim

/-! ## Culling a graph -/

/-- If edges lead to nodes, and every cycle passes through a nonterminal, then culling the graph
under a node answers. It rewires none but nodes that match something and that the node reaches. -/
theorem cull_rewires {L : Type} {g : Grammar L} {id : NodeId} (ranged : g.Ranged false)
    (stratified : g.Stratified) (lt : g.size > id) :
    ∃ result g', Grammar.cull id g = .ok (result, g') ∧
      Rewires (fun x => g.Productive x ∧ g.Reaches false id x) g g' := by
  obtain ⟨order, ordered, mem, closed⟩ := Grammar.settledOrder_ok ranged lt
  have counted (x : NodeId) (reaches : g.Reaches false id x) : x ∈ order :=
    closed.reaches mem reaches
  have basis : CullBasis (g.Reaches false id) order (g.productive order) g :=
    ⟨stratified, Grammar.closed_reaches ranged lt, counted, fun x reaches productive =>
      productive.live closed (counted x reaches)⟩
  have reached (x : NodeId) (reaches : g.Reaches false id x)
      (found : (g.productive order).contains x) :
      g.Productive x ∧ g.Reaches false id x := ⟨Grammar.productive_of_live found, reaches⟩
  obtain ⟨result, F', g', run, change⟩ :=
    cullNode_rewires basis reached _ id {} g (.refl id) (.start g)
    (cost_le order g g id)
  exact ⟨result, g', (Grammar.cull_iff ordered).mpr ⟨F', run⟩, change⟩

end DerivativeParsing
