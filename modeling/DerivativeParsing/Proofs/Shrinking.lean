import DerivativeParsing.Grammar.Cull
import DerivativeParsing.Grammar.Matches
import DerivativeParsing.Proofs.Walks

/-!
# How culling shrinks a graph

Culling leads edges past what matches nothing, and otherwise leaves the graph as it is.

1. The actions in the course of culling, `Grammar.trim` among them: how one node is culled.
2. `Node.Produces`: what is found to match something is the least that has it
   (`Grammar.Productive.least`).
3. `Grammar.Shrinks`: what may be left of a node. That is the node itself, or what is left of the
   one side of a choice that matches something, or of what a thunk was resolved to.
   `Grammar.Remains` adds that nothing is left of a node that matches nothing.
4. `Node.Shrunk`: a node whose edges lead to what is left of the nodes that they led to.
5. `cullNode_shrinks` and `cull_shrinks`: culling shrinks all nodes so, and answers what is left of
   one. All of this is in terms of the graph before, however far the culling has come.
-/

namespace DerivativeParsing

open Grammar (nothing lt_size_of_get?)

/-! ## Actions in the course of culling -/

namespace Culling

variable {L α β : Type} {F F' : Std.TreeMap NodeId (Option NodeId)} {g g' : Grammar L} {a : α}

/-- After an action that answers, the rest goes on with the answer. -/
theorem bind_of_ok {act : Culling L α} {k : α → Culling L β} (h : act F g = .ok ((a, F'), g')) :
    (act >>= k) F g = k a F' g' := by
  show (act F >>= fun p => k p.1 p.2) g = _
  rw [Action.bind_of_ok h]

theorem onGrammar_of_ok {act : Eval L α} (h : act g = .ok (a, g')) :
    onGrammar act F g = .ok ((a, F), g') := by
  show (act >>= fun a => pure (a, F)) g = _
  rw [Action.bind_of_ok h]
  rfl

theorem bind_ok {b : β} {act : Culling L α} {k : α → Culling L β} :
    (act >>= k) F g = .ok ((b, F'), g') ↔
      ∃ a F₁ g₁, act F g = .ok ((a, F₁), g₁) ∧ k a F₁ g₁ = .ok ((b, F'), g') := by
  show (act F >>= fun p => k p.1 p.2) g = _ ↔ _
  rw [Action.bind_ok]
  exact ⟨fun ⟨p, g₁, h, h'⟩ => ⟨p.1, p.2, g₁, h, h'⟩, fun ⟨a, F₁, g₁, h, h'⟩ =>
    ⟨(a, F₁), g₁, h, h'⟩⟩

theorem pure_ok {b : α} :
    (pure a : Culling L α) F g = .ok ((b, F'), g') ↔ a = b ∧ F = F' ∧ g = g' := by
  show Except.ok ((a, F), g) = .ok ((b, F'), g') ↔ _
  rw [Except.ok.injEq, Prod.mk.injEq, Prod.mk.injEq, and_assoc]

theorem run'_ok {act : Culling L α} :
    (act.run' F) g = .ok (a, g') ↔ ∃ F', act F g = .ok ((a, F'), g') := by
  show Except.bind (act F g) (fun p => .ok (p.1.1, p.2)) = _ ↔ _
  cases act F g with
  | error e => exact ⟨fun h => (by cases h), fun ⟨_, h⟩ => (by cases h)⟩
  | ok p =>
    obtain ⟨⟨b, F'⟩, g₁⟩ := p
    constructor
    · intro h
      cases h
      exact ⟨F', rfl⟩
    · rintro ⟨F', h⟩
      cases h
      rfl

/-- After an action on the grammar that answers, the rest goes on with the answer. -/
theorem onGrammar_bind {act : Eval L α} {k : α → Culling L β} (h : act g = .ok (a, g')) :
    (onGrammar act >>= k) F g = k a F g' :=
  bind_of_ok (onGrammar_of_ok h)

/-- What holds of what became of a node, and of the nodes that were finished before, holds when the
node is finished. -/
theorem forall_insert {P : NodeId → Option NodeId → Prop} {id : NodeId} {result : Option NodeId}
    (here : P id result) (before : ∀ (x : NodeId) r, F[x]? = some r → P x r) (x : NodeId)
    (r : Option NodeId) (done : (F.insert id result)[x]? = some r) : P x r := by
  rw [Std.TreeMap.getElem?_insert] at done
  split at done
  · rename_i same
    obtain rfl : id = x := Std.LawfulEqCmp.eq_of_compare same
    exact Option.some.inj done ▸ here
  · exact before x r done

end Culling

namespace Grammar

variable {L : Type} {g : Grammar L} {id : NodeId} {F : Std.TreeMap NodeId (Option NodeId)}

/-- After a node is revised, the rest goes on with the revised grammar. -/
theorem revise_bind {α : Type} {f : Node L → Node L} {k : Unit → Culling L α} :
    (Culling.onGrammar (revise id f) >>= k) F g = k () F (g.revised id f) :=
  Culling.onGrammar_bind (revise_ok.mpr rfl)

/-- After a node is replaced, the rest goes on with the grammar so revised. -/
theorem store_bind {α : Type} {node : Node L} {k : Unit → Culling L α} :
    (Culling.onGrammar (store id node) >>= k) F g = k () F (g.revised id fun _ => node) :=
  Culling.onGrammar_bind store_ok

/-- When a node is finished, what became of it is kept, and no node changes. -/
theorem finishCull_ok (id : NodeId) (result : Option NodeId) :
    ∃ g', finishCull id result F g = .ok ((result, F.insert id result), g') ∧ g'.arena = g.arena ∧
      g'.memo = g.memo := by
  unfold finishCull
  by_cases dead : result.isNone && id != nothing
  · refine ⟨{ g with stats := { g.stats with pruned := g.stats.pruned + 1 } }, ?_, rfl, rfl⟩
    rw [if_pos dead]
    rfl
  · refine ⟨g, ?_, rfl, rfl⟩
    rw [if_neg dead]
    rfl

end Grammar

namespace Grammar

open Culling (onGrammar)

variable {L : Type} {g : Grammar L} {id : NodeId} {F : Std.TreeMap NodeId (Option NodeId)}
  {live : Std.TreeSet NodeId} {fuel : Nat}

/-- What became of the finished nodes is looked up first. -/
theorem get_bind {α : Type} {k : Std.TreeMap NodeId (Option NodeId) → Culling L α} :
    (get >>= k : Culling L α) F g = k F F g := rfl

/-- Each level of culling leaves what it comes to to the level below. -/
theorem cullNode_succ (live : Std.TreeSet NodeId) (fuel : Nat) (id : NodeId) :
    cullNode (L := L) live (fuel + 1) id = cullBy live (cullNode live fuel) id := rfl

section CullBy

variable {visit : NodeId → Culling L (Option NodeId)}

theorem cullBy_finished {result : Option NodeId} (done : F[id]? = some result) :
    cullBy live visit id F g = .ok ((result, F), g) := by
  rw [cullBy, get_bind, done]
  rfl

theorem cullBy_new {node : Node L} (new : F[id]? = none) (there : g.arena.get? id = some node) :
    cullBy live visit id F g =
      (if live.contains id then trim visit id node else finishCull id none) F g := by
  rw [cullBy, get_bind, new]
  exact Culling.onGrammar_bind (fetch_ok.mpr ⟨there, rfl⟩)

end CullBy

theorem cullNode_finished {result : Option NodeId} (done : F[id]? = some result) :
    cullNode live (fuel + 1) id F g = .ok ((result, F), g) := by
  rw [cullNode_succ, cullBy_finished done]

theorem cullNode_new {node : Node L} (new : F[id]? = none) (there : g.arena.get? id = some node) :
    cullNode live (fuel + 1) id F g =
      (if live.contains id then trim (cullNode live fuel) id node else finishCull id none) F g := by
  rw [cullNode_succ, cullBy_new new there]

theorem exists_of_cullNode {result : Option NodeId} {F' : Std.TreeMap NodeId (Option NodeId)}
    {g' : Grammar L} (new : F[id]? = none)
    (run : cullNode live (fuel + 1) id F g = .ok ((result, F'), g')) :
    ∃ node, g.arena.get? id = some node := by
  rw [cullNode_succ, cullBy, get_bind, new] at run
  obtain ⟨_, _, _, fetched, -⟩ := Culling.bind_ok.mp run
  obtain ⟨node, _, fetched, -⟩ := Action.bind_ok.mp
    (show (fetch id >>= fun node => pure (node, F)) g = _ from fetched)
  exact ⟨node, (fetch_ok.mp fetched).1⟩

end Grammar


/-! ## What matches something -/

/-- Whether a node matches something, given which nodes do. -/
def Node.Produces {L : Type} (P : NodeId → Prop) : Node L → Prop
  | .empty => False
  | .token kind => kind ≠ Kind.void
  | .matched symbol => symbol.kind ≠ Kind.void
  | .rep _ | .undefined _ => True
  | .alt left right => P left ∨ P right
  | .cat left right => P left ∧ P right
  | .rule _ body => P body
  | .thunk t _ => t.state.isWaiting ∨ ∃ target, t.resolved? = some target ∧ P target

theorem Node.Produces.mono {L : Type} {P Q : NodeId → Prop} {node : Node L} (h : node.Produces P)
    (sub : ∀ x, P x → Q x) : node.Produces Q := by
  cases node with
  | empty | token | matched | rep | undefined => exact h
  | alt left right => exact h.imp (sub left) (sub right)
  | cat left right => exact ⟨sub left h.1, sub right h.2⟩
  | rule r body => exact sub body h
  | thunk t base =>
    exact h.imp_right fun ⟨target, resolved, hp⟩ => ⟨target, resolved, sub target hp⟩

namespace Grammar

variable {L : Type} {g₀ g g' : Grammar L} {id x y z left right base target : NodeId} {t : Thunk L}
  {result : Option NodeId} {order : List NodeId} {P : NodeId → Prop}

theorem productive_iff {node : Node L} (there : g.arena.get? id = some node) :
    g.Productive id ↔ node.Produces g.Productive := by
  constructor
  · intro h
    cases h with
    | token there' kind => cases there.symm.trans there'; exact kind
    | matched there' kind => cases there.symm.trans there'; exact kind
    | undefined there' | rep there' => cases there.symm.trans there'; trivial
    | alt_left there' h => cases there.symm.trans there'; exact .inl h
    | alt_right there' h => cases there.symm.trans there'; exact .inr h
    | cat there' hl hr => cases there.symm.trans there'; exact ⟨hl, hr⟩
    | rule there' h => cases there.symm.trans there'; exact h
    | resolved there' resolved h => cases there.symm.trans there'; exact .inr ⟨_, resolved, h⟩
    | waiting there' waiting => cases there.symm.trans there'; exact .inl waiting
  · intro h
    cases node with
    | empty => exact h.elim
    | token => exact .token there h
    | matched => exact .matched there h
    | alt => exact h.elim (.alt_left there) (.alt_right there)
    | cat => exact .cat there h.1 h.2
    | rep => exact .rep there
    | rule => exact .rule there h
    | thunk =>
      rcases h with waiting | ⟨target, resolved, h⟩
      · exact .waiting there waiting
      · exact .resolved there resolved h
    | undefined => exact .undefined there

/-- What a clause of productivity keeps holds of every node that matches something. -/
theorem Productive.least
    (step : ∀ x node, g.arena.get? x = some node → g.Productive x → node.Produces P → P x)
    (h : g.Productive x) : P x := by
  induction h with
  | token there kind => exact step _ _ there (.token there kind) kind
  | matched there kind => exact step _ _ there (.matched there kind) kind
  | undefined there => exact step _ _ there (.undefined there) trivial
  | alt_left there h ih => exact step _ _ there (.alt_left there h) (.inl ih)
  | alt_right there h ih => exact step _ _ there (.alt_right there h) (.inr ih)
  | cat there hl hr ihl ihr => exact step _ _ there (.cat there hl hr) ⟨ihl, ihr⟩
  | rep there => exact step _ _ there (.rep there) trivial
  | rule there h ih => exact step _ _ there (.rule there h) ih
  | resolved there resolved h ih =>
    exact step _ _ there (.resolved there resolved h) (.inr ⟨_, resolved, ih⟩)
  | waiting there waiting => exact step _ _ there (.waiting there waiting) (.inl waiting)

theorem Productive.of_eq (h : g'.Productive x) (arena : g'.arena = g.arena) : g.Productive x :=
  h.least fun _ _ there _ shows => (productive_iff (arena ▸ there)).mpr shows

theorem produces_iff {live : Std.TreeSet NodeId} {node : Node L} :
    produces live node ↔ node.Produces (live.contains ·) := by
  cases node with
  | thunk t base =>
    obtain ⟨s, state⟩ := t
    rcases state with _ | _ | target | _ | target <;>
      simp [produces, Node.Produces, ThunkState.isWaiting, Thunk.resolved?]
  | _ => simp [produces, Node.Produces]

theorem mem_successors_of_resolved (resolved : t.resolved? = some target) :
    target ∈ (Node.thunk t base).successors false := by
  obtain ⟨s, state⟩ := t
  rcases state with _ | _ | next | next
  · cases resolved
  · cases resolved
  · cases resolved
    exact .head _
  · cases resolved
    exact .head _

theorem not_waiting_of_resolved (resolved : t.resolved? = some target) : ¬t.state.isWaiting := by
  obtain ⟨s, state⟩ := t
  cases state with
  | pending | running => cases resolved
  | forced | culled => exact nofun

/-- What matches something is found to. -/
theorem Productive.live (h : g.Productive x) (closed : g.Closed false (· ∈ order))
    (mem : x ∈ order) : (g.productive order).contains x := by
  have step {x : Nat} {node : Node L} (mem : x ∈ order) (there : g.arena.get? x = some node)
      (shows : node.Produces ((g.productive order).contains ·)) :
      (g.productive order).contains x := by
    refine productive_closed mem ?_
    rw [Grammar.shown, there]
    exact produces_iff.mpr shows
  have part {x y : Nat} {node : Node L} (mem : x ∈ order) (there : g.arena.get? x = some node)
      (member : y ∈ node.successors false) : y ∈ order := closed.successors _ _ mem there y member
  induction h with
  | token there kind | matched there kind => exact step mem there kind
  | undefined there | rep there => exact step mem there trivial
  | alt_left there _ ih => exact step mem there (.inl (ih (part mem there (.head _))))
  | alt_right there _ ih => exact step mem there (.inr (ih (part mem there (.tail _ (.head _)))))
  | cat there _ _ ihl ihr =>
    exact step mem there ⟨ihl (part mem there (.head _)), ihr (part mem there (.tail _ (.head _)))⟩
  | rule there _ ih => exact step mem there (ih (part mem there (.head _)))
  | resolved there resolved _ ih =>
    exact step mem there
      (.inr ⟨_, resolved, ih (part mem there (mem_successors_of_resolved resolved))⟩)
  | waiting there waiting => exact step mem there (.inl waiting)

/-- What is found to match something does. -/
theorem productive_of_live (live : (g.productive order).contains x) : g.Productive x := by
  refine productive_mem (P := g.Productive) (fun live x ih shown => ?_) live
  rw [Grammar.shown] at shown
  obtain ⟨node, there, produces⟩ := (Option.any_eq_true _ _).mp shown
  exact (productive_iff there).mpr ((produces_iff.mp produces).mono ih)

/-! ## What is left of a node -/

/-- One node may be left of another. -/
inductive Shrinks (g : Grammar L) : NodeId → NodeId → Prop
  | refl (id : NodeId) : Shrinks g id id
  | alt_left {id left right next : NodeId} :
    g.arena.get? id = some (.alt left right) → ¬g.Productive right → Shrinks g left next →
      Shrinks g id next
  | alt_right {id left right next : NodeId} :
    g.arena.get? id = some (.alt left right) → ¬g.Productive left → Shrinks g right next →
      Shrinks g id next
  | resolved {id base target next : NodeId} {t : Thunk L} :
    g.arena.get? id = some (.thunk t base) → t.resolved? = some target → Shrinks g target next →
      Shrinks g id next

/-- What is left of a node: another, or nothing if it matches nothing. -/
def Remains (g : Grammar L) (id : NodeId) : Option NodeId → Prop
  | none => ¬g.Productive id
  | some next => g.Shrinks id next

theorem remains_self (id : NodeId) : g.Remains id (some id) := .refl (g := g) id

theorem Shrinks.trans (h : g.Shrinks x y) (h' : g.Shrinks y z) : g.Shrinks x z := by
  induction h with
  | refl => exact h'
  | alt_left there dead _ ih => exact .alt_left there dead (ih h')
  | alt_right there dead _ ih => exact .alt_right there dead (ih h')
  | resolved there resolved _ ih => exact .resolved there resolved (ih h')

/-- What is left of a node matches something if the node does. -/
theorem Shrinks.productive_iff (h : g.Shrinks x y) : g.Productive x ↔ g.Productive y := by
  induction h with
  | refl => rfl
  | alt_left there dead _ ih =>
    rw [Grammar.productive_iff there, ← ih]
    exact or_iff_left dead
  | alt_right there dead _ ih =>
    rw [Grammar.productive_iff there, ← ih]
    exact or_iff_right dead
  | @resolved id base target next t there resolved _ ih =>
    rw [Grammar.productive_iff there, ← ih]
    constructor
    · rintro (waiting | ⟨target', resolved', h⟩)
      · exact absurd waiting (not_waiting_of_resolved resolved)
      · cases resolved.symm.trans resolved'
        exact h
    · exact fun h => .inr ⟨target, resolved, h⟩

theorem Shrinks.closed (h : g.Shrinks x y) (closed : g.Closed false P) (hx : P x) : P y := by
  induction h with
  | refl => exact hx
  | alt_left there _ _ ih => exact ih (closed.successors _ _ hx there _ (.head _))
  | alt_right there _ _ ih => exact ih (closed.successors _ _ hx there _ (.tail _ (.head _)))
  | resolved there resolved _ ih =>
    exact ih (closed.successors _ _ hx there _ (mem_successors_of_resolved resolved))

theorem Shrinks.remains (h : g.Shrinks x y) (h' : g.Remains y result) : g.Remains x result := by
  cases result with
  | none => exact fun hx => h' (h.productive_iff.mp hx)
  | some => exact h.trans h'

theorem remains_of_resolved (there : g.arena.get? id = some (.thunk t base))
    (resolved : t.resolved? = some target) (h : g.Remains target result) : g.Remains id result :=
  (Shrinks.resolved there resolved (.refl target)).remains h

end Grammar

/-! ## Shrunk nodes -/

/-- A node whose edges lead to what is left of the nodes that they led to in `g`. What belongs to a
rule besides its body is left open. -/
inductive Node.Shrunk {L : Type} (g : Grammar L) : Node L → Node L → Prop
  | same (node : Node L) : Shrunk g node node
  | alt {l l' r r' : NodeId} : g.Shrinks l l' → g.Shrinks r r' → Shrunk g (.alt l r) (.alt l' r')
  | cat {l l' r r' : NodeId} : g.Shrinks l l' → g.Shrinks r r' → Shrunk g (.cat l r) (.cat l' r')
  | rep {b : NodeId} {result : Option NodeId} :
    g.Remains b result → Shrunk g (.rep b) (.rep (result.getD nothing))
  | rule {r r' : Rule} {b b' : NodeId} : g.Shrinks b b' → Shrunk g (.rule r b) (.rule r' b')
  | thunk {t : Thunk L} {base target : NodeId} {result : Option NodeId} :
    t.resolved? = some target → g.Remains target result →
      Shrunk g (.thunk t base) (.thunk { t with state := .culled result } base)

namespace Node

variable {L : Type} {g : Grammar L} {node : Node L} {l r b base target : NodeId} {rule : Rule}
  {s : Symbol L} {result : Option NodeId}

theorem shrunk_alt (h : node.Shrunk g (.alt l r)) :
    ∃ l₀ r₀, node = .alt l₀ r₀ ∧ g.Shrinks l₀ l ∧ g.Shrinks r₀ r := by
  cases h with
  | same => exact ⟨l, r, rfl, .refl l, .refl r⟩
  | alt hl hr => exact ⟨_, _, rfl, hl, hr⟩

theorem shrunk_cat (h : node.Shrunk g (.cat l r)) :
    ∃ l₀ r₀, node = .cat l₀ r₀ ∧ g.Shrinks l₀ l ∧ g.Shrinks r₀ r := by
  cases h with
  | same => exact ⟨l, r, rfl, .refl l, .refl r⟩
  | cat hl hr => exact ⟨_, _, rfl, hl, hr⟩

theorem shrunk_rep (h : node.Shrunk g (.rep b)) :
    ∃ b₀ result, node = .rep b₀ ∧ g.Remains b₀ result ∧ result.getD nothing = b := by
  generalize shape : Node.rep b = node' at h
  cases h with
  | same => exact ⟨b, some b, shape.symm, .refl b, rfl⟩
  | rep hb =>
    cases shape
    exact ⟨_, _, rfl, hb, rfl⟩
  | alt | cat | rule | thunk => cases shape

theorem shrunk_rule (h : node.Shrunk g (.rule rule b)) :
    ∃ rule₀ b₀, node = .rule rule₀ b₀ ∧ g.Shrinks b₀ b := by
  cases h with
  | same => exact ⟨rule, b, rfl, .refl b⟩
  | rule hb => exact ⟨_, _, rfl, hb⟩

theorem shrunk_forced (h : node.Shrunk g (.thunk ⟨s, .forced target⟩ base)) :
    node = .thunk ⟨s, .forced target⟩ base := by
  cases h
  rfl

end Node

/-- In a graph that was shrunk, nothing matches something that did not. -/
theorem Grammar.Productive.of_shrunk {L : Type} {g g' : Grammar L} {x : NodeId}
    (h : g'.Productive x)
    (back : ∀ (x : Nat) node', g'.arena.get? x = some node' →
      ∃ node, g.arena.get? x = some node ∧ node.Shrunk g node') : g.Productive x := by
  refine h.least fun x node' there' _ shows => ?_
  obtain ⟨node, there, shrunk⟩ := back x node' there'
  refine (productive_iff there).mpr ?_
  cases shrunk with
  | same => exact shows
  | alt hl hr => exact shows.imp hl.productive_iff.mpr hr.productive_iff.mpr
  | cat hl hr => exact ⟨hl.productive_iff.mpr shows.1, hr.productive_iff.mpr shows.2⟩
  | rep => trivial
  | rule hb => exact hb.productive_iff.mpr shows
  | @thunk t base target result resolved remains =>
    rcases shows with waiting | ⟨target', resolved', shows⟩
    · cases waiting
    · cases resolved'
      exact .inr ⟨target, resolved, remains.productive_iff.mpr shows⟩

/-! ## In the course of culling -/

/-- What holds in the course of culling: the nodes have been shrunk, and for those that are finished
it is known what is left of them. -/
structure Shrinking {L : Type} (g₀ : Grammar L) (F : Std.TreeMap NodeId (Option NodeId))
    (g : Grammar L) : Prop where
  node : ∀ (id : Nat) node₀, g₀.arena.get? id = some node₀ →
    ∃ node, g.arena.get? id = some node ∧ node₀.Shrunk g₀ node
  size : g.size = g₀.size
  results : ∀ (id : Nat) result, F[id]? = some result → g₀.Remains id result

section Shrinking

variable {L : Type} {g₀ g g' : Grammar L} {F F' : Std.TreeMap NodeId (Option NodeId)} {id : NodeId}
  {result : Option NodeId} {node : Node L} {live : Std.TreeSet NodeId} {fuel : Nat}
  {P : NodeId → Prop}

namespace Shrinking

theorem get?_back (h : Shrinking g₀ F g) (there : g.arena.get? id = some node) :
    ∃ node₀, g₀.arena.get? id = some node₀ ∧ node₀.Shrunk g₀ node := by
  obtain ⟨node₀, there₀⟩ := Grammar.exists_get? (h.size ▸ lt_size_of_get? there)
  obtain ⟨node', there', shrunk⟩ := h.node id node₀ there₀
  cases there.symm.trans there'
  exact ⟨node₀, there₀, shrunk⟩

theorem of_eq (h : Shrinking g₀ F g) (arena : g'.arena = g.arena) : Shrinking g₀ F g' where
  node id node₀ there := by
    rw [arena]
    exact h.node id node₀ there
  size := (congrArg Arena.size arena).trans h.size
  results := h.results

theorem revised (h : Shrinking g₀ F g) {f : Node L → Node L}
    (step : ∀ node₀ node, g₀.arena.get? id = some node₀ → node₀.Shrunk g₀ node →
      node₀.Shrunk g₀ (f node)) :
    Shrinking g₀ F (g.revised id f) where
  node i node₀ there₀ := by
    obtain ⟨node, there, shrunk⟩ := h.node i node₀ there₀
    rw [Grammar.get?_revised, there]
    by_cases same : id = i
    · subst same
      exact ⟨f node, if_pos rfl, step node₀ node there₀ shrunk⟩
    · exact ⟨node, if_neg same, shrunk⟩
  size := (Grammar.size_revised _ _ _).trans h.size
  results := h.results

theorem finish (h : Shrinking g₀ F g) (remains : g₀.Remains id result) {r : Option NodeId}
    (run : Grammar.finishCull id result F g = .ok ((r, F'), g')) :
    Shrinking g₀ F' g' ∧ g₀.Remains id r := by
  obtain ⟨g₁, run', arena, -⟩ := Grammar.finishCull_ok (F := F) (g := g) id result
  cases run'.symm.trans run
  exact ⟨⟨(h.of_eq arena).node, (h.of_eq arena).size, Culling.forall_insert remains h.results⟩,
    remains⟩

theorem finish_none (h : Shrinking g₀ F g) (dead : ¬g₀.Productive id) {r : Option NodeId}
    (run : Grammar.finishCull id none F g = .ok ((r, F'), g')) :
    Shrinking g₀ F' g' ∧ g₀.Remains id r := by
  refine h.finish ?_ run
  exact dead

end Shrinking

section

variable {r₀ : Rule} {b₀ base target : NodeId} {t : Thunk L}

/-- That a rule is being culled belongs to the rule only. -/
theorem Shrinking.marked (h : Shrinking g₀ F g) (there₀ : g₀.arena.get? id = some (.rule r₀ b₀))
    (busy : Bool) : Shrinking g₀ F (g.revised id (.mapRule ({ · with busy }))) := by
  refine h.revised fun node₀ node there shrunk => ?_
  cases there₀.symm.trans there
  cases shrunk with
  | same => exact .rule (.refl b₀)
  | rule hb => exact .rule hb

/-- A thunk is set to what may be left of its resolution. -/
theorem Shrinking.culled (h : Shrinking g₀ F g) (there₀ : g₀.arena.get? id = some (.thunk t base))
    (resolved : t.resolved? = some target) (remains : g₀.Remains target result) :
    Shrinking g₀ F (g.revised id (.setState (.culled result))) := by
  refine h.revised fun node₀ node there shrunk => ?_
  cases there₀.symm.trans there
  cases shrunk with
  | same => exact .thunk resolved remains
  | thunk => exact .thunk resolved remains

end

/-- Culling with so much fuel shrinks, and answers what is left. -/
def CullShrinks {L : Type} (g₀ : Grammar L) (P : NodeId → Prop) (live : Std.TreeSet NodeId)
    (fuel : Nat) : Prop :=
  ∀ (id : NodeId) F g r F' g', P id → Shrinking g₀ F g →
    Grammar.cullNode live fuel id F g = .ok ((r, F'), g') → Shrinking g₀ F' g' ∧ g₀.Remains id r

section Trim

variable (ih : CullShrinks g₀ P live fuel) (closed : g₀.Closed false P) (h : Shrinking g₀ F g)
  (member : P id)
include ih closed h member

theorem shrinks_alt {left right : NodeId} (there : g.arena.get? id = some (.alt left right))
    (run : Grammar.trim (Grammar.cullNode live fuel) id (.alt left right) F g =
      .ok ((result, F'), g')) :
    Shrinking g₀ F' g' ∧ g₀.Remains id result := by
  obtain ⟨_, there₀, shrunk⟩ := h.get?_back there
  obtain ⟨l₀, r₀, rfl, hl, hr⟩ := Node.shrunk_alt shrunk
  have inl : P left := hl.closed closed (closed.successors _ _ member there₀ _ (.head _))
  have inr : P right := hr.closed closed (closed.successors _ _ member there₀ _ (.tail _ (.head _)))
  rw [Grammar.trim] at run
  obtain ⟨l, F₁, g₁, run₁, run⟩ := Culling.bind_ok.mp run
  obtain ⟨h₁, remains_l⟩ := ih left F g l F₁ g₁ inl h run₁
  obtain ⟨r, F₂, g₂, run₂, run⟩ := Culling.bind_ok.mp run
  obtain ⟨h₂, remains_r⟩ := ih right F₁ g₁ r F₂ g₂ inr h₁ run₂
  have remains_l := hl.remains remains_l
  have remains_r := hr.remains remains_r
  cases l with
  | none =>
    refine h₂.finish ?_ run
    cases r with
    | none => exact fun live => ((Grammar.productive_iff there₀).mp live).elim remains_l remains_r
    | some r => exact .alt_right there₀ remains_l remains_r
  | some l =>
    cases r with
    | none =>
      refine h₂.finish ?_ run
      exact .alt_left there₀ remains_r remains_l
    | some r =>
      have run := Grammar.store_bind.symm.trans run
      refine (h₂.revised fun node₀ node there _ => ?_).finish (Grammar.remains_self id) run
      cases there₀.symm.trans there
      exact .alt remains_l remains_r

theorem shrinks_cat {left right : NodeId} (there : g.arena.get? id = some (.cat left right))
    (run : Grammar.trim (Grammar.cullNode live fuel) id (.cat left right) F g =
      .ok ((result, F'), g')) :
    Shrinking g₀ F' g' ∧ g₀.Remains id result := by
  obtain ⟨_, there₀, shrunk⟩ := h.get?_back there
  obtain ⟨l₀, r₀, rfl, hl, hr⟩ := Node.shrunk_cat shrunk
  have inl : P left := hl.closed closed (closed.successors _ _ member there₀ _ (.head _))
  have inr : P right := hr.closed closed (closed.successors _ _ member there₀ _ (.tail _ (.head _)))
  rw [Grammar.trim] at run
  obtain ⟨l, F₁, g₁, run₁, run⟩ := Culling.bind_ok.mp run
  obtain ⟨h₁, remains_l⟩ := ih left F g l F₁ g₁ inl h run₁
  have remains_l := hl.remains remains_l
  cases l with
  | none =>
    exact h₁.finish_none (fun live => remains_l ((Grammar.productive_iff there₀).mp live).1) run
  | some l =>
    obtain ⟨r, F₂, g₂, run₂, run⟩ := Culling.bind_ok.mp run
    obtain ⟨h₂, remains_r⟩ := ih right F₁ g₁ r F₂ g₂ inr h₁ run₂
    have remains_r := hr.remains remains_r
    cases r with
    | none =>
      exact h₂.finish_none (fun live => remains_r ((Grammar.productive_iff there₀).mp live).2) run
    | some r =>
      have run := Grammar.store_bind.symm.trans run
      refine (h₂.revised fun node₀ node there _ => ?_).finish (Grammar.remains_self id) run
      cases there₀.symm.trans there
      exact .cat remains_l remains_r

theorem shrinks_rep {body : NodeId} (there : g.arena.get? id = some (.rep body))
    (run : Grammar.trim (Grammar.cullNode live fuel) id (.rep body) F g = .ok ((result, F'), g')) :
    Shrinking g₀ F' g' ∧ g₀.Remains id result := by
  rw [Grammar.trim] at run
  by_cases dead : body = nothing
  · rw [if_neg (by simpa using dead)] at run
    exact h.finish (Grammar.remains_self id) run
  · rw [if_pos (by simpa using dead)] at run
    obtain ⟨_, there₀, shrunk⟩ := h.get?_back there
    obtain ⟨b₀, next, rfl, hb, rfl⟩ := Node.shrunk_rep shrunk
    cases next with
    | none => exact absurd rfl dead
    | some body =>
      have inb : P body :=
        Grammar.Shrinks.closed hb closed (closed.successors _ _ member there₀ _ (.head _))
      obtain ⟨b, F₁, g₁, run₁, run⟩ := Culling.bind_ok.mp run
      obtain ⟨h₁, remains⟩ := ih body F g b F₁ g₁ inb h run₁
      have run := Grammar.store_bind.symm.trans run
      refine (h₁.revised fun node₀ node there _ => ?_).finish (Grammar.remains_self id) run
      cases there₀.symm.trans there
      exact .rep (Grammar.Shrinks.remains hb remains)

theorem shrinks_rule {r : Rule} {body : NodeId} (there : g.arena.get? id = some (.rule r body))
    (run : Grammar.trim (Grammar.cullNode live fuel) id (.rule r body) F g =
      .ok ((result, F'), g')) :
    Shrinking g₀ F' g' ∧ g₀.Remains id result := by
  rw [Grammar.trim] at run
  by_cases busy : r.busy = true
  · rw [if_pos busy] at run
    obtain ⟨rfl, rfl, rfl⟩ := Culling.pure_ok.mp run
    exact ⟨h, .refl id⟩
  · rw [if_neg busy] at run
    obtain ⟨_, there₀, shrunk⟩ := h.get?_back there
    obtain ⟨r₀, b₀, rfl, hb⟩ := Node.shrunk_rule shrunk
    have inb : P body := hb.closed closed (closed.successors _ _ member there₀ _ (.head _))
    have run := Grammar.revise_bind.symm.trans run
    obtain ⟨b, F₁, g₁, run₁, run⟩ := Culling.bind_ok.mp run
    obtain ⟨h₁, remains⟩ := ih body F _ b F₁ g₁ inb (h.marked there₀ true) run₁
    have remains := hb.remains remains
    have run := Grammar.revise_bind.symm.trans run
    have h₂ := h₁.marked there₀ false
    cases b with
    | none =>
      exact h₂.finish_none (fun live => remains ((Grammar.productive_iff there₀).mp live)) run
    | some b =>
      have run := Grammar.revise_bind.symm.trans run
      refine (h₂.revised fun node₀ node there shrunk => ?_).finish (Grammar.remains_self id) run
      cases there₀.symm.trans there
      cases shrunk with
      | same => exact .rule remains
      | rule => exact .rule remains

theorem shrinks_thunk {t : Thunk L} {base : NodeId} (there : g.arena.get? id = some (.thunk t base))
    (run : Grammar.trim (Grammar.cullNode live fuel) id (.thunk t base) F g =
      .ok ((result, F'), g')) :
    Shrinking g₀ F' g' ∧ g₀.Remains id result := by
  obtain ⟨s, state⟩ := t
  rw [Grammar.trim] at run
  obtain ⟨_, there₀, shrunk⟩ := h.get?_back there
  cases state with
  | pending | running => exact h.finish (Grammar.remains_self id) run
  | culled target =>
    refine h.finish ?_ run
    cases shrunk with
    | same =>
      cases target with
      | none =>
        intro live
        rcases (Grammar.productive_iff there₀).mp live with waiting | ⟨_, resolved, -⟩
        · cases waiting
        · cases resolved
      | some target => exact .resolved there₀ rfl (.refl target)
    | thunk resolved remains => exact Grammar.remains_of_resolved there₀ resolved remains
  | forced target =>
    cases Node.shrunk_forced shrunk
    have inside : P target := closed.successors _ _ member there₀ _ (.head _)
    -- the thunk is set twice, each time to what may be left of its resolution
    have run := Grammar.revise_bind.symm.trans run
    obtain ⟨b, F₁, g₁, run₁, run⟩ := Culling.bind_ok.mp run
    obtain ⟨h₁, remains⟩ := ih target F _ b F₁ g₁ inside
      (h.culled there₀ rfl (Grammar.remains_self target)) run₁
    have run := Grammar.revise_bind.symm.trans run
    exact (h₁.culled there₀ rfl remains).finish (Grammar.remains_of_resolved there₀ rfl remains) run

end Trim

/-- By induction on the fuel: culling a node shrinks the graph, and answers what is left of the
node. -/
theorem cullNode_shrinks (closed : g₀.Closed false P)
    (alive : ∀ x, P x → g₀.Productive x → live.contains x) (fuel : Nat) :
    CullShrinks g₀ P live fuel := by
  induction fuel with
  | zero => exact fun _ _ _ _ _ _ _ _ run => by cases run
  | succ fuel ih =>
    intro id F g r F' g' member h run
    cases done : F[id]? with
    | some result =>
      cases (Grammar.cullNode_finished done).symm.trans run
      exact ⟨h, h.results id r done⟩
    | none =>
      obtain ⟨node, there⟩ := Grammar.exists_get? (h.size ▸ closed.range id member)
      rw [Grammar.cullNode_new done there] at run
      split at run
      · cases node with
        | empty =>
          obtain ⟨_, there₀, shrunk⟩ := h.get?_back there
          cases shrunk
          exact h.finish_none (Grammar.productive_iff there₀).mp run
        | token | matched | undefined => exact h.finish (Grammar.remains_self id) run
        | alt => exact shrinks_alt ih closed h member there run
        | cat => exact shrinks_cat ih closed h member there run
        | rep => exact shrinks_rep ih closed h member there run
        | rule => exact shrinks_rule ih closed h member there run
        | thunk => exact shrinks_thunk ih closed h member there run
      · rename_i dead
        exact h.finish_none (fun live => dead (alive id member live)) run

/-- Culling the graph under a node goes on from the node, once it is known what matches
something. -/
theorem Grammar.cullUnder_iff
    {visit : Std.TreeSet NodeId → Nat → NodeId → Culling L (Option NodeId)} {order : List NodeId}
    (ordered : g.settledOrder id = .ok order) :
    Grammar.cullUnder visit id g = .ok (result, g') ↔ ∃ F', visit (g.productive order)
      ((order.length + 1) * (order.length + 1)) id {} g = .ok ((result, F'), g') := by
  unfold Grammar.cullUnder
  rw [Action.bind_of_ok (Action.get_ok.mpr ⟨rfl, rfl⟩),
    Action.bind_of_ok (Action.lift_ok.mpr ⟨ordered, rfl⟩)]
  exact Culling.run'_ok

theorem Grammar.cull_iff {order : List NodeId} (ordered : g.settledOrder id = .ok order) :
    Grammar.cull id g = .ok (result, g') ↔ ∃ F', Grammar.cullNode (g.productive order)
      ((order.length + 1) * (order.length + 1)) id {} g = .ok ((result, F'), g') :=
  cullUnder_iff ordered

theorem Grammar.lt_size_of_cull (run : Grammar.cull id g = .ok (result, g')) : id < g.size := by
  obtain ⟨_, _, get, run⟩ := Action.bind_ok.mp run
  obtain ⟨rfl, rfl⟩ := Action.get_ok.mp get
  obtain ⟨order, _, lift, -⟩ := Action.bind_ok.mp run
  exact lt_size_of_settledOrder (Action.lift_ok.mp lift).1

theorem Shrinking.start (g : Grammar L) : Shrinking g {} g :=
  ⟨fun _ node there => ⟨node, there, .same node⟩, rfl, fun x r hr => by simp at hr⟩

/-- Culling the graph under a node shrinks the graph, and answers what is left of the node. -/
theorem cull_shrinks (ranged : g.Ranged false) (lt : g.size > id)
    (run : Grammar.cull id g = .ok (result, g')) : Shrinking g {} g' ∧ g.Remains id result := by
  obtain ⟨order, ordered, mem, closed⟩ := Grammar.settledOrder_ok ranged lt
  obtain ⟨F', culled⟩ := (Grammar.cull_iff ordered).mp run
  obtain ⟨h, remains⟩ :=
    cullNode_shrinks closed (fun x hx live => live.live closed hx) _ id {} g _ F' _ mem
      (.start g) culled
  exact ⟨⟨h.node, h.size, fun x r hr => by simp at hr⟩, remains⟩

end Shrinking

end DerivativeParsing
