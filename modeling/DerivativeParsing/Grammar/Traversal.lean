import DerivativeParsing.Grammar.Basic
import DerivativeParsing.NodeSet

/-!
# Walking a grammar graph

`Grammar.walk` goes through everything that a list of nodes depends on, depth first, meeting every
node once. It ends because each node that is met for the first time leaves one fewer to meet. From
it come the size of the live graph (`reachable`), the check that no nonterminal is without a body
(`validate`) and the nodes that match something (`productive`).
-/

namespace DerivativeParsing

/-- What a walk has still to do: meet a node, or finish one whose successors have all been met. -/
inductive Visit
  | enter (id : NodeId)
  | leave (id : NodeId)

/-- How far a walk has come, which keeps the nodes it has met in a set of type `σ`. -/
structure Traversal (σ : Type) where
  seen : σ
  /-- The nodes that are finished, the last one first. -/
  finished : List NodeId := []

namespace Grammar

variable {L σ : Type} [NodeSet σ]

/-- How many slots are not in a set. -/
def unseen (g : Grammar L) (seen : σ) : Nat :=
  (List.range g.size).countP fun id => !NodeSet.contains seen id

theorem countP_lt {p q : Nat → Bool} {a : Nat} :
    ∀ {l : List Nat}, a ∈ l → p a = true → q a = false → (∀ x, q x = true → p x = true) →
      l.countP q < l.countP p
  | [], ha, _, _, _ => absurd ha List.not_mem_nil
  | b :: l, ha, hp, hq, h => by
    have le : l.countP q ≤ l.countP p := List.countP_mono_left fun x _ => h x
    rcases List.mem_cons.mp ha with rfl | hl
    · simp only [List.countP_cons, hp, hq]
      simp; omega
    · have lt := countP_lt hl hp hq h
      simp only [List.countP_cons]
      by_cases hb : q b = true
      · simp [hb, h b hb]; omega
      · simp [hb]; omega

theorem unseen_insert (g : Grammar L) (seen : σ) (id : NodeId) (hid : id < g.size)
    (new : NodeSet.contains seen id = false) :
    g.unseen (NodeSet.insert seen id) < g.unseen seen := by
  unfold unseen
  refine countP_lt (List.mem_range.mpr hid) ?_ ?_ fun x hx => ?_
  · rw [new, Bool.not_false]
  · rw [NodeSet.contains_insert, beq_self_eq_true, Bool.true_or, Bool.not_true]
  · rw [NodeSet.contains_insert, Bool.not_eq_true', Bool.or_eq_false_iff] at hx
    rw [hx.2, Bool.not_false]

theorem length_successors (throughPending : Bool) (node : Node L) :
    (node.successors throughPending).length ≤ 2 := by
  cases node with
  | thunk t base =>
    obtain ⟨_, state⟩ := t
    cases state with
    | culled target => cases target <;> simp [Node.successors]
    | _ => cases throughPending <;> simp [Node.successors]
  | _ => simp [Node.successors]

/-- Puts nodes on top of the work of a walk, the last of them uppermost. -/
def stack (nodes : List NodeId) (work : List Visit) : List Visit :=
  nodes.foldl (fun work id => .enter id :: work) work

@[simp] theorem length_stack (nodes : List NodeId) (work : List Visit) :
    (stack nodes work).length = nodes.length + work.length := by
  induction nodes generalizing work with
  | nil => simp [stack]
  | cons id nodes ih =>
    have := ih (.enter id :: work)
    simp only [stack, List.foldl_cons, List.length_cons] at this ⊢
    omega

/-- Walks the graph, depth first and the last successor first. The walk stops with an error at the
first node that `refuse` refuses, or that has no slot. -/
@[specialize]
def walk (g : Grammar L) (throughPending : Bool) (refuse : Node L → Option Error) :
    List Visit → Traversal σ → Except Error (Traversal σ)
  | [], t => .ok t
  | .leave id :: work, t =>
    walk g throughPending refuse work { t with finished := id :: t.finished }
  | .enter id :: work, t =>
    if _ : NodeSet.contains t.seen id then walk g throughPending refuse work t
    else match _ : g.arena.get? id with
      | none => .error (.outOfRange id)
      | some node =>
        match refuse node with
        | some e => .error e
        | none =>
          walk g throughPending refuse (stack (node.successors throughPending) (.leave id :: work))
            { t with seen := NodeSet.insert t.seen id }
termination_by work t => 3 * g.unseen t.seen + work.length
decreasing_by
  · simp
  · simp
  · have there : g.arena.get? id = some node := ‹_›
    have new : ¬NodeSet.contains t.seen id = true := ‹_›
    have hid : id < g.size := (g.arena.isSome_get? id).mp (by simp [there])
    have lt := g.unseen_insert t.seen id hid (by simpa using new)
    have two := length_successors throughPending node
    simp only [length_stack, List.length_cons]
    omega

/-- Everything that `roots` depend on, themselves included. -/
def reach (g : Grammar L) (roots : List NodeId) : Except Error (Traversal Marks) :=
  g.walk true (fun _ => none) (stack roots []) { seen := Marks.none g.size }

/-- How many nodes a node can reach, itself included. -/
def reachable (g : Grammar L) (root : NodeId) : Except Error Nat :=
  (g.reach [root]).map fun t => t.finished.length

def refuseUndefined : Node L → Option Error
  | .undefined name => some (.undefined name)
  | _ => none

/-- Fails if a nonterminal without a body can be reached. -/
def validate (g : Grammar L) (start : NodeId) : Except Error Unit :=
  (g.walk true refuseUndefined [.enter start] { seen := Marks.none g.size }).map fun _ => ()

/-! ## Productive nodes -/

/-- Whether a node matches something, given the nodes `live` that are known to. A thunk that has
not been evaluated has the benefit of the doubt, and so has a nonterminal without a body. -/
def produces (live : Std.TreeSet NodeId) : Node L → Bool
  | .empty => false
  | .token kind => kind != Kind.void
  | .matched symbol => symbol.kind != Kind.void
  | .rep _ | .undefined _ => true
  | .alt left right => live.contains left || live.contains right
  | .cat left right => live.contains left && live.contains right
  | .rule _ body => live.contains body
  | .thunk thunk _ =>
    match thunk.state with
    | .pending | .running => true
    | .forced target => live.contains target
    | .culled target => target.any live.contains

/-- Whether the node in a slot is known to match something, given the nodes that are. -/
def shown (g : Grammar L) (live : Std.TreeSet NodeId) (id : NodeId) : Bool :=
  (g.arena.get? id).any (produces live)

/-- Goes through a list of nodes once, adding to `live` those that it shows to match something, and
answers the others, in their order, and the larger set. -/
def sweep (g : Grammar L) (order : List NodeId) (live : Std.TreeSet NodeId) :
    List NodeId × Std.TreeSet NodeId :=
  let (others, live) := order.foldl (fun (others, live) id =>
    if g.shown live id then (others, live.insert id) else (id :: others, live)) ([], live)
  (others.reverse, live)

/-- Sweeps until nothing is added. Each sweep goes only through what the one before left over. -/
def saturate (g : Grammar L) (order : List NodeId) (live : Std.TreeSet NodeId) :
    Std.TreeSet NodeId :=
  let (others, live) := g.sweep order live
  if others.length < order.length then saturate g others live else live
termination_by order.length

/-- The nodes under `root`, not counting what is only below unevaluated thunks, in an order in which
a node comes after its successors, cycles apart. They tend to be few in a large arena. -/
def settledOrder (g : Grammar L) (root : NodeId) : Except Error (List NodeId) :=
  (g.walk false (fun _ => none) [.enter root] { seen := (∅ : Std.TreeSet NodeId) }).map
    fun t => t.finished.reverse

/-- The nodes in `order` that match something: the least set that `produces` cannot enlarge. -/
def productive (g : Grammar L) (order : List NodeId) : Std.TreeSet NodeId :=
  g.saturate order {}

end Grammar

end DerivativeParsing
