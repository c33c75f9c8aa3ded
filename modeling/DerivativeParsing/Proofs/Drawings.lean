import DerivativeParsing.Grammar.Dot
import DerivativeParsing.Proofs.Describing
import DerivativeParsing.Proofs.Relocation
import DerivativeParsing.Proofs.Verdicts

/-!
# What a drawing shows

1. `Drawing.Records`: a drawing has placed a list of nodes, in its order, and drawn a list of edges
   between them.
2. `Goes`: a drawing has gone on with more nodes, and with the edges that leave these.
3. `drawNode_goes`: drawing a node goes on with nodes that it reaches.
4. `drawn_reachable`: after any operations the drawing of a node is the graph that the node reaches,
   and that drawing is what is printed.
-/

namespace DerivativeParsing

/-! ## Nodes and edges -/

namespace Grammar

variable {L : Type}

/-- The nodes that a node depends on, from left to right. -/
def dependencies (g : Grammar L) (x : NodeId) : List NodeId :=
  ((g.arena.get? x).map (Node.successors true)).getD []

/-- The edges that leave some nodes. -/
def links (g : Grammar L) (nodes : List NodeId) : List (NodeId × NodeId) :=
  nodes.flatMap fun x => (g.dependencies x).map (x, ·)

def caption [Lexeme L] (g : Grammar L) (x : NodeId) : String :=
  ((g.arena.get? x).map (nodeLabel x)).getD ""

variable {g : Grammar L} {x y : NodeId} {node : Node L} {nodes more : List NodeId}

theorem dependencies_eq (there : g.arena.get? x = some node) :
    g.dependencies x = node.successors true := by
  rw [dependencies, there]
  rfl

theorem caption_eq [Lexeme L] (there : g.arena.get? x = some node) :
    g.caption x = nodeLabel x node := by
  rw [caption, there]
  rfl

theorem mem_links : (x, y) ∈ g.links nodes ↔ x ∈ nodes ∧ y ∈ g.dependencies x := by
  unfold links
  rw [List.mem_flatMap]
  constructor
  · rintro ⟨z, member, linked⟩
    obtain ⟨y', depends, eq⟩ := List.mem_map.mp linked
    cases eq
    exact ⟨member, depends⟩
  · rintro ⟨member, depends⟩
    exact ⟨x, member, List.mem_map.mpr ⟨y, depends, rfl⟩⟩

theorem links_append : g.links (nodes ++ more) = g.links nodes ++ g.links more :=
  List.flatMap_append

theorem links_cons : g.links (x :: more) = (g.dependencies x).map (x, ·) ++ g.links more :=
  List.flatMap_cons

/-- A drawing puts below a node what the node depends on, as long as no thunk is kept as dead. -/
theorem drawnBelow_eq (unculled : node.Unculled) : drawnBelow node = node.successors true := by
  cases node with
  | thunk t base =>
    obtain ⟨s, state⟩ := t
    cases state with
    | pending | running | forced => rfl
    | culled target =>
      cases target with
      | none => exact (unculled rfl).elim
      | some target => rfl
  | _ => rfl

end Grammar

/-! ## Drawings -/

namespace Drawing

/-- Where an edge is drawn, if nodes are placed in some order. -/
def spot (nodes : List NodeId) (link : NodeId × NodeId) : Nat × Nat :=
  (nodes.idxOf link.1, nodes.idxOf link.2)

/-- What a drawing has placed, in its order, and what edges it has drawn. -/
structure Records {L : Type} [Lexeme L] (g : Grammar L) (d : Drawing) (nodes : List NodeId)
    (links : List (NodeId × NodeId)) : Prop where
  placed : ∀ (x : NodeId) (k : Nat), d.placed[x]? = some k ↔ nodes[k]? = some x
  labels : d.labels.toList = nodes.map g.caption
  edges : d.edges.toList = links.map (spot nodes)
  ends : ∀ link ∈ links, link.1 ∈ nodes ∧ link.2 ∈ nodes
  range : ∀ x ∈ nodes, x < g.size

theorem getElem?_concat_eq_some {nodes : List NodeId} {x y : NodeId} {k : Nat} :
    (nodes ++ [x])[k]? = some y ↔ nodes[k]? = some y ∨ k = nodes.length ∧ x = y := by
  rw [List.getElem?_append]
  by_cases lt : k < nodes.length
  · rw [if_pos lt]
    exact ⟨.inl, fun h => h.resolve_right fun last => by omega⟩
  · rw [if_neg lt, List.getElem?_singleton, List.getElem?_eq_none (Nat.le_of_not_lt lt)]
    by_cases last : k = nodes.length
    · subst last
      simp
    · rw [if_neg (by omega)]
      simp [last]

namespace Records

variable {L : Type} [Lexeme L] {g : Grammar L} {d : Drawing} {nodes : List NodeId}
  {links : List (NodeId × NodeId)} {x y : NodeId} {p q : Nat}

theorem empty : Records g {} [] [] where
  placed x k := by simp
  labels := rfl
  edges := rfl
  ends := nofun
  range := nofun

theorem nodup (h : Records g d nodes links) : nodes.Nodup := by
  rw [List.nodup_iff_getElem?_ne_getElem?]
  intro i j lt le same
  have there := List.getElem?_eq_getElem le
  have second := (h.placed nodes[j] j).mpr there
  have first := (h.placed nodes[j] i).mpr (same.trans there)
  have eq := Option.some.inj (first.symm.trans second)
  omega

theorem length_le (h : Records g d nodes links) : nodes.length ≤ g.size := by
  have within : nodes ⊆ List.range g.size := fun x member => List.mem_range.mpr (h.range x member)
  have le := (List.subperm_of_subset h.nodup within).length_le
  rwa [List.length_range] at le

theorem idxOf_eq (h : Records g d nodes links) (there : nodes[p]? = some x) :
    nodes.idxOf x = p := by
  obtain ⟨lt, rfl⟩ := List.getElem?_eq_some_iff.mp there
  exact h.nodup.idxOf_getElem p lt

theorem place (h : Records g d nodes links) (new : d.placed[x]? = none) (lt : x < g.size) :
    ∃ d', Drawing.place x (g.caption x) d = .ok (nodes.length, d') ∧
      Records g d' (nodes ++ [x]) links := by
  have size : d.labels.size = nodes.length := by
    rw [← Array.length_toList, h.labels, List.length_map]
  refine ⟨_, by rw [Drawing.place,
    size], fun y k => ?_, ?_, ?_, fun link member => ?_, fun y member => ?_⟩
  · rw [Std.TreeMap.getElem?_insert, getElem?_concat_eq_some, ← h.placed]
    simp only [Std.LawfulEqCmp.compare_eq_iff_eq]
    by_cases same : x = y
    · subst same
      rw [if_pos rfl, new, Option.some.injEq]
      simp [eq_comm]
    · rw [if_neg same]
      simp [same]
  · simp [h.labels]
  · rw [h.edges]
    refine List.map_congr_left fun link member => ?_
    obtain ⟨left, right⟩ := h.ends link member
    rw [spot, spot, List.idxOf_append_of_mem left, List.idxOf_append_of_mem right]
  · exact (h.ends link member).imp (List.mem_append_left _) (List.mem_append_left _)
  · rcases List.mem_append.mp member with member | member
    · exact h.range y member
    · cases List.mem_singleton.mp member
      exact lt

theorem connect (h : Records g d nodes links) (hx : nodes[p]? = some x) (hy : nodes[q]? = some y) :
    ∃ d', Drawing.connect p q d = .ok ((), d') ∧ Records g d' nodes (links ++ [(x, y)]) := by
  refine ⟨_, Action.modify_ok.mpr rfl, h.placed, h.labels, ?_, fun link member => ?_, h.range⟩
  · rw [Array.toList_push, h.edges, List.map_append, List.map_singleton, spot, h.idxOf_eq hx,
      h.idxOf_eq hy]
  · rcases List.mem_append.mp member with member | member
    · exact h.ends link member
    · cases List.mem_singleton.mp member
      exact ⟨List.mem_of_getElem? hx, List.mem_of_getElem? hy⟩

end Records

end Drawing

/-! ## Drawing a node -/

section Drawing

open Drawing (Records spot)

variable {L : Type} [Lexeme L] {g : Grammar L} {d d' : Drawing} {nodes : List NodeId}
  {edges : List (NodeId × NodeId)} {id position : NodeId}

/-- A drawing has gone on from where it was: with the nodes `more`, which are all from below
`roots`, with the edges `own`, and with those that leave `more`. -/
def Goes (g : Grammar L) (nodes : List NodeId) (edges : List (NodeId × NodeId))
    (roots : List NodeId) (own : List (NodeId × NodeId)) (more : List NodeId) (d' : Drawing) :
    Prop :=
  (∀ x ∈ more, ∃ root ∈ roots, g.Reaches true root x) ∧
    ∃ new, Records g d' (nodes ++ more) (edges ++ new) ∧ new.Perm (own ++ g.links more)

/-- A node is drawn, and its place answered, which is the next one for a new node. -/
def Drawn (g : Grammar L) (nodes : List NodeId) (edges : List (NodeId × NodeId)) (fuel : Nat)
    (id : NodeId) (d : Drawing) : Prop :=
  ∃ position d' more, g.drawNode fuel id d = .ok (position, d') ∧
    Goes g nodes edges [id] [] more d' ∧
    (nodes ++ more)[position]? = some id ∧ (id ∉ nodes → position = nodes.length)

/-- The children of a node are drawn one after the other, and each is followed by the edge to it. By
induction on the children, given how a child is drawn. -/
theorem drawChildren_goes {fuel : Nat}
    (draw : ∀ child nodes edges d, Records g d nodes edges → child < g.size →
      g.size + 1 ≤ fuel + nodes.length → Drawn g nodes edges fuel child d)
    (children : List NodeId) :
    ∀ nodes edges d, Records g d nodes edges → nodes[position]? = some id →
    (∀ child ∈ children, child < g.size) →
      g.size + 1 ≤ fuel + nodes.length → ∃ d' more,
        (children.forM fun child => do
          let target ← g.drawNode fuel child
          Drawing.connect position target) d = .ok ((), d') ∧
        Goes g nodes edges children (children.map (id, ·)) more d' := by
  induction children with
  | nil =>
    intro nodes edges d records _ _ _
    refine ⟨d, [], rfl, nofun, [], ?_, .refl _⟩
    rwa [List.append_nil, List.append_nil]
  | cons child rest ih =>
    intro nodes edges d records here range enough
    obtain ⟨target, d₁, more₁, run₁, ⟨below₁, new₁, records₁, perm₁⟩, there, -⟩ :=
      draw child nodes edges d records (range child (.head _)) enough
    have still : (nodes ++ more₁)[position]? = some id := by
      rw [List.getElem?_append_left (List.getElem?_eq_some_iff.mp here).1, here]
    obtain ⟨d₂, run₂, records₂⟩ := records₁.connect still there
    obtain ⟨d₃, more₂, run₃, below₂, new₂, records₃, perm₂⟩ := ih _ _ d₂ records₂ still
      (fun child member => range child (.tail _ member)) (by rw [List.length_append]; omega)
    refine ⟨d₃, more₁ ++ more₂, ?_, fun x member => ?_, new₁ ++ (id, child) :: new₂, ?_, ?_⟩
    · exact (Action.bind_of_ok ((Action.bind_of_ok run₁).trans run₂)).trans run₃
    · rcases List.mem_append.mp member with member | member
      · obtain ⟨root, single, reaches⟩ := below₁ x member
        cases List.mem_singleton.mp single
        exact ⟨child, .head _, reaches⟩
      · obtain ⟨root, among, reaches⟩ := below₂ x member
        exact ⟨root, .tail _ among, reaches⟩
    · simpa only [List.append_assoc, List.singleton_append] using records₃
    · rw [List.map_cons, Grammar.links_append, List.perm_iff_count]
      intro link
      have count₁ := perm₁.count_eq link
      have count₂ := perm₂.count_eq link
      simp only [List.nil_append, List.count_append, List.count_cons] at count₁ count₂ ⊢
      omega

/-- Drawing a node goes on with nodes that it reaches. By induction on how deep the calls may nest:
each goes on with one more node. -/
theorem drawNode_goes (ranged : g.Ranged true) (unculled : g.Unculled) (fuel : Nat) :
    ∀ id nodes edges d, Records g d nodes edges → id < g.size → g.size + 1 ≤ fuel + nodes.length →
      Drawn g nodes edges fuel id d := by
  induction fuel with
  | zero =>
    intro id nodes edges d records _ enough
    have := records.length_le
    omega
  | succ fuel ih =>
    intro id nodes edges d records lt enough
    unfold Drawn
    rw [Grammar.drawNode, Action.bind_of_ok (Action.get_ok.mpr ⟨rfl, rfl⟩)]
    cases place : d.placed[id]? with
    | some position =>
      have there := (records.placed id position).mp place
      refine ⟨position, d, [], rfl, ⟨nofun, [], ?_, .refl _⟩,
        ?_, fun new => absurd (List.mem_of_getElem? there) new⟩
      · rwa [List.append_nil, List.append_nil]
      · rwa [List.append_nil]
    | none =>
      obtain ⟨node, there⟩ := Grammar.exists_get? lt
      obtain ⟨d₁, run₁, records₁⟩ := records.place place lt
      rw [Grammar.caption_eq there] at run₁
      have here : (nodes ++ [id])[nodes.length]? = some id := List.getElem?_concat_length
      have room : g.size + 1 ≤ fuel + (nodes ++ [id]).length := by
        rw [List.length_append, List.length_singleton]
        omega
      obtain ⟨d₂, more, run₂, below, new, records₂, perm⟩ :=
        drawChildren_goes ih (node.successors true) _ _ d₁ records₁ here (ranged id node there) room
      refine ⟨nodes.length, d₂, id :: more, ?_,
        ⟨fun x member => ⟨id, .head _, ?_⟩, new, ?_, ?_⟩, ?_, fun _ => rfl⟩
      · show ((liftM (g.lookup id) : StateT Drawing (Except Error) (Node L)) >>= _) d = _
        rw [Action.bind_of_ok (Action.lift_ok.mpr ⟨Grammar.lookup_ok.mpr there, rfl⟩),
          Action.bind_of_ok run₁,
          Grammar.drawnBelow_eq (unculled id node there), Action.bind_of_ok run₂]
        rfl
      · rcases List.mem_cons.mp member with rfl | member
        · exact .refl x
        · obtain ⟨child, among, reaches⟩ := below x member
          exact .head there among reaches
      · simpa only [List.append_assoc, List.singleton_append] using records₂
      · rwa [List.nil_append, Grammar.links_cons, Grammar.dependencies_eq there]
      · simp

end Drawing

/-! ## After any operations -/

section Drawn

variable {L : Type} [DecidableEq L] {g : Grammar L} {n : NodeId}

/-- After any operations the drawing of a node is the graph that the node reaches: it places the
nodes that are reached, each once and the node itself first, with their labels; and for each of them
it draws as many edges as the node has dependencies, from its place to theirs. -/
theorem drawn_reachable [Lexeme L] {source : Source} {fuel : Nat} {ops : List (Operation L)}
    (history : source.worked fuel ops = .ok g) (lt : n < g.size) :
    ∃ (nodes : List NodeId) (d : Drawing),
      g.drawing n = .ok d ∧ (∀ print, g.printed print n = .ok (print d)) ∧
      nodes.Nodup ∧ nodes[0]? = some n ∧ (∀ x, x ∈ nodes ↔ g.Reaches true n x) ∧
      g.reachable n = .ok nodes.length ∧
      (∀ (x : NodeId) (k : Nat), d.placed[x]? = some k ↔ nodes[k]? = some x) ∧
      d.labels.toList = nodes.map g.caption ∧
      d.edges.toList.Perm ((g.links nodes).map (Drawing.spot nodes)) := by
  obtain ⟨W, good, -⟩ := worked_good history
  have ranged := good.formed.ranged true
  obtain ⟨position, d, nodes, run, ⟨below, edges, records, perm⟩, here, first⟩ :=
    drawNode_goes ranged (worked_unculled history) (g.size + 1) n [] [] {} .empty lt (Nat.le_refl _)
  rw [List.nil_append] at records here perm
  have drawing : g.drawing n = .ok d := by
    unfold Grammar.drawing
    show Except.bind (g.drawNode (g.size + 1) n {}) _ = _
    rw [run]
    rfl
  have start : nodes[0]? = some n := by rwa [first List.not_mem_nil] at here
  have reached (x : NodeId) : x ∈ nodes ↔ g.Reaches true n x := by
    constructor
    · intro member
      obtain ⟨root, single, reaches⟩ := below x member
      cases List.mem_singleton.mp single
      exact reaches
    · intro reaches
      induction reaches with
      | refl => exact List.mem_of_getElem? start
      | tail _ there depends ih =>
        -- the edge to it was drawn, and edges are drawn between nodes that are placed
        have link := Grammar.mem_links.mpr ⟨ih, (Grammar.dependencies_eq there).symm ▸ depends⟩
        exact (records.ends _ (perm.mem_iff.mpr link)).2
  obtain ⟨order, count, nodup, same⟩ := Grammar.reachable_exact ranged lt
  have length : order.length = nodes.length :=
    ((List.perm_ext_iff_of_nodup nodup records.nodup).mpr fun x =>
      (same x).trans (reached x).symm).length_eq
  refine ⟨nodes, d, drawing, fun print => ?_, records.nodup, start, reached, length ▸ count,
    records.placed, records.labels, ?_⟩
  · rw [Grammar.printed, drawing]
    rfl
  · rw [records.edges]
    exact perm.map _

theorem drawn_reachable_leftRecursive :
    ∃ g : Grammar String, leftRecursive.worked 30 chores = .ok g ∧ 6 < g.size ∧
    ∃ (nodes : List NodeId) (d : Drawing), g.drawing 6 = .ok d ∧
      (∀ print, g.printed print 6 = .ok (print d)) ∧
      nodes.Nodup ∧ nodes[0]? = some 6 ∧ (∀ x, x ∈ nodes ↔ g.Reaches true 6 x) ∧
      g.reachable 6 = .ok nodes.length ∧
      (∀ (x : NodeId) (k : Nat), d.placed[x]? = some k ↔ nodes[k]? = some x) ∧
      d.labels.toList = nodes.map g.caption ∧
      d.edges.toList.Perm ((g.links nodes).map (Drawing.spot nodes)) := by
  obtain ⟨g, history, lt⟩ := leftRecursive_worked
  exact ⟨g, history, lt, drawn_reachable history lt⟩

end Drawn

end DerivativeParsing
