import DerivativeParsing.Proofs.Grounded
import DerivativeParsing.Proofs.Operations

/-!
# Collection renames what it keeps

Whatever graph and whatever roots it is given, a collection leaves the part of the graph that the
roots depend on, under other names.

1. `Node.Renamed` compares a node with what is left of it: only names differ, and those that it
   depends on are renamed.
2. `reach_iff`: a walk from some roots meets what they reach. `reachable_exact`: what is counted is
   what a node reaches. `collect_reaches`: what is kept is what the roots reach.
3. `collect_idle`: where everything is reached nothing is moved.
4. `collect_renames`: collection is a renaming that keeps the order, and collecting again changes
   nothing.
-/

namespace DerivativeParsing

open Grammar (nothing lt_size_of_get?)

/-! ## Renamed nodes -/

/-- A rule under other names. What it remembers is renamed, unless that was dropped. -/
structure Rule.Renamed (place : NodeId → Option NodeId) (r r' : Rule) : Prop where
  name : r'.name = r.name
  fixpoint : r'.fixpoint = r.fixpoint
  busy : r'.busy = r.busy
  memo : ∀ kind next', r'.memo = some (kind, next') ↔
    ∃ next, r.memo = some (kind, next) ∧ place next = some next'

/-- A node under other names. All that it depends on has one. A thunk that was evaluated does not
depend on its base. -/
inductive Node.Renamed {L : Type} (place : NodeId → Option NodeId) : Node L → Node L → Prop
  | empty : Renamed place .empty .empty
  | token (kind : Kind) : Renamed place (.token kind) (.token kind)
  | matched (symbol : Symbol L) : Renamed place (.matched symbol) (.matched symbol)
  | undefined (name : String) : Renamed place (.undefined name) (.undefined name)
  | alt {l l' r r' : NodeId} :
    place l = some l' → place r = some r' → Renamed place (.alt l r) (.alt l' r')
  | cat {l l' r r' : NodeId} :
    place l = some l' → place r = some r' → Renamed place (.cat l r) (.cat l' r')
  | rep {body body' : NodeId} : place body = some body' → Renamed place (.rep body) (.rep body')
  | rule {r r' : Rule} {body body' : NodeId} : r.Renamed place r' → place body = some body' →
    Renamed place (.rule r body) (.rule r' body')
  | waiting {t : Thunk L} {base base' : NodeId} : t.state.isWaiting → place base = some base' →
    Renamed place (.thunk t base) (.thunk t base')
  | forced {symbol : Symbol L} {target target' base : NodeId} : place target = some target' →
    Renamed place (.thunk ⟨symbol, .forced target⟩ base)
      (.thunk ⟨symbol, .forced target'⟩ (movedBy place base))
  | culled {symbol : Symbol L} {target target' base : NodeId} : place target = some target' →
    Renamed place (.thunk ⟨symbol, .culled (some target)⟩ base)
      (.thunk ⟨symbol, .culled (some target')⟩ (movedBy place base))
  | dead {symbol : Symbol L} {base : NodeId} :
    Renamed place (.thunk ⟨symbol, .culled none⟩ base)
      (.thunk ⟨symbol, .culled none⟩ (movedBy place base))

section Renamed

variable {L : Type} {place : NodeId → Option NodeId} {node : Node L}

theorem Rule.renamed_relocated (r : Rule) :
    r.Renamed place
      { r with memo := r.memo.bind fun (kind, next) => (place next).map (kind, ·) } where
  name := rfl
  fixpoint := rfl
  busy := rfl
  memo kind next' := by
    constructor
    · intro h
      exact remembered_of_moved h
    · rintro ⟨next, known, hp⟩
      simp [known, hp]

/-- Where all that a node depends on has a place, relocating the node renames it. -/
theorem Node.renamed_relocate (has : ∀ x ∈ node.successors true, ∃ y, place x = some y) :
    node.Renamed place (node.relocate place) := by
  have moved {x : NodeId} (hx : x ∈ node.successors true) : place x = some (movedBy place x) := by
    obtain ⟨y, hy⟩ := has x hx
    rw [Grammar.movedBy_of_some hy, hy]
  cases node with
  | empty => exact .empty
  | token kind => exact .token kind
  | matched symbol => exact .matched symbol
  | undefined name => exact .undefined name
  | alt left right => exact .alt (moved (.head _)) (moved (.tail _ (.head _)))
  | cat left right => exact .cat (moved (.head _)) (moved (.tail _ (.head _)))
  | rep body => exact .rep (moved (.head _))
  | rule r body => exact .rule r.renamed_relocated (moved (.head _))
  | thunk t base =>
    obtain ⟨s, state⟩ := t
    cases state with
    | pending | running => exact .waiting rfl (moved (.head _))
    | forced target => exact .forced (moved (.head _))
    | culled target =>
      cases target with
      | none => exact .dead
      | some target => exact .culled (moved (.head _))

/-- A node that holds only names that stay is left as it is. -/
theorem Node.relocate_self (stays : ∀ x ∈ node.held, place x = some x) :
    node.relocate place = node := by
  have same {x : NodeId} (hx : x ∈ node.held) : movedBy place x = x :=
    Grammar.movedBy_of_some (stays x hx)
  cases node with
  | empty | token | matched | undefined => rfl
  | alt left right =>
    show Node.alt (movedBy place left) (movedBy place right) = _
    rw [same (.head _), same (.tail _ (.head _))]
  | cat left right =>
    show Node.cat (movedBy place left) (movedBy place right) = _
    rw [same (.head _), same (.tail _ (.head _))]
  | rep body =>
    show Node.rep (movedBy place body) = _
    rw [same (.head _)]
  | rule r body =>
    obtain ⟨name, memo, fixpoint, busy⟩ := r
    have known : (memo.bind fun (kind, next) => (place next).map (kind, ·)) = memo := by
      cases memo with
      | none => rfl
      | some p =>
        have stays : place p.2 = some p.2 := stays p.2 (.tail _ (.head _))
        simp [stays]
    show Node.rule ⟨name, memo.bind fun (kind, next) => (place next).map (kind, ·), fixpoint, busy⟩
      (movedBy place body) = _
    rw [known, same (.head _)]
  | thunk t base =>
    obtain ⟨s, state⟩ := t
    rw [Node.relocate_thunk, same (.head _)]
    cases state with
    | pending | running => rfl
    | forced target =>
      show Node.thunk ⟨s, .forced (movedBy place target)⟩ base = _
      rw [same (.tail _ (.head _))]
    | culled target =>
      cases target with
      | none => rfl
      | some target =>
        show Node.thunk ⟨s, .culled (some (movedBy place target))⟩ base = _
        rw [same (.tail _ (.head _))]

end Renamed

namespace Grammar

variable {L : Type} {g g' : Grammar L} {place : NodeId → Option NodeId} {throughPending : Bool}
  {roots : List NodeId} {x y : NodeId} {P : NodeId → Prop}

/-! ## What is kept -/

/-- A walk from some roots meets what they reach. -/
theorem reach_iff {t : Traversal Marks} (ranged : g.Ranged true)
    (range : ∀ root ∈ roots, root < g.size) (run : g.reach roots = .ok t) :
    t.seen.contains x ↔ ∃ root ∈ roots, g.Reaches true root x := by
  constructor
  · apply mem_of_walk (P := fun x => ∃ root ∈ roots, g.Reaches true root x) _ _ _ run
    · rintro x node ⟨root, member, reaches⟩ there y hy
      exact ⟨root, member, reaches.tail there hy⟩
    · intro x hx
      cases (Marks.contains_none g.size x).symm.trans hx
    · intro x hx
      have member : x ∈ roots := (enter_mem_stack.mp hx).resolve_right nofun
      exact ⟨x, member, .refl x⟩
  · rintro ⟨root, member, reaches⟩
    obtain ⟨t', run', seen, closed⟩ := reach_ok ranged range
    cases run.symm.trans run'
    exact closed.reaches (seen root member) reaches

/-- What is counted as reachable are the nodes that are reached, each once. -/
theorem reachable_exact (ranged : g.Ranged true) (lt : x < g.size) :
    ∃ order : List NodeId, g.reachable x = .ok order.length ∧ order.Nodup ∧
      ∀ y, y ∈ order ↔ g.Reaches true x y := by
  have range : ∀ root ∈ [x], root < g.size := by simpa using lt
  obtain ⟨t, run, walked, -⟩ := reach_walked ranged range
  refine ⟨t.finished, by rw [reachable, run]; rfl, ?_, fun y => ?_⟩
  · refine nodup_of_walk ?_ ?_ run
    · rw [leaving_stack]
      exact .nil
    · rw [leaving_stack]
      exact fun _ none => absurd none List.not_mem_nil
  · rw [walked.mem_finished]
    refine (reach_iff ranged range run).trans ?_
    simp

/-- A collection answers, and moves exactly what the roots reach. No slot is lost to the counter of
those that were reclaimed. -/
theorem collect_reaches (first : g.arena.get? nothing = some .empty) (ranged : g.Ranged true)
    (range : ∀ root ∈ roots, root < g.size) :
    ∃ place g', collect roots g = .ok (roots.map (movedBy place), g') ∧ Moved place g g' ∧
      (∀ x, (∃ y, place x = some y) ↔ x = nothing ∨ ∃ root ∈ roots, g.Reaches true root x) ∧
      g'.size ≤ g.size ∧
        g'.stats = { g.stats with collected := g.stats.collected + (g.size - g'.size) } := by
  have all : ∀ root ∈ nothing :: roots, root < g.size := by
    intro root member
    rcases List.mem_cons.mp member with rfl | member
    · exact lt_size_of_get? first
    · exact range root member
  obtain ⟨t, run, seen, closed⟩ := reach_ok ranged all
  have flags (x : NodeId) : ((List.range g.size).map t.seen.contains)[x]? = some true ↔
      t.seen.contains x :=
    flagged_iff.trans (and_iff_right_of_imp (closed.range x))
  obtain ⟨moved, -⟩ := compact_moved closed (seen _ (.head _)) flags
  have fewer : (g.remaining t.seen).1.size ≤ g.size := by
    show (((sift g.arena.slots.toList _).toArray).map _).size ≤ g.arena.slots.size
    rw [Array.size_map, List.size_toArray, ← Array.length_toList]
    refine (List.length_filterMap_le _ _).trans ?_
    rw [List.length_zip]
    exact Nat.min_le_left _ _
  refine ⟨(g.remaining t.seen).2, _, collect_iff.mpr ⟨t, run, rfl⟩,
    ⟨moved.forth, moved.back, moved.mono, moved.nothing, moved.memo⟩, fun x => ?_, fewer, rfl⟩
  refine (compact_has.trans (flags x)).trans ((reach_iff ranged all run).trans ?_)
  simp only [List.mem_cons, exists_eq_or_imp, reaches_nothing first]

/-! ## Collecting again -/

/-- What is kept of a graph holds no names but those of slots. -/
theorem Moved.held_lt (moved : Moved place g g') {node' : Node L}
    (there : g'.arena.get? x = some node') (member : y ∈ node'.held) : y < g'.size := by
  obtain ⟨i, node, -, -, rfl, has⟩ := moved.get?_back there
  have in_range (y : NodeId) : movedBy place y < g'.size := by
    unfold movedBy
    cases hp : place y with
    | some z => exact moved.lt_size hp
    | none => exact moved.lt_size moved.nothing
  cases node with
  | empty | token | matched | undefined => cases member
  | alt left right | cat left right =>
    rcases List.mem_pair.mp member with rfl | rfl
    · exact in_range left
    · exact in_range right
  | rep body =>
    obtain rfl := List.mem_singleton.mp member
    exact in_range body
  | rule r body =>
    rcases List.mem_cons.mp member with rfl | member
    · exact in_range body
    · obtain ⟨⟨kind, next⟩, known, rfl⟩ := Option.map_eq_some_iff.mp (Option.mem_toList.mp member)
      obtain ⟨old, -, hp⟩ := remembered_of_moved known
      exact moved.lt_size hp
  | thunk t base =>
    rw [Node.relocate_thunk] at member
    rcases List.mem_cons.mp member with rfl | member
    · exact in_range base
    · obtain ⟨s, state⟩ := t
      cases state with
      | pending | running => cases member
      | forced target =>
        obtain rfl := List.mem_singleton.mp member
        exact in_range target
      | culled target =>
        cases target with
        | none => cases member
        | some target =>
          obtain rfl := List.mem_singleton.mp member
          exact in_range target

theorem mem_held_of_mem_successors {node : Node L} (member : y ∈ node.successors throughPending) :
    y ∈ node.held := by
  cases node with
  | alt | cat | rep => exact member
  | rule r body =>
    obtain rfl := List.mem_singleton.mp member
    exact .head _
  | thunk t base =>
    obtain ⟨s, state⟩ := t
    cases state with
    | pending | running =>
      cases throughPending with
      | false => cases member
      | true =>
        obtain rfl := List.mem_singleton.mp member
        exact .head _
    | forced target => exact .tail _ member
    | culled target => exact .tail _ member
  | _ => cases member

/-- What a kept node reaches is kept, and reached under its new name. -/
theorem Moved.reaches (moved : Moved place g g') {x' : NodeId} (hx : place x = some x')
    (reaches : g.Reaches true x y) : ∃ y', place y = some y' ∧ g'.Reaches true x' y' := by
  induction reaches with
  | refl => exact ⟨x', hx, .refl x'⟩
  | @tail id next node _ there member ih =>
    obtain ⟨id', hid, reaches⟩ := ih
    obtain ⟨node₁, there₁, there', has⟩ := moved.forth id id' hid
    cases Option.some.inj (there.symm.trans there₁)
    obtain ⟨next', hnext⟩ := has next member
    refine ⟨next', hnext, reaches.tail there' ?_⟩
    have renamed := Node.renamed_relocate has
    generalize node.relocate place = node' at renamed
    cases renamed with
    | empty | token | matched | undefined | dead => cases member
    | alt hl hr | cat hl hr =>
      rcases List.mem_pair.mp member with rfl | rfl
      · cases hnext.symm.trans hl
        exact .head _
      · cases hnext.symm.trans hr
        exact .tail _ (.head _)
    | rep hb | rule _ hb | forced hb | culled hb =>
      obtain rfl := List.mem_singleton.mp member
      cases hnext.symm.trans hb
      exact .head _
    | @waiting t base base' waiting hb =>
      obtain ⟨s, state⟩ := t
      cases state with
      | pending | running =>
        obtain rfl := List.mem_singleton.mp member
        cases hnext.symm.trans hb
        exact .head _
      | forced | culled => cases waiting

/-- A renaming in order of all slots to all slots renames nothing. -/
theorem Moved.place_self (moved : Moved place g g') (all : ∀ x, x < g.size → ∃ y, place x = some y)
    (lt : x < g.size) : place x = some x := by
  induction x using Nat.strong_induction_on with
  | h x ih =>
    obtain ⟨y, hy⟩ := all x lt
    rcases Nat.lt_trichotomy y x with less | same | more
    · -- the slot of that name went there already
      cases moved.injective (ih y less (Nat.lt_trans less lt)) hy
      exact absurd less (Nat.lt_irrefl _)
    · exact same ▸ hy
    · -- nothing could have gone to the slot of this name
      obtain ⟨z, hz⟩ := moved.back x (Nat.lt_trans more (moved.lt_size hy))
      rcases Nat.lt_trichotomy z x with less | same | greater
      · cases (ih z less (Nat.lt_trans less lt)).symm.trans hz
        exact absurd less (Nat.lt_irrefl _)
      · exact same ▸ hz
      · exact absurd (moved.mono x z y x hy hz greater) (Nat.not_lt.mpr (Nat.le_of_lt more))

/-- Where the roots reach everything, a collection changes no node and no name. -/
theorem collect_idle (first : g.arena.get? nothing = some .empty)
    (held : ∀ x node, g.arena.get? x = some node → ∀ y ∈ node.held, y < g.size)
    (range : ∀ root ∈ roots, root < g.size)
    (reached : ∀ x, x < g.size → x = nothing ∨ ∃ root ∈ roots, g.Reaches true root x) :
    ∃ g', collect roots g = .ok (roots, g') ∧ g'.arena = g.arena ∧ g'.stats = g.stats := by
  have ranged : g.Ranged true := fun x node there y hy =>
    held x node there y (mem_held_of_mem_successors hy)
  obtain ⟨place, g', run, moved, kept, fewer, counted⟩ := collect_reaches first ranged range
  have stays (x : NodeId) (lt : x < g.size) : place x = some x :=
    moved.place_self (fun x lt => (kept x).mpr (reached x lt)) lt
  have same (x : NodeId) (lt : x < g.size) : g'.arena.get? x = g.arena.get? x := by
    obtain ⟨node, there, there', -⟩ := moved.forth x x (stays x lt)
    rw [there, there', Node.relocate_self fun y hy => stays y (held x node there y hy)]
  have size : g'.size = g.size := by
    refine Nat.le_antisymm fewer (Nat.le_of_not_lt fun lt => ?_)
    exact absurd (moved.lt_size (stays g'.size lt)) (Nat.lt_irrefl _)
  refine ⟨g', ?_, ?_, ?_⟩
  · have unmoved : roots.map (movedBy place) = roots := by
      conv_rhs => rw [← List.map_id roots]
      exact List.map_congr_left fun root member => movedBy_of_some (stays root (range root member))
    rw [run, unmoved]
  · refine Arena.ext_get? fun x => ?_
    by_cases lt : x < g.size
    · exact same x lt
    · have beyond : g'.size ≤ x := size ▸ Nat.le_of_not_lt lt
      exact (Array.getElem?_eq_none beyond).trans
        (Array.getElem?_eq_none (Nat.le_of_not_lt lt)).symm
  · rw [counted, size, Nat.sub_self]
    rfl

end Grammar

/-! ## Collection -/

section Collect

variable {L : Type} {g : Grammar L} {roots : List NodeId}

/-- In any grammar whose edges lead to slots that are there, collection from any roots that are
there renames the graph under the roots. It keeps the slots that the roots reach, and the one that
matches nothing, in their order. Every node that is kept is the node that it was, with the names
that it depends on renamed, and so are the roots. What is no longer there was counted. Collecting
again from the new roots changes neither a node nor a name. -/
theorem collect_renames (first : g.arena.get? nothing = some .empty) (ranged : g.Ranged true)
    (range : ∀ root ∈ roots, root < g.size) :
    ∃ place g', Grammar.collect roots g = .ok (roots.map (movedBy place), g') ∧
      (∀ x, (∃ y, place x = some y) ↔ x = nothing ∨ ∃ root ∈ roots, g.Reaches true root x) ∧
      place nothing = some nothing ∧
      (∀ x x' y y', place x = some y → place x' = some y' → x < x' → y < y') ∧
      (∀ y, y < g'.size ↔ ∃ x, place x = some y) ∧
      (∀ x y, place x = some y →
      ∃ node node', g.arena.get? x = some node ∧ g'.arena.get? y = some node' ∧
        node.Renamed place node') ∧
      g'.size ≤ g.size ∧
        g'.stats = { g.stats with collected := g.stats.collected + (g.size - g'.size) } ∧
      ∃ g'', Grammar.collect (roots.map (movedBy place)) g' = .ok (roots.map (movedBy place), g'') ∧
        g''.arena = g'.arena ∧ g''.stats = g'.stats := by
  obtain ⟨place, g', run, moved, kept, fewer, counted⟩ := Grammar.collect_reaches first ranged range
  refine ⟨place, g', run, kept, moved.nothing,
    moved.mono, fun y => ⟨moved.back y, fun ⟨x, hx⟩ => moved.lt_size hx⟩,
    fun x y hx => ?_, fewer, counted, ?_⟩
  · obtain ⟨node, there, there', has⟩ := moved.forth x y hx
    exact ⟨node, node.relocate place, there, there', Node.renamed_relocate has⟩
  have placed (root : NodeId) (member : root ∈ roots) : place root = some (movedBy place root) := by
    obtain ⟨y, hy⟩ := (kept root).mpr (.inr ⟨root, member, .refl root⟩)
    rw [Grammar.movedBy_of_some hy, hy]
  have first' : g'.arena.get? nothing = some .empty := by
    obtain ⟨node, there, there', -⟩ := moved.forth _ _ moved.nothing
    cases Option.some.inj (there.symm.trans first)
    exact there'
  refine Grammar.collect_idle first' (fun x node there y hy => moved.held_lt there hy)
    (fun root member => ?_)
    fun y lt => ?_
  · obtain ⟨old, among, rfl⟩ := List.mem_map.mp member
    exact moved.lt_size (placed old among)
  · obtain ⟨x, hx⟩ := moved.back y lt
    rcases (kept x).mp ⟨y, hx⟩ with rfl | ⟨root, member, reaches⟩
    · exact .inl (Option.some.inj (hx.symm.trans moved.nothing))
    · obtain ⟨y', hy, reaches⟩ := moved.reaches (placed root member) reaches
      cases hx.symm.trans hy
      exact .inr ⟨movedBy place root, List.mem_map_of_mem member, reaches⟩

/-- In a grammar that was worked with and collected before, two nodes are kept. One of them is named
twice. -/
theorem collect_renames_leftRecursive :
    ∃ g : Grammar String, leftRecursive.worked 30 chores = .ok g ∧
    g.arena.get? nothing = some .empty ∧ g.Ranged true ∧ (∀ root ∈ [1, 6, 1], root < g.size) ∧
    ∃ place g', Grammar.collect [1, 6, 1] g = .ok ([1, 6, 1].map (movedBy place), g') ∧
      (∀ x, (∃ y, place x = some y) ↔ x = nothing ∨ ∃ root ∈ [1, 6, 1], g.Reaches true root x) ∧
      (∀ x y, place x = some y →
      ∃ node node', g.arena.get? x = some node ∧ g'.arena.get? y = some node' ∧
        node.Renamed place node') := by
  obtain ⟨g, history, lt⟩ := leftRecursive_worked
  obtain ⟨W, good, -⟩ := worked_good history
  have range : ∀ root ∈ [1, 6, 1], root < g.size := by
    intro root member
    simp only [List.mem_cons, List.not_mem_nil, or_false] at member
    omega
  obtain ⟨place, g', run, kept, -, -, -, renamed, -⟩ :=
    collect_renames good.formed.nothing (good.formed.ranged true) range
  exact ⟨g, history, good.formed.nothing, good.formed.ranged true, range, place, g', run,
    kept, renamed⟩

end Collect

end DerivativeParsing
