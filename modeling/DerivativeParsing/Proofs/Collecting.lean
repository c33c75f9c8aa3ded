import DerivativeParsing.Grammar.Collect
import DerivativeParsing.Proofs.Sliding
import DerivativeParsing.Proofs.Steps

/-!
# Collection keeps what nodes stand for

A collection gives the nodes it keeps new names, in their old order. In the world that names them
so, every node stands for what it stood for.

1. `Moved` relates a grammar to what a collection leaves of it. `collect_ok`: a collection from
   nodes that are there answers, and moves them.
2. `Moved.good`, `Moved.complete`, `Moved.vetted`, `Moved.shaped` and others: the invariants move
   along.
-/

namespace DerivativeParsing

open Grammar (nothing lt_size_of_get?)

/-! ## What a collection leaves -/

/-- The nodes that have a place are where it says, with their edges renamed. -/
structure Grammar.Moved {L : Type} (place : NodeId → Option NodeId) (g g' : Grammar L) : Prop where
  forth : ∀ i j : Nat, place i = some j → ∃ node, g.arena.get? i = some node ∧
    g'.arena.get? j = some (node.relocate place) ∧ ∀ x ∈ node.successors true, ∃ y, place x = some y
  back : ∀ j : Nat, j < g'.size → ∃ i, place i = some j
  mono : ∀ i i' j j' : Nat, place i = some j → place i' = some j' → i < i' → j < j'
  nothing : place nothing = some nothing
  memo : g'.memo = {}

open scoped Classical in
/-- The world in which nodes go by their new names. -/
noncomputable def World.renamed (W : World) (place : NodeId → Option NodeId) : World := fun j =>
  if h : ∃ i, place i = some j then W h.choose else .void

namespace Grammar

variable {L : Type} {g g' : Grammar L} {place : NodeId → Option NodeId} {i i' j : Nat}
  {roots : List NodeId}

theorem Moved.injective (h : Moved place g g') (hi : place i = some j) (hi' : place i' = some j) :
    i = i' := by
  rcases Nat.lt_trichotomy i i' with lt | same | lt
  · exact absurd (h.mono _ _ _ _ hi hi' lt) (Nat.lt_irrefl j)
  · exact same
  · exact absurd (h.mono _ _ _ _ hi' hi lt) (Nat.lt_irrefl j)

theorem Moved.renamed (h : Moved place g g') {W : World} (hi : place i = some j) :
    W.renamed place j = W i := by
  have some : ∃ i, place i = some j := ⟨i, hi⟩
  rw [World.renamed, dif_pos some, h.injective some.choose_spec hi]

theorem Moved.level (h : Moved place g g') {W : World} (hi : place i = some j) :
    (W.renamed place).level j = W.level i :=
  congrArg (fun m : Meaning => m.trace.length) (h.renamed hi)

theorem movedBy_of_some (hi : place i = some j) : movedBy place i = j := by
  rw [movedBy, hi]
  rfl

theorem Moved.eq_nothing (h : Moved place g g') (hi : place i = some j) :
    j = Grammar.nothing ↔ i = Grammar.nothing := by
  constructor
  · rintro rfl
    exact h.injective hi h.nothing
  · rintro rfl
    exact Option.some.inj (hi.symm.trans h.nothing)

theorem compact_place {live : List Bool} {x y : Nat} :
    (g.compact live).2 x = some y ↔ (slide 0 live)[x]? = some (some y) := by
  show ((renumbering live)[x]?).join = some y ↔ _
  rw [← renumbering_eq_slide, Array.getElem?_toList, Option.join_eq_some_iff]

theorem compact_has {live : List Bool} {x : Nat} :
    (∃ y, (g.compact live).2 x = some y) ↔ live[x]? = some true := by
  rw [← slide_iff (n := 0)]
  exact exists_congr fun y => compact_place

theorem compact_mono {live : List Bool} (hi : (g.compact live).2 i = some j) {j' : Nat}
    (hi' : (g.compact live).2 i' = some j') (lt : i < i') : j < j' :=
  slide_lt (compact_place.mp hi) (compact_place.mp hi') lt

theorem compact_nothing {live : List Bool} (first : live[0]? = some true) :
    (g.compact live).2 Grammar.nothing = some Grammar.nothing := by
  refine compact_place.mpr ?_
  cases live with
  | nil => cases first
  | cons keep live =>
    obtain rfl : keep = true := Option.some.inj first
    rfl

/-- In its place a node is what it was, with its edges renamed. -/
theorem compact_slot {live : List Bool} (hi : (g.compact live).2 i = some j) :
    (g.compact live).1.arena.get? j = (g.arena.get? i).map (Node.relocate (g.compact live).2) := by
  have same : (sift g.arena.slots.toList live)[j]? = g.arena.slots.toList[i]? :=
    getElem?_sift (n := 0) (by rw [Nat.zero_add]; exact compact_place.mp hi)
  show (((sift g.arena.slots.toList live).toArray).map _)[j]? = _
  rw [Array.getElem?_map, List.getElem?_toArray, same, Array.getElem?_toList]
  rfl

/-- What is left when the nodes of a closed set are kept. -/
theorem compact_moved {P : Nat → Prop} {live : List Bool} (closed : Closed g true P)
    (nothing : P Grammar.nothing) (flags : ∀ x : Nat, live[x]? = some true ↔ P x) :
    Moved (g.compact live).2 g (g.compact live).1 ∧
      ∀ x, P x → ∃ y, (g.compact live).2 x = some y := by
  have has (x : Nat) : (∃ y, (g.compact live).2 x = some y) ↔ P x := compact_has.trans (flags x)
  refine ⟨⟨fun i j hi => ?_, fun j lt => ?_, fun i i' j j' hi hi' lt => compact_mono hi hi' lt,
    compact_nothing ((flags 0).mpr nothing), rfl⟩,
    fun x hx => (has x).mpr hx⟩
  · have member := (has i).mp ⟨j, hi⟩
    obtain ⟨node, there⟩ := exists_get? (closed.range i member)
    refine ⟨node, there, ?_, fun x hx => (has x).mpr (closed.successors i node member there x hx)⟩
    rw [compact_slot hi, there]
    rfl
  · have size : (g.compact live).1.size = (sift g.arena.slots.toList live).length := by
      show (((sift g.arena.slots.toList live).toArray).map _).size = _
      rw [Array.size_map, List.size_toArray]
    have lt : j < (sift g.arena.slots.toList live).length := size ▸ lt
    obtain ⟨i, hi⟩ := exists_slide (n := 0) lt
    exact ⟨i, compact_place.mpr (by rw [hi, Nat.zero_add])⟩

theorem flagged_iff {seen : Marks} {size x : Nat} :
    ((List.range size).map seen.contains)[x]? = some true ↔ x < size ∧ seen.contains x := by
  rw [List.getElem?_map, Option.map_eq_some_iff]
  constructor
  · rintro ⟨y, hy, h⟩
    obtain ⟨lt, same⟩ := List.getElem?_eq_some_iff.mp hy
    rw [List.getElem_range] at same
    rw [List.length_range] at lt
    exact ⟨lt, same ▸ h⟩
  · rintro ⟨lt, h⟩
    exact ⟨x, List.getElem?_range lt, h⟩

/-- What is left when the nodes of a set are kept, and where they went. -/
def remaining (g : Grammar L) (seen : Marks) : Grammar L × (NodeId → Option NodeId) :=
  g.compact ((List.range g.size).map seen.contains)

/-- A collection keeps what is met from the roots. -/
theorem collect_iff {p : List NodeId × Grammar L} : collect roots g = .ok p ↔
    ∃ t, g.reach (Grammar.nothing :: roots) = .ok t ∧ (roots.map (movedBy (g.remaining t.seen).2),
      (g.remaining t.seen).1.noted (.collected (g.size - (g.remaining t.seen).1.size) g.size)) =
        p := by
  have kept : g.kept roots = (g.reach (Grammar.nothing :: roots)).map
      fun t => (List.range g.size).map t.seen.contains := rfl
  have first : collect roots g = (liftM (g.kept roots) >>= fun live => do
      set (g.compact live).1
      note (.collected (g.size - (g.compact live).1.size) g.size)
      return roots.map (movedBy (g.compact live).2) : Eval L (List NodeId)) g :=
    Action.bind_of_ok (Action.get_ok.mpr ⟨rfl, rfl⟩)
  rw [first, kept]
  cases g.reach (Grammar.nothing :: roots) with
  | error e =>
    constructor
    · intro h
      cases h
    · rintro ⟨t, h, -⟩
      cases h
  | ok t =>
    constructor
    · intro h
      exact ⟨t, rfl, Except.ok.inj h⟩
    · rintro ⟨_, h, rfl⟩
      cases h
      rfl

/-- A collection from nodes that are there answers, and moves them. -/
theorem collect_ok [DecidableEq L] (formed : g.Formed) (range : ∀ x ∈ roots, g.size > x) :
    ∃ place g', collect roots g = .ok (roots.map (movedBy place), g') ∧ Moved place g g' ∧
      ∀ x ∈ roots, ∃ y, place x = some y := by
  have all : ∀ x ∈ Grammar.nothing :: roots, g.size > x := fun x hx => by
    rcases List.mem_cons.mp hx with rfl | hx
    · exact lt_size_of_get? formed.nothing
    · exact range x hx
  obtain ⟨t, reach, seen, closed⟩ := reach_ok (formed.ranged true) all
  have flags (x : Nat) : ((List.range g.size).map t.seen.contains)[x]? = some true ↔
      t.seen.contains x :=
    flagged_iff.trans (and_iff_right_of_imp (closed.range x))
  obtain ⟨moved, has⟩ := compact_moved closed (seen _ (.head _)) flags
  exact ⟨_, _, collect_iff.mpr ⟨t, reach, rfl⟩,
    ⟨moved.forth, moved.back, moved.mono, moved.nothing, moved.memo⟩,
    fun x hx => has x (seen x (.tail _ hx))⟩

end Grammar

/-! ## Nodes that are moved -/

section Moved

variable {L : Type} {g g' : Grammar L} {place : NodeId → Option NodeId} {i j : Nat} {node : Node L}
  {links : Links} {W : World}

def ThunkState.moved (place : NodeId → Option NodeId) : ThunkState → ThunkState
  | forced target => .forced (movedBy place target)
  | culled (some target) => .culled (some (movedBy place target))
  | state => state

theorem Node.relocate_thunk (t : Thunk L) (base : NodeId) :
    (Node.thunk t base).relocate place =
      .thunk { t with state := t.state.moved place } (movedBy place base) :=
  rfl

theorem ThunkState.target?_moved (nothing : place nothing = some nothing) (state : ThunkState) :
    (state.moved place).target? = state.target?.map (movedBy place) := by
  cases state with
  | culled target =>
    cases target with
    | some => rfl
    | none => exact congrArg some (Grammar.movedBy_of_some nothing).symm
  | _ => rfl

theorem remembered_of_moved {r : Rule} {kind : Kind} {next : NodeId}
    (h : (r.memo.bind fun (kind, next) => (place next).map (kind, ·)) = some (kind, next)) :
    ∃ old, r.memo = some (kind, old) ∧ place old = some next := by
  obtain ⟨⟨kind', old⟩, memo, h⟩ := Option.bind_eq_some_iff.mp h
  obtain ⟨next', hp, same⟩ := Option.map_eq_some_iff.mp h
  cases same
  exact ⟨old, memo, hp⟩

@[simp] theorem Node.isThunk_relocate (node : Node L) :
    (node.relocate place).isThunk = node.isThunk := by
  cases node <;> rfl

theorem Node.idle_relocate : (node.relocate place).Idle ↔ node.Idle := by
  cases node with
  | thunk t base =>
    obtain ⟨s, state⟩ := t
    rw [Node.relocate_thunk]
    cases state with
    | culled target => cases target <;> simp [Idle, isBegun, isRunning, isBusy, ThunkState.moved]
    | _ => simp [Idle, isBegun, isRunning, isBusy, ThunkState.moved]
  | _ => rfl

theorem base_mem_successors {t : Thunk L} {base : NodeId} (ht : t.state.target? = none) :
    base ∈ (Node.thunk t base).successors true := by
  obtain ⟨s, state⟩ := t
  cases state with
  | pending | running => exact .head _
  | forced | culled => cases ht

namespace Grammar.Moved

theorem get?_back (h : Moved place g g') {node' : Node L} (there : g'.arena.get? j = some node') :
    ∃ (i : Nat) (node : Node L), place i = some j ∧ g.arena.get? i = some node ∧
      node' = node.relocate place ∧ ∀ x ∈ node.successors true, ∃ y, place x = some y := by
  obtain ⟨i, hi⟩ := h.back j (lt_size_of_get? there)
  obtain ⟨node, there', there'', has⟩ := h.forth i j hi
  exact ⟨i, node, hi, there', Option.some.inj (there.symm.trans there''), has⟩

theorem solid (h : Moved place g g') (hi : place i = some j) (solid : g.Solid i) : g'.Solid j := by
  obtain ⟨node, there, solid⟩ := solid
  obtain ⟨node', there', there'', -⟩ := h.forth i j hi
  cases Option.some.inj (there.symm.trans there')
  exact ⟨_, there'', by rw [Node.isThunk_relocate, solid]⟩

theorem lt_size (h : Moved place g g') (hi : place i = some j) : j < g'.size := by
  obtain ⟨node, -, there, -⟩ := h.forth i j hi
  exact lt_size_of_get? there

/-- What a thunk is resolved to is kept with it. -/
theorem target (h : Moved place g g') {t : Thunk L} {base target : NodeId}
    (has : ∀ x ∈ (Node.thunk t base).successors true, ∃ y, place x = some y)
    (ht : t.state.target? = some target) : ∃ y, place target = some y := by
  obtain ⟨s, state⟩ := t
  cases state with
  | pending | running => cases ht
  | forced next =>
    cases ht
    exact has _ (.head _)
  | culled next =>
    cases next with
    | none =>
      cases ht
      exact ⟨_, h.nothing⟩
    | some next =>
      cases ht
      exact has _ (.head _)

theorem resolved (h : Moved place g g') {t : Thunk L} {target y : NodeId}
    (ht : t.state.target? = some target) (hy : place target = some y) :
    ({ t with state := t.state.moved place } : Thunk L).state.target? = some y := by
  show (t.state.moved place).target? = _
  rw [ThunkState.target?_moved h.nothing, ht, Option.map_some, movedBy_of_some hy]

theorem waiting (h : Moved place g g') {t : Thunk L} (ht : t.state.target? = none) :
    ({ t with state := t.state.moved place } : Thunk L).state.target? = none := by
  show (t.state.moved place).target? = _
  rw [ThunkState.target?_moved h.nothing, ht]
  rfl

theorem formed_node (h : Moved place g g') (hi : place i = some j) (formed : node.Formed g i)
    (has : ∀ x ∈ node.successors true, ∃ y, place x = some y) :
    (node.relocate place).Formed g' j := by
  have part {x : Nat} (hx : x ∈ node.successors true) (part : g.Part i x) :
      g'.Part j (movedBy place x) := by
    obtain ⟨y, hy⟩ := has x hx
    rw [movedBy_of_some hy]
    exact ⟨h.mono x i y j hy hi part.1, h.solid hy part.2⟩
  cases node with
  | empty =>
    obtain rfl : i = 0 := formed
    exact (h.eq_nothing hi).mpr rfl
  | token | undefined => trivial
  | matched => exact formed
  | alt | cat => exact ⟨part (.head _) formed.1, part (.tail _ (.head _)) formed.2⟩
  | rep => exact part (.head _) formed
  | rule r body =>
    obtain ⟨y, hy⟩ := has body (.head _)
    refine ⟨?_, fun kind next hm => ?_⟩
    · rw [movedBy_of_some hy]
      exact h.lt_size hy
    · obtain ⟨old, memo, hp⟩ := remembered_of_moved hm
      exact h.solid hp (formed.2 kind old memo)
  | thunk t base =>
    rw [Node.relocate_thunk]
    refine ⟨?_, fun next ht => ?_⟩
    · unfold movedBy
      cases hp : place base with
      | some y => exact h.lt_size hp
      | none => exact h.lt_size h.nothing
    · rw [ThunkState.target?_moved h.nothing] at ht
      obtain ⟨old, hold, rfl⟩ := Option.map_eq_some_iff.mp ht
      obtain ⟨y, hy⟩ := h.target has hold
      rw [movedBy_of_some hy]
      exact h.solid hy (formed.2 old hold)

theorem fits_node (h : Moved place g g') (hi : place i = some j) (fits : W.Fits links i node)
    (has : ∀ x ∈ node.successors true, ∃ y, place x = some y) :
    (W.renamed place).Fits links j (node.relocate place) := by
  have here := h.renamed (W := W) hi
  have there {x : Nat} (hx : x ∈ node.successors true) :
      W.renamed place (movedBy place x) = W x := by
    obtain ⟨y, hy⟩ := has x hx
    rw [movedBy_of_some hy, h.renamed hy]
  cases node with
  | empty => exact here.trans fits
  | undefined => trivial
  | token | matched =>
    unfold World.Fits at fits ⊢
    dsimp only [Node.relocate]
    rw [here]
    exact fits
  | alt | cat =>
    unfold World.Fits at fits ⊢
    dsimp only [Node.relocate]
    rw [here, there (.head _), there (.tail _ (.head _))]
    exact fits
  | rep =>
    unfold World.Fits at fits ⊢
    dsimp only [Node.relocate]
    rw [here, there (.head _)]
    exact fits
  | rule r body =>
    refine ⟨?_, fun kind next hm => ?_, fun state => ?_⟩
    · rw [here, there (.head _)]
      exact fits.1
    · obtain ⟨old, memo, hp⟩ := remembered_of_moved hm
      rw [here, h.renamed hp]
      exact fits.2.memo kind old memo
    · rw [here]
      exact fits.2.nullable state
  | thunk t base =>
    rw [Node.relocate_thunk]
    cases ht : t.state.target? with
    | some target =>
      have fits := (World.fits_resolved ht).mp fits
      obtain ⟨y, hy⟩ := h.target has ht
      refine (World.fits_resolved (h.resolved ht hy)).mpr ?_
      rw [here, h.renamed hy]
      exact fits
    | none =>
      have fits := (World.fits_waiting ht).mp fits
      refine (World.fits_waiting (h.waiting ht)).mpr ?_
      rw [here, there (base_mem_successors ht)]
      exact fits

theorem supports_node (h : Moved place g g') (hi : place i = some j) (supports : W.Supports i node)
    (has : ∀ x ∈ node.successors true, ∃ y, place x = some y) :
    (W.renamed place).Supports j (node.relocate place) := by
  have here := h.renamed (W := W) hi
  have there {x : Nat} (hx : x ∈ node.successors true) :
      W.renamed place (movedBy place x) = W x := by
    obtain ⟨y, hy⟩ := has x hx
    rw [movedBy_of_some hy, h.renamed hy]
  cases node with
  | empty | undefined | token | matched =>
    unfold World.Supports at supports ⊢
    dsimp only [Node.relocate]
    rw [here]
    exact supports
  | alt | cat =>
    unfold World.Supports at supports ⊢
    dsimp only [Node.relocate]
    rw [here, there (.head _), there (.tail _ (.head _))]
    exact supports
  | rep | rule =>
    unfold World.Supports at supports ⊢
    dsimp only [Node.relocate]
    rw [here, there (.head _)]
    exact supports
  | thunk t base =>
    rw [Node.relocate_thunk]
    cases ht : t.state.target? with
    | some target =>
      have supports := (World.supports_resolved ht).mp supports
      obtain ⟨y, hy⟩ := h.target has ht
      refine (World.supports_resolved (h.resolved ht hy)).mpr ?_
      rw [here, h.renamed hy]
      exact supports
    | none =>
      have supports := (World.supports_waiting ht).mp supports
      refine (World.supports_waiting (h.waiting ht)).mpr ?_
      rw [here, there (base_mem_successors ht)]
      exact supports

/-- A rule is what it was, but for the names of other nodes. -/
theorem rule_back (h : Moved place g g') {r' : Rule} {body' : NodeId}
    (there : g'.arena.get? j = some (.rule r' body')) :
    ∃ (i : Nat) (r : Rule) (body : NodeId), place i = some j ∧
      g.arena.get? i = some (.rule r body) ∧ r'.fixpoint = r.fixpoint ∧
        ∀ kind next, r'.memo = some (kind, next) →
        ∃ old, r.memo = some (kind, old) ∧ place old = some next := by
  obtain ⟨i, node, hi, was, same, -⟩ := h.get?_back there
  cases node with
  | rule r body =>
    cases same
    exact ⟨i, r, body, hi, was, rfl, fun _ _ => remembered_of_moved⟩
  | _ => cases same

variable [DecidableEq L]

theorem good (h : Moved place g g') (good : Good links W g) : Good links (W.renamed place) g' where
  formed := by
    refine ⟨?_, fun j node' there => ?_, fun id s next found => ?_⟩
    · obtain ⟨node, there, there', -⟩ := h.forth _ _ h.nothing
      cases Option.some.inj (there.symm.trans good.formed.nothing)
      exact there'
    · obtain ⟨i, node, hi, was, rfl, has⟩ := h.get?_back there
      exact h.formed_node hi (good.formed.node i node was) has
    · rw [h.memo, Memo.find?_nil] at found
      cases found
  sound := by
    refine ⟨fun j node' there => ?_, fun id s next found => ?_⟩
    · obtain ⟨i, node, hi, was, rfl, has⟩ := h.get?_back there
      exact h.fits_node hi (good.sound.node i node was) has
    · rw [h.memo, Memo.find?_nil] at found
      cases found
  quiet j node' there := by
    obtain ⟨i, node, hi, was, rfl, -⟩ := h.get?_back there
    exact Node.idle_relocate.mpr (good.quiet i node was)

theorem complete {k : Nat} (h : Moved place g g') (complete : Complete W g k) :
    Complete (W.renamed place) g' k := by
  refine ⟨fun j node' there => ⟨fun level => ?_, fun r body kind next same hm level => ?_,
    fun r body same state level => ?_⟩, fun id s next found => ?_⟩
  · obtain ⟨i, node, hi, was, rfl, has⟩ := h.get?_back there
    rw [h.level hi] at level
    exact h.supports_node hi ((complete.node i node was).supports level) has
  · obtain ⟨i, r₀, body₀, hi, was, -, memo⟩ := h.rule_back (same ▸ there)
    obtain ⟨old, hm, hp⟩ := memo kind next hm
    rw [h.renamed hi, h.renamed hp]
    exact (complete.node i _ was).memo r₀ body₀ kind old rfl hm ((h.level hi).symm.trans_lt level)
  · obtain ⟨i, r₀, body₀, hi, was, fixpoint, -⟩ := h.rule_back (same ▸ there)
    rw [h.renamed hi]
    exact (complete.node i _ was).right r₀ body₀ rfl (fixpoint ▸ state)
      ((h.level hi).symm.trans_lt level)
  · rw [h.memo, Memo.find?_nil] at found
    cases found

omit [DecidableEq L] in
theorem regular (h : Moved place g g') (regular : g.Regular) : g'.Regular := by
  intro j node' there
  obtain ⟨i, node, hi, was, rfl, -⟩ := h.get?_back there
  obtain ⟨fixed, defined⟩ := regular i node was
  cases node with
  | rule | thunk => cases fixed
  | undefined name => exact absurd rfl (defined name)
  | _ => exact ⟨rfl, nofun⟩

/-! ### What matches something -/

omit [DecidableEq L] in
/-- A node that matches something where it is now did where it was. -/
theorem productive (h : Moved place g g') (hi : place i = some j) (productive : g'.Productive j) :
    g.Productive i := by
  refine productive.least (P := fun j => ∀ i, place i = some j → g.Productive i) ?_ i hi
  intro j node' there' _ shows i hi
  obtain ⟨node, there, there'', has⟩ := h.forth i j hi
  cases there'.symm.trans there''
  refine (productive_iff there).mpr ?_
  have part {x : NodeId} (hx : x ∈ node.successors true)
      (hp : ∀ i, place i = some (movedBy place x) → g.Productive i) : g.Productive x := by
    obtain ⟨y, hy⟩ := has x hx
    exact hp x (by rw [movedBy_of_some hy, hy])
  cases node with
  | empty | token | matched | rep | undefined => exact shows
  | alt left right => exact shows.imp (part (.head _)) (part (.tail _ (.head _)))
  | cat left right => exact ⟨part (.head _) shows.1, part (.tail _ (.head _)) shows.2⟩
  | rule r body => exact part (.head _) shows
  | thunk t base =>
    obtain ⟨s, state⟩ := t
    rcases shows with waiting | ⟨target, resolved, hp⟩
    · cases state with
      | pending | running => exact .inl rfl
      | forced => cases waiting
      | culled target => cases target <;> cases waiting
    · cases state with
      | pending | running => cases resolved
      | forced target =>
        cases resolved
        exact .inr ⟨target, rfl, part (.head _) hp⟩
      | culled target =>
        cases target with
        | none => cases resolved
        | some target =>
          cases resolved
          exact .inr ⟨target, rfl, part (.head _) hp⟩

omit [DecidableEq L] in
theorem vetted (h : Moved place g g') (vetted : Vetted W g) : Vetted (W.renamed place) g' := by
  intro j r' body' there' asked productive
  obtain ⟨i, r, body, hi, there, fixpoint, -⟩ := h.rule_back there'
  rw [h.renamed hi]
  exact vetted i r body there (fixpoint ▸ asked) (h.productive hi productive)

omit [DecidableEq L] in
theorem isRule (h : Moved place g g') (hi : place i = some j) (rule : g.IsRule i) :
    g'.IsRule j := by
  obtain ⟨r, body, was⟩ := rule
  obtain ⟨node, there, there', -⟩ := h.forth i j hi
  cases Option.some.inj (there.symm.trans was)
  exact ⟨_, _, there'⟩

omit [DecidableEq L] in
theorem proper (h : Moved place g g') (proper : g.Proper) : g'.Proper := by
  intro j node' there
  obtain ⟨i, node, hi, was, rfl, -⟩ := h.get?_back there
  have kept := proper i node was
  cases node with
  | undefined => exact kept
  | rule r body =>
    intro kind next hm
    obtain ⟨old, hm, hp⟩ := remembered_of_moved hm
    exact h.isRule hp (kept kind old hm)
  | _ => trivial

omit [DecidableEq L] in
theorem shaped {parts : Bool} (h : Moved place g g') (hi : place i = some j)
    (shaped : g.Shaped i parts) : g'.Shaped j parts := by
  obtain ⟨node, there, there', -⟩ := h.forth i j hi
  refine ⟨node.relocate place, there', ?_⟩
  have shape := shaped.eq there
  cases node <;> exact shape

/-! ### Derivations -/

omit [DecidableEq L] in
/-- What a node that is kept depends on is kept, and goes by its new name. -/
theorem part (h : Moved place g g') (hi : place i = some j) (there : g.arena.get? i = some node) :
    g'.arena.get? j = some (node.relocate place) ∧
      ∀ x ∈ node.successors true, place x = some (movedBy place x) := by
  obtain ⟨node', there', there'', has⟩ := h.forth i j hi
  cases Option.some.inj (there.symm.trans there')
  refine ⟨there'', fun x hx => ?_⟩
  obtain ⟨y, hy⟩ := has x hx
  rw [movedBy_of_some hy, hy]

omit [DecidableEq L] in
/-- What is kept of a pristine set looks like what it was. -/
theorem mirrors {O : NodeId → Prop} (h : Moved place g g') (pristine : g.Pristine O) :
    g.Mirrors (fun i j => place i = some j ∧ O i) g' where
  empty := pristine.empty
  node i j := by
    rintro ⟨hi, inside⟩
    obtain ⟨node, was, built⟩ := pristine.node i inside
    obtain ⟨there', has⟩ := h.part hi was
    refine ⟨node, _, was, there', ?_⟩
    have edge {x : NodeId} (member : x ∈ node.successors true)
        (member' : x ∈ node.successors false) :
        g.Edge (fun i j => place i = some j ∧ O i) x (movedBy place x) :=
      ⟨x, .refl x, has x member, pristine.closed i node inside was x member'⟩
    cases node with
    | matched | thunk => cases built
    | empty => exact .empty
    | token kind => exact .token kind
    | undefined name => exact .undefined name
    | alt l r =>
      exact .alt (edge (.head _) (.head _)) (edge (.tail _ (.head _)) (.tail _ (.head _)))
    | cat l r =>
      exact .cat (edge (.head _) (.head _)) (edge (.tail _ (.head _)) (.tail _ (.head _)))
    | rep b => exact .rep (edge (.head _) (.head _))
    | rule r b => exact .rule (edge (.head _) (.head _))

omit [DecidableEq L] in
theorem pristine {O : NodeId → Prop} (h : Moved place g g') (pristine : g.Pristine O) :
    g'.Pristine fun j => ∃ i, place i = some j ∧ O i where
  nothing := ⟨Grammar.nothing, h.nothing, pristine.nothing⟩
  empty := (h.part h.nothing pristine.empty).1
  node j := by
    rintro ⟨i, hi⟩
    obtain ⟨_, node', -, there', alike⟩ := (h.mirrors pristine).node i j hi
    exact ⟨node', there', alike.isBuilt⟩
  closed j node' := by
    rintro ⟨i, hi⟩ there y hy
    obtain ⟨node, -, alike⟩ := (h.mirrors pristine).back hi there
    obtain ⟨x, -, z, -, hz⟩ := alike.exists_edge hy
    exact ⟨z, hz⟩

end Grammar.Moved

end Moved

end DerivativeParsing
