import DerivativeParsing.Proofs.Steadiness
import DerivativeParsing.Proofs.Verdicts

/-!
# Evaluation only moves forward

While a recognizer works, thunks are taken and rules are settled. A collection gives the nodes new
names, so what is said of a node over a whole run is said along `Grammar.follow`; and thunks are
told apart by where they first stood.

1. `Node.AtRest`: nothing is under way at a node.
2. `Grammar.Advances`: no thunk goes back, what a thunk is resolved to changes by culling only, and
   what is settled about a rule stays. `Turns.advances`: so it is with each deed, hence
   (`enactAll_advances`) with any deeds.
3. `Grammar.taken`: the thunks that are not pending any more. `Turns.counts`: the counter of
   evaluated thunks goes up by the number of those that were just taken, whatever is done.
4. A `Ledger` names every node for good, by when and where it was first seen, and collects the names
   of the thunks that were taken. `Ledger.Fits`: their number is what the counter shows.
   `Fits.after`: a deed keeps this.
5. `evaluation_advances`: all of this along the run of a recognizer.
-/

namespace DerivativeParsing

open Grammar (nothing lt_size_of_get?)

/-! ## Nodes at rest -/

/-- A node at which no action is under way: a thunk is pending or it has a target, and a rule was
not asked for its nullability or has an answer. -/
def Node.AtRest {L : Type} : Node L → Prop
  | .thunk t _ =>
    t.state = .pending ∨ ∃ target, t.state = .forced target ∨ t.state = .culled (some target)
  | .rule r _ => (r.fixpoint = .unstarted ∨ ∃ b, r.fixpoint = .done b) ∧ r.busy = false
  | _ => True

/-- No action is under way at any node. -/
def Grammar.AtRest {L : Type} (g : Grammar L) : Prop :=
  ∀ (x : NodeId) node, g.arena.get? x = some node → node.AtRest

section AtRest

variable {L : Type} {node : Node L}

theorem Node.atRest (idle : node.Idle) (unculled : node.Unculled) : node.AtRest := by
  obtain ⟨notBegun, notRunning, notBusy⟩ := idle
  cases node with
  | rule r body =>
    refine ⟨?_, Bool.eq_false_iff.mpr notBusy⟩
    cases state : r.fixpoint with
    | unstarted => exact .inl rfl
    | inProgress => exact absurd state notBegun
    | done b => exact .inr ⟨b, rfl⟩
  | thunk t base =>
    obtain ⟨s, state⟩ := t
    cases state with
    | pending => exact .inl rfl
    | running => exact absurd rfl notRunning
    | forced target => exact .inr ⟨target, .inl rfl⟩
    | culled target =>
      cases target with
      | none => exact absurd rfl unculled
      | some target => exact .inr ⟨target, .inr rfl⟩
  | _ => trivial

end AtRest

/-! ## Going forward -/

/-- What became of a node: a thunk that was resolved still is, and where no culling was done it is
resolved to the same node, by its new name; a rule that was known to match the empty word or not to
still is. -/
def Node.Advances {L : Type} (culling : Bool) (place : NodeId → Option NodeId)
    (node node' : Node L) : Prop :=
  match node with
  | .thunk t _ => ∃ t' base', node' = .thunk t' base' ∧ t'.symbol = t.symbol ∧
      ∀ target, t.resolved? = some target →
        ∃ target', t'.resolved? = some target' ∧ (culling = false → place target = some target')
  | .rule r _ => ∃ r' body', node' = .rule r' body' ∧ r'.name = r.name ∧
    ∀ b, r.fixpoint = .done b → r'.fixpoint = .done b
  | _ => True

/-- Every node went forward that was given a place. -/
def Grammar.Advances {L : Type} (culling : Bool) (place : NodeId → Option NodeId)
    (g g' : Grammar L) : Prop :=
  ∀ x y node, g.arena.get? x = some node → place x = some y →
    ∃ node', g'.arena.get? y = some node' ∧ node.Advances culling place node'

section Advances

variable {L : Type} {culling culling' : Bool} {place place' : NodeId → Option NodeId}
  {a b c node : Node L} {g g₁ g' : Grammar L}

theorem Node.Advances.refl (culling : Bool) (node : Node L) : node.Advances culling some node := by
  cases node with
  | thunk t base => exact ⟨t, base, rfl, rfl, fun target known => ⟨target, known, fun _ => rfl⟩⟩
  | rule r body => exact ⟨r, body, rfl, rfl, fun _ state => state⟩
  | _ => trivial

theorem Node.Advances.trans (h : a.Advances culling place b) (h' : b.Advances culling' place' c) :
    a.Advances (culling || culling') (fun x => (place x).bind place') c := by
  cases a with
  | thunk t base =>
    obtain ⟨t₁, base₁, rfl, symbol, keep⟩ := h
    obtain ⟨t₂, base₂, rfl, symbol', keep'⟩ := h'
    refine ⟨t₂, base₂, rfl, symbol'.trans symbol, fun target known => ?_⟩
    obtain ⟨target₁, known₁, same⟩ := keep target known
    obtain ⟨target₂, known₂, same'⟩ := keep' target₁ known₁
    refine ⟨target₂, known₂, fun none => ?_⟩
    obtain ⟨left, right⟩ := Bool.or_eq_false_iff.mp none
    exact Option.bind_eq_some_iff.mpr ⟨target₁, same left, same' right⟩
  | rule r body =>
    obtain ⟨r₁, body₁, rfl, name, keep⟩ := h
    obtain ⟨r₂, body₂, rfl, name', keep'⟩ := h'
    exact ⟨r₂, body₂, rfl, name'.trans name, fun b state => keep' b (keep b state)⟩
  | _ => trivial

theorem Grammar.Advances.of_eq (arena : g'.arena = g.arena) : g.Advances culling some g' := by
  rintro x _ node there ⟨⟩
  exact ⟨node, arena ▸ there, .refl culling node⟩

theorem Grammar.Advances.trans (h : g.Advances culling place g₁)
    (h' : g₁.Advances culling' place' g') :
    g.Advances (culling || culling') (fun x => (place x).bind place') g' := by
  intro x z node there hz
  obtain ⟨y, hy, hz⟩ := Option.bind_eq_some_iff.mp hz
  obtain ⟨node₁, there₁, step⟩ := h x y node there hy
  obtain ⟨node₂, there₂, step'⟩ := h' y z node₁ there₁ hz
  exact ⟨node₂, there₂, step.trans step'⟩

theorem Node.Becomes.advances (h : a.Becomes b) : a.Advances false some b := by
  cases h with
  | same => exact .refl false a
  | @rule r r' body name _ state =>
    refine ⟨r', body, rfl, name.symm, fun b known => ?_⟩
    rw [known] at state
    generalize r'.fixpoint = fixpoint at state ⊢
    cases state
    rfl
  | @thunk t t' base symbol state =>
    refine ⟨t', base, rfl, symbol.symm, fun target known => ⟨target, ?_, fun _ => rfl⟩⟩
    obtain ⟨s, state₀⟩ := t
    obtain ⟨s', state₁⟩ := t'
    cases state with
    | same => exact known
    | evaluated => cases known

/-- A collection takes a thunk to its new place with what it is resolved to. -/
theorem Grammar.Moved.advances (moved : Grammar.Moved place g g') : g.Advances false place g' := by
  intro x y node there hy
  obtain ⟨there', has⟩ := moved.part hy there
  refine ⟨_, there', ?_⟩
  cases node with
  | thunk t base =>
    obtain ⟨s, state⟩ := t
    refine ⟨_, _, rfl, rfl, fun target known => ⟨movedBy place target, ?_, fun _ => ?_⟩⟩
    · cases state with
      | pending | running => cases known
      | forced | culled =>
        cases known
        rfl
    · cases state with
      | pending | running => cases known
      | forced | culled =>
        cases known
        exact has _ (.head _)
  | rule r body => exact ⟨_, _, rfl, rfl, fun _ state => state⟩
  | _ => trivial

/-- A culling keeps resolved thunks resolved, but may lead them elsewhere. -/
theorem Shrinking.advances {F : Std.TreeMap NodeId (Option NodeId)} (culled : Shrinking g F g')
    (change : Recasts g g') (unculled : g'.Unculled) : g.Advances true some g' := by
  rintro x _ node there ⟨⟩
  obtain ⟨node', there', shrunk⟩ := culled.node x node there
  refine ⟨node', there', ?_⟩
  cases node with
  | thunk t base =>
    cases shrunk with
    | same => exact .refl true _
    | @thunk _ _ _ result =>
      cases result with
      | none => exact absurd rfl (unculled x _ there')
      | some next => exact ⟨_, base, rfl, rfl, fun _ _ => ⟨next, rfl, nofun⟩⟩
  | rule r body =>
    obtain ⟨body', there₁, -⟩ := culled.get?_rule change there
    cases Option.some.inj (there'.symm.trans there₁)
    exact ⟨r, body', rfl, rfl, fun _ state => state⟩
  | _ => trivial

end Advances

section Turns

variable {L : Type} [DecidableEq L] {links : Links} {W : World} {g g' : Grammar L} {culling : Bool}
  {place : NodeId → Option NodeId} {fuel : Nat} {deeds : List (Deed L)}

theorem Grammar.Between.atRest (h : g.Between links) : g.AtRest := by
  obtain ⟨⟨W, good⟩, unculled⟩ := h
  exact fun x node there => Node.atRest (good.quiet x node there) (unculled x node there)

theorem Turns.advances (h : Turns W g culling place g') (good : Good links W g)
    (unculled : g.Unculled) : g.Advances culling place g' := by
  have unculled' := h.unculled good unculled
  cases h with
  | evaluates evaluated =>
    rintro x _ node there ⟨⟩
    obtain ⟨node', there', step⟩ := evaluated.extension.node x node there
    exact ⟨node', there', step.advances⟩
  | stays arena => exact .of_eq arena
  | culls run =>
    obtain ⟨culled, change⟩ := cull_changes good run
    exact culled.advances change unculled'
  | collects _ moved => exact moved.advances

theorem enactAll_between (h : g.Between links)
    (run : Grammar.enactAll fuel deeds g = .ok ((), g')) : g'.Between links :=
  enactAll_induct (P := Grammar.Between links)
    (fun _ _ _ _ _ h run => (enact_between h run).1) h run

/-- From between any two deeds to between any two others, every node goes forward that is still
there. -/
theorem enactAll_advances (h : g.Between links)
    (run : Grammar.enactAll fuel deeds g = .ok ((), g')) :
    g.Advances (deeds.any Deed.isCull)
      (Grammar.follow (Grammar.enact fuel) Deed.place deeds g) g' := by
  induction deeds generalizing g with
  | nil =>
    obtain ⟨-, rfl⟩ := Action.pure_ok.mp run
    exact .of_eq rfl
  | cons d rest ih =>
    obtain ⟨_, g₁, first, run⟩ := Action.bind_ok.mp run
    obtain ⟨h₁, W, good, turns⟩ := enact_between h first
    rw [show Grammar.follow (Grammar.enact fuel) Deed.place (d :: rest) g =
      fun x => (d.place g x).bind (Grammar.follow (Grammar.enact fuel) Deed.place rest g₁)
      from funext (follow_cons first)]
    exact (turns.advances good h.2).trans (ih h₁ run)

end Turns

/-! ## Thunks that were taken -/

/-- Whether a node is a thunk that is not pending any more. -/
def Node.isTaken {L : Type} : Node L → Bool
  | .thunk t _ => t.state ≠ .pending
  | _ => false

namespace Grammar

variable {L : Type}

/-- The slots of the thunks that are not pending any more. -/
def taken (g : Grammar L) : Finset NodeId :=
  {x ∈ Finset.range g.size | (g.arena.get? x).any Node.isTaken}

/-- The slots of the thunks that were taken between two grammars, of which the second keeps nodes of
the first in the places that are given. -/
def newlyTaken (place : NodeId → Option NodeId) (g g' : Grammar L) : Finset NodeId :=
  {y ∈ g'.taken | ∀ x ∈ g.taken, place x ≠ some y}

end Grammar

section Taken

variable {L : Type} {g g₁ g' : Grammar L} {id base : NodeId} {t : Thunk L} {node : Node L}

theorem mem_taken {x : NodeId} :
    x ∈ g.taken ↔ ∃ node, g.arena.get? x = some node ∧ node.isTaken := by
  unfold Grammar.taken
  rw [Finset.mem_filter, Finset.mem_range, Option.any_eq_true]
  exact ⟨fun h => h.2, fun ⟨node, there, taken⟩ => ⟨lt_size_of_get? there, node, there, taken⟩⟩

theorem lt_size_of_taken {x : NodeId} (taken : x ∈ g.taken) : x < g.size := by
  obtain ⟨node, there, -⟩ := mem_taken.mp taken
  exact lt_size_of_get? there

theorem taken_withNode (untaken : node.isTaken = false) : (g.withNode node).taken = g.taken := by
  ext x
  rw [mem_taken, mem_taken, Grammar.get?_withNode]
  split
  · rename_i last
    subst last
    constructor
    · rintro ⟨_, ⟨⟩, taken⟩
      cases untaken.symm.trans taken
    · rintro ⟨_, there, -⟩
      exact absurd (lt_size_of_get? there) (Nat.lt_irrefl _)
  · rfl

theorem taken_revised {f : Node L → Node L}
    (same : ∀ node, g.arena.get? id = some node → (f node).isTaken = node.isTaken) :
    (g.revised id f).taken = g.taken := by
  ext x
  rw [mem_taken, mem_taken, Grammar.get?_revised]
  split
  · rename_i here
    subst here
    constructor
    · rintro ⟨_, new, taken⟩
      obtain ⟨node, there, rfl⟩ := Option.map_eq_some_iff.mp new
      exact ⟨node, there, (same node there).symm.trans taken⟩
    · rintro ⟨node, there, taken⟩
      exact ⟨f node, Option.map_eq_some_iff.mpr ⟨node, there, rfl⟩, (same node there).trans taken⟩
  · rfl

theorem taken_mapRule (f : Rule → Rule) : (g.revised id (.mapRule f)).taken = g.taken :=
  taken_revised fun node _ => by cases node <;> rfl

theorem taken_running (there : g.arena.get? id = some (.thunk t base)) :
    (g.running id).taken = insert id g.taken := by
  ext x
  rw [Finset.mem_insert, mem_taken, mem_taken, Grammar.running, Grammar.get?_revised]
  split
  · rename_i here
    subst here
    rw [there]
    exact iff_of_true ⟨_, rfl, rfl⟩ (.inl rfl)
  · rename_i other
    exact (or_iff_right (Ne.symm other)).symm

theorem not_mem_taken_of_pending (there : g.arena.get? id = some (.thunk t base))
    (state : t.state = .pending) : id ∉ g.taken := by
  rw [mem_taken]
  rintro ⟨_, there', taken⟩
  cases Option.some.inj (there.symm.trans there')
  exact absurd state (of_decide_eq_true taken)

/-! ## The counter of thunks that were evaluated -/

def Grammar.Balances (g g' : Grammar L) : Prop :=
  g'.stats.forced + g.taken.card = g.stats.forced + g'.taken.card

namespace Grammar.Balances

theorem of_eq (taken : g'.taken = g.taken) (forced : g'.stats.forced = g.stats.forced) :
    g.Balances g' := by
  rw [Balances, taken, forced]

theorem trans (h : g.Balances g₁) (h' : g₁.Balances g') : g.Balances g' := by
  unfold Balances at *
  omega

theorem withNode (untaken : node.isTaken = false) : g.Balances (g.withNode node) :=
  of_eq (taken_withNode untaken) rfl

theorem mapRule (f : Rule → Rule) : g.Balances (g.revised id (.mapRule f)) :=
  of_eq (taken_mapRule f) rfl

end Grammar.Balances

end Taken

section Evaluation

variable {L : Type} [DecidableEq L] {W W' : World} {g g' : Grammar L} {q : Question L} {a : Reply}

/-- A thunk is taken before its evaluation, and counted after it; and in between, as many others are
taken as are counted. -/
theorem Evaluates.balances (h : Evaluates W g q a W' g') : g.Balances g' := by
  induction h with
  | spent | rule_known | known | miss | nullable_plain | nullable_done | force_other
  | force_resolved
  | undefined | nullable_cycle | force_running => exact .of_eq rfl rfl
  | rule_new => exact ((Grammar.Balances.withNode rfl).trans (.withNode rfl)).trans (.mapRule _)
  | thunk _ _ _ ihf ihd => exact ihf.trans ihd
  | fresh _ _ _ _ ih => exact ih
  | hit => exact .withNode rfl
  | alt _ _ _ ihl ihr => exact (ihl.trans ihr).trans (.withNode rfl)
  | cat _ _ _ ihb ihl => exact (ihb.trans ihl).trans (.withNode rfl)
  | cat_nullable _ _ _ _ _ ihb ihl ihr =>
    exact (((ihb.trans ihl).trans (.withNode rfl)).trans ihr).trans (.withNode rfl)
  | rep _ _ ih => exact ih.trans (.withNode rfl)
  | nullable_left _ _ ih | nullable_first _ _ ih => exact ih
  | nullable_right _ _ _ ihl ihr | nullable_second _ _ _ ihl ihr => exact ihl.trans ihr
  | nullable_thunk _ _ _ ihf ihn => exact ihf.trans ihn
  | nullable_rule _ _ _ ih => exact ((Grammar.Balances.mapRule _).trans ih).trans (.mapRule _)
  | @force_pending W W₁ g g₁ id base target t there state hd ih =>
    have begun : (g.running id).taken.card = g.taken.card + 1 := by
      rw [taken_running there, Finset.card_insert_of_notMem (not_mem_taken_of_pending there state)]
    obtain ⟨t₁, there₁, -, kept⟩ := hd.extension.get?_thunk (Grammar.get?_running there)
    have ended : (g₁.resolved id t base target).taken = g₁.taken := by
      show (g₁.revised id (.setState (.forced target))).taken = g₁.taken
      refine taken_revised fun node there₁' => ?_
      cases Option.some.inj (there₁.symm.trans there₁')
      obtain ⟨s₁, state₁⟩ := t₁
      cases kept
      rfl
    have counted : (g₁.resolved id t base target).stats.forced = g₁.stats.forced + 1 := rfl
    have ih : g₁.stats.forced + (g.running id).taken.card = g.stats.forced + g₁.taken.card := ih
    rw [Grammar.Balances, ended, counted]
    omega

end Evaluation

/-! ## What deeds do about taken thunks -/

/-- Thunks that were taken stay so, in the places that are given, and the new ones are counted. -/
structure Grammar.Counts {L : Type} (place : NodeId → Option NodeId) (g g' : Grammar L) : Prop where
  injective : ∀ x x' y, place x = some y → place x' = some y → x = x'
  range : ∀ x y, x < g.size → place x = some y → y < g'.size
  stays : ∀ x y, x ∈ g.taken → place x = some y → y ∈ g'.taken
  forced : g'.stats.forced = g.stats.forced + (Grammar.newlyTaken place g g').card

section Counts

variable {L : Type} [DecidableEq L] {links : Links} {W W' : World} {g g' : Grammar L}
  {q : Question L} {a : Reply} {culling : Bool} {place : NodeId → Option NodeId}

omit [DecidableEq L] in
theorem Node.Becomes.isTaken {node node' : Node L} (h : node.Becomes node') (taken : node.isTaken) :
    node'.isTaken := by
  cases h with
  | same | rule => exact taken
  | @thunk t t' base symbol state =>
    obtain ⟨s, state₀⟩ := t
    obtain ⟨s', state₁⟩ := t'
    cases state with
    | same => exact taken
    | evaluated => rfl

omit [DecidableEq L] in
/-- Where only thunks are taken that were, none is to be counted. -/
theorem newlyTaken_eq_empty (old : ∀ y ∈ g'.taken, ∃ x ∈ g.taken, place x = some y) :
    Grammar.newlyTaken place g g' = ∅ := by
  refine Finset.filter_eq_empty_iff.mpr fun y taken new => ?_
  obtain ⟨x, before, hx⟩ := old y taken
  exact new x before hx

omit [DecidableEq L] in
/-- Where the nodes are as they were, nothing is to be counted. -/
theorem Grammar.Counts.of_taken_eq (size : g.size ≤ g'.size) (taken : g'.taken = g.taken)
    (forced : g'.stats.forced = g.stats.forced) : g.Counts some g' where
  injective _ _ _ hx hx' := Option.some.inj (hx.trans hx'.symm)
  range := by
    rintro x _ lt ⟨⟩
    exact Nat.lt_of_lt_of_le lt size
  stays := by
    rintro x _ before ⟨⟩
    exact taken ▸ before
  forced := by rw [forced, newlyTaken_eq_empty fun y after => ⟨y, taken ▸ after, rfl⟩,
    Finset.card_empty, Nat.add_zero]

theorem Evaluates.counts (h : Evaluates W g q a W' g') : g.Counts some g' := by
  have stays : g.taken ⊆ g'.taken := by
    intro x taken
    obtain ⟨node, there, taken⟩ := mem_taken.mp taken
    obtain ⟨node', there', step⟩ := h.extension.node x node there
    exact mem_taken.mpr ⟨node', there', step.isTaken taken⟩
  refine ⟨fun _ _ _ hx hx' => Option.some.inj (hx.trans hx'.symm), ?_, ?_, ?_⟩
  · rintro x _ lt ⟨⟩
    exact Nat.lt_of_lt_of_le lt h.extension.size
  · rintro x _ taken ⟨⟩
    exact stays taken
  · have new : Grammar.newlyTaken some g g' = g'.taken \ g.taken := by
      ext y
      rw [Grammar.newlyTaken, Finset.mem_filter, Finset.mem_sdiff]
      refine and_congr_right fun _ =>
        ⟨fun new taken => new y taken rfl, fun untaken x taken same => ?_⟩
      exact untaken (Option.some.inj same ▸ taken)
    have balances : g'.stats.forced + g.taken.card = g.stats.forced + g'.taken.card := h.balances
    rw [new, Finset.card_sdiff_of_subset stays]
    have := Finset.card_le_card stays
    omega

omit [DecidableEq L] in
theorem Shrinking.taken {F : Std.TreeMap NodeId (Option NodeId)} (culled : Shrinking g F g') :
    g'.taken = g.taken := by
  ext x
  rw [mem_taken, mem_taken]
  constructor
  · rintro ⟨node', there', taken⟩
    obtain ⟨node, there, shrunk⟩ := culled.get?_back there'
    refine ⟨node, there, ?_⟩
    cases shrunk with
    | same => exact taken
    | @thunk t base target result resolved =>
      obtain ⟨s, state⟩ := t
      cases state with
      | pending => cases resolved
      | running | forced | culled => rfl
    | alt | cat | rep | rule => cases taken
  · rintro ⟨node, there, taken⟩
    obtain ⟨node', there', shrunk⟩ := culled.node x node there
    refine ⟨node', there', ?_⟩
    cases shrunk with
    | same => exact taken
    | thunk => rfl
    | alt | cat | rep | rule => cases taken

omit [DecidableEq L] in
/-- A collection takes no thunk to its new place that was not taken. -/
theorem Node.isTaken_relocate (node : Node L) : (node.relocate place).isTaken = node.isTaken := by
  cases node with
  | thunk t base =>
    obtain ⟨s, state⟩ := t
    cases state with
    | culled target => cases target <;> rfl
    | pending | running | forced => rfl
  | _ => rfl

omit [DecidableEq L] in
theorem Grammar.Moved.counts (moved : Grammar.Moved place g g')
    (forced : g'.stats.forced = g.stats.forced) : g.Counts place g' where
  injective _ _ _ hx hx' := moved.injective hx hx'
  range _ _ _ hy := moved.lt_size hy
  stays x y taken hy := by
    obtain ⟨node, there, taken⟩ := mem_taken.mp taken
    exact mem_taken.mpr ⟨_, (moved.part hy there).1, (Node.isTaken_relocate node).trans taken⟩
  forced := by
    rw [forced, newlyTaken_eq_empty, Finset.card_empty, Nat.add_zero]
    intro y taken
    obtain ⟨node', there', taken⟩ := mem_taken.mp taken
    obtain ⟨x, node, hx, there, rfl, -⟩ := moved.get?_back there'
    exact ⟨x, mem_taken.mpr ⟨node, there, (Node.isTaken_relocate node).symm.trans taken⟩, hx⟩

theorem Turns.counts (h : Turns W g culling place g') (good : Good links W g) :
    g.Counts place g' := by
  cases h with
  | evaluates evaluated => exact evaluated.counts
  | stays arena _ stats =>
    refine .of_taken_eq (Nat.le_of_eq (congrArg Arena.size arena.symm)) ?_
      (congrArg Stats.forced stats)
    rw [Grammar.taken, Grammar.taken, Grammar.size, Grammar.size, arena]
  | culls run =>
    obtain ⟨culled, -⟩ := cull_changes good run
    obtain ⟨arena, pruned, rfl⟩ := cull_apart run
    exact .of_taken_eq (Nat.le_of_eq culled.size.symm) culled.taken rfl
  | collects run moved =>
    obtain ⟨t, -, same⟩ := Grammar.collect_iff.mp run
    cases same
    exact moved.counts rfl

end Counts

/-! ## The ledger -/

/-- The nodes by names that last: when a node was first seen, by the number of deeds until then, and
the slot where it was. Among them are the names of the thunks that were taken. -/
structure Ledger where
  clock : Nat
  name : NodeId → Nat × NodeId
  taken : Finset (Nat × NodeId)

namespace Ledger

variable {L : Type}

def opening (g : Grammar L) : Ledger :=
  { clock := 0, name := fun x => (0, x), taken := g.taken.image fun x => (0, x) }

/-- What a node is called after a deed: what it was called in its old place, or else it is new. -/
def rename (ledger : Ledger) (place : NodeId → Option NodeId) (g : Grammar L) (y : NodeId) :
    Nat × NodeId :=
  match (List.range g.size).find? fun x => place x == some y with
  | some x => ledger.name x
  | none => (ledger.clock + 1, y)

/-- The ledger after a deed. -/
def after (ledger : Ledger) (place : NodeId → Option NodeId) (g g' : Grammar L) : Ledger :=
  { clock := ledger.clock + 1
    name := ledger.rename place g
    taken := ledger.taken ∪ g'.taken.image (ledger.rename place g) }

end Ledger

def Grammar.audit {L : Type} [DecidableEq L] (fuel : Nat) :
    List (Deed L) → Grammar L → Ledger → Ledger
  | [], _, ledger => ledger
  | d :: rest, g, ledger =>
    match enact fuel d g with
    | .ok (_, g') => audit fuel rest g' (ledger.after (d.place g) g g')
    | .error _ => ledger

/-- The ledger is right about a grammar: every node has a name of its own, the taken thunks have
their names in it, and they were counted. -/
structure Ledger.Fits {L : Type} (ledger : Ledger) (g : Grammar L) : Prop where
  injective : ∀ x y, x < g.size → y < g.size → ledger.name x = ledger.name y → x = y
  past : ∀ x, x < g.size → (ledger.name x).1 ≤ ledger.clock
  earlier : ∀ name ∈ ledger.taken, name.1 ≤ ledger.clock
  taken : ∀ x, x < g.size → (ledger.name x ∈ ledger.taken ↔ x ∈ g.taken)
  forced : ledger.taken.card = g.stats.forced

section Ledger

variable {L : Type} {ledger : Ledger} {g g' : Grammar L} {place : NodeId → Option NodeId}
  {x y : NodeId}

theorem Ledger.fits_opening (untaken : g.taken = ∅) (forced : g.stats.forced = 0) :
    (Ledger.opening g).Fits g where
  injective _ _ _ _ same := congrArg Prod.snd same
  past _ _ := Nat.le_refl 0
  earlier name member := by
    obtain ⟨x, -, rfl⟩ := Finset.mem_image.mp member
    exact Nat.le_refl 0
  taken x _ := by
    constructor
    · intro member
      obtain ⟨_, taken, ⟨⟩⟩ := Finset.mem_image.mp member
      exact taken
    · exact Finset.mem_image_of_mem _
  forced := by
    show (g.taken.image _).card = _
    rw [untaken, Finset.image_empty, Finset.card_empty, forced]

/-- A node keeps its name in its new place, and a new node has a new one. -/
theorem Ledger.rename_cases (ledger : Ledger) (place : NodeId → Option NodeId) (g : Grammar L)
    (y : NodeId) :
    (∃ x < g.size, place x = some y ∧ ledger.rename place g y = ledger.name x) ∨
      (∀ x < g.size, place x ≠ some y) ∧ ledger.rename place g y = (ledger.clock + 1, y) := by
  unfold Ledger.rename
  cases found : (List.range g.size).find? fun x => place x == some y with
  | some x =>
    have hx : (place x == some y) = true := List.find?_some (p := fun x => place x == some y) found
    exact .inl ⟨x, List.mem_range.mp (List.mem_of_find?_eq_some found), beq_iff_eq.mp hx, rfl⟩
  | none =>
    refine .inr ⟨fun x lt hx => ?_, rfl⟩
    exact List.find?_eq_none.mp found x (List.mem_range.mpr lt) (beq_iff_eq.mpr hx)

/-- After a deed the ledger is still right. A thunk that was just taken is not in it yet: it has the
name of a thunk that was pending, or it is new. -/
theorem Ledger.Fits.after (fits : ledger.Fits g) (counts : g.Counts place g') :
    (ledger.after place g g').Fits g' := by
  have injective (y y' : NodeId) (same : ledger.rename place g y = ledger.rename place g y') :
      y = y' := by
    rcases ledger.rename_cases place g y with ⟨x, lt, hx, old⟩ | ⟨-, new⟩ <;>
      rcases ledger.rename_cases place g y' with ⟨x', lt', hx', old'⟩ | ⟨-, new'⟩
    · cases fits.injective x x' lt lt' (old.symm.trans (same.trans old'))
      exact Option.some.inj (hx.symm.trans hx')
    · have past := fits.past x lt
      rw [← old, same, new'] at past
      exact absurd past (Nat.not_succ_le_self _)
    · have past := fits.past x' lt'
      rw [← old', ← same, new] at past
      exact absurd past (Nat.not_succ_le_self _)
    · exact congrArg Prod.snd (new.symm.trans (same.trans new'))
  have known {y : NodeId} (member : ledger.rename place g y ∈ ledger.taken) :
      ∃ x ∈ g.taken, place x = some y := by
    rcases ledger.rename_cases place g y with ⟨x, lt, hx, old⟩ | ⟨-, new⟩
    · exact ⟨x, (fits.taken x lt).mp (old ▸ member), hx⟩
    · have earlier := fits.earlier _ member
      rw [new] at earlier
      exact absurd earlier (Nat.not_succ_le_self _)
  have kept {x y : NodeId} (taken : x ∈ g.taken) (hx : place x = some y) :
      ledger.rename place g y ∈ ledger.taken := by
    rcases ledger.rename_cases place g y with ⟨x', lt', hx', old⟩ | ⟨none, -⟩
    · cases counts.injective x x' y hx hx'
      exact old ▸ (fits.taken x lt').mpr taken
    · exact absurd hx (none x (lt_size_of_taken taken))
  have added : (ledger.after place g g').taken =
      ledger.taken ∪ (Grammar.newlyTaken place g g').image (ledger.rename place g) := by
    refine le_antisymm (Finset.union_subset Finset.subset_union_left fun name member => ?_)
      (Finset.union_subset_union_right (Finset.image_subset_image (Finset.filter_subset _ _)))
    obtain ⟨y, taken, rfl⟩ := Finset.mem_image.mp member
    by_cases old : ∃ x ∈ g.taken, place x = some y
    · obtain ⟨x, before, hx⟩ := old
      exact Finset.mem_union_left _ (kept before hx)
    · refine Finset.mem_union_right
        _ (Finset.mem_image_of_mem _ (Finset.mem_filter.mpr ⟨taken, fun x before hx => ?_⟩))
      exact old ⟨x, before, hx⟩
  have apart : Disjoint ledger.taken
      ((Grammar.newlyTaken place g g').image (ledger.rename place g)) := by
    refine Finset.disjoint_right.mpr fun name member old => ?_
    obtain ⟨y, new, rfl⟩ := Finset.mem_image.mp member
    obtain ⟨x, before, hx⟩ := known old
    exact (Finset.mem_filter.mp new).2 x before hx
  have past (y : NodeId) : (ledger.rename place g y).1 ≤ ledger.clock + 1 := by
    rcases ledger.rename_cases place g y with ⟨x, lt, -, old⟩ | ⟨-, new⟩
    · exact old ▸ Nat.le_succ_of_le (fits.past x lt)
    · exact new ▸ Nat.le_refl _
  constructor
  · exact fun y y' _ _ same => injective y y' same
  · exact fun y _ => past y
  · intro name member
    rcases Finset.mem_union.mp member with old | new
    · exact Nat.le_succ_of_le (fits.earlier name old)
    · obtain ⟨y, -, rfl⟩ := Finset.mem_image.mp new
      exact past y
  · intro y lt
    constructor
    · intro member
      rcases Finset.mem_union.mp member with old | new
      · obtain ⟨x, before, hx⟩ := known old
        exact counts.stays x y before hx
      · obtain ⟨y', taken, same⟩ := Finset.mem_image.mp new
        exact injective y' y same ▸ taken
    · exact fun taken => Finset.mem_union_right _ (Finset.mem_image_of_mem _ taken)
  · rw [added, Finset.card_union_of_disjoint apart,
      Finset.card_image_of_injective
      _ fun y y' same => injective y y' same, fits.forced, counts.forced]

theorem audit_fits [DecidableEq L] {links : Links} {fuel : Nat} {deeds : List (Deed L)}
    (between : g.Between links) (fits : ledger.Fits g)
    (run : Grammar.enactAll fuel deeds g = .ok ((), g')) :
    (Grammar.audit fuel deeds g ledger).Fits g' := by
  induction deeds generalizing g ledger with
  | nil =>
    obtain ⟨-, rfl⟩ := Action.pure_ok.mp run
    exact fits
  | cons d rest ih =>
    obtain ⟨_, g₁, first, run⟩ := Action.bind_ok.mp run
    obtain ⟨between₁, W, good, turns⟩ := enact_between between first
    rw [Grammar.audit, first]
    exact ih between₁ (fits.after (turns.counts good)) run

end Ledger

/-! ## What was built has counted nothing -/

section Built

variable {L α β : Type} {act : Eval L α} {k : α → Eval L β} {source : Source} {settings : Settings}
  {r : Recognizer L}

/-- An action that leaves the counters. -/
def Uncounting (act : Eval L α) : Prop := ∀ g a g', act g = .ok (a, g') → g'.stats = g.stats

namespace Uncounting

theorem pure (a : α) : Uncounting (pure a : Eval L α) := by
  intro g b g' run
  obtain ⟨-, rfl⟩ := Action.pure_ok.mp run
  rfl

theorem bind (first : Uncounting act) (next : ∀ a, Uncounting (k a)) : Uncounting (act >>= k) := by
  intro g b g' run
  obtain ⟨a, g₁, run, later⟩ := Action.bind_ok.mp run
  exact (next a g₁ b g' later).trans (first g a g₁ run)

theorem alloc (node : Node L) : Uncounting (Grammar.alloc node) := by
  intro g id g' run
  obtain ⟨-, rfl⟩ := Grammar.alloc_ok.mp run
  rfl

theorem resolve (names : Names) (name : String) :
    Uncounting (Grammar.resolve (L := L) names name) := by
  intro g id g' run
  obtain ⟨-, rfl⟩ := Grammar.resolve_ok.mp run
  rfl

theorem define (target body : NodeId) : Uncounting (Grammar.define (L := L) target body) := by
  intro g u g' run
  obtain ⟨name, -, rfl⟩ := Grammar.define_ok.mp run
  rfl

theorem lower (names : Names) (lang : Language) :
    Uncounting (Grammar.lower (L := L) names lang) := by
  induction lang with
  | epsilon | token => exact alloc _
  | alt left right ihl ihr | cat left right ihl ihr =>
    exact ihl.bind fun _ => ihr.bind fun _ => alloc _
  | rep body ih => exact ih.bind fun _ => alloc _
  | rule name => exact resolve names name

theorem declareAll (names : Names) (list : List String) :
    Uncounting (Grammar.declareAll (L := L) names list) := by
  induction list generalizing names with
  | nil => exact pure names
  | cons name rest ih =>
    unfold Grammar.declareAll
    split
    · exact fun _ _ _ run => by cases run
    · exact (alloc _).bind fun _ => ih _

theorem defineAll (names : Names) (list : List (String × Language)) :
    Uncounting (Grammar.defineAll (L := L) names list) := by
  induction list with
  | nil => exact pure ()
  | cons rule rest ih =>
    exact (lower names rule.2).bind fun _ =>
      (resolve names rule.1).bind fun _ => (define _ _).bind fun _ => ih

end Uncounting

theorem recognizer_stats (built : source.recognizer settings = .ok r) : r.grammar.stats = {} := by
  cases source with
  | plain lang =>
    obtain ⟨start, g, lowered, rfl⟩ := ofLanguage_ok built
    exact Uncounting.lower [] lang Grammar.initial start g lowered
  | ruled rules name =>
    obtain ⟨start, g, lowered, rfl⟩ := ofRules_ok built
    obtain ⟨names, g₁, declares, defines, -⟩ := Grammar.ofRules_ok lowered
    exact (Uncounting.defineAll names rules g₁ () g defines).trans
      (Uncounting.declareAll [] _ Grammar.initial names g₁ declares)

end Built

/-! ## Along the run of a recognizer -/

section Run

variable {L : Type} [DecidableEq L] {source : Source} {settings : Settings} {fuel : Nat}
  {calls later : List (Call L)} {r₀ r r' : Recognizer L}

theorem recognizer_between (built : source.recognizer settings = .ok r) :
    r.grammar.Between source.links ∧ (Ledger.opening r.grammar).Fits r.grammar := by
  have stats := recognizer_stats built
  obtain ⟨W, g, start, rfl, founded, -⟩ := exists_founded built
  refine ⟨founded.between, Ledger.fits_opening ?_ (congrArg Stats.forced stats)⟩
  refine Finset.eq_empty_of_forall_notMem fun x taken => ?_
  obtain ⟨node, there, taken⟩ := mem_taken.mp taken
  have fresh := founded.fresh x node there
  cases node with
  | thunk => exact fresh
  | _ => cases taken

/-- Along the deeds that begin with a grammar evaluation goes forward. From before to after any of
them that follow one another, resolved thunks stay resolved, to the same nodes if no culling is
among those deeds, and settled rules stay as they are. And at every point the counter of evaluated
thunks shows how many thunks were taken until then. -/
def Grammar.GoesForward (fuel : Nat) (deeds : List (Deed L)) (g₀ : Grammar L) : Prop :=
  ∀ before during after, deeds = before ++ during ++ after → ∃ g g',
    enactAll fuel before g₀ = .ok ((), g) ∧ enactAll fuel during g = .ok ((), g') ∧
      g.Advances (during.any Deed.isCull) (follow (enact fuel) Deed.place during g) g' ∧
      (audit fuel before g₀ (.opening g₀)).taken.card = g.stats.forced

/-- Make any calls. Then nothing is under way at any node; and if more calls are made, whatever is
done to the grammar by the first calls and by the others, evaluation goes forward all along. -/
theorem evaluation_advances (history : source.after settings fuel calls = .ok r)
    (run : Recognizer.callAll fuel later r = .ok ((), r')) :
    r.grammar.AtRest ∧ ∃ r₀ first others, source.recognizer settings = .ok r₀ ∧
      Grammar.enactAll fuel first r₀.grammar = .ok ((), r.grammar) ∧
      Grammar.enactAll fuel others r.grammar = .ok ((), r'.grammar) ∧
      Grammar.GoesForward fuel (first ++ others) r₀.grammar := by
  obtain ⟨r₀, built, done⟩ := after_ok.mp history
  obtain ⟨first, enacted⟩ := Recognizing.Enacts.callAll calls r₀ () r done
  obtain ⟨others, enacted'⟩ := Recognizing.Enacts.callAll later r () r' run
  obtain ⟨between₀, fits₀⟩ := recognizer_between built
  refine ⟨(enactAll_between between₀ enacted).atRest, r₀, first, others, built, enacted, enacted',
    fun before during after same => ?_⟩
  have whole : Grammar.enactAll fuel (before ++ during ++ after) r₀.grammar =
      .ok ((), r'.grammar) :=
    same ▸ enactAll_append.mpr ⟨r.grammar, enacted, enacted'⟩
  obtain ⟨g', upto, -⟩ := enactAll_append.mp whole
  obtain ⟨g, begun, run⟩ := enactAll_append.mp upto
  exact ⟨g, g', begun, run, enactAll_advances (enactAll_between between₀ begun) run,
    (audit_fits between₀ fits₀ begun).forced⟩

theorem evaluation_advances_leftRecursive : ∃ r r' : Recognizer String,
    leftRecursive.after (({} : Settings).withCollectEvery 1) 30
      [.parse [⟨2, "a"⟩], .feed ⟨2, "b"⟩] = .ok r ∧
      Recognizer.callAll 30 [.feed ⟨2, "c"⟩, .accepted] r = .ok ((), r') ∧
        0 < r'.grammar.stats.forced ∧
      r.grammar.AtRest ∧
        ∃ r₀ first others, leftRecursive.recognizer (({} : Settings).withCollectEvery 1) = .ok r₀ ∧
        Grammar.enactAll 30 first r₀.grammar = .ok ((), r.grammar) ∧
        Grammar.enactAll 30 others r.grammar = .ok ((), r'.grammar) ∧
        Grammar.GoesForward 30 (first ++ others) r₀.grammar := by
  obtain ⟨r, history, facts⟩ := exists_of_any (show ((leftRecursive.after (L := String)
    (({} : Settings).withCollectEvery 1) 30
    [.parse [⟨2, "a"⟩], .feed ⟨2, "b"⟩]).toOption.any fun r =>
      (Recognizer.callAll 30 [.feed ⟨2, "c"⟩, .accepted] r).toOption.any fun p =>
        decide (0 < p.2.grammar.stats.forced)) = true by decide +kernel)
  obtain ⟨⟨_, r'⟩, run, forced⟩ := exists_of_any facts
  exact ⟨r, r', history, run, of_decide_eq_true forced, evaluation_advances history run⟩

end Run

end DerivativeParsing
