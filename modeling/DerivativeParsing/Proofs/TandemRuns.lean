import DerivativeParsing.Proofs.Histories
import DerivativeParsing.Proofs.TandemForests

/-!
# Runs in tandem

1. `Places` says that two collections put paired nodes somewhere, or drop them, together.
   `Twins.collect`: collections do so, and what they leave are twins under new names.
2. `Recognizer.Twin` relates recognizers, and `InStep` their actions. A collection may have renamed
   everything in the course of an action, so other than `Tandem` it does not say that nodes that
   were paired before still are.
3. `Recognizer.inStep_respondAll`: recognizers that are the same under other names answer the same
   to all calls.
-/

namespace DerivativeParsing

/-! ## Collections -/

/-- Where two collections put nodes: never two in one slot, and of paired nodes both or neither. -/
structure Places (R : Pairing) (place place' : NodeId → Option NodeId) : Prop where
  injective : ∀ x y i, place x = some i → place y = some i → x = y
  injective' : ∀ x y i, place' x = some i → place' y = some i → x = y
  nothing : place Grammar.nothing = some Grammar.nothing
  nothing' : place' Grammar.nothing = some Grammar.nothing
  together : ∀ x y, R.Pairs x y → ((∃ i, place x = some i) ↔ ∃ j, place' y = some j)

section Collect

variable {R : Pairing} {place place' : NodeId → Option NodeId} {x y : NodeId}

/-- The pairing of the new names. -/
def Places.pairing (h : Places R place place') : Pairing where
  Pairs i j := ∃ x y, R.Pairs x y ∧ place x = some i ∧ place' y = some j
  unique := by
    constructor
    · rintro i i' j ⟨x, y, pair, hi, hj⟩ ⟨x', y', pair', hi', hj'⟩
      obtain rfl := h.injective' y y' j hj hj'
      obtain rfl := R.unique.1 pair pair'
      exact Option.some.inj (hi.symm.trans hi')
    · rintro i j j' ⟨x, y, pair, hi, hj⟩ ⟨x', y', pair', hi', hj'⟩
      obtain rfl := h.injective x x' i hi hi'
      obtain rfl := R.unique.2 pair pair'
      exact Option.some.inj (hj.symm.trans hj')
  nothing := ⟨_, _, R.nothing, h.nothing, h.nothing'⟩

namespace Places

theorem rel (h : Places R place place') (pair : R.Pairs x y) :
    Option.Rel h.pairing.Pairs (place x) (place' y) := by
  have together := h.together x y pair
  cases hx : place x with
  | some i =>
    obtain ⟨j, hy⟩ := together.mp ⟨i, hx⟩
    rw [hy]
    exact .some ⟨x, y, pair, hx, hy⟩
  | none =>
    cases hy : place' y with
    | some j =>
      obtain ⟨i, hi⟩ := together.mpr ⟨j, hy⟩
      cases hx.symm.trans hi
    | none => exact .none

/-- Nodes that were dropped go by the name of the node that matches nothing, both of them. -/
theorem movedBy (h : Places R place place') (pair : R.Pairs x y) :
    h.pairing.Pairs (movedBy place x) (movedBy place' y) := by
  have both := h.rel pair
  unfold DerivativeParsing.movedBy
  generalize place x = i, place' y = j at both ⊢
  cases both with
  | some pair => exact pair
  | none => exact h.pairing.nothing

theorem relocate {L : Type} {node node' : Node L} (h : Places R place place')
    (twin : node.Twin R node') : (node.relocate place).Twin h.pairing (node'.relocate place') := by
  cases twin with
  | empty => exact .empty
  | token kind => exact .token kind
  | matched symbol => exact .matched symbol
  | undefined name => exact .undefined name
  | alt left right => exact .alt (h.movedBy left) (h.movedBy right)
  | cat left right => exact .cat (h.movedBy left) (h.movedBy right)
  | rep body => exact .rep (h.movedBy body)
  | @rule r r' body body' twin bodies =>
    obtain ⟨name, memo, state, busy⟩ := r
    obtain ⟨name', memo', state', busy'⟩ := r'
    obtain ⟨memos, states, busies⟩ := twin
    refine .rule ⟨?_, states, busies⟩ (h.movedBy bodies)
    have memos : Option.Rel (fun p p' => p.1 = p'.1 ∧ R.Pairs p.2 p'.2) memo memo' := memos
    cases memos with
    | none => exact .none
    | @some p p' hp =>
      obtain ⟨kind, next⟩ := p
      obtain ⟨kind', next'⟩ := p'
      have both := h.rel hp.2
      show Option.Rel _ ((place next).map _) ((place' next').map _)
      generalize place next = i, place' next' = j at both ⊢
      cases both with
      | some pair => exact .some ⟨hp.1, pair⟩
      | none => exact .none
  | thunk far base =>
    cases far with
    | pending => exact .thunk .pending (h.movedBy base)
    | running => exact .thunk .running (h.movedBy base)
    | forced target => exact .thunk (.forced (h.movedBy target)) (h.movedBy base)
    | culled targets =>
      cases targets with
      | none => exact .thunk (.culled .none) (h.movedBy base)
      | some target => exact .thunk (.culled (.some (h.movedBy target))) (h.movedBy base)

end Places

namespace Grammar

variable {L : Type} [DecidableEq L] {g g' g₁ : Grammar L} {seen seen' : Marks}
  {roots roots' : List NodeId}

theorem Twins.places (h : g.Twins R g')
    (meets : Meets R.Pairs (fun x => seen.contains x) fun y => seen'.contains y)
    (first : seen.contains nothing) : Places R (g.remaining seen).2 (g'.remaining seen').2 := by
  have injective {g : Grammar L} {live : List Bool} (x y i : Nat)
      (hx : (g.compact live).2 x = some i) (hy : (g.compact live).2 y = some i) : x = y := by
    rcases Nat.lt_trichotomy x y with lt | same | lt
    · exact absurd (compact_mono hx hy lt) (Nat.lt_irrefl i)
    · exact same
    · exact absurd (compact_mono hy hx lt) (Nat.lt_irrefl i)
  have there (x y : Nat) (pair : R.Pairs x y) : x < g.size ∧ y < g'.size := by
    obtain ⟨_, _, here, here', -⟩ := h.node x y pair
    exact ⟨lt_size_of_get? here, lt_size_of_get? here'⟩
  have first' : seen'.contains nothing := (meets.iff R.unique R.nothing).mp first
  obtain ⟨lt, lt'⟩ := there _ _ R.nothing
  refine ⟨injective, injective, compact_nothing (flagged_iff.mpr ⟨lt, first⟩),
    compact_nothing (flagged_iff.mpr ⟨lt', first'⟩), fun x y pair => ?_⟩
  obtain ⟨lt, lt'⟩ := there x y pair
  rw [remaining, remaining, compact_has, compact_has, flagged_iff, flagged_iff, and_iff_right lt,
    and_iff_right lt']
  exact meets.iff R.unique pair

theorem Twins.remaining (h : g.Twins R g')
    (places : Places R (g.remaining seen).2 (g'.remaining seen').2) :
    (g.remaining seen).1.Twins places.pairing (g'.remaining seen').1 where
  node i j pair := by
    obtain ⟨x, y, pair, hi, hj⟩ := pair
    obtain ⟨node, node', there, there', twin⟩ := h.node x y pair
    refine ⟨_, _, (compact_slot hi).trans (congrArg _ there),
      (compact_slot hj).trans (congrArg _ there'), ?_⟩
    exact places.relocate twin
  memo := .empty (fun p => Memo.find?_nil p.1 p.2) fun p => Memo.find?_nil p.1 p.2
  provisional := h.provisional

theorem Twins.reach (h : g.Twins R g') (pairs : List.Forall₂ R.Pairs roots roots')
    {t : Traversal Marks} (run : g.reach roots = .ok t) :
    ∃ t', g'.reach roots' = .ok t' ∧ t.Twin R t' := by
  have start : Traversal.Twin R { seen := Marks.none g.size } { seen := Marks.none g'.size } := by
    refine ⟨.empty (fun x => ?_) fun y => ?_, .nil⟩
    · exact Bool.eq_false_iff.mp (Marks.contains_none _ x)
    · exact Bool.eq_false_iff.mp (Marks.contains_none _ y)
  exact h.walk true (stack_twin pairs .nil) start run

/-- A collection from paired roots leaves twins, and moves the roots to paired slots. -/
theorem Twins.collect (h : g.Twins R g') (pairs : List.Forall₂ R.Pairs roots roots')
    {moved : List NodeId} (run : collect roots g = .ok (moved, g₁)) :
    ∃ place place' g₁', ∃ places : Places R place place', moved = roots.map (movedBy place) ∧
      collect roots' g' = .ok (roots'.map (movedBy place'), g₁') ∧ g₁.Twins places.pairing g₁' := by
  obtain ⟨t, reach, same⟩ := collect_iff.mp run
  obtain ⟨rfl, rfl⟩ := Prod.mk.inj same
  obtain ⟨t', reach', twin⟩ := h.reach (.cons R.nothing pairs) reach
  have places := h.places twin.seen (seen_of_reach reach (.head _))
  refine ⟨_, _, _, places, rfl, collect_iff.mpr ⟨t', reach', rfl⟩, ?_⟩
  exact (h.remaining places).of_eq rfl rfl rfl rfl h.provisional

end Grammar

end Collect

/-! ## Recognizers -/

/-- Recognizers that are the same under other names. -/
structure Recognizer.Twin {L : Type} [DecidableEq L] (R : Pairing) (r r' : Recognizer L) :
    Prop where
  grammar : r.grammar.Twins R r'.grammar
  start : R.Pairs r.start r'.start
  taken : List.Forall₂ (fun p p' => p.1 = p'.1 ∧ R.Pairs p.2 p'.2) r.taken.toList r'.taken.toList
  settings : r.settings = r'.settings

namespace Recognizer.Twin

variable {L : Type} [DecidableEq L] {R S : Pairing} {r r' : Recognizer L}

theorem chain (h : r.Twin R r') : List.Forall₂ R.Pairs r.chain r'.chain := by
  refine .cons h.start ?_
  rw [List.forall₂_map_left_iff, List.forall₂_map_right_iff]
  exact h.taken.imp fun _ _ hp => hp.2

theorem input (h : r.Twin R r') : r.input = r'.input := by
  have same : List.Forall₂ (· = ·) r.input r'.input := by
    rw [Recognizer.input, Recognizer.input, List.forall₂_map_left_iff, List.forall₂_map_right_iff]
    exact h.taken.imp fun _ _ hp => hp.1
  rwa [List.forall₂_eq_eq_eq] at same

theorem steps (h : r.Twin R r') : r.steps = r'.steps := h.taken.length_eq

theorem current (h : r.Twin R r') : R.Pairs r.current r'.current := by
  have last : List.Forall₂ R.Pairs r.chain.reverse r'.chain.reverse := List.rel_reverse h.chain
  have here := r.getLast?_chain
  have there := r'.getLast?_chain
  rw [← List.head?_reverse] at here there
  generalize r.chain.reverse = nodes, r'.chain.reverse = nodes' at last here there
  cases last with
  | nil => cases here
  | cons pair _ =>
    cases here
    cases there
    exact pair

end Recognizer.Twin

/-- If the first action answers on a recognizer, then the second answers on every twin. Then they
leave twins, and what they answer is related in the way `V`. -/
def InStep {L α β : Type} [DecidableEq L] (R : Pairing) (V : Pairing → α → β → Prop)
    (act : Recognizing L α) (act' : Recognizing L β) : Prop :=
  ∀ r r' : Recognizer L, r.Twin R r' → ∀ a r₁, act r = .ok (a, r₁) →
    ∃ b r₁' S, act' r' = .ok (b, r₁') ∧ r₁.Twin S r₁' ∧ V S a b

namespace InStep

variable {L α β γ δ : Type} [DecidableEq L] {R S : Pairing} {V : Pairing → α → β → Prop}
  {U : Pairing → γ → δ → Prop} {act : Recognizing L α} {act' : Recognizing L β}
  {k : α → Recognizing L γ} {k' : β → Recognizing L δ}

theorem pure {a : α} {b : β} (h : V R a b) : InStep R V (pure a : Recognizing L α) (pure b) := by
  intro r r' twin c r₁ run
  obtain ⟨rfl, rfl⟩ := Action.pure_ok.mp run
  exact ⟨b, r', R, rfl, twin, h⟩

theorem bind (first : InStep R V act act') (next : ∀ S a b, V S a b → InStep S U (k a) (k' b)) :
    InStep R U (act >>= k) (act' >>= k') := by
  intro r r' twin c r₂ run
  obtain ⟨a, r₁, run₁, run₂⟩ := Action.bind_ok.mp run
  obtain ⟨b, r₁', S, run₁', twin₁, hab⟩ := first r r' twin a r₁ run₁
  obtain ⟨d, r₂', T, run₂', twin₂, hcd⟩ := next S a b hab r₁ r₁' twin₁ c r₂ run₂
  exact ⟨d, r₂', T, (Action.bind_of_ok run₁').trans run₂', twin₂, hcd⟩

theorem lift (x : Except Error α) : InStep R Same (liftM x : Recognizing L α) (liftM x) := by
  intro r r' twin a r₁ run
  obtain ⟨told, rfl⟩ := Action.lift_ok.mp run
  exact ⟨a, r', R, Action.lift_ok.mpr ⟨told, rfl⟩, twin, rfl⟩

theorem get {k : Recognizer L → Recognizing L γ} {k' : Recognizer L → Recognizing L δ}
    (next : ∀ r r', r.Twin R r' → InStep R U (k r) (k' r')) :
    InStep R U (get >>= k) (get >>= k') := by
  intro r r' twin c r₁ run
  obtain ⟨_, _, same, run₁⟩ := Action.bind_ok.mp run
  obtain ⟨rfl, rfl⟩ := Action.get_ok.mp same
  exact next r r' twin r r' twin c r₁ run₁

theorem modify {f f' : Recognizer L → Recognizer L}
    (h : ∀ r r', r.Twin R r' → (f r).Twin R (f' r')) :
    InStep R Mute (modify f : Recognizing L Unit) (modify f') := by
  intro r r' twin u r₁ run
  obtain rfl := Action.modify_ok.mp run
  exact ⟨(), f' r', R, rfl, h r r' twin, trivial⟩

theorem onGrammar {act : Eval L α} {act' : Eval L β} (h : Tandem R V act act') :
    InStep R V (Recognizer.onGrammar act) (Recognizer.onGrammar act') := by
  intro r r' twin a r₁ run
  obtain ⟨g₁, acting, rfl⟩ := Recognizer.onGrammar_ok.mp run
  obtain ⟨b, g₁', S, run', le, twins, hab⟩ := h _ _ twin.grammar a g₁ acting
  exact ⟨b, _, S, Recognizer.onGrammar_of_ok run', ⟨twins, le _ _ twin.start,
    twin.taken.imp fun _ _ hp => ⟨hp.1, le _ _ hp.2⟩, twin.settings⟩, hab⟩

theorem collect : InStep R Mute (Recognizer.collect : Recognizing L Unit) Recognizer.collect := by
  intro r r' twin u r₁ run
  obtain ⟨_, _, same, collecting⟩ := Action.bind_ok.mp run
  obtain ⟨rfl, rfl⟩ := Action.get_ok.mp same
  obtain ⟨roots, r₂, collecting, -⟩ := Action.bind_ok.mp collecting
  obtain ⟨g₁, collecting, -⟩ := Recognizer.onGrammar_ok.mp collecting
  obtain ⟨place, place', g₁', places, rfl, collecting', twins⟩ :=
    twin.grammar.collect twin.chain collecting
  obtain ⟨-, rfl⟩ :=
    Prod.mk.inj (Except.ok.inj (run.symm.trans (Recognizer.collect_of_ok collecting)))
  refine ⟨(), _, places.pairing, Recognizer.collect_of_ok collecting',
    ⟨twins, places.movedBy twin.start, ?_, twin.settings⟩, trivial⟩
  rw [Recognizer.moved, Recognizer.moved, Array.toList_map, Array.toList_map,
    List.forall₂_map_left_iff, List.forall₂_map_right_iff]
  exact twin.taken.imp fun _ _ hp => ⟨hp.1, places.movedBy hp.2⟩

end InStep

namespace Recognizer

variable {L : Type} [DecidableEq L] {R : Pairing} (fuel : Nat)

theorem inStep_reset : InStep R Mute (reset : Recognizing L Unit) reset :=
  .modify fun _ _ twin => ⟨twin.grammar, twin.start, .nil, twin.settings⟩

theorem inStep_feed (s : Symbol L) : InStep R Same (feed fuel s) (feed fuel s) := by
  unfold feed
  refine .get fun r r' twin => .get fun q q' now => ?_
  simp only [run_settings, run_current, twin.settings, Pairing.beq_nothing now.current]
  split
  · exact .pure rfl
  refine .bind (.onGrammar (Grammar.tandem_step fuel now.current s r'.settings.culling)) ?_
  rintro S ⟨next, accepts⟩ ⟨next', _⟩ ⟨pair, rfl⟩
  refine .bind
    (.modify fun r r' twin => ⟨twin.grammar, twin.start, ?_, twin.settings⟩) fun S₁ _ _ _ =>
    .get fun p p' later => ?_
  · simp only [run_enter, Array.toList_push]
    exact List.rel_append twin.taken (.cons ⟨rfl, pair⟩ .nil)
  refine .bind (.onGrammar (.bind .get fun T g g' _ _ => .note _ _)) fun S₂ _ _ _ => ?_
  simp only [run_steps, later.steps]
  have last (T : Pairing) : InStep T Same (do return !(← get).isDead : Recognizing L Bool)
      (do return !(← get).isDead) :=
    .get fun r r' twin => .pure (congrArg not (Pairing.beq_nothing twin.current))
  refine .bind (.lift _) ?_
  rintro S₃ due _ rfl
  split
  · exact .bind .collect fun T _ _ _ => last T
  · exact last S₃

theorem inStep_accepted : InStep R Same (accepted fuel : Recognizing L Bool) (accepted fuel) := by
  unfold accepted
  exact .get fun r r' twin =>
    .onGrammar ((Grammar.evaluates_in_tandem fuel).nullable R _ _ twin.current)

theorem inStep_feedAll (symbols : List (Symbol L)) :
    InStep R Mute (feedAll fuel symbols) (feedAll fuel symbols) := by
  induction symbols generalizing R with
  | nil => exact .pure trivial
  | cons s symbols ih =>
    rw [feedAll]
    refine .bind (inStep_feed fuel s) ?_
    rintro S alive _ rfl
    cases alive with
    | true => exact ih
    | false =>
      refine .get fun r r' twin => ?_
      simp only [run_settings, twin.settings]
      split
      · exact .pure trivial
      · exact ih

theorem inStep_recognize (symbols : List (Symbol L)) :
    InStep R (fun _ o o' => o.accepted = o'.accepted) (recognize fuel symbols)
      (recognize fuel symbols) := by
  unfold recognize
  refine .bind inStep_reset fun S₁ _ _ _ => ?_
  refine .bind (inStep_feedAll fuel symbols) fun S₂ _ _ _ => ?_
  refine .get fun r r' _ => .bind (inStep_accepted fuel) ?_
  rintro S₃ yes _ rfl
  exact .pure rfl

theorem inStep_forest :
    InStep R Same (forest fuel : Recognizing L (Forest (Symbol L))) (forest fuel) := by
  unfold forest
  refine .get fun r r' twin => .get fun q q' now => ?_
  simp only [run_input, run_chain, now.input]
  exact .onGrammar (Grammar.tandem_forestOfRun fuel twin.chain q'.input)

theorem inStep_parse (symbols : List (Symbol L)) :
    InStep R Same (parse fuel symbols) (parse fuel symbols) := by
  unfold parse
  refine .bind (inStep_recognize fuel symbols) fun S o o' same => ?_
  rw [same]
  split
  · refine .bind (inStep_forest fuel) ?_
    rintro T f _ rfl
    exact .pure rfl
  · exact .pure rfl

theorem inStep_respond (c : Call L) : InStep R Same (respond fuel c) (respond fuel c) := by
  cases c with
  | feed s =>
    refine .bind (inStep_feed fuel s) ?_
    rintro S alive _ rfl
    exact .pure rfl
  | accepted =>
    refine .bind (inStep_accepted fuel) ?_
    rintro S yes _ rfl
    exact .pure rfl
  | recognize symbols =>
    exact .bind (inStep_recognize fuel symbols) fun S o o' same =>
      .pure (congrArg Response.judged same)
  | parse symbols =>
    refine .bind (inStep_parse fuel symbols) ?_
    rintro S answer _ rfl
    exact .pure rfl
  | forest =>
    refine .bind (inStep_forest fuel) ?_
    rintro S f _ rfl
    exact .pure rfl
  | reset => exact .bind inStep_reset fun S _ _ _ => .pure rfl

theorem inStep_respondAll (calls : List (Call L)) :
    InStep R Same (respondAll fuel calls) (respondAll fuel calls) := by
  induction calls generalizing R with
  | nil => exact .pure rfl
  | cons c rest ih =>
    rw [respondAll]
    refine .bind (inStep_respond fuel c) ?_
    rintro S₁ response _ rfl
    refine .get fun r r' twin => ?_
    rw [twin.steps]
    refine .bind ih ?_
    rintro S₂ later _ rfl
    exact .pure rfl

end Recognizer

end DerivativeParsing
