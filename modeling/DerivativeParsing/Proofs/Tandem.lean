import DerivativeParsing.Grammar.Cull
import DerivativeParsing.Proofs.Pairing
import DerivativeParsing.Proofs.Shrinking

/-!
# Evaluation in tandem

Where nodes are kept, and so in which order they were made, has no influence on what evaluation
does: it follows edges, and looks names up, but it never compares two names or goes through all of
them.

1. `evaluates_in_tandem`: paired nodes are derived, asked for their nullability and forced in
   tandem.
2. `Twins.walk`: walks from paired nodes meet paired nodes in the same order. `Twins.productive`: so
   the same nodes are found to match something, however often the work list is gone through.
3. `tandem_cull`, `tandem_step`: paired nodes are culled, and steps are taken, in tandem.
-/

namespace DerivativeParsing

namespace Grammar

variable {L : Type} [DecidableEq L] {R S : Pairing} {g g' : Grammar L} {x y : NodeId}
  {node node' : Node L}

/-! ## Derivatives -/

theorem Twins.settle (h : g.Twins R g') (pair : R.Pairs x y) (s : Symbol L) {next next' : NodeId}
    (result : R.Pairs next next') (outer : Bool) :
    (settle x s next outer g).Twins R (settle y s next' outer g') := by
  have flag := h.provisional
  have later : (Grammar.settle x s next outer g).provisional =
      (Grammar.settle y s next' outer g').provisional := by
    rw [Grammar.settle, Grammar.settle, flag]
  cases doubt : g.provisional with
  | true =>
    have doubt' := flag.symm.trans doubt
    exact h.of_eq rfl rfl (by rw [Grammar.settle, doubt]; rfl)
      (by rw [Grammar.settle, doubt']; rfl) later
  | false =>
    have doubt' := flag.symm.trans doubt
    exact (h.record pair s result).of_eq rfl rfl (by rw [Grammar.settle, doubt]; rfl)
      (by rw [Grammar.settle, doubt']; rfl) later

theorem tandem_remembering {s : Symbol L} {compute compute' : Eval L NodeId} (pair : R.Pairs x y)
    (h : ∀ S, R ≤ S → Tandem S Pairing.Pairs compute compute') :
    Tandem R Pairing.Pairs (remembering x s compute) (remembering y s compute') := by
  unfold remembering
  refine .bind .get fun S g g' le twins => ?_
  have known := twins.find? (le _ _ pair) s
  generalize g.memo.find? x s = found, g'.memo.find? y s = found' at known ⊢
  cases known with
  | some result => exact .pure result
  | none =>
    refine .bind .get fun S₁ before before' le₁ twins => ?_
    have outer := twins.provisional
    refine .bind (.modify fun g g' twins => twins.of_eq rfl rfl rfl rfl rfl) fun S₂ _ _ le₂ _ => ?_
    refine .bind (h S₂ (le.trans (le₁.trans le₂))) fun S₃ next next' le₃ result => ?_
    have pair : S₃.Pairs x y := (le.trans (le₁.trans (le₂.trans le₃))) _ _ pair
    refine .bind (.modify fun g g' twins => ?_) fun S₄ _ _ le₄ _ => ?_
    · rw [outer]
      exact twins.settle pair s result before'.provisional
    · refine .bind (.note _ _) fun S₅ _ _ le₅ _ => .pure ?_
      exact (le₄.trans le₅) _ _ result

theorem tandem_deriveToken (kind : Kind) (s : Symbol L) :
    Tandem R Pairing.Pairs (deriveToken kind s) (deriveToken kind s) := by
  unfold deriveToken
  split
  · exact .alloc (.matched s)
  · exact .pure R.nothing

theorem tandem_deriveRule {r r' : Rule} {body body' : NodeId} (s : Symbol L) (pair : R.Pairs x y)
    (twin : r.Twin R r') (bodies : R.Pairs body body') :
    Tandem R Pairing.Pairs (deriveRule x r body s) (deriveRule y r' body' s) := by
  unfold deriveRule
  have known := twin.remembered s.kind
  generalize r.remembered? s.kind = found, r'.remembered? s.kind = found' at known ⊢
  cases known with
  | some result => exact .pure result
  | none =>
    refine .bind (.alloc (.thunk .pending bodies)) fun S₁ thunk thunk' le₁ thunks => ?_
    refine .bind (.alloc (.rule (.fresh _ _) thunks)) fun S₂ next next' le₂ result => ?_
    refine .bind
      (.revise ((le₁.trans le₂) _ _ pair) fun node node' same => ?_) fun S₃ _ _ le₃ _ => ?_
    · exact same.mapRule fun r r' same => ⟨.some ⟨rfl, result⟩, same.fixpoint, same.busy⟩
    · exact .pure (le₃ _ _ result)

theorem tandem_setFixpoint (pair : R.Pairs x y) (fixpoint : Fixpoint) :
    Tandem R Mute (setFixpoint x fixpoint : Eval L Unit) (setFixpoint y fixpoint) :=
  .revise pair fun _ _ twin => twin.mapRule fun _ _ same => ⟨same.memo, rfl, same.busy⟩

theorem tandem_setState {state state' : ThunkState} (pair : R.Pairs x y)
    (twin : state.Twin R state') :
    Tandem R Mute (setState x state : Eval L Unit) (setState y state') :=
  .revise pair fun _ _ same => same.setState twin

/-- With so much fuel, paired nodes are evaluated in tandem. -/
structure EvaluatesInTandem (L : Type) [DecidableEq L] (fuel : Nat) : Prop where
  derive : ∀ (R : Pairing) (x y : NodeId) (s : Symbol L), R.Pairs x y →
    Tandem R Pairing.Pairs (derive fuel x s) (derive fuel y s)
  nullable : ∀ (R : Pairing) (x y : NodeId), R.Pairs x y →
    Tandem R Same (nullable fuel x : Eval L Bool) (nullable fuel y)
  force : ∀ (R : Pairing) (x y : NodeId), R.Pairs x y →
    Tandem R Pairing.Pairs (force fuel x : Eval L NodeId) (force fuel y)

namespace EvaluatesInTandem

variable {fuel : Nat} (h : EvaluatesInTandem L fuel) (pair : R.Pairs x y)
include h pair

theorem derive_succ (s : Symbol L) :
    Tandem R Pairing.Pairs (Grammar.derive (fuel + 1) x s) (Grammar.derive (fuel + 1) y s) := by
  rw [Grammar.derive, Grammar.derive]
  refine .bind (.fetch pair) fun S node node' le twin => ?_
  have pair := le _ _ pair
  cases twin with
  | empty | matched => exact .pure S.nothing
  | undefined name => exact .bind (.note _ _) fun T _ _ _ _ => .pure T.nothing
  | rule twin body => exact tandem_deriveRule s pair twin body
  | thunk =>
    exact .bind (h.force S x y pair) fun T target target' _ targets =>
      h.derive T target target' s targets
  | token kind => exact tandem_remembering pair fun T _ => tandem_deriveToken kind s
  | alt left right =>
    refine tandem_remembering pair fun T le => ?_
    refine .bind (h.derive T _ _ s (le _ _ left)) fun T₁ l l' le₁ hl => ?_
    refine .bind (h.derive T₁ _ _ s ((le.trans le₁) _ _ right)) fun T₂ r r' le₂ hr => ?_
    exact .alloc (.alt (le₂ _ _ hl) hr)
  | cat left right =>
    refine tandem_remembering pair fun T le => ?_
    refine .bind (h.nullable T _ _ (le _ _ left)) ?_
    rintro T₁ skips _ le₁ rfl
    have left := (le.trans le₁) _ _ left
    have right := (le.trans le₁) _ _ right
    cases skips with
    | true =>
      refine .bind (h.derive T₁ _ _ s left) fun T₂ l l' le₂ hl => ?_
      refine .bind (.alloc (.cat hl (le₂ _ _ right))) fun T₃ consumed consumed' le₃ hc => ?_
      refine .bind (h.derive T₃ _ _ s ((le₂.trans le₃) _ _ right)) fun T₄ r r' le₄ hr => ?_
      exact .alloc (.alt (le₄ _ _ hc) hr)
    | false =>
      refine .bind (h.derive T₁ _ _ s left) fun T₂ l l' le₂ hl => ?_
      exact .alloc (.cat hl (le₂ _ _ right))
  | rep body =>
    refine tandem_remembering pair fun T le => ?_
    refine .bind (h.derive T _ _ s (le _ _ body)) fun T₁ d d' le₁ hd => ?_
    exact .alloc (.cat hd ((le.trans le₁) _ _ pair))

theorem nullable_succ :
    Tandem R Same (Grammar.nullable (fuel + 1) x : Eval L Bool)
      (Grammar.nullable (fuel + 1) y) := by
  rw [Grammar.nullable, Grammar.nullable]
  refine .bind (.fetch pair) fun S node node' le twin => ?_
  have pair := le _ _ pair
  cases twin with
  | empty | undefined | token | matched | rep => exact .pure rfl
  | alt left right =>
    refine .bind (h.nullable S _ _ left) ?_
    rintro T skips _ le rfl
    cases skips with
    | true => exact .pure rfl
    | false => exact h.nullable T _ _ (le _ _ right)
  | cat left right =>
    refine .bind (h.nullable S _ _ left) ?_
    rintro T skips _ le rfl
    cases skips with
    | true => exact h.nullable T _ _ (le _ _ right)
    | false => exact .pure rfl
  | thunk =>
    exact .bind (h.force S x y pair) fun T target target' _ targets =>
      h.nullable T target target' targets
  | @rule r r' body body' twin bodies =>
    obtain ⟨_, _, state, _⟩ := r
    obtain ⟨_, _, state', _⟩ := r'
    obtain rfl : state = state' := twin.fixpoint
    cases state with
    | done answer => exact .pure rfl
    | inProgress =>
      exact .bind
        (.modify fun g g' twins => twins.of_eq rfl rfl rfl rfl rfl) fun T _ _ _ _ => .pure rfl
    | unstarted =>
      refine .bind (tandem_setFixpoint pair .inProgress) fun T₁ _ _ le₁ _ => ?_
      refine .bind (h.nullable T₁ _ _ (le₁ _ _ bodies)) ?_
      rintro T₂ answer _ le₂ rfl
      exact .bind
        (tandem_setFixpoint ((le₁.trans le₂) _ _ pair) (.done answer)) fun T₃ _ _ _ _ => .pure rfl

theorem force_succ :
    Tandem R Pairing.Pairs (Grammar.force (fuel + 1) x : Eval L NodeId)
      (Grammar.force (fuel + 1) y) := by
  rw [Grammar.force, Grammar.force]
  refine .bind (.fetch pair) fun S node node' le twin => ?_
  have pair := le _ _ pair
  cases twin with
  | @thunk s state state' base base' far bases =>
    cases far with
    | forced target => exact .pure target
    | @culled target target' targets =>
      cases targets with
      | some pair => exact .pure pair
      | none => exact .pure S.nothing
    | running => exact .bind (.note _ _) fun T _ _ _ _ => .pure T.nothing
    | pending =>
      refine .bind (tandem_setState pair .running) fun T₁ _ _ le₁ _ => ?_
      refine .bind (h.derive T₁ _ _ s (le₁ _ _ bases)) fun T₂ target target' le₂ targets => ?_
      refine .bind
        (tandem_setState ((le₁.trans le₂) _ _ pair) (.forced targets)) fun T₃ _ _ le₃ _ => ?_
      refine .bind (.modify fun g g' twins =>
        twins.of_eq rfl rfl rfl rfl twins.provisional) fun T₄ _ _ le₄ _ => ?_
      exact .bind (.note _ _) fun T₅ _ _ le₅ _ => .pure ((le₃.trans (le₄.trans le₅)) _ _ targets)
  | _ => exact .pure pair

end EvaluatesInTandem

theorem evaluates_in_tandem (fuel : Nat) : EvaluatesInTandem L fuel := by
  induction fuel with
  | zero => exact ⟨fun _ _ _ _ _ => .throw _, fun _ _ _ _ => .throw _, fun _ _ _ _ => .throw _⟩
  | succ fuel ih =>
    exact ⟨fun R x y s pair => ih.derive_succ pair s, fun R x y pair => ih.nullable_succ pair,
      fun R x y pair => ih.force_succ pair⟩

end Grammar

/-! ## Walks -/

/-- What a walk has still to do, under other names. -/
inductive Visit.Twin (R : Pairing) : Visit → Visit → Prop
  | enter {x y : NodeId} (pair : R.Pairs x y) : Twin R (.enter x) (.enter y)
  | leave {x y : NodeId} (pair : R.Pairs x y) : Twin R (.leave x) (.leave y)

/-- Walks that have come as far, under other names. -/
structure Traversal.Twin {σ : Type} [NodeSet σ] (R : Pairing) (t t' : Traversal σ) : Prop where
  seen : Meets R.Pairs (fun x => NodeSet.contains t.seen x) fun y => NodeSet.contains t'.seen y
  finished : List.Forall₂ R.Pairs t.finished t'.finished

namespace Grammar

section Walk

variable {L σ : Type} [DecidableEq L] [NodeSet σ] {R : Pairing} {g g' : Grammar L} {x y : NodeId}
  {node node' : Node L}

theorem stack_twin {nodes nodes' : List NodeId} {work work' : List Visit}
    (h : List.Forall₂ R.Pairs nodes nodes') (rest : List.Forall₂ (Visit.Twin R) work work') :
    List.Forall₂ (Visit.Twin R) (stack nodes work) (stack nodes' work') := by
  induction h generalizing work work' with
  | nil => exact rest
  | cons pair _ ih => exact ih (.cons (.enter pair) rest)

/-- Walks from paired nodes meet paired nodes, in the same order. -/
theorem Twins.walk (h : g.Twins R g') (throughPending : Bool) {work work' : List Visit}
    {t t' t₁ : Traversal σ} (todo : List.Forall₂ (Visit.Twin R) work work') (twin : t.Twin R t')
    (run : g.walk throughPending (fun _ => none) work t = .ok t₁) :
    ∃ t₁', g'.walk throughPending (fun _ => none) work' t' = .ok t₁' ∧ t₁.Twin R t₁' := by
  induction work, t using @walk.induct L σ _ g throughPending (fun _ => none)
    generalizing work' t' with
  | case1 t =>
    cases todo
    rw [Grammar.walk] at run
    cases run
    exact ⟨t', by rw [Grammar.walk], twin⟩
  | case2 id work t ih =>
    obtain _ | ⟨_ | @⟨_, id', pair⟩, todo⟩ := todo
    rw [Grammar.walk] at run
    have next : Traversal.Twin R { t with finished := id :: t.finished }
      { t' with finished := id' :: t'.finished } :=
      ⟨twin.seen, .cons pair twin.finished⟩
    obtain ⟨t₁', run', twin'⟩ := ih todo next run
    exact ⟨t₁', by rw [Grammar.walk, run'], twin'⟩
  | case3 id work t old ih =>
    obtain _ | ⟨pair | _, todo⟩ := todo
    have old' := (twin.seen.iff R.unique pair).mp old
    rw [Grammar.walk, dif_pos old] at run
    obtain ⟨t₁', run', twin'⟩ := ih todo twin run
    exact ⟨t₁', by rw [Grammar.walk, dif_pos old', run'], twin'⟩
  | case4 id work t new missing =>
    obtain _ | ⟨pair | _, todo⟩ := todo
    obtain ⟨node, _, there, -⟩ := h.node _ _ pair
    cases missing.symm.trans there
  | case5 id work t new node there e refused => cases refused
  | case6 id work t new node there _ ih =>
    obtain _ | ⟨@⟨_, id', pair⟩ | _, todo⟩ := todo
    have new' := mt (twin.seen.iff R.unique pair).mpr new
    obtain ⟨found, node', there₁, there', same⟩ := h.node _ _ pair
    cases there.symm.trans there₁
    have seen : Meets R.Pairs (fun x => NodeSet.contains (NodeSet.insert t.seen id) x)
        fun y => NodeSet.contains (NodeSet.insert t'.seen id') y :=
      twin.seen.insert pair
        (fun _ => NodeSet.contains_insert_iff) fun _ => NodeSet.contains_insert_iff
    have next : Traversal.Twin R { t with seen := NodeSet.insert t.seen id }
        { t' with seen := NodeSet.insert t'.seen id' } := ⟨seen, twin.finished⟩
    rw [walk_enter_of_new new there rfl] at run
    obtain ⟨t₁', run', twin'⟩ :=
      ih (stack_twin (same.successors throughPending) (.cons (.leave pair) todo)) next run
    exact ⟨t₁', by rw [walk_enter_of_new new' there' rfl, run'], twin'⟩

/-- The nodes under paired nodes are paired, in the same order. -/
theorem Twins.settledOrder (h : g.Twins R g') (pair : R.Pairs x y) {order : List NodeId}
    (run : g.settledOrder x = .ok order) :
    ∃ order', g'.settledOrder y = .ok order' ∧ List.Forall₂ R.Pairs order order' := by
  have start : Traversal.Twin R { seen := (∅ : Std.TreeSet NodeId) }
    { seen := (∅ : Std.TreeSet NodeId) } :=
    ⟨.empty (fun x => by simp [NodeSet.contains]) fun y => by simp [NodeSet.contains], .nil⟩
  unfold Grammar.settledOrder at run ⊢
  cases walked : g.walk false (fun _ => none) [.enter x] { seen := (∅ : Std.TreeSet NodeId) } with
  | error e =>
    rw [walked] at run
    cases run
  | ok t =>
    rw [walked] at run
    cases run
    obtain ⟨t', walked', twin⟩ := h.walk false (.cons (.enter pair) .nil) start walked
    exact ⟨t'.finished.reverse, by rw [walked']; rfl, List.rel_reverse twin.finished⟩

end Walk

/-! ## Productive nodes -/

section Productive

variable {L : Type} [DecidableEq L] {R : Pairing} {g g' : Grammar L} {x y : NodeId}
  {node node' : Node L} {live live' : Std.TreeSet NodeId} {order order' : List NodeId}

/-- Sets of nodes that are the same under other names. -/
def MeetsIn (R : Pairing) (live live' : Std.TreeSet NodeId) : Prop :=
  Meets R.Pairs (fun x => live.contains x) fun y => live'.contains y

theorem MeetsIn.contains (h : MeetsIn R live live') (pair : R.Pairs x y) :
    live.contains x = live'.contains y := by
  have h : Meets R.Pairs (fun x => live.contains x) fun y => live'.contains y := h
  exact Bool.eq_iff_iff.mpr (h.iff R.unique pair)

omit [DecidableEq L] in
theorem produces_twin (h : MeetsIn R live live') (twin : node.Twin R node') :
    produces live node = produces live' node' := by
  cases twin with
  | empty | token | matched | rep | undefined => rfl
  | alt left right | cat left right => simp only [produces, h.contains left, h.contains right]
  | rule _ body => exact h.contains body
  | thunk far _ =>
    cases far with
    | pending | running => rfl
    | forced target => exact h.contains target
    | culled targets =>
      cases targets with
      | none => rfl
      | some pair => exact h.contains pair

theorem Twins.shown (h : g.Twins R g') (meets : MeetsIn R live live') (pair : R.Pairs x y) :
    g.shown live x = g'.shown live' y := by
  obtain ⟨node, node', there, there', twin⟩ := h.node x y pair
  rw [Grammar.shown, Grammar.shown, there, there']
  exact produces_twin meets twin

/-- A sweep leaves paired nodes over, and adds paired nodes. -/
theorem Twins.sweep (h : g.Twins R g') (meets : MeetsIn R live live')
    (nodes : List.Forall₂ R.Pairs order order') :
    List.Forall₂ R.Pairs (g.sweep order live).1 (g'.sweep order' live').1 ∧
      MeetsIn R (g.sweep order live).2 (g'.sweep order' live').2 := by
  have main : ∀ (found found' : List NodeId × Std.TreeSet NodeId),
      List.Forall₂ R.Pairs found.1 found'.1 →
      MeetsIn R found.2 found'.2 →
      List.Forall₂ R.Pairs (order.foldl g.swept found).1 (order'.foldl g'.swept found').1 ∧
        MeetsIn R (order.foldl g.swept found).2 (order'.foldl g'.swept found').2 := by
    induction nodes with
    | nil => exact fun _ _ others live => ⟨others, live⟩
    | cons pair _ ih =>
      intro found found' others live
      have same := h.shown live pair
      refine ih _ _ ?_ ?_ <;> unfold swept <;> rw [same] <;> split
      · exact others
      · exact .cons pair others
      · exact Meets.insert live pair (fun _ => contains_insert_iff) fun _ => contains_insert_iff
      · exact live
  obtain ⟨others, live⟩ := main ([], live) ([], live') .nil meets
  exact ⟨List.rel_reverse others, live⟩

omit [DecidableEq L] in
theorem saturate_eq (g : Grammar L) (order : List NodeId) (live : Std.TreeSet NodeId) :
    g.saturate order live = if (g.sweep order live).1.length < order.length then
      g.saturate (g.sweep order live).1 (g.sweep order live).2 else (g.sweep order live).2 := by
  rw [Grammar.saturate]

theorem Twins.saturate (h : g.Twins R g') (meets : MeetsIn R live live')
    (nodes : List.Forall₂ R.Pairs order order') :
    MeetsIn R (g.saturate order live) (g'.saturate order' live') := by
  induction order, live using saturate.induct g generalizing order' live' with
  | case1 order live others live₁ swept less ih =>
    have both := h.sweep meets nodes
    rw [saturate_eq, saturate_eq g', ← both.1.length_eq, ← nodes.length_eq]
    rw [swept] at both ⊢
    rw [if_pos less, if_pos less]
    exact ih both.2 both.1
  | case2 order live others live₁ swept less =>
    have both := h.sweep meets nodes
    rw [saturate_eq, saturate_eq g', ← both.1.length_eq, ← nodes.length_eq]
    rw [swept] at both ⊢
    rw [if_neg less, if_neg less]
    exact both.2

theorem Twins.productive (h : g.Twins R g') (nodes : List.Forall₂ R.Pairs order order') :
    MeetsIn R (g.productive order) (g'.productive order') :=
  h.saturate (Meets.empty (fun x => by simp) fun y => by simp) nodes

end Productive

/-! ## Culling -/

section Cull

variable {L : Type} [DecidableEq L] {R S : Pairing} {g g' : Grammar L} {x y : NodeId}
  {live live' : Std.TreeSet NodeId}

def CulledAlike (R : Pairing) (finished finished' : Std.TreeMap NodeId (Option NodeId)) : Prop :=
  Tables R.Pairs (Option.Rel R.Pairs) (finished[·]?) (finished'[·]?)

theorem CulledAlike.mono {finished finished' : Std.TreeMap NodeId (Option NodeId)}
    (h : CulledAlike R finished finished') (le : R ≤ S) : CulledAlike S finished finished' :=
  Tables.mono h le fun _ _ => optionRel_mono le

theorem culling_lift {α β : Type} {V : Pairing → α → β → Prop} {act : Eval L α} {act' : Eval L β}
    (h : Tandem R V act act') :
    TandemWith CulledAlike R V (Culling.onGrammar act) (Culling.onGrammar act') :=
  .lift (fun _ _ _ le known => CulledAlike.mono known le) h

theorem tandem_finishCull {result result' : Option NodeId} (pair : R.Pairs x y)
    (results : Option.Rel R.Pairs result result') :
    TandemWith CulledAlike R (fun S => Option.Rel S.Pairs)
      (finishCull x result : Culling L (Option NodeId))
      (finishCull y result') := by
  have dead : (result.isNone && x != nothing) = (result'.isNone && y != nothing) := by
    have same : result.isNone = result'.isNone := by cases results <;> rfl
    rw [same, bne, bne, Pairing.beq_nothing pair]
  have close (S : Pairing) (le : R ≤ S) :
      TandemWith CulledAlike S (fun S => Option.Rel S.Pairs)
        (do modify fun finished => finished.insert x result; return result : Culling L (Option
          NodeId))
        (do modify fun finished => finished.insert y result'; return result') := by
    refine .bind (.modify fun finished finished' known => ?_) fun T _ _ le' _ => .pure ?_
    · exact Tables.insert known S.unique (le _ _ pair) (optionRel_mono le results)
    · exact optionRel_mono (le.trans le') results
  unfold finishCull
  rw [dead]
  split
  · exact .bind
      (culling_lift (.modify fun g g' twins => twins.of_eq rfl rfl rfl rfl twins.provisional))
      fun S _ _ le _ => close S le
  · exact close R (le_refl R)

theorem tandem_setBusy (pair : R.Pairs x y) (busy : Bool) :
    Tandem R Mute (setBusy x busy : Eval L Unit) (setBusy y busy) :=
  .revise pair fun _ _ twin => twin.mapRule fun _ _ same => ⟨same.memo, same.fixpoint, rfl⟩

/-- With so much fuel, nodes that are paired now or later are culled in tandem. -/
def CullsInTandem (L : Type) [DecidableEq L] (R : Pairing) (live live' : Std.TreeSet NodeId)
    (fuel : Nat) : Prop :=
  ∀ {S : Pairing} {x y : NodeId}, R ≤ S → S.Pairs x y →
    TandemWith CulledAlike S (fun T => Option.Rel T.Pairs)
    (cullNode live fuel x : Culling L (Option NodeId))
      (cullNode live' fuel y)

section Trim

variable {fuel : Nat} {left right left' right' : NodeId} (ih : CullsInTandem L R live live' fuel)
  (pair : R.Pairs x y)
include ih pair

theorem tandem_trim_alt (lefts : R.Pairs left left') (rights : R.Pairs right right') :
    TandemWith CulledAlike R (fun S => Option.Rel S.Pairs)
      (trim (cullNode live fuel) x (.alt left right) : Culling L _)
      (trim (cullNode live' fuel) y (.alt left' right')) := by
  unfold trim
  refine .bind (ih (le_refl R) lefts) fun S l l' le hl => ?_
  refine .bind (ih le (le _ _ rights)) fun S₁ r r' le₁ hr => ?_
  have pair := (le.trans le₁) _ _ pair
  cases hl with
  | none =>
    cases hr with
    | none => exact tandem_finishCull pair .none
    | some hr => exact tandem_finishCull pair (.some hr)
  | some hl =>
    have hl := le₁ _ _ hl
    cases hr with
    | none => exact tandem_finishCull pair (.some hl)
    | some hr =>
      refine .bind (culling_lift (.store pair (.alt hl hr))) fun S₂ _ _ le₂ _ => ?_
      exact tandem_finishCull (le₂ _ _ pair) (.some (le₂ _ _ pair))

theorem tandem_trim_cat (lefts : R.Pairs left left') (rights : R.Pairs right right') :
    TandemWith CulledAlike R (fun S => Option.Rel S.Pairs)
      (trim (cullNode live fuel) x (.cat left right) : Culling L _)
      (trim (cullNode live' fuel) y (.cat left' right')) := by
  unfold trim
  refine .bind (ih (le_refl R) lefts) fun S l l' le hl => ?_
  cases hl with
  | none => exact tandem_finishCull (le _ _ pair) .none
  | some hl =>
    refine .bind (ih le (le _ _ rights)) fun S₁ r r' le₁ hr => ?_
    have pair := (le.trans le₁) _ _ pair
    cases hr with
    | none => exact tandem_finishCull pair .none
    | some hr =>
      refine .bind (culling_lift (.store pair (.cat (le₁ _ _ hl) hr))) fun S₂ _ _ le₂ _ => ?_
      exact tandem_finishCull (le₂ _ _ pair) (.some (le₂ _ _ pair))

theorem tandem_trim_rep {body body' : NodeId} (bodies : R.Pairs body body') :
    TandemWith CulledAlike R (fun S => Option.Rel S.Pairs)
      (trim (cullNode live fuel) x (.rep body) : Culling L _)
      (trim (cullNode live' fuel) y (.rep body')) := by
  unfold trim
  have dead : (body != nothing) = (body' != nothing) := by rw [bne, bne, Pairing.beq_nothing bodies]
  simp only [dead]
  split
  · refine .bind (ih (le_refl R) bodies) fun S b b' le hb => ?_
    have rest : S.Pairs (b.getD nothing) (b'.getD nothing) := by
      cases hb with
      | none => exact S.nothing
      | some hb => exact hb
    refine .bind (culling_lift (.store (le _ _ pair) (.rep rest))) fun S₁ _ _ le₁ _ => ?_
    have pair := (le.trans le₁) _ _ pair
    exact tandem_finishCull pair (.some pair)
  · exact tandem_finishCull pair (.some pair)

theorem tandem_trim_rule {r r' : Rule} {body body' : NodeId} (twin : r.Twin R r')
    (bodies : R.Pairs body body') :
    TandemWith CulledAlike R (fun S => Option.Rel S.Pairs)
      (trim (cullNode live fuel) x (.rule r body) : Culling L _)
      (trim (cullNode live' fuel) y (.rule r' body')) := by
  unfold trim
  simp only [twin.busy]
  split
  · exact .pure (.some pair)
  · refine .bind (culling_lift (tandem_setBusy pair true)) fun S _ _ le _ => ?_
    refine .bind (ih le (le _ _ bodies)) fun S₁ b b' le₁ hb => ?_
    have pair := (le.trans le₁) _ _ pair
    refine .bind (culling_lift (tandem_setBusy pair false)) fun S₂ _ _ le₂ _ => ?_
    have pair := le₂ _ _ pair
    cases hb with
    | none => exact tandem_finishCull pair .none
    | some hb =>
      refine .bind (culling_lift
        (.revise pair fun _ _ same => same.setBody (le₂ _ _ hb))) fun S₃ _ _ le₃ _ => ?_
      exact tandem_finishCull (le₃ _ _ pair) (.some (le₃ _ _ pair))

theorem tandem_trim_thunk {t t' : Thunk L} {base base' : NodeId}
    (twin : (Node.thunk t base).Twin R (.thunk t' base')) :
    TandemWith CulledAlike R (fun S => Option.Rel S.Pairs)
      (trim (cullNode live fuel) x (.thunk t base))
      (trim (cullNode live' fuel) y (.thunk t' base')) := by
  cases twin with
  | thunk far =>
    unfold trim
    cases far with
    | pending | running => exact tandem_finishCull pair (.some pair)
    | culled targets => exact tandem_finishCull pair targets
    | forced targets =>
      refine .bind
        (culling_lift (tandem_setState pair (.culled (.some targets)))) fun S _ _ le _ => ?_
      refine .bind (ih le (le _ _ targets)) fun S₁ result result' le₁ results => ?_
      have pair := (le.trans le₁) _ _ pair
      refine .bind (culling_lift (tandem_setState pair (.culled results))) fun S₂ _ _ le₂ _ => ?_
      exact tandem_finishCull (le₂ _ _ pair) (optionRel_mono le₂ results)

end Trim

theorem tandem_cullNode (meets : MeetsIn R live live') (pair : R.Pairs x y) (fuel : Nat) :
    TandemWith CulledAlike R (fun S => Option.Rel S.Pairs)
      (cullNode live fuel x : Culling L (Option NodeId))
      (cullNode live' fuel y) := by
  induction fuel generalizing R x y with
  | zero => exact .throw _
  | succ fuel ih =>
    refine .bind .get fun S finished finished' le known => ?_
    have before := Tables.lookup known S.unique (le _ _ pair)
    generalize finished[x]? = found, finished'[y]? = found' at before ⊢
    cases before with
    | some result => exact .pure result
    | none =>
      refine .bind (culling_lift (.fetch (le _ _ pair))) fun T node node' le₁ twin => ?_
      have pair := (le.trans le₁) _ _ pair
      have meets : MeetsIn T live live' := Meets.mono meets (le.trans le₁)
      have ih : CullsInTandem L T live live' fuel := fun le pair => ih (Meets.mono meets le) pair
      rw [meets.contains pair]
      split
      · cases twin with
        | empty => exact tandem_finishCull pair .none
        | token | matched | undefined => exact tandem_finishCull pair (.some pair)
        | alt left right => exact tandem_trim_alt ih pair left right
        | cat left right => exact tandem_trim_cat ih pair left right
        | rep bodies => exact tandem_trim_rep ih pair bodies
        | rule twin bodies => exact tandem_trim_rule ih pair twin bodies
        | thunk far bases => exact tandem_trim_thunk ih pair (.thunk far bases)
      · exact tandem_finishCull pair .none

theorem tandem_cull (pair : R.Pairs x y) :
    Tandem R (fun S => Option.Rel S.Pairs) (cull x : Eval L (Option NodeId)) (cull y) := by
  unfold cull cullUnder
  refine .bind .get fun S g g' le twins => ?_
  have pair := le _ _ pair
  refine .bind
    (.lift (V := fun _ => List.Forall₂ S.Pairs) fun order run => twins.settledOrder pair run)
    fun S₁ order order' le₁ nodes => ?_
  have meets : MeetsIn S₁ (g.productive order) (g'.productive order') :=
    Meets.mono (twins.productive nodes) le₁
  have none : CulledAlike S₁ {} {} :=
    .empty (fun _ => Std.TreeMap.getElem?_emptyc) fun _ => Std.TreeMap.getElem?_emptyc
  simp only [nodes.length_eq]
  exact (tandem_cullNode meets (le₁ _ _ pair) _).run' none

theorem tandem_step (fuel : Nat) (pair : R.Pairs x y) (s : Symbol L) (culling : Bool) :
    Tandem R (fun S p q => S.Pairs p.1 q.1 ∧ p.2 = q.2) (step fuel x s culling)
      (step fuel y s culling) := by
  have evaluates := evaluates_in_tandem (L := L) fuel
  unfold step
  refine .bind (.modify fun g g' twins => twins.forget) fun S _ _ le _ => ?_
  refine .bind (evaluates.derive S x y s (le _ _ pair)) fun S₁ next next' le₁ result => ?_
  refine .bind (evaluates.nullable S₁ next next' result) ?_
  rintro S₂ accepts _ le₂ rfl
  have result := le₂ _ _ result
  cases culling with
  | false => exact .pure ⟨result, rfl⟩
  | true =>
    refine .bind (tandem_cull result) fun S₃ culled culled' le₃ left => .pure ⟨?_, rfl⟩
    cases left with
    | none => exact S₃.nothing
    | some pair => exact pair

end Cull

end Grammar

end DerivativeParsing
