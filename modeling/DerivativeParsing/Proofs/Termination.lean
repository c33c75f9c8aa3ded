import DerivativeParsing.Proofs.Progress

/-!
# Every question is answered

Evaluation ends, on every graph and from every state that a question may be asked in. The induction
is on the level of the node, and at one level nullability is the hard case: working it out follows
thunks to what they are resolved to, which may not have been there before.

1. `Grammar.pot` counts how many rules may still be derived along a trace. Where evaluation makes no
   combinators, following a thunk lowers it or uses up nothing (`Evaluates.drains`).
2. `ahead` measures a question about nullability: what combinators of lower levels may still cost,
   then how many rules inside combinators have not been asked, then the pot, then what is left of
   the way to the next change.
3. `Ready.nullable_answered`, `Ready.derive_answered`: every question is answered.
-/

namespace DerivativeParsing

open Grammar (lt_size_of_get?)

open scoped Classical

/-! ## Rules that may still be derived -/

section Pot

variable {L : Type} {W W' : World} {g g' : Grammar L} {u : Word} {id : Nat}

/-- How many rules may come of a node when it is derived along a trace: a rule that does not
remember its derivative yet makes one of the next level, which may be derived in turn. -/
noncomputable def World.room (W : World) (u : Word) (id : Nat) : Node L → Nat
  | .rule r _ =>
    if ∃ kind, kind :: (W id).trace <:+ u ∧ r.remembered? kind = none then 2 ^
      (u.length - W.level id)
    else 0
  | _ => 0

/-- How many rules may still be derived along a trace. -/
noncomputable def Grammar.pot (g : Grammar L) (W : World) (u : Word) : Nat := g.tally (W.room u)

/-- A rule whose nullability has not been asked. -/
def Node.isUnstarted : Node L → Prop
  | rule r _ => r.fixpoint = .unstarted
  | _ => False

/-- The number of rules of some sort that have not been asked whether they match the empty word. -/
noncomputable def Grammar.unstarted (g : Grammar L) (P : Nat → Prop) : Nat :=
  g.tally fun id node => if P id ∧ node.isUnstarted then 1 else 0

/-- A part of a combinator up to a level. -/
def Grammar.Inside (g : Grammar L) (W : World) (n x : Nat) : Prop :=
  ∃ (c : Nat) (node : Node L), g.arena.get? c = some node ∧ node.isCombinator ∧ W.level c ≤ n ∧
    x ∈ node.successors true

theorem World.room_congr {node : Node L} (same : W' id = W id) :
    W'.room u id node = W.room u id node := by
  cases node with
  | rule r body =>
    unfold room
    rw [same, World.level_congr same]
  | _ => rfl

theorem World.room_of_isFixed {node : Node L} (fixed : node.isFixed) : W.room u id node = 0 := by
  cases node <;> first | rfl | cases fixed

theorem World.room_le (node : Node L) : W.room u id node ≤ 2 ^ (u.length - W.level id) := by
  cases node with
  | rule r body =>
    by_cases h : ∃ kind, kind :: (W id).trace <:+ u ∧ r.remembered? kind = none
    · exact Nat.le_of_eq (if_pos h)
    · exact Nat.le_trans (Nat.le_of_eq (if_neg h)) (Nat.zero_le _)
  | _ => exact Nat.zero_le _

theorem Node.not_isUnstarted_of_isFixed {node : Node L} (fixed : node.isFixed) :
    ¬node.isUnstarted := by
  cases node <;> first | exact id | cases fixed

/-- Rules are used up: fewer may still be derived, or no more may be and no more have not been
asked. -/
def Drains (u : Word) (W : World) (g : Grammar L) (W' : World) (g' : Grammar L) : Prop :=
  g'.pot W' u < g.pot W u ∨
    g'.pot W' u ≤ g.pot W u ∧ g'.unstarted (fun _ => True) ≤ g.unstarted fun _ => True

namespace Drains

variable {W₁ : World} {g₁ : Grammar L}

theorem refl : Drains u W g W g := .inr ⟨Nat.le_refl _, Nat.le_refl _⟩

theorem trans (h : Drains u W g W₁ g₁) (h' : Drains u W₁ g₁ W' g') : Drains u W g W' g' := by
  rcases h with h | ⟨h, le⟩ <;> rcases h' with h' | ⟨h', le'⟩
  · exact .inl (Nat.lt_trans h' h)
  · exact .inl (Nat.lt_of_le_of_lt h' h)
  · exact .inl (Nat.lt_of_lt_of_le h' h)
  · exact .inr ⟨Nat.le_trans h' h, Nat.le_trans le' le⟩

theorem withFixed {node : Node L} (fixed : node.isFixed) (meaning : Meaning) :
    Drains u W g (W.put g.size meaning) (g.withNode node) := by
  refine .inr ⟨Nat.le_of_eq ?_, Nat.le_of_eq ?_⟩
  · unfold Grammar.pot
    rw [Grammar.tally_withNode, World.room_of_isFixed fixed]
    exact Grammar.tally_congr fun i _ there =>
      World.room_congr (World.put_of_lt (lt_size_of_get? there))
  · unfold Grammar.unstarted
    rw [Grammar.tally_withNode, if_neg fun h => Node.not_isUnstarted_of_isFixed fixed h.2]
    rfl

theorem setState {state : ThunkState} {t : Thunk L} {base : NodeId}
    (there : g.arena.get? id = some (.thunk t base)) :
    Drains u W g W (g.revised id (.setState state)) := by
  have pot := Grammar.tally_revised (f := W.room u) (h := Node.setState state) there
  refine .inr ⟨Nat.le_of_eq (Nat.add_right_cancel pot), Nat.le_of_eq ?_⟩
  exact Nat.add_right_cancel (Grammar.tally_revised (h := Node.setState state) there)

/-- A rule is derived for the first time. The rule it makes has less room than the rule had. -/
theorem withDerivedRule {r : Rule} {body : NodeId} {s : Symbol L}
    (there : g.arena.get? id = some (.rule r body)) (new : r.remembered? s.kind = none)
    (along : s.kind :: (W id).trace <:+ u) :
    Drains u W g ((W.put g.size ((W body).after s.kind)).put (g.size + 1) ((W id).after s.kind))
      (g.withDerivedRule id r body s) := by
  have lt := lt_size_of_get? there
  generalize hW : (W.put g.size ((W body).after s.kind)).put (g.size + 1) ((W id).after s.kind) = W'
  have same : ∀ x : Nat, x < g.size → W' x = W x := fun x hx => by
    rw [← hW, World.put_of_lt (by omega), World.put_of_lt hx]
  have rule' : W' (g.size + 1) = (W id).after s.kind := by rw [← hW, World.put_self]
  have level : W.level id + 1 ≤ u.length := along.length_le
  -- the thunk has no room, the new rule has half of what the rule had, and the rule has none left
  have thunk_room : W'.room u g.size (.thunk { symbol := s } body) = 0 := rfl
  have rule_room : W'.room (L := L) u (g.size + 1) (.rule { name := r.name } g.size) ≤
      2 ^ (u.length - (W.level id + 1)) := by
    have level' : W'.level (g.size + 1) = W.level id + 1 :=
      congrArg (fun m : Meaning => m.trace.length) rule'
    rw [← level']
    exact World.room_le _
  have before : W'.room (L := L) u id (.rule r body) = 2 ^ (u.length - W.level id) := by
    rw [World.room_congr (same id lt)]
    exact if_pos ⟨s.kind, along, new⟩
  have after : W'.room (L := L) u id
      (.rule { r with memo := some (s.kind, g.size + 1) } body) = 0 := by
    refine if_neg ?_
    rintro ⟨kind, along', new'⟩
    rw [same id lt] at along'
    have eq : kind :: (W id).trace = s.kind :: (W id).trace := by
      refine List.IsSuffix.eq_of_length_le ?_ (Nat.le_refl _)
      exact List.suffix_of_suffix_length_le along' along (Nat.le_refl _)
    obtain rfl : kind = s.kind := (List.cons.inj eq).1
    simp [Rule.remembered?] at new'
  have there' : ((g.withNode (.thunk { symbol := s } body)).withNode
      (.rule { name := r.name } g.size)).arena.get? id = some (.rule r body) := by
    rw [Grammar.get?_withNode_of_lt (by rw [Grammar.size_withNode]; omega),
      Grammar.get?_withNode_of_lt lt, there]
  have whole : (g.withDerivedRule id r body s).pot W' u + W'.room (L := L) u id (.rule r body) =
      g.pot W u + 0 + W'.room (L := L) u (g.size + 1) (.rule { name := r.name } g.size) + 0 := by
    have revised := Grammar.tally_revised (f := W'.room u)
      (h := .mapRule ({ · with memo := some (s.kind, g.size + 1) })) there'
    rw [Grammar.tally_withNode, Grammar.tally_withNode, Grammar.size_withNode] at revised
    have old : g.tally (W'.room u) = g.pot W u :=
      Grammar.tally_congr fun i _ there => World.room_congr (same i (lt_size_of_get? there))
    rw [old, thunk_room] at revised
    exact revised.trans (congrArg _ after)
  have half : 2 ^ (u.length - W.level id) = 2 * 2 ^ (u.length - (W.level id + 1)) := by
    rw [show u.length - W.level id =
      u.length - (W.level id + 1) + 1 by omega, Nat.pow_succ, Nat.mul_comm]
  have pos : 0 < 2 ^ (u.length - (W.level id + 1)) := Nat.two_pow_pos _
  refine .inl ?_
  omega

end Drains

end Pot

/-- The kinds that the answer to a question was derived by, unless it matches nothing. -/
def Question.goal {L : Type} (W : World) : Question L → Word
  | derive id s | compute id s => s.kind :: (W id).trace
  | nullable id | force id => (W id).trace

section Plateau

variable {L : Type} [DecidableEq L] {links : Links} {W W₁ W₂ W' : World} {g g₁ g₂ g' : Grammar L}
  {u : Word} {n : Nat}

theorem Sparing.first (h : Sparing W₂ g g₂ n) (keep : Retains W₁ g₁ W₂ g₂) : Sparing W₁ g g₁ n := by
  intro x node new there comb
  rw [← keep.level (lt_size_of_get? there)]
  exact h x node new (keep.fixed x node there (Node.isFixed_of_isCombinator comb)) comb

theorem Sparing.second (h : Sparing W₂ g g₂ n) (keep : Retains W g W₁ g₁) : Sparing W₂ g₁ g₂ n :=
  fun x node new => h x node (Nat.le_trans keep.size new)

/-- Along a trace no combinators were made, so not this one. -/
theorem Sparing.not_withNode {node : Node L} {kind : Kind} {words : Ranked} {id : Nat}
    (h : Sparing (W₁.put g₁.size (((W₁ id).after kind).withWords words)) g (g₁.withNode node)
      (u.length + 1))
    (ext : Extends W g W₁ g₁) (lt : id < g.size) (along : kind :: (W id).trace <:+ u)
    (comb : node.isCombinator) : False := by
  have above := h g₁.size node ext.size (Grammar.get?_withNode_self node) comb
  have level : World.level (W₁.put g₁.size (((W₁ id).after kind).withWords words)) g₁.size =
      (kind :: (W id).trace).length := by
    unfold World.level
    rw [World.put_self, ← ext.world id lt]
    rfl
  have le := along.length_le
  omega

/-- Where no combinators are made along a trace, rules are used up. -/
theorem Evaluates.drains {q : Question L} {a : Reply} (h : Evaluates W g q a W' g')
    (ready : Ready links W g q) (along : q.goal W <:+ u)
    (sparing : Sparing W' g g' (u.length + 1)) :
    ∀ next, a = .node next → (W' next).trace = q.goal W → Drains u W g W' g' := by
  -- nothing was derived by no symbol
  have nothing_reached {W : World} {g : Grammar L} {q : Question L} {kind : Kind} {t : Word}
      (ready : Ready links W g q) (reached : (W Grammar.nothing).trace = kind :: t) : False := by
    rw [ready.sound.void ready.formed] at reached
    cases reached
  induction h with
  | spent | undefined | miss =>
    intro next same reached
    cases same
    exact absurd reached fun reached => nothing_reached ready reached
  | rule_known | known | force_other | force_resolved => exact fun _ _ _ => .refl
  | rule_new there new => exact fun _ _ _ => .withDerivedRule there new along
  | @thunk W W₁ W₂ g g₁ g₂ id base target next s t there hf hd ihf ihd =>
    intro next' same reached
    cases same
    have ready₁ := ready.derive_target hf
    have target_id : (W₁ target).Refines (W₁ id) := (hf.sound ready.formed ready.sound).2
    have next_target : (W₂ next).Refines ((W₂ target).after s.kind) :=
      (hd.sound ready₁.formed ready₁.sound).2
    have reached : (W₂ next).trace = s.kind :: (W id).trace := reached
    have trace : (W₁ target).trace = (W id).trace := by
      have short := next_target.2.1.length_le
      rw [reached, hd.extension.world target ready₁.range] at short
      have part := target_id.2.1
      rw [hf.extension.world id (lt_size_of_get? there)] at part
      exact part.eq_of_length_le (Nat.le_of_succ_le_succ short)
    have along' : s.kind :: (W₁ target).trace <:+ u := trace ▸ along
    have first := ihf ready.force_of_derive ((List.suffix_cons _ _).trans along)
      (sparing.first hd.extension.retains) target rfl trace
    exact first.trans (ihd ready₁ along' (sparing.second hf.extension.retains) next rfl
      (reached.trans (congrArg (s.kind :: ·) trace.symm)))
  | fresh _ _ _ _ ih => exact ih ready.compute along sparing
  | hit => exact fun _ _ _ => .withFixed rfl _
  | alt _ hl hr =>
    exact (sparing.not_withNode (hl.extension.trans hr.extension) ready.range along rfl).elim
  | cat _ hb hl =>
    exact (sparing.not_withNode (hb.extension.trans hl.extension) ready.range along rfl).elim
  | cat_nullable _ hb hl same hr =>
    have ext := ((hb.extension.trans hl.extension).trans (Extends.put same rfl)).trans hr.extension
    exact (sparing.not_withNode ext ready.range along rfl).elim
  | rep _ hd => exact (sparing.not_withNode hd.extension ready.range along rfl).elim
  | force_running there state => exact absurd state (ready.not_running there)
  | @force_pending W W₁ g g₁ id base target t there state hd ih =>
    intro next same reached
    cases same
    have ready₁ := ready.base_of_thunk there state
    have fits := (World.fits_waiting (t := t) (by rw [state]; rfl)).mp (ready.sound.node id _ there)
    have target_base : (W₁ target).Refines ((W₁ base).after t.symbol.kind) :=
      (hd.sound ready₁.formed ready₁.sound).2
    rw [hd.extension.world base ready₁.range] at target_base
    have reached : (W₁ target).trace = (W id).trace := reached
    obtain ⟨-, whole⟩ := target_base.2.squeeze fits.2.1 reached
    obtain ⟨t₁, there₁, -, step⟩ := hd.extension.get?_thunk (Grammar.get?_running there)
    have state₁ : t₁.state = .running := by
      generalize t₁.state = state at step
      cases step
      rfl
    have along' : ((W base).after t.symbol.kind).trace <:+ u := by
      rw [whole]
      exact along
    have start : Retains W g W (g.running id) := .running there state
    have sparing' := (sparing.first (.resolved there₁ state₁)).second start
    have inner := ih ready₁ along' sparing' target rfl (reached.trans whole.symm)
    have before : Drains u W g W (g.running id) := .setState there
    have after : Drains u W₁ g₁ W₁ (g₁.revised id (.setState (.forced target))) := .setState there₁
    exact (before.trans inner).trans after
  | _ => nofun

end Plateau

/-! ## How far a question is from its answer -/

section Rest

variable {L : Type} {W W' : World} {g g' : Grammar L} {u : Word} {id id' : Nat}
  {node node' : Node L}

theorem unstarted_begun {r : Rule} {body : NodeId} {P : Nat → Prop}
    (there : g.arena.get? id = some (.rule r body)) (state : r.fixpoint = .unstarted) :
    (g.begun id).unstarted P + (if P id then 1 else 0) = g.unstarted P := by
  have count := Grammar.tally_revised (f := fun id node => if P id ∧ node.isUnstarted then 1 else 0)
    (h := .mapRule ({ · with fixpoint := .inProgress })) there
  have was : (if P id ∧ (Node.rule (L := L) r body).isUnstarted then 1 else 0) =
      if P id then 1 else 0 := by
    by_cases h : P id
    · rw [if_pos h, if_pos ⟨h, state⟩]
    · rw [if_neg h, if_neg fun h' => h h'.1]
  have now : (if P id ∧ (Node.mapRule (L := L) ({ · with fixpoint := .inProgress })
      (.rule r body)).isUnstarted then 1 else 0) = 0 := if_neg nofun
  rw [was, now] at count
  exact count

/-- What a question about nullability has ahead of it at the level of the node. -/
noncomputable def rest (u : Word) (W : World) (g : Grammar L) (id : Nat) (node : Node L) : Nat → Nat
  | 0 => g.unstarted (g.Inside W u.length)
  | 1 => if node.isFixed then 0 else g.pot W u + 1
  | 2 => if node.isFixed then id else g.unstarted fun _ => True
  | _ => if node.isThunk then 1 else 0

variable (inside : g'.unstarted (g'.Inside W' u.length) ≤ g.unstarted (g.Inside W u.length))
include inside

omit inside in
theorem lower_of_inside
    (less : g'.unstarted (g'.Inside W' u.length) < g.unstarted (g.Inside W u.length)) :
    Lower 4 (rest u W' g' id' node') (rest u W g id node) :=
  ⟨0, by omega, nofun, less⟩

theorem lower_of_fixed (fixed : node'.isFixed) (other : node.isFixed = false) :
    Lower 4 (rest u W' g' id' node') (rest u W g id node) := by
  refine ⟨1, by omega, fun j hj => ?_, ?_⟩
  · obtain rfl : j = 0 := by omega
    exact inside
  · simp only [rest, fixed, other, if_true]
    simp

theorem lower_of_part (fixed : node'.isFixed) (fixed' : node.isFixed) (lt : id' < id) :
    Lower 4 (rest u W' g' id' node') (rest u W g id node) := by
  refine ⟨2, by omega, fun j hj => ?_, ?_⟩
  · obtain rfl | rfl : j = 0 ∨ j = 1 := by omega
    · exact inside
    · simp [rest, fixed, fixed']
  · simpa [rest, fixed, fixed'] using lt

theorem lower_of_unstarted (other : node'.isFixed = false) (other' : node.isFixed = false)
    (pot : g'.pot W' u ≤ g.pot W u)
    (less : g'.unstarted (fun _ => True) < g.unstarted fun _ => True) :
    Lower 4 (rest u W' g' id' node') (rest u W g id node) := by
  refine ⟨2, by omega, fun j hj => ?_, ?_⟩
  · obtain rfl | rfl : j = 0 ∨ j = 1 := by omega
    · exact inside
    · simpa [rest, other, other'] using pot
  · simpa [rest, other, other'] using less

theorem lower_of_drains (other : node'.isFixed = false) (solid : node'.isThunk = false)
    (thunk : node.isThunk) (drains : Drains u W g W' g') :
    Lower 4 (rest u W' g' id' node') (rest u W g id node) := by
  have other' : node.isFixed = false := by cases node <;> first | rfl | cases thunk
  rcases drains with less | ⟨le, le'⟩
  · refine ⟨1, by omega, fun j hj => ?_, ?_⟩
    · obtain rfl : j = 0 := by omega
      exact inside
    · simpa [rest, other, other'] using less
  · refine ⟨3, by omega, fun j hj => ?_, ?_⟩
    · obtain rfl | rfl | rfl : j = 0 ∨ j = 1 ∨ j = 2 := by omega
      · exact inside
      · simpa [rest, other, other'] using le
      · simpa [rest, other, other'] using le'
    · simp [rest, solid, thunk]

end Rest

section Ahead

variable {L : Type} [DecidableEq L] {symbols : List (Symbol L)} {W W' : World} {g g' : Grammar L}
  {u : Word} {id id' n : Nat} {node node' : Node L}

/-- Where no combinators are made, no rules come to be inside one. -/
theorem Extends.unstarted_inside_le (h : Extends W g W' g') (formed : g.Formed)
    (sparing : Sparing W' g g' (n + 1)) :
    g'.unstarted (g'.Inside W' n) ≤ g.unstarted (g.Inside W n) := by
  have inside {x : Nat} (hx : g'.Inside W' n x) : x < g.size ∧ g.Inside W n x := by
    obtain ⟨c, node, there, comb, le, mem⟩ := hx
    have old : c < g.size := by
      refine Nat.lt_of_not_le fun new => ?_
      have := sparing c node new there comb
      omega
    have there₀ := h.retains.get?_combinator old there comb
    have part := (formed.node c node there₀).part comb mem
    exact ⟨Nat.lt_trans part.1 old, c, node, there₀, comb, by rw [← h.level old]; exact le, mem⟩
  refine Grammar.tally_le h.size (fun i node there => ?_) fun i node new there => ?_
  · obtain ⟨node', there', step⟩ := h.node i node there
    refine ⟨node', there', ?_⟩
    by_cases counted : g'.Inside W' n i ∧ node'.isUnstarted
    · have was : node.isUnstarted := by
        cases step with
        | same => exact counted.2
        | thunk => exact counted.2
        | @rule r r' body _ _ state =>
          have now : r'.fixpoint = .unstarted := counted.2
          rw [now] at state
          show r.fixpoint = .unstarted
          generalize r.fixpoint = fixpoint at state ⊢
          cases state
          rfl
      rw [if_pos counted, if_pos ⟨(inside counted.1).2, was⟩]
    · rw [if_neg counted]
      exact Nat.zero_le _
  · refine if_neg fun counted => ?_
    exact absurd (inside counted.1).1 (Nat.not_lt.mpr new)

/-- What a question about nullability has ahead of it, at a node that was derived by some kinds. -/
noncomputable def ahead (symbols : List (Symbol L)) (u : Word) (W : World) (g : Grammar L)
    (id : Nat) (node : Node L) (i : Nat) : Nat :=
  if i < u.length then load symbols W g i else rest u W g id node (i - u.length)

theorem ahead_of_lt {i : Nat} (h : i < u.length) :
    ahead symbols u W g id node i = load symbols W g i :=
  if_pos h

theorem ahead_add (i : Nat) :
    ahead symbols u W g id node (u.length + i) = rest u W g id node i := by
  unfold ahead
  rw [if_neg (by omega), Nat.add_sub_cancel_left]

/-- A question has less ahead of it after a price has dropped, or else if it has less ahead of it at
its level. -/
theorem lower_ahead (thrifty : Thrifty symbols u.length (u.length + 1) W g W' g')
    (keep : Retains W g W' g')
    (less : Sparing W' g g' (u.length + 1) →
      Lower 4 (rest u W' g' id' node') (rest u W g id node)) :
    Lower (u.length + 4) (ahead symbols u W' g' id' node') (ahead symbols u W g id node) := by
  rcases thrifty with sparing | ⟨i, hi, sparing, drop⟩
  · obtain ⟨i, hi, before, less⟩ := less sparing
    refine ⟨u.length + i, by omega, fun j hj => ?_, ?_⟩
    · by_cases lt : j < u.length
      · rw [ahead_of_lt lt, ahead_of_lt lt]
        exact keep.load_le (sparing.mono (by omega))
      · obtain ⟨j, rfl⟩ := Nat.exists_eq_add_of_le (Nat.le_of_not_lt lt)
        rw [ahead_add, ahead_add]
        exact before j (by omega)
    · rw [ahead_add, ahead_add]
      exact less
  · refine ⟨i, by omega, fun j hj => ?_, ?_⟩
    · rw [ahead_of_lt (by omega), ahead_of_lt (by omega)]
      exact keep.load_le (sparing.mono (by omega))
    · rw [ahead_of_lt hi, ahead_of_lt hi]
      exact drop

end Ahead

/-! ## Every question is answered -/

section Answers

variable {L : Type} [DecidableEq L]

/-- Whether a node matches the empty word is answered at a level. -/
def NullableAnswered (links : Links) (symbols : List (Symbol L)) (n : Nat) : Prop :=
  ∀ (W : World) (g : Grammar L) (id : Nat), Ready links W g (.nullable id) → Tracked symbols g →
    W.level id = n → ∃ b W' g', Evaluates W g (.nullable id) (.truth b) W' g'

def ForceAnswered (links : Links) (symbols : List (Symbol L)) (n : Nat) : Prop :=
  ∀ (W : World) (g : Grammar L) (id : Nat), Ready links W g (.force id) → Tracked symbols g →
    W.level id = n → ∃ target W' g', Evaluates W g (.force id) (.node target) W' g'

def DeriveAnswered (links : Links) (symbols : List (Symbol L)) (n : Nat) : Prop :=
  ∀ (W : World) (g : Grammar L) (id : Nat) (s : Symbol L), Ready links W g (.derive id s) →
    Tracked symbols g → s ∈ symbols → W.level id = n →
      ∃ next W' g', Evaluates W g (.derive id s) (.node next) W' g'

/-- Questions about nullability are answered if their node was derived by fewer kinds than `u`, or
by the same and they have less ahead of them. -/
def Below (links : Links) (symbols : List (Symbol L)) (u : Word) (bound : Nat → Nat) : Prop :=
  ∀ (W : World) (g : Grammar L) (id : Nat) node, g.arena.get? id = some node →
    Ready links W g (.nullable id) → Tracked symbols g → (W id).trace <+: u →
    ((W id).trace = u → Lower (u.length + 4) (ahead symbols u W g id node) bound) →
      ∃ b W' g', Evaluates W g (.nullable id) (.truth b) W' g'

variable {links : Links} {symbols : List (Symbol L)} {W W₀ : World} {g g₀ : Grammar L} {u : Word}
  {id x n : Nat} {node : Node L}

omit [DecidableEq L] in
theorem Grammar.inside_begun : (g.begun id).Inside W n x ↔ g.Inside W n x := by
  have same (c : Nat) (node : Node L) (comb : node.isCombinator) :
      (g.begun id).arena.get? c = some node ↔ g.arena.get? c = some node := by
    rw [begun, get?_revised]
    split
    · cases g.arena.get? c with
      | none => rfl
      | some node' => cases node' <;> cases node <;>
        first | rfl | exact absurd comb Bool.false_ne_true | simp [Node.mapRule]
    · rfl
  constructor
  · rintro ⟨c, node, there, comb, rest⟩
    exact ⟨c, node, (same c node comb).mp there, comb, rest⟩
  · rintro ⟨c, node, there, comb, rest⟩
    exact ⟨c, node, (same c node comb).mpr there, comb, rest⟩

/-- A part of a combinator is asked. If it is a rule that has not been asked, there is one less
inside combinators. -/
theorem part_answered (below : Below links symbols u (ahead symbols u W₀ g₀ id node))
    (there₀ : g₀.arena.get? id = some node) (comb : node.isCombinator)
    (level : W₀.level id = u.length) (formed : g₀.Formed) (ext : Extends W₀ g₀ W g)
    (thrifty : Thrifty symbols u.length (u.length + 1) W₀ g₀ W g) (mem : x ∈ node.successors true)
    (ready : Ready links W g (.nullable x)) (tracked : Tracked symbols g)
    (along : (W x).trace <+: u) : ∃ b W' g', Evaluates W g (.nullable x) (.truth b) W' g' := by
  have part := (formed.node id node there₀).part comb mem
  have fixed := Node.isFixed_of_isCombinator comb
  obtain ⟨node', there, solid⟩ := part.2.extended ext
  have lower (fixed' : node'.isFixed) :
      Lower (u.length + 4) (ahead symbols u W g x node') (ahead symbols u W₀ g₀ id node) :=
    lower_ahead thrifty ext.retains fun sparing =>
      lower_of_part (ext.unstarted_inside_le formed sparing) fixed' fixed part.1
  cases node' with
  | thunk => cases solid
  | rule r body =>
    cases state : r.fixpoint with
    | done b => exact ⟨b, W, g, .nullable_done there state⟩
    | inProgress => exact ⟨false, W, _, .nullable_cycle there state⟩
    | unstarted =>
      have ready' := ready.body_of_rule there
      obtain ⟨next, there'⟩ := Grammar.exists_get? ready'.range
      have names : (W body).Names links r.name (W x) := (ready.sound.node x _ there).1
      have begun : Retains W g W (g.begun x) := .begun there state
      have keep := ext.retains.trans begun
      have thrifty' := thrifty.trans (.of_size_le (Nat.le_of_eq (Grammar.size_begun g x)))
        (Nat.le_succ _) ext.retains begun
      have less : Lower (u.length + 4) (ahead symbols u W (g.begun x) body next)
          (ahead symbols u W₀ g₀ id node) := by
        refine lower_ahead thrifty' keep fun sparing => lower_of_inside ?_
        have le := ext.unstarted_inside_le formed (sparing.first begun)
        have inside : g.Inside W u.length x :=
          ⟨id, node, ext.get?_fixed there₀ fixed, comb,
            Nat.le_of_eq ((ext.level (lt_size_of_get? there₀)).trans level), mem⟩
        have count := unstarted_begun (P := g.Inside W u.length) there state
        rw [if_pos inside] at count
        have same : (g.begun x).Inside W u.length = g.Inside W u.length :=
          funext fun _ => propext Grammar.inside_begun
        rw [same]
        omega
      obtain ⟨b, W', g', hb⟩ := below W (g.begun x) body next there' ready' tracked.setFixpoint
        (names.trace.trans along) fun _ => less
      exact ⟨b, W', _, .nullable_rule there state hb⟩
  | _ => exact below W g x _ there ready tracked along fun _ => lower rfl

/-- A question is answered if those below it are. -/
theorem nullable_answered_of_below (force : ForceAnswered links symbols u.length)
    (below : Below links symbols u (ahead symbols u W g id node))
    (there : g.arena.get? id = some node) (ready : Ready links W g (.nullable id))
    (tracked : Tracked symbols g) (trace : (W id).trace = u) :
    ∃ b W' g', Evaluates W g (.nullable id) (.truth b) W' g' := by
  have level : W.level id = u.length := congrArg List.length trace
  have here : Thrifty symbols u.length (u.length + 1) W g W g := .of_size_le (Nat.le_refl _)
  cases node with
  | empty | token | matched | undefined | rep => exact ⟨_, W, g, .nullable_plain there rfl⟩
  | alt left right =>
    have readyl := ready.nullable_left_of_alt there
    have left_id := (ready.sound.node id _ there).1
    obtain ⟨b, W₁, g₁, hl⟩ := part_answered below there rfl level ready.formed (.refl W g) here
      (.head _) readyl tracked (trace ▸ left_id.2.1)
    cases b with
    | true => exact ⟨true, W₁, g₁, .nullable_left there hl⟩
    | false =>
      have ready₁ := ready.after hl
      have there₁ := hl.extension.get?_fixed there rfl
      have right_id := (ready₁.sound.node id _ there₁).2.2.1
      rw [hl.extension.world id ready.range, trace] at right_id
      have thrifty := Thrifty.widen (hl.thrifty readyl trivial tracked) (level ▸ left_id.level_le)
        (Nat.le_succ _)
      obtain ⟨b, W₂, g₂, hr⟩ :=
        part_answered below there rfl level ready.formed hl.extension thrifty
        (.tail _ (.head _)) (ready₁.nullable_right_of_alt there₁)
          (hl.tracked trivial tracked) right_id
      exact ⟨b, W₂, g₂, .nullable_right there hl hr⟩
  | cat left right =>
    have readyl := ready.nullable_left_of_cat there
    have joins : (W left).Joins (W right) (W id) := ready.sound.node id _ there
    obtain ⟨b, W₁, g₁, hl⟩ := part_answered below there rfl level ready.formed (.refl W g) here
      (.head _) readyl tracked (trace ▸ joins.left)
    cases b with
    | false => exact ⟨false, W₁, g₁, .nullable_first there hl⟩
    | true =>
      have ready₁ := ready.after hl
      have there₁ := hl.extension.get?_fixed there rfl
      have null := (hl.sound ready.formed ready.sound).2 rfl
      have flat : (W₁ right).trace <+: u := by
        rw [(ready₁.sound.node id _ there₁).right]
        exact List.nil_prefix
      have lel : W.level left ≤ W.level id := joins.left.length_le
      have thrifty :=
        Thrifty.widen (hl.thrifty readyl trivial tracked) (level ▸ lel) (Nat.le_succ _)
      obtain ⟨b, W₂, g₂, hr⟩ :=
        part_answered below there rfl level ready.formed hl.extension thrifty
        (.tail _ (.head _)) (ready₁.nullable_right_of_cat there₁ null)
          (hl.tracked trivial tracked) flat
      exact ⟨b, W₂, g₂, .nullable_second there hl hr⟩
  | thunk t base =>
    have readyf := ready.force_of_nullable
    obtain ⟨target, W₁, g₁, hf⟩ := force W g id readyf tracked level
    have ready₁ := ready.nullable_target hf
    have target_id : (W₁ target).Refines (W₁ id) := (hf.sound ready.formed ready.sound).2
    have along : (W₁ target).trace <+: u := by
      rw [← trace, ← hf.extension.world id ready.range]
      exact target_id.2.1
    obtain ⟨node', there', solid⟩ := (hf.formed ready.formed).2
    have thrifty :=
      Thrifty.widen (hf.thrifty readyf trivial tracked) (Nat.le_of_eq level) (Nat.le_succ _)
    obtain ⟨b, W₂, g₂, hn⟩ :=
      below W₁ g₁ target node' there' ready₁ (hf.tracked trivial tracked) along
      fun same => lower_ahead thrifty hf.extension.retains fun sparing => by
        have inside := hf.extension.unstarted_inside_le ready.formed sparing
        by_cases fixed : node'.isFixed
        · exact lower_of_fixed inside fixed rfl
        · have reached : (W₁ target).trace = (W id).trace := same.trans trace.symm
          exact lower_of_drains inside (Bool.eq_false_iff.mpr fixed) solid rfl
            (hf.drains readyf (trace ▸ List.suffix_refl _) sparing target rfl reached)
    exact ⟨b, W₂, g₂, .nullable_thunk there hf hn⟩
  | rule r body =>
    cases state : r.fixpoint with
    | done b => exact ⟨b, W, g, .nullable_done there state⟩
    | inProgress => exact ⟨false, W, _, .nullable_cycle there state⟩
    | unstarted =>
      have ready' := ready.body_of_rule there
      obtain ⟨next, there'⟩ := Grammar.exists_get? ready'.range
      have names : (W body).Names links r.name (W id) := (ready.sound.node id _ there).1
      have thrifty : Thrifty symbols u.length (u.length + 1) W g W (g.begun id) :=
        .of_size_le (Nat.le_of_eq (Grammar.size_begun g id))
      have same : (g.begun id).Inside W u.length = g.Inside W u.length :=
        funext fun _ => propext Grammar.inside_begun
      have count (P : Nat → Prop) := unstarted_begun (P := P) there state
      have pot : (g.begun id).pot W u = g.pot W u := Nat.add_right_cancel
        (Grammar.tally_revised (h := .mapRule ({ · with fixpoint := .inProgress })) there)
      obtain ⟨b, W', g', hb⟩ := below W (g.begun id) body next there' ready' tracked.setFixpoint
        (trace ▸ names.trace) fun _ => lower_ahead thrifty (.begun there state) fun _ => by
          have inside : (g.begun id).unstarted ((g.begun id).Inside W u.length) ≤
              g.unstarted (g.Inside W u.length) := by
            have := count (g.Inside W u.length)
            rw [same]
            omega
          by_cases fixed : next.isFixed
          · exact lower_of_fixed inside fixed rfl
          · have := count fun _ => True
            rw [if_pos trivial] at this
            exact lower_of_unstarted inside (Bool.eq_false_iff.mpr fixed) rfl (Nat.le_of_eq pot)
              (by omega)
      exact ⟨b, W', _, .nullable_rule there state hb⟩

theorem nullableAnswered (lower : ∀ m < n, NullableAnswered links symbols m)
    (force : ForceAnswered links symbols n) : NullableAnswered links symbols n := by
  intro W g id ready tracked level
  generalize trace : (W id).trace = u
  obtain rfl : u.length = n := trace ▸ level
  obtain ⟨node, there⟩ := Grammar.exists_get? ready.range
  generalize measure : ahead symbols u W g id node = m
  -- by induction on what is ahead, since the questions that are asked have less ahead of them
  induction m using (wellFounded_lower (u.length + 4)).induction generalizing W g id node with
  | h m ih =>
    refine nullable_answered_of_below force ?_ there ready tracked trace
    intro W' g' id' node' there' ready' tracked' along less
    rcases Nat.lt_or_ge (W' id').trace.length u.length with lt | ge
    · exact lower _ lt W' g' id' ready' tracked' rfl
    · have same := along.eq_of_length_le ge
      exact ih _ (measure ▸ less same) W' g' id' ready' tracked' same (congrArg List.length same)
        node' there' rfl

theorem forceAnswered (lower : ∀ m < n, DeriveAnswered links symbols m) :
    ForceAnswered links symbols n := by
  intro W g id ready tracked level
  obtain ⟨node, there⟩ := Grammar.exists_get? ready.range
  cases node with
  | thunk t base =>
    cases target : t.state.target? with
    | some next => exact ⟨next, W, g, .force_resolved there target⟩
    | none =>
      have state : t.state = .pending := by
        have idle := ready.not_running there
        generalize t.state = state at target idle ⊢
        cases state with
        | pending => rfl
        | running => exact absurd rfl idle
        | forced | culled => cases target
      have fits := (World.fits_waiting target).mp (ready.sound.node id _ there)
      have lt : W.level base < W.level id := fits.2.length_le
      obtain ⟨next, W', g', hd⟩ := lower _ (level ▸ lt) W (g.running id) base t.symbol
        (ready.base_of_thunk there state) tracked.setState (tracked id t base there) rfl
      exact ⟨next, W', _, .force_pending there state hd⟩
  | _ => exact ⟨id, W, g, .force_other there rfl⟩

/-- A combinator is derived if its parts are. -/
theorem derive_answered_of_parts {s : Symbol L} (there : g.arena.get? id = some node)
    (comb : node.isCombinator) (ready : Ready links W g (.derive id s))
    (tracked : Tracked symbols g) (uses : s ∈ symbols)
    (null : ∀ (W' : World) (g' : Grammar L) (x : Nat), Ready links W' g' (.nullable x) →
      Tracked symbols g' → x < id → W'.level x ≤ W.level id →
      ∃ b W'' g'', Evaluates W' g' (.nullable x) (.truth b) W'' g'')
    (part : ∀ (W' : World) (g' : Grammar L) (x : Nat), g'.Solid x →
      Ready links W' g' (.derive x s) → Tracked symbols g' → x < id → W'.level x ≤ W.level id →
      ∃ next W'' g'', Evaluates W' g' (.derive x s) (.node next) W'' g'') :
    ∃ next W' g', Evaluates W g (.derive id s) (.node next) W' g' := by
  cases found : g.memo.find? id s with
  | some next => exact ⟨next, W, g, .known there comb found⟩
  | none =>
    have ready := ready.compute
    have lt : id < g.certain.size := ready.range
    have there : g.certain.arena.get? id = some node := there
    suffices h : ∃ next W' g', Evaluates W g.certain (.compute id s) (.node next) W' g' by
      obtain ⟨next, W', g', hc⟩ := h
      exact ⟨next, W', _, .fresh there comb found hc⟩
    have tracked : Tracked symbols g.certain := tracked
    cases node with
    | token kind =>
      by_cases hit : kind.isTerminal ∧ kind = s.kind
      · exact ⟨_, _, _, .hit there hit⟩
      · exact ⟨_, _, _, .miss there hit⟩
    | alt left right =>
      have formed := ready.formed.node id _ there
      have readyl := ready.left_of_alt there
      obtain ⟨l, W₁, g₁, hl⟩ := part W _ left formed.1.2 readyl tracked formed.1.1
        (ready.sound.node id _ there).1.level_le
      have ready₁ := ready.after hl
      have there₁ := hl.extension.get?_fixed there rfl
      have ler := (ready₁.sound.node id _ there₁).2.level_le
      rw [hl.extension.level lt] at ler
      obtain ⟨r, W₂, g₂, hr⟩ := part W₁ g₁ right (formed.2.2.extended hl.extension)
        (ready₁.right_of_alt there₁) (hl.tracked uses tracked) formed.2.1 ler
      exact ⟨_, _, _, .alt there hl hr⟩
    | cat left right =>
      have formed := ready.formed.node id _ there
      have lel : W.level left ≤ W.level id := (ready.sound.node id _ there).left.length_le
      obtain ⟨b, W₁, g₁, hb⟩ := null W _ left (ready.left_of_cat there).1 tracked formed.1.1 lel
      have ready₁ := ready.after hb
      have there₁ := hb.extension.get?_fixed there rfl
      have tracked₁ := hb.tracked trivial tracked
      rw [← hb.extension.level formed.1.2.lt_size] at lel
      obtain ⟨l, W₂, g₂, hl⟩ := part W₁ g₁ left (formed.1.2.extended hb.extension)
        (ready₁.left_of_cat there₁).2 tracked₁ formed.1.1 lel
      cases b with
      | false => exact ⟨_, _, _, .cat there hb hl⟩
      | true =>
        generalize same : W₂.put g₂.size
          (((W₂ id).after s.kind).withWords ((W₂ l).words.concat (W₂ right).words)) = W₃
        have ready₃ := ready.right_of_consumed there hb hl same.symm
        have ext := hb.extension.trans hl.extension
        have new : Extends W₂ g₂ W₃ (g₂.withNode (.cat l right)) := .put same.symm rfl
        have solid := (formed.2.2.extended ext).extended new
        have there₂ := ext.get?_fixed there rfl
        have flat : W₃.level right = 0 := by
          rw [new.level (formed.2.2.extended ext).lt_size]
          show (W₂ right).trace.length = 0
          rw [((ready₁.after hl).sound.node id _ there₂).right]
          rfl
        obtain ⟨skipped, W₄, g₄, hr⟩ := part W₃ _ right solid ready₃
          ((hl.tracked uses tracked₁).withFixed rfl) formed.2.1 (by omega)
        exact ⟨_, _, _, .cat_nullable there hb hl same.symm hr⟩
    | rep body =>
      have formed := ready.formed.node id _ there
      obtain ⟨d, W₁, g₁, hd⟩ := part W _ body formed.2 (ready.body_of_rep there) tracked formed.1
        (ready.sound.node id _ there).body.level_le
      exact ⟨_, _, _, .rep there hd⟩
    | _ => cases comb

/-- The derivative of a node that is no thunk is taken, at any level up to `n`. -/
theorem derive_answered_of_solid {s : Symbol L} (null : ∀ m ≤ n, NullableAnswered links symbols m)
    (uses : s ∈ symbols) (id : Nat) : ∀ (W : World) (g : Grammar L), g.Solid id →
      Ready links W g (.derive id s) → Tracked symbols g → W.level id ≤ n →
        ∃ next W' g', Evaluates W g (.derive id s) (.node next) W' g' := by
  induction id using Nat.strong_induction_on with
  | _ id ih =>
    intro W g ⟨node, there, solid⟩ ready tracked le
    have parts (comb : node.isCombinator) := derive_answered_of_parts there comb ready tracked uses
      (fun W' g' x ready' tracked' _ le' =>
        null _ (Nat.le_trans le' le) W' g' x ready' tracked' rfl)
      (fun W' g' x solid' ready' tracked' lt le' =>
        ih x lt W' g' solid' ready' tracked' (Nat.le_trans le' le))
    cases node with
    | empty | matched => exact ⟨_, _, _, .spent there rfl⟩
    | undefined => exact ⟨_, _, _, .undefined there⟩
    | rule r body =>
      cases known : r.remembered? s.kind with
      | some next => exact ⟨_, _, _, .rule_known there known⟩
      | none => exact ⟨_, _, _, .rule_new there known⟩
    | thunk => cases solid
    | token | alt | cat | rep => exact parts rfl

theorem deriveAnswered (null : ∀ m ≤ n, NullableAnswered links symbols m)
    (force : ForceAnswered links symbols n) : DeriveAnswered links symbols n := by
  intro W g id s ready tracked uses level
  have range : id < g.size := ready.range
  obtain ⟨node, there⟩ := Grammar.exists_get? range
  have le := Nat.le_of_eq level
  cases node with
  | thunk t base =>
    obtain ⟨target, W₁, g₁, hf⟩ := force W g id ready.force_of_derive tracked level
    have target_id : (W₁ target).Refines (W₁ id) := (hf.sound ready.formed ready.sound).2
    have lower := target_id.level_le
    rw [hf.extension.level range] at lower
    obtain ⟨next, W₂, g₂, hd⟩ := derive_answered_of_solid null uses target W₁ g₁
      (hf.formed ready.formed).2 (ready.derive_target hf) (hf.tracked trivial tracked) (by omega)
    exact ⟨next, W₂, g₂, .thunk there hf hd⟩
  | _ => exact derive_answered_of_solid null uses id W g ⟨_, there, rfl⟩ ready tracked le

/-- At every level, all questions are answered. -/
theorem all_answered (links : Links) (symbols : List (Symbol L)) (n : Nat) :
    NullableAnswered links symbols n ∧ ForceAnswered links symbols n ∧
      DeriveAnswered links symbols n := by
  induction n using Nat.strong_induction_on with
  | _ n ih =>
    have force := forceAnswered fun m lt => (ih m lt).2.2
    have null := nullableAnswered (fun m lt => (ih m lt).1) force
    refine ⟨null, force, deriveAnswered (fun m le => ?_) force⟩
    rcases Nat.eq_or_lt_of_le le with rfl | lt
    · exact null
    · exact (ih m lt).1

def Node.symbol? : Node L → Option (Symbol L)
  | .thunk t _ => some t.symbol
  | _ => none

omit [DecidableEq L] in
/-- Some symbols are those of all thunks, and others besides. -/
theorem exists_tracked (g : Grammar L) (uses : List (Symbol L)) :
    ∃ symbols, (∀ s ∈ uses, s ∈ symbols) ∧ Tracked symbols g := by
  refine ⟨uses ++ (List.range g.size).filterMap fun id => (g.arena.get? id).bind Node.symbol?,
    fun s => List.mem_append_left _, ?_⟩
  intro id t base there
  refine List.mem_append_right
    _ (List.mem_filterMap.mpr ⟨id, List.mem_range.mpr (lt_size_of_get? there), ?_⟩)
  rw [there]
  rfl

namespace Ready

theorem derive_answered {s : Symbol L} (ready : Ready links W g (.derive id s)) :
    ∃ next W' g', Evaluates W g (.derive id s) (.node next) W' g' := by
  obtain ⟨symbols, uses, tracked⟩ := exists_tracked g [s]
  exact (all_answered links symbols _).2.2 W g id s ready tracked (uses s (.head _)) rfl

theorem nullable_answered (ready : Ready links W g (.nullable id)) :
    ∃ b W' g', Evaluates W g (.nullable id) (.truth b) W' g' := by
  obtain ⟨symbols, -, tracked⟩ := exists_tracked g []
  exact (all_answered links symbols _).1 W g id ready tracked rfl

theorem force_answered (ready : Ready links W g (.force id)) :
    ∃ target W' g', Evaluates W g (.force id) (.node target) W' g' := by
  obtain ⟨symbols, -, tracked⟩ := exists_tracked g []
  exact (all_answered links symbols _).2.1 W g id ready tracked rfl

end Ready

end Answers

end DerivativeParsing
