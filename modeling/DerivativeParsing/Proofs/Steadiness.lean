import DerivativeParsing.Proofs.Deeds

/-!
# An answer about nullability is final

Only rules keep the answer. For other nodes it is worked out again each time, over edges that
culling may have led elsewhere. Where culling leads an edge past a choice, one side of the choice is
dead; so the answer stays the same if what was found to match the empty word is never dead. For
rules that takes an invariant, as the answer of a rule may be stored while its body still changes.

1. `Evident`: the empty word can be seen from a node, through bodies of rules too. `Grammar.Honest`:
   it can be seen from every rule that is stored as matching it.
2. `Evaluates.honest`: evaluation stores such rules only. `Shrinking.honest` and
   `Grammar.Moved.honest`: no culling and no collection takes it out of sight.
3. `Settled.retained`, `Settled.shrunk` and `Settled.moved`: so a settled answer stays settled.
4. `nullable_final`: whatever is done to a grammar after a node was asked about, the node answers
   the same.
-/

namespace DerivativeParsing

open Grammar (nothing lt_size_of_get?)

/-! ## Seeing the empty word -/

/-- The empty word can be seen from a node. -/
inductive Evident {L : Type} (g : Grammar L) : NodeId → Prop
  | plain {id : NodeId} {node : Node L} : g.arena.get? id = some node → node.nullable? = some true →
    Evident g id
  | alt_left {id left right : NodeId} : g.arena.get? id = some (.alt left right) → Evident g left →
    Evident g id
  | alt_right {id left right : NodeId} :
    g.arena.get? id = some (.alt left right) → Evident g right → Evident g id
  | cat {id left right : NodeId} : g.arena.get? id = some (.cat left right) → Evident g left →
    Evident g right → Evident g id
  | thunk {id base target : NodeId} {t : Thunk L} : g.arena.get? id = some (.thunk t base) →
    t.state.target? = some target → Evident g target → Evident g id
  | rule {id body : NodeId} {r : Rule} : g.arena.get? id = some (.rule r body) → Evident g body →
    Evident g id

/-- From the body of every rule that is stored as matching the empty word, it can be seen. -/
def Grammar.Honest {L : Type} (g : Grammar L) : Prop :=
  ∀ (x : NodeId) r body, g.arena.get? x = some (.rule r body) → r.fixpoint = .done true →
    Evident g body

section Evident

variable {L : Type} [DecidableEq L] {W W' : World} {g g' : Grammar L} {x : NodeId}

/-- Where the empty word can be seen, it is matched, whatever is guessed of the thunks that have not
been evaluated. -/
theorem Evident.matchesIf (h : Evident g x) (formed : g.Formed) (guess : NodeId → Word → Prop) :
    g.MatchesIf guess x [] := by
  induction h with
  | @plain id node there plain =>
    refine (Grammar.matchesIf_iff there).mpr ?_
    cases node with
    | token kind =>
      obtain rfl : kind = Kind.epsilon := beq_iff_eq.mp (Option.some.inj plain)
      exact .inl ⟨rfl, rfl⟩
    | matched => exact rfl
    | rep => exact .inl rfl
    | _ => cases plain
  | alt_left there _ ih => exact (Grammar.matchesIf_iff there).mpr (.inl ih)
  | alt_right there _ ih => exact (Grammar.matchesIf_iff there).mpr (.inr ih)
  | cat there _ _ ihl ihr => exact (Grammar.matchesIf_iff there).mpr ⟨[], [], rfl, ihl, ihr⟩
  | thunk there known _ ih => exact ih.of_target formed there known
  | rule there _ ih => exact (Grammar.matchesIf_iff there).mpr ih

theorem Evident.matches (h : Evident g x) (formed : g.Formed) : g.Matches x [] :=
  Grammar.matchesIf_self.mp (h.matchesIf formed g.Matches)

theorem Evident.productive (h : Evident g x) (formed : g.Formed) : g.Productive x :=
  (h.matches formed).productive formed

omit [DecidableEq L] in
theorem Evident.of_eq (h : Evident g x) (arena : g'.arena = g.arena) : Evident g' x := by
  induction h with
  | plain there plain => exact .plain (arena ▸ there) plain
  | alt_left there _ ih => exact .alt_left (arena ▸ there) ih
  | alt_right there _ ih => exact .alt_right (arena ▸ there) ih
  | cat there _ _ ihl ihr => exact .cat (arena ▸ there) ihl ihr
  | thunk there known _ ih => exact .thunk (arena ▸ there) known ih
  | rule there _ ih => exact .rule (arena ▸ there) ih

theorem Evident.retained (h : Evident g x) (keep : Retains W g W' g') : Evident g' x := by
  induction h with
  | plain there plain => exact .plain (keep.fixed _ _ there (Node.isFixed_of_nullable? plain)) plain
  | alt_left there _ ih => exact .alt_left (keep.fixed _ _ there rfl) ih
  | alt_right there _ ih => exact .alt_right (keep.fixed _ _ there rfl) ih
  | cat there _ _ ihl ihr => exact .cat (keep.fixed _ _ there rfl) ihl ihr
  | thunk there known _ ih =>
    obtain ⟨t', there', -, keeps⟩ := keep.thunk _ _ _ there
    exact .thunk there' (keeps _ known) ih
  | rule there _ ih =>
    obtain ⟨r', there', -⟩ := keep.rule _ _ _ there
    exact .rule there' ih

omit [DecidableEq L] in
/-- A settled answer that a node matches the empty word can be seen to be right. -/
theorem Settled.evident {b : Bool} (h : Settled g x b) (honest : g.Honest) (yes : b = true) :
    Evident g x := by
  induction h with
  | plain there plain => exact .plain there (yes ▸ plain)
  | alt_left there _ ih => exact .alt_left there (ih rfl)
  | alt_right there _ _ _ ihr => exact .alt_right there (ihr yes)
  | cat_left => cases yes
  | cat_right there _ _ ihl ihr => exact .cat there (ihl rfl) (ihr yes)
  | thunk there known _ ih => exact .thunk there known (ih yes)
  | rule there state => exact .rule there (honest _ _ _ there (yes ▸ state))

end Evident

/-! ## Evaluation -/

section Evaluation

variable {L : Type} [DecidableEq L] {W W' : World} {g g' : Grammar L} {q : Question L} {a : Reply}
  {id body : NodeId} {r : Rule} {node : Node L}

namespace Grammar.Honest

omit [DecidableEq L] in
theorem of_eq (honest : g.Honest) (arena : g'.arena = g.arena) : g'.Honest :=
  fun x r body there state => (honest x r body (arena ▸ there) state).of_eq arena

/-- What was known still is, and from the rules that were not known to match the empty word it can
be seen. -/
theorem step (honest : g.Honest) (keep : DerivativeParsing.Retains W g W' g')
    (old : ∀ (x : NodeId) r' body, g'.arena.get? x = some (.rule r' body) →
      r'.fixpoint = .done true →
      (∃ r, g.arena.get? x = some (.rule r body) ∧ r.fixpoint = .done true) ∨ Evident g' body) :
    g'.Honest := by
  intro x r' body there' state'
  rcases old x r' body there' state' with ⟨r, there, state⟩ | evident
  · exact (honest x r body there state).retained keep
  · exact evident

theorem withFixed (honest : g.Honest) (fixed : node.isFixed) : (g.withNode node).Honest := by
  have new : Extends (fun _ => .void) g _ (g.withNode node) := .withFixed fixed .void
  refine honest.step new.retains fun x r body there state => ?_
  rw [get?_withNode] at there
  split at there
  · cases there
    cases fixed
  · exact .inl ⟨r, there, state⟩

theorem withDerivedRule {s : Symbol L} (honest : g.Honest)
    (there : g.arena.get? id = some (.rule r body)) : (g.withDerivedRule id r body s).Honest := by
  let W : World := fun _ => .void
  have new : Extends W g ((W.put g.size .void).put (g.size + 1) .void)
      (g.withDerivedRule id r body s) := .withDerivedRule
  refine honest.step new.retains fun x r' body' there' state => ?_
  rw [get?_withDerivedRule there] at there'
  split at there'
  · cases there'
    cases state
  split at there'
  · cases there'
  split at there'
  · rename_i same
    cases there'
    exact .inl ⟨r, same ▸ there, state⟩
  · exact .inl ⟨r', there', state⟩

/-- The states of thunks do not matter, as long as none is lost. -/
theorem setState {state : ThunkState} (honest : g.Honest)
    (keep : DerivativeParsing.Retains W g W (g.revised id (.setState state))) :
    (g.revised id (.setState state)).Honest := by
  refine honest.step keep fun x r body there state => ?_
  rw [get?_revised] at there
  split at there
  · obtain ⟨node, there', same⟩ := Option.map_eq_some_iff.mp there
    cases node with
    | rule r' body' =>
      cases same
      exact .inl ⟨r, there', state⟩
    | _ => cases same
  · exact .inl ⟨r, there, state⟩

theorem begun (honest : g.Honest) (there : g.arena.get? id = some (.rule r body))
    (unstarted : r.fixpoint = .unstarted) : (g.begun id).Honest := by
  refine honest.step
    (Retains.begun (W := fun _ => .void) there unstarted) fun x r' body' there' state => ?_
  rw [Grammar.begun, get?_revised] at there'
  split at there'
  · rename_i same
    subst same
    rw [there] at there'
    cases there'
    cases state
  · exact .inl ⟨r', there', state⟩

theorem done {b : Bool} (honest : g.Honest) (there : g.arena.get? id = some (.rule r body))
    (begun : r.fixpoint = .inProgress) (evident : b = true → Evident g body) :
    (g.done id b).Honest := by
  have keep := Retains.done (W := fun _ => .void) (b := b) there begun
  refine honest.step keep fun x r' body' there' state => ?_
  rw [Grammar.done, get?_revised] at there'
  split at there'
  · rename_i same
    subst same
    rw [there] at there'
    cases there'
    exact .inr ((evident (Fixpoint.done.inj state)).retained keep)
  · exact .inl ⟨r', there', state⟩

end Grammar.Honest

/-- Evaluation stores no rule as matching the empty word but one from which it can be seen; and when
a node is found to match it, it can be seen from the node. -/
theorem Evaluates.honest (h : Evaluates W g q a W' g') (formed : g.Formed) (honest : g.Honest) :
    g'.Honest ∧ ∀ id, q = .nullable id → a = .truth true → Evident g' id := by
  induction h with
  | spent | rule_known | known | miss | force_other | force_resolved => exact ⟨honest, nofun⟩
  | undefined | force_running => exact ⟨honest.of_eq rfl, nofun⟩
  | rule_new there => exact ⟨honest.withDerivedRule there, nofun⟩
  | thunk _ hf hd ihf ihd => exact ⟨(ihd (hf.formed formed).1 (ihf formed honest).1).1, nofun⟩
  | fresh _ _ _ _ ih =>
    exact ⟨(ih (formed.of_eq rfl rfl) (honest.of_eq rfl)).1.of_eq rfl, nofun⟩
  | hit => exact ⟨honest.withFixed rfl, nofun⟩
  | alt _ hl _ ihl ihr =>
    exact ⟨(ihr (hl.formed formed).1 (ihl formed honest).1).1.withFixed rfl, nofun⟩
  | cat _ hb _ ihb ihl =>
    exact ⟨(ihl (hb.formed formed).1 (ihb formed honest).1).1.withFixed rfl, nofun⟩
  | @cat_nullable W W₁ W₂ W₃ W₄ g g₁ g₂ g₄ id left right l skipped s there hb hl same hr ihb
      ihl ihr =>
    obtain ⟨formed₁, -⟩ := hb.formed formed
    obtain ⟨formed₂, solidl⟩ := hl.formed formed₁
    have solidr := (formed.node _ _ there).2.2.extended (hb.extension.trans hl.extension)
    have formed₃ : (g₂.withNode (.cat l right)).Formed :=
      formed₂.withNode ⟨⟨solidl.lt_size, solidl⟩, solidr.lt_size, solidr⟩
    have honest₂ := (ihl formed₁ (ihb formed honest).1).1
    exact ⟨(ihr formed₃ (honest₂.withFixed rfl)).1.withFixed rfl, nofun⟩
  | rep _ _ ih => exact ⟨(ih formed honest).1.withFixed rfl, nofun⟩
  | nullable_plain there plain =>
    refine ⟨honest, ?_⟩
    rintro _ ⟨⟩ ⟨⟩
    exact .plain there plain
  | nullable_left there hl ih =>
    obtain ⟨honest₁, seen⟩ := ih formed honest
    refine ⟨honest₁, ?_⟩
    rintro _ ⟨⟩ ⟨⟩
    exact .alt_left (hl.extension.get?_fixed there rfl) (seen _ rfl rfl)
  | nullable_right there hl hr ihl ihr =>
    obtain ⟨honest₂, seen⟩ := ihr (hl.formed formed).1 (ihl formed honest).1
    refine ⟨honest₂, ?_⟩
    rintro _ ⟨⟩ ⟨⟩
    exact .alt_right ((hl.extension.trans hr.extension).get?_fixed there rfl) (seen _ rfl rfl)
  | nullable_first _ _ ih => exact ⟨(ih formed honest).1, nofun⟩
  | nullable_second there hl hr ihl ihr =>
    obtain ⟨honest₁, seenl⟩ := ihl formed honest
    obtain ⟨honest₂, seenr⟩ := ihr (hl.formed formed).1 honest₁
    refine ⟨honest₂, ?_⟩
    rintro _ ⟨⟩ ⟨⟩
    exact .cat ((hl.extension.trans hr.extension).get?_fixed there rfl)
      ((seenl _ rfl rfl).retained hr.extension.retains) (seenr _ rfl rfl)
  | @nullable_thunk W W₁ W₂ g g₁ g₂ id base target t b there hf hn ihf ihn =>
    have formed₁ := (hf.formed formed).1
    obtain ⟨honest₂, seen⟩ := ihn formed₁ (ihf formed honest).1
    refine ⟨honest₂, ?_⟩
    rintro _ ⟨⟩ ⟨⟩
    rcases hf.stands there with rfl | ⟨t₁, there₁, known⟩
    · cases ((Settled.plain formed₁.nothing rfl).unchanged hn).1
    · obtain ⟨t₂, there₂, -, keep⟩ := hn.extension.retains.thunk _ _ _ there₁
      exact .thunk there₂ (keep _ known) (seen _ rfl rfl)
  | nullable_done there state =>
    refine ⟨honest, ?_⟩
    rintro _ ⟨⟩ ⟨⟩
    exact .rule there (honest _ _ _ there state)
  | nullable_cycle => exact ⟨honest.of_eq rfl, nofun⟩
  | @nullable_rule W W₁ g g₁ id body r b there state hb ih =>
    obtain ⟨honest₁, seen⟩ := ih formed.setFixpoint (honest.begun there state)
    obtain ⟨r₁, there₁, -, -, kept⟩ := hb.extension.get?_rule (Grammar.get?_begun there)
    have begun : r₁.fixpoint = .inProgress := by
      generalize r₁.fixpoint = fixpoint at kept
      cases kept
      rfl
    have keep := Retains.done (W := W₁) (b := b) there₁ begun
    have evident (yes : b = true) : Evident g₁ body := seen body rfl (congrArg Reply.truth yes)
    refine ⟨honest₁.done there₁ begun evident, ?_⟩
    rintro _ ⟨⟩ yes
    exact .rule (Grammar.get?_done there₁) ((evident (Reply.truth.inj yes)).retained keep)
  | @force_pending W W₁ g g₁ id base target t there state hd ih =>
    have honest₁ := (ih formed.running (honest.setState (Retains.running (W := W) there state))).1
    obtain ⟨t₁, there₁, -, kept⟩ := hd.extension.get?_thunk (Grammar.get?_running there)
    have running : t₁.state = .running := by
      generalize t₁.state = state at kept
      cases kept
      rfl
    refine ⟨Grammar.Honest.of_eq (g := g₁.revised id (.setState (.forced target))) ?_ rfl, nofun⟩
    have keep : Retains W₁ g₁ W₁ (g₁.resolved id t base target) := .resolved there₁ running
    exact honest₁.setState (W := W₁)
      ⟨keep.size, keep.fixed, keep.rule, keep.asked, keep.thunk, keep.memo, keep.world⟩

end Evaluation

/-! ## Culling -/

namespace Shrinking

variable {L : Type} {g g' : Grammar L} {F : Std.TreeMap NodeId (Option NodeId)}
  {x left right body : NodeId} {r : Rule}

theorem get?_alt (h : Shrinking g F g') (there : g.arena.get? x = some (.alt left right)) :
    ∃ left' right', g'.arena.get? x = some (.alt left' right') ∧ g.Shrinks left left' ∧
      g.Shrinks right right' := by
  obtain ⟨node', there', shrunk⟩ := h.node x _ there
  cases shrunk with
  | same => exact ⟨left, right, there', .refl left, .refl right⟩
  | alt hl hr => exact ⟨_, _, there', hl, hr⟩

theorem get?_cat (h : Shrinking g F g') (there : g.arena.get? x = some (.cat left right)) :
    ∃ left' right', g'.arena.get? x = some (.cat left' right') ∧ g.Shrinks left left' ∧
      g.Shrinks right right' := by
  obtain ⟨node', there', shrunk⟩ := h.node x _ there
  cases shrunk with
  | same => exact ⟨left, right, there', .refl left, .refl right⟩
  | cat hl hr => exact ⟨_, _, there', hl, hr⟩

/-- What belongs to a rule besides its body stays as it is. -/
theorem get?_rule (h : Shrinking g F g') (change : Recasts g g')
    (there : g.arena.get? x = some (.rule r body)) :
    ∃ body', g'.arena.get? x = some (.rule r body') ∧ g.Shrinks body body' := by
  obtain ⟨node', there', shrunk⟩ := h.node x _ there
  obtain ⟨node₁, there₁, recast⟩ := change.node x _ there
  cases Option.some.inj (there'.symm.trans there₁)
  cases recast with
  | same =>
    cases shrunk with
    | same => exact ⟨body, there', .refl body⟩
    | rule hb => exact ⟨body, there', hb⟩
  | rule =>
    cases shrunk with
    | same => exact ⟨body, there', .refl body⟩
    | rule hb => exact ⟨_, there', hb⟩

/-- A resolved thunk stays resolved, to what is left of its resolution unless that is dead. -/
theorem get?_thunk (h : Shrinking g F g') {t : Thunk L} {base target : NodeId}
    (there : g.arena.get? x = some (.thunk t base)) (known : t.state.target? = some target) :
    ∃ t' target', g'.arena.get? x = some (.thunk t' base) ∧ t'.state.target? = some target' ∧
      (g.Shrinks target target' ∨ ¬g.Productive target ∧ target' = nothing) := by
  obtain ⟨node', there', shrunk⟩ := h.node x _ there
  cases shrunk with
  | same => exact ⟨t, target, there', known, .inl (.refl target)⟩
  | @thunk _ _ _ result resolved remains =>
    cases known.symm.trans (Thunk.target?_of_resolved? resolved)
    cases result with
    | none => exact ⟨_, nothing, there', rfl, .inr ⟨remains, rfl⟩⟩
    | some next => exact ⟨_, next, there', rfl, .inl remains⟩

end Shrinking

section Culling

variable {L : Type} [DecidableEq L] {g g' : Grammar L} {F : Std.TreeMap NodeId (Option NodeId)}
  {x y : NodeId} {b : Bool}

/-- Where the empty word can be seen, it can be seen from all that is left. -/
theorem Evident.shrunk (h : Evident g x) (formed : g.Formed) (culled : Shrinking g F g')
    (change : Recasts g g') (left : g.Shrinks x y) : Evident g' y := by
  induction h generalizing y with
  | plain there plain =>
    cases left with
    | refl =>
      obtain ⟨node', there', shrunk⟩ := culled.node _ _ there
      cases shrunk with
      | same => exact .plain there' plain
      | rep => exact .plain there' rfl
      | alt | cat | rule | thunk => cases plain
    | alt_left there' | alt_right there' | resolved there' =>
      cases Option.some.inj (there.symm.trans there')
      cases plain
  | alt_left there hl ih =>
    cases left with
    | refl =>
      obtain ⟨_, _, there', shrinks, -⟩ := culled.get?_alt there
      exact .alt_left there' (ih shrinks)
    | alt_left there' _ left =>
      cases Option.some.inj (there.symm.trans there')
      exact ih left
    | alt_right there' dead =>
      cases Option.some.inj (there.symm.trans there')
      exact absurd (hl.productive formed) dead
    | resolved there' => cases Option.some.inj (there.symm.trans there')
  | alt_right there hr ih =>
    cases left with
    | refl =>
      obtain ⟨_, _, there', -, shrinks⟩ := culled.get?_alt there
      exact .alt_right there' (ih shrinks)
    | alt_left there' dead =>
      cases Option.some.inj (there.symm.trans there')
      exact absurd (hr.productive formed) dead
    | alt_right there' _ left =>
      cases Option.some.inj (there.symm.trans there')
      exact ih left
    | resolved there' => cases Option.some.inj (there.symm.trans there')
  | cat there _ _ ihl ihr =>
    cases left with
    | refl =>
      obtain ⟨_, _, there', hl, hr⟩ := culled.get?_cat there
      exact .cat there' (ihl hl) (ihr hr)
    | alt_left there' | alt_right there' | resolved there' =>
      cases Option.some.inj (there.symm.trans there')
  | thunk there known ht ih =>
    cases left with
    | refl =>
      obtain ⟨t', target', there', known', shrinks | ⟨dead, -⟩⟩ := culled.get?_thunk there known
      · exact .thunk there' known' (ih shrinks)
      · exact absurd (ht.productive formed) dead
    | resolved there' resolved left =>
      cases Option.some.inj (there.symm.trans there')
      cases known.symm.trans (Thunk.target?_of_resolved? resolved)
      exact ih left
    | alt_left there' | alt_right there' => cases Option.some.inj (there.symm.trans there')
  | rule there _ ih =>
    cases left with
    | refl =>
      obtain ⟨_, there', shrinks⟩ := culled.get?_rule change there
      exact .rule there' (ih shrinks)
    | alt_left there' | alt_right there' | resolved there' =>
      cases Option.some.inj (there.symm.trans there')

theorem Shrinking.honest (culled : Shrinking g F g') (change : Recasts g g') (formed : g.Formed)
    (honest : g.Honest) : g'.Honest := by
  intro x r body' there' state
  obtain ⟨body, there⟩ := change.rule_iff.mp ⟨body', there'⟩
  obtain ⟨_, there₁, shrinks⟩ := culled.get?_rule change there
  cases Option.some.inj (there'.symm.trans there₁)
  exact (honest x r body there state).shrunk formed culled change shrinks

/-- A settled answer is the answer of all that is left. Where an edge leads past a dead side of a
choice, the side was not found to match the empty word. -/
theorem Settled.shrunk (h : Settled g x b) (formed : g.Formed) (honest : g.Honest)
    (culled : Shrinking g F g') (change : Recasts g g')
    (first : g'.arena.get? nothing = some .empty) (left : g.Shrinks x y) : Settled g' y b := by
  -- what is dead was not found to match the empty word
  have dead {z : NodeId} {c : Bool} (settled : Settled g z c) (dead : ¬g.Productive z) :
      c = false := by
    cases c with
    | false => rfl
    | true => exact absurd ((settled.evident honest rfl).productive formed) dead
  induction h generalizing y with
  | plain there plain =>
    cases left with
    | refl =>
      obtain ⟨node', there', shrunk⟩ := culled.node _ _ there
      cases shrunk with
      | same => exact .plain there' plain
      | rep => exact .plain there' plain
      | alt | cat | rule | thunk => cases plain
    | alt_left there' | alt_right there' | resolved there' =>
      cases Option.some.inj (there.symm.trans there')
      cases plain
  | alt_left there hl ih =>
    cases left with
    | refl =>
      obtain ⟨_, _, there', shrinks, -⟩ := culled.get?_alt there
      exact .alt_left there' (ih shrinks)
    | alt_left there' _ left =>
      cases Option.some.inj (there.symm.trans there')
      exact ih left
    | alt_right there' none =>
      cases Option.some.inj (there.symm.trans there')
      cases dead hl none
    | resolved there' => cases Option.some.inj (there.symm.trans there')
  | alt_right there hl hr ihl ihr =>
    cases left with
    | refl =>
      obtain ⟨_, _, there', shrinksl, shrinksr⟩ := culled.get?_alt there
      exact .alt_right there' (ihl shrinksl) (ihr shrinksr)
    | alt_left there' none left =>
      cases Option.some.inj (there.symm.trans there')
      cases dead hr none
      exact ihl left
    | alt_right there' _ left =>
      cases Option.some.inj (there.symm.trans there')
      exact ihr left
    | resolved there' => cases Option.some.inj (there.symm.trans there')
  | cat_left there _ ih =>
    cases left with
    | refl =>
      obtain ⟨_, _, there', shrinks, -⟩ := culled.get?_cat there
      exact .cat_left there' (ih shrinks)
    | alt_left there' | alt_right there' | resolved there' =>
      cases Option.some.inj (there.symm.trans there')
  | cat_right there _ _ ihl ihr =>
    cases left with
    | refl =>
      obtain ⟨_, _, there', hl, hr⟩ := culled.get?_cat there
      exact .cat_right there' (ihl hl) (ihr hr)
    | alt_left there' | alt_right there' | resolved there' =>
      cases Option.some.inj (there.symm.trans there')
  | thunk there known ht ih =>
    cases left with
    | refl =>
      obtain ⟨t', target', there', known', shrinks | ⟨none, rfl⟩⟩ := culled.get?_thunk there known
      · exact .thunk there' known' (ih shrinks)
      · cases dead ht none
        exact .thunk there' known' (.plain first rfl)
    | resolved there' resolved left =>
      cases Option.some.inj (there.symm.trans there')
      cases known.symm.trans (Thunk.target?_of_resolved? resolved)
      exact ih left
    | alt_left there' | alt_right there' => cases Option.some.inj (there.symm.trans there')
  | rule there state =>
    cases left with
    | refl =>
      obtain ⟨_, there', -⟩ := culled.get?_rule change there
      exact .rule there' state
    | alt_left there' | alt_right there' | resolved there' =>
      cases Option.some.inj (there.symm.trans there')

end Culling

/-! ## Collection -/

section Collection

variable {L : Type} {g g' : Grammar L} {place : NodeId → Option NodeId} {x y : NodeId} {b : Bool}

theorem Evident.moved (h : Evident g x) (moved : Grammar.Moved place g g') (hx : place x = some y) :
    Evident g' y := by
  induction h generalizing y with
  | @plain id node there plain =>
    refine .plain (moved.part hx there).1 ?_
    cases node <;> exact plain
  | alt_left there _ ih =>
    obtain ⟨there', has⟩ := moved.part hx there
    exact .alt_left there' (ih (has _ (.head _)))
  | alt_right there _ ih =>
    obtain ⟨there', has⟩ := moved.part hx there
    exact .alt_right there' (ih (has _ (.tail _ (.head _))))
  | cat there _ _ ihl ihr =>
    obtain ⟨there', has⟩ := moved.part hx there
    exact .cat there' (ihl (has _ (.head _))) (ihr (has _ (.tail _ (.head _))))
  | thunk there known _ ih =>
    obtain ⟨there', has⟩ := moved.part hx there
    obtain ⟨target', ht⟩ := moved.target (fun z hz => ⟨_, has z hz⟩) known
    exact .thunk there' (moved.resolved known ht) (ih ht)
  | rule there _ ih =>
    obtain ⟨there', has⟩ := moved.part hx there
    exact .rule there' (ih (has _ (.head _)))

theorem Grammar.Moved.honest (moved : Grammar.Moved place g g') (honest : g.Honest) :
    g'.Honest := by
  intro y r' body' there' state
  obtain ⟨x, node, hx, there, same, has⟩ := moved.get?_back there'
  cases node with
  | rule r body =>
    cases same
    exact (honest x r body there state).moved moved ((moved.part hx there).2 _ (.head _))
  | _ => cases same

theorem Settled.moved (h : Settled g x b) (moved : Grammar.Moved place g g')
    (hx : place x = some y) : Settled g' y b := by
  induction h generalizing y with
  | @plain id node b there plain =>
    refine .plain (moved.part hx there).1 ?_
    cases node <;> exact plain
  | alt_left there _ ih =>
    obtain ⟨there', has⟩ := moved.part hx there
    exact .alt_left there' (ih (has _ (.head _)))
  | alt_right there _ _ ihl ihr =>
    obtain ⟨there', has⟩ := moved.part hx there
    exact .alt_right there' (ihl (has _ (.head _))) (ihr (has _ (.tail _ (.head _))))
  | cat_left there _ ih =>
    obtain ⟨there', has⟩ := moved.part hx there
    exact .cat_left there' (ih (has _ (.head _)))
  | cat_right there _ _ ihl ihr =>
    obtain ⟨there', has⟩ := moved.part hx there
    exact .cat_right there' (ihl (has _ (.head _))) (ihr (has _ (.tail _ (.head _))))
  | thunk there known _ ih =>
    obtain ⟨there', has⟩ := moved.part hx there
    obtain ⟨target', ht⟩ := moved.target (fun z hz => ⟨_, has z hz⟩) known
    exact .thunk there' (moved.resolved known ht) (ih ht)
  | rule there state =>
    exact .rule (moved.part hx there).1 state

end Collection

/-! ## Whatever is done -/

section Turns

variable {L : Type} [DecidableEq L] {links : Links} {W W' : World} {g g' : Grammar L}
  {place : NodeId → Option NodeId} {id x y : NodeId} {b culling : Bool} {result : Option NodeId}

/-- A culling shrinks the graph, and of what belongs to rules it changes nothing but bodies. -/
theorem cull_changes (good : Good links W g) (run : Grammar.cull id g = .ok (result, g')) :
    Shrinking g {} g' ∧ Recasts g g' := by
  have lt := Grammar.lt_size_of_cull run
  obtain ⟨order, _, F', _, run', -, change, -⟩ := cull_trims good lt
  cases run'.symm.trans run
  exact ⟨(cull_shrinks (good.formed.ranged false) lt run).1, change⟩

theorem Turns.honest (h : Turns W g culling place g') (good : Good links W g) (honest : g.Honest) :
    g'.Honest := by
  cases h with
  | evaluates evaluated => exact (evaluated.honest good.formed honest).1
  | stays arena => exact honest.of_eq arena
  | culls run =>
    obtain ⟨culled, change⟩ := cull_changes good run
    exact culled.honest change good.formed honest
  | collects _ moved => exact moved.honest honest

omit [DecidableEq L] in
theorem Settled.of_eq (h : Settled g x b) (arena : g'.arena = g.arena) : Settled g' x b := by
  induction h with
  | plain there plain => exact .plain (arena ▸ there) plain
  | alt_left there _ ih => exact .alt_left (arena ▸ there) ih
  | alt_right there _ _ ihl ihr => exact .alt_right (arena ▸ there) ihl ihr
  | cat_left there _ ih => exact .cat_left (arena ▸ there) ih
  | cat_right there _ _ ihl ihr => exact .cat_right (arena ▸ there) ihl ihr
  | thunk there known _ ih => exact .thunk (arena ▸ there) known ih
  | rule there state => exact .rule (arena ▸ there) state

theorem Turns.settled (h : Turns W g culling place g') (good : Good links W g) (honest : g.Honest)
    (settled : Settled g x b) (hx : place x = some y) : Settled g' y b := by
  have good' := h.good good
  cases h with
  | evaluates evaluated =>
    cases hx
    exact settled.retained evaluated.extension.retains
  | stays arena =>
    cases hx
    exact settled.of_eq arena
  | culls run =>
    cases hx
    obtain ⟨W', good'⟩ := good'
    obtain ⟨culled, change⟩ := cull_changes good run
    exact settled.shrunk good.formed honest culled change good'.formed.nothing (.refl x)
  | collects _ moved => exact settled.moved moved hx

/-- Between actions, a question about nullability settles itself. -/
theorem Good.settled (good : Good links W g) (h : Evaluates W g (.nullable id) (.truth b) W' g') :
    Settled g' id b := by
  refine h.settled (good.ready h.range) (Nat.le_refl _) fun x r body there state => ?_
  exact absurd state (good.quiet x _ there).1

theorem Settled.answers (settled : Settled g id b) (good : Good links W g) :
    Answers (fun fuel => Grammar.nullable fuel id) g (b, g) := by
  have lt : id < g.size := by
    cases settled with
    | plain there | alt_left there | alt_right there | cat_left there | cat_right there
    | thunk there | rule there =>
      exact lt_size_of_get? there
  obtain ⟨answer, g', N, run⟩ := exists_nullable good lt
  obtain ⟨W', evaluated⟩ := Grammar.evaluates_of_nullable W (run N (Nat.le_refl N))
  obtain ⟨rfl, rfl⟩ := settled.unchanged evaluated
  exact ⟨N, run⟩

end Turns

section Worked

variable {L : Type} [DecidableEq L] {source : Source} {fuel fuel' fuel'' : Nat}
  {ops later : List (Operation L)} {g g₁ g₂ : Grammar L} {id id' : NodeId} {answer : Bool}

theorem worked_honest (history : source.worked fuel ops = .ok g) :
    (∃ W, Good source.links W g) ∧ g.Honest := by
  let P (g : Grammar L) : Prop := (∃ W, Good source.links W g) ∧ g.Honest
  refine Source.worked_induct (P := P) (fun start g built => ?_)
    (fun op _ u g g' h run => operate_induct (P := P) (fun d u g g' h run => ?_) h run) history
  · obtain ⟨W, founded⟩ := grammar_founded built
    refine ⟨⟨W, founded.good⟩, fun x r body there state => ?_⟩
    have unstarted : r.fixpoint = .unstarted := (founded.fresh x _ there).2.1
    cases unstarted.symm.trans state
  · obtain ⟨⟨W, good⟩, honest⟩ := h
    have turns := enact_turns W good.formed run
    exact ⟨turns.good good, turns.honest good honest⟩

/-- After any operations, ask any node whether it matches the empty word. Whatever is done to the
grammar then, if the node is still there, it answers the same again, given enough fuel, and asking
changes nothing. -/
theorem nullable_final (history : source.worked fuel ops = .ok g)
    (asked : Grammar.nullable fuel' id g = .ok (answer, g₁))
    (run : Grammar.operateAll fuel'' later g₁ = .ok ((), g₂))
    (followed : Grammar.follow (Grammar.operate fuel'') Operation.place later g₁ id = some id') :
    Answers (fun fuel => Grammar.nullable fuel id') g₂ (answer, g₂) := by
  obtain ⟨⟨W, good⟩, honest⟩ := worked_honest history
  obtain ⟨W₁, evaluated⟩ := Grammar.evaluates_of_nullable W asked
  have start : (∃ W, Good source.links W g₁) ∧ g₁.Honest ∧ Settled g₁ id answer :=
    ⟨⟨W₁, (evaluated.carries good).good⟩, (evaluated.honest good.formed honest).1,
      good.settled evaluated⟩
  obtain ⟨⟨W₂, good₂⟩, -, settled⟩ : (∃ W, Good source.links W g₂) ∧ g₂.Honest ∧
      Settled g₂ id' answer := by
    refine operateAll_follow
      (Q := fun g x => (∃ W, Good source.links W g) ∧ g.Honest ∧ Settled g x answer)
      (fun d u g g' x y h run hx => ?_) start run followed
    obtain ⟨⟨W, good⟩, honest, settled⟩ := h
    have turns := enact_turns W good.formed run
    exact ⟨turns.good good, turns.honest good honest, turns.settled good honest settled hx⟩
  exact settled.answers good₂

/-- One more symbol, and then everything is dropped that a node does not depend on. -/
def errands : List (Operation String) := [.step 6 ⟨2, "a"⟩ true, .cull 6, .collect [6]]

theorem nullable_final_leftRecursive :
    ∃ g g₁ g₂ : Grammar String, leftRecursive.worked 30 chores = .ok g ∧
    Grammar.nullable 30 6 g = .ok (true, g₁) ∧ Grammar.operateAll 30 errands g₁ = .ok ((), g₂) ∧
    Grammar.follow (Grammar.operate 30) Operation.place errands g₁ 6 = some 2 ∧
    Answers (fun fuel => Grammar.nullable fuel 2) g₂ (true, g₂) := by
  obtain ⟨g, history, facts⟩ := exists_worked (L := String) (show
    ((leftRecursive.worked 30 chores).toOption.any fun g =>
      (Grammar.nullable 30 6 g).toOption.any fun (b, g₁) =>
      b && (Grammar.operateAll 30 errands g₁).isOk &&
        Grammar.follow (Grammar.operate 30) Operation.place errands g₁ 6 == some 2) =
        true by decide +kernel)
  obtain ⟨⟨b, g₁⟩, asked, facts⟩ := exists_of_any facts
  simp only [Bool.and_eq_true, beq_iff_eq] at facts
  obtain ⟨⟨rfl, runs⟩, followed⟩ := facts
  obtain ⟨⟨_, g₂⟩, run⟩ := exists_of_isOk runs
  exact ⟨g, g₁, g₂, history, asked, run, followed, nullable_final history asked run followed⟩

end Worked

end DerivativeParsing
