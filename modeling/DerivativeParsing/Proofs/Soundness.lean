import DerivativeParsing.Proofs.Formed

/-!
# Evaluation claims nothing too much

Every node of a graph that was built from a description is made of parts that claim no more than it
stands for, and every derivative that is known refines the derivative it stands for (`Sound`).
Evaluation keeps this, and what it answers is sound: a derivative has no word that the node does not
have after the symbol, and a node that is found to match the empty word stands for it
(`Evaluates.sound`).
-/

namespace DerivativeParsing

open Grammar (nothing lt_size_of_get?)

/-- The nodes and the known derivatives of a grammar claim no more than what they stand for. -/
structure Sound {L : Type} [DecidableEq L] (links : Links) (W : World) (g : Grammar L) : Prop where
  node : ∀ (id : Nat) node, g.arena.get? id = some node → W.Fits links id node
  memo : ∀ (id : Nat) s next, g.memo.find? id s = some next →
    (W next).Refines ((W id).after s.kind)

def Reply.Sound {L : Type} (W : World) : Question L → Reply → Prop
  | .derive id s, node next | .compute id s, node next => (W next).Refines ((W id).after s.kind)
  | .nullable id, truth b => b = true → (W id).words.Nullable
  | .force id, node target => (W target).Refines (W id)
  | _, _ => False

section

variable {L : Type} {links : Links} {W W' : World} {g : Grammar L} {id : Nat} {node : Node L}

theorem Rule.Honest.agree {r : Rule} {body : NodeId} (h : r.Honest W id)
    (formed : (Node.rule (L := L) r body).Formed g id) (lt : id < g.size)
    (same : ∀ x : Nat, x < g.size → W' x = W x) : r.Honest W' id where
  memo kind next hm := by
    rw [same id lt, same next (formed.2 kind next hm).lt_size]
    exact h.memo kind next hm
  nullable done := by
    rw [same id lt]
    exact h.nullable done

/-- What a node stands for depends on the meanings of nodes of the same graph only. -/
theorem World.Fits.agree (h : W.Fits links id node) (formed : node.Formed g id) (lt : id < g.size)
    (same : ∀ x : Nat, x < g.size → W' x = W x) : W'.Fits links id node := by
  cases node with
  | empty => exact (same id lt).trans h
  | undefined => trivial
  | token kind =>
    intro w hw
    rw [same id lt]
    exact h w hw
  | matched =>
    show (W' id).words.Nullable
    rw [same id lt]
    exact h
  | alt left right =>
    show (W' left).Refines (W' id) ∧ (W' right).Refines (W' id)
    rw [same id lt, same left formed.1.2.lt_size, same right formed.2.2.lt_size]
    exact h
  | cat left right =>
    show (W' left).Joins (W' right) (W' id)
    rw [same id lt, same left formed.1.2.lt_size, same right formed.2.2.lt_size]
    exact h
  | rep body =>
    show (W' body).Repeats (W' id)
    rw [same id lt, same body formed.2.lt_size]
    exact h
  | rule r body =>
    refine ⟨?_, h.2.agree formed lt same⟩
    rw [same id lt, same body formed.1]
    exact h.1
  | thunk t base =>
    obtain ⟨range, solid⟩ := formed
    cases target : t.state.target? with
    | some next =>
      rw [World.fits_resolved target] at h ⊢
      rw [same id lt, same next (solid next target).lt_size]
      exact h
    | none =>
      rw [World.fits_waiting target] at h ⊢
      rw [same id lt, same base range]
      exact h

end

namespace Sound

variable {L : Type} [DecidableEq L] {links : Links} {W W' : World} {g g' : Grammar L} {id : Nat}
  {node : Node L} {meaning : Meaning}

theorem void (h : Sound links W g) (formed : g.Formed) : W nothing = .void :=
  h.node _ _ formed.nothing

theorem nothing_refines (h : Sound links W g) (formed : g.Formed) (a : Meaning) :
    (W nothing).Refines a := by
  rw [h.void formed]
  exact a.void_refines

theorem of_eq (h : Sound links W g) (arena : g'.arena = g.arena) (memo : g'.memo = g.memo) :
    Sound links W g' :=
  ⟨fun id node there => h.node id node (arena ▸ there),
    fun id s next found => h.memo id s next (memo ▸ found)⟩

/-- What nodes that are not there stand for does not matter. -/
theorem agree (h : Sound links W g) (formed : g.Formed)
    (same : ∀ x : Nat, x < g.size → W' x = W x) : Sound links W' g where
  node id node there :=
    (h.node id node there).agree (formed.node id node there) (lt_size_of_get? there) same
  memo id s next found := by
    obtain ⟨lt, solid⟩ := formed.memo id s next found
    rw [same id lt, same next solid.lt_size]
    exact h.memo id s next found

theorem withNode (h : Sound links W g) (formed : g.Formed)
    (new : (W.put g.size meaning).Fits links g.size node) :
    Sound links (W.put g.size meaning) (g.withNode node) := by
  have h' : Sound links (W.put g.size meaning) g := h.agree formed fun x lt => World.put_of_lt lt
  refine ⟨fun i node' there => ?_, h'.memo⟩
  rw [Grammar.get?_withNode] at there
  by_cases last : i = g.size
  · rw [if_pos last] at there
    cases there
    subst last
    exact new
  · rw [if_neg last] at there
    exact h'.node i node' there

theorem revised {f : Node L → Node L} (h : Sound links W g)
    (new : ∀ node, g.arena.get? id = some node → W.Fits links id (f node)) :
    Sound links W (g.revised id f) := by
  refine ⟨fun i node there => ?_, h.memo⟩
  rw [Grammar.get?_revised] at there
  by_cases same : id = i
  · rw [if_pos same] at there
    obtain ⟨node', there', rfl⟩ := Option.map_eq_some_iff.mp there
    subst same
    exact new node' there'
  · rw [if_neg same] at there
    exact h.node i node there

theorem finished {s : Symbol L} {next : NodeId} {outer : Bool} (h : Sound links W g)
    (new : (W next).Refines ((W id).after s.kind)) :
    Sound links W (g.finished id s next outer) := by
  refine ⟨h.node, fun i s' known found => ?_⟩
  rw [Grammar.memo_finished] at found
  split at found
  · exact h.memo i s' known found
  · rw [Memo.find?_record] at found
    split at found
    · rename_i same
      obtain ⟨rfl, rfl⟩ := same
      cases found
      exact new
    · exact h.memo i s' known found

theorem begun (h : Sound links W g) : Sound links W (g.begun id) := by
  refine h.revised fun node there => ?_
  have fits := h.node id node there
  cases node with
  | rule r body => exact ⟨fits.1, fits.2.memo, nofun⟩
  | _ => exact fits

theorem done {b : Bool} (h : Sound links W g) (new : b = true → (W id).words.Nullable) :
    Sound links W (g.done id b) := by
  refine h.revised fun node there => ?_
  have fits := h.node id node there
  cases node with
  | rule r body => exact ⟨fits.1, fits.2.memo, fun done => new (Fixpoint.done.inj done)⟩
  | _ => exact fits

theorem running {t : Thunk L} {base : NodeId} (h : Sound links W g)
    (there : g.arena.get? id = some (.thunk t base)) (state : t.state = .pending) :
    Sound links W (g.running id) := by
  refine h.revised fun node there' => ?_
  cases Option.some.inj (there.symm.trans there')
  have fits := (World.fits_waiting (t := t) (by rw [state]; rfl)).mp (h.node id _ there)
  exact (World.fits_waiting rfl).mpr fits

theorem resolved {t : Thunk L} {base target : NodeId} (h : Sound links W g)
    (new : (W target).Refines (W id)) : Sound links W (g.resolved id t base target) := by
  refine of_eq (g := g.revised id (.setState (.forced target))) ?_ rfl rfl
  refine h.revised fun node there => ?_
  have fits := h.node id node there
  cases node with
  | thunk t base => exact new
  | _ => exact fits

/-- The derivative of a rule stands for what is left of the rule, its thunk for what is left of the
body. -/
theorem withDerivedRule {r : Rule} {body : NodeId} {s : Symbol L} (h : Sound links W g)
    (formed : g.Formed) (there : g.arena.get? id = some (.rule r body)) :
    Sound links ((W.put g.size ((W body).after s.kind)).put (g.size + 1) ((W id).after s.kind))
      (g.withDerivedRule id r body s) := by
  have lt := lt_size_of_get? there
  have range : g.size > body := (formed.node id _ there).1
  generalize hW' :
    (W.put g.size ((W body).after s.kind)).put (g.size + 1) ((W id).after s.kind) = W'
  have same : ∀ x : Nat, x < g.size → W' x = W x := fun x hx => by
    rw [← hW', World.put_of_lt (by omega), World.put_of_lt hx]
  have rule' : W' (g.size + 1) = (W id).after s.kind := by rw [← hW', World.put_self]
  have thunk' : W' g.size = (W body).after s.kind := by
    rw [← hW', World.put_of_lt (by omega), World.put_self]
  have h' := h.agree formed same
  obtain ⟨names, honest⟩ := h'.node id _ there
  refine ⟨fun i node there' => ?_, h'.memo⟩
  rw [Grammar.get?_withDerivedRule there] at there'
  split at there'
  · rename_i last
    subst last
    cases there'
    refine ⟨?_, nofun, nofun⟩
    rw [rule', thunk', ← same id lt, ← same body range]
    exact names.after
  · split at there'
    · rename_i last
      subst last
      cases there'
      show ((W' body).after s.kind).Refines (W' g.size)
      rw [thunk', same body range]
      exact .refl _
    · split at there'
      · rename_i it
        subst it
        cases there'
        refine ⟨names, fun kind next hm => ?_, honest.nullable⟩
        cases hm
        rw [rule', same _ lt]
        exact .refl _
      · exact h'.node i node there'

end Sound

/-! ## Evaluation is sound -/

section Evaluation

variable {L : Type} [DecidableEq L] {links : Links} {W W' : World} {g g' : Grammar L}
  {q : Question L} {a : Reply}

/-- A new node that refines a derivative is a sound answer. -/
theorem Sound.withDerivative {id : Nat} {kind : Kind} {node : Node L} {meaning : Meaning}
    (h : Sound links W g) (formed : g.Formed) (lt : id < g.size)
    (refines : meaning.Refines ((W id).after kind))
    (new : (W.put g.size meaning).Fits links g.size node) :
    Sound links (W.put g.size meaning) (g.withNode node) ∧
      (W.put g.size meaning g.size).Refines ((W.put g.size meaning id).after kind) := by
  refine ⟨h.withNode formed new, ?_⟩
  rw [World.put_self, World.put_of_lt lt]
  exact refines

/-- The derivative of a left part, followed by the right part. -/
theorem Sound.consumed {id : Nat} {left right l : NodeId} {kind : Kind} (h : Sound links W g)
    (formed : g.Formed) (there : g.arena.get? id = some (.cat left right)) (solid : g.Solid l)
    (hl : (W l).Refines ((W left).after kind)) {meaning : Meaning}
    (hm : meaning = ((W id).after kind).withWords ((W l).words.concat (W right).words)) :
    (g.withNode (.cat l right)).Formed ∧
      Sound links (W.put g.size meaning) (g.withNode (.cat l right)) ∧
      (W.put g.size meaning g.size).Refines ((W.put g.size meaning id).after kind) := by
  subst hm
  have solidr := (formed.node id _ there).2.2
  have joins : (W left).Joins (W right) (W id) := h.node id _ there
  refine ⟨formed.withNode ⟨⟨solid.lt_size, solid⟩, solidr.lt_size, solidr⟩,
    h.withDerivative formed (lt_size_of_get? there) (joins.concat_refines hl) ?_⟩
  show (World.put _ _ _ l).Joins (World.put _ _ _ right) (World.put _ _ _ g.size)
  rw [World.put_self, World.put_of_lt solid.lt_size, World.put_of_lt solidr.lt_size]
  exact joins.after hl

theorem Sound.either {id : Nat} {l r : NodeId} {kind : Kind} (h : Sound links W g)
    (formed : g.Formed) (lt : id < g.size) (solidl : g.Solid l) (solidr : g.Solid r)
    (hl : (W l).Refines ((W id).after kind)) (hr : (W r).Refines ((W id).after kind))
    {meaning : Meaning}
    (hm : meaning = ((W id).after kind).withWords ((W l).words.union (W r).words)) :
    Sound links (W.put g.size meaning) (g.withNode (.alt l r)) ∧
      (W.put g.size meaning g.size).Refines ((W.put g.size meaning id).after kind) := by
  subst hm
  refine h.withDerivative formed lt (Meaning.union_refines hl hr) ?_
  show (World.put _ _ _ l).Refines (World.put _ _ _ g.size) ∧
    (World.put _ _ _ r).Refines (World.put _ _ _ g.size)
  rw [World.put_self, World.put_of_lt solidl.lt_size, World.put_of_lt solidr.lt_size]
  exact ⟨hl.left_union, hr.right_union⟩

theorem Evaluates.sound (h : Evaluates W g q a W' g') (formed : g.Formed)
    (sound : Sound links W g) : Sound links W' g' ∧ a.Sound W' q := by
  induction h with
  | spent => exact ⟨sound, sound.nothing_refines formed _⟩
  | undefined => exact ⟨sound.of_eq rfl rfl, sound.nothing_refines formed _⟩
  | @rule_known W g id body next s r there known =>
    obtain ⟨⟨kind, _⟩, memo, found⟩ := Option.bind_eq_some_iff.mp known
    obtain ⟨rfl, rfl⟩ : kind = s.kind ∧ _ = next := by simpa using found
    exact ⟨sound, (sound.node id _ there).2.memo _ _ memo⟩
  | @rule_new W g id body s r there _ =>
    refine ⟨sound.withDerivedRule formed there, ?_⟩
    have lt := lt_size_of_get? there
    show (World.put _ _ _ (g.size + 1)).Refines (((World.put _ _ _ id)).after s.kind)
    rw [World.put_self, World.put_of_lt (by omega), World.put_of_lt lt]
    exact .refl _
  | @thunk W W₁ W₂ g g₁ g₂ id base target next s t there hf hd ihf ihd =>
    obtain ⟨formed₁, solid⟩ := hf.formed formed
    obtain ⟨sound₁, target_id⟩ := ihf formed sound
    obtain ⟨sound₂, next_target⟩ := ihd formed₁ sound₁
    have lt := Nat.lt_of_lt_of_le (lt_size_of_get? there) hf.extension.size
    refine ⟨sound₂, next_target.trans (Meaning.Refines.after ?_ s.kind)⟩
    rw [hd.extension.world target solid.lt_size, hd.extension.world id lt]
    exact target_id
  | known _ _ found => exact ⟨sound, sound.memo _ _ _ found⟩
  | fresh _ _ _ _ ih =>
    obtain ⟨sound₁, next⟩ := ih (formed.of_eq rfl rfl) (sound.of_eq rfl rfl)
    exact ⟨sound₁.finished next, next⟩
  | @hit W g id s kind there hit =>
    have words := sound.node id _ there _ (.inr ⟨hit.1, by rw [hit.2]⟩)
    refine sound.withDerivative formed (lt_size_of_get? there) (Meaning.nil_refines words) ?_
    show (World.put _ _ _ g.size).words.Nullable
    rw [World.put_self]
    exact ⟨0, rfl⟩
  | miss => exact ⟨sound, sound.nothing_refines formed _⟩
  | @alt W W₁ W₂ g g₁ g₂ id left right l r s there hl hr ihl ihr =>
    obtain ⟨formed₁, solidl⟩ := hl.formed formed
    obtain ⟨formed₂, solidr⟩ := hr.formed formed₁
    obtain ⟨sound₁, hl'⟩ := ihl formed sound
    obtain ⟨sound₂, hr'⟩ := ihr formed₁ sound₁
    have ext := hl.extension.trans hr.extension
    have ltl := (formed.node id _ there).1.2.lt_size
    obtain ⟨left_id, right_id⟩ := sound₂.node id _ (ext.get?_fixed there rfl)
    have hl' : (W₂ l).Refines ((W₂ left).after s.kind) := by
      rw [hr.extension.world l solidl.lt_size,
        hr.extension.world left (Nat.lt_of_lt_of_le ltl hl.extension.size)]
      exact hl'
    have hl' := hl'.trans (left_id.after _)
    have hr' := Meaning.Refines.trans hr' (right_id.after _)
    have lt := Nat.lt_of_lt_of_le (lt_size_of_get? there) ext.size
    exact sound₂.either formed₂ lt (solidl.extended hr.extension) solidr hl' hr' rfl
  | @cat W W₁ W₂ g g₁ g₂ id left right l s there hb hl ihb ihl =>
    obtain ⟨formed₁, -⟩ := hb.formed formed
    obtain ⟨formed₂, solidl⟩ := hl.formed formed₁
    obtain ⟨sound₁, -⟩ := ihb formed sound
    obtain ⟨sound₂, hl'⟩ := ihl formed₁ sound₁
    have there₂ := (hb.extension.trans hl.extension).get?_fixed there rfl
    exact (sound₂.consumed formed₂ there₂ solidl hl' rfl).2
  | @cat_nullable W W₁ W₂ W₃ W₄ g g₁ g₂ g₄ id left right l skipped s there hb hl same hr ihb
      ihl ihr =>
    obtain ⟨formed₁, -⟩ := hb.formed formed
    obtain ⟨formed₂, solidl⟩ := hl.formed formed₁
    obtain ⟨sound₁, null⟩ := ihb formed sound
    obtain ⟨sound₂, hl'⟩ := ihl formed₁ sound₁
    have ext := hb.extension.trans hl.extension
    have lt := Nat.lt_of_lt_of_le (lt_size_of_get? there) ext.size
    have part := (formed.node id _ there).1
    have solidr := (formed.node id _ there).2.2.extended ext
    have joins : (W₂ left).Joins (W₂ right) (W₂ id) := sound₂.node id _ (ext.get?_fixed there rfl)
    have null : (W₂ left).words.Nullable := by
      rw [hl.extension.world left (part.2.extended hb.extension).lt_size]
      exact null rfl
    subst same
    obtain ⟨formed₃, sound₃, consumed⟩ :=
      sound₂.consumed formed₂ (ext.get?_fixed there rfl) solidl hl' rfl
    obtain ⟨formed₄, solids⟩ := hr.formed formed₃
    obtain ⟨sound₄, skipped'⟩ := ihr formed₃ sound₃
    -- from here on everything is seen in the last world
    have size₃ : (g₂.withNode (.cat l right)).size = g₂.size + 1 := Grammar.size_withNode _ _
    have same (x : Nat) (hx : x < g₂.size) : W₄ x = W₂ x := by
      rw [hr.extension.world x (by omega), World.put_of_lt hx]
    have size₄ := hr.extension.size
    have consumed : (W₄ g₂.size).Refines ((W₄ id).after s.kind) := by
      rw [hr.extension.world g₂.size (by omega), hr.extension.world id (by omega)]
      exact consumed
    have skipped' : (W₄ skipped).Refines ((W₄ id).after s.kind) := by
      refine Meaning.Joins.skipped_refines (l := W₄ left) (r := W₄ right) ?_ ?_ skipped'
      · rw [same left (part.2.extended ext).lt_size, same right solidr.lt_size, same id lt]
        exact joins
      · rw [same left (part.2.extended ext).lt_size]
        exact null
    have solidc : g₄.Solid g₂.size := (Grammar.solid_withNode rfl).extended hr.extension
    exact sound₄.either formed₄ (by omega) solidc solids consumed skipped' rfl
  | @rep W W₁ g g₁ id body d s there hd ih =>
    obtain ⟨formed₁, solidd⟩ := hd.formed formed
    obtain ⟨sound₁, hd'⟩ := ih formed sound
    have lt := Nat.lt_of_lt_of_le (lt_size_of_get? there) hd.extension.size
    have repeats : (W₁ body).Repeats (W₁ id) := sound₁.node id _ (hd.extension.get?_fixed there rfl)
    refine sound₁.withDerivative formed₁ lt (repeats.concat_refines hd') ?_
    show (World.put _ _ _ d).Joins (World.put _ _ _ id) (World.put _ _ _ g₁.size)
    rw [World.put_self, World.put_of_lt solidd.lt_size, World.put_of_lt lt]
    exact repeats.after hd'
  | @nullable_plain W g id node b there plain =>
    refine ⟨sound, fun yes => ?_⟩
    subst yes
    have fits := sound.node id node there
    cases node with
    | token kind => exact fits [] (.inl ⟨by simpa [Node.nullable?] using plain, rfl⟩)
    | matched => exact fits
    | rep => exact fits.nil
    | _ => cases plain
  | @nullable_left W W₁ g g₁ id left right there hl ih =>
    obtain ⟨sound₁, null⟩ := ih formed sound
    exact ⟨sound₁, fun yes =>
      (sound₁.node id _ (hl.extension.get?_fixed there rfl)).1.nullable (null yes)⟩
  | @nullable_right W W₁ W₂ g g₁ g₂ id left right b there hl hr ihl ihr =>
    obtain ⟨sound₁, -⟩ := ihl formed sound
    obtain ⟨sound₂, null⟩ := ihr (hl.formed formed).1 sound₁
    have there₂ := (hl.extension.trans hr.extension).get?_fixed there rfl
    exact ⟨sound₂, fun yes => (sound₂.node id _ there₂).2.nullable (null yes)⟩
  | nullable_first _ _ ih => exact ⟨(ih formed sound).1, nofun⟩
  | @nullable_second W W₁ W₂ g g₁ g₂ id left right b there hl hr ihl ihr =>
    obtain ⟨sound₁, nulll⟩ := ihl formed sound
    obtain ⟨sound₂, nullr⟩ := ihr (hl.formed formed).1 sound₁
    have there₂ := (hl.extension.trans hr.extension).get?_fixed there rfl
    refine ⟨sound₂, fun yes => (sound₂.node id _ there₂).words [] [] ?_ (nullr yes)⟩
    rw [hr.extension.world left ((formed.node id _ there).1.2.extended hl.extension).lt_size]
    exact nulll rfl
  | @nullable_thunk W W₁ W₂ g g₁ g₂ id base target t b there hf hn ihf ihn =>
    obtain ⟨formed₁, solid⟩ := hf.formed formed
    obtain ⟨sound₁, target_id⟩ := ihf formed sound
    obtain ⟨sound₂, null⟩ := ihn formed₁ sound₁
    have lt := Nat.lt_of_lt_of_le (lt_size_of_get? there) hf.extension.size
    refine ⟨sound₂, fun yes => Meaning.Refines.nullable ?_ (null yes)⟩
    rw [hn.extension.world target solid.lt_size, hn.extension.world id lt]
    exact target_id
  | nullable_done there state =>
    exact ⟨sound, fun yes => (sound.node _ _ there).2.nullable (yes ▸ state)⟩
  | nullable_cycle => exact ⟨sound.of_eq rfl rfl, nofun⟩
  | @nullable_rule W W₁ g g₁ id body r b there state hb ih =>
    obtain ⟨sound₁, null⟩ := ih formed.setFixpoint sound.begun
    obtain ⟨r₁, there₁, -⟩ := hb.extension.get?_rule (Grammar.get?_begun there)
    have null : b = true → (W₁ id).words.Nullable := fun yes =>
      (sound₁.node id _ there₁).1.words [] (null yes)
    exact ⟨sound₁.done null, null⟩
  | force_other => exact ⟨sound, .refl _⟩
  | force_resolved there target =>
    exact ⟨sound, (World.fits_resolved target).mp (sound.node _ _ there)⟩
  | force_running => exact ⟨sound.of_eq rfl rfl, sound.nothing_refines formed _⟩
  | @force_pending W W₁ g g₁ id base target t there state hd ih =>
    obtain ⟨sound₁, target_base⟩ := ih formed.running (sound.running there state)
    have lt := lt_size_of_get? there
    have range : g.size > base := (formed.node id _ there).1
    have fits := (World.fits_waiting (t := t) (by rw [state]; rfl)).mp (sound.node id _ there)
    have size : (g.running id).size = g.size := Grammar.size_running _ _
    have target_id : (W₁ target).Refines (W₁ id) := by
      refine Meaning.Refines.trans target_base ?_
      rw [hd.extension.world base (size ▸ range), hd.extension.world id (size ▸ lt)]
      exact fits
    exact ⟨sound₁.resolved target_id, target_id⟩

end Evaluation

end DerivativeParsing
