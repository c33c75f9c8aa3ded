import DerivativeParsing.Proofs.Origins
import DerivativeParsing.Proofs.Steadiness

/-!
# Two layers

A grammar has two layers. The nodes that it was built from lead to one another, and have matched
nothing. Derivatives lie on top of them: one side of a sequence is a derivative, which has matched a
symbol, and the other one goes on where the grammar was built.

1. `Grammar.Layered` says so. `Evaluates.layered`: evaluation keeps it, and derivatives are on top.
2. `Shrinking.layered`, `Moved.layered`: so do culling and collecting.
3. `Founded.layered`: a grammar that was just built is all one layer. `enactAll_layered`: whatever
   is done to it keeps the layers.
-/

namespace DerivativeParsing

open Grammar (nothing lt_size_of_get?)

/-! ## Derivatives -/

/-- The node is not one of `O`, or it matches nothing. -/
def Beyond (O : NodeId → Prop) (x : NodeId) : Prop := x = nothing ∨ ¬O x

/-- A node that has matched one symbol, if it is alive: a symbol, or what is made of such a node,
and in the right part of a sequence of one of `O`. -/
def Node.OnTop {L : Type} (O : NodeId → Prop) : Node L → Prop
  | .matched _ => True
  | .alt left right => Beyond O left ∧ Beyond O right
  | .cat left right => Beyond O left ∧ O right
  | .rule _ body => Beyond O body
  | .thunk t _ => ∀ target, t.state.target? = some target → Beyond O target
  | .empty | .token _ | .rep _ | .undefined _ => False

/-- The nodes `O` are as a grammar is built from them, and all others are on top of them. What is
remembered as a derivative is one. -/
structure Grammar.Layered {L : Type} [DecidableEq L] (O : NodeId → Prop) (g : Grammar L) :
    Prop where
  pristine : g.Pristine O
  top : ∀ (x : NodeId) node, ¬O x → g.arena.get? x = some node → node.OnTop O
  memo : ∀ (x : NodeId) s next, g.memo.find? x s = some next → Beyond O next
  rules : ∀ (x : NodeId) r body kind next, g.arena.get? x = some (.rule r body) →
    r.memo = some (kind, next) → Beyond O next

/-- Whether the answer is on top, if it is a derivative. -/
def Reply.OnTop {L : Type} (O : NodeId → Prop) : Question L → Reply → Prop
  | .derive _ _, .node next | .compute _ _, .node next => Beyond O next
  | .force id, .node target => target = id ∨ Beyond O target
  | _, _ => True

section Layered

variable {L : Type} [DecidableEq L] {links : Links} {W W' : World} {g g' : Grammar L}
  {O : NodeId → Prop} {id : NodeId} {x y : NodeId} {node : Node L} {q : Question L} {a : Reply}

/-! ## Changes -/

namespace Grammar.Layered

theorem of_eq (h : g.Layered O) (arena : g'.arena = g.arena)
    (memo : g'.memo = g.memo ∨ g'.memo = {}) : g'.Layered O where
  pristine := (Spares.of_eq arena O h.pristine).1
  top x node out there := h.top x node out (arena ▸ there)
  memo x s next found := by
    rcases memo with same | none
    · exact h.memo x s next (same ▸ found)
    · rw [none, Memo.find?_nil] at found
      cases found
  rules x r body kind next there := h.rules x r body kind next (arena ▸ there)

theorem beyond_size (h : g.Layered O) : Beyond O g.size :=
  .inr fun inside => Nat.lt_irrefl _ (h.pristine.lt_size inside)

theorem withNode (h : g.Layered O) (new : node.OnTop O)
    (memo : ∀ r body kind next, node = .rule r body → r.memo = some (kind, next) → Beyond O next) :
    (g.withNode node).Layered O where
  pristine := by
    have spares : g.Spares (g.withNode node) := spares_of_shrunk fun x node' there _ =>
      ⟨node', by rw [get?_withNode_of_lt (lt_size_of_get? there), there], .same node'⟩
    exact (spares O h.pristine).1
  top x node' out there := by
    rw [get?_withNode] at there
    split at there
    · cases there
      exact new
    · exact h.top x node' out there
  memo := h.memo
  rules x r body kind next there remembered := by
    rw [get?_withNode] at there
    split at there
    · exact memo r body kind next (Option.some.inj there) remembered
    · exact h.rules x r body kind next there remembered

theorem withCombinator (h : g.Layered O) (new : node.OnTop O)
    (other : ∀ r body, node ≠ .rule r body) : (g.withNode node).Layered O :=
  h.withNode new fun r body _ _ same => absurd same (other r body)

theorem revised {f : Node L → Node L} (h : g.Layered O)
    (shrunk : ∀ node, g.arena.get? id = some node → node.isBuilt → node.Shrunk g (f node))
    (top : ∀ node, ¬O id → g.arena.get? id = some node → (f node).OnTop O)
    (memo : ∀ node r body kind next, g.arena.get? id = some node → f node = .rule r body →
      r.memo = some (kind, next) → Beyond O next) : (g.revised id f).Layered O where
  pristine := by
    have spares : g.Spares (g.revised id f) := spares_of_shrunk fun x node there built => by
      rw [get?_revised, there]
      by_cases same : id = x
      · subst same
        exact ⟨f node, if_pos rfl, shrunk node there built⟩
      · exact ⟨node, if_neg same, .same node⟩
    exact (spares O h.pristine).1
  top x node' out there := by
    rw [get?_revised] at there
    split at there
    · rename_i same
      subst same
      obtain ⟨node₀, there₀, rfl⟩ := Option.map_eq_some_iff.mp there
      exact top node₀ out there₀
    · exact h.top x node' out there
  memo := h.memo
  rules x r body kind next there remembered := by
    rw [get?_revised] at there
    split at there
    · rename_i same
      subst same
      obtain ⟨node, there, same⟩ := Option.map_eq_some_iff.mp there
      exact memo node r body kind next there same remembered
    · exact h.rules x r body kind next there remembered

/-- What belongs to a rule does not matter, but for the derivative that it remembers. -/
theorem mapRule {f : Rule → Rule} (h : g.Layered O)
    (memo : ∀ r body kind next, g.arena.get? id = some (.rule r body) →
      (f r).memo = some (kind, next) → Beyond O next) : (g.revised id (.mapRule f)).Layered O := by
  refine h.revised (fun node there _ => ?_)
    (fun node out there => ?_) fun node r body kind next there same => ?_
  · cases node with
    | rule => exact .rule (.refl _)
    | _ => exact .same _
  · have top := h.top id node out there
    cases node <;> exact top
  · cases node with
    | rule r₀ body₀ =>
      cases same
      exact memo r₀ _ kind next there
    | _ => cases same

theorem setFixpoint {fixpoint : Fixpoint} (h : g.Layered O) :
    (g.revised id (.mapRule ({ · with fixpoint }))).Layered O :=
  h.mapRule fun r body kind next there => h.rules id r body kind next there

theorem setState {state : ThunkState} (h : g.Layered O)
    (new : ∀ target, state.target? = some target → Beyond O target) :
    (g.revised id (.setState state)).Layered O := by
  refine h.revised (fun node there built => ?_)
    (fun node out there => ?_) fun node r body kind next there same => ?_
  · cases node with
    | thunk => cases built
    | _ => exact .same _
  · have top := h.top id node out there
    cases node with
    | thunk => exact new
    | _ => exact top
  · cases node with
    | rule =>
      cases same
      exact h.rules id _ _ kind next there
    | _ => cases same

theorem withDerivedRule {r : Rule} {body : NodeId} {s : Symbol L} (h : g.Layered O) :
    (g.withDerivedRule id r body s).Layered O := by
  have thunk : (g.withNode (.thunk { symbol := s } body)).Layered O := by
    refine h.withNode (fun target found => ?_) nofun
    cases found
  have rule : ((g.withNode (.thunk { symbol := s } body)).withNode
      (.rule { name := r.name } g.size)).Layered O := by
    refine thunk.withNode h.beyond_size fun r' body' kind next same remembered => ?_
    cases same
    cases remembered
  refine rule.mapRule fun r' body' kind next there' remembered => ?_
  cases remembered
  rw [← size_withNode g (.thunk { symbol := s } body)]
  exact thunk.beyond_size

theorem finished {s : Symbol L} {next : NodeId} {outer : Bool} (h : g.Layered O)
    (new : Beyond O next) : (g.finished id s next outer).Layered O where
  pristine := by
    have spares : g.Spares (g.finished id s next outer) := .of_eq rfl
    exact (spares O h.pristine).1
  top := h.top
  memo x s' next' found := by
    rw [memo_finished] at found
    split at found
    · exact h.memo x s' next' found
    · rw [Memo.find?_record] at found
      split at found
      · cases found
        exact new
      · exact h.memo x s' next' found
  rules := h.rules

/-- A thunk is on top, and so is what it is resolved to. -/
theorem target {t : Thunk L} {base target : NodeId} (h : g.Layered O)
    (there : g.arena.get? id = some (.thunk t base)) (resolved : t.state.target? = some target) :
    Beyond O target := by
  have out : ¬O id := fun inside => by cases h.pristine.built inside there
  exact h.top id _ out there target resolved

theorem right (h : g.Layered O) {l r : NodeId} (there : g.arena.get? id = some (.cat l r)) :
    O r := by
  by_cases inside : O id
  · exact h.pristine.closed id _ inside there r (.tail _ (.head _))
  · exact (h.top id _ inside there).2

theorem rep (h : g.Layered O) {b : NodeId} (there : g.arena.get? id = some (.rep b)) : O id := by
  by_contra out
  exact h.top id _ out there

end Grammar.Layered

/-! ## Evaluation -/

/-- Evaluation keeps the layers, and derivatives are on top. -/
theorem Evaluates.layered (h : Evaluates W g q a W' g') (layered : g.Layered O) :
    g'.Layered O ∧ a.OnTop O q := by
  induction h with
  | spent => exact ⟨layered, .inl rfl⟩
  | undefined => exact ⟨layered.of_eq rfl (.inl rfl), .inl rfl⟩
  | @rule_known W g id body next s r there known =>
    obtain ⟨⟨kind, _⟩, memo, found⟩ := Option.bind_eq_some_iff.mp known
    obtain ⟨rfl, same⟩ : kind = s.kind ∧ _ = next := by simpa using found
    exact ⟨layered, layered.rules id r body _ next there (same ▸ memo)⟩
  | @rule_new W g id body s r there _ =>
    have thunk : (g.withNode (.thunk { symbol := s } body)).Layered O := by
      refine layered.withNode (fun target found => ?_) nofun
      cases found
    refine ⟨layered.withDerivedRule, ?_⟩
    show Beyond O (g.size + 1)
    rw [← Grammar.size_withNode g (.thunk { symbol := s } body)]
    exact thunk.beyond_size
  | thunk _ _ _ ihf ihd => exact ihd (ihf layered).1
  | known _ _ found => exact ⟨layered, layered.memo _ _ _ found⟩
  | fresh _ _ _ _ ih =>
    obtain ⟨layered₁, top⟩ := ih (layered.of_eq rfl (.inl rfl))
    exact ⟨layered₁.finished top, top⟩
  | hit => exact ⟨layered.withCombinator trivial nofun, layered.beyond_size⟩
  | miss => exact ⟨layered, .inl rfl⟩
  | alt _ _ _ ihl ihr =>
    obtain ⟨layered₁, left⟩ := ihl layered
    obtain ⟨layered₂, right⟩ := ihr layered₁
    exact ⟨layered₂.withCombinator ⟨left, right⟩ nofun, layered₂.beyond_size⟩
  | cat there _ _ ihb ihl =>
    obtain ⟨layered₂, left⟩ := ihl (ihb layered).1
    exact ⟨layered₂.withCombinator ⟨left, layered.right there⟩ nofun, layered₂.beyond_size⟩
  | cat_nullable there _ _ _ _ ihb ihl ihr =>
    obtain ⟨layered₂, left⟩ := ihl (ihb layered).1
    have consumed := layered₂.beyond_size
    obtain ⟨layered₄, skipped⟩ := ihr (layered₂.withCombinator ⟨left, layered.right there⟩ nofun)
    exact ⟨layered₄.withCombinator ⟨consumed, skipped⟩ nofun, layered₄.beyond_size⟩
  | rep there _ ih =>
    obtain ⟨layered₁, top⟩ := ih layered
    exact ⟨layered₁.withCombinator ⟨top, layered.rep there⟩ nofun, layered₁.beyond_size⟩
  | nullable_plain | nullable_done => exact ⟨layered, trivial⟩
  | nullable_left _ _ ih | nullable_first _ _ ih => exact ih layered
  | nullable_right _ _ _ ihl ihr | nullable_second _ _ _ ihl ihr => exact ihr (ihl layered).1
  | nullable_thunk _ _ _ ihf ihn => exact ihn (ihf layered).1
  | nullable_cycle => exact ⟨layered.of_eq rfl (.inl rfl), trivial⟩
  | nullable_rule _ _ _ ih => exact ⟨(ih layered.setFixpoint).1.setFixpoint, trivial⟩
  | force_other => exact ⟨layered, .inl rfl⟩
  | force_resolved there resolved => exact ⟨layered, .inr (layered.target there resolved)⟩
  | force_running => exact ⟨layered.of_eq rfl (.inl rfl), .inr (.inl rfl)⟩
  | @force_pending W W₁ g g₁ id base target t there _ _ ih =>
    obtain ⟨layered₁, top⟩ := ih (layered.setState nofun)
    have set : (g₁.revised id (.setState (.forced target))).Layered O :=
      layered₁.setState fun next found => by
      cases found
      exact top
    exact ⟨set.of_eq rfl (.inl rfl), .inr top⟩

/-! ## Culling and collecting -/

omit [DecidableEq L] in
theorem Grammar.Shrinks.beyond
    (top : ∀ (x : NodeId) node, ¬O x → g.arena.get? x = some node → node.OnTop O)
    (first : g.arena.get? nothing = some .empty) (h : g.Shrinks x y) (hx : Beyond O x) :
    Beyond O y := by
  -- the node that matches nothing leads nowhere
  have out {id : NodeId} {node : Node L} (hid : Beyond O id) (there : g.arena.get? id = some node)
      (some : node ≠ .empty) : node.OnTop O := by
    rcases hid with rfl | out
    · exact absurd (Option.some.inj (there.symm.trans first)) some
    · exact top id node out there
  induction h with
  | refl => exact hx
  | alt_left there _ _ ih => exact ih (out hx there nofun).1
  | alt_right there _ _ ih => exact ih (out hx there nofun).2
  | @resolved _ _ target _ t there resolved _ ih =>
    refine ih (out hx there nofun target ?_)
    obtain ⟨s, state⟩ := t
    cases state <;> simp_all [Thunk.resolved?, ThunkState.target?]

theorem Shrinking.layered {F : Std.TreeMap NodeId (Option NodeId)} (h : Shrinking g F g')
    (layered : g.Layered O) (memo : g'.memo = g.memo)
    (rules : ∀ (x : NodeId) r body kind next, g'.arena.get? x = some (.rule r body) →
      r.memo = some (kind, next) → Beyond O next) : g'.Layered O := by
  have spares : g.Spares g' := Grammar.spares_of_shrunk fun x node there _ => h.node x node there
  refine ⟨(spares O layered.pristine).1, fun x node out there => ?_, fun x s next found =>
    ?_, rules⟩
  · obtain ⟨node₀, there₀, shrunk⟩ := h.get?_back there
    have top := layered.top x node₀ out there₀
    have beyond {a b : NodeId} (left : g.Shrinks a b) (ha : Beyond O a) : Beyond O b :=
      left.beyond layered.top layered.pristine.empty ha
    cases shrunk with
    | same => exact top
    | alt hl hr => exact ⟨beyond hl top.1, beyond hr top.2⟩
    | cat hl hr =>
      exact ⟨beyond hl top.1, (hr.passes layered.pristine top.2).closed layered.pristine top.2⟩
    | rep => exact top.elim
    | rule hb => exact beyond hb top
    | @thunk t base target result resolved remains =>
      intro next found
      cases found
      cases result with
      | none => exact .inl rfl
      | some y =>
        have there : t.state.target? = some target := by
          obtain ⟨s, state⟩ := t
          cases state <;> simp_all [Thunk.resolved?, ThunkState.target?]
        exact beyond remains (top target there)
  · exact layered.memo x s next (memo ▸ found)

omit [DecidableEq L] in
theorem Grammar.Moved.beyond {place : NodeId → Option NodeId} (moved : Grammar.Moved place g g')
    (hx : Beyond O x) (hy : place x = some y) :
    Beyond (fun y => ∃ x, place x = some y ∧ O x) y := by
  rcases hx with rfl | out
  · exact .inl ((moved.eq_nothing hy).mpr rfl)
  · exact .inr fun ⟨z, hz, inside⟩ => out (moved.injective hz hy ▸ inside)

theorem Grammar.Moved.layered {place : NodeId → Option NodeId} (moved : Grammar.Moved place g g')
    (layered : g.Layered O) : g'.Layered fun y => ∃ x, place x = some y ∧ O x where
  pristine := moved.pristine layered.pristine
  top y node' out there' := by
    obtain ⟨x, node, hx, there, rfl, -⟩ := moved.get?_back there'
    have has := (moved.part hx there).2
    have top := layered.top x node (fun inside => out ⟨x, hx, inside⟩) there
    cases node with
    | matched => trivial
    | alt l r =>
      exact ⟨moved.beyond top.1 (has l (.head _)), moved.beyond top.2 (has r (.tail _ (.head _)))⟩
    | cat l r => exact ⟨moved.beyond top.1 (has l (.head _)), r, has r (.tail _ (.head _)), top.2⟩
    | rule r body => exact moved.beyond top (has body (.head _))
    | thunk t base =>
      intro target' found
      have found : (t.state.moved place).target? = some target' := found
      rw [ThunkState.target?_moved moved.nothing] at found
      obtain ⟨target, resolved, rfl⟩ := Option.map_eq_some_iff.mp found
      obtain ⟨z, hz⟩ := moved.target (fun z hz => ⟨_, has z hz⟩) resolved
      rw [Grammar.movedBy_of_some hz]
      exact moved.beyond (top target resolved) hz
    | empty | token | rep | undefined => exact top.elim
  memo x s next found := by
    rw [moved.memo, Memo.find?_nil] at found
    cases found
  rules y r' body' kind next' there' remembered := by
    obtain ⟨x, r, body, hx, there, -, memo⟩ := moved.rule_back there'
    obtain ⟨next, remembered, hn⟩ := memo kind next' remembered
    exact moved.beyond (layered.rules x r body kind next there remembered) hn

/-! ## Whatever is done -/

/-- Every deed keeps the layers, the lower one where it puts the nodes. -/
theorem Turns.layered {culling : Bool} {place : NodeId → Option NodeId}
    (h : Turns W g culling place g') (good : Good links W g) (layered : g.Layered O) :
    g'.Layered fun y => ∃ x, place x = some y ∧ O x := by
  cases h with
  | collects _ moved => exact moved.layered layered
  | evaluates evaluated =>
    simp only [Option.some.injEq, exists_eq_left]
    exact (evaluated.layered layered).1
  | stays arena memo =>
    simp only [Option.some.injEq, exists_eq_left]
    exact layered.of_eq arena memo
  | culls run =>
    simp only [Option.some.injEq, exists_eq_left]
    obtain ⟨shrinking, recasts⟩ := cull_changes good run
    refine shrinking.layered layered recasts.memo fun x r body kind next there remembered => ?_
    obtain ⟨body₀, there₀⟩ := recasts.rule_iff.mp ⟨body, there⟩
    exact layered.rules x r body₀ kind next there₀ remembered

theorem Founded.layered {origin : Meaning} (h : Founded links origin W g id) :
    g.Layered (g.size > ·) where
  pristine := h.rooted.pristine
  top _ _ out there := absurd (lt_size_of_get? there) out
  memo x s next found := by
    rw [h.memo, Memo.find?_nil] at found
    cases found
  rules x r body kind next there remembered := by
    obtain ⟨none, -⟩ := h.fresh x _ there
    cases none.symm.trans remembered

/-- Whatever is done to a grammar that was built, it has two layers. -/
theorem enactAll_layered {source : Source} {start : NodeId} {g₀ : Grammar L} {fuel : Nat}
    {deeds : List (Deed L)} {u : Unit} (built : source.grammar = .ok (start, g₀))
    (run : Grammar.enactAll fuel deeds g₀ = .ok (u, g)) :
    ∃ W O, Good source.links W g ∧ g.Layered O := by
  obtain ⟨W, founded⟩ := grammar_founded built
  refine enactAll_induct (P := fun g => ∃ W O, Good source.links W g ∧ g.Layered O) ?_
    ⟨W, _, founded.good, founded.layered⟩ run
  rintro d - u g g' ⟨W, O, good, layered⟩ run
  have turns := enact_turns W good.formed run
  obtain ⟨W', good'⟩ := turns.good good
  exact ⟨W', _, good', turns.layered good layered⟩

end Layered

end DerivativeParsing
