import DerivativeParsing.Proofs.Rewiring
import DerivativeParsing.Proofs.Trust

/-!
# Culling keeps what nodes stand for

Culling changes edges in place, while the nodes go on standing for what they stood for. So that an
edge may be led to what became of a node, that node must claim no more than the node did, and no
less up to the levels at which the graph is complete (`Became`).

1. `Trimmed` is what holds in the course of culling.
2. `cullNode_culls`: culling a node keeps `Trimmed`, and answers what became of the node.
3. `cull_ok`: so does culling the graph under a node, which is sure to answer.
-/

namespace DerivativeParsing

open Grammar (nothing lt_size_of_get?)

namespace Recasts

variable {L : Type} {g g' : Grammar L} {id : Nat}

theorem solid_iff (h : Recasts g g') : g'.Solid id ↔ g.Solid id := by
  constructor
  · rintro ⟨node', there', solid⟩
    obtain ⟨node, there, step⟩ := h.get?_back there'
    exact ⟨node, there, by cases step <;> exact solid⟩
  · rintro ⟨node, there, solid⟩
    obtain ⟨node', there', step⟩ := h.node id node there
    exact ⟨node', there', by cases step <;> exact solid⟩

end Recasts

/-! ## What holds in the course of culling -/

section Trimmed

/-- A node that is met in the course of culling: one of those that were counted, or the one that
matches nothing, which takes the place of a body that is dead. -/
def Among (order : List NodeId) (x : Nat) : Prop := x ∈ order ∨ x = nothing

/-- What became of a node claims no more than the node, and no less up to the levels `K`. -/
def Became {L : Type} (W : World) (g : Grammar L) (order : List NodeId) (K : Nat → Prop)
    (id : Nat) : Option NodeId → Prop
  | none => ∀ k, K k → W.level id ≤ k → ∀ n w, ¬(W id).words n w
  | some y => Among order y ∧ (W y).Refines (W id) ∧
      (∀ k, K k → W.level id ≤ k → (W id).words.Under (W y).words) ∧
        (g.Solid id → g.Solid y ∧ y ≤ id)

/-- What holds in the course of culling. -/
structure Trimmed {L : Type} [DecidableEq L] (links : Links) (W : World) (order : List NodeId)
    (K : Nat → Prop) (F : Std.TreeMap NodeId (Option NodeId)) (g : Grammar L) : Prop where
  formed : g.Formed
  sound : Sound links W g
  complete : ∀ k, K k → Complete W g k
  closed : g.Closed false (Among order)
  results : ∀ (id : Nat) r, F[id]? = some r → Became W g order K id r

variable {L : Type} [DecidableEq L] {links : Links} {W : World} {order : List NodeId}
  {K : Nat → Prop} {F : Std.TreeMap NodeId (Option NodeId)} {g g' : Grammar L} {id : Nat}
  {result : Option NodeId}

omit [DecidableEq L] in
theorem Became.congr (h : Became W g order K id result) (same : ∀ x : Nat, g'.Solid x ↔ g.Solid x) :
    Became W g' order K id result := by
  cases result with
  | none => exact h
  | some y =>
    refine ⟨h.1, h.2.1, h.2.2.1, fun solid => ?_⟩
    obtain ⟨solid', le⟩ := h.2.2.2 ((same id).mp solid)
    exact ⟨(same y).mpr solid', le⟩

omit [DecidableEq L] in
theorem Became.recasts (h : Became W g order K id result) (change : Recasts g g') :
    Became W g' order K id result :=
  h.congr fun _ => change.solid_iff

omit [DecidableEq L] in
theorem Became.self (among : Among order id) : Became W g order K id (some id) :=
  ⟨among, .refl _, fun _ _ _ => .refl _, fun solid => ⟨solid, Nat.le_refl _⟩⟩

omit [DecidableEq L] in
theorem Became.among (h : Became W g order K id result) : Among order (result.getD nothing) := by
  cases result with
  | none => exact .inr rfl
  | some => exact h.1

theorem Became.refines (h : Became W g order K id result) (sound : Sound links W g)
    (formed : g.Formed) : (W (result.getD nothing)).Refines (W id) := by
  cases result with
  | none => exact sound.nothing_refines formed _
  | some => exact h.2.1

omit [DecidableEq L] in
theorem Became.under {k : Nat} (h : Became W g order K id result) (hk : K k)
    (level : W.level id ≤ k) : (W id).words.Under (W (result.getD nothing)).words := by
  cases result with
  | none => exact fun n w hw => absurd hw (h k hk level n w)
  | some => exact h.2.2.1 k hk level

theorem Became.solid (h : Became W g order K id result) (formed : g.Formed) (solid : g.Solid id) :
    g.Solid (result.getD nothing) ∧ result.getD nothing ≤ id := by
  cases result with
  | none => exact ⟨formed.solid_nothing, Nat.zero_le _⟩
  | some => exact h.2.2.2 solid

omit [DecidableEq L] in
/-- What became of a node takes the place of another that stands for the same. -/
theorem Became.of_refines {x : Nat} (h : Became W g order K x result)
    (refines : (W x).Refines (W id))
    (under : ∀ k, K k → W.level id ≤ k → (W id).words.Under (W x).words)
    (solid : g.Solid id → g.Solid x ∧ x ≤ id) : Became W g order K id result := by
  cases result with
  | none =>
    intro k hk level n w hw
    obtain ⟨m, -, hw⟩ := under k hk level n w hw
    exact h k hk (Nat.le_trans refines.level_le level) m w hw
  | some y =>
    refine ⟨h.1, h.2.1.trans refines, fun k hk level => ?_, fun hid => ?_⟩
    · exact (under k hk level).trans (h.2.2.1 k hk (Nat.le_trans refines.level_le level))
    · obtain ⟨solid', le⟩ := h.2.2.2 (solid hid).1
      exact ⟨solid', Nat.le_trans le (solid hid).2⟩

namespace Trimmed

theorem of_eq (h : Trimmed links W order K F g) (arena : g'.arena = g.arena)
    (memo : g'.memo = g.memo) : Trimmed links W order K F g' where
  formed := h.formed.of_eq arena memo
  sound := h.sound.of_eq arena memo
  complete k hk := (h.complete k hk).of_eq arena memo
  closed := ⟨fun x hx => Nat.lt_of_lt_of_le (h.closed.range x hx)
      (Nat.le_of_eq (Recasts.of_eq arena memo).size.symm),
    fun x node hx there => h.closed.successors x node hx (arena ▸ there)⟩
  results id r hr := (h.results id r hr).recasts (.of_eq arena memo)

theorem insert (h : Trimmed links W order K F g) (became : Became W g order K id result) :
    Trimmed links W order K (F.insert id result) g where
  formed := h.formed
  sound := h.sound
  complete := h.complete
  closed := h.closed
  results := Culling.forall_insert became h.results

theorem finish (h : Trimmed links W order K F g) (became : Became W g order K id result) :
    ∃ g', Grammar.finishCull id result F g = .ok ((result, F.insert id result), g') ∧
      Trimmed links W order K (F.insert id result) g' ∧ Recasts g g' ∧
        Became W g' order K id result := by
  obtain ⟨g', run, arena, memo⟩ := Grammar.finishCull_ok (F := F) (g := g) id result
  exact ⟨g', run, (h.insert became).of_eq arena memo, .of_eq arena memo,
    became.recasts (.of_eq arena memo)⟩

/-- A node is revised, to one that claims neither more nor less. -/
theorem revised {f : Node L → Node L} (h : Trimmed links W order K F g)
    (keeps : ∀ node, g.arena.get? id = some node → (f node).isThunk = node.isThunk)
    (empty : g.arena.get? id = some .empty → f .empty = .empty)
    (formed : ∀ node, g.arena.get? id = some node → (f node).Formed g id)
    (sound : ∀ node, g.arena.get? id = some node → W.Fits links id (f node))
    (complete : ∀ node k, g.arena.get? id = some node → K k → W.Backs k id (f node))
    (closed : ∀ node, g.arena.get? id = some node → Among order id →
      ∀ y ∈ (f node).successors false, Among order y) :
    Trimmed links W order K F (g.revised id f) where
  formed := h.formed.revised keeps empty formed
  sound := h.sound.revised sound
  complete k hk := (h.complete k hk).revised fun node there => complete node k there hk
  closed := by
    refine ⟨fun x hx => ?_, fun x node hx there => ?_⟩
    · rw [Grammar.size_revised]
      exact h.closed.range x hx
    · rw [Grammar.get?_revised] at there
      split at there
      · rename_i same
        subst same
        obtain ⟨node', there', rfl⟩ := Option.map_eq_some_iff.mp there
        exact closed node' there' hx
      · exact h.closed.successors x node hx there
  results x r hr := (h.results x r hr).congr fun _ => Grammar.solid_revised keeps

theorem recast {f : Node L → Node L} (h : Trimmed links W order K F g)
    (formed : ∀ node, g.arena.get? id = some node → (f node).Formed g id)
    (sound : ∀ node, g.arena.get? id = some node → W.Fits links id (f node))
    (complete : ∀ node k, g.arena.get? id = some node → K k → W.Backs k id (f node))
    (closed : ∀ node, g.arena.get? id = some node → Among order id →
      ∀ y ∈ (f node).successors false, Among order y)
    (step : ∀ node, g.arena.get? id = some node → node.Recast (f node)) :
    Trimmed links W order K F (g.revised id f) := by
  refine h.revised (fun node there => ?_) (fun there => ?_) formed sound complete closed
  · have change := step node there
    generalize f node = node' at change
    cases change <;> rfl
  · have change := step .empty there
    generalize f .empty = node' at change
    cases change
    rfl

theorem setBusy {busy : Bool} (h : Trimmed links W order K F g) :
    Trimmed links W order K F (g.revised id (.mapRule ({ · with busy }))) := by
  refine h.revised (fun _ _ => by simp) (fun _ => rfl) (fun node there => ?_) (fun node there => ?_)
    (fun node k there hk => ?_) fun node there among => ?_
  · have formed := h.formed.node id node there
    cases node <;> exact formed
  · have fits := h.sound.node id node there
    cases node with
    | rule r body => exact ⟨fits.1, fits.2.memo, fits.2.nullable⟩
    | _ => exact fits
  · have backs := (h.complete k hk).node id node there
    cases node with
    | rule r body =>
      refine ⟨backs.supports, fun r' body' kind next it hm => ?_, fun r' body' it state => ?_⟩
      · cases it
        exact backs.memo r body kind next rfl hm
      · cases it
        exact backs.right r body rfl state
    | _ => exact backs
  · have closed := h.closed.successors id node among there
    cases node <;> exact closed

end Trimmed

end Trimmed

/-! ## Culling a node -/

section Trim

variable {L : Type} [DecidableEq L]

/-- What an action on a node answers is what became of it. -/
def Culled (links : Links) (W : World) (order : List NodeId) (K : Nat → Prop)
    (act : Culling L (Option NodeId)) (id : Nat) (F : Std.TreeMap NodeId (Option NodeId))
    (g : Grammar L) : Prop :=
  ∀ result F' g', act F g = .ok ((result, F'), g') → Trimmed links W order K F' g' ∧ Recasts g g' ∧
    Became W g' order K id result

/-- What culling with so much fuel answers is what became of the nodes. -/
def CullsTo (L : Type) [DecidableEq L] (links : Links) (W : World) (order : List NodeId)
    (K : Nat → Prop) (live : Std.TreeSet NodeId) (fuel : Nat) : Prop :=
  ∀ (id : Nat) F (g : Grammar L), Trimmed links W order K F g → Among order id →
    Culled links W order K (Grammar.cullNode live fuel id) id F g

variable {links : Links} {W : World} {order : List NodeId} {K : Nat → Prop}
  {live : Std.TreeSet NodeId} {fuel : Nat} {F F₂ : Std.TreeMap NodeId (Option NodeId)}
  {g g₂ g' : Grammar L} {id left right body base : Nat} {node : Node L}

theorem Trimmed.culled (h : Trimmed links W order K F g₂) {result : Option NodeId}
    (change : Recasts g g₂) (became : Became W g₂ order K id result) {r : Option NodeId}
    {F' : Std.TreeMap NodeId (Option NodeId)}
    (run : Grammar.finishCull id result F g₂ = .ok ((r, F'), g')) :
    Trimmed links W order K F' g' ∧ Recasts g g' ∧ Became W g' order K id r := by
  obtain ⟨g₃, run', h', change', became'⟩ := h.finish became
  cases run'.symm.trans run
  exact ⟨h', change.trans change', became'⟩

theorem Trimmed.culled_none (h : Trimmed links W order K F g₂) (change : Recasts g g₂)
    (dead : ∀ k, K k → W.level id ≤ k → ∀ n w, ¬(W id).words n w) {r : Option NodeId}
    {F' : Std.TreeMap NodeId (Option NodeId)}
    (run : Grammar.finishCull id none F g₂ = .ok ((r, F'), g')) :
    Trimmed links W order K F' g' ∧ Recasts g g' ∧ Became W g' order K id r := by
  refine h.culled change ?_ run
  exact dead

variable (ih : CullsTo L links W order K live fuel) (h : Trimmed links W order K F g)
  (among : Among order id)
include ih h among

/-- A part of a combinator is culled, after other parts were. -/
theorem part_culled {x : Nat} (there : g.arena.get? id = some node) (comb : node.isCombinator)
    (mem : x ∈ node.successors true) (h₂ : Trimmed links W order K F₂ g₂) :
    Culled links W order K (Grammar.cullNode live fuel x) x F₂ g₂ := by
  have among' : Among order x := by
    refine h.closed.successors id node among there x ?_
    cases node <;> first | exact mem | cases comb
  exact ih x F₂ g₂ h₂ among'

theorem trim_alt (there : g.arena.get? id = some (.alt left right)) :
    Culled links W order K (Grammar.trim (Grammar.cullNode live fuel) id (.alt left right))
      id F g := by
  intro result F' g' run
  obtain ⟨l, F₁, g₁, run₁, run⟩ := Culling.bind_ok.mp run
  obtain ⟨h₁, change₁, becamel⟩ := part_culled ih h among there rfl (.head _) h l F₁ g₁ run₁
  obtain ⟨r, F₂, g₂, run₂, run⟩ := Culling.bind_ok.mp run
  obtain ⟨h₂, change₂, becamer⟩ :=
    part_culled ih h among there rfl (.tail _ (.head _)) h₁ r F₂ g₂ run₂
  have change := change₁.trans change₂
  have becamel := becamel.recasts change₂
  obtain ⟨left_id, right_id⟩ : (W left).Refines (W id) ∧ (W right).Refines (W id) :=
    h.sound.node id _ there
  obtain ⟨partl, partr⟩ : g.Part id left ∧ g.Part id right := h.formed.node id _ there
  have solid {x : Nat} (part : g.Part id x) : g₂.Solid x := change.solid_iff.mpr part.2
  have supports {k : Nat} (hk : K k) (level : W.level id ≤ k) : ∀ n w, (W id).words n w →
      (W left).words.Upto n w ∨ (W right).words.Upto n w :=
    ((h.complete k hk).node id _ there).supports level
  cases l with
  | none =>
    -- the left side is dead
    refine h₂.culled change (becamer.of_refines right_id (fun k hk level n w hw => ?_) fun _ =>
      ⟨solid partr, Nat.le_of_lt partr.1⟩) run
    refine (supports hk level n w hw).resolve_left fun ⟨m, _, hl⟩ => ?_
    exact becamel k hk (Nat.le_trans left_id.level_le level) m w hl
  | some l =>
    cases r with
    | none =>
      -- the right side is dead
      refine h₂.culled change (becamel.of_refines left_id (fun k hk level n w hw => ?_) fun _ =>
        ⟨solid partl, Nat.le_of_lt partl.1⟩) run
      refine (supports hk level n w hw).resolve_right fun ⟨m, _, hr⟩ => ?_
      exact becamer k hk (Nat.le_trans right_id.level_le level) m w hr
    | some r =>
      obtain ⟨solidl, lel⟩ := becamel.2.2.2 (solid partl)
      obtain ⟨solidr, ler⟩ := becamer.2.2.2 (solid partr)
      have step : ∀ node, g₂.arena.get? id = some node → node.Recast (.alt l r) := by
        intro node there₂
        obtain ⟨node₂, there', step⟩ := change.node id _ there
        cases Option.some.inj (there₂.symm.trans there')
        cases step <;> exact .alt
      have h₃ : Trimmed links W order K F₂ (g₂.revised id fun _ => .alt l r) := by
        refine h₂.recast (fun _ _ => ?_) (fun _ _ => ?_) (fun _ k _ hk => ?_)
          (fun _ _ _ y hy => ?_) step
        · exact ⟨⟨Nat.lt_of_le_of_lt lel partl.1, solidl⟩, Nat.lt_of_le_of_lt ler partr.1, solidr⟩
        · exact ⟨becamel.2.1.trans left_id, becamer.2.1.trans right_id⟩
        · refine World.Supports.backs (fun level n w hw => ?_) (by simp)
          rcases supports hk level n w hw with hl | hr
          · exact .inl (hl.under (becamel.2.2.1 k hk (Nat.le_trans left_id.level_le level)))
          · exact .inr (hr.under (becamer.2.2.1 k hk (Nat.le_trans right_id.level_le level)))
        · rcases List.mem_cons.mp hy with rfl | hy
          · exact becamel.1
          · obtain rfl := List.mem_singleton.mp hy
            exact becamer.1
      exact h₃.culled (change.trans (.revised step)) (.self among)
        (Grammar.store_bind.symm.trans run)

theorem trim_cat (there : g.arena.get? id = some (.cat left right)) :
    Culled links W order K (Grammar.trim (Grammar.cullNode live fuel) id (.cat left right))
      id F g := by
  intro result F' g' run
  obtain ⟨l, F₁, g₁, run₁, run⟩ := Culling.bind_ok.mp run
  obtain ⟨h₁, change₁, becamel⟩ := part_culled ih h among there rfl (.head _) h l F₁ g₁ run₁
  have joins : (W left).Joins (W right) (W id) := h.sound.node id _ there
  obtain ⟨partl, partr⟩ : g.Part id left ∧ g.Part id right := h.formed.node id _ there
  have lel : W.level left ≤ W.level id := joins.left.length_le
  have ler : W.level right ≤ W.level id := by
    show (W right).trace.length ≤ _
    rw [joins.right]
    exact Nat.zero_le _
  have supports {k : Nat} (hk : K k) (level : W.level id ≤ k) : ∀ n w, (W id).words n w →
      ∃ u v, w = u ++ v ∧ (W left).words.Upto n u ∧ (W right).words.Upto n v :=
    ((h.complete k hk).node id _ there).supports level
  cases l with
  | none =>
    refine h₁.culled_none change₁ (fun k hk level n w hw => ?_) run
    obtain ⟨u, _, -, ⟨m, -, hu⟩, -⟩ := supports hk level n w hw
    exact becamel k hk (Nat.le_trans lel level) m u hu
  | some l =>
    obtain ⟨r, F₂, g₂, run₂, run⟩ := Culling.bind_ok.mp run
    obtain ⟨h₂, change₂, becamer⟩ :=
      part_culled ih h among there rfl (.tail _ (.head _)) h₁ r F₂ g₂ run₂
    have change := change₁.trans change₂
    have becamel := becamel.recasts change₂
    cases r with
    | none =>
      refine h₂.culled_none change (fun k hk level n w hw => ?_) run
      obtain ⟨_, v, -, -, m, -, hv⟩ := supports hk level n w hw
      exact becamer k hk (Nat.le_trans ler level) m v hv
    | some r =>
      obtain ⟨solidl, lel'⟩ := becamel.2.2.2 (change.solid_iff.mpr partl.2)
      obtain ⟨solidr, ler'⟩ := becamer.2.2.2 (change.solid_iff.mpr partr.2)
      have step : ∀ node, g₂.arena.get? id = some node → node.Recast (.cat l r) := by
        intro node there₂
        obtain ⟨node₂, there', step⟩ := change.node id _ there
        cases Option.some.inj (there₂.symm.trans there')
        cases step <;> exact .cat
      have h₃ : Trimmed links W order K F₂ (g₂.revised id fun _ => .cat l r) := by
        refine h₂.recast (fun _ _ => ?_) (fun _ _ => ?_) (fun _ k _ hk => ?_)
          (fun _ _ _ y hy => ?_) step
        · exact ⟨⟨Nat.lt_of_le_of_lt lel' partl.1, solidl⟩, Nat.lt_of_le_of_lt ler' partr.1, solidr⟩
        · exact joins.mono becamel.2.1 becamer.2.1
        · refine World.Supports.backs (fun level n w hw => ?_) (by simp)
          obtain ⟨u, v, same, hu, hv⟩ := supports hk level n w hw
          exact ⟨u, v, same, hu.under (becamel.2.2.1 k hk (Nat.le_trans lel level)),
            hv.under (becamer.2.2.1 k hk (Nat.le_trans ler level))⟩
        · rcases List.mem_cons.mp hy with rfl | hy
          · exact becamel.1
          · obtain rfl := List.mem_singleton.mp hy
            exact becamer.1
      exact h₃.culled (change.trans (.revised step)) (.self among)
        (Grammar.store_bind.symm.trans run)

theorem trim_rep (there : g.arena.get? id = some (.rep body)) :
    Culled links W order K (Grammar.trim (Grammar.cullNode live fuel) id (.rep body)) id F g := by
  intro result F' g' run
  rw [Grammar.trim] at run
  by_cases same : body = nothing
  · rw [if_neg (by simpa using same)] at run
    exact h.culled (.refl g) (.self among) run
  rw [if_pos (by simpa using same)] at run
  obtain ⟨b, F₁, g₁, run₁, run⟩ := Culling.bind_ok.mp run
  obtain ⟨h₁, change, became⟩ := part_culled ih h among there rfl (.head _) h b F₁ g₁ run₁
  have repeats : (W body).Repeats (W id) := h.sound.node id _ there
  have part : g.Part id body := h.formed.node id _ there
  obtain ⟨solid, le⟩ := became.solid h₁.formed (change.solid_iff.mpr part.2)
  have step : ∀ node, g₁.arena.get? id = some node → node.Recast (.rep (b.getD nothing)) := by
    intro node there₁
    obtain ⟨node₁, there', step⟩ := change.node id _ there
    cases Option.some.inj (there₁.symm.trans there')
    cases step <;> exact .rep
  have h₂ : Trimmed links W order K F₁ (g₁.revised id fun _ => .rep (b.getD nothing)) := by
    refine h₁.recast (fun _ _ => ?_) (fun _ _ => ?_) (fun _ k _ hk => ?_)
      (fun _ _ _ y hy => ?_) step
    · exact ⟨Nat.lt_of_le_of_lt le part.1, solid⟩
    · exact repeats.mono (became.refines h₁.sound h₁.formed)
    · refine World.Supports.backs (fun level n w hw => ?_) (by simp)
      have supports : W.Supports id (.rep body : Node L) :=
        ((h.complete k hk).node id _ there).supports level
      rcases supports n w hw with empty | ⟨c, u, v, same, hu, hv⟩
      · exact .inl empty
      · have under := became.under hk (Nat.le_trans repeats.body.level_le level)
        exact .inr ⟨c, u, v, same, hu.under under, hv⟩
    · obtain rfl := List.mem_singleton.mp hy
      exact became.among
  exact h₂.culled (change.trans (.revised step)) (.self among) (Grammar.store_bind.symm.trans run)

theorem trim_rule {r : Rule} (there : g.arena.get? id = some (.rule r body)) :
    Culled links W order K (Grammar.trim (Grammar.cullNode live fuel) id (.rule r body))
      id F g := by
  intro result F' g' run
  rw [Grammar.trim] at run
  by_cases busy : r.busy
  · rw [if_pos busy] at run
    obtain ⟨rfl, rfl, rfl⟩ := Culling.pure_ok.mp run
    exact ⟨h, .refl g, .self among⟩
  rw [if_neg busy] at run
  have run := Grammar.revise_bind.symm.trans run
  have idle : r.busy = false := Bool.eq_false_iff.mpr busy
  generalize marked : g.revised id (.mapRule ({ · with busy := true })) = g₁ at run
  have there₁ : g₁.arena.get? id = some (.rule { r with busy := true } body) := by
    rw [← marked, Grammar.get?_revised, if_pos rfl, there]
    rfl
  have h₁ : Trimmed links W order K F g₁ := marked ▸ h.setBusy
  have among' : Among order body := h.closed.successors id _ among there body (.head _)
  obtain ⟨b, F₂, g₂, run₂, run⟩ := Culling.bind_ok.mp run
  have run := Grammar.revise_bind.symm.trans run
  obtain ⟨h₂, change, became⟩ := ih body F g₁ h₁ among' b F₂ g₂ run₂
  obtain ⟨body₂, there₂⟩ : ∃ body₂, g₂.arena.get? id = some (.rule { r with busy := true } body₂) :=
    change.rule_iff.mpr ⟨body, there₁⟩
  generalize unmarked : g₂.revised id (.mapRule ({ · with busy := false })) = g₃ at run
  have there₃ : g₃.arena.get? id = some (.rule r body₂) := by
    rw [← unmarked, Grammar.get?_revised, if_pos rfl, there₂, ← idle]
    rfl
  have h₃ : Trimmed links W order K F₂ g₃ := unmarked ▸ h₂.setBusy
  have change₃ : Recasts g g₃ := by
    refine ⟨?_, ?_, fun i node there' => ?_⟩
    · rw [← unmarked, Grammar.size_revised, change.size, ← marked, Grammar.size_revised]
    · rw [← unmarked]
      refine change.memo.trans ?_
      rw [← marked]
      rfl
    · by_cases same : id = i
      · subst same
        cases Option.some.inj (there.symm.trans there')
        exact ⟨_, there₃, .rule⟩
      · obtain ⟨node', there'', step⟩ := change.node i node
          (by rw [← marked, Grammar.get?_revised, if_neg same, there'])
        exact ⟨node', by rw [← unmarked, Grammar.get?_revised, if_neg same, there''], step⟩
  have became₃ : Became W g₃ order K body b := became.congr fun x => by
    rw [← unmarked]
    exact Grammar.solid_revised fun _ _ => by simp
  have names : (W body).Names links r.name (W id) := (h.sound.node id _ there).1
  have le : W.level body ≤ W.level id := names.trace.length_le
  have supports {k : Nat} (hk : K k) (level : W.level id ≤ k) : ∀ n w, (W id).words n w →
      ∃ m < n, (W body).words m w :=
    ((h.complete k hk).node id _ there).supports level
  cases b with
  | none =>
    refine h₃.culled_none change₃ (fun k hk level n w hw => ?_) run
    obtain ⟨m, -, hb⟩ := supports hk level n w hw
    exact became k hk (Nat.le_trans le level) m w hb
  | some y =>
    have step : ∀ node, g₃.arena.get? id = some node → node.Recast (node.setBody y) := by
      intro node there'
      cases Option.some.inj (there₃.symm.trans there')
      exact .rule
    have h₄ : Trimmed links W order K F₂ (g₃.revised id (.setBody y)) := by
      refine h₃.recast (fun node there' => ?_) (fun node there' => ?_) (fun node k there' hk => ?_)
        (fun node there' _ x hx => ?_) step <;> cases Option.some.inj (there₃.symm.trans there')
      · exact ⟨h₃.closed.range y became₃.1, (h₃.formed.node id _ there₃).2⟩
      · exact ⟨names.mono became₃.2.1, (h₃.sound.node id _ there₃).2⟩
      · have backs := (h₃.complete k hk).node id _ there₃
        refine ⟨fun level n w hw => ?_, fun r' body' kind next it hm =>
          ?_, fun r' body' it state => ?_⟩
        · obtain ⟨m, hm, hb⟩ := supports hk level n w hw
          obtain ⟨i, hi, hy⟩ := became₃.2.2.1 k hk (Nat.le_trans le level) m w hb
          exact ⟨i, Nat.lt_of_le_of_lt hi hm, hy⟩
        · cases it
          exact backs.memo r body₂ kind next rfl hm
        · cases it
          exact backs.right r body₂ rfl state
      · obtain rfl := List.mem_singleton.mp hx
        exact became₃.1
    exact h₄.culled (change₃.trans (.revised step)) (.self among)
      (Grammar.revise_bind.symm.trans run)

omit ih in
theorem Trimmed.became_of_culled {s : Symbol L} {target : Option NodeId}
    (there : g.arena.get? id = some (.thunk ⟨s, .culled target⟩ base)) :
    Became W g order K id target := by
  have fits : (W (target.getD nothing)).Refines (W id) := h.sound.node id _ there
  have supports {k : Nat} (hk : K k) (level : W.level id ≤ k) :
      (W id).words.Under (W (target.getD nothing)).words :=
    ((h.complete k hk).node id _ there).supports level
  cases target with
  | none =>
    intro k hk level n w hw
    obtain ⟨m, -, hn⟩ := supports hk level n w hw
    have hn : (W nothing).words m w := hn
    rw [h.sound.void h.formed] at hn
    exact hn
  | some y =>
    refine ⟨h.closed.successors id _ among there y (.head _),
      fits, fun k hk level => supports hk level, ?_⟩
    rintro ⟨node, there', solid⟩
    cases Option.some.inj (there.symm.trans there')
    cases solid

/-- A thunk that was forced is culled to what its resolution becomes. -/
theorem trim_forced {s : Symbol L} {target : NodeId}
    (there : g.arena.get? id = some (.thunk ⟨s, .forced target⟩ base)) :
    Culled links W order K
      (Grammar.trim (Grammar.cullNode live fuel) id (.thunk ⟨s, .forced target⟩ base)) id F g := by
  have fits : (W target).Refines (W id) := h.sound.node id _ there
  have formed : g.size > base ∧ g.Solid target :=
    ⟨(h.formed.node id _ there).1, (h.formed.node id _ there).2 target rfl⟩
  have under {k : Nat} (hk : K k) (level : W.level id ≤ k) : (W id).words.Under (W target).words :=
    ((h.complete k hk).node id _ there).supports level
  have among' : Among order target := h.closed.successors id _ among there target (.head _)
  -- the thunk is set twice, each time to something that stands for the resolution
  have set {F : Std.TreeMap NodeId (Option NodeId)} {g : Grammar L} {state : ThunkState}
      {result : Option NodeId} (h : Trimmed links W order K F g)
      (there : g.arena.get? id = some (.thunk ⟨s, state⟩ base)) (solid : g.Solid target)
      (became : Became W g order K target result) :
      Trimmed links W order K F (g.revised id (.setState (.culled result))) ∧
        Recasts g (g.revised id (.setState (.culled result))) := by
    have step : ∀ node, g.arena.get? id = some node →
        node.Recast (node.setState (.culled result)) := by
      intro node there'
      cases Option.some.inj (there.symm.trans there')
      exact .thunk
    refine ⟨h.recast (fun node there' => ?_) (fun node there' => ?_) (fun node k there' hk => ?_)
      (fun node there' _ x hx => ?_) step, .revised step⟩ <;>
      cases Option.some.inj (there.symm.trans there')
    · refine ⟨(h.formed.node id _ there).1, fun next hn => ?_⟩
      obtain rfl := Option.some.inj hn
      exact (became.solid h.formed solid).1
    · exact (became.refines h.sound h.formed).trans fits
    · refine World.Supports.backs (fun level => ?_) nofun
      exact (under hk level).trans (became.under hk (Nat.le_trans fits.level_le level))
    · cases result with
      | none => cases hx
      | some y =>
        obtain rfl := List.mem_singleton.mp hx
        exact became.1
  intro result F' g' run
  obtain ⟨h₁, change₁⟩ := set h there formed.2 (.self among')
  have run := Grammar.revise_bind.symm.trans run
  generalize marked : g.revised id (.setState (.culled (some target))) = g₁ at h₁ change₁ run
  have solid₁ : g₁.Solid target := change₁.solid_iff.mpr formed.2
  have there₁ : g₁.arena.get? id = some (.thunk ⟨s, .culled (some target)⟩ base) := by
    rw [← marked, Grammar.get?_revised, if_pos rfl, there]
    rfl
  obtain ⟨result, F₂, g₂, run₂, run⟩ := Culling.bind_ok.mp run
  obtain ⟨h₂, change₂, became⟩ := ih target F g₁ h₁ among' result F₂ g₂ run₂
  have solid₂ : g₂.Solid target := change₂.solid_iff.mpr solid₁
  obtain ⟨state₂, there₂⟩ : ∃ state, g₂.arena.get? id = some (.thunk ⟨s, state⟩ base) := by
    obtain ⟨node, there', step⟩ := change₂.node id _ there₁
    cases step with
    | same => exact ⟨_, there'⟩
    | thunk => exact ⟨_, there'⟩
  obtain ⟨h₃, change₃⟩ := set h₂ there₂ solid₂ became
  have became₃ := became.recasts change₃
  refine h₃.culled ((change₁.trans change₂).trans change₃)
    (became₃.of_refines fits (fun k hk level => under hk level) fun hid => ?_)
    (Grammar.revise_bind.symm.trans run)
  obtain ⟨node, there', solid⟩ := hid
  rw [Grammar.get?_revised, if_pos rfl, there₂] at there'
  cases there'
  cases solid

omit ih h among

/-- A node is culled to one that claims neither more nor less. -/
theorem cullNode_culls (dead : ∀ x, Among order x → ¬live.contains x → ∀ k, K k → W.level x ≤ k →
    ∀ n w, ¬(W x).words n w) (fuel : Nat) : CullsTo L links W order K live fuel := by
  induction fuel with
  | zero => exact fun _ _ _ _ _ _ _ _ run => by cases run
  | succ fuel ih =>
    intro id F g h among result F' g' run
    cases done : F[id]? with
    | some known =>
      cases (Grammar.cullNode_finished done).symm.trans run
      exact ⟨h, .refl g, h.results id result done⟩
    | none =>
      obtain ⟨node, there⟩ := Grammar.exists_get? (h.closed.range id among)
      rw [Grammar.cullNode_new done there] at run
      split at run
      · cases node with
        | empty =>
          refine h.culled_none (.refl g) (fun k _ _ n w hw => ?_) run
          rw [show W id = .void from h.sound.node id _ there] at hw
          exact hw
        | token | matched | undefined => exact h.culled (.refl g) (.self among) run
        | alt => exact trim_alt ih h among there result F' g' run
        | cat => exact trim_cat ih h among there result F' g' run
        | rep => exact trim_rep ih h among there result F' g' run
        | rule => exact trim_rule ih h among there result F' g' run
        | thunk t base =>
          obtain ⟨s, state⟩ := t
          cases state with
          | pending | running => exact h.culled (.refl g) (.self among) run
          | culled target => exact h.culled (.refl g) (h.became_of_culled among there) run
          | forced target => exact trim_forced ih h among there result F' g' run
      · rename_i found
        exact h.culled_none (.refl g) (dead id among found) run

end Trim

/-! ## Culling a graph -/

/-- What a thunk leads to, unless it has not been evaluated, it was resolved to. -/
theorem Node.target?_of_mem {L : Type} {t : Thunk L} {base x : NodeId}
    (member : x ∈ (Node.thunk t base).successors false) : t.state.target? = some x := by
  obtain ⟨s, state⟩ := t
  cases state with
  | pending | running => cases member
  | forced target =>
    obtain rfl := List.mem_singleton.mp member
    rfl
  | culled target =>
    cases target with
    | none => cases member
    | some target =>
      obtain rfl := List.mem_singleton.mp member
      rfl

namespace Grammar

variable {L : Type} {g : Grammar L} {links : Links} {W : World} {order : List NodeId} {id x : Nat}
  {w : Word}

theorem Formed.ranged [DecidableEq L] (h : g.Formed) (throughPending : Bool) :
    g.Ranged throughPending := by
  intro id node there x hx
  have formed := h.node id node there
  cases node with
  | empty | token | matched | undefined => cases hx
  | alt | cat | rep => exact (formed.part rfl hx).2.lt_size
  | rule =>
    obtain rfl := List.mem_singleton.mp hx
    exact formed.1
  | thunk t base =>
    by_cases evaluated : x ∈ (Node.thunk t base).successors false
    · exact (formed.2 x (Node.target?_of_mem evaluated)).lt_size
    · obtain ⟨s, state⟩ := t
      cases state with
      | forced | culled => exact absurd hx evaluated
      | pending | running =>
        cases throughPending with
        | false => cases hx
        | true =>
          obtain rfl := List.mem_singleton.mp hx
          exact formed.1

/-- Every cycle of a well-formed graph passes through a nonterminal: parts of combinators come
before them and are no thunks, and neither is what a thunk was resolved to. -/
theorem Formed.stratified [DecidableEq L] (h : g.Formed) : g.Stratified := by
  have down {x y : NodeId} (leads : g.Leads x y) : g.Solid y ∧ (g.Solid x → y < x) := by
    obtain ⟨node, there, other, member⟩ := leads
    have formed := h.node x node there
    cases node with
    | empty | token | matched | undefined => cases member
    | alt | cat | rep =>
      have part := formed.part rfl member
      exact ⟨part.2, fun _ => part.1⟩
    | rule => exact absurd rfl (other _ _)
    | thunk t base =>
      refine ⟨formed.2 y (Node.target?_of_mem member), fun ⟨node, there', solid⟩ => ?_⟩
      cases there.symm.trans there'
      cases solid
  have path {x y : NodeId} (leads : Relation.TransGen g.Leads x y) :
      g.Solid y ∧ (g.Solid x → y < x) := by
    induction leads with
    | single leads => exact down leads
    | tail _ leads ih =>
      exact ⟨(down leads).1, fun solid => Nat.lt_trans ((down leads).2 ih.1) (ih.2 solid)⟩
  exact fun x cycle => Nat.lt_irrefl x ((path cycle).2 (path cycle).1)

theorem Matches.productive [DecidableEq L] (h : g.Matches x w) (formed : g.Formed) :
    g.Productive x := by
  have terminal_ne {kind : Kind} (terminal : kind.isTerminal) : kind ≠ Kind.void := by
    rintro rfl
    cases terminal
  induction h with
  | epsilon there => exact .token there (by decide)
  | token there terminal => exact .token there (terminal_ne terminal)
  | @matched id symbol there =>
    exact .matched there (terminal_ne (show symbol.kind.isTerminal from formed.node id _ there))
  | alt_left there _ ih => exact .alt_left there ih
  | alt_right there _ ih => exact .alt_right there ih
  | cat there _ _ ihl ihr => exact .cat there ihl ihr
  | rep_nil there | rep_cons there => exact .rep there
  | rule there _ ih => exact .rule there ih
  | resolved there resolved _ ih => exact .resolved there resolved ih
  | waiting there waiting => exact .waiting there waiting

/-- Without rules and thunks, what is found to match something does. -/
theorem Regular.holds_of_live [DecidableEq L] (regular : g.Regular) (sound : Sound links W g)
    (live : (g.productive order).contains x) : ∃ w, (W x).words.Holds w := by
  refine (productive_of_live live).least
    (P := fun x => (W x).words.Lives) fun x node there _ shows => ?_
  have fits := sound.node x node there
  cases node with
  | empty => exact shows.elim
  | token => exact fits.lives_of_token shows
  | matched => exact ⟨[], fits⟩
  | alt => exact shows.elim fits.1.lives fits.2.lives
  | cat => exact fits.lives shows.1 shows.2
  | rep => exact ⟨[], fits.nil⟩
  | rule | thunk => cases (regular x _ there).1
  | undefined name => exact absurd rfl ((regular x _ there).2 name)

end Grammar

theorem Recasts.quiet {L : Type} {g g' : Grammar L} (h : Recasts g g') (quiet : g.Quiet) :
    g'.Quiet := by
  intro id node' there'
  obtain ⟨node, there, step⟩ := h.get?_back there'
  have idle := quiet id node there
  cases step with
  | same | rule => exact idle
  | alt | cat | rep => exact Node.idle_of_isFixed rfl
  | thunk => exact ⟨nofun, nofun, nofun⟩

theorem Recasts.regular {L : Type} {g g' : Grammar L} (h : Recasts g g') (regular : g.Regular) :
    g'.Regular := by
  intro id node' there'
  obtain ⟨node, there, step⟩ := h.get?_back there'
  obtain ⟨fixed, defined⟩ := regular id node there
  cases step with
  | same => exact ⟨fixed, defined⟩
  | alt | cat | rep => exact ⟨rfl, nofun⟩
  | rule | thunk => cases fixed

theorem Recasts.proper {L : Type} {g g' : Grammar L} (h : Recasts g g') (proper : g.Proper) :
    g'.Proper := by
  intro id node' there'
  obtain ⟨node, there, step⟩ := h.get?_back there'
  have kept : node.Proper g' :=
    (proper id node there).mono fun x ⟨r, body, there⟩ => ⟨r, h.rule_iff.mpr ⟨body, there⟩⟩
  cases step with
  | same | rule => exact kept
  | alt | cat | rep | thunk => trivial

section Cull

variable {L : Type} [DecidableEq L] {links : Links} {W : World} {g : Grammar L} {id : Nat}

/-- Culling the graph under a node answers what became of the node, and keeps what holds in its
course. A node that is not found to match something is dead. -/
theorem cull_trims (good : Good links W g) (lt : id < g.size) :
    ∃ order result F' g', Grammar.cull id g = .ok (result, g') ∧
      Trimmed links W order (Complete W g) F' g' ∧ Recasts g g' ∧
        Became W g' order (Complete W g) id result ∧
      (¬(g.productive order).contains id → result = none) := by
  obtain ⟨order, ordered, mem, closed⟩ := Grammar.settledOrder_ok (good.formed.ranged false) lt
  have closed' : g.Closed false (Among order) := by
    refine ⟨fun x hx => ?_, fun x node hx there y hy => ?_⟩
    · rcases hx with hx | rfl
      · exact closed.range x hx
      · exact lt_size_of_get? good.formed.nothing
    · rcases hx with hx | rfl
      · exact .inl (closed.successors x node hx there y hy)
      · cases Option.some.inj (there.symm.trans good.formed.nothing)
        cases hy
  have start : Trimmed links W order (Complete W g) {} g :=
    ⟨good.formed, good.sound, fun _ hk => hk, closed', fun x r hr => by simp at hr⟩
  have dead : ∀ x, Among order x → ¬(g.productive order).contains x → ∀ k, Complete W g k →
      W.level x ≤ k → ∀ n w, ¬(W x).words n w := by
    intro x among dead k hk level n w hw
    have lt := closed'.range x among
    have matched := hk.matches good.formed good.sound lt level hw
    rcases among with hx | rfl
    · exact dead ((matched.productive good.formed).live closed hx)
    · exact Grammar.not_matches_of_empty good.formed.nothing matched
  obtain ⟨result, g', answer, -⟩ :=
    cull_rewires (good.formed.ranged false) good.formed.stratified lt
  obtain ⟨F', run⟩ := (Grammar.cull_iff ordered).mp answer
  obtain ⟨trimmed, change, became⟩ :=
    cullNode_culls dead _ id {} g start (.inl mem) result F' g' run
  refine ⟨order, result, F', g', answer, trimmed, change, became, fun dead => ?_⟩
  obtain ⟨node, there⟩ := Grammar.exists_get? lt
  rw [Nat.succ_mul, Nat.add_succ, Grammar.cullNode_new (by simp) there, if_neg dead] at run
  obtain ⟨g'', finished, -⟩ := Grammar.finishCull_ok (F := {}) (g := g) id none
  rw [finished] at run
  cases run
  rfl

/-- Culling the graph under a node changes edges and the states of thunks, and keeps what nodes
stand for. -/
theorem cull_carries (good : Good links W g) (lt : id < g.size) {result : Option NodeId}
    {g' : Grammar L} (run : Grammar.cull id g = .ok (result, g')) :
    Recasts g g' ∧ Carries links W g W g' := by
  obtain ⟨order, result, F', g', run', trimmed, change, -⟩ := cull_trims good lt
  cases run'.symm.trans run
  refine ⟨change, ⟨trimmed.formed, trimmed.sound, change.quiet good.quiet⟩,
    Nat.le_of_eq change.size.symm,
    fun _ _ => rfl, fun k right x r body there => ?_, fun k _ hk => trimmed.complete k hk,
    change.regular, change.proper, fun _ vetted x r body there' asked productive => ?_,
    cull_spares (good.formed.ranged false) lt run⟩
  · obtain ⟨body', there'⟩ := change.rule_iff.mpr ⟨body, there⟩
    exact right x r body' there'
  · obtain ⟨body₀, there⟩ := change.rule_iff.mp ⟨body, there'⟩
    refine vetted x r body₀ there asked (productive.of_shrunk fun y node' there' => ?_)
    obtain ⟨node, there, -⟩ := change.get?_back there'
    obtain ⟨node₁, there₁, shrunk⟩ :=
      (cull_shrinks (good.formed.ranged false) lt run).1.node y node there
    cases there'.symm.trans there₁
    exact ⟨node, there, shrunk⟩

/-- Something is left by culling only of a node that is found to match something. -/
theorem cull_productive (good : Good links W g) (lt : id < g.size) {y : NodeId} {g' : Grammar L}
    (run : Grammar.cull id g = .ok (some y, g')) : g.Productive id := by
  obtain ⟨order, result, F', g'', run', -, -, -, none⟩ := cull_trims good lt
  cases run'.symm.trans run
  by_contra dead
  cases none fun live => dead (Grammar.productive_of_live live)

/-- Culling the graph under a node answers a node that claims neither more nor less. Without rules
and thunks it finds out whether the node stands for any word. -/
theorem cull_ok (good : Good links W g) (solid : g.Solid id) :
    ∃ result g', Grammar.cull id g = .ok (result, g') ∧ Carries links W g W g' ∧
      g'.Solid (result.getD nothing) ∧ (W (result.getD nothing)).Refines (W id) ∧
      (∀ k, Complete W g k → W.level id ≤ k → (W id).words.Under (W (result.getD nothing)).words) ∧
      (g.Regular → (∀ w, ¬(W id).words.Holds w) → result = none) := by
  obtain ⟨order, result, F', g', run, trimmed, change, became, none⟩ :=
    cull_trims good solid.lt_size
  refine ⟨result, g', run, (cull_carries good solid.lt_size run).2,
    (became.solid trimmed.formed (change.solid_iff.mpr solid)).1,
    became.refines trimmed.sound trimmed.formed,
    fun k hk level => became.under hk level, fun regular empty => none fun live => ?_⟩
  obtain ⟨w, hw⟩ := regular.holds_of_live good.sound live
  exact empty w hw

end Cull

end DerivativeParsing
