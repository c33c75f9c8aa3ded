import DerivativeParsing.Forest.Derivation
import DerivativeParsing.Proofs.Formed
import DerivativeParsing.Proofs.Shrinking

/-!
# What no action takes from a grammar

The trees of an input are read off the nodes that the grammar was built from, while actions evaluate
the grammar and lead edges past what is dead. So the derivations of those nodes must stay what they
were.

1. `Grammar.Pristine`: a set of nodes, closed under edges, with no derivatives among them.
2. `Grammar.Passes`: there are only choices between two nodes, and nothing is derived at their other
   sides.
3. `Grammar.Mirrors`: nodes of one grammar look like nodes of another, but for edges that are led
   past such choices. Then they have the same derivations (`Mirrors.derivation_iff`).
4. `Grammar.Spares`: whatever set is pristine stays so, and its nodes look like themselves.
   Shrinking spares a grammar, and evaluation and culling are cases of it (`Extends.spares`,
   `cull_spares`).
-/

namespace DerivativeParsing

/-- Whether a node is one that a grammar is built from, and not one that derivatives are made of. -/
def Node.isBuilt {L : Type} : Node L → Bool
  | .matched _ | .thunk _ _ => false
  | _ => true

namespace Grammar

variable {L : Type} {g g₁ g' : Grammar L} {O : NodeId → Prop} {input : List (Symbol L)}
  {x y z : NodeId} {i j : Nat} {t : Tree (Symbol L)}

/-- The nodes of a set depend on one another only, and no derivatives are among them. -/
structure Pristine (O : NodeId → Prop) (g : Grammar L) : Prop where
  nothing : O nothing
  empty : g.arena.get? Grammar.nothing = some .empty
  node : ∀ x, O x → ∃ node, g.arena.get? x = some node ∧ node.isBuilt
  closed : ∀ x node, O x → g.arena.get? x = some node → ∀ y ∈ node.successors false, O y

namespace Pristine

theorem lt_size (h : Pristine O g) (hx : O x) : g.size > x := by
  obtain ⟨node, there, -⟩ := h.node x hx
  exact lt_size_of_get? there

theorem built {node : Node L} (h : Pristine O g) (hx : O x) (there : g.arena.get? x = some node) :
    node.isBuilt := by
  obtain ⟨node', there', built⟩ := h.node x hx
  cases there.symm.trans there'
  exact built

end Pristine

/-! ## Nodes past which edges may be led -/

/-- Nothing is derived at the node, whatever the input. -/
def Barren (g : Grammar L) (x : NodeId) : Prop := ∀ input i j t, ¬g.Derivation input x i j t

/-- From one node to another there are only choices of which the other side is barren. What is
barren may be left out. -/
inductive Passes (g : Grammar L) : NodeId → NodeId → Prop
  | refl (x : NodeId) : Passes g x x
  | barren {x : NodeId} : g.Barren x → Passes g x nothing
  | alt_left {x left right y : NodeId} :
    g.arena.get? x = some (.alt left right) → g.Barren right → Passes g left y → Passes g x y
  | alt_right {x left right y : NodeId} :
    g.arena.get? x = some (.alt left right) → g.Barren left → Passes g right y → Passes g x y

namespace Passes

theorem closed (h : g.Passes x y) (pristine : Pristine O g) (hx : O x) : O y := by
  induction h with
  | refl => exact hx
  | barren => exact pristine.nothing
  | alt_left there _ _ ih => exact ih (pristine.closed _ _ hx there _ (.head _))
  | alt_right there _ _ ih => exact ih (pristine.closed _ _ hx there _ (.tail _ (.head _)))

/-- The two nodes have the same derivations. -/
theorem derivation_iff (h : g.Passes x y) (empty : g.arena.get? nothing = some .empty) :
    g.Derivation input y i j t ↔ g.Derivation input x i j t := by
  induction h with
  | refl => rfl
  | barren none =>
    exact ⟨fun h => absurd h (not_derivation empty (.inl rfl)), fun h => absurd h (none _ _ _ _)⟩
  | alt_left there none _ ih =>
    exact ih.trans ((derivation_alt there).trans (or_iff_left (none _ _ _ _))).symm
  | alt_right there none _ ih =>
    exact ih.trans ((derivation_alt there).trans (or_iff_right (none _ _ _ _))).symm

theorem eq_of_get? {node : Node L} (h : g.Passes x y) (live : ¬g.Barren x)
    (there : g.arena.get? x = some node) (other : ∀ l r, node ≠ .alt l r) : y = x := by
  cases h with
  | refl => rfl
  | barren none => exact absurd none live
  | alt_left there' | alt_right there' =>
    exact absurd (Option.some.inj (there.symm.trans there')) (other _ _)

theorem barren_iff (h : g.Passes x y) (empty : g.arena.get? nothing = some .empty) :
    g.Barren y ↔ g.Barren x := by
  simp only [Barren, h.derivation_iff empty]

theorem trans (h : g.Passes x y) (h' : g.Passes y z) (empty : g.arena.get? nothing = some .empty) :
    g.Passes x z := by
  induction h with
  | refl => exact h'
  | barren none =>
    have nowhere : g.Barren z :=
      (h'.barren_iff empty).mpr fun _ _ _ _ => not_derivation empty (.inl rfl)
    cases h' with
    | refl | barren => exact .barren none
    | alt_left there | alt_right there => cases empty.symm.trans there
  | alt_left there none _ ih => exact .alt_left there none (ih h')
  | alt_right there none _ ih => exact .alt_right there none (ih h')

end Passes

end Grammar

/-! ## Mirrored nodes -/

/-- Nodes that a grammar is built from, of the same kind, with corresponding edges. What belongs to
a rule besides its body is left open. -/
inductive Node.Alike {L : Type} (edge : NodeId → NodeId → Prop) : Node L → Node L → Prop
  | empty : Alike edge .empty .empty
  | token (kind : Kind) : Alike edge (.token kind) (.token kind)
  | undefined (name : String) : Alike edge (.undefined name) (.undefined name)
  | alt {l l' r r' : NodeId} : edge l l' → edge r r' → Alike edge (.alt l r) (.alt l' r')
  | cat {l l' r r' : NodeId} : edge l l' → edge r r' → Alike edge (.cat l r) (.cat l' r')
  | rep {b b' : NodeId} : edge b b' → Alike edge (.rep b) (.rep b')
  | rule {r r' : Rule} {b b' : NodeId} : edge b b' → Alike edge (.rule r b) (.rule r' b')

namespace Node

variable {L : Type} {edge edge' : NodeId → NodeId → Prop} {node node' : Node L}

theorem Alike.mono (h : node.Alike edge node')
    (weaker : ∀ x ∈ node.successors false, ∀ y, edge x y → edge' x y) : node.Alike edge' node' := by
  cases h with
  | empty => exact .empty
  | token kind => exact .token kind
  | undefined name => exact .undefined name
  | alt hl hr => exact .alt (weaker _ (.head _) _ hl) (weaker _ (.tail _ (.head _)) _ hr)
  | cat hl hr => exact .cat (weaker _ (.head _) _ hl) (weaker _ (.tail _ (.head _)) _ hr)
  | rep hb => exact .rep (weaker _ (.head _) _ hb)
  | rule hb => exact .rule (weaker _ (.head _) _ hb)

theorem Alike.refl (edge : NodeId → NodeId → Prop) (built : node.isBuilt) (same : ∀ x, edge x x) :
    node.Alike edge node := by
  cases node with
  | matched | thunk => cases built
  | empty => exact .empty
  | token kind => exact .token kind
  | undefined name => exact .undefined name
  | alt l r => exact .alt (same l) (same r)
  | cat l r => exact .cat (same l) (same r)
  | rep b => exact .rep (same b)
  | rule r b => exact .rule (same b)

theorem Alike.trans {node₁ : Node L} {edge₁ edge₂ : NodeId → NodeId → Prop}
    (h : node.Alike edge₁ node₁) (h' : node₁.Alike edge₂ node') :
    node.Alike (fun x y => ∃ z, edge₁ x z ∧ edge₂ z y) node' := by
  cases h with
  | empty =>
    cases h'
    exact .empty
  | token kind =>
    cases h'
    exact .token kind
  | undefined name =>
    cases h'
    exact .undefined name
  | alt hl hr =>
    cases h' with
    | alt hl' hr' => exact .alt ⟨_, hl, hl'⟩ ⟨_, hr, hr'⟩
  | cat hl hr =>
    cases h' with
    | cat hl' hr' => exact .cat ⟨_, hl, hl'⟩ ⟨_, hr, hr'⟩
  | rep hb =>
    cases h' with
    | rep hb' => exact .rep ⟨_, hb, hb'⟩
  | rule hb =>
    cases h' with
    | rule hb' => exact .rule ⟨_, hb, hb'⟩

theorem Alike.isBuilt (h : node.Alike edge node') : node'.isBuilt := by
  cases h <;> rfl

/-- Edges of the second node are those that edges of the first correspond to. -/
theorem Alike.exists_edge (h : node.Alike edge node') {y : NodeId}
    (hy : y ∈ node'.successors false) : ∃ x ∈ node.successors false, edge x y := by
  cases h with
  | empty | token | undefined => cases hy
  | alt hl hr | cat hl hr =>
    rcases List.mem_cons.mp hy with rfl | hy
    · exact ⟨_, .head _, hl⟩
    · obtain rfl := List.mem_singleton.mp hy
      exact ⟨_, .tail _ (.head _), hr⟩
  | rep hb | rule hb =>
    obtain rfl := List.mem_singleton.mp hy
    exact ⟨_, .head _, hb⟩

end Node

namespace Grammar

variable {L : Type} {g g₁ g' : Grammar L} {O : NodeId → Prop} {R : NodeId → NodeId → Prop}
  {input : List (Symbol L)} {x x' y z : NodeId} {i j : Nat} {t : Tree (Symbol L)}
  {node node' : Node L}

/-- An edge to `x` may be led on, to a node that corresponds to `x'`. -/
def Edge (g : Grammar L) (R : NodeId → NodeId → Prop) (x x' : NodeId) : Prop :=
  ∃ y, g.Passes x y ∧ R y x'

/-- Corresponding nodes of two grammars are alike, but for edges that are led past choices with a
barren side. -/
structure Mirrors (R : NodeId → NodeId → Prop) (g g' : Grammar L) : Prop where
  empty : g.arena.get? nothing = some .empty
  node : ∀ x x', R x x' → ∃ node node', g.arena.get? x = some node ∧ g'.arena.get? x' = some node' ∧
    node.Alike (g.Edge R) node'

namespace Mirrors

variable (h : Mirrors R g g')
include h

theorem forth (hx : R x x') (there : g.arena.get? x = some node) :
    ∃ node', g'.arena.get? x' = some node' ∧ node.Alike (g.Edge R) node' := by
  obtain ⟨_, node', there₀, there', alike⟩ := h.node x x' hx
  cases there.symm.trans there₀
  exact ⟨node', there', alike⟩

theorem back (hx : R x x') (there' : g'.arena.get? x' = some node') :
    ∃ node, g.arena.get? x = some node ∧ node.Alike (g.Edge R) node' := by
  obtain ⟨node, _, there, there₀, alike⟩ := h.node x x' hx
  cases there'.symm.trans there₀
  exact ⟨node, there, alike⟩

theorem derivation_back (hx : R x x') (derivation : g'.Derivation input x' i j t) :
    g.Derivation input x i j t := by
  -- an edge that is led on has the derivations of where it is led
  have edge {x x' : NodeId} {i j : Nat} {t : Tree (Symbol L)} (hx : g.Edge R x x')
      (ih : ∀ {y}, R y x' → g.Derivation input y i j t) : g.Derivation input x i j t := by
    obtain ⟨y, passes, hy⟩ := hx
    exact (passes.derivation_iff h.empty).mp (ih hy)
  induction derivation generalizing x with
  | epsilon there' =>
    obtain ⟨_, there, alike⟩ := h.back hx there'
    cases alike
    exact .epsilon there
  | token there' terminal here kind =>
    obtain ⟨_, there, alike⟩ := h.back hx there'
    cases alike
    exact .token there terminal here kind
  | alt_left there' _ ih =>
    obtain ⟨_, there, alike⟩ := h.back hx there'
    cases alike with
    | alt hl => exact .alt_left there (edge hl ih)
  | alt_right there' _ ih =>
    obtain ⟨_, there, alike⟩ := h.back hx there'
    cases alike with
    | alt _ hr => exact .alt_right there (edge hr ih)
  | cat there' _ _ ihl ihr =>
    obtain ⟨_, there, alike⟩ := h.back hx there'
    cases alike with
    | cat hl hr => exact .cat there (edge hl ihl) (edge hr ihr)
  | rep_nil there' =>
    obtain ⟨_, there, alike⟩ := h.back hx there'
    cases alike
    exact .rep_nil there
  | rep_cons there' lt _ _ ihb ihr =>
    obtain ⟨_, there, alike⟩ := h.back hx there'
    cases alike with
    | rep hb => exact .rep_cons there lt (edge hb ihb) (ihr hx)
  | rule there' _ ih =>
    obtain ⟨_, there, alike⟩ := h.back hx there'
    cases alike with
    | rule hb => exact .rule there (edge hb ih)

/-- The second grammar derives what the first does. By induction on the derivation, for all nodes
that an edge may be led on to. -/
theorem derivation_forth (hx : g.Edge R x x') (derivation : g.Derivation input x i j t) :
    g'.Derivation input x' i j t := by
  -- only choices are led past
  have stays {x x' : NodeId} {node : Node L} (hx : g.Edge R x x') (live : ¬g.Barren x)
      (there : g.arena.get? x = some node) (other : ∀ l r, node ≠ .alt l r) :
      R x x' ∧ ∃ node', g'.arena.get? x' = some node' ∧ node.Alike (g.Edge R) node' := by
    obtain ⟨y, passes, hy⟩ := hx
    obtain rfl := passes.eq_of_get? live there other
    exact ⟨hy, h.forth hy there⟩
  induction derivation generalizing x' with
  | epsilon there =>
    obtain ⟨-, _, there', alike⟩ :=
      stays hx (fun none => none input 0 0 _ (.epsilon there)) there nofun
    cases alike
    exact .epsilon there'
  | token there terminal here kind =>
    obtain ⟨-, _, there', alike⟩ :=
      stays hx (fun none => none _ _ _ _ (.token there terminal here kind)) there nofun
    cases alike
    exact .token there' terminal here kind
  | alt_left there hl ih =>
    obtain ⟨y, passes, hy⟩ := hx
    cases passes with
    | refl =>
      obtain ⟨_, there', alike⟩ := h.forth hy there
      cases alike with
      | alt left => exact .alt_left there' (ih left)
    | barren none => exact absurd (.alt_left there hl) (none _ _ _ _)
    | alt_left there' _ left =>
      cases there.symm.trans there'
      exact ih ⟨y, left, hy⟩
    | alt_right there' none =>
      cases there.symm.trans there'
      exact absurd hl (none _ _ _ _)
  | alt_right there hr ih =>
    obtain ⟨y, passes, hy⟩ := hx
    cases passes with
    | refl =>
      obtain ⟨_, there', alike⟩ := h.forth hy there
      cases alike with
      | alt _ right => exact .alt_right there' (ih right)
    | barren none => exact absurd (.alt_right there hr) (none _ _ _ _)
    | alt_left there' none =>
      cases there.symm.trans there'
      exact absurd hr (none _ _ _ _)
    | alt_right there' _ right =>
      cases there.symm.trans there'
      exact ih ⟨y, right, hy⟩
  | cat there hl hr ihl ihr =>
    obtain ⟨-, _, there', alike⟩ :=
      stays hx (fun none => none _ _ _ _ (.cat there hl hr)) there nofun
    cases alike with
    | cat left right => exact .cat there' (ihl left) (ihr right)
  | rep_nil there =>
    obtain ⟨-, _, there', alike⟩ :=
      stays hx (fun none => none input 0 0 _ (.rep_nil there)) there nofun
    cases alike
    exact .rep_nil there'
  | rep_cons there lt hb hr ihb ihr =>
    obtain ⟨-, _, there', alike⟩ :=
      stays hx (fun none => none _ _ _ _ (.rep_cons there lt hb hr)) there nofun
    cases alike with
    | rep body => exact .rep_cons there' lt (ihb body) (ihr hx)
  | rule there hb ih =>
    obtain ⟨-, _, there', alike⟩ := stays hx (fun none => none _ _ _ _ (.rule there hb)) there nofun
    cases alike with
    | rule body => exact .rule there' (ih body)

/-- Corresponding nodes have the same derivations. -/
theorem derivation_iff (hx : R x x') : g'.Derivation input x' i j t ↔ g.Derivation input x i j t :=
  ⟨h.derivation_back hx, h.derivation_forth ⟨x, .refl x, hx⟩⟩

theorem barren_iff (hx : R x x') : g'.Barren x' ↔ g.Barren x := by
  simp only [Barren, h.derivation_iff hx]

/-- Where edges are led on in the second grammar, they may be in the first. -/
theorem passes_back (first : R nothing nothing) (hx : R x x') (passes : g'.Passes x' y) :
    ∃ z, g.Passes x z ∧ R z y := by
  -- where an edge is led on before, it is led on at once
  have edge {x z y : NodeId} (hz : g.Edge R x z) (ih : ∀ {w}, R w z → ∃ u, g.Passes w u ∧ R u y) :
      ∃ u, g.Passes x u ∧ R u y := by
    obtain ⟨w, passes, hw⟩ := hz
    obtain ⟨u, passes', hu⟩ := ih hw
    exact ⟨u, passes.trans passes' h.empty, hu⟩
  have barren {x z : NodeId} (hz : g.Edge R x z) (none : g'.Barren z) : g.Barren x := by
    obtain ⟨w, passes, hw⟩ := hz
    exact (passes.barren_iff h.empty).mp ((h.barren_iff hw).mp none)
  induction passes generalizing x with
  | refl => exact ⟨x, .refl x, hx⟩
  | barren none => exact ⟨nothing, .barren ((h.barren_iff hx).mp none), first⟩
  | alt_left there' none _ ih =>
    obtain ⟨_, there, alike⟩ := h.back hx there'
    cases alike with
    | alt hl hr =>
      obtain ⟨u, passes, hu⟩ := edge hl ih
      exact ⟨u, .alt_left there (barren hr none) passes, hu⟩
  | alt_right there' none _ ih =>
    obtain ⟨_, there, alike⟩ := h.back hx there'
    cases alike with
    | alt hl hr =>
      obtain ⟨u, passes, hu⟩ := edge hr ih
      exact ⟨u, .alt_right there (barren hl none) passes, hu⟩

theorem trans {S : NodeId → NodeId → Prop} (h' : Mirrors S g' g₁) (first : R nothing nothing) :
    Mirrors (fun x z => ∃ y, R x y ∧ S y z) g g₁ where
  empty := h.empty
  node x z := by
    rintro ⟨y, hx, hy⟩
    obtain ⟨node, node', there, there', alike⟩ := h.node x y hx
    obtain ⟨_, node₁, there'', there₁, alike'⟩ := h'.node y z hy
    cases there'.symm.trans there''
    refine ⟨node, node₁, there, there₁, (alike.trans alike').mono fun b _ c => ?_⟩
    rintro ⟨d, ⟨w, passes, hw⟩, ⟨v, passes', hv⟩⟩
    obtain ⟨u, passes'', hu⟩ := h.passes_back first hw passes'
    exact ⟨u, passes.trans passes'' h.empty, v, hu, hv⟩

end Mirrors

/-! ## What is spared -/

/-- Pristine nodes stay so, and look like themselves. -/
def Spares (g g' : Grammar L) : Prop :=
  ∀ O, Pristine O g → Pristine O g' ∧ ∀ x node, O x → g.arena.get? x = some node →
    ∃ node', g'.arena.get? x = some node' ∧ node.Alike g.Passes node'

theorem Spares.refl (g : Grammar L) : Spares g g := fun _ h =>
  ⟨h, fun _ node hx there => ⟨node, there, .refl _ (h.built hx there) .refl⟩⟩

namespace Spares

variable (h : Spares g g') (pristine : Pristine O g)
include h pristine

theorem mirrors : Mirrors (fun x x' => O x ∧ x = x') g g' where
  empty := pristine.empty
  node x x' := by
    rintro ⟨hx, rfl⟩
    obtain ⟨node, there, -⟩ := pristine.node x hx
    obtain ⟨node', there', alike⟩ := (h O pristine).2 x node hx there
    exact ⟨node, node', there, there', alike.mono fun b member y passes =>
      ⟨y, passes, passes.closed pristine (pristine.closed x node hx there b member), rfl⟩⟩

/-- Pristine nodes keep their derivations. -/
theorem derivation_iff (hx : O x) : g'.Derivation input x i j t ↔ g.Derivation input x i j t :=
  (h.mirrors pristine).derivation_iff ⟨hx, rfl⟩

theorem passes_back (hx : O x) (passes : g'.Passes x y) : g.Passes x y := by
  obtain ⟨_, passes', -, rfl⟩ :=
    (h.mirrors pristine).passes_back ⟨pristine.nothing, rfl⟩ ⟨hx, rfl⟩ passes
  exact passes'

end Spares

theorem Spares.trans (h : Spares g g₁) (h' : Spares g₁ g') : Spares g g' := by
  intro O pristine
  have pristine₁ := (h O pristine).1
  refine ⟨(h' O pristine₁).1, fun x node hx there => ?_⟩
  obtain ⟨node₁, there₁, alike⟩ := (h O pristine).2 x node hx there
  obtain ⟨node', there', alike'⟩ := (h' O pristine₁).2 x node₁ hx there₁
  refine ⟨node', there', (alike.trans alike').mono fun b member y ⟨z, hb, hz⟩ => ?_⟩
  have inside := hb.closed pristine (pristine.closed x node hx there b member)
  exact hb.trans (h.passes_back pristine inside hz) pristine.empty

/-! ## Shrinking -/

theorem Derivation.productive (h : g.Derivation input x i j t) : g.Productive x := by
  induction h with
  | epsilon there => exact .token there (by decide)
  | token there terminal =>
    refine .token there ?_
    rintro rfl
    cases terminal
  | alt_left there _ ih => exact .alt_left there ih
  | alt_right there _ ih => exact .alt_right there ih
  | cat there _ _ ihl ihr => exact .cat there ihl ihr
  | rep_nil there | rep_cons there => exact .rep there
  | rule there _ ih => exact .rule there ih

theorem barren_of_dead (dead : ¬g.Productive x) : g.Barren x := fun _ _ _ _ h => dead h.productive

section Shrunk

variable (pristine : Pristine O g)
include pristine

theorem Shrinks.passes (h : g.Shrinks x y) (hx : O x) : g.Passes x y := by
  induction h with
  | refl => exact .refl _
  | alt_left there dead _ ih =>
    exact .alt_left there (barren_of_dead dead) (ih (pristine.closed _ _ hx there _ (.head _)))
  | alt_right there dead _ ih =>
    exact .alt_right there (barren_of_dead dead)
      (ih (pristine.closed _ _ hx there _ (.tail _ (.head _))))
  | resolved there => cases pristine.built hx there

end Shrunk

end Grammar

theorem Node.Shrunk.alike {L : Type} {g : Grammar L} {O : NodeId → Prop} {x : NodeId}
    {node node' : Node L} (h : node.Shrunk g node') (pristine : g.Pristine O) (hx : O x)
    (there : g.arena.get? x = some node) : node.Alike g.Passes node' := by
  have part {b : NodeId} (member : b ∈ node.successors false) : O b :=
    pristine.closed x node hx there b member
  cases h with
  | same => exact .refl _ (pristine.built hx there) .refl
  | alt hl hr =>
    exact .alt (hl.passes pristine (part (.head _))) (hr.passes pristine (part (.tail _ (.head _))))
  | cat hl hr =>
    exact .cat (hl.passes pristine (part (.head _))) (hr.passes pristine (part (.tail _ (.head _))))
  | @rep b result remains =>
    cases result with
    | none => exact .rep (.barren (Grammar.barren_of_dead remains))
    | some b' => exact .rep (Grammar.Shrinks.passes pristine remains (part (.head _)))
  | rule hb => exact .rule (hb.passes pristine (part (.head _)))
  | thunk => cases pristine.built hx there

namespace Grammar

variable {L : Type} {g g' : Grammar L}

theorem spares_of_shrunk (change : ∀ (x : Nat) node, g.arena.get? x = some node → node.isBuilt →
    ∃ node', g'.arena.get? x = some node' ∧ node.Shrunk g node') : Spares g g' := by
  intro O pristine
  have alike (x : NodeId) (node : Node L) (hx : O x) (there : g.arena.get? x = some node) :
      ∃ node', g'.arena.get? x = some node' ∧ node.Alike g.Passes node' := by
    obtain ⟨node', there', shrunk⟩ := change x node there (pristine.built hx there)
    exact ⟨node', there', shrunk.alike pristine hx there⟩
  refine ⟨⟨pristine.nothing, ?_, fun x hx => ?_, fun x node' hx there' y hy => ?_⟩, alike⟩
  · obtain ⟨_, there', h⟩ := alike _ _ pristine.nothing pristine.empty
    cases h
    exact there'
  · obtain ⟨node, there, -⟩ := pristine.node x hx
    obtain ⟨node', there', h⟩ := alike x node hx there
    exact ⟨node', there', h.isBuilt⟩
  · obtain ⟨node, there, -⟩ := pristine.node x hx
    obtain ⟨_, there'', h⟩ := alike x node hx there
    cases there'.symm.trans there''
    obtain ⟨b, member, passes⟩ := h.exists_edge hy
    exact passes.closed pristine (pristine.closed x node hx there b member)

theorem Spares.of_eq (arena : g'.arena = g.arena) : Spares g g' :=
  spares_of_shrunk fun _ node there _ => ⟨node, arena ▸ there, .same node⟩

end Grammar

/-! ## Actions -/

section Actions

open Grammar

variable {L : Type} {W W' : World} {g g' : Grammar L} {id : NodeId} {result : Option NodeId}

theorem Extends.spares [DecidableEq L] (h : Extends W g W' g') : g.Spares g' := by
  refine spares_of_shrunk fun x node there built => ?_
  obtain ⟨node', there', becomes⟩ := h.node x node there
  refine ⟨node', there', ?_⟩
  cases becomes with
  | same => exact .same _
  | rule => exact .rule (.refl _)
  | thunk => cases built

theorem cull_spares (ranged : g.Ranged false) (lt : g.size > id)
    (run : Grammar.cull id g = .ok (result, g')) : g.Spares g' :=
  spares_of_shrunk fun x node there _ => (cull_shrinks ranged lt run).1.node x node there

end Actions

end DerivativeParsing
