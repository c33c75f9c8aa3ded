import DerivativeParsing.Proofs.Bearing
import DerivativeParsing.Proofs.Collecting

/-!
# The roots of a grammar

A grammar grows derivatives, but the nodes that it was built from stay its roots: they keep their
derivations, and stand for the words of these exactly.

1. `stretch` is the word of a stretch of the input.
2. `Grammar.Derivation.holds`: a node stands for the words that it derives.
   `Grammar.Derivation.matches_stretch`, `Grammar.Matches.derivation`: what a pristine node matches,
   it derives, and the other way around.
3. `Rooted` says that a grammar still has its roots. Actions and collections leave them
   (`Rooted.carried`, `Rooted.moved`).
4. `Relocates` says under which names the roots of a grammar are found in another.
-/

namespace DerivativeParsing

variable {L : Type}

/-! ## Stretches of an input -/

/-- The kinds of the symbols from one position to another. -/
def stretch (input : List (Symbol L)) (i j : Nat) : Word := (input.extract i j).map Symbol.kind

section Stretch

variable {input : List (Symbol L)} {i j k : Nat} {u v : Word}

theorem stretch_eq (input : List (Symbol L)) (i j : Nat) :
    stretch input i j = ((input.map Symbol.kind).drop i).take (j - i) := by
  rw [stretch, List.extract_eq_take_drop, List.map_take, List.map_drop]

@[simp] theorem stretch_self (input : List (Symbol L)) (i : Nat) : stretch input i i = [] := by
  rw [stretch_eq, Nat.sub_self, List.take_zero]

theorem stretch_all (input : List (Symbol L)) :
    stretch input 0 input.length = input.map Symbol.kind := by
  rw [stretch_eq, List.drop_zero, List.take_of_length_le (by simp)]

theorem length_stretch (le : j ≤ input.length) : (stretch input i j).length = j - i := by
  rw [stretch_eq, List.length_take, List.length_drop, List.length_map]
  omega

theorem stretch_append (hij : i ≤ j) (hjk : j ≤ k) :
    stretch input i j ++ stretch input j k = stretch input i k := by
  rw [stretch_eq, stretch_eq, stretch_eq, show k - i = (j - i) + (k - j) by
    omega, List.take_add, List.drop_drop, show i + (j - i) = j by omega]

theorem eq_of_stretch_eq_nil (hij : i ≤ j) (le : j ≤ input.length) (h : stretch input i j = []) :
    i = j := by
  have := length_stretch (i := i) le
  rw [h, List.length_nil] at this
  omega

theorem stretch_succ {s : Symbol L} (here : input[i]? = some s) :
    stretch input i (i + 1) = [s.kind] := by
  obtain ⟨lt, rfl⟩ := List.getElem?_eq_some_iff.mp here
  rw [stretch_eq, Nat.add_sub_cancel_left, List.drop_eq_getElem_cons (by simpa using lt),
    List.take_succ_cons, List.take_zero, List.getElem_map]

theorem exists_middle (hij : i ≤ j) (le : j ≤ input.length) (h : stretch input i j = u ++ v) :
    ∃ m, i ≤ m ∧ m ≤ j ∧ stretch input i m = u ∧ stretch input m j = v := by
  have length := length_stretch (i := i) le
  rw [h, List.length_append] at length
  refine ⟨i + u.length, Nat.le_add_right _ _, by omega, ?_⟩
  rw [← stretch_append (Nat.le_add_right i u.length) (by omega)] at h
  exact List.append_inj h (by rw [length_stretch (by omega)]; omega)

theorem exists_symbol {kind : Kind} (hij : i ≤ j) (le : j ≤ input.length)
    (h : stretch input i j = [kind]) : ∃ s, input[i]? = some s ∧ s.kind = kind ∧ j = i + 1 := by
  have length := length_stretch (i := i) le
  rw [h, List.length_singleton] at length
  obtain rfl : j = i + 1 := by omega
  have here := List.getElem?_eq_getElem (l := input) (i := i) (by omega)
  refine ⟨_, here, ?_, rfl⟩
  rw [stretch_succ here] at h
  exact (List.cons.inj h).1

end Stretch

/-! ## Derivations and words -/

section Words

variable [DecidableEq L] {links : Links} {W : World} {g : Grammar L} {O : NodeId → Prop}
  {input : List (Symbol L)} {x : NodeId} {i j : Nat} {t : Tree (Symbol L)} {w : Word}

/-- A node stands for what it derives. -/
theorem Grammar.Derivation.holds (h : g.Derivation input x i j t) (sound : Sound links W g) :
    (W x).words.Holds (stretch input i j) := by
  induction h with
  | @epsilon id i there =>
    rw [stretch_self]
    exact (sound.node id _ there) [] (.inl ⟨rfl, rfl⟩)
  | @token id i kind symbol there terminal here same =>
    rw [stretch_succ here, same]
    exact (sound.node id _ there) [kind] (.inr ⟨terminal, rfl⟩)
  | @alt_left id _ _ _ _ _ there _ ih => exact (sound.node id _ there).1.1 _ ih
  | @alt_right id _ _ _ _ _ there _ ih => exact (sound.node id _ there).2.1 _ ih
  | @cat id _ _ _ _ _ _ _ there hl hr ihl ihr =>
    rw [← stretch_append hl.le hr.le]
    exact (sound.node id _ there).words _ _ ihl ihr
  | @rep_nil id _ i there =>
    rw [stretch_self]
    exact (sound.node id _ there).nil
  | @rep_cons id _ _ _ _ _ _ there _ hb hr ihb ihr =>
    rw [← stretch_append hb.le hr.le]
    exact (sound.node id _ there).words _ _ ihb ihr
  | @rule id _ _ _ _ _ there _ ih => exact (sound.node id _ there).1.words _ ih

omit [DecidableEq L] in
/-- What a node derives, it matches. -/
theorem Grammar.Derivation.matches_stretch (h : g.Derivation input x i j t) :
    g.Matches x (stretch input i j) := by
  induction h with
  | epsilon there => exact stretch_self input _ ▸ .epsilon there
  | token there terminal here same => exact stretch_succ here ▸ same ▸ .token there terminal
  | alt_left there _ ih => exact .alt_left there ih
  | alt_right there _ ih => exact .alt_right there ih
  | cat there hl hr ihl ihr => exact stretch_append hl.le hr.le ▸ .cat there ihl ihr
  | rep_nil there => exact stretch_self input _ ▸ .rep_nil there
  | rep_cons there _ hb hr ihb ihr => exact stretch_append hb.le hr.le ▸ .rep_cons there ihb ihr
  | rule there _ ih => exact .rule there ih

omit [DecidableEq L] in
/-- A pristine node derives what it matches. -/
theorem Grammar.Matches.derivation (h : g.Matches x w) (pristine : g.Pristine O) (hx : O x)
    (hij : i ≤ j) (le : j ≤ input.length) (word : stretch input i j = w) :
    ∃ t, g.Derivation input x i j t := by
  have part {x y : NodeId} {node : Node L} (hx : O x) (there : g.arena.get? x = some node)
      (member : y ∈ node.successors false) : O y := pristine.closed x node hx there y member
  have unbuilt {x : NodeId} {node : Node L} (hx : O x) (there : g.arena.get? x = some node) :
      node.isBuilt := by
    obtain ⟨node', there', built⟩ := pristine.node x hx
    exact Option.some.inj (there.symm.trans there') ▸ built
  induction h generalizing i j with
  | epsilon there =>
    obtain rfl := eq_of_stretch_eq_nil hij le word
    exact ⟨_, .epsilon there⟩
  | token there terminal =>
    obtain ⟨s, here, same, rfl⟩ := exists_symbol hij le word
    exact ⟨_, .token there terminal here same⟩
  | matched there => cases unbuilt hx there
  | alt_left there _ ih =>
    obtain ⟨t, h⟩ := ih (part hx there (.head _)) hij le word
    exact ⟨t, .alt_left there h⟩
  | alt_right there _ ih =>
    obtain ⟨t, h⟩ := ih (part hx there (.tail _ (.head _))) hij le word
    exact ⟨t, .alt_right there h⟩
  | cat there _ _ ihl ihr =>
    obtain ⟨m, him, hmj, hu, hv⟩ := exists_middle hij le word
    obtain ⟨s, hl⟩ := ihl (part hx there (.head _)) him (Nat.le_trans hmj le) hu
    obtain ⟨t, hr⟩ := ihr (part hx there (.tail _ (.head _))) hmj le hv
    exact ⟨_, .cat there hl hr⟩
  | rep_nil there =>
    obtain rfl := eq_of_stretch_eq_nil hij le word
    exact ⟨_, .rep_nil there⟩
  | rep_cons there _ _ ihb ihr =>
    obtain ⟨m, him, hmj, hu, hv⟩ := exists_middle hij le word
    obtain ⟨t, hr⟩ := ihr hx hmj le hv
    -- an iteration that consumes nothing is left out
    rcases Nat.eq_or_lt_of_le him with rfl | lt
    · exact ⟨t, hr⟩
    · obtain ⟨s, hb⟩ := ihb (part hx there (.head _)) him (Nat.le_trans hmj le) hu
      exact ⟨_, .rep_cons there lt hb hr⟩
  | rule there _ ih =>
    obtain ⟨t, h⟩ := ih (part hx there (.head _)) hij le word
    exact ⟨t, .rule there h⟩
  | resolved there | waiting there => cases unbuilt hx there

end Words

/-! ## Roots -/

/-- How inputs may be read: the trees of their stretches, and the forests of whole inputs. -/
structure Readings (L : Type) where
  derives : List (Symbol L) → Nat → Nat → Tree (Symbol L) → Prop
  bears : List (Symbol L) → Forest (Symbol L) → Prop

/-- How a node reads inputs. -/
def Grammar.readings [DecidableEq L] (g : Grammar L) (start : NodeId) : Readings L where
  derives input := g.Derivation input start
  bears input := g.Bears input ∅ ⟨start, 0, input.length⟩

/-- A grammar has the roots `O`. The start among them reads inputs as `D`, nothing is derived from
any of them yet, and they derive all that they stand for. -/
structure Rooted [DecidableEq L] (D : Readings L) (O : NodeId → Prop) (W : World) (g : Grammar L)
    (start : NodeId) : Prop where
  pristine : g.Pristine O
  root : O start
  derives : ∀ input i j t, g.Derivation input start i j t ↔ D.derives input i j t
  bears : ∀ input f, g.Bears input ∅ ⟨start, 0, input.length⟩ f → D.bears input f
  trace : ∀ x, O x → (W x).trace = []
  derived : ∀ x, O x → ∀ (input : List (Symbol L)) i j, i ≤ j → j ≤ input.length →
    (W x).words.Holds (stretch input i j) → ∃ t, g.Derivation input x i j t

namespace Rooted

variable [DecidableEq L] {links : Links} {D : Readings L} {O : NodeId → Prop} {W W' : World}
  {g g' : Grammar L} {start : NodeId}

theorem carried (h : Rooted D O W g start) (carries : Carries links W g W' g') :
    Rooted D O W' g' start := by
  have world {x : NodeId} (hx : O x) : W' x = W x := carries.world x (h.pristine.lt_size hx)
  have mirrors := carries.spares.mirrors h.pristine
  refine ⟨(carries.spares O h.pristine).1, h.root,
    fun input i j t =>
    (mirrors.derivation_iff ⟨h.root, rfl⟩).trans (h.derives input i j t), fun input f bears => ?_,
    fun x hx => world hx ▸ h.trace x hx, fun x hx input i j hij le holds => ?_⟩
  · have before := bears.mirrored mirrors (fun _ _ _ hy hz => hy.2.symm.trans hz.2)
      (fun _ _ _ hx hy => hx.2.trans hy.2.symm) ⟨h.root, rfl⟩
    rw [Grammar.mirrored_empty] at before
    exact h.bears input f before
  · rw [world hx] at holds
    obtain ⟨t, ht⟩ := h.derived x hx input i j hij le holds
    exact ⟨t, (mirrors.derivation_iff ⟨hx, rfl⟩).mpr ht⟩

theorem moved {place : NodeId → Option NodeId} (h : Rooted D O W g start)
    (moved : Grammar.Moved place g g') (kept : ∃ y, place start = some y) :
    Rooted D (fun j => ∃ i, place i = some j ∧ O i) (W.renamed place) g' (movedBy place start) := by
  obtain ⟨y, hy⟩ := kept
  rw [Grammar.movedBy_of_some hy]
  have mirrors := moved.mirrors h.pristine
  refine ⟨moved.pristine h.pristine, ⟨start, hy, h.root⟩,
    fun input i j t => (mirrors.derivation_iff ⟨hy, h.root⟩).trans
    (h.derives input i j t), fun input f bears => ?_, ?_, ?_⟩
  · have before :=
      bears.mirrored mirrors (fun _ _ _ hy hz => Option.some.inj (hy.1.symm.trans hz.1))
      (fun _ _ _ hx hy => moved.injective hx.1 hy.1) ⟨hy, h.root⟩
    rw [Grammar.mirrored_empty] at before
    exact h.bears input f before
  · rintro x ⟨i, hi, inside⟩
    rw [moved.renamed hi]
    exact h.trace i inside
  · rintro x ⟨i, hi, inside⟩ input a b hab le holds
    rw [moved.renamed hi] at holds
    obtain ⟨t, ht⟩ := h.derived i inside input a b hab le holds
    exact ⟨t, (mirrors.derivation_iff ⟨hi, inside⟩).mpr ht⟩

end Rooted

/-! ## Names of roots -/

/-- The roots of a grammar have names in another grammar, no two of them the same. The start has
one, and the node that matches nothing keeps its own. Roots that have one are roots there, and
derive what they derived. -/
structure Relocates [DecidableEq L] (names : NodeId → Option NodeId) (W : World) (g : Grammar L)
    (start : NodeId) (W' : World) (g' : Grammar L) (start' : NodeId) : Prop where
  injective : ∀ {x x' y}, names x = some y → names x' = some y → x = x'
  root : names start = some start'
  void : names Grammar.nothing = some Grammar.nothing
  rooted : ∀ {D O}, Rooted D O W g start →
    Rooted D (fun y => ∃ x, names x = some y ∧ O x) W' g' start'
  derives : ∀ {D O}, Rooted D O W g start → ∀ {x y}, O x → names x = some y → ∀ {input i j t},
    g'.Derivation input y i j t ↔ g.Derivation input x i j t

namespace Relocates

variable [DecidableEq L] {links : Links} {W W₁ W₂ W' : World} {g g₁ g₂ g' : Grammar L}
  {start start' start₁ start₂ : NodeId} {names names' : NodeId → Option NodeId}

theorem carried (carries : Carries links W g W' g') : Relocates some W g start W' g' start where
  injective same same' := (Option.some.inj same).trans (Option.some.inj same').symm
  root := rfl
  void := rfl
  rooted {D O} h := by
    have same : (fun y => ∃ x, some x = some y ∧ O x) = O := by
      funext y
      exact propext ⟨fun ⟨x, hx, inside⟩ => Option.some.inj hx ▸ inside, fun inside =>
        ⟨y, rfl, inside⟩⟩
    rw [same]
    exact h.carried carries
  derives h x y hx name := by
    cases name
    exact carries.spares.derivation_iff h.pristine hx

theorem moved {place : NodeId → Option NodeId} (moved : Grammar.Moved place g g')
    (kept : ∃ y, place start = some y) :
    Relocates place W g start (W.renamed place) g' (movedBy place start) where
  injective := moved.injective
  root := by
    obtain ⟨y, hy⟩ := kept
    rw [Grammar.movedBy_of_some hy, hy]
  void := moved.nothing
  rooted h := h.moved moved kept
  derives h _ _ hx name := (moved.mirrors h.pristine).derivation_iff ⟨name, hx⟩

theorem trans (h : Relocates names W g start W₁ g₁ start₁)
    (h' : Relocates names' W₁ g₁ start₁ W₂ g₂ start₂) :
    Relocates (fun x => (names x).bind names') W g start W₂ g₂ start₂ where
  injective {x x' y} same same' := by
    obtain ⟨z, hz, hy⟩ := Option.bind_eq_some_iff.mp same
    obtain ⟨z', hz', hy'⟩ := Option.bind_eq_some_iff.mp same'
    obtain rfl := h'.injective hy hy'
    exact h.injective hz hz'
  root := by rw [h.root, Option.bind_some, h'.root]
  void := by rw [h.void, Option.bind_some, h'.void]
  rooted {D O} rooted := by
    have same : (fun z => ∃ x, (names x).bind names' = some z ∧ O x) =
        fun z => ∃ y, names' y = some z ∧ ∃ x, names x = some y ∧ O x := by
      funext z
      refine propext ⟨fun ⟨x, hz, inside⟩ => ?_, fun ⟨y, hz, x, hy, inside⟩ => ⟨x, ?_, inside⟩⟩
      · obtain ⟨y, hy, hz⟩ := Option.bind_eq_some_iff.mp hz
        exact ⟨y, hz, x, hy, inside⟩
      · rw [hy, Option.bind_some, hz]
    rw [same]
    exact h'.rooted (h.rooted rooted)
  derives rooted x z hx name := by
    obtain ⟨y, hy, hz⟩ := Option.bind_eq_some_iff.mp name
    intro input i j t
    exact (h'.derives (h.rooted rooted) ⟨x, hy, hx⟩ hz).trans (h.derives rooted hx hy)

theorem alive (h : Relocates names W g start W' g' start') (alive : start ≠ Grammar.nothing) :
    start' ≠ Grammar.nothing := by
  rintro rfl
  exact alive (h.injective h.root h.void)

end Relocates

end DerivativeParsing
