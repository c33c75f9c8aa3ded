import DerivativeParsing.Proofs.Ends
import DerivativeParsing.Proofs.Meanings

/-!
# Spans and their parts

The trees of a span are made of those of its parts. Two orders tell parts from the whole.

1. `Span.Lighter`: a span that is derived has parts that are derived and weigh less: their words
   have no higher rank, and if they have the same rank and length, their nodes come earlier. So a
   way down through such parts never comes back to where it was (`Rooted.lighter_alt` and so on).
2. `Span.Beneath`: every part covers no more than the whole, and if it covers as much, what stands
   alone in it stands alone in the whole, or in a rule that does. So a span comes up beneath itself
   only if some rule stands alone in itself (`not_beneath_self`).
-/

namespace DerivativeParsing

open Grammar (lt_size_of_get?)

/-! ## Rules that stand alone in themselves -/

/-- Whether a rule stands alone in itself, or in one that stands alone in it, and so on. -/
def Links.Circular (links : Links) : Prop := ∃ a, Relation.TransGen links.alone a a

theorem Links.Circular.entangled {links : Links} (h : links.Circular)
    (leads : ∀ a b, links.alone a b → links.leads a b) : links.Entangled := by
  obtain ⟨a, cycle⟩ := h
  obtain ⟨b, way, back⟩ := Relation.TransGen.tail'_iff.mp cycle
  rcases Relation.reflTransGen_iff_eq_or_transGen.mp way with rfl | way
  · exact ⟨b, b, .single (leads b b back), back⟩
  · exact ⟨a, b, Relation.TransGen.mono leads a b way, back⟩

theorem Language.StandsAlone.leads {rules : List (String × Language)} {lang : Language} {x : String}
    (h : lang.StandsAlone rules x) : lang.Leads rules x := by
  induction lang with
  | epsilon | token => exact h
  | alt left right ihl ihr => exact h.imp ihl ihr
  | cat left right ihl ihr => exact h.imp (fun h => ihl h.1) fun h => ⟨h.1, ihr h.2⟩
  | rep body ih => exact ih h
  | rule name => exact h

/-- Rules of which none is entangled stand alone in none of themselves. -/
theorem Language.not_circular {rules : List (String × Language)}
    (h : ¬(Language.links rules).Entangled) : ¬(Language.links rules).Circular :=
  fun circular =>
    h (circular.entangled fun _ _ ⟨lang, member, alone⟩ => ⟨lang, member, alone.leads⟩)

/-! ## Weights -/

theorem Lower.trans {n : Nat} {a b c : Nat → Nat} (hab : Lower n a b) (hbc : Lower n b c) :
    Lower n a c := by
  obtain ⟨i, hi, before, lt⟩ := hab
  obtain ⟨j, hj, before', lt'⟩ := hbc
  rcases Nat.lt_trichotomy i j with first | rfl | later
  · exact ⟨i, hi, fun k hk => Nat.le_trans (before k hk) (before' k (Nat.lt_trans hk first)),
      Nat.lt_of_lt_of_le lt (before' i first)⟩
  · exact ⟨i, hi, fun k hk => Nat.le_trans (before k hk) (before' k hk), Nat.lt_trans lt lt'⟩
  · exact ⟨j, hj, fun k hk => Nat.le_trans (before k (Nat.lt_trans hk later)) (before' k hk),
      Nat.lt_of_le_of_lt (before j later) lt'⟩

namespace Span

section Weight

variable {L : Type} (W : World) (input : List (Symbol L))

/-- The least rank of the word of a span. -/
noncomputable def rank (s : Span) : Nat :=
  sInf {n | (W s.node).words n (stretch input s.start s.stop)}

/-- What goes down from a span to some of its parts. -/
noncomputable def weight (s : Span) : Nat → Nat
  | 0 => s.rank W input
  | 1 => s.stop - s.start
  | _ => s.node

/-- One span weighs less than another. -/
def Lighter (p s : Span) : Prop := Lower 3 (p.weight W input) (s.weight W input)

variable {W input} {p q s : Span} {n : Nat}

theorem Lighter.trans (h : p.Lighter W input q) (h' : q.Lighter W input s) : p.Lighter W input s :=
  Lower.trans h h'

theorem not_lighter_self : ¬s.Lighter W input s := fun ⟨_, _, _, lt⟩ => Nat.lt_irrefl _ lt

theorem rank_le (h : (W s.node).words.Upto n (stretch input s.start s.stop)) :
    s.rank W input ≤ n := by
  obtain ⟨m, hm, h⟩ := h
  exact Nat.le_trans (Nat.sInf_le h) hm

theorem words_rank (h : (W s.node).words.Holds (stretch input s.start s.stop)) :
    (W s.node).words (s.rank W input) (stretch input s.start s.stop) := Nat.sInf_mem h

theorem lighter_of_rank (lt : p.rank W input < s.rank W input) : p.Lighter W input s :=
  ⟨0, by omega, nofun, lt⟩

theorem lighter_of_shorter (le : p.rank W input ≤ s.rank W input)
    (lt : p.stop - p.start < s.stop - s.start) : p.Lighter W input s := by
  refine ⟨1, by omega, fun j hj => ?_, lt⟩
  obtain rfl : j = 0 := by omega
  exact le

theorem lighter_of_inner (le : p.rank W input ≤ s.rank W input)
    (short : p.stop - p.start ≤ s.stop - s.start) (lt : p.node < s.node) : p.Lighter W input s := by
  refine ⟨2, by omega, fun j hj => ?_, lt⟩
  obtain rfl | rfl : j = 0 ∨ j = 1 := by omega
  · exact le
  · exact short

end Weight

/-! ## Spans beneath others -/

/-- What stands alone in the node `y` stands alone in `x`, which comes later, or in a rule that
does. -/
def Covers (links : Links) (W : World) (x y : NodeId) : Prop :=
  y < x ∧ (∀ a, (W y).alone a → (W x).alone a) ∨
    ∃ a, (W x).alone a ∧ ∀ b, (W y).alone b → Relation.TransGen links.alone a b

/-- The span `p` may come up beneath the span `s`. -/
structure Beneath (links : Links) (W : World) (p s : Span) : Prop where
  start : s.start ≤ p.start
  stop : p.stop ≤ s.stop
  covers : p.start = s.start → p.stop = s.stop → Covers links W s.node p.node

variable {links : Links} {W W' : World} {p q s : Span} {x y z : NodeId}

theorem Covers.trans (h : Covers links W x y) (h' : Covers links W y z) : Covers links W x z := by
  rcases h with ⟨lt, sub⟩ | ⟨a, here, later⟩
  · rcases h' with ⟨lt', sub'⟩ | ⟨b, here', later'⟩
    · exact .inl ⟨Nat.lt_trans lt' lt, fun c hc => sub c (sub' c hc)⟩
    · exact .inr ⟨b, sub b here', later'⟩
  · rcases h' with ⟨-, sub'⟩ | ⟨b, here', later'⟩
    · exact .inr ⟨a, here, fun c hc => later c (sub' c hc)⟩
    · exact .inr ⟨a, here, fun c hc => (later b here').trans (later' c hc)⟩

theorem Beneath.trans (h : p.Beneath links W q) (h' : q.Beneath links W s) :
    p.Beneath links W s where
  start := Nat.le_trans h'.start h.start
  stop := Nat.le_trans h.stop h'.stop
  covers start stop := by
    have := h.start
    have := h.stop
    have := h'.start
    have := h'.stop
    exact (h'.covers (by omega) (by omega)).trans (h.covers (by omega) (by omega))

/-- A span comes up beneath itself only if a rule stands alone in itself. -/
theorem not_beneath_self (h : ¬links.Circular) : ¬s.Beneath links W s := by
  intro beneath
  rcases beneath.covers rfl rfl with ⟨lt, -⟩ | ⟨a, here, later⟩
  · exact Nat.lt_irrefl _ lt
  · exact h ⟨a, later a here⟩

end Span

/-! ## The parts of a root -/

section Parts

open DerivativeParsing.Span (rank_le words_rank lighter_of_rank lighter_of_shorter lighter_of_inner)

variable {L : Type} [DecidableEq L] {links : Links} {D : Readings L} {O : NodeId → Prop} {W : World}
  {g : Grammar L} {start : NodeId} {input : List (Symbol L)} {x left right body : NodeId} {r : Rule}
  {i j m : Nat}

namespace Rooted

variable (rooted : Rooted D O W g start) (good : Good links W g) (hx : O x)
include rooted good hx

section Beneath

omit good in
/-- What stands alone in a node that lies within another stands alone in the other. -/
theorem alone_of_within (hy : O y) (h : (W y).Within (W x)) : ∀ a, (W y).alone a → (W x).alone a :=
  (h.2 ((rooted.trace y hy).trans (rooted.trace x hx).symm)).2

theorem beneath_alt (there : g.arena.get? x = some (.alt left right)) :
    Span.Beneath links W ⟨left, i, j⟩ ⟨x, i, j⟩ ∧ Span.Beneath links W ⟨right, i, j⟩ ⟨x, i, j⟩ := by
  obtain ⟨hl, hr⟩ := good.formed.node x _ there
  obtain ⟨refl, refr⟩ := good.sound.node x _ there
  have inside := rooted.pristine.closed x _ hx there
  exact ⟨⟨Nat.le_refl _, Nat.le_refl _, fun _ _ =>
      .inl ⟨hl.1, rooted.alone_of_within hx (inside _ (.head _)) refl.2⟩⟩,
    ⟨Nat.le_refl _, Nat.le_refl _, fun _ _ =>
      .inl ⟨hr.1, rooted.alone_of_within hx (inside _ (.tail _ (.head _))) refr.2⟩⟩⟩

theorem beneath_rule (there : g.arena.get? x = some (.rule r body)) :
    Span.Beneath links W ⟨body, i, j⟩ ⟨x, i, j⟩ := by
  obtain ⟨names, -⟩ := good.sound.node x _ there
  have hb := rooted.pristine.closed x _ hx there _ (.head _)
  refine ⟨Nat.le_refl _,
    Nat.le_refl _, fun _ _ => .inr ⟨r.name, names.alone, fun b hb' => .single ?_⟩⟩
  exact names.alone_body ((rooted.trace body hb).trans (rooted.trace x hx).symm) b hb'

/-- The right part of a sequence, if the left part is derived. -/
theorem beneath_right (there : g.arena.get? x = some (.cat left right))
    (hl : g.Spans input left i m) : Span.Beneath links W ⟨right, m, j⟩ ⟨x, i, j⟩ := by
  have joins : (W left).Joins (W right) (W x) := good.sound.node x _ there
  obtain ⟨t, ht⟩ := hl
  refine ⟨ht.le, Nat.le_refl _, fun same _ => .inl ⟨(good.formed.node x _ there).2.1, ?_⟩⟩
  obtain rfl : m = i := same
  have null := ht.holds good.sound
  rw [stretch_self] at null
  exact joins.alone_right (rooted.trace x hx) null

/-- The left part of a sequence, if the right part is derived. -/
theorem beneath_left (there : g.arena.get? x = some (.cat left right))
    (hr : g.Spans input right m j) : Span.Beneath links W ⟨left, i, m⟩ ⟨x, i, j⟩ := by
  have joins : (W left).Joins (W right) (W x) := good.sound.node x _ there
  have hl := rooted.pristine.closed x _ hx there _ (.head _)
  obtain ⟨t, ht⟩ := hr
  refine ⟨Nat.le_refl _, ht.le, fun _ same => .inl ⟨(good.formed.node x _ there).1.1, ?_⟩⟩
  obtain rfl : m = j := same
  have null := ht.holds good.sound
  rw [stretch_self] at null
  exact joins.alone_left ((rooted.trace left hl).trans (rooted.trace x hx).symm) null

theorem beneath_item (there : g.arena.get? x = some (.rep body)) (hm : m ≤ j) :
    Span.Beneath links W ⟨body, i, m⟩ ⟨x, i, j⟩ := by
  have repeats : (W body).Repeats (W x) := good.sound.node x _ there
  have hb := rooted.pristine.closed x _ hx there _ (.head _)
  exact ⟨Nat.le_refl _,
    hm, fun _ _ => .inl ⟨(good.formed.node x _ there).1, rooted.alone_of_within hx hb repeats.body⟩⟩

end Beneath

section Lighter

variable (complete : Complete W g 0)
include complete

omit good in
/-- The parts of a root claim no less than it stands for. -/
theorem supports {node : Node L} (there : g.arena.get? x = some node) : W.Supports x node := by
  refine (complete.node x node there).supports ?_
  show (W x).trace.length ≤ 0
  rw [rooted.trace x hx]
  exact Nat.le_refl 0

variable (le : i ≤ input.length) (h : g.Spans input x i j)
include le h

theorem lighter_alt (there : g.arena.get? x = some (.alt left right)) :
    (g.Spans input left i j ∧ Span.Lighter W input ⟨left, i, j⟩ ⟨x, i, j⟩) ∨
      g.Spans input right i j ∧ Span.Lighter W input ⟨right, i, j⟩ ⟨x, i, j⟩ := by
  obtain ⟨hij, hj, holds⟩ := (rooted.spans_iff good hx le).mp h
  have inside := rooted.pristine.closed x _ hx there
  have hl : O left := inside _ (.head _)
  have hr : O right := inside _ (.tail _ (.head _))
  obtain ⟨partl, partr⟩ := good.formed.node x _ there
  rcases rooted.supports hx complete there _ _ (words_rank (s := ⟨x, i, j⟩) holds) with hw | hw
  · exact .inl ⟨(rooted.spans_iff good hl le).mpr ⟨hij, hj, hw.holds⟩,
      lighter_of_inner (rank_le hw) (Nat.le_refl _) partl.1⟩
  · exact .inr ⟨(rooted.spans_iff good hr le).mpr ⟨hij, hj, hw.holds⟩,
      lighter_of_inner (rank_le hw) (Nat.le_refl _) partr.1⟩

theorem lighter_rule (there : g.arena.get? x = some (.rule r body)) :
    g.Spans input body i j ∧ Span.Lighter W input ⟨body, i, j⟩ ⟨x, i, j⟩ := by
  obtain ⟨hij, hj, holds⟩ := (rooted.spans_iff good hx le).mp h
  have hb : O body := rooted.pristine.closed x _ hx there _ (.head _)
  obtain ⟨m, lt, hw⟩ := rooted.supports hx complete there _ _ (words_rank (s := ⟨x, i, j⟩) holds)
  exact ⟨(rooted.spans_iff good hb le).mpr ⟨hij, hj, m, hw⟩,
    lighter_of_rank (Nat.lt_of_le_of_lt (rank_le (Ranked.upto_self hw)) lt)⟩

theorem lighter_cat (there : g.arena.get? x = some (.cat left right)) : ∃ m,
    (g.Spans input left i m ∧ Span.Lighter W input ⟨left, i, m⟩ ⟨x, i, j⟩) ∧
      g.Spans input right m j ∧ Span.Lighter W input ⟨right, m, j⟩ ⟨x, i, j⟩ := by
  obtain ⟨hij, hj, holds⟩ := (rooted.spans_iff good hx le).mp h
  have inside := rooted.pristine.closed x _ hx there
  have hl : O left := inside _ (.head _)
  have hr : O right := inside _ (.tail _ (.head _))
  obtain ⟨partl, partr⟩ := good.formed.node x _ there
  obtain ⟨u, v, word, hu, hv⟩ :=
    rooted.supports hx complete there _ _ (words_rank (s := ⟨x, i, j⟩) holds)
  obtain ⟨m, him, hmj, rfl, rfl⟩ := exists_middle hij hj word
  have hm := Nat.le_trans hmj hj
  exact ⟨m, ⟨(rooted.spans_iff good hl le).mpr ⟨him, hm, hu.holds⟩,
      lighter_of_inner (rank_le hu) (Nat.sub_le_sub_right hmj i) partl.1⟩,
    (rooted.spans_iff good hr hm).mpr ⟨hmj, hj, hv.holds⟩,
      lighter_of_inner (rank_le hv) (Nat.sub_le_sub_left him j) partr.1⟩

theorem lighter_rep (there : g.arena.get? x = some (.rep body)) (lt : i < j) : ∃ m, i < m ∧
    (g.Spans input body i m ∧ Span.Lighter W input ⟨body, i, m⟩ ⟨x, i, j⟩) ∧
      g.Spans input x m j ∧ Span.Lighter W input ⟨x, m, j⟩ ⟨x, i, j⟩ := by
  obtain ⟨hij, hj, holds⟩ := (rooted.spans_iff good hx le).mp h
  have hb : O body := rooted.pristine.closed x _ hx there _ (.head _)
  rcases rooted.supports hx complete there _ _ (words_rank (s := ⟨x, i, j⟩) holds) with
    none | ⟨c, u, v, word, hu, hv⟩
  · exact absurd (eq_of_stretch_eq_nil hij hj none) (Nat.ne_of_lt lt)
  · obtain ⟨m, him, hmj, item, rfl⟩ := exists_middle hij hj word
    have hm := Nat.le_trans hmj hj
    -- the item has a symbol
    have consumes : i < m := by
      refine Nat.lt_of_le_of_ne him fun same => ?_
      rw [same, stretch_self] at item
      cases item
    rw [← item] at hu
    exact ⟨m, consumes, ⟨(rooted.spans_iff good hb le).mpr ⟨him, hm, hu.holds⟩,
        lighter_of_inner (rank_le hu) (Nat.sub_le_sub_right hmj i) (good.formed.node x _ there).1⟩,
      (rooted.spans_iff good hx hm).mpr ⟨hmj, hj, hv.holds⟩,
        lighter_of_shorter (rank_le hv) (by dsimp only; omega)⟩

end Lighter

/-! ### What is borne -/

section Bears

variable {P : Set Span} {s : Span} {q : Sequence} {c : NodeId} {f : Forest (Symbol L)}
  {t : Tree (Symbol L)}

omit good hx in
theorem root_past (hs : O s.node) (past : g.Past input s c) : O c := by
  cases past with
  | left there => exact rooted.pristine.closed _ _ hs there _ (.head _)
  | right there => exact rooted.pristine.closed _ _ hs there _ (.tail _ (.head _))

omit good hx in
theorem roots_divides (hs : O s.node) (divides : g.Divides s q) : O q.left ∧ O q.right := by
  cases divides with
  | cat there =>
    have inside := rooted.pristine.closed _ _ hs there
    exact ⟨inside _ (.head _), inside _ (.tail _ (.head _))⟩
  | rep there => exact ⟨rooted.pristine.closed _ _ hs there _ (.head _), hs⟩

omit hx in
theorem beneath_past (hs : O s.node) (past : g.Past input s c) :
    Span.Beneath links W { s with node := c } s := by
  cases past with
  | left there => exact (rooted.beneath_alt good hs there).1
  | right there => exact (rooted.beneath_alt good hs there).2

omit hx in
/-- The parts of a sequence lie beneath the whole, if the left one is derived. -/
theorem beneath_divides (hs : O s.node) (divides : g.Divides s q) (admits : q.Admits m)
    (hl : g.Derivable input (q.before m)) : (q.behind m).Beneath links W s ∧
      (g.Derivable input (q.behind m) → (q.before m).Beneath links W s) := by
  cases divides with
  | cat there => exact ⟨rooted.beneath_right good hs there hl, rooted.beneath_left good hs there⟩
  | rep there =>
    obtain ⟨_, item⟩ := hl
    exact ⟨⟨item.le, Nat.le_refl _, fun same _ => absurd same (admits.2 rfl)⟩,
      fun _ => rooted.beneath_item good hs there admits.1⟩

omit hx in
/-- If no rule stands alone in itself, a span bears all trees of its derivations. By induction on
how its trees come about: no span comes up inside itself. -/
theorem mem_of_bears (straight : ¬links.Circular) (bears : g.Bears input P s f) (hs : O s.node)
    (deep : ∀ p ∈ P, s.Beneath links W p) (ht : g.Derives input s t) : t ∈ f.trees := by
  have below {p s : Span} {P : Set Span} (deep : ∀ p ∈ P, s.Beneath links W p)
      (beneath : p.Beneath links W s) : ∀ p' ∈ insert s P, p.Beneath links W p' := by
    rintro p' (rfl | inside)
    · exact beneath
    · exact beneath.trans (deep p' inside)
  induction bears generalizing t with
  | none none => exact absurd ⟨t, ht⟩ none
  | cut _ inside => exact absurd (deep _ inside) (Span.not_beneath_self straight)
  | past past _ ih =>
    have beneath := rooted.beneath_past good hs past
    exact ih (rooted.root_past hs past) (fun p inside => beneath.trans (deep p inside))
      (past.derives_iff.mp ht)
  | single single _ derives => exact List.mem_singleton.mpr (single.derives_unique ht derives)
  | alt there _ _ _ _ ihl ihr =>
    have inside := rooted.pristine.closed _ _ hs there
    obtain ⟨beneathl, beneathr⟩ := rooted.beneath_alt good hs there
    exact Forest.mem_union.mpr (((Grammar.derivation_alt there).mp ht).imp
      (ihl (inside _ (.head _)) (below deep beneathl))
      (ihr (inside _ (.tail _ (.head _))) (below deep beneathr)))
  | rule there _ _ ih =>
    exact ih (rooted.pristine.closed _ _ hs there _ (.head _))
      (below deep (rooted.beneath_rule good hs there))
      ((Grammar.derivation_rule there).mp ht)
  | split divides _ _ middles _ _ ihr ihl =>
    obtain ⟨m, admits, l, r, hl, hr, same⟩ := divides.derives_iff.mp ht
    obtain ⟨p, hp, rfl⟩ := List.mem_map.mp ((middles m).mpr ⟨admits, l, hl⟩)
    obtain ⟨rootl, rootr⟩ := rooted.roots_divides hs divides
    obtain ⟨beneathr, beneathl⟩ := rooted.beneath_divides good hs divides admits ⟨l, hl⟩
    have memr : r ∈ p.right.trees := ihr p hp rootr (below deep beneathr) hr
    have some : p.right ≠ .empty := by
      intro none
      rw [none] at memr
      cases memr
    have meml : l ∈ p.left.trees := ihl p hp some rootl (below deep (beneathl ⟨r, hr⟩)) hl
    exact Joint.mem_gather.mpr (.inr ⟨p, hp, Joint.mem_trees.mpr ⟨l, meml, r, memr, same⟩⟩)

variable (complete : Complete W g 0)
include complete

omit hx in
theorem lighter_divides (hs : O s.node) (divides : g.Divides s q) (le : s.start ≤ input.length)
    (live : g.Derivable input s) : ∃ m, q.Admits m ∧
      (g.Derivable input (q.before m) ∧ (q.before m).Lighter W input s) ∧
        g.Derivable input (q.behind m) ∧ (q.behind m).Lighter W input s := by
  cases divides with
  | cat there =>
    obtain ⟨m, partl, partr⟩ := rooted.lighter_cat good hs complete le live there
    obtain ⟨t, ht⟩ := partr.1
    exact ⟨m, ⟨ht.le, nofun⟩, partl, partr⟩
  | rep there lt =>
    obtain ⟨m, consumes, partl, partr⟩ := rooted.lighter_rep good hs complete le live there lt
    obtain ⟨t, ht⟩ := partr.1
    exact ⟨m, ⟨ht.le, fun _ => Nat.ne_of_gt consumes⟩, partl, partr⟩

omit hx in
/-- A span that is derived bears a tree, if it weighs less than the spans around it. By induction on
how its trees come about: there is a way down through lighter spans. -/
theorem exists_mem_of_bears (bears : g.Bears input P s f) (hs : O s.node)
    (le : s.start ≤ input.length) (live : g.Derivable input s)
    (light : ∀ p ∈ P, s.Lighter W input p) : ∃ t, t ∈ f.trees := by
  have below {p s : Span} {P : Set Span} (light : ∀ p ∈ P, s.Lighter W input p)
      (lighter : p.Lighter W input s) : ∀ p' ∈ insert s P, p.Lighter W input p' := by
    rintro p' (rfl | inside)
    · exact lighter
    · exact lighter.trans (light p' inside)
  induction bears with
  | none none => exact absurd live none
  | cut _ inside => exact absurd (light _ inside) Span.not_lighter_self
  | past past _ ih =>
    cases past with
    | left there none =>
      obtain ⟨live', lighter⟩ :=
        (rooted.lighter_alt good hs complete le live there).resolve_right fun h => none h.1
      exact ih (rooted.root_past hs (.left there none))
        le live' fun p inside => lighter.trans (light p inside)
    | right there none =>
      obtain ⟨live', lighter⟩ :=
        (rooted.lighter_alt good hs complete le live there).resolve_left fun h => none h.1
      exact ih (rooted.root_past hs (.right there none))
        le live' fun p inside => lighter.trans (light p inside)
  | single => exact ⟨_, .head _⟩
  | alt there _ _ _ _ ihl ihr =>
    have inside := rooted.pristine.closed _ _ hs there
    rcases rooted.lighter_alt good hs complete le live there with ⟨live', lighter⟩
      | ⟨live', lighter⟩
    · obtain ⟨t, ht⟩ := ihl (inside _ (.head _)) le live' (below light lighter)
      exact ⟨t, Forest.mem_union.mpr (.inl ht)⟩
    · obtain ⟨t, ht⟩ := ihr (inside _ (.tail _ (.head _))) le live' (below light lighter)
      exact ⟨t, Forest.mem_union.mpr (.inr ht)⟩
  | rule there _ _ ih =>
    obtain ⟨live', lighter⟩ := rooted.lighter_rule good hs complete le live there
    exact ih (rooted.pristine.closed _ _ hs there _ (.head _)) le live' (below light lighter)
  | split divides _ _ middles _ _ ihr ihl =>
    obtain ⟨m, admits, ⟨livel, lighterl⟩, liver, lighterr⟩ :=
      rooted.lighter_divides good complete hs divides le live
    obtain ⟨p, hp, rfl⟩ := List.mem_map.mp ((middles m).mpr ⟨admits, livel⟩)
    obtain ⟨rootl, rootr⟩ := rooted.roots_divides hs divides
    have lel := divides.start_eq.trans_le le
    obtain ⟨_, hl⟩ := livel
    obtain ⟨r, memr⟩ := ihr p hp rootr (hl.stop_le lel) liver (below light lighterr)
    have some : p.right ≠ .empty := by
      intro none
      rw [none] at memr
      cases memr
    obtain ⟨l, meml⟩ := ihl p hp some rootl lel ⟨_, hl⟩ (below light lighterl)
    exact ⟨l.join r,
      Joint.mem_gather.mpr (.inr ⟨p, hp, Joint.mem_trees.mpr ⟨l, meml, r, memr, rfl⟩⟩)⟩

end Bears

end Rooted

end Parts

end DerivativeParsing
