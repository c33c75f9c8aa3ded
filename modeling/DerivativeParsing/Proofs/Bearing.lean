import DerivativeParsing.Forest.Extraction
import DerivativeParsing.Proofs.Sparing
import Mathlib.Data.List.Sort

/-!
# The trees that a span bears

A grammar may have cycles, so that a span has derivations in which it comes up inside itself. Trees
are enumerated without these: a span that comes up inside itself bears none.

1. `Sequence`: two nodes one after the other over a stretch, as which sequences and repetitions are
   read.
2. `Grammar.Bears` says which trees a span bears inside others, and in which order. A choice of
   which only one side derives the stretch is passed by: whether it comes up inside itself makes no
   difference, and edges may be led past it.
3. `Bears.sound`: the trees are those of derivations. `Bears.unique`: there is one order.
4. `Bears.mirrored`: nodes that look alike bear the same trees.
-/

namespace DerivativeParsing

/-! ## Sequences -/

/-- Two nodes one after the other over a stretch. With `consume`, the left one has to consume
something. -/
structure Sequence where
  left : NodeId
  right : NodeId
  start : Nat
  stop : Nat
  consume : Bool

namespace Sequence

variable (q : Sequence)

def before (m : Nat) : Span := ⟨q.left, q.start, m⟩

/-- The right part, if the left part ends at `m`. -/
def behind (m : Nat) : Span := ⟨q.right, m, q.stop⟩

/-- The left part may end at `m`. -/
def Admits (m : Nat) : Prop := m ≤ q.stop ∧ (q.consume → m ≠ q.start)

instance : DecidablePred q.Admits := fun _ => inferInstanceAs (Decidable (_ ∧ _))

end Sequence

/-- A position where the left part of a sequence may end, with trees of both parts. -/
structure Joint (L : Type) where
  middle : Nat
  left : Forest (Symbol L)
  right : Forest (Symbol L)

namespace Joint

variable {L : Type} [DecidableEq L] {p : Joint L} {joints : List (Joint L)}
  {found : Forest (Symbol L)} {t : Tree (Symbol L)}

def trees (p : Joint L) : Forest (Symbol L) := p.left.permute p.right

/-- The trees of a list of joints are added to a forest. -/
def gather (found : Forest (Symbol L)) (joints : List (Joint L)) : Forest (Symbol L) :=
  (joints.map trees).foldl Forest.union found

theorem mem_trees : t ∈ p.trees.trees ↔ ∃ l ∈ p.left.trees, ∃ r ∈ p.right.trees, l.join r = t :=
  Forest.mem_permute

theorem trees_of_empty (none : p.right = .empty) : p.trees = .empty := by
  rw [trees, none, Forest.permute_empty]

theorem gather_append {joints' : List (Joint L)} :
    gather found (joints ++ joints') = gather (gather found joints) joints' := by
  rw [gather, List.map_append, List.foldl_append]
  rfl

theorem gather_cons : gather found (p :: joints) = gather (found.union p.trees) joints := rfl

theorem mem_gather :
    t ∈ (gather found joints).trees ↔ t ∈ found.trees ∨ ∃ p ∈ joints, t ∈ p.trees.trees := by
  induction joints generalizing found with
  | nil => simp [gather]
  | cons p joints ih => rw [gather_cons, ih, Forest.mem_union, List.exists_mem_cons_iff, or_assoc]

theorem gather_congr {joints' : List (Joint L)} (same : joints.map middle = joints'.map middle)
    (agree : ∀ p ∈ joints, ∀ p' ∈ joints', p.middle = p'.middle → p.trees = p'.trees) :
    gather found joints = gather found joints' := by
  induction joints generalizing found joints' with
  | nil =>
    obtain rfl := List.map_eq_nil_iff.mp same.symm
    rfl
  | cons p joints ih =>
    obtain ⟨p', joints', rfl, middle, rest⟩ := List.map_eq_cons_iff.mp same.symm
    rw [gather_cons, gather_cons, agree p (.head _) p' (.head _) middle.symm]
    exact ih rest.symm fun p hp p' hp' => agree p (.tail _ hp) p' (.tail _ hp')

end Joint

namespace Grammar

variable {L : Type} {g g' : Grammar L} {input : List (Symbol L)} {x y left right body c : NodeId}
  {i j k : Nat} {s : Span} {q : Sequence} {t t' : Tree (Symbol L)} {r : Rule}

/-! ## Derivations of spans -/

/-- The derivations of a span, with their trees. -/
def Derives (g : Grammar L) (input : List (Symbol L)) (s : Span) (t : Tree (Symbol L)) : Prop :=
  g.Derivation input s.node s.start s.stop t

/-- Whether a node derives a stretch of the input. -/
def Spans (g : Grammar L) (input : List (Symbol L)) (x : NodeId) (i j : Nat) : Prop :=
  ∃ t, g.Derivation input x i j t

def Derivable (g : Grammar L) (input : List (Symbol L)) (s : Span) : Prop :=
  g.Spans input s.node s.start s.stop

/-- A token, or a repetition of nothing. -/
inductive Single (g : Grammar L) : Span → Prop
  | token {s : Span} {kind : Kind} : g.arena.get? s.node = some (.token kind) → Single g s
  | rep {s : Span} {body : NodeId} : g.arena.get? s.node = some (.rep body) → s.start = s.stop →
    Single g s

/-- The sequence that a span is read as. -/
inductive Divides (g : Grammar L) : Span → Sequence → Prop
  | cat {s : Span} {left right : NodeId} :
    g.arena.get? s.node = some (.cat left right) → Divides g s ⟨left, right, s.start, s.stop, false⟩
  | rep {s : Span} {body : NodeId} :
    g.arena.get? s.node = some (.rep body) → s.start < s.stop →
      Divides g s ⟨body, s.node, s.start, s.stop, true⟩

/-- Only the side `c` of a choice derives the stretch. -/
inductive Past (g : Grammar L) (input : List (Symbol L)) : Span → NodeId → Prop
  | left {s : Span} {l r : NodeId} :
    g.arena.get? s.node = some (.alt l r) → ¬g.Derivable input { s with node := r } →
      Past g input s l
  | right {s : Span} {l r : NodeId} :
    g.arena.get? s.node = some (.alt l r) → ¬g.Derivable input { s with node := l } →
      Past g input s r

/-- The span is not passed by. -/
def Firm (g : Grammar L) (input : List (Symbol L)) (s : Span) : Prop := ∀ c, ¬g.Past input s c

theorem firm_of_get? {node : Node L} (there : g.arena.get? s.node = some node)
    (other : ∀ l r, node ≠ .alt l r) : g.Firm input s := by
  rintro c (there' | there') <;> exact other _ _ (Option.some.inj (there.symm.trans there'))

theorem Single.firm (h : g.Single s) : g.Firm input s := by
  cases h with
  | token there | rep there => exact firm_of_get? there nofun

theorem Divides.firm (h : g.Divides s q) : g.Firm input s := by
  cases h with
  | cat there | rep there => exact firm_of_get? there nofun

theorem Single.not_divides (h : g.Single s) (q : Sequence) : ¬g.Divides s q := by
  rintro (there | ⟨there, lt⟩)
  · rcases h with there' | ⟨there', -⟩ <;> cases there.symm.trans there'
  · rcases h with there' | ⟨-, same⟩
    · cases there.symm.trans there'
    · exact Nat.ne_of_lt lt same

theorem Divides.start_eq (h : g.Divides s q) : q.start = s.start := by
  cases h <;> rfl

theorem Divides.stop_eq (h : g.Divides s q) : q.stop = s.stop := by
  cases h <;> rfl

theorem Divides.unique {q' : Sequence} (h : g.Divides s q) (h' : g.Divides s q') : q = q' := by
  rcases h with there | ⟨there, -⟩ <;> rcases h' with there' | ⟨there', -⟩ <;>
    cases there.symm.trans there' <;> rfl

theorem firm_alt (there : g.arena.get? s.node = some (.alt left right)) :
    g.Firm input s ↔
      g.Derivable input { s with node := left } ∧ g.Derivable input { s with node := right } := by
  constructor
  · exact fun firm => ⟨not_not.mp fun none => firm _ (.right there none),
      not_not.mp fun none => firm _ (.left there none)⟩
  · rintro ⟨hl, hr⟩ c (⟨there', none⟩ | ⟨there', none⟩) <;> cases there.symm.trans there'
    · exact none hr
    · exact none hl

theorem Past.derives_iff (h : g.Past input s c) :
    g.Derives input s t ↔ g.Derives input { s with node := c } t := by
  cases h with
  | left there none => exact (derivation_alt there).trans (or_iff_left fun h => none ⟨t, h⟩)
  | right there none => exact (derivation_alt there).trans (or_iff_right fun h => none ⟨t, h⟩)

theorem Divides.derives_iff (h : g.Divides s q) : g.Derives input s t ↔ ∃ m, q.Admits m ∧
    ∃ l r, g.Derives input (q.before m) l ∧ g.Derives input (q.behind m) r ∧ l.join r = t := by
  cases h with
  | cat there =>
    refine (derivation_cat there).trans (exists_congr fun m => ⟨?_, fun h => h.2⟩)
    rintro ⟨l, r, hl, hr, same⟩
    exact ⟨⟨hr.le, nofun⟩, l, r, hl, hr, same⟩
  | rep there lt =>
    refine (derivation_rep there).trans ⟨?_, ?_⟩
    · rintro (⟨same, -⟩ | ⟨m, l, r, consumes, hl, hr, same⟩)
      · exact absurd same.symm (Nat.ne_of_lt lt)
      · exact ⟨m, ⟨hr.le, fun _ => Nat.ne_of_gt consumes⟩, l, r, hl, hr, same⟩
    · rintro ⟨m, ⟨-, consumes⟩, l, r, hl, hr, same⟩
      exact .inr ⟨m, l, r, Nat.lt_of_le_of_ne hl.le (Ne.symm (consumes rfl)), hl, hr, same⟩

theorem Single.derives_unique (h : g.Single s) (ht : g.Derives input s t)
    (ht' : g.Derives input s t') : t = t' := by
  cases h with
  | token there =>
    rcases (derivation_token there).mp ht with ⟨rfl, -, rfl⟩ | ⟨terminal, symbol, here, -, -, rfl⟩
    · exact ((derivation_token there).mp ht').elim (fun h => h.2.2.symm) fun h => nomatch h.1
    · rcases (derivation_token there).mp ht' with ⟨rfl, -, -⟩ | ⟨-, symbol', here', -, -, rfl⟩
      · cases terminal
      · cases here.symm.trans here'
        rfl
  | rep there same =>
    have nil {t : Tree (Symbol L)} (ht : g.Derives input s t) : t = .nil := by
      rcases (derivation_rep there).mp ht with ⟨-, rfl⟩ | ⟨m, _, _, lt, -, hr, -⟩
      · rfl
      · exact absurd hr.le (by omega)
    rw [nil ht, nil ht']

/-! ### Nodes that look alike -/

section Mirrored

variable {R : NodeId → NodeId → Prop} {x' : NodeId}

theorem Mirrors.edge_iff (h : g.Mirrors R g') (edge : g.Edge R x x') :
    g'.Derivation input x' i j t ↔ g.Derivation input x i j t := by
  obtain ⟨y, passes, hy⟩ := edge
  exact (h.derivation_iff hy).trans (passes.derivation_iff h.empty)

theorem Mirrors.derivable_iff (h : g.Mirrors R g') (edge : g.Edge R x x') :
    g'.Derivable input ⟨x', i, j⟩ ↔ g.Derivable input ⟨x, i, j⟩ :=
      exists_congr fun _ => h.edge_iff edge

theorem Past.mirrored (past : g.Past input { s with node := x } c) (h : g.Mirrors R g')
    (hx : R x s.node) : ∃ c', g.Edge R c c' ∧ g'.Past input s c' := by
  cases past with
  | left there none =>
    obtain ⟨_, there', alike⟩ := h.forth hx there
    cases alike with
    | alt hl hr => exact ⟨_, hl, .left there' (mt (h.derivable_iff hr).mp none)⟩
  | right there none =>
    obtain ⟨_, there', alike⟩ := h.forth hx there
    cases alike with
    | alt hl hr => exact ⟨_, hr, .right there' (mt (h.derivable_iff hl).mp none)⟩

theorem Past.mirrored_back (past : g'.Past input s c) (h : g.Mirrors R g') (hx : R x s.node) :
    ∃ b, g.Edge R b c ∧ g.Past input { s with node := x } b := by
  cases past with
  | left there' none =>
    obtain ⟨_, there, alike⟩ := h.back hx there'
    cases alike with
    | alt hl hr => exact ⟨_, hl, .left there (mt (h.derivable_iff hr).mpr none)⟩
  | right there' none =>
    obtain ⟨_, there, alike⟩ := h.back hx there'
    cases alike with
    | alt hl hr => exact ⟨_, hr, .right there (mt (h.derivable_iff hl).mpr none)⟩

theorem Divides.mirrored_back (divides : g'.Divides s q) (h : g.Mirrors R g') (hx : R x s.node) :
    ∃ l r, g.Edge R l q.left ∧ g.Edge R r q.right ∧
      g.Divides { s with node := x } { q with left := l, right := r } := by
  cases divides with
  | cat there' =>
    obtain ⟨_, there, alike⟩ := h.back hx there'
    cases alike with
    | cat hl hr => exact ⟨_, _, hl, hr, .cat there⟩
  | rep there' lt =>
    obtain ⟨_, there, alike⟩ := h.back hx there'
    cases alike with
    | rep hb => exact ⟨_, x, hb, ⟨x, .refl x, hx⟩, .rep there lt⟩

end Mirrored

/-! ## The trees that a span bears -/

variable [DecidableEq L]

/-- Inside the spans of `P` a span bears the trees of a forest, in their order. -/
inductive Bears (g : Grammar L) (input : List (Symbol L)) :
    Set Span → Span → Forest (Symbol L) → Prop
  | none {P : Set Span} {s : Span} : ¬g.Derivable input s → Bears g input P s .empty
  | cut {P : Set Span} {s : Span} : g.Firm input s → s ∈ P → Bears g input P s .empty
  | past {P : Set Span} {s : Span} {c : NodeId} {f : Forest (Symbol L)} :
    g.Past input s c → Bears g input P { s with node := c } f → Bears g input P s f
  | single {P : Set Span} {s : Span} {t : Tree (Symbol L)} :
    g.Single s → s ∉ P → g.Derives input s t → Bears g input P s (.single t)
  | alt {P : Set Span} {s : Span} {l r : NodeId} {f f' : Forest (Symbol L)} :
    g.arena.get? s.node = some (.alt l r) → g.Firm input s → s ∉ P →
      Bears g input (insert s P) { s with node := l } f →
      Bears g input (insert s P) { s with node := r } f' →
        Bears g input P s (f.union f')
  | rule {P : Set Span} {s : Span} {r : Rule} {body : NodeId} {f : Forest (Symbol L)} :
    g.arena.get? s.node = some (.rule r body) → s ∉ P →
      Bears g input (insert s P) { s with node := body } f → Bears g input P s f
  | split {P : Set Span} {s : Span} {q : Sequence} {joints : List (Joint L)} :
    g.Divides s q → s ∉ P → (joints.map Joint.middle).Pairwise (· < ·) →
      (∀ m, m ∈ joints.map Joint.middle ↔ q.Admits m ∧ g.Derivable input (q.before m)) →
        (∀ p ∈ joints, Bears g input (insert s P) (q.behind p.middle) p.right) →
          (∀ p ∈ joints, p.right ≠ .empty → Bears g input (insert s P) (q.before p.middle) p.left) →
            Bears g input P s (Joint.gather .empty joints)

namespace Bears

variable {P : Set Span} {f f' : Forest (Symbol L)}

theorem sound (h : g.Bears input P s f) (ht : t ∈ f.trees) : g.Derives input s t := by
  induction h generalizing t with
  | none | cut => cases ht
  | past past _ ih => exact past.derives_iff.mpr (ih ht)
  | single _ _ derives =>
    obtain rfl := List.mem_singleton.mp ht
    exact derives
  | alt there _ _ _ _ ihl ihr =>
    exact (derivation_alt there).mpr ((Forest.mem_union.mp ht).imp ihl ihr)
  | rule there _ _ ih => exact (derivation_rule there).mpr (ih ht)
  | split divides _ _ middles _ _ ihr ihl =>
    rcases Joint.mem_gather.mp ht with ht | ⟨p, hp, ht⟩
    · cases ht
    · obtain ⟨l, hl, r, hr, same⟩ := Joint.mem_trees.mp ht
      have some : p.right ≠ .empty := by
        intro none
        rw [none] at hr
        cases hr
      exact divides.derives_iff.mpr
        ⟨p.middle, ((middles _).mp (List.mem_map_of_mem hp)).1, l, r, ihl p hp some hl,
        ihr p hp hr, same⟩

theorem eq_empty (h : g.Bears input P s f) (none : ¬g.Derivable input s) : f = .empty :=
  Forest.eq_empty fun t ht => none ⟨t, h.sound ht⟩

theorem passed (h : g.Bears input P ⟨y, i, j⟩ f) (passes : g.Passes x y)
    (empty : g.arena.get? nothing = some .empty) : g.Bears input P ⟨x, i, j⟩ f := by
  induction passes with
  | refl => exact h
  | barren none =>
    rw [h.eq_empty fun ⟨_, ht⟩ => not_derivation empty (.inl rfl) ht]
    exact .none fun ⟨_, ht⟩ => none _ _ _ _ ht
  | alt_left there none _ ih => exact .past (.left there fun ⟨_, ht⟩ => none _ _ _ _ ht) (ih h)
  | alt_right there none _ ih => exact .past (.right there fun ⟨_, ht⟩ => none _ _ _ _ ht) (ih h)

/-! ### There is one order -/

section Unique

variable (live : g.Derivable input s)
include live

theorem of_past (h : g.Bears input P s f) (past : g.Past input s c) :
    g.Bears input P { s with node := c } f := by
  cases h with
  | none none => exact absurd live none
  | cut firm => exact absurd past (firm c)
  | past past' h =>
    cases past with
    | left there none =>
      cases past' with
      | left there' => cases there.symm.trans there'; exact h
      | right there' none' =>
        cases there.symm.trans there'
        obtain ⟨t, ht⟩ := live
        exact (((derivation_alt there).mp ht).elim
          (fun ht => none' ⟨t, ht⟩) fun ht => none ⟨t, ht⟩).elim
    | right there none =>
      cases past' with
      | left there' none' =>
        cases there.symm.trans there'
        obtain ⟨t, ht⟩ := live
        exact (((derivation_alt there).mp ht).elim
          (fun ht => none ⟨t, ht⟩) fun ht => none' ⟨t, ht⟩).elim
      | right there' => cases there.symm.trans there'; exact h
  | single single => exact absurd past (single.firm c)
  | alt _ firm => exact absurd past (firm c)
  | rule there => exact absurd past (firm_of_get? there nofun c)
  | split divides => exact absurd past (divides.firm c)

omit live in
theorem of_cut (h : g.Bears input P s f) (firm : g.Firm input s) (inside : s ∈ P) : f = .empty := by
  cases h with
  | none | cut => rfl
  | past past => exact absurd past (firm _)
  | single _ out | alt _ _ out | rule _ out | split _ out => exact absurd inside out

variable (out : s ∉ P)
include out

theorem of_single (h : g.Bears input P s f) (single : g.Single s) :
    ∃ t, g.Derives input s t ∧ f = .single t := by
  cases h with
  | none none => exact absurd live none
  | cut _ inside => exact absurd inside out
  | past past => exact absurd past (single.firm _)
  | single _ _ derives => exact ⟨_, derives, rfl⟩
  | alt there | rule there =>
    cases single with
    | token there' | rep there' => cases there.symm.trans there'
  | split divides => exact absurd divides (single.not_divides _)

theorem of_alt (h : g.Bears input P s f) (firm : g.Firm input s)
    (there : g.arena.get? s.node = some (.alt left right)) :
    ∃ l r, g.Bears input (insert s P) { s with node := left } l ∧
      g.Bears input (insert s P) { s with node := right } r ∧ f = l.union r := by
  cases h with
  | none none => exact absurd live none
  | cut _ inside => exact absurd inside out
  | past past => exact absurd past (firm _)
  | alt there' _ _ hl hr => cases there.symm.trans there'; exact ⟨_, _, hl, hr, rfl⟩
  | single single =>
    cases single with
    | token there' | rep there' => cases there.symm.trans there'
  | rule there' => cases there.symm.trans there'
  | split divides =>
    cases divides with
    | cat there' | rep there' => cases there.symm.trans there'

theorem of_rule (h : g.Bears input P s f) (there : g.arena.get? s.node = some (.rule r body)) :
    g.Bears input (insert s P) { s with node := body } f := by
  cases h with
  | none none => exact absurd live none
  | cut _ inside => exact absurd inside out
  | past past => exact absurd past (firm_of_get? there nofun _)
  | rule there' _ h => cases there.symm.trans there'; exact h
  | single single =>
    cases single with
    | token there' | rep there' => cases there.symm.trans there'
  | alt there' => cases there.symm.trans there'
  | split divides =>
    cases divides with
    | cat there' | rep there' => cases there.symm.trans there'

theorem of_split (h : g.Bears input P s f) (divides : g.Divides s q) : ∃ joints,
    (joints.map Joint.middle).Pairwise (· < ·) ∧
      (∀ m, m ∈ joints.map Joint.middle ↔ q.Admits m ∧ g.Derivable input (q.before m)) ∧
        (∀ p ∈ joints, g.Bears input (insert s P) (q.behind p.middle) p.right) ∧
          (∀ p ∈ joints, p.right ≠ .empty → g.Bears input (insert s P) (q.before p.middle) p.left) ∧
            f = Joint.gather .empty joints := by
  cases h with
  | none none => exact absurd live none
  | cut _ inside => exact absurd inside out
  | past past => exact absurd past (divides.firm _)
  | single single => exact absurd divides (single.not_divides _)
  | alt there | rule there =>
    cases divides with
    | cat there' | rep there' => cases there.symm.trans there'
  | split divides' _ ascending middles hr hl =>
    obtain rfl := divides.unique divides'
    exact ⟨_, ascending, middles, hr, hl, rfl⟩

end Unique

/-- What a span bears is determined. By induction on how one forest comes about. -/
theorem unique (h : g.Bears input P s f) (h' : g.Bears input P s f') : f = f' := by
  induction h generalizing f' with
  | none none => exact (h'.eq_empty none).symm
  | cut firm inside => exact (h'.of_cut firm inside).symm
  | @past P s c f past h ih =>
    by_cases live : g.Derivable input s
    · exact ih (of_past live h' past)
    · rw [h'.eq_empty live, (Bears.past past h).eq_empty live]
  | single single out derives =>
    obtain ⟨t', derives', rfl⟩ := of_single ⟨_, derives⟩ out h' single
    rw [single.derives_unique derives derives']
  | @alt P s l r f f₁ there firm out hl hr ihl ihr =>
    have live : g.Derivable input s := by
      obtain ⟨⟨t, ht⟩, -⟩ := (firm_alt there).mp firm
      exact ⟨t, .alt_left there ht⟩
    obtain ⟨l', r', hl', hr', rfl⟩ := of_alt live out h' firm there
    rw [ihl hl', ihr hr']
  | @rule P s r body f there out h ih =>
    by_cases live : g.Derivable input s
    · exact ih (of_rule live out h' there)
    · rw [h'.eq_empty live, (Bears.rule there out h).eq_empty live]
  | @split P s q joints divides out ascending middles hr hl ihr ihl =>
    by_cases live : g.Derivable input s
    · obtain ⟨joints', ascending', middles', hr', hl', rfl⟩ := of_split live out h' divides
      have same : joints.map Joint.middle = joints'.map Joint.middle :=
        List.Perm.eq_of_pairwise' (r := (· < ·)) ascending ascending'
          ((List.perm_ext_iff_of_nodup ascending.nodup ascending'.nodup).mpr fun m =>
            (middles m).trans (middles' m).symm)
      refine Joint.gather_congr same fun p hp p' hp' middle => ?_
      have right : p.right = p'.right := ihr p hp (middle ▸ hr' p' hp')
      by_cases none : p.right = .empty
      · rw [Joint.trees_of_empty none, Joint.trees_of_empty (right ▸ none)]
      · have left : p.left = p'.left := ihl p hp none (middle ▸ hl' p' hp' (right ▸ none))
        rw [Joint.trees, Joint.trees, left, right]
    · rw [h'.eq_empty live, (Bears.split divides out ascending middles hr hl).eq_empty live]

end Bears

/-! ### Trees of nodes that look alike -/

section Mirrored

variable {R : NodeId → NodeId → Prop} {P : Set Span} {f : Forest (Symbol L)}

/-- The spans to which spans of a set correspond. -/
def mirrored (R : NodeId → NodeId → Prop) (P : Set Span) : Set Span :=
  {s | ∃ x, R s.node x ∧ { s with node := x } ∈ P}

variable (h : g.Mirrors R g') (one : ∀ x y z, R x y → R x z → y = z)
  (inj : ∀ x y z, R x z → R y z → x = y)

omit [DecidableEq L] in
@[simp] theorem mirrored_empty : mirrored R ∅ = ∅ :=
  Set.eq_empty_of_forall_notMem fun _ ⟨_, _, inside⟩ => inside

omit [DecidableEq L] in
include one in
theorem not_mem_mirrored (hx : R x s.node) (out : s ∉ P) : { s with node := x } ∉ mirrored R P := by
  rintro ⟨y, hy, inside⟩
  cases one _ _ _ hx hy
  exact out inside

omit [DecidableEq L] in
include inj in
theorem mirrored_insert (hx : R x s.node) :
    mirrored R (insert s P) = insert { s with node := x } (mirrored R P) := by
  ext p
  constructor
  · rintro ⟨y, hy, rfl | inside⟩
    · cases inj _ _ _ hx hy
      exact .inl rfl
    · exact .inr ⟨y, hy, inside⟩
  · rintro (rfl | ⟨y, hy, inside⟩)
    · exact ⟨s.node, hx, .inl rfl⟩
    · exact ⟨y, hy, .inr inside⟩

include h one inj

/-- Corresponding nodes bear the same trees over a stretch, inside corresponding spans. -/
theorem Bears.mirrored (bears : g'.Bears input P s f) (hx : R x s.node) :
    g.Bears input (Grammar.mirrored R P) { s with node := x } f := by
  -- an edge that is led on bears what the node bears where it is led
  have edge {x c : NodeId} {i j : Nat} {P : Set Span} {f : Forest (Symbol L)} (edge : g.Edge R x c)
      (ih : ∀ {x}, R x c → g.Bears input P ⟨x, i, j⟩ f) : g.Bears input P ⟨x, i, j⟩ f := by
    obtain ⟨y, passes, hy⟩ := edge
    exact (ih hy).passed passes h.empty
  have firm {s : Span} {x : NodeId} (hx : R x s.node) (firm : g'.Firm input s) :
      g.Firm input { s with node := x } := by
    intro c past
    obtain ⟨c', -, past'⟩ := past.mirrored h hx
    exact firm c' past'
  induction bears generalizing x with
  | none none => exact .none (mt (h.derivable_iff ⟨x, .refl x, hx⟩).mpr none)
  | @cut P s here inside => exact .cut (firm hx here) ⟨s.node, hx, inside⟩
  | past past _ ih =>
    obtain ⟨b, hb, past'⟩ := past.mirrored_back h hx
    exact .past past' (edge hb ih)
  | @single P s t single out derives =>
    refine .single ?_ (not_mem_mirrored one hx out) ((h.edge_iff ⟨x, .refl x, hx⟩).mp derives)
    cases single with
    | token there' =>
      obtain ⟨_, there, alike⟩ := h.back hx there'
      cases alike
      exact .token there
    | rep there' same =>
      obtain ⟨_, there, alike⟩ := h.back hx there'
      cases alike
      exact .rep there same
  | alt there' here out _ _ ihl ihr =>
    obtain ⟨_, there, alike⟩ := h.back hx there'
    cases alike with
    | alt hl hr =>
      rw [mirrored_insert inj hx] at ihl ihr
      exact .alt there (firm hx here) (not_mem_mirrored one hx out) (edge hl ihl) (edge hr ihr)
  | rule there' out _ ih =>
    obtain ⟨_, there, alike⟩ := h.back hx there'
    cases alike with
    | rule hb =>
      rw [mirrored_insert inj hx] at ih
      exact .rule there (not_mem_mirrored one hx out) (edge hb ih)
  | split divides out ascending middles _ _ ihr ihl =>
    rw [mirrored_insert inj hx] at ihr ihl
    obtain ⟨l, r, hl, hr, divides'⟩ := divides.mirrored_back h hx
    exact .split divides' (not_mem_mirrored one hx out) ascending
      (fun m => (middles m).trans (and_congr_right fun _ => h.derivable_iff hl))
      (fun p hp => edge hr (ihr p hp))
      fun p hp some => edge hl (ihl p hp some)

end Mirrored

end Grammar

end DerivativeParsing
