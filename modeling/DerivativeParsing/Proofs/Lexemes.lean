import DerivativeParsing.Proofs.Collections
import DerivativeParsing.Proofs.Parsing

/-!
# Lexemes

Only the kinds of symbols decide what matches; their lexemes ride along into the trees. So inputs of
the same kinds have the same derivations, with other symbols at the leaves of the trees, and an
input is answered like every other one of its kinds.

1. `Tree.withLeaves` puts other data at the leaves of a tree, `Forest.map` does so in a forest. On
   trees with the same leaves nothing is lost, so that choices and sequences can be formed before or
   after.
2. `Derivation.respelled`, `Bears.respelled`: what is derived over one input is derived over the
   other, and what a span bears is the same, with the other symbols at the leaves.
3. `parse_respelled`: lexemes change no answer, and show up in the trees where their symbols are,
   unless rules are entangled. A derivative that is remembered is found again only if the lexeme is
   the same too, so lexemes decide which derivatives are made anew; and what was stored with the old
   ones may be wrong.
-/

namespace DerivativeParsing

/-! ## Trees with other leaves -/

namespace Tree

variable {α : Type} {s t : Tree α} {l m : List α}

/-- The same tree with the data at its leaves taken from a list, from left to right. If the list is
too short, a leaf keeps its own. -/
def withLeaves : Tree α → List α → Tree α
  | nil, _ => nil
  | leaf value, l => leaf (l.headD value)
  | pair left right, l => pair (left.withLeaves l) (right.withLeaves (l.drop left.leaves.length))

example : (pair (leaf 'a') (pair nil (pair (leaf 'b') (leaf 'c')))).withLeaves ['x', 'y', 'z'] =
    pair (leaf 'x') (pair nil (pair (leaf 'y') (leaf 'z'))) := rfl

theorem withLeaves_join (s t : Tree α) (l : List α) :
    (join s t).withLeaves l = join (s.withLeaves l) (t.withLeaves (l.drop s.leaves.length)) := by
  cases s <;> cases t <;> rfl

theorem isNil_withLeaves (t : Tree α) (l : List α) : (t.withLeaves l).isNil = t.isNil := by
  cases t <;> rfl

@[simp] theorem length_leaves_withLeaves (t : Tree α) (l : List α) :
    (t.withLeaves l).leaves.length = t.leaves.length := by
  induction t generalizing l with
  | nil | leaf => rfl
  | pair left right ihl ihr => simp only [withLeaves, leaves, List.length_append, ihl, ihr]

/-- The leaves that were there can be put back. -/
theorem withLeaves_withLeaves (t : Tree α) (l m : List α) :
    (t.withLeaves l).withLeaves (t.leaves ++ m) = t := by
  induction t generalizing l m with
  | nil | leaf => rfl
  | pair left right ihl ihr =>
    simp only [withLeaves, leaves, length_leaves_withLeaves, List.append_assoc,
      List.drop_left, ihl, ihr]

/-- Trees with the same leaves are told apart by what other leaves make of them. -/
theorem withLeaves_inj (leaves : s.leaves = t.leaves) (same : s.withLeaves l = t.withLeaves l) :
    s = t := by
  calc s = (s.withLeaves l).withLeaves (s.leaves ++ []) := (s.withLeaves_withLeaves l []).symm
    _ = (t.withLeaves l).withLeaves (t.leaves ++ []) := by rw [same, leaves]
    _ = t := t.withLeaves_withLeaves l []

end Tree

/-! ## Images of forests -/

namespace Forest

variable {α β : Type} [DecidableEq α] [DecidableEq β] {φ ψ χ : Tree α → Tree β} {f g : Forest α}
  {t : Tree α}

/-- The trees that a function makes of those of a forest, in their order. -/
def map (φ : Tree α → Tree β) (f : Forest α) : Forest β := (f.trees.map φ).foldl insert empty

/-- The function makes different trees of different trees of the forest. -/
def Apart (φ : Tree α → Tree β) (f : Forest α) : Prop :=
  ∀ s ∈ f.trees, ∀ t ∈ f.trees, φ s = φ t → s = t

omit [DecidableEq α] in
theorem trees_map (apart : Apart φ f) : (f.map φ).trees = f.trees.map φ := by
  have image : empty.union ⟨f.trees.map φ, f.nodup.map_on apart⟩ =
      (⟨f.trees.map φ, f.nodup.map_on apart⟩ : Forest β) :=
    empty_union _
  exact congrArg Forest.trees image

omit [DecidableEq α] in
theorem map_single (φ : Tree α → Tree β) (t : Tree α) : (single t).map φ = single (φ t) := by
  refine eq_of_trees (trees_map fun s hs s' hs' _ => ?_)
  rw [List.mem_singleton.mp hs, List.mem_singleton.mp hs']

omit [DecidableEq α] in
theorem mem_map {t : Tree β} : t ∈ (f.map φ).trees ↔ ∃ s ∈ f.trees, φ s = t := by
  rw [map, mem_foldl_insert, List.mem_map]
  exact or_iff_right List.not_mem_nil

theorem map_insert (φ : Tree α → Tree β) (f : Forest α) (t : Tree α) :
    (f.insert t).map φ = (f.map φ).insert (φ t) := by
  by_cases old : t ∈ f.trees
  · have old' : φ t ∈ (f.map φ).trees := mem_map.mpr ⟨t, old, rfl⟩
    rw [insert, dif_pos old, insert, dif_pos old']
  · rw [insert, dif_neg old, map, List.map_append, List.foldl_append]
    rfl

theorem map_union (apart : Apart φ g) : (f.union g).map φ = (f.map φ).union (g.map φ) := by
  have main : ∀ (ts : List (Tree α)) (f : Forest α),
      (ts.foldl insert f).map φ = (ts.map φ).foldl insert (f.map φ) := by
    intro ts
    induction ts with
    | nil => exact fun _ => rfl
    | cons t ts ih =>
      intro f
      rw [List.foldl_cons, ih, map_insert]
      rfl
  rw [union, main, union, trees_map apart]

/-- Images of joined trees are joined images, if they are so one by one. -/
theorem map_permute (apart : Apart φ f) (apart' : Apart ψ g)
    (joins : ∀ l ∈ f.trees, ∀ r ∈ g.trees, χ (l.join r) = (φ l).join (ψ r)) :
    (f.permute g).map χ = (f.map φ).permute (g.map ψ) := by
  have inner : ∀ (l : Tree α) (rs : List (Tree α)) (acc : Forest α),
      (∀ r ∈ rs, χ (l.join r) = (φ l).join (ψ r)) →
        (rs.foldl (fun acc r => acc.insert (l.join r)) acc).map χ =
          (rs.map ψ).foldl (fun acc r => acc.insert ((φ l).join r)) (acc.map χ) := by
    intro l rs
    induction rs with
    | nil => exact fun _ _ => rfl
    | cons r rs ih =>
      intro acc joins
      obtain ⟨here, later⟩ := List.forall_mem_cons.mp joins
      rw [List.foldl_cons, ih _ later, map_insert, here]
      rfl
  have outer : ∀ (ls : List (Tree α)) (acc : Forest α),
      (∀ l ∈ ls, ∀ r ∈ g.trees, χ (l.join r) = (φ l).join (ψ r)) →
        (ls.foldl (fun acc l => g.trees.foldl (fun acc r => acc.insert (l.join r)) acc) acc).map χ =
          (ls.map φ).foldl
          (fun acc l => (g.trees.map ψ).foldl (fun acc r => acc.insert (l.join r)) acc)
            (acc.map χ) := by
    intro ls
    induction ls with
    | nil => exact fun _ _ => rfl
    | cons l ls ih =>
      intro acc joins
      obtain ⟨here, later⟩ := List.forall_mem_cons.mp joins
      rw [List.foldl_cons, ih _ later, inner l g.trees acc here]
      rfl
  rw [permute, outer f.trees empty joins, permute, trees_map apart, trees_map apart']
  rfl

end Forest

/-! ## Other symbols of the same kinds -/

namespace Grammar

variable {L : Type} {g : Grammar L} {v w : List (Symbol L)} {x c : NodeId} {i j m : Nat} {s : Span}
  {q : Sequence} {t : Tree (Symbol L)}

/-- A derivation consumes as many symbols as its tree has leaves. -/
theorem Derivation.length_leaves (h : g.Derivation v x i j t) : t.leaves.length = j - i := by
  induction h with
  | epsilon | rep_nil => simp [Tree.leaves]
  | token => simp [Tree.leaves]
  | alt_left _ _ ih | alt_right _ _ ih | rule _ _ ih => exact ih
  | cat _ hl hr ihl ihr =>
    have := hl.le
    have := hr.le
    rw [Tree.leaves_join, List.length_append, ihl, ihr]
    omega
  | rep_cons _ _ hl hr ihl ihr =>
    have := hl.le
    have := hr.le
    rw [Tree.leaves_join, List.length_append, ihl, ihr]
    omega

/-- After a derivation, the symbols that are left are those behind it. -/
theorem Derivation.drop_leaves (h : g.Derivation v x i j t) (w : List (Symbol L)) :
    (w.drop i).drop t.leaves.length = w.drop j := by
  have := h.le
  rw [h.length_leaves, List.drop_drop, show i + (j - i) = j by omega]

variable (kinds : v.map Symbol.kind = w.map Symbol.kind)
include kinds

/-- What is derived over one input is derived over the other, with its symbols at the leaves. -/
theorem Derivation.respelled (h : g.Derivation v x i j t) :
    g.Derivation w x i j (t.withLeaves (w.drop i)) := by
  induction h with
  | epsilon there => exact .epsilon there
  | @token _ i kind symbol there terminal here same =>
    have other : (w.map Symbol.kind)[i]? = some kind := by
      rw [← kinds, List.getElem?_map, here, Option.map_some, same]
    rw [List.getElem?_map] at other
    obtain ⟨symbol', here', same'⟩ := Option.map_eq_some_iff.mp other
    obtain ⟨lt, rfl⟩ := List.getElem?_eq_some_iff.mp here'
    rw [Tree.withLeaves, List.drop_eq_getElem_cons lt]
    exact .token there terminal here' same'
  | alt_left there _ ih => exact .alt_left there ih
  | alt_right there _ ih => exact .alt_right there ih
  | cat there hl _ ihl ihr =>
    rw [Tree.withLeaves_join, hl.drop_leaves]
    exact .cat there ihl ihr
  | rep_nil there => exact .rep_nil there
  | rep_cons there lt hl _ ihl ihr =>
    rw [Tree.withLeaves_join, hl.drop_leaves]
    exact .rep_cons there lt ihl ihr
  | rule there _ ih => exact .rule there ih

theorem derivable_respelled : g.Derivable v s ↔ g.Derivable w s :=
  ⟨fun ⟨_, ht⟩ => ⟨_, ht.respelled kinds⟩, fun ⟨_, ht⟩ => ⟨_, ht.respelled kinds.symm⟩⟩

theorem Past.respelled (h : g.Past v s c) : g.Past w s c := by
  cases h with
  | left there none => exact .left there (mt (derivable_respelled kinds).mpr none)
  | right there none => exact .right there (mt (derivable_respelled kinds).mpr none)

theorem Firm.respelled (h : g.Firm v s) : g.Firm w s :=
  fun c past => h c (past.respelled kinds.symm)

end Grammar

/-! ## What a span bears over the other symbols -/

section Bears

variable {L : Type} [DecidableEq L] {g : Grammar L} {v w : List (Symbol L)} {i m : Nat} {s : Span}
  {q : Sequence} {P : Set Span} {t : Tree (Symbol L)} {f : Forest (Symbol L)} {p : Joint L}
  {joints : List (Joint L)} {found : Forest (Symbol L)}

/-- The trees of a stretch that starts at `i`, with the symbols of an input at their leaves. -/
def Forest.respelled (w : List (Symbol L)) (i : Nat) (f : Forest (Symbol L)) : Forest (Symbol L) :=
  f.map (·.withLeaves (w.drop i))

/-- The trees of both parts, with the symbols of an input at their leaves. The left part starts at
`i`. -/
def Joint.respelled (w : List (Symbol L)) (i : Nat) (p : Joint L) : Joint L :=
  ⟨p.middle, p.left.respelled w i, p.right.respelled w p.middle⟩

omit [DecidableEq L] in
/-- Trees of the same span have the same leaves, so other leaves keep them apart. -/
theorem apart_of_derives (derives : ∀ t ∈ f.trees, g.Derives v s t) (l : List (Symbol L)) :
    f.Apart (·.withLeaves l) := by
  intro t ht t' ht' same
  exact Tree.withLeaves_inj ((derives t ht).leaves.trans (derives t' ht').leaves.symm) same

namespace Joint

def Derived (g : Grammar L) (v : List (Symbol L)) (q : Sequence) (p : Joint L) : Prop :=
  (∀ t ∈ p.right.trees, g.Derives v (q.behind p.middle) t) ∧
    (p.right ≠ .empty → ∀ t ∈ p.left.trees, g.Derives v (q.before p.middle) t)

theorem trees_respelled (h : p.Derived g v q) (w : List (Symbol L)) :
    (p.respelled w q.start).trees = p.trees.respelled w q.start := by
  by_cases none : p.right = .empty
  · have none' : (p.respelled w q.start).right = .empty := by
      rw [respelled, none]
      rfl
    rw [trees_of_empty none, trees_of_empty none']
    rfl
  · refine (Forest.map_permute (apart_of_derives (h.2 none) _)
      (apart_of_derives h.1 _) fun l hl r _ => ?_).symm
    have derives : g.Derivation v q.left q.start p.middle l := h.2 none l hl
    show (l.join r).withLeaves _ = _
    rw [Tree.withLeaves_join, derives.drop_leaves]

theorem apart_trees (h : p.Derived g v q) (l : List (Symbol L)) :
    p.trees.Apart (·.withLeaves l) := by
  intro t ht t' ht' same
  refine Tree.withLeaves_inj ?_ same
  obtain ⟨a, ha, b, hb, rfl⟩ := mem_trees.mp ht
  obtain ⟨a', ha', b', hb', rfl⟩ := mem_trees.mp ht'
  have some : p.right ≠ .empty := by
    intro none
    rw [none] at hb
    cases hb
  rw [Tree.leaves_join, Tree.leaves_join, (h.2 some a ha).leaves, (h.2 some a' ha').leaves,
    (h.1 b hb).leaves, (h.1 b' hb').leaves]

theorem gather_respelled (h : ∀ p ∈ joints, p.Derived g v q) (w : List (Symbol L)) :
    gather (found.respelled w q.start) (joints.map (Joint.respelled w q.start)) =
      (gather found joints).respelled w q.start := by
  induction joints generalizing found with
  | nil => rfl
  | cons p joints ih =>
    obtain ⟨here, later⟩ := List.forall_mem_cons.mp h
    rw [List.map_cons, gather_cons, gather_cons, ← ih later, trees_respelled here]
    exact congrArg (gather · _) (Forest.map_union (apart_trees here _)).symm

end Joint

/-- What a span bears over one input it bears over the other, with its symbols at the leaves. -/
theorem Grammar.Bears.respelled (kinds : v.map Symbol.kind = w.map Symbol.kind)
    (h : g.Bears v P s f) : g.Bears w P s (f.respelled w s.start) := by
  induction h with
  | none none => exact .none (mt (derivable_respelled kinds).mpr none)
  | cut firm inside => exact .cut (firm.respelled kinds) inside
  | past past _ ih => exact .past (past.respelled kinds) ih
  | single single out derives =>
    rw [Forest.respelled, Forest.map_single]
    exact .single single out (derives.respelled kinds)
  | alt there firm out _ hr ihl ihr =>
    rw [Forest.respelled, Forest.map_union (apart_of_derives (fun _ ht => hr.sound ht) _)]
    exact .alt there (firm.respelled kinds) out ihl ihr
  | rule there out _ ih => exact .rule there out ih
  | @split P s q joints divides out ascending middles hr hl ihr ihl =>
    have derived (p : Joint L) (hp : p ∈ joints) : p.Derived g v q :=
      ⟨fun t ht => (hr p hp).sound ht, fun some t ht => (hl p hp some).sound ht⟩
    have same : (joints.map (Joint.respelled w q.start)).map Joint.middle =
        joints.map Joint.middle := by
      rw [List.map_map]
      rfl
    rw [← divides.start_eq, ← Joint.gather_respelled derived]
    refine .split divides out (same ▸ ascending) (fun m => ?_)
      (fun p' hp' => ?_) fun p' hp' some => ?_
    · rw [same, middles m]
      exact and_congr_right fun _ => derivable_respelled kinds
    · obtain ⟨p, hp, rfl⟩ := List.mem_map.mp hp'
      exact ihr p hp
    · obtain ⟨p, hp, rfl⟩ := List.mem_map.mp hp'
      refine ihl p hp fun none => some ?_
      rw [Joint.respelled, none]
      rfl

/-- The forest of the whole other input has the same trees in the same order, with its symbols at
the leaves. -/
theorem Grammar.Bears.trees_respelled {start : NodeId} {f' : Forest (Symbol L)}
    (kinds : v.map Symbol.kind = w.map Symbol.kind) (h : g.Bears v P ⟨start, 0, v.length⟩ f)
    (h' : g.Bears w P ⟨start, 0, w.length⟩ f') :
    (f'.filter fun t => !t.isNil).trees =
      (f.filter fun t => !t.isNil).trees.map (·.withLeaves w) := by
  have length : v.length = w.length := by simpa using congrArg List.length kinds
  have bears : g.Bears w P ⟨start, 0, w.length⟩ (f.respelled w 0) := length ▸ h.respelled kinds
  have apart : f.Apart (·.withLeaves (w.drop 0)) := apart_of_derives (fun _ ht => h.sound ht) _
  have trees : f'.trees = f.trees.map (·.withLeaves w) := by
    rw [h'.unique bears]
    exact Forest.trees_map apart
  calc (f'.filter fun t => !t.isNil).trees = f'.trees.filter fun t => !t.isNil := rfl
    _ = (f.trees.filter fun t => !(t.withLeaves w).isNil).map (·.withLeaves w) := by
      rw [trees, List.filter_map]
      rfl
    _ = (f.filter fun t => !t.isNil).trees.map (·.withLeaves w) := by
      simp only [Tree.isNil_withLeaves]
      rfl

end Bears

/-! ## Answers to the other symbols -/

section Answers

variable {L : Type} [DecidableEq L] {links : Links} {origin : Meaning} {D : Readings L}
  {parts : Bool} {W W₀ : World} {r r₀ r' r₀' : Recognizer L} {source : Source} {settings : Settings}
  {v w : List (Symbol L)}

/-- Consumes symbols one by one. Lists the answers, and answers how many symbols have been consumed
in the end and whether they are accepted. -/
def Recognizer.observe (fuel : Nat) (symbols : List (Symbol L)) :
    Recognizing L (List Bool × Nat × Bool) := do
  let answers ← feeds fuel symbols
  let steps := (← get).steps
  return (answers, steps, ← accepted fuel)

/-- Given enough fuel, symbols are consumed and it is found out whether they are accepted. -/
theorem Alert.observe_settles (h : Alert links origin D parts W r) (symbols : List (Symbol L)) :
    r.Settles (fun fuel => Recognizer.observe fuel symbols) fun o _ =>
      ∃ fuel r₁, Recognizer.feeds fuel symbols r = .ok (o.1, r₁) ∧ o.2.1 = r₁.word.length ∧
        (¬links.Entangled → (o.2.2 = true ↔ origin.words.Holds r₁.word)) := by
  have feeding : r.Settles (fun fuel => Recognizer.feeds fuel symbols) fun answers r₁ =>
      r₁.settings = r.settings ∧ ∃ fuel, Recognizer.feeds fuel symbols r = .ok (answers, r₁) :=
    (feeds_settles h.consistent symbols).of_runs fun fuel _ _ run same => ⟨same, fuel, run⟩
  refine feeding.bind (fun _ _ so => so.1) fun answers r₁ ⟨_, fuel, run⟩ => ?_
  obtain ⟨W₁, alert⟩ := h.feeds run
  obtain ⟨b, r₂, M, asking⟩ := exists_accepted alert.consistent
  obtain ⟨W₂, asked⟩ := accepted_asked alert.consistent (asking M (Nat.le_refl M))
  refine .inl ⟨(answers, r₁.steps, b), r₂, ?_, fuel, r₁, run, ?_, fun untangled => ?_⟩
  · have looking : Answers (fun _ => (get : Recognizing L (Recognizer L))) r₁ (r₁, r₁) := .const rfl
    exact .bind looking (.bind ⟨M, asking⟩ (.const rfl))
  · rw [Recognizer.length_word, Recognizer.length_input]
  · exact ⟨asked.sound, asked.complete (alert.exact untangled) (.of_untangled untangled)⟩

/-- The first symbol that is consumed breaks the call, if the period is of no steps. -/
theorem observe_breaks_iff (h : Consistent links origin W r) (alive : r.isDead = false)
    (symbols : List (Symbol L)) :
    r.Breaks (fun fuel => Recognizer.observe fuel symbols) ↔
      r.settings.collectEvery = some 0 ∧ symbols ≠ [] := by
  constructor
  · intro broken
    refine ⟨broken.zero, ?_⟩
    rintro rfl
    obtain ⟨b, r', asking⟩ := exists_accepted h
    have looking : Answers (fun _ => (get : Recognizing L (Recognizer L))) r (r, r) := .const rfl
    have observing : Answers (fun fuel => Recognizer.observe fuel []) r (([], r.steps, b), r') :=
      .bind (a := []) (.const rfl) (.bind looking (.bind asking (.const rfl)))
    exact broken.not_answers observing
  · rintro ⟨zero, some⟩
    obtain ⟨s, rest, rfl⟩ := List.exists_cons_of_ne_nil some
    have live : ¬(r.settings.stopWhenDead ∧ r.isDead) := fun dead => by
      cases alive.symm.trans dead.2
    exact (feed_breaks h live zero s).bind.bind

theorem exists_alert (built : source.recognizer settings = .ok r) :
    ∃ D parts W, Alert source.links source.origin D parts W r := by
  obtain ⟨W, g, start, rfl, founded, -⟩ := exists_founded built
  obtain ⟨parts, shaped⟩ := founded.exists_shaped
  exact ⟨g.readings start, parts, W, founded.alert shaped _⟩

/-- If rules are stored rightly, the other input is accepted too, and has the same trees in the same
order, with its symbols at the leaves. -/
theorem Parsed.respelled {g : Grammar L} {start : NodeId} {W W' W₀ W₀' : World}
    {answer answer₀ : Option (Forest (Symbol L))} (kinds : v.map Symbol.kind = w.map Symbol.kind)
    (h : Parsed links origin (g.readings start) W r v answer W' r')
    (assured : Assured links W r W' r')
    (h₀ : Parsed links origin (g.readings start) W₀ r₀ w answer₀ W₀' r₀')
    (assured₀ : Assured links W₀ r₀ W₀' r₀') :
    answer₀.map Forest.trees = answer.map fun f => f.trees.map (·.withLeaves w) := by
  have derivable : (∃ t, g.Derivation v start 0 v.length t) ↔
      ∃ t, g.Derivation w start 0 w.length t := by
    have length : v.length = w.length := by simpa using congrArg List.length kinds
    rw [← length]
    exact Grammar.derivable_respelled (s := ⟨start, 0, v.length⟩) kinds
  cases answer with
  | none =>
    cases answer₀ with
    | none => rfl
    | some => exact absurd (h.complete assured (derivable.mpr (h₀.sound rfl))) nofun
  | some f =>
    obtain ⟨f₀, rfl⟩ :=
      Option.isSome_iff_exists.mp (h₀.complete assured₀ (derivable.mp (h.sound rfl)))
    obtain ⟨found, bears, rfl⟩ := (h.reaps f rfl).bears assured
    obtain ⟨found₀, bears₀, rfl⟩ := (h₀.reaps f₀ rfl).bears assured₀
    have bears : g.Bears v ∅ ⟨start, 0, v.length⟩ found := bears
    exact congrArg some (bears.trees_respelled kinds bears₀)

/-- For two inputs of the same kinds, the same is answered to each symbol, as many are consumed, and
both are accepted or neither, unless rules are entangled. If both are parsed, the trees are the same
in the same order, with the symbols of the one or the other at their leaves, under the same
exception; and if nothing is collected, then a rule is stored wrongly. Where one input breaks a
call, so does the other. -/
theorem parse_respelled (built : source.recognizer settings = .ok r)
    (kinds : v.map Symbol.kind = w.map Symbol.kind) :
    r.BothSettle r (fun fuel => Recognizer.observe fuel v) (fun fuel => Recognizer.observe fuel w)
      (fun o _ o₀ _ => o = o₀ ∨ source.links.Entangled) ∧
    r.BothSettle r (fun fuel => Recognizer.parse fuel v) (fun fuel => Recognizer.parse fuel w)
      fun answer r' answer₀ r₀' =>
        answer₀.map Forest.trees = answer.map (fun f => f.trees.map (·.withLeaves w)) ∨
          source.links.Entangled ∧
          (settings.collectEvery = none → r'.grammar.Misled ∨ r₀'.grammar.Misled) := by
  have empty_iff : v ≠ [] ↔ w ≠ [] :=
    not_congr (by rw [← List.map_eq_nil_iff, kinds, List.map_eq_nil_iff])
  constructor
  · obtain ⟨D, parts, W, h⟩ := exists_alert built
    have alive := isDead_of_recognizer built
    have alike := (observe_breaks_iff h.consistent alive v).trans
      ((and_congr_right fun _ => empty_iff).trans (observe_breaks_iff h.consistent alive w).symm)
    refine ((h.observe_settles v).both (h.observe_settles w) alike).imp ?_
    rintro o r' o₀ r₀' ⟨⟨_, r₁, run, steps, accepted⟩, _, r₂, run₀, steps₀, accepted₀⟩
    refine Classical.or_iff_not_imp_right.mpr fun untangled => ?_
    have begun : Alongside r r := ⟨rfl, rfl, rfl, rfl⟩
    obtain ⟨answers, alongside⟩ := begun.feeds untangled h h kinds run run₀
    refine Prod.ext answers (Prod.ext ?_ (Bool.eq_iff_iff.mpr ?_))
    · rw [steps, steps₀, alongside.word]
    · rw [accepted untangled, accepted₀ untangled, alongside.word]
  · have history : source.after settings 0 [] = .ok r := after_nil 0 built
    have alike := (parse_breaks_after history v).trans
      ((and_congr_right fun _ => empty_iff).trans (parse_breaks_after history w).symm)
    refine ((parse_settles_after history built v).both (parse_settles_after history built w)
      alike).imp ?_
    rintro answer r' answer₀ r₀' ⟨⟨W, W', parsed, assured⟩, W₀, W₀', parsed₀, assured₀⟩
    exact (both_or_misled assured assured₀).imp_left fun ⟨assured, assured₀⟩ =>
      parsed.respelled kinds assured parsed₀ assured₀

theorem parse_respelled_leftRecursive :
    ∃ r : Recognizer String, leftRecursive.recognizer {} = .ok r ∧
    [⟨2, "a"⟩, ⟨2, "a"⟩].map Symbol.kind = [(⟨2, "b"⟩ : Symbol String), ⟨2, "c"⟩].map Symbol.kind ∧
      ∃ answer r' answer₀ r₀',
        Answers (fun fuel => Recognizer.parse fuel [⟨2, "a"⟩, ⟨2, "a"⟩]) r (answer, r') ∧
        Answers (fun fuel => Recognizer.parse fuel [⟨2, "b"⟩, ⟨2, "c"⟩]) r (answer₀, r₀') ∧
          (answer₀.map Forest.trees =
              answer.map (fun f => f.trees.map (·.withLeaves [⟨2, "b"⟩, ⟨2, "c"⟩])) ∨
            leftRecursive.links.Entangled ∧
              (({} : Settings).collectEvery = none → r'.grammar.Misled ∨ r₀'.grammar.Misled)) := by
  obtain ⟨r, built⟩ := leftRecursive_made {}
  have kinds : [⟨2, "a"⟩, ⟨2, "a"⟩].map Symbol.kind =
      [(⟨2, "b"⟩ : Symbol String), ⟨2, "c"⟩].map Symbol.kind := rfl
  have period : r.settings.collectEvery ≠ some 0 := settings_of_recognizer built ▸ nofun
  exact ⟨r, built, kinds, (parse_respelled built kinds).2.answers period⟩

/-- Three rules that stand for one another, behind repetitions that may be empty. -/
def coiled : Source :=
  .ruled [("A", .rep (.cat (.rule "B") (.rule "A"))),
    ("B", .cat (.rep (.token 2)) (.alt (.token 2) (.rule "C"))),
    ("C", .alt (.rule "B") (.token 3))] "A"

/-- While the last symbol is consumed, a derivative by the one before it is still to be made. If
their lexemes are the same, one that was just made by the last symbol is found instead, and it has a
part that has been stored as not matching the empty word. -/
theorem recognize_coiled_depends :
    ∃ (r : Recognizer String) (o o₀ : Recognition) (r' r₀' : Recognizer String),
    coiled.recognizer {} = .ok r ∧
      Answers (fun fuel => Recognizer.recognize fuel [⟨2, "a"⟩, ⟨3, "a"⟩, ⟨3, "a"⟩]) r (o, r') ∧
        Answers (fun fuel => Recognizer.recognize fuel [⟨2, "a"⟩, ⟨3, "a"⟩, ⟨3, "b"⟩]) r (o₀, r₀') ∧
          o.accepted = false ∧ o₀.accepted = true := by
  obtain ⟨r, o, r', built, run, no⟩ := exists_recognizer_of_answer? (show
    coiled.answer? {} 30 [] [(⟨2, "a"⟩ : Symbol String), ⟨3, "a"⟩, ⟨3, "a"⟩] =
    some false by decide +kernel)
  obtain ⟨r₀, o₀, r₀', built₀, run₀, yes⟩ := exists_recognizer_of_answer? (show
    coiled.answer? {} 30 [] [(⟨2, "a"⟩ : Symbol String), ⟨3, "a"⟩, ⟨3, "b"⟩] =
    some true by decide +kernel)
  cases built.symm.trans built₀
  exact ⟨r, o, o₀, r', r₀', built, recognize_answers run, recognize_answers run₀, no, yes⟩

end Answers

end DerivativeParsing
