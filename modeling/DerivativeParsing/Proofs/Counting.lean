import DerivativeParsing.Forest.Enumeration
import DerivativeParsing.Proofs.Layers

/-!
# Every reading of a sequence counts

A forest is a set, so trees that are joined from different parts might be one tree of it, and two
empty trees are joined to one. Still no two readings of a sequence come out the same: joining loses
nothing, and the left halves of two splits have different numbers of leaves.

1. `Grammar.splitsCounted` reads a sequence, counts the readings, and raises an alarm if there are
   more of them, or fewer, than trees.
2. `Span.Fits`: a tree of a node that a grammar was built from has a leaf for each symbol of its
   span, and one of a derivative has one more. `Extraction.Concurs` says that two actions do the
   same, and that what is remembered still fits. `concurs_splits`: so do reading a sequence and
   counting.
3. `readings_counted`: whatever was done to a grammar, no alarm is raised when trees are read.
-/

namespace DerivativeParsing

open Extraction (onGrammar)
open Grammar (nothing lt_size_of_get?)

/-! ## Counting -/

namespace Grammar

variable {L : Type} [DecidableEq L]

/-- Every split of a stretch into a match of `left` and a match of `right`, joined, as
`Grammar.splits` does. Each split has as many readings as there are trees of `left` before the
middle, times those of `right` after it. An alarm is raised if the readings of all splits are not as
many as the trees in the end. -/
def splitsCounted (alarm : Error) (fuel : Nat) (input : List (Symbol L))
    (trees : Span → Extraction L (Forest (Symbol L))) (left right : NodeId) (start stop : Nat)
    (consume : Bool) : Extraction L (Forest (Symbol L)) := do
  let (found, readings) ← (Evaluator.plain fuel).foldSplits input
    (fun (found, readings) l r => (found.union (l.permute r), readings + l.size * r.size))
    (.empty, 0)
    trees left right start stop consume
  if found.size = readings then return found else throw alarm

/-- The trees of a span, given those of the spans that it is made of. The readings of sequences are
counted. -/
def renderCounted (alarm : Error) (fuel : Nat) (input : List (Symbol L))
    (trees : Span → Extraction L (Forest (Symbol L))) (span : Span) :
    Extraction L (Forest (Symbol L)) :=
  (Evaluator.plain fuel).renderBy input (splitsCounted alarm fuel input trees) trees span

/-- The trees of a span that comes up inside the spans of `path`, as `Grammar.trees` reads them. The
readings of every sequence on the way are counted. -/
def treesCounted (alarm : Error) (fuel : Nat) (input : List (Symbol L)) :
    Nat → List Span → Span → Extraction L (Forest (Symbol L)) :=
  Span.nest fun path span below =>
    span.visit (.plain fuel) input path (renderCounted alarm fuel input below span)

/-- The trees of a node over the whole input. The readings of sequences are counted. -/
def parseTreesCounted (alarm : Error) (fuel : Nat) (start : NodeId) (input : List (Symbol L)) :
    Eval L (Forest (Symbol L)) :=
  (treesCounted alarm fuel input fuel [] ⟨start, 0, input.length⟩).run' {}

/-- The forest of a run of a recognizer. The readings of sequences are counted. -/
def forestOfRunCounted (alarm : Error) (fuel : Nat) (chain : List NodeId)
    (input : List (Symbol L)) : Eval L (Forest (Symbol L)) :=
  (Evaluator.plain fuel).forestBy (treesCounted alarm fuel input fuel []) chain input

end Grammar

/-! ## How many trees there are -/

section Size

variable {α : Type} [DecidableEq α] {f g : Forest α}

/-- Joining loses nothing, so no two pairs of trees are joined to one. -/
theorem Forest.trees_permute (f g : Forest α) :
    (f.permute g).trees = f.trees.flatMap fun l => g.trees.map l.join := by
  have flat : f.permute g = (f.trees.flatMap fun l => g.trees.map l.join).foldl insert empty := by
    simp only [permute, List.foldl_flatMap, List.foldl_map]
  rw [flat]
  refine trees_foldl_insert (List.nodup_flatMap.mpr ⟨fun l _ => ?_, ?_⟩)
  · exact g.nodup.map fun r r' same => (Tree.join_inj.mp same).2
  · refine f.nodup.imp fun {l l'} other => ?_
    simp only [Function.onFun, List.disjoint_left, List.mem_map, not_exists, not_and,
      forall_exists_index, and_imp]
    rintro t r - rfl r' - same
    exact other (Tree.join_inj.mp same).1.symm

theorem Forest.size_permute (f g : Forest α) : (f.permute g).size = f.size * g.size := by
  simp only [size, trees_permute, List.length_flatMap, List.length_map, List.map_const',
    List.sum_replicate, smul_eq_mul]

theorem Forest.size_union (disjoint : ∀ t ∈ f.trees, t ∉ g.trees) :
    (f.union g).size = f.size + g.size := by
  simp only [size, trees_union disjoint, List.length_append]

end Size

/-! ## Leaves -/

/-- How much of the input a leaf of the graph covers. -/
def Node.width? {L : Type} : Node L → Option Nat
  | .token kind => some (if kind = Kind.epsilon then 0 else 1)
  | .matched _ => some 0
  | _ => none

/-- Under their names in the other grammar, nodes cover as much as before, if they are leaves, or
are none. -/
def Grammar.SameWidths {L : Type} (g g' : Grammar L) : Prop :=
  ∀ (x : NodeId) node, g.arena.get? x = some node →
    ∃ node', g'.arena.get? x = some node' ∧ node'.width? = node.width?

/-- A tree of a span has a leaf for each symbol of it, if the node is one of `O`, else one more. The
node that matches nothing has no trees. -/
structure Span.Fits {α : Type} (O : NodeId → Prop) (s : Span) (t : Tree α) : Prop where
  alive : s.node ≠ nothing
  built : O s.node → t.leaves.length + s.start = s.stop
  derived : ¬O s.node → t.leaves.length + s.start = s.stop + 1

namespace Span.Fits

variable {α : Type} {O : NodeId → Prop} {x y l r : NodeId} {i j j' m : Nat} {s t : Tree α}

theorem lift (h : Fits O ⟨y, i, j⟩ t) (alive : x ≠ nothing) (inside : O x → O y)
    (top : ¬O x → Beyond O y) : Fits O ⟨x, i, j⟩ t where
  alive := alive
  built hx := h.built (inside hx)
  derived out := h.derived ((top out).resolve_left h.alive)

theorem join (hl : Fits O ⟨l, i, m⟩ s) (hr : Fits O ⟨r, m, j⟩ t) (alive : x ≠ nothing)
    (inside : O x → O l) (top : ¬O x → Beyond O l) (right : O r) : Fits O ⟨x, i, j⟩ (s.join t) where
  alive := alive
  built hx := by
    have := hl.built (inside hx)
    have := hr.built right
    simp only [Tree.leaves_join, List.length_append] at *
    omega
  derived out := by
    have := hl.derived ((top out).resolve_left hl.alive)
    have := hr.built right
    simp only [Tree.leaves_join, List.length_append] at *
    omega

theorem of_built (alive : x ≠ nothing) (hx : O x) (leaves : t.leaves.length + i = j) :
    Fits O ⟨x, i, j⟩ t where
  alive := alive
  built _ := leaves
  derived out := absurd hx out

/-- A tree tells where its span ends. -/
theorem stop_eq (h : Fits O ⟨x, i, j⟩ t) (h' : Fits O ⟨x, i, j'⟩ t) : j = j' := by
  by_cases inside : O x
  · exact (h.built inside).symm.trans (h'.built inside)
  · exact Nat.succ.inj ((h.derived inside).symm.trans (h'.derived inside))

end Span.Fits

/-! ## Reading -/

section Reading

variable {L : Type} [DecidableEq L] {links : Links} {W : World} {g g₁ g' : Grammar L}
  {O : NodeId → Prop} {fuel : Nat} {deeds : List (Deed L)} {u : Unit} {x y : NodeId} {i : Nat}
  {node : Node L} {stops : List Nat}

/-- A grammar between actions that has two layers, the lower one of which is `O`. -/
structure Grammar.Based (O : NodeId → Prop) (g : Grammar L) : Prop where
  good : ∃ links W, Good links W g
  layered : g.Layered O

theorem Grammar.Based.ne_nothing (h : g.Based O) (there : g.arena.get? x = some node)
    (some : node ≠ .empty) : x ≠ nothing := by
  rintro rfl
  exact some (Option.some.inj (there.symm.trans h.layered.pristine.empty))

omit [DecidableEq L] in
theorem Grammar.SameWidths.refl (g : Grammar L) : g.SameWidths g :=
  fun _ node there => ⟨node, there, rfl⟩

omit [DecidableEq L] in
theorem Grammar.SameWidths.trans (h : g.SameWidths g₁) (h' : g₁.SameWidths g') :
    g.SameWidths g' := by
  intro x node there
  obtain ⟨node₁, there₁, same⟩ := h x node there
  obtain ⟨node', there', same'⟩ := h' x node₁ there₁
  exact ⟨node', there', same'.trans same⟩

omit [DecidableEq L] in
theorem Node.Becomes.width?_eq {node node' : Node L} (h : node.Becomes node') :
    node'.width? = node.width? := by
  cases h <;> rfl

omit [DecidableEq L] in
theorem Node.Shrunk.width?_eq {node node' : Node L} (h : node.Shrunk g node') :
    node'.width? = node.width? := by
  cases h <;> rfl

/-- A deed that leaves the nodes where they are leaves the leaves as they are. -/
theorem Turns.sameWidths {culling : Bool} {place : NodeId → Option NodeId}
    (h : Turns W g culling place g') (good : Good links W g) (stays : place = some) :
    g.SameWidths g' := by
  cases h with
  | evaluates evaluated =>
    intro x node there
    obtain ⟨node', there', becomes⟩ := evaluated.extension.node x node there
    exact ⟨node', there', becomes.width?_eq⟩
  | stays arena => exact fun x node there => ⟨node, arena ▸ there, rfl⟩
  | culls run =>
    intro x node there
    obtain ⟨node', there', shrunk⟩ := (cull_changes good run).1.node x node there
    exact ⟨node', there', shrunk.width?_eq⟩
  | collects _ moved =>
    intro x node there
    obtain ⟨there', -⟩ := moved.part (congrFun stays x) there
    refine ⟨_, there', ?_⟩
    cases node <;> rfl

/-- Deeds that leave the nodes where they are leave the layers as they are. -/
theorem enactAll_based (stays : ∀ d ∈ deeds, d.Stays) (based : g.Based O)
    (run : Grammar.enactAll fuel deeds g = .ok (u, g')) : g'.Based O ∧ g.SameWidths g' := by
  refine enactAll_induct (P := fun g' => g'.Based O ∧ g.SameWidths g') ?_ ⟨based, .refl g⟩ run
  rintro d member u g₁ g' ⟨⟨⟨links, W, good⟩, layered⟩, same⟩ run
  have turns := enact_turns W good.formed run
  have place := stays d member g₁
  have layered' := turns.layered good layered
  rw [place] at layered'
  simp only [Option.some.injEq, exists_eq_left] at layered'
  obtain ⟨W', good'⟩ := turns.good good
  exact ⟨⟨⟨links, W', good'⟩, layered'⟩, same.trans (turns.sameWidths good place)⟩

theorem Enacts.based {α : Type} {act : Eval L α} {a : α} (h : Enacts fuel act) (based : g.Based O)
    (run : act g = .ok (a, g')) : g'.Based O ∧ g.SameWidths g' := by
  obtain ⟨deeds, done, stays⟩ := h g a g' run
  exact enactAll_based stays based done

/-! ### What is known -/

/-- The positions ascend, and none is before the start. If the node is a leaf, they are where it
ends. -/
structure Grammar.Stops (g : Grammar L) (x : NodeId) (i : Nat) (stops : List Nat) : Prop where
  lists : Lists False (i ≤ ·) stops
  leaf : ∃ node, g.arena.get? x = some node ∧ ∀ n, node.width? = some n → ∀ k ∈ stops, k = i + n

omit [DecidableEq L] in
theorem Grammar.Stops.mono (h : g.Stops x i stops) (same : g.SameWidths g') :
    g'.Stops x i stops := by
  obtain ⟨lists, node, there, leaf⟩ := h
  obtain ⟨node', there', width⟩ := same x node there
  exact ⟨lists, node', there', width ▸ leaf⟩

/-- What is known of ends and trees fits. -/
structure Extracted.Fits (O : NodeId → Prop) (g : Grammar L) (known : Extracted L) : Prop where
  ends : ∀ x i stops, known.ends[(⟨x, i⟩ : Site)]? = some stops → g.Stops x i stops
  trees : ∀ (s : Span) f, known.trees[s]? = some f → ∀ t ∈ f.trees, s.Fits O t

omit [DecidableEq L] in
theorem Extracted.Fits.mono {known : Extracted L} (h : known.Fits O g) (same : g.SameWidths g') :
    known.Fits O g' where
  ends x i stops there := (h.ends x i stops there).mono same
  trees := h.trees

omit [DecidableEq L] in
theorem Extracted.fits_nil (O : NodeId → Prop) (g : Grammar L) : ({} : Extracted L).Fits O g where
  ends _ _ _ there := by cases Std.TreeMap.getElem?_emptyc.symm.trans there
  trees _ _ there := by cases Std.TreeMap.getElem?_emptyc.symm.trans there

/-- What an extraction may find. -/
structure Fitting (O : NodeId → Prop) (known : Extracted L) (g : Grammar L) : Prop where
  based : g.Based O
  fits : known.Fits O g

omit [DecidableEq L] in
theorem Extraction.fetch_run {α : Type} {k : Node L → Extraction L α} {known : Extracted L}
    (there : g.arena.get? x = some node) :
    (onGrammar (Grammar.fetch x) >>= k) known g = k node known g :=
  Action.bind_of_ok (k := fun (p : Node L × Extracted L) => k p.1 p.2)
    (Action.bind_of_ok (k := fun node => Pure.pure (node, known))
      (Grammar.fetch_ok.mpr ⟨there, rfl⟩))

/-- From here the two actions do the same. What is known afterwards fits, and what is answered is
`Q`. -/
def Extraction.Concurs {α : Type} (O : NodeId → Prop) (Q : α → Grammar L → Prop)
    (act act' : Extraction L α) (known : Extracted L) (g : Grammar L) : Prop :=
  act' known g = act known g ∧ ∀ a known' g', act known g = .ok ((a, known'), g') →
    Fitting O known' g' ∧ g.SameWidths g' ∧ Q a g'

namespace Extraction.Concurs

variable {α β : Type} {Q : α → Grammar L → Prop} {R : β → Grammar L → Prop}
  {act act' : Extraction L α} {k k' : α → Extraction L β} {known : Extracted L}

theorem pure {a : α} (h : Fitting O known g) (answer : Q a g) :
    Concurs O Q (pure a) (pure a) known g := by
  refine ⟨rfl, fun b known' g' run => ?_⟩
  cases run
  exact ⟨h, .refl g, answer⟩

theorem throw (e : Error) : Concurs O Q (throw e) (throw e) known g := by
  refine ⟨rfl, fun b known' g' run => ?_⟩
  cases run

theorem bind (first : Concurs O Q act act' known g)
    (next : ∀ a known₁ g₁, Fitting O known₁ g₁ → g.SameWidths g₁ → Q a g₁ →
      Concurs O R (k a) (k' a) known₁ g₁) : Concurs O R (act >>= k) (act' >>= k') known g := by
  obtain ⟨same, first⟩ := first
  have run (act : Extraction L α) (k : α → Extraction L β) :
      (act >>= k) known g = (act known g >>= fun p => k p.1.1 p.1.2 p.2) := rfl
  unfold Concurs
  rw [run, run, same]
  cases answer : act known g with
  | error e =>
    refine ⟨rfl, fun b known' g' run => ?_⟩
    cases run
  | ok p =>
    obtain ⟨⟨a, known₁⟩, g₁⟩ := p
    obtain ⟨fitting, widths, answer⟩ := first a known₁ g₁ answer
    obtain ⟨same, later⟩ := next a known₁ g₁ fitting widths answer
    refine ⟨same, fun b known' g' run => ?_⟩
    obtain ⟨fitting, widths', answer⟩ := later b known' g' run
    exact ⟨fitting, widths.trans widths', answer⟩

theorem get_bind {k k' : Extracted L → Extraction L β}
    (next : Concurs O R (k known) (k' known) known g) :
    Concurs O R (get >>= k) (get >>= k') known g := next

theorem imp {Q' : α → Grammar L → Prop} (h : Concurs O Q act act' known g)
    (weaker : ∀ a g', Q a g' → Q' a g') : Concurs O Q' act act' known g := by
  refine ⟨h.1, fun a known' g' run => ?_⟩
  obtain ⟨fitting, widths, answer⟩ := h.2 a known' g' run
  exact ⟨fitting, widths, weaker a g' answer⟩

theorem modify {f : Extracted L → Extracted L} (h : Fitting O known g) (fits : (f known).Fits O g) :
    Concurs O (fun _ _ => True) (modify f) (modify f) known g := by
  refine ⟨rfl, fun b known' g' run => ?_⟩
  cases run
  exact ⟨⟨h.based, fits⟩, .refl g, trivial⟩

/-- An action on the grammar that leaves its nodes where they are. -/
theorem onGrammar {act : Eval L α} (h : Fitting O known g) (enacts : Enacts fuel act)
    (answer : ∀ a g', act g = .ok (a, g') → g.SameWidths g' → Q a g') :
    Concurs O Q (onGrammar act) (onGrammar act) known g := by
  refine ⟨rfl, fun a known' g' run => ?_⟩
  obtain ⟨b, g₁, run, last⟩ :=
    Action.bind_ok.mp (show (act >>= fun a => Pure.pure (a, known)) g = _ from run)
  cases last
  obtain ⟨based, widths⟩ := enacts.based h.based run
  exact ⟨⟨based, h.fits.mono widths⟩, widths, answer a g' run widths⟩

end Extraction.Concurs

end Reading

/-! ### Where matches end -/

section Ends

variable {L : Type} [DecidableEq L] {g g' : Grammar L} {O : NodeId → Prop} {fuel : Nat}
  {input symbols : List (Symbol L)} {x : NodeId} {i : Nat} {stops : List Nat} {known : Extracted L}

theorem Lists.cons_le {later : List Nat} (h : Lists False (i < ·) later) (b : Bool) :
    Lists False (i ≤ ·) (if b then i :: later else later) := by
  have front : Lists False (fun k => k = i ∧ True ∨ i < k) (if b then i :: later else later) :=
    h.cons (fun k hk => hk) (fun _ => trivial) False.elim
  refine front.imp (fun k hk => ?_) False.elim
  rcases hk with ⟨rfl, -⟩ | after
  · exact Nat.le_refl _
  · exact Nat.le_of_lt after

theorem replay_lists (run : Grammar.replay fuel x i symbols g = .ok (stops, g')) :
    Lists False (i < ·) stops := by
  induction symbols generalizing x i stops g g' with
  | nil =>
    obtain ⟨rfl, -⟩ := Action.pure_ok.mp run
    exact .nil False.elim
  | cons s rest ih =>
    obtain ⟨⟨next, accepts⟩, g₁, -, run⟩ := Action.bind_ok.mp run
    dsimp only at run
    by_cases dead : next = nothing
    · rw [if_pos dead] at run
      obtain ⟨later, _, looking, last⟩ := Action.bind_ok.mp run
      obtain ⟨rfl, -⟩ := Action.pure_ok.mp looking
      obtain ⟨rfl, -⟩ := Action.pure_ok.mp last
      exact Lists.cons_le (i := i + 1) (.nil False.elim) accepts
    · rw [if_neg dead] at run
      obtain ⟨later, _, looking, last⟩ := Action.bind_ok.mp run
      obtain ⟨rfl, -⟩ := Action.pure_ok.mp last
      exact Lists.cons_le (i := i + 1) (ih looking) accepts

omit [DecidableEq L] in
theorem Grammar.stops_leaf {node : Node L} {n : Nat} (there : g.arena.get? x = some node)
    (covers : node.width? = some n) (b : Bool) : g.Stops x i (if b then [i + n] else []) := by
  have only : ∀ k ∈ if b then [i + n] else [], k = i + n := by
    intro k member
    split at member
    · exact List.mem_singleton.mp member
    · cases member
  refine ⟨⟨?_, fun k member => ?_, False.elim⟩, node, there, fun m covers' k member => ?_⟩
  · split <;> simp
  · rw [only k member]
    exact Nat.le_add_right i n
  · cases covers.symm.trans covers'
    exact only k member

theorem findEnds_stops (run : Grammar.findEnds fuel input x i g = .ok (stops, g'))
    (widths : g.SameWidths g') : g'.Stops x i stops := by
  refine Grammar.Stops.mono ?_ widths
  obtain ⟨node, g₁, fetched, run⟩ := Action.bind_ok.mp run
  obtain ⟨there, rfl⟩ := Grammar.fetch_ok.mp fetched
  have inner (width : node.width? = none) (run : (do
      let here ← Grammar.nullable fuel x
      let later ← Grammar.replay fuel x i (input.drop i)
      return if here then i :: later else later : Eval L (List Nat)) g = .ok (stops, g')) :
        g.Stops x i stops := by
    obtain ⟨here, g₁, -, run⟩ := Action.bind_ok.mp run
    obtain ⟨later, g₂, looking, last⟩ := Action.bind_ok.mp run
    obtain ⟨rfl, -⟩ := Action.pure_ok.mp last
    exact ⟨(replay_lists looking).cons_le here, node,
      there, fun n covers => nomatch width.symm.trans covers⟩
  cases node with
  | alt | cat | rep | rule | thunk => exact inner rfl run
  | empty | undefined =>
    obtain ⟨rfl, -⟩ := Action.pure_ok.mp run
    exact ⟨.nil False.elim, _, there, nofun⟩
  | matched s =>
    obtain ⟨rfl, -⟩ := Action.pure_ok.mp run
    exact Grammar.stops_leaf there rfl true
  | token kind =>
    by_cases epsilon : kind = Kind.epsilon
    · simp only [if_pos epsilon] at run
      obtain ⟨rfl, -⟩ := Action.pure_ok.mp run
      exact Grammar.stops_leaf there (congrArg some (if_pos epsilon)) true
    · simp only [if_neg epsilon] at run
      have covers : (Node.token kind : Node L).width? = some 1 := congrArg some (if_neg epsilon)
      cases here : input[i]? with
      | none =>
        simp only [here] at run
        obtain ⟨rfl, -⟩ := Action.pure_ok.mp run
        exact Grammar.stops_leaf there covers false
      | some s =>
        simp only [here] at run
        obtain ⟨rfl, -⟩ := Action.pure_ok.mp run
        exact Grammar.stops_leaf there covers (kind.isTerminal && s.kind == kind)

theorem concurs_ends (h : Fitting O known g) :
    Extraction.Concurs O (fun stops g' => g'.Stops x i stops)
    (Grammar.ends fuel input x i) (Grammar.ends fuel input x i) known g := by
  refine .get_bind ?_
  cases there : known.ends[(⟨x, i⟩ : Site)]? with
  | some stops => exact .pure h (h.fits.ends x i stops there)
  | none =>
    refine Extraction.Concurs.bind
      (.onGrammar h (Enacts.compositional.findEnds input x i) fun _ _ => findEnds_stops)
      fun stops known₁ g₁ fitting _ found => ?_
    have fits : { known₁ with ends := known₁.ends.insert ⟨x, i⟩ stops }.Fits O g₁ := by
      refine ⟨fun y j stops' there => ?_, fitting.fits.trees⟩
      rw [Std.TreeMap.getElem?_insert] at there
      split at there
      · rename_i same
        cases Std.LawfulEqCmp.eq_of_compare same
        cases there
        exact found
      · exact fitting.fits.ends y j stops' there
    exact .bind (.modify fitting fits) fun _ known₂ g₂ fitting widths _ =>
      .pure fitting (found.mono widths)

end Ends

/-! ### The trees of a span -/

section Spans

open DerivativeParsing.Extraction (Concurs)

variable {L : Type} [DecidableEq L] {g g' : Grammar L} {O : NodeId → Prop} {fuel depth : Nat}
  {input : List (Symbol L)} {known : Extracted L} {alarm : Error} {s : Span} {path : List Span}
  {left right : NodeId} {start stop : Nat} {below below' : Span → Extraction L (Forest (Symbol L))}

/-- The tree is joined from trees of two spans that meet at some middle. -/
def Joined (O : NodeId → Prop) (left right : NodeId) (start stop middle : Nat)
    (t : Tree (Symbol L)) : Prop :=
  ∃ l r, Span.Fits O ⟨left, start, middle⟩ l ∧ Span.Fits O ⟨right, middle, stop⟩ r ∧ l.join r = t

omit [DecidableEq L] in
/-- A tree is joined at one middle only. -/
theorem Joined.middle_eq {m m' : Nat} {t : Tree (Symbol L)} (h : Joined O left right start stop m t)
    (h' : Joined O left right start stop m' t) : m = m' := by
  obtain ⟨l, r, hl, -, rfl⟩ := h
  obtain ⟨l', r', hl', -, same⟩ := h'
  obtain ⟨rfl, -⟩ := Tree.join_inj.mp same
  exact hl.stop_eq hl'

section Below

variable (each : ∀ s known g, Fitting O known g →
  Concurs O (fun f _ => ∀ t ∈ f.trees, s.Fits O t) (below s) (below' s) known g)
include each

/-- As trees are joined at different middles, they are as many as their readings. By induction on
the middles. -/
theorem concurs_foldlM {middles : List Nat} (consume : Bool) (ascending : middles.Pairwise (· < ·))
    (h : Fitting O known g) (found : Forest (Symbol L))
    (before : ∀ t ∈ found.trees, ∃ m, (∀ k ∈ middles, m < k) ∧ Joined O left right start stop m t) :
    Concurs O (fun p _ => p.1.size = p.2 ∧ ∀ t ∈ p.1.trees, ∃ m, Joined O left right start stop m t)
      (middles.foldlM
        (Evaluator.takeSplit (fun found l r => found.union (l.permute r)) below left right
        start stop consume) found >>= fun found => pure (found, found.size))
      (middles.foldlM (Evaluator.takeSplit
        (fun (found, readings) l r => (found.union (l.permute r), readings + l.size * r.size))
          below' left
        right start stop consume) (found, found.size)) known g := by
  induction middles generalizing found known g with
  | nil =>
    refine .pure h ⟨rfl, fun t member => ?_⟩
    obtain ⟨m, -, joined⟩ := before t member
    exact ⟨m, joined⟩
  | cons middle rest ih =>
    obtain ⟨first, ascending⟩ := List.pairwise_cons.mp ascending
    have old : ∀ t ∈ found.trees, ∃ m, (∀ k ∈ rest, m < k) ∧
        Joined O left right start stop m t := by
      intro t member
      obtain ⟨m, le, joined⟩ := before t member
      exact ⟨m, fun k later => le k (.tail _ later), joined⟩
    simp only [List.foldlM_cons, bind_assoc, Evaluator.takeSplit]
    by_cases skip : (stop < middle || (consume && middle == start)) = true
    · simp only [if_pos skip, pure_bind]
      exact ih ascending h found old
    · simp only [if_neg skip, bind_assoc]
      refine .bind (each ⟨right, middle, stop⟩ known g h) fun r known₁ g₁ h₁ _ fitr => ?_
      by_cases none : r.isEmpty = true
      · simp only [if_pos none, pure_bind]
        exact ih ascending h₁ found old
      · simp only [if_neg none, bind_assoc]
        refine .bind (each ⟨left, start, middle⟩ known₁ g₁ h₁) fun l known₂ g₂ h₂ _ fitl => ?_
        have new : ∀ t ∈ (l.permute r).trees, Joined O left right start stop middle t := by
          intro t member
          obtain ⟨a, ha, b, hb, same⟩ := Forest.mem_permute.mp member
          exact ⟨a, b, fitl a ha, fitr b hb, same⟩
        have disjoint : ∀ t ∈ found.trees, t ∉ (l.permute r).trees := by
          intro t member again
          obtain ⟨m, le, joined⟩ := before t member
          exact absurd (joined.middle_eq (new t again)) (Nat.ne_of_lt (le middle (.head _)))
        have readings : found.size + l.size * r.size = (found.union (l.permute r)).size := by
          rw [Forest.size_union disjoint, Forest.size_permute]
        simp only [pure_bind, readings]
        refine ih ascending h₂ _ fun t member => ?_
        rcases Forest.mem_union.mp member with member | member
        · exact old t member
        · exact ⟨middle, first, new t member⟩

theorem concurs_foldSplits (consume : Bool) (h : Fitting O known g) :
    Concurs O (fun p _ => p.1.size = p.2 ∧ ∀ t ∈ p.1.trees, ∃ m, Joined O left right start stop m t)
      ((Evaluator.plain fuel).foldSplits input (fun found l r => found.union (l.permute r))
        Forest.empty
        below left right start stop consume >>= fun found => pure (found, found.size))
      ((Evaluator.plain fuel).foldSplits input
        (fun (found, readings) l r => (found.union (l.permute r), readings + l.size * r.size))
        (Forest.empty, 0) below' left right start stop consume) known g := by
  unfold Evaluator.foldSplits
  rw [bind_assoc]
  exact .bind (concurs_ends h) fun middles known₁ g₁ h₁ _ found =>
    concurs_foldlM each consume found.lists.ascending h₁ .empty nofun

theorem concurs_splits (consume : Bool) (h : Fitting O known g) :
    Concurs O (fun f _ => ∀ t ∈ f.trees, ∃ m, Joined O left right start stop m t)
      (Grammar.splits fuel input below left right start stop consume)
      (Grammar.splitsCounted alarm fuel input below' left right start stop consume) known g := by
  have plain : Grammar.splits fuel input below left right start stop consume = (do
      let p ← (Evaluator.plain fuel).foldSplits input (fun found l r => found.union (l.permute r))
        Forest.empty below left right start stop consume >>= fun found => pure (found, found.size)
      return p.1) := by
    simp only [bind_assoc, pure_bind, bind_pure]
    rfl
  rw [plain]
  refine .bind (concurs_foldSplits each consume h) fun p known₂ g₂ h₂ _ ⟨same, joined⟩ => ?_
  dsimp only
  rw [if_pos same]
  exact .pure h₂ joined

/-- What is rendered fits, if the span ends where a match of its node does. -/
theorem concurs_render (h : Fitting O known g) (stops : g.Stops s.node s.start [s.stop]) :
    Concurs O (fun f _ => ∀ t ∈ f.trees, s.Fits O t) (Grammar.render fuel input below s)
      (Grammar.renderCounted alarm fuel input below' s) known g := by
  have enacts : Enacts fuel (Grammar.fetch s.node : Eval L (Node L)) :=
    Enacts.compositional.fetch s.node
  have fetching :
      Concurs O (fun node g' => g'.arena.get? s.node = some node) (onGrammar (Grammar.fetch s.node))
      (onGrammar (Grammar.fetch s.node)) known g := by
    refine .onGrammar h enacts fun node g' run _ => ?_
    obtain ⟨there, rfl⟩ := Grammar.fetch_ok.mp run
    exact there
  refine .bind fetching fun node known g h widths there => ?_
  obtain ⟨_, _, there', leaf⟩ := stops.mono widths
  cases there.symm.trans there'
  have leaf (n : Nat) (covers : node.width? = some n) : s.stop = s.start + n :=
    leaf n covers s.stop (.head _)
  have alive := h.based.ne_nothing there
  have inside := h.based.layered.pristine.closed s.node node
  have top := h.based.layered.top s.node node
  cases node with
  | empty | undefined => exact .pure h fun _ member => absurd member List.not_mem_nil
  | token kind =>
    have built : O s.node := by
      by_contra out
      exact top out there
    by_cases epsilon : kind = Kind.epsilon
    · simp only [if_pos epsilon]
      refine .pure h fun t member => .of_built (alive (by simp)) built ?_
      cases List.mem_singleton.mp member
      rw [leaf 0 (congrArg some (if_pos epsilon)), Tree.leaves, List.length_nil, Nat.zero_add,
        Nat.add_zero]
    · simp only [if_neg epsilon]
      cases input[s.start]? with
      | none => exact .throw _
      | some symbol =>
        refine .pure h fun t member => .of_built (alive (by simp)) built ?_
        cases List.mem_singleton.mp member
        rw [leaf 1 (congrArg some (if_neg epsilon)), Tree.leaves, List.length_singleton,
          Nat.add_comm]
  | matched symbol =>
    refine .pure h fun t member => ?_
    cases List.mem_singleton.mp member
    refine ⟨alive (by simp), fun built => ?_, fun _ => ?_⟩
    · cases h.based.layered.pristine.built built there
    · rw [leaf 0 rfl, Tree.leaves, List.length_singleton, Nat.add_zero, Nat.add_comm]
  | alt left right =>
    refine .bind (each _ known g h) fun l known₁ g₁ h₁ _ fitl => ?_
    refine .bind (each _ known₁ g₁ h₁) fun r known₂ g₂ h₂ _ fitr => .pure h₂ fun t member => ?_
    rcases Forest.mem_union.mp member with member | member
    · exact (fitl t member).lift (alive (by simp))
        (fun hx => inside hx there _ (.head _)) fun out => (top out there).1
    · exact (fitr t member).lift (alive (by simp))
        (fun hx => inside hx there _ (.tail _ (.head _))) fun out => (top out there).2
  | cat left right =>
    refine (concurs_splits each false h).imp fun f _ joined t member => ?_
    obtain ⟨m, l, r, fitl, fitr, rfl⟩ := joined t member
    exact fitl.join fitr (alive (by simp)) (fun hx => inside hx there _ (.head _))
      (fun out => (top out there).1)
      (h.based.layered.right there)
  | rep body =>
    have built := h.based.layered.rep there
    dsimp only
    by_cases done : s.start = s.stop
    · rw [if_pos done, if_pos done]
      refine .pure h fun t member => .of_built (alive (by simp)) built ?_
      cases List.mem_singleton.mp member
      rw [Tree.leaves, List.length_nil, Nat.zero_add, done]
    · rw [if_neg done, if_neg done]
      refine (concurs_splits each true h).imp fun f _ joined t member => ?_
      obtain ⟨m, l, r, fitl, fitr, rfl⟩ := joined t member
      exact fitl.join fitr (alive (by simp)) (fun hx => inside hx there _ (.head _))
        (fun out => absurd built out) built
  | rule r body =>
    refine (each _ known g h).imp fun f _ fits t member => ?_
    exact (fits t member).lift (alive (by simp))
      (fun hx => inside hx there _ (.head _)) fun out => top out there
  | thunk t base =>
    have derived : ¬O s.node := fun built => by cases h.based.layered.pristine.built built there
    have forcing : Concurs O (fun target _ => target = s.node ∨ Beyond O target)
        (onGrammar (Grammar.force fuel s.node))
        (onGrammar (Grammar.force fuel s.node)) known g := by
      refine .onGrammar h (Enacts.force s.node) fun target g' run _ => ?_
      obtain ⟨W', evaluated⟩ := Grammar.evaluates_of_force (fun _ => .void) run
      exact (evaluated.layered h.based.layered).2
    refine .bind forcing fun target known₁ g₁ h₁ _ resolved => ?_
    refine (each _ known₁ g₁ h₁).imp fun f _ fits t member => ?_
    refine (fits t member).lift (alive (by simp)) (fun hx => absurd hx derived) fun _ => ?_
    exact resolved.elim (fun same => .inr (same ▸ derived)) id

end Below

theorem fits_keep {found : Forest (Symbol L)} (h : Fitting O known g) (outer : Bool)
    (fits : ∀ t ∈ found.trees, s.Fits O t) : (Span.keep s found outer known).Fits O g where
  ends := h.fits.ends
  trees p f there := by
    unfold Span.keep at there
    split at there
    · exact h.fits.trees p f there
    · rw [Std.TreeMap.getElem?_insert] at there
      split at there
      · rename_i same
        cases Std.LawfulEqCmp.eq_of_compare same
        cases there
        exact fits
      · exact h.fits.trees p f there

/-- Reading and counting do the same. By induction on how deep spans may nest. -/
theorem concurs_trees (h : Fitting O known g) : Concurs O (fun f _ => ∀ t ∈ f.trees, s.Fits O t)
    (Grammar.trees fuel input depth path s) (Grammar.treesCounted alarm fuel input depth path s)
      known g := by
  induction depth generalizing path s known g with
  | zero => exact .throw _
  | succ depth ih =>
    refine .get_bind ?_
    cases there : known.trees[s]? with
    | some found => exact .pure h (h.fits.trees s found there)
    | none =>
      refine .bind (concurs_ends h) fun stops known₁ g₁ h₁ _ found => ?_
      by_cases live : stops.contains s.stop = true
      · simp only [live, Bool.not_true, Bool.false_eq_true, if_false]
        split
        · exact .bind (.modify h₁ ⟨h₁.fits.ends, h₁.fits.trees⟩) fun _ known₂ g₂ h₂ _ _ =>
            .pure h₂ nofun
        · refine .get_bind
            (.bind (.modify h₁ ⟨h₁.fits.ends, h₁.fits.trees⟩) fun _ known₂ g₂ h₂ widths _ => ?_)
          have stops : g₂.Stops s.node s.start [s.stop] := by
            obtain ⟨lists, node, there, leaf⟩ := found.mono widths
            have member := List.contains_iff_mem.mp live
            refine ⟨⟨List.pairwise_singleton _ _, fun k hk => ?_, False.elim⟩, node,
              there, fun n covers k hk => ?_⟩
            · rw [List.mem_singleton.mp hk]
              exact lists.sound _ member
            · rw [List.mem_singleton.mp hk]
              exact leaf n covers _ member
          refine .bind
            (concurs_render (fun p known g h => ih h) h₂ stops) fun f known₃ g₃ h₃ _ fits => ?_
          refine .bind (.modify h₃ (fits_keep h₃ _ fits)) fun _ known₄ g₄ h₄ _ _ => ?_
          have enacts : Enacts fuel
              (Grammar.note (.extracted s.node s.start s.stop f.size) : Eval L Unit) := .note _
          exact .bind (.onGrammar (Q := fun _ _ => True)
            h₄ enacts fun _ _ _ _ => trivial) fun _ known₅ g₅ h₅ _ _ =>
            .pure h₅ fits
      · simp only [Bool.not_eq_true] at live
        simp only [live, Bool.not_false, if_true]
        exact .pure h₁ nofun

theorem renderCounted_eq (leaf : ∀ node, g.arena.get? s.node = some node → node.width? ≠ none) :
    Grammar.renderCounted alarm fuel input below' s known g =
      Grammar.render fuel input below s known g := by
  unfold Grammar.renderCounted Grammar.render Evaluator.render Evaluator.renderBy
  cases there : g.arena.get? s.node with
  | none =>
    have fails : Grammar.fetch s.node g = .error (.outOfRange s.node) := by
      rw [Grammar.fetch, Grammar.lookup, there]
    have reading (k : Node L → Extraction L (Forest (Symbol L))) :
        (onGrammar (Grammar.fetch s.node) >>= k) known g = .error (.outOfRange s.node) :=
      Action.bind_of_error (k := fun (p : Node L × Extracted L) => k p.1 p.2)
        (Action.bind_of_error (k := fun node => Pure.pure (node, known)) fails)
    exact (reading _).trans (reading _).symm
  | some node =>
    rw [Extraction.fetch_run there, Extraction.fetch_run there]
    cases node with
    | token | matched => dsimp only
    | empty | undefined | alt | cat | rep | rule | thunk => exact absurd rfl (leaf _ there)

/-- Where it is known where matches end, a span is looked up without asking the grammar. -/
theorem lookOr_eq {stops : List Nat} {read read' : Extraction L (Forest (Symbol L))}
    (ends : known.ends[(⟨s.node, s.start⟩ : Site)]? = some stops)
    (same : read' known g = read known g) :
    s.lookOr (.plain fuel) input path read' known g =
      s.lookOr (.plain fuel) input path read known g := by
  have looked {α : Type} (k : Extracted L → Extraction L α) :
      (get >>= k) known g = k known known g := rfl
  have finding :
      (Evaluator.plain fuel).ends input s.node s.start known g = .ok ((stops, known), g) := by
    unfold Evaluator.ends
    rw [looked, ends]
    rfl
  have found (k : List Nat → Extraction L (Forest (Symbol L))) :
      ((Evaluator.plain fuel).ends input s.node s.start >>= k) known g = k stops known g :=
    Action.bind_of_ok (k := fun (p : List Nat × Extracted L) => k p.1 p.2) finding
  unfold Span.lookOr
  rw [looked, looked]
  cases known.trees[s]? with
  | some f => rfl
  | none =>
    dsimp only
    rw [found, found]
    split
    · rfl
    split
    · rfl
    · exact same

omit [DecidableEq L] in
theorem keeping_eq {read read' : Extraction L (Forest (Symbol L))}
    (same : read' { known with cut := false } g = read { known with cut := false } g) :
    s.keeping read' known g = s.keeping read known g := by
  show (read' { known with cut := false } g >>= _) = (read { known with cut := false } g >>= _)
  rw [same]

/-- Where the ends of the matches of a leaf are known, its span is read without sequences. -/
theorem treesCounted_eq {stops : List Nat}
    (ends : known.ends[(⟨s.node, s.start⟩ : Site)]? = some stops)
    (leaf : ∀ node, g.arena.get? s.node = some node → node.width? ≠ none) :
    Grammar.treesCounted alarm fuel input depth path s known g =
      Grammar.trees fuel input depth path s known g := by
  cases depth with
  | zero =>
    unfold Grammar.treesCounted Grammar.trees Evaluator.trees Span.nest
    rfl
  | succ depth =>
    exact lookOr_eq ends (keeping_eq (renderCounted_eq leaf))

theorem Action.bind_eq {σ α β : Type} {act act' : StateT σ (Except Error) α}
    {k : α → StateT σ (Except Error) β} {s : σ} (same : act' s = act s) :
    (act' >>= k) s = (act >>= k) s := by
  show (act' s >>= fun p => k p.1 p.2) = (act s >>= fun p => k p.1 p.2)
  rw [same]

omit [DecidableEq L] in
theorem run'_eq {act act' : Extraction L (Forest (Symbol L))} (same : act' known g = act known g) :
    act'.run' known g = act.run' known g := by
  show (act' known >>= fun p => pure p.1) g = (act known >>= fun p => pure p.1) g
  exact Action.bind_eq same

theorem acceptingAt_lists {ids : List NodeId} {i : Nat} {stops : List Nat}
    (run : Grammar.acceptingAt fuel i ids g = .ok (stops, g')) : Lists False (i ≤ ·) stops := by
  induction ids generalizing i stops g with
  | nil =>
    obtain ⟨rfl, -⟩ := Action.pure_ok.mp run
    exact .nil False.elim
  | cons id rest ih =>
    obtain ⟨accepts, g₁, -, run⟩ := Action.bind_ok.mp run
    obtain ⟨later, g₂, looking, last⟩ := Action.bind_ok.mp run
    obtain ⟨rfl, rfl⟩ := Action.pure_ok.mp last
    exact Lists.cons_le (ih looking) accepts

/-- Where the matches of the start end is told by the nodes of the chain. If the start is a leaf,
that may be wrong, but then there are no sequences. -/
theorem forestOfRunCounted_eq {chain : List NodeId} (based : g.Based O) :
    Grammar.forestOfRunCounted alarm fuel chain input g =
      Grammar.forestOfRun fuel chain input g := by
  unfold Grammar.forestOfRunCounted Grammar.forestOfRun Evaluator.forestOfRun Evaluator.forestBy
    Evaluator.readRun
  cases chain with
  | nil => dsimp only
  | cons start after =>
    dsimp only
    split
    · rfl
    cases run : (Evaluator.plain fuel).acceptingAt 0 (start :: after) g with
    | error e => rw [Action.bind_of_error run, Action.bind_of_error run]
    | ok p =>
      obtain ⟨stops, g₁⟩ := p
      rw [Action.bind_of_ok run, Action.bind_of_ok run]
      split
      · rfl
      obtain ⟨based₁, -⟩ := (Enacts.compositional.acceptingAt 0 (start :: after)).based based run
      let known : Extracted L := { ends := Std.TreeMap.empty.insert ⟨start, 0⟩ stops }
      have ends : known.ends[(⟨start, 0⟩ : Site)]? = some stops := Std.TreeMap.getElem?_insert_self
      have same : (Grammar.treesCounted alarm fuel input fuel [] ⟨start, 0, input.length⟩).run'
          known g₁ =
          (Grammar.trees fuel input fuel [] ⟨start, 0, input.length⟩).run' known g₁ := by
        refine run'_eq ?_
        by_cases inner : ∃ node, g₁.arena.get? start = some node ∧ node.width? = none
        · obtain ⟨node, there, width⟩ := inner
          have fits : known.Fits O g₁ := by
            refine ⟨fun x i stops' there' => ?_, fun s f there' => ?_⟩
            · rw [Std.TreeMap.getElem?_insert] at there'
              split at there'
              · rename_i same
                cases Std.LawfulEqCmp.eq_of_compare same
                cases there'
                exact ⟨acceptingAt_lists run, node,
                  there, fun n covers => nomatch width.symm.trans covers⟩
              · cases Std.TreeMap.getElem?_emptyc.symm.trans there'
            · cases Std.TreeMap.getElem?_emptyc.symm.trans there'
          exact (concurs_trees ⟨based₁, fits⟩).1
        · exact treesCounted_eq ends fun node there width => inner ⟨node, there, width⟩
      exact Action.bind_eq same

end Spans

/-! ## Whatever was done -/

section Deeds

variable {L : Type} [DecidableEq L] {source : Source} {start : NodeId} {g₀ g : Grammar L}
  {fuel : Nat} {deeds : List (Deed L)}

/-- Whatever was done to a grammar that was built, a sequence has as many trees as readings, of
every stretch that comes up when the trees of a node are read over an input, or the forest of a run:
an alarm would be raised otherwise. -/
theorem readings_counted (built : source.grammar = .ok (start, g₀))
    (done : Grammar.enactAll fuel deeds g₀ = .ok ((), g)) (alarm : Error) (fuel' : Nat)
    (input : List (Symbol L)) :
    (∀ id, Grammar.parseTreesCounted alarm fuel' id input g = Grammar.parseTrees fuel' id input g) ∧
      ∀ chain, Grammar.forestOfRunCounted alarm fuel' chain input g =
        Grammar.forestOfRun fuel' chain input g := by
  obtain ⟨W, O, good, layered⟩ := enactAll_layered built done
  have based : g.Based O := ⟨⟨_, W, good⟩, layered⟩
  refine ⟨fun id => ?_, fun chain => forestOfRunCounted_eq based⟩
  exact run'_eq (concurs_trees ⟨based, Extracted.fits_nil O g⟩).1

/-- Two tokens, each of which may be missing: it is not told which one, if one is. -/
def halved : Source := .plain (.cat (.alt (.token 2) .epsilon) (.alt (.token 2) .epsilon))

theorem readings_counted_halved :
    ∃ (start : NodeId) (g₀ g : Grammar String), halved.grammar = .ok (start, g₀) ∧
    Grammar.enactAll 30 [.derive start ⟨2, "x"⟩, .nullable start] g₀ = .ok ((), g) ∧
      Grammar.parseTreesCounted .outOfFuel 30 start [⟨2, "x"⟩] g =
        Grammar.parseTrees 30 start [⟨2, "x"⟩] g ∧
        ∃ found g', Grammar.parseTrees 30 start [⟨2, "x"⟩] g = .ok (found, g') ∧
          found.size = 2 := by
  obtain ⟨⟨start, g₀⟩, built, reads⟩ :=
    exists_of_any (show ((halved.grammar (L := String)).toOption.any fun p =>
    (Grammar.enactAll 30 [.derive p.1 ⟨2, "x"⟩, .nullable p.1] p.2).toOption.any fun q =>
      (Grammar.parseTrees 30 p.1 [⟨2, "x"⟩] q.2).toOption.any fun p => p.1.size == 2) =
        true by decide +kernel)
  obtain ⟨⟨_, g⟩, done, reads⟩ := exists_of_any reads
  obtain ⟨⟨found, g'⟩, reading, two⟩ := exists_of_any reads
  exact ⟨start, g₀, g, built, done, (readings_counted built done .outOfFuel 30 _).1 start, found,
    g', reading, eq_of_beq two⟩

end Deeds

end DerivativeParsing
