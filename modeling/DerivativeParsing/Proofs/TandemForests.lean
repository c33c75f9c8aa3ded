import DerivativeParsing.Forest.Extraction
import DerivativeParsing.Proofs.Tandem

/-!
# Forests in tandem

What an extraction knows is kept under the names of nodes, but it is only looked up. So forests are
the same, whatever the names: with their trees in their order.

1. `Extracted.Twin` relates what is known of paired nodes: where their matches end, and their trees.
2. `tandem_ends`, `tandem_render`, `tandem_trees`: spans at paired nodes are read in tandem.
3. `tandem_forestOfRun`: so is the forest of a run.
-/

namespace DerivativeParsing

namespace Grammar

variable {L : Type} [DecidableEq L] {R S : Pairing} {x y : NodeId} {node node' : Node L}
  {fuel : Nat} {input : List (Symbol L)}

/-! ## Where matches end -/

theorem tandem_replay (fuel : Nat) (pair : R.Pairs x y) (position : Nat)
    (symbols : List (Symbol L)) :
    Tandem R Same (replay fuel x position symbols) (replay fuel y position symbols) := by
  induction symbols generalizing R x y position with
  | nil => exact .pure rfl
  | cons s rest ih =>
    refine .bind (tandem_step fuel pair s true) ?_
    rintro S ⟨next, accepts⟩ ⟨next', _⟩ le ⟨pair, rfl⟩
    simp only [Pairing.eq_nothing pair]
    split
    · exact .pure rfl
    · refine .bind (ih pair (position + 1)) ?_
      rintro T later _ _ rfl
      exact .pure rfl

theorem tandem_findEnds (fuel : Nat) (input : List (Symbol L)) (pair : R.Pairs x y) (start : Nat) :
    Tandem R Same (findEnds fuel input x start) (findEnds fuel input y start) := by
  have derived (S : Pairing) (pair : S.Pairs x y) : Tandem S Same
      (do let here ← nullable fuel x
          let later ← replay fuel x start (input.drop start)
          return if here then start :: later else later : Eval L (List Nat))
      (do let here ← nullable fuel y
          let later ← replay fuel y start (input.drop start)
          return if here then start :: later else later) := by
    refine .bind ((evaluates_in_tandem fuel).nullable S x y pair) ?_
    rintro T here _ le rfl
    refine .bind (tandem_replay fuel (le _ _ pair) start (input.drop start)) ?_
    rintro T₁ later _ _ rfl
    exact .pure rfl
  unfold findEnds Evaluator.findEnds
  refine .bind (.fetch pair) fun S node node' le twin => ?_
  have pair := le _ _ pair
  cases twin with
  | empty | undefined | matched => exact .pure rfl
  | token kind =>
    dsimp only
    split
    · exact .pure rfl
    · split <;> exact .pure rfl
  | _ => exact derived S pair

end Grammar

/-! ## The trees of a span -/

/-- What is known already, under other names. -/
structure Extracted.Twin {L : Type} (R : Pairing) (known known' : Extracted L) : Prop where
  ends : Tables (R.Along fun s : Site => (s.node, s.start)) Eq (known.ends[·]?) (known'.ends[·]?)
  trees : Tables (R.Along fun s : Span => (s.node, s.start, s.stop)) Eq (known.trees[·]?)
    (known'.trees[·]?)
  cut : known.cut = known'.cut

/-- The same stretch of the input, at paired nodes. -/
def Span.Twin (R : Pairing) (s s' : Span) : Prop :=
  R.Along (fun s : Span => (s.node, s.start, s.stop)) s s'

theorem Site.injective_parts : Function.Injective fun s : Site => (s.node, s.start) := by
  rintro ⟨_, _⟩ ⟨_, _⟩ same
  cases same
  rfl

theorem Span.injective_parts : Function.Injective fun s : Span => (s.node, s.start, s.stop) := by
  rintro ⟨_, _, _⟩ ⟨_, _, _⟩ same
  cases same
  rfl

section Known

variable {L : Type} {R S : Pairing} {known known' : Extracted L} {s s' : Span}

theorem Extracted.Twin.mono (h : known.Twin R known') (le : R ≤ S) : known.Twin S known' :=
  ⟨h.ends.mono (Pairing.along_mono le) fun _ _ => id,
    h.trees.mono (Pairing.along_mono le) fun _ _ => id, h.cut⟩

theorem Span.Twin.mono (h : s.Twin R s') (le : R ≤ S) : s.Twin S s' := Pairing.along_mono le s s' h

theorem Extracted.Twin.fresh : Extracted.Twin R ({} : Extracted L) {} :=
  ⟨.empty (fun _ => Std.TreeMap.getElem?_emptyc) fun _ => Std.TreeMap.getElem?_emptyc,
    .empty (fun _ => Std.TreeMap.getElem?_emptyc) fun _ => Std.TreeMap.getElem?_emptyc, rfl⟩

theorem Extracted.Twin.withEnds (h : known.Twin R known') {x y : NodeId} (pair : R.Pairs x y)
    (start : Nat) (stops : List Nat) :
    Extracted.Twin R { known with ends := known.ends.insert ⟨x, start⟩ stops }
      { known' with ends := known'.ends.insert ⟨y, start⟩ stops } :=
  ⟨h.ends.insert (Pairing.biUnique_along Site.injective_parts) ⟨pair, rfl⟩ rfl, h.trees, h.cut⟩

theorem Extracted.Twin.keep [DecidableEq L] (h : known.Twin R known') (twin : s.Twin R s')
    (found : Forest (Symbol L)) (outer : Bool) :
    Extracted.Twin R (Span.keep s found outer known) (Span.keep s' found outer known') := by
  refine ⟨h.ends, ?_, ?_⟩
  · unfold Span.keep
    rw [h.cut]
    split
    · exact h.trees
    · exact h.trees.insert (Pairing.biUnique_along Span.injective_parts) twin rfl
  · rw [Span.keep, Span.keep, h.cut]

end Known

namespace Grammar

section Extraction

open Extraction (onGrammar)

variable {L : Type} [DecidableEq L] {R S : Pairing} {x y : NodeId} {fuel : Nat}
  {input : List (Symbol L)}

theorem extraction_lift {α β : Type} {V : Pairing → α → β → Prop} {act : Eval L α} {act' : Eval L β}
    (h : Tandem R V act act') : TandemWith Extracted.Twin R V (onGrammar act) (onGrammar act') :=
  .lift (fun _ _ _ le known => known.mono le) h

theorem tandem_ends (fuel : Nat) (input : List (Symbol L)) (pair : R.Pairs x y) (start : Nat) :
    TandemWith Extracted.Twin R Same (ends fuel input x start) (ends fuel input y start) := by
  unfold ends Evaluator.ends
  refine .bind .get fun S known known' le twin => ?_
  have asked : S.Along (fun s : Site => (s.node, s.start)) ⟨x, start⟩ ⟨y, start⟩ :=
    ⟨le _ _ pair, rfl⟩
  have before := twin.ends.lookup (Pairing.biUnique_along Site.injective_parts) asked
  generalize known.ends[(⟨x, start⟩ : Site)]? = found,
    known'.ends[(⟨y, start⟩ : Site)]? = found' at before ⊢
  cases before with
  | some same => exact .pure same
  | none =>
    refine .bind (extraction_lift (tandem_findEnds fuel input (le _ _ pair) start)) ?_
    rintro T found _ le' rfl
    exact .bind
      (.modify fun known known' twin => twin.withEnds ((le.trans le') _ _ pair) start found)
      fun U _ _ _ _ => .pure rfl

def ReadsInTandem (R : Pairing) (below below' : Span → Extraction L (Forest (Symbol L))) : Prop :=
  ∀ S s s', R ≤ S → s.Twin S s' → TandemWith Extracted.Twin S Same (below s) (below' s')

variable {below below' : Span → Extraction L (Forest (Symbol L))}

theorem tandem_foldlM {α β : Type} {f f' : β → α → Extraction L β} (l : List α) (b : β)
    (h : ∀ S, R ≤ S → ∀ b a, TandemWith Extracted.Twin S Same (f b a) (f' b a)) :
    TandemWith Extracted.Twin R Same (l.foldlM f b) (l.foldlM f' b) := by
  induction l generalizing R b with
  | nil => exact .pure rfl
  | cons a l ih =>
    rw [List.foldlM_cons, List.foldlM_cons]
    refine .bind (h R (le_refl R) b a) ?_
    rintro S c _ le rfl
    exact ih c fun T le' => h T (le.trans le')

theorem tandem_splits {left left' right right' : NodeId} (h : ReadsInTandem R below below')
    (hl : R.Pairs left left') (hr : R.Pairs right right') (start stop : Nat) (consume : Bool) :
    TandemWith Extracted.Twin R Same (splits fuel input below left right start stop consume)
      (splits fuel input below' left' right' start stop consume) := by
  unfold splits Evaluator.splits Evaluator.foldSplits
  refine .bind (tandem_ends fuel input hl start) ?_
  rintro S middles _ le rfl
  refine tandem_foldlM middles _ fun T le' found middle => ?_
  have le := le.trans le'
  unfold Evaluator.takeSplit
  split
  · exact .pure rfl
  · refine .bind (h T _ _ le ⟨le _ _ hr, rfl⟩) ?_
    rintro T₁ r _ le₁ rfl
    split
    · exact .pure rfl
    · refine .bind (h T₁ _ _ (le.trans le₁) ⟨(le.trans le₁) _ _ hl, rfl⟩) ?_
      rintro T₂ l _ _ rfl
      exact .pure rfl

theorem tandem_render {s s' : Span} (h : ReadsInTandem R below below') (twin : s.Twin R s') :
    TandemWith Extracted.Twin R Same (render fuel input below s) (render fuel input below' s') := by
  obtain ⟨x, start, stop⟩ := s
  obtain ⟨y, start', stop'⟩ := s'
  obtain ⟨pair, same⟩ := twin
  cases same
  unfold render Evaluator.render Evaluator.renderBy
  refine .bind (extraction_lift (.fetch pair)) fun S node node' le twin => ?_
  have pair : S.Pairs x y := le _ _ pair
  have h : ReadsInTandem S below below' := fun T s s' le' => h T s s' (le.trans le')
  cases twin with
  | empty | undefined | matched => exact .pure rfl
  | token kind =>
    dsimp only
    split
    · exact .pure rfl
    · split
      · exact .pure rfl
      · exact .throw _
  | alt left right =>
    refine .bind (h S _ _ (le_refl S) ⟨left, rfl⟩) ?_
    rintro T l _ le rfl
    refine .bind (h T _ _ le ⟨le _ _ right, rfl⟩) ?_
    rintro T₁ r _ _ rfl
    exact .pure rfl
  | cat left right => exact tandem_splits h left right start stop false
  | rep body =>
    dsimp only
    split
    · exact .pure rfl
    · exact tandem_splits h body pair start stop true
  | rule _ body => exact h S _ _ (le_refl S) ⟨body, rfl⟩
  | thunk =>
    refine .bind (extraction_lift
      ((evaluates_in_tandem fuel).force S x y pair)) fun T target target' le targets => ?_
    exact h T _ _ le ⟨targets, rfl⟩

theorem contains_twin {path path' : List Span} {s s' : Span}
    (spans : List.Forall₂ (Span.Twin R) path path') (twin : s.Twin R s') :
    path.contains s = path'.contains s' := by
  rw [Bool.eq_iff_iff, List.contains_iff_mem, List.contains_iff_mem]
  exact List.rel_mem (Pairing.biUnique_along Span.injective_parts) twin spans

theorem tandem_trees (fuel : Nat) (input : List (Symbol L)) (depth : Nat) {path path' : List Span}
    {s s' : Span} (spans : List.Forall₂ (Span.Twin R) path path') (twin : s.Twin R s') :
    TandemWith Extracted.Twin R Same (trees fuel input depth path s)
      (trees fuel input depth path' s') := by
  induction depth generalizing R path path' s s' with
  | zero => exact .throw _
  | succ depth ih =>
    have stop : s.stop = s'.stop := congrArg Prod.snd twin.2
    refine .bind .get fun S known known' le knows => ?_
    have twin := twin.mono le
    have before := knows.trees.lookup (Pairing.biUnique_along Span.injective_parts) twin
    generalize known.trees[s]? = found, known'.trees[s']? = found' at before ⊢
    cases before with
    | some same => exact .pure same
    | none =>
      have start : s.start = s'.start := congrArg Prod.fst twin.2
      rw [← start]
      refine .bind (tandem_ends fuel input twin.1 s.start) ?_
      rintro S₁ stops _ le₁ rfl
      have twin := twin.mono le₁
      have le := le.trans le₁
      have spans : List.Forall₂ (Span.Twin S₁) path path' := spans.imp fun _ _ h => h.mono le
      rw [stop, contains_twin spans twin]
      split
      · exact .pure rfl
      split
      · exact .bind (.modify fun known known' knows =>
          ⟨knows.ends, knows.trees, rfl⟩) fun T _ _ _ _ => .pure rfl
      · refine .bind .get fun S₂ outer outer' le₂ knows => ?_
        have same := knows.cut
        refine .bind
          (.modify fun known known' knows => ⟨knows.ends, knows.trees, rfl⟩) fun S₃ _ _ le₃ _ => ?_
        have twin := twin.mono (le₂.trans le₃)
        have spans : List.Forall₂ (Span.Twin S₃) path path' :=
          spans.imp fun _ _ h => h.mono (le₂.trans le₃)
        have below : ReadsInTandem S₃ (trees fuel input depth (s :: path))
            (trees fuel input depth (s' :: path')) :=
          fun T a b le same => ih (.cons (twin.mono le) (spans.imp fun _ _ h => h.mono le)) same
        refine .bind (tandem_render below twin) ?_
        rintro S₄ found _ le₄ rfl
        rw [same]
        refine .bind (.modify fun known known' knows =>
          knows.keep (twin.mono le₄) found outer'.cut) fun S₅ _ _ _ _ => ?_
        exact .bind (extraction_lift (.note _ _)) fun S₆ _ _ _ _ => .pure rfl

theorem tandem_acceptingAt (fuel position : Nat) {nodes nodes' : List NodeId}
    (pairs : List.Forall₂ R.Pairs nodes nodes') :
    Tandem R Same (acceptingAt fuel position nodes : Eval L (List Nat))
      (acceptingAt fuel position nodes') := by
  induction nodes generalizing R nodes' position with
  | nil =>
    cases pairs
    exact .pure rfl
  | cons x nodes ih =>
    obtain _ | ⟨pair, rest⟩ := pairs
    refine .bind ((evaluates_in_tandem fuel).nullable R _ _ pair) ?_
    rintro S accepts _ le rfl
    refine .bind (ih (position + 1) (rest.imp le)) ?_
    rintro T later _ _ rfl
    exact .pure rfl

/-- What a run left is read in tandem, if the whole input is. -/
theorem tandem_readRun {α : Type} {unread : α} {read : NodeId → Extracted L → Eval L α}
    {chain chain' : List NodeId} (pairs : List.Forall₂ R.Pairs chain chain')
    (input : List (Symbol L))
    (reads : ∀ S x y known known', S.Pairs x y → Extracted.Twin S known known' →
      Tandem S Same (read x known) (read y known')) :
    Tandem R Same ((Evaluator.plain fuel).readRun unread read chain input)
      ((Evaluator.plain fuel).readRun unread read chain' input) := by
  unfold Evaluator.readRun
  cases pairs with
  | nil => exact .pure rfl
  | @cons x y after after' pair rest =>
    simp only [rest.length_eq]
    split
    · exact .pure rfl
    · refine .bind (tandem_acceptingAt fuel 0 (.cons pair rest)) ?_
      rintro S stops _ le rfl
      split
      · exact .pure rfl
      · exact reads S x y _ _ (le _ _ pair) (Extracted.Twin.fresh.withEnds (le _ _ pair) 0 stops)

/-- The forest of a run is the same, whatever the names of the nodes. -/
theorem tandem_forestOfRun (fuel : Nat) {chain chain' : List NodeId}
    (pairs : List.Forall₂ R.Pairs chain chain') (input : List (Symbol L)) :
    Tandem R Same (forestOfRun fuel chain input) (forestOfRun fuel chain' input) := by
  unfold forestOfRun Evaluator.forestOfRun Evaluator.forestBy
  refine tandem_readRun pairs input fun S x y known known' pair twin => ?_
  have span : Span.Twin S ⟨x, 0, input.length⟩ ⟨y, 0, input.length⟩ := ⟨pair, rfl⟩
  refine .bind ((tandem_trees fuel input fuel .nil span).run' twin) ?_
  rintro T found _ _ rfl
  exact .pure rfl

end Extraction

end Grammar

end DerivativeParsing
