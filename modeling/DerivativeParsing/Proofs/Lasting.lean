import DerivativeParsing.Proofs.Running
import DerivativeParsing.Proofs.Trees

/-!
# Answers last

How much fuel there is does not matter, if it is enough: what an action answers with some fuel, it
answers with any more. `Lasts` says so of an action, and is put together like the actions
themselves, up to `parse_answers`.
-/

namespace DerivativeParsing

/-- What the action answers with this fuel, it answers with more. -/
def Lasts {σ α : Type} (fuel : Nat) (act : Nat → StateT σ (Except Error) α) : Prop :=
  ∀ s p, act fuel s = .ok p → Answers act s p

section Lasts

variable {σ α β L : Type} {fuel : Nat}

namespace Lasts

variable {act act' : Nat → StateT σ (Except Error) α} {k : Nat → α → StateT σ (Except Error) β}

theorem const (act : StateT σ (Except Error) α) : Lasts fuel fun _ => act := fun _ _ h => .const h

theorem bind (first : Lasts fuel act) (next : ∀ a, Lasts fuel (k · a)) :
    Lasts fuel fun n => act n >>= k n := by
  intro s p h
  obtain ⟨b, s'⟩ := p
  obtain ⟨a, s₁, ha, hk⟩ := Action.bind_ok.mp h
  exact .bind (first s _ ha) (next a s₁ _ hk)

theorem congr (h : Lasts fuel act) (N : Nat) (le : N ≤ fuel) (same : ∀ n ≥ N, act' n = act n) :
    Lasts fuel act' := by
  intro s p run
  rw [same fuel le] at run
  obtain ⟨M, h⟩ := h s p run
  exact ⟨max M N, fun n le => (congrFun (same n (by omega)) s).trans (h n (by omega))⟩

end Lasts

/-! ## Actions in the course of an extraction -/

/-- Whatever is known, what the action answers with this fuel, it answers with more. -/
def Extraction.Lasts (fuel : Nat) (act : Nat → Extraction L α) : Prop :=
  ∀ known, DerivativeParsing.Lasts fuel fun n => act n known

namespace Extraction.Lasts

variable {act : Nat → Extraction L α} {k : Nat → α → Extraction L β}

theorem const (act : Extraction L α) : Lasts fuel fun _ => act := fun known => .const (act known)

theorem bind (first : Lasts fuel act) (next : ∀ a, Lasts fuel (k · a)) :
    Lasts fuel fun n => act n >>= k n :=
  fun known =>
    DerivativeParsing.Lasts.bind (k := fun n (p : α × Extracted L) => k n p.1 p.2) (first known)
    fun p => next p.1 p.2

theorem onGrammar {act : Nat → Eval L α} (h : DerivativeParsing.Lasts fuel act) :
    Lasts fuel fun n => Extraction.onGrammar (act n) :=
  fun known => DerivativeParsing.Lasts.bind (k := fun _ a => pure (a, known)) h fun _ => .const _

theorem foldlM {f : Nat → β → α → Extraction L β} (h : ∀ b a, Lasts fuel fun n => f n b a)
    (l : List α) (b : β) : Lasts fuel fun n => l.foldlM (f n) b := by
  induction l generalizing b with
  | nil => exact .const _
  | cons a l ih =>
    simp only [List.foldlM_cons]
    exact (h b a).bind ih

theorem run' (h : Lasts fuel act) (known : Extracted L) :
    DerivativeParsing.Lasts fuel fun n => (act n).run' known :=
  DerivativeParsing.Lasts.bind (k := fun _ (p : α × Extracted L) => pure p.1)
    (h known) fun _ => .const _

end Extraction.Lasts

end Lasts

namespace Grammar

section Extraction

variable {L : Type} [DecidableEq L] {fuel : Nat} (input : List (Symbol L))

/-! ## Where matches end -/

theorem lasts_nullable (id : NodeId) : Lasts fuel fun n => (nullable n id : Eval L Bool) :=
  fun _ (_, _) h => nullable_answers h

theorem lasts_step (id : NodeId) (s : Symbol L) (culling : Bool) :
    Lasts fuel fun n => step n id s culling :=
  fun _ (_, _) h => step_answers h

theorem lasts_force (id : NodeId) : Lasts fuel fun n => (force n id : Eval L NodeId) := by
  intro g (target, g') h
  obtain ⟨_, h⟩ := evaluates_of_force (fun _ => .void) h
  exact h.answers

theorem lasts_replay (id : NodeId) (position : Nat) (symbols : List (Symbol L)) :
    Lasts fuel fun n => replay n id position symbols := by
  induction symbols generalizing id position with
  | nil => exact .const _
  | cons s rest ih =>
    refine (lasts_step id s true).bind fun (next, accepts) => ?_
    by_cases dead : next = nothing
    · simp only [if_pos dead]
      exact .const _
    · simp only [if_neg dead]
      exact (ih next (position + 1)).bind fun _ => .const _

theorem lasts_findEnds (id : NodeId) (start : Nat) :
    Lasts fuel fun n => findEnds n input id start := by
  have derived : Lasts fuel fun n => (do
      let here ← nullable n id
      let later ← replay n id start (input.drop start)
      return if here then start :: later else later : Eval L (List Nat)) :=
    (lasts_nullable id).bind fun _ => (lasts_replay id start _).bind fun _ => .const _
  refine Lasts.bind (.const (fetch id)) fun node => ?_
  cases node with
  | empty | undefined | matched | token => exact .const _
  | alt | cat | rep | rule | thunk => exact derived

theorem lasts_ends (id : NodeId) (start : Nat) :
    Extraction.Lasts fuel fun n => ends n input id start := by
  refine Extraction.Lasts.bind (.const get) fun known => ?_
  cases known.ends[(⟨id, start⟩ : Site)]? with
  | some found => exact .const _
  | none =>
    exact (Extraction.Lasts.onGrammar (lasts_findEnds input id start)).bind fun _ => .const _

/-! ## The trees of a span -/

variable {input} {below : Nat → Span → Extraction L (Forest (Symbol L))}
  (h : ∀ s, Extraction.Lasts fuel (below · s))
include h

theorem lasts_splits (left right : NodeId) (start stop : Nat) (consume : Bool) :
    Extraction.Lasts fuel fun n => splits n input (below n) left right start stop consume := by
  refine (lasts_ends input left start).bind fun middles =>
    .foldlM (fun found middle => ?_) middles _
  unfold Evaluator.takeSplit
  split
  · exact .const _
  · refine (h _).bind fun r => ?_
    split
    · exact .const _
    · exact (h _).bind fun _ => .const _

theorem lasts_render (span : Span) :
    Extraction.Lasts fuel fun n => render n input (below n) span := by
  refine Extraction.Lasts.bind (.const (Extraction.onGrammar (fetch span.node))) fun node => ?_
  cases node with
  | empty | undefined | matched | token => exact .const _
  | alt left right => exact (h _).bind fun _ => (h _).bind fun _ => .const _
  | cat left right => exact lasts_splits h left right _ _ _
  | rep body =>
    by_cases done : span.start = span.stop
    · simp only [if_pos done]
      exact .const _
    · simp only [if_neg done]
      exact lasts_splits h body _ _ _ _
  | rule r body => exact h _
  | thunk t base => exact (Extraction.Lasts.onGrammar (lasts_force span.node)).bind fun _ => h _

omit h in
theorem lasts_visit {read : Nat → Extraction L (Forest (Symbol L))}
    (reads : Extraction.Lasts fuel read) (path : List Span) (span : Span) :
    Extraction.Lasts fuel fun n => span.visit (.plain n) input path (read n) := by
  refine Extraction.Lasts.bind (.const get) fun known => ?_
  cases known.trees[span]? with
  | some found => exact .const _
  | none =>
    refine (lasts_ends input span.node span.start).bind fun stops => ?_
    split
    · exact .const _
    split
    · exact .const _
    · exact Extraction.Lasts.bind (.const get) fun _ => .bind (.const _) fun _ =>
        reads.bind fun _ => .const _

omit h

omit [DecidableEq L] in
/-- If what is read of a span lasts once it does for the spans inside it, then it lasts inside any
other spans. By induction on how deep spans may nest, which is bounded by the fuel. -/
theorem lasts_nested (read : Nat → Nat → List Span → Span → Extraction L (Forest (Symbol L)))
    (path : List Span) (spent : ∀ path s known g p, read fuel 0 path s known g ≠ .ok p)
    (visits : ∀ path s,
      (∀ p, Extraction.Lasts fuel fun n => read n (n - (s :: path).length) (s :: path) p) →
      Extraction.Lasts fuel fun n => read n (n - (s :: path).length + 1) path s) {depth : Nat}
    (depth_is : fuel - path.length = depth) (s : Span) :
    Extraction.Lasts fuel fun n => read n (n - path.length) path s := by
  induction depth generalizing path s with
  | zero =>
    intro known g p run
    simp only [depth_is] at run
    exact absurd run (spent path s known g p)
  | succ depth ih =>
    have below (p : Span) :
        Extraction.Lasts fuel fun n => read n (n - (s :: path).length) (s :: path) p :=
      ih _ (by rw [List.length_cons]; omega) p
    intro known
    refine (visits path s below known).congr (path.length + 1) (by omega) fun n le => ?_
    have deeper : n - path.length = n - (s :: path).length + 1 := by
      rw [List.length_cons]
      omega
    simp only [deeper]

/-! ## Forests of a whole input -/

theorem lasts_whole (input : List (Symbol L)) (span : Span) :
    Extraction.Lasts fuel fun n => trees n input n [] span :=
  lasts_nested (trees · input) [] (fun _ _ _ _ _ run => by cases run)
    (fun path s below => lasts_visit (lasts_render below s) path s) rfl span

theorem lasts_parseTrees (start : NodeId) (input : List (Symbol L)) :
    Lasts fuel fun n => parseTrees n start input := (lasts_whole input _).run' {}

theorem lasts_acceptingAt (position : Nat) (ids : List NodeId) :
    Lasts fuel fun n => (acceptingAt n position ids : Eval L (List Nat)) := by
  induction ids generalizing position with
  | nil => exact .const _
  | cons id rest ih =>
    exact (lasts_nullable id).bind fun _ => (ih (position + 1)).bind fun _ => .const _

theorem lasts_readRun {α : Type} {unread : α} {read : Nat → NodeId → Extracted L → Eval L α}
    (reads : ∀ start known, Lasts fuel fun n => read n start known) (chain : List NodeId)
    (input : List (Symbol L)) :
    Lasts fuel fun n => (Evaluator.plain n).readRun unread (read n) chain input := by
  cases chain with
  | nil => exact .const _
  | cons start after =>
    unfold Evaluator.readRun
    dsimp only
    split
    · exact .const _
    · refine (lasts_acceptingAt 0 _).bind fun stops => ?_
      split
      · exact .const _
      · exact reads _ _

theorem lasts_forestOfRun (chain : List NodeId) (input : List (Symbol L)) :
    Lasts fuel fun n => forestOfRun n chain input := by
  unfold forestOfRun Evaluator.forestOfRun Evaluator.forestBy
  refine lasts_readRun (fun start known => ?_) chain input
  exact ((lasts_whole input _).run' known).bind fun _ => .const _

end Extraction

end Grammar

section Calls

variable {L : Type} [DecidableEq L] {fuel : Nat}

theorem lasts_forest :
    Lasts fuel fun n => (Recognizer.forest n : Recognizing L (Forest (Symbol L))) := by
  rintro r ⟨f, r₁⟩ run
  obtain ⟨g', reading, rfl⟩ := Recognizer.forest_ok.mp run
  obtain ⟨N, reading⟩ := Grammar.lasts_forestOfRun _ _ _ _ reading
  exact ⟨N, fun n le => Recognizer.forest_ok.mpr ⟨g', reading n le, rfl⟩⟩

/-- How much fuel there is does not matter, if it is enough. -/
theorem parse_answers {symbols : List (Symbol L)} {r : Recognizer L}
    {p : Option (Forest (Symbol L)) × Recognizer L}
    (run : Recognizer.parse fuel symbols r = .ok p) :
    Answers (fun fuel => Recognizer.parse fuel symbols) r p := by
  have recognizing :
      Lasts fuel fun n => Recognizer.recognize n symbols := fun _ _ run => recognize_answers run
  refine Lasts.bind recognizing (fun o => ?_) r p run
  split
  · exact lasts_forest.bind fun _ => .const _
  · exact .const _

end Calls

end DerivativeParsing
