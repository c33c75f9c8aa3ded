import DerivativeParsing.Forest.Extraction
import DerivativeParsing.Proofs.Steps

/-!
# Extraction changes nothing that matters

Reading a forest back takes steps and evaluates thunks on the grammar it reads from.

1. `Keeps` says of an action that it leaves a grammar between actions as it must be: what the nodes
   stood for they still stand for, and nothing is claimed that was not.
2. `Compositional`: what holds of these actions and of all that is put together of them. It holds of
   `Grammar.forestOfRun` and of each of its parts.
3. So every part of `Grammar.forestOfRun` keeps grammars.
-/

namespace DerivativeParsing

/-- The action leaves a grammar between actions as it must be. -/
def Keeps {L α : Type} [DecidableEq L] (act : Eval L α) : Prop :=
  ∀ (links : Links) (W : World) (g : Grammar L) a g', Good links W g → act g = .ok (a, g') →
    ∃ W', Carries links W g W' g'

section Keeps

variable {L α β : Type} [DecidableEq L] {act : Eval L α} {k : α → Eval L β}

namespace Keeps

theorem pure (a : α) : Keeps (pure a : Eval L α) := by
  intro links W g b g' good h
  obtain ⟨-, rfl⟩ := Action.pure_ok.mp h
  exact ⟨W, .refl good⟩

theorem throw (e : Error) : Keeps (throw e : Eval L α) :=
  fun _ _ _ _ _ _ h => (Action.throw_ok.mp h).elim

theorem bind (first : Keeps act) (next : ∀ a, Keeps (k a)) : Keeps (act >>= k) := by
  intro links W g b g' good h
  obtain ⟨a, g₁, ha, hk⟩ := Action.bind_ok.mp h
  obtain ⟨W₁, carries⟩ := first links W g a g₁ good ha
  obtain ⟨W₂, carries'⟩ := next a links W₁ g₁ b g' carries.good hk
  exact ⟨W₂, carries.trans carries'⟩

theorem fetch (id : NodeId) : Keeps (Grammar.fetch id : Eval L (Node L)) := by
  intro links W g node g' good h
  obtain ⟨-, rfl⟩ := Grammar.fetch_ok.mp h
  exact ⟨W, .refl good⟩

theorem note (event : Event) : Keeps (Grammar.note event : Eval L Unit) := by
  intro links W g _ g' good h
  obtain rfl := Grammar.note_ok.mp h
  exact ⟨W, .of_eq good rfl (.inl rfl)⟩

theorem derive (fuel : Nat) (id : NodeId) (s : Symbol L) :
    Keeps (Grammar.derive fuel id s : Eval L NodeId) := by
  intro links W g next g' good h
  obtain ⟨W', h⟩ := Grammar.evaluates_of_derive W h
  exact ⟨W', h.carries good⟩

theorem nullable (fuel : Nat) (id : NodeId) : Keeps (Grammar.nullable fuel id : Eval L Bool) := by
  intro links W g b g' good h
  obtain ⟨W', h⟩ := Grammar.evaluates_of_nullable W h
  exact ⟨W', h.carries good⟩

theorem force (fuel : Nat) (id : NodeId) : Keeps (Grammar.force fuel id : Eval L NodeId) := by
  intro links W g target g' good h
  obtain ⟨W', h⟩ := Grammar.evaluates_of_force W h
  exact ⟨W', h.carries good⟩

theorem step (fuel : Nat) (id : NodeId) (s : Symbol L) (culling : Bool) :
    Keeps (Grammar.step fuel id s culling) := by
  intro links W g ⟨next, accepts⟩ g' good h
  obtain ⟨W', stepped⟩ := step_stepped good h
  exact ⟨W', stepped.carries⟩

end Keeps

end Keeps

/-! ## What extractions are made of -/

/-- What holds of the actions on a grammar that an extraction takes, and of what is put together of
actions that it holds of. -/
structure Compositional {L : Type} [DecidableEq L] (fuel : Nat) (P : ∀ α : Type, Eval L α → Prop) :
    Prop where
  pure : ∀ (α : Type) (a : α), P α (pure a)
  throw : ∀ (α : Type) (e : Error), P α (throw e)
  bind : ∀ (α β : Type) (act : Eval L α) (k : α → Eval L β), P α act → (∀ a, P β (k a)) →
    P β (act >>= k)
  fetch : ∀ id, P _ (Grammar.fetch id)
  note : ∀ event, P _ (Grammar.note event)
  nullable : ∀ id, P _ (Grammar.nullable fuel id)
  force : ∀ id, P _ (Grammar.force fuel id)
  step : ∀ id s culling, P _ (Grammar.step fuel id s culling)

/-- An extraction has a property, whatever it knows already. -/
def Extraction.All {L α : Type} (P : ∀ α : Type, Eval L α → Prop) (act : Extraction L α) : Prop :=
  ∀ known, P _ (act known)

namespace Compositional

section Combinators

variable {L α β : Type} [DecidableEq L] {fuel : Nat} {P : ∀ α : Type, Eval L α → Prop}
  (h : Compositional fuel P)
include h

theorem all_pure (a : α) : Extraction.All P (Pure.pure a : Extraction L α) := fun _ => h.pure _ _

theorem all_throw (e : Error) : Extraction.All P (MonadExcept.throw e : Extraction L α) := by
  intro known
  show P _ (MonadExcept.throw e >>= fun a => Pure.pure (a, known) : Eval L (α × Extracted L))
  exact h.bind _ _ _ _ (h.throw _ _) fun _ => h.pure _ _

theorem all_get : Extraction.All P (get : Extraction L (Extracted L)) := fun _ => h.pure _ _

theorem all_modify (f : Extracted L → Extracted L) :
    Extraction.All P (modify f : Extraction L Unit) :=
  fun _ => h.pure _ _

theorem all_bind {act : Extraction L α} {k : α → Extraction L β} (first : Extraction.All P act)
    (next : ∀ a, Extraction.All P (k a)) : Extraction.All P (act >>= k) :=
  fun known => h.bind _ _ _ _ (first known) fun p => next p.1 p.2

theorem all_onGrammar {act : Eval L α} (holds : P _ act) :
    Extraction.All P (Extraction.onGrammar act) := by
  intro known
  show P _ (act >>= fun a => Pure.pure (a, known))
  exact h.bind _ _ _ _ holds fun _ => h.pure _ _

theorem all_foldlM {f : β → α → Extraction L β} (each : ∀ b a, Extraction.All P (f b a))
    (l : List α) (b : β) : Extraction.All P (l.foldlM f b) := by
  induction l generalizing b with
  | nil => exact h.all_pure b
  | cons a l ih =>
    rw [List.foldlM_cons]
    exact h.all_bind (each b a) ih

/-- An extraction from scratch, or from what is known already. -/
theorem run' {act : Extraction L α} (all : Extraction.All P act) (known : Extracted L) :
    P _ (act.run' known) :=
  h.bind _ _ _ _ (all known) fun _ => h.pure _ _

end Combinators

section Extraction

variable {L : Type} [DecidableEq L] {fuel : Nat} {P : ∀ α : Type, Eval L α → Prop}
  (h : Compositional fuel P) (input : List (Symbol L))
include h

/-! ### Where matches end -/

theorem replay (id : NodeId) (position : Nat) (symbols : List (Symbol L)) :
    P _ (Grammar.replay fuel id position symbols) := by
  induction symbols generalizing id position with
  | nil => exact h.pure _ _
  | cons s rest ih =>
    refine h.bind _ _ _ _ (h.step id s true) fun (next, accepts) => ?_
    dsimp only
    split
    · exact h.bind _ _ _ _ (h.pure _ _) fun _ => h.pure _ _
    · exact h.bind _ _ _ _ (ih next (position + 1)) fun _ => h.pure _ _

theorem findEnds (id : NodeId) (start : Nat) : P _ (Grammar.findEnds fuel input id start) := by
  have derived : P _ (do
      let here ← Grammar.nullable fuel id
      let later ← Grammar.replay fuel id start (input.drop start)
      return if here then start :: later else later) :=
    h.bind _ _ _ _ (h.nullable id) fun _ => h.bind _ _ _ _ (h.replay id start _) fun _ => h.pure _ _
  refine h.bind _ _ _ _ (h.fetch id) fun node => ?_
  cases node with
  | empty | undefined | matched => exact h.pure _ _
  | token kind =>
    by_cases epsilon : kind = Kind.epsilon
    · simp only [if_pos epsilon]
      exact h.pure _ _
    · simp only [if_neg epsilon]
      cases input[start]? with
      | some symbol => exact h.pure _ _
      | none => exact h.pure _ _
  | alt | cat | rep | rule | thunk => exact derived

theorem ends (id : NodeId) (start : Nat) : Extraction.All P (Grammar.ends fuel input id start) := by
  refine h.all_bind h.all_get fun known => ?_
  cases known.ends[(⟨id, start⟩ : Site)]? with
  | some found => exact h.all_pure _
  | none =>
    exact h.all_bind (h.all_onGrammar (h.findEnds input id start)) fun _ =>
      h.all_bind (h.all_modify _) fun _ => h.all_pure _

/-! ### The trees of a span -/

section Span

variable {below : Span → Extraction L (Forest (Symbol L))}
  (each : ∀ span, Extraction.All P (below span))
include each

theorem splits (left right : NodeId) (start stop : Nat) (consume : Bool) :
    Extraction.All P (Grammar.splits fuel input below left right start stop consume) := by
  refine h.all_bind
    (h.ends input left start) fun middles => h.all_foldlM (fun found middle => ?_) middles _
  unfold Evaluator.takeSplit
  split
  · exact h.all_pure _
  · refine h.all_bind (each _) fun r => ?_
    split
    · exact h.all_pure _
    · exact h.all_bind (each _) fun _ => h.all_pure _

theorem render (span : Span) : Extraction.All P (Grammar.render fuel input below span) := by
  refine h.all_bind (h.all_onGrammar (h.fetch span.node)) fun node => ?_
  cases node with
  | empty | undefined | matched => exact h.all_pure _
  | token kind =>
    by_cases epsilon : kind = Kind.epsilon
    · simp only [if_pos epsilon]
      exact h.all_pure _
    · simp only [if_neg epsilon]
      cases input[span.start]? with
      | some symbol => exact h.all_pure _
      | none => exact h.all_throw _
  | alt left right => exact h.all_bind (each _) fun _ => h.all_bind (each _) fun _ => h.all_pure _
  | cat left right => exact h.splits input each left right _ _ _
  | rep body =>
    by_cases done : span.start = span.stop
    · simp only [if_pos done]
      exact h.all_pure _
    · simp only [if_neg done]
      exact h.splits input each body _ _ _ _
  | rule r body => exact each _
  | thunk t base => exact h.all_bind (h.all_onGrammar (h.force span.node)) fun _ => each _

end Span

section Visit

variable {read : Extraction L (Forest (Symbol L))} (reads : Extraction.All P read)
include reads

theorem lookOr (path : List Span) (span : Span) :
    Extraction.All P (span.lookOr (.plain fuel) input path read) := by
  refine h.all_bind h.all_get fun known => ?_
  cases known.trees[span]? with
  | some found => exact h.all_pure _
  | none =>
    refine h.all_bind (h.ends input span.node span.start) fun stops => ?_
    split
    · exact h.all_pure _
    split
    · exact h.all_bind (h.all_modify _) fun _ => h.all_pure _
    · exact reads

theorem keeping (span : Span) : Extraction.All P (span.keeping read) :=
  h.all_bind h.all_get fun _ => h.all_bind (h.all_modify _) fun _ => h.all_bind reads fun _ =>
    h.all_bind (h.all_modify _) fun _ =>
      h.all_bind (h.all_onGrammar (h.note _)) fun _ => h.all_pure _

end Visit

theorem trees (depth : Nat) (path : List Span) (span : Span) :
    Extraction.All P (Grammar.trees fuel input depth path span) := by
  induction depth generalizing path span with
  | zero => exact h.all_throw _
  | succ depth ih =>
    exact h.lookOr input (h.keeping (h.render input (ih (span :: path)) span) span) path span

/-! ### Forests of a whole input -/

theorem acceptingAt (position : Nat) (ids : List NodeId) :
    P _ (Grammar.acceptingAt fuel position ids) := by
  induction ids generalizing position with
  | nil => exact h.pure _ []
  | cons id rest ih =>
    exact h.bind _ _ _ _ (h.nullable id) fun _ =>
      h.bind _ _ _ _ (ih (position + 1)) fun _ => h.pure _ _

theorem readRun {α : Type} {unread : α} {read : NodeId → Extracted L → Eval L α}
    (reads : ∀ start known, P _ (read start known)) (chain : List NodeId) :
    P _ ((Evaluator.plain fuel).readRun unread read chain input) := by
  cases chain with
  | nil => exact h.pure _ _
  | cons start after =>
    unfold Evaluator.readRun
    dsimp only
    split
    · exact h.pure _ _
    · refine h.bind _ _ _ _ (h.acceptingAt 0 _) fun stops => ?_
      split
      · exact h.pure _ _
      · exact reads _ _

theorem forestBy {trees : Span → Extraction L (Forest (Symbol L))}
    (reads : ∀ span, Extraction.All P (trees span)) (chain : List NodeId) :
    P _ ((Evaluator.plain fuel).forestBy trees chain input) :=
  h.readRun input (fun _ known => h.bind _ _ _ _ (h.run' (reads _) known) fun _ => h.pure _ _) chain

theorem forestOfRun (chain : List NodeId) : P _ (Grammar.forestOfRun fuel chain input) :=
  h.forestBy input (fun span => h.trees input fuel [] span) chain

end Extraction

end Compositional

/-! ## Extractions keep grammars -/

/-- Whatever is known already, the action leaves a grammar between actions as it must be. -/
def Extraction.Keeps {L α : Type} [DecidableEq L] (act : Extraction L α) : Prop :=
  ∀ known, DerivativeParsing.Keeps (act known)

namespace Extraction.Keeps

variable {L α β : Type} [DecidableEq L]

theorem pure (a : α) : Keeps (pure a : Extraction L α) := fun _ => .pure _

theorem bind {act : Extraction L α} {k : α → Extraction L β} (first : Keeps act)
    (next : ∀ a, Keeps (k a)) : Keeps (act >>= k) :=
  fun known => (first known).bind fun p => next p.1 p.2

theorem get : Keeps (get : Extraction L (Extracted L)) := fun _ => .pure _

theorem modify (f : Extracted L → Extracted L) : Keeps (modify f : Extraction L Unit) :=
  fun _ => .pure _

theorem run' {act : Extraction L α} (h : Keeps act) (known : Extracted L) :
    DerivativeParsing.Keeps (act.run' known) :=
  (h known).bind fun _ => .pure _

end Extraction.Keeps

namespace Grammar

section Keeps

variable {L : Type} [DecidableEq L] (fuel : Nat) (input : List (Symbol L))

theorem keeps_compositional : Compositional fuel fun _ (act : Eval L _) => Keeps act where
  pure _ a := .pure a
  throw _ e := .throw e
  bind _ _ _ _ first next := first.bind next
  fetch id := .fetch id
  note event := .note event
  nullable id := .nullable fuel id
  force id := .force fuel id
  step id s culling := .step fuel id s culling

theorem keeps_ends (id : NodeId) (start : Nat) : (ends fuel input id start).Keeps :=
  (keeps_compositional fuel).ends input id start

theorem keeps_render {below : Span → Extraction L (Forest (Symbol L))}
    (h : ∀ span, (below span).Keeps) (span : Span) : (render fuel input below span).Keeps :=
  (keeps_compositional fuel).render input h span

theorem keeps_trees (depth : Nat) (path : List Span) (span : Span) :
    (trees fuel input depth path span).Keeps :=
  (keeps_compositional fuel).trees input depth path span

theorem keeps_acceptingAt (position : Nat) (ids : List NodeId) :
    Keeps (acceptingAt fuel position ids : Eval L (List Nat)) :=
  (keeps_compositional fuel).acceptingAt position ids

theorem keeps_forestOfRun (chain : List NodeId) : Keeps (forestOfRun fuel chain input) :=
  (keeps_compositional fuel).forestOfRun input chain

end Keeps

end Grammar

end DerivativeParsing
