import DerivativeParsing.Proofs.Guarding

/-!
# Calls under watch

1. `Mirrors`: between actions, two actions do the same, and what they leave is between actions
   again. `mirrors_guarded`: so do evaluation and guarded evaluation.
2. `Evaluator.Mirrors`: so does whatever leaves its questions to one or the other.
3. `Recognizing.Mirrors`: so do the calls of a recognizer. `Engine.Mirrors.callAll`: so does a whole
   history.
-/

namespace DerivativeParsing

open Grammar (nothing lt_size_of_get?)

/-! ## Culling -/

section Culling

variable {L α β : Type} {act : Culling L α} {k : α → Culling L β}

/-- A grammar in which nothing changed but nodes and the number of nodes that were found dead. -/
def Grammar.Apart (g g' : Grammar L) : Prop :=
  ∃ arena pruned, g' = { g with arena, stats := { g.stats with pruned } }

/-- In the course of culling, the action changes nothing but nodes and the number of nodes that were
found dead. -/
def Culling.Confined (act : Culling L α) : Prop :=
  ∀ F g a F' g', act F g = .ok ((a, F'), g') → g.Apart g'

theorem Grammar.Apart.refl (g : Grammar L) : g.Apart g := ⟨g.arena, g.stats.pruned, rfl⟩

theorem Grammar.Apart.trans {g g₁ g' : Grammar L} (h : g.Apart g₁) (h' : g₁.Apart g') :
    g.Apart g' := by
  obtain ⟨arena, pruned, rfl⟩ := h
  obtain ⟨arena', pruned', rfl⟩ := h'
  exact ⟨arena', pruned', rfl⟩

namespace Culling.Confined

theorem pure (a : α) : Confined (pure a : Culling L α) := by
  intro F g b F' g' run
  obtain ⟨-, -, rfl⟩ := Culling.pure_ok.mp run
  exact .refl g

theorem throw (e : Error) : Confined (throw e : Culling L α) := fun _ _ _ _ _ run => by cases run

theorem bind (first : Confined act) (next : ∀ a, Confined (k a)) : Confined (act >>= k) := by
  intro F g b F' g' run
  obtain ⟨a, F₁, g₁, run, later⟩ := Culling.bind_ok.mp run
  exact (first F g a F₁ g₁ run).trans (next a F₁ g₁ b F' g' later)

theorem onGrammar {act : Eval L α} (h : ∀ g a g', act g = .ok (a, g') → g.Apart g') :
    Confined (onGrammar act) := by
  intro F g a F' g' run
  obtain ⟨b, g₁, acted, last⟩ := Action.bind_ok.mp
    (show (act >>= fun a => Pure.pure (a, F)) g = .ok ((a, F'), g') from run)
  obtain ⟨-, rfl⟩ := Action.pure_ok.mp last
  exact h g b g₁ acted

theorem store (id : NodeId) (node : Node L) :
    Confined (Culling.onGrammar (Grammar.store id node)) := by
  refine onGrammar fun g u g' run => ?_
  obtain rfl := Action.modify_ok.mp run
  exact ⟨_, g.stats.pruned, rfl⟩

theorem revise (id : NodeId) (f : Node L → Node L) :
    Confined (Culling.onGrammar (Grammar.revise id f)) := by
  refine onGrammar fun g u g' run => ?_
  obtain rfl := Action.modify_ok.mp run
  exact ⟨_, g.stats.pruned, rfl⟩

theorem finishCull (id : NodeId) (result : Option NodeId) :
    Confined (Grammar.finishCull id result : Culling L (Option NodeId)) := by
  intro F g a F' g' run
  unfold Grammar.finishCull at run
  split at run
  · cases run
    exact ⟨g.arena, g.stats.pruned + 1, rfl⟩
  · cases run
    exact .refl g

theorem trim {live : Std.TreeSet NodeId} {fuel : Nat}
    (ih : ∀ id, Confined (Grammar.cullNode (L := L) live fuel id)) (id : NodeId) (node : Node L) :
    Confined (Grammar.trim (Grammar.cullNode live fuel) id node) := by
  cases node with
  | empty => exact finishCull id none
  | token | matched | undefined => exact finishCull id (some id)
  | alt left right =>
    refine (ih left).bind fun l => (ih right).bind fun r => ?_
    match l, r with
    | some l, some r => exact (store id (.alt l r)).bind fun _ => finishCull id (some id)
    | some l, none => exact finishCull id (some l)
    | none, some r => exact finishCull id (some r)
    | none, none => exact finishCull id none
  | cat left right =>
    refine (ih left).bind fun l => ?_
    cases l with
    | none => exact finishCull id none
    | some l =>
      refine (ih right).bind fun r => ?_
      cases r with
      | none => exact finishCull id none
      | some r => exact (store id (.cat l r)).bind fun _ => finishCull id (some id)
  | rep body =>
    unfold Grammar.trim
    dsimp only
    split
    · exact (ih body).bind fun b =>
        (store id (.rep (b.getD nothing))).bind fun _ => finishCull id (some id)
    · exact finishCull id (some id)
  | rule r body =>
    unfold Grammar.trim
    dsimp only
    split
    · exact .pure (some id)
    · refine (revise id _).bind fun _ => (ih body).bind fun b => (revise id _).bind fun _ => ?_
      cases b with
      | none => exact finishCull id none
      | some b => exact (revise id (.setBody b)).bind fun _ => finishCull id (some id)
  | thunk t base =>
    obtain ⟨s, state⟩ := t
    cases state with
    | pending | running => exact finishCull id (some id)
    | culled target => exact finishCull id target
    | forced target =>
      exact (revise id (.setState (.culled (some target)))).bind fun _ =>
        (ih target).bind fun result =>
        (revise id (.setState (.culled result))).bind fun _ => finishCull id result

theorem cullNode (live : Std.TreeSet NodeId) (fuel : Nat) (id : NodeId) :
    Confined (Grammar.cullNode (L := L) live fuel id) := by
  induction fuel generalizing id with
  | zero => exact .throw _
  | succ fuel ih =>
    intro F g a F' g' run
    cases done : F[id]? with
    | some known =>
      rw [Grammar.cullNode_finished done] at run
      cases run
      exact .refl g
    | none =>
      obtain ⟨node, there⟩ := Grammar.exists_of_cullNode done run
      rw [Grammar.cullNode_new done there] at run
      split at run
      · exact trim ih id node F g a F' g' run
      · exact finishCull id none F g a F' g' run

end Culling.Confined

end Culling

section Hushed

variable {L : Type} {g : Grammar L}

/-- A culling changes nothing but nodes and the number of nodes that were found dead. -/
theorem cull_apart {id : NodeId} {result : Option NodeId} {g' : Grammar L}
    (run : Grammar.cull id g = .ok (result, g')) : g.Apart g' := by
  obtain ⟨_, _, get, run⟩ := Action.bind_ok.mp run
  obtain ⟨rfl, rfl⟩ := Action.get_ok.mp get
  obtain ⟨order, _, lift, run⟩ := Action.bind_ok.mp run
  obtain ⟨-, rfl⟩ := Action.lift_ok.mp lift
  obtain ⟨F', run⟩ := Culling.run'_ok.mp run
  exact Culling.Confined.cullNode _ _ id {} _ _ F' g' run

theorem hushed_cull (id : NodeId) : Hushed (Grammar.cull id) g := by
  refine .of_journal fun result g' run => ?_
  obtain ⟨arena, pruned, rfl⟩ := cull_apart run
  rfl

/-- What is left of the grammar by a collection has its journal. -/
theorem hushed_collect (roots : List NodeId) : Hushed (Grammar.collect roots) g := by
  refine .bind .get fun g₁ g₂ get => ?_
  obtain ⟨rfl, rfl⟩ := Action.get_ok.mp get
  refine .bind (.lift _) fun live g₃ lift => ?_
  obtain ⟨-, rfl⟩ := Action.lift_ok.mp lift
  refine .bind (.of_journal fun u g₄ run => ?_) fun _ _ _ =>
    .bind (.note nofun) fun _ _ _ => .pure _
  cases run
  rfl

end Hushed

/-! ## Actions between actions -/

/-- Between actions the two actions do the same, and keep grammars as they must be. -/
structure Mirrors {L α : Type} [DecidableEq L] (act act' : Eval L α) : Prop where
  keeps : Keeps act
  faithful : ∀ {links W g}, Good links W g → Faithful act act' g

section Mirrors

variable {L α β : Type} [DecidableEq L] {act act' : Eval L α} {k k' : α → Eval L β}

namespace Mirrors

theorem pure (a : α) : Mirrors (pure a : Eval L α) (Pure.pure a) := ⟨.pure a, fun _ => .pure a⟩

theorem throw (e : Error) : Mirrors (throw e : Eval L α) (MonadExcept.throw e) :=
  ⟨.throw e, fun _ => .throw e⟩

theorem bind (first : Mirrors act act') (next : ∀ a, Mirrors (k a) (k' a)) :
    Mirrors (act >>= k) (act' >>= k') where
  keeps := first.keeps.bind fun a => (next a).keeps
  faithful good := (first.faithful good).bind fun a g' run => by
    obtain ⟨W', carries⟩ := first.keeps _ _ _ a g' good run
    exact (next a).faithful carries.good

theorem fetch (id : NodeId) : Mirrors (Grammar.fetch id : Eval L (Node L)) (Grammar.fetch id) :=
  ⟨.fetch id, fun _ => .refl (.fetch id)⟩

theorem note {event : Event} (other : ∀ t, event ≠ .reentered t) :
    Mirrors (Grammar.note event : Eval L Unit) (Grammar.note event) :=
  ⟨.note event, fun _ => .refl (.note other)⟩

theorem forgetDerivatives :
    Mirrors (Grammar.forgetDerivatives : Eval L Unit) Grammar.forgetDerivatives where
  keeps links W g u g' good run := by
    obtain rfl := Action.modify_ok.mp run
    exact ⟨W, good.forgotten⟩
  faithful _ := .refl (.modify rfl)

theorem cull (id : NodeId) :
    Mirrors (Grammar.cull id : Eval L (Option NodeId)) (Grammar.cull id) where
  keeps _ W _ _ _ good run := ⟨W, (cull_carries good (Grammar.lt_size_of_cull run) run).2⟩
  faithful _ := .refl (hushed_cull id)

end Mirrors

/-- Whatever is known already, the two actions do the same between actions. -/
def Extraction.Mirrors (act act' : Extraction L α) : Prop :=
  ∀ known, DerivativeParsing.Mirrors (act known) (act' known)

namespace Extraction.Mirrors

variable {act act' : Extraction L α} {k k' : α → Extraction L β}

theorem pure (a : α) : Mirrors (pure a : Extraction L α) (Pure.pure a) := fun _ => .pure _

theorem throw (e : Error) : Mirrors (throw e : Extraction L α) (MonadExcept.throw e) :=
  fun _ => .throw e

theorem get : Mirrors (get : Extraction L (Extracted L)) MonadState.get := fun _ => .pure _

theorem modify (f : Extracted L → Extracted L) :
    Mirrors (modify f : Extraction L Unit) (modify f) := fun _ => .pure _

theorem bind (first : Mirrors act act') (next : ∀ a, Mirrors (k a) (k' a)) :
    Mirrors (act >>= k) (act' >>= k') :=
  fun known => (first known).bind fun p => next p.1 p.2

theorem onGrammar {act act' : Eval L α} (h : DerivativeParsing.Mirrors act act') :
    Mirrors (onGrammar act) (onGrammar act') :=
  fun known => show DerivativeParsing.Mirrors (act >>= fun a => Pure.pure (a, known))
    (act' >>= fun a => Pure.pure (a, known)) from h.bind fun _ => .pure _

theorem foldlM {f f' : β → α → Extraction L β} (h : ∀ b a, Mirrors (f b a) (f' b a)) (l : List α)
    (b : β) : Mirrors (l.foldlM f b) (l.foldlM f' b) := by
  induction l generalizing b with
  | nil => exact .pure b
  | cons a l ih =>
    rw [List.foldlM_cons, List.foldlM_cons]
    exact (h b a).bind ih

theorem run' (h : Mirrors act act') (known : Extracted L) :
    DerivativeParsing.Mirrors (act.run' known) (act'.run' known) :=
  (h known).bind fun _ => .pure _

end Extraction.Mirrors

end Mirrors

/-! ## Evaluation -/

/-- Two evaluators answer the same between actions. -/
structure Evaluator.Mirrors {L : Type} [DecidableEq L] (E E' : Evaluator L) : Prop where
  derive : ∀ id s, DerivativeParsing.Mirrors (E.derive id s) (E'.derive id s)
  nullable : ∀ id, DerivativeParsing.Mirrors (E.nullable id) (E'.nullable id)
  force : ∀ id, DerivativeParsing.Mirrors (E.force id) (E'.force id)

section Evaluators

variable {L : Type} [DecidableEq L] {links : Links} {W : World} {g : Grammar L} {E E' : Evaluator L}

/-- Between actions nothing is frozen. -/
theorem Good.posed (good : Good links W g) {q : Question L} (range : g.size > q.id) :
    Posed links W g [] (W.level q.id) q :=
  ⟨good.ready range, nofun, Nat.le_refl _⟩

omit [DecidableEq L] in
theorem missing_of_not_lt {id : NodeId} (h : ¬id < g.size) : g.arena.get? id = none := by
  cases there : g.arena.get? id with
  | none => rfl
  | some node => exact absurd (lt_size_of_get? there) h

/-- The guarded evaluation answers what evaluation answers, and does not raise the alarm. Where
there is no slot both fail. -/
theorem mirrors_guarded (alarm : Error) (fuel : Nat) :
    (Evaluator.plain fuel : Evaluator L).Mirrors (Evaluator.guarded alarm fuel []) where
  derive id s := ⟨.derive fuel id s, fun {links W g} good => by
    by_cases lt : id < g.size
    · exact (watched L alarm fuel).derive (good.posed (q := .derive id s) lt)
    · cases fuel with
      | zero => exact .throw _
      | succ fuel => exact .of_missing (missing_of_not_lt lt)⟩
  nullable id := ⟨.nullable fuel id, fun {links W g} good => by
    by_cases lt : id < g.size
    · exact (watched L alarm fuel).nullable (good.posed (q := .nullable id) lt)
    · cases fuel with
      | zero => exact .throw _
      | succ fuel => exact .of_missing (missing_of_not_lt lt)⟩
  force id := ⟨.force fuel id, fun {links W g} good => by
    by_cases lt : id < g.size
    · exact (watched L alarm fuel).force (good.posed (q := .force id) lt)
    · cases fuel with
      | zero => exact .throw _
      | succ fuel =>
        have missing := missing_of_not_lt lt
        have idle : ¬g.isRunning id = true := by
          rw [Grammar.isRunning, missing]
          exact nofun
        have faithful : Faithful ((Evaluator.plain fuel : Evaluator L).forceNode id)
          ((Evaluator.guarded alarm fuel (g.underway ++ [])).forceNode id) g := .of_missing missing
        exact ⟨(if_neg idle).trans faithful.1, faithful.2⟩⟩

namespace Evaluator.Mirrors

variable (h : E.Mirrors E') (input : List (Symbol L))
include h

theorem step (id : NodeId) (s : Symbol L) (culling : Bool) :
    DerivativeParsing.Mirrors (E.step id s culling) (E'.step id s culling) := by
  refine .bind .forgetDerivatives fun _ =>
    (h.derive id s).bind fun next => (h.nullable next).bind fun accepts => ?_
  cases culling with
  | true => exact (DerivativeParsing.Mirrors.cull next).bind fun _ => .pure _
  | false => exact .pure _

theorem replay (id : NodeId) (position : Nat) (symbols : List (Symbol L)) :
    DerivativeParsing.Mirrors (E.replay id position symbols) (E'.replay id position symbols) := by
  induction symbols generalizing id position with
  | nil => exact .pure _
  | cons s rest ih =>
    refine (h.step id s true).bind fun (next, accepts) => ?_
    dsimp only
    split
    · exact .pure _
    · exact (ih next (position + 1)).bind fun _ => .pure _

theorem findEnds (id : NodeId) (start : Nat) :
    DerivativeParsing.Mirrors (E.findEnds input id start) (E'.findEnds input id start) := by
  refine .bind (.fetch id) fun node => ?_
  cases node with
  | empty | undefined | matched => exact .pure _
  | token kind =>
    by_cases epsilon : kind = Kind.epsilon
    · simp only [if_pos epsilon]
      exact .pure _
    · simp only [if_neg epsilon]
      cases input[start]? with
      | some symbol => exact .pure _
      | none => exact .pure _
  | alt | cat | rep | rule | thunk =>
    exact (h.nullable id).bind fun _ => (h.replay id start _).bind fun _ => .pure _

theorem ends (id : NodeId) (start : Nat) :
    (E.ends input id start).Mirrors (E'.ends input id start) := by
  refine Extraction.Mirrors.get.bind fun known => ?_
  cases known.ends[(⟨id, start⟩ : Site)]? with
  | some found => exact .pure _
  | none =>
    exact (Extraction.Mirrors.onGrammar (h.findEnds input id start)).bind fun _ =>
      (Extraction.Mirrors.modify _).bind fun _ => .pure _

theorem splits {below below' : Span → Extraction L (Forest (Symbol L))}
    (hb : ∀ span, (below span).Mirrors (below' span)) (left right : NodeId) (start stop : Nat)
    (consume : Bool) :
    (E.splits input below left right start stop consume).Mirrors
      (E'.splits input below' left right start stop consume) := by
  refine (h.ends input left start).bind fun middles => .foldlM (fun found middle => ?_) middles _
  unfold Evaluator.takeSplit
  split
  · exact .pure _
  · refine (hb _).bind fun r => ?_
    split
    · exact .pure _
    · exact (hb _).bind fun _ => .pure _

theorem render {below below' : Span → Extraction L (Forest (Symbol L))}
    (hb : ∀ span, (below span).Mirrors (below' span)) (span : Span) :
    (E.render input below span).Mirrors (E'.render input below' span) := by
  refine (Extraction.Mirrors.onGrammar (.fetch span.node)).bind fun node => ?_
  cases node with
  | empty | undefined | matched => exact .pure _
  | token kind =>
    by_cases epsilon : kind = Kind.epsilon
    · simp only [if_pos epsilon]
      exact .pure _
    · simp only [if_neg epsilon]
      cases input[span.start]? with
      | some symbol => exact .pure _
      | none => exact .throw _
  | alt left right => exact (hb _).bind fun _ => (hb _).bind fun _ => .pure _
  | cat left right => exact h.splits input hb left right _ _ _
  | rep body =>
    by_cases done : span.start = span.stop
    · simp only [if_pos done]
      exact .pure _
    · simp only [if_neg done]
      exact h.splits input hb body _ _ _ _
  | rule r body => exact hb _
  | thunk t base => exact (Extraction.Mirrors.onGrammar (h.force span.node)).bind fun _ => hb _

theorem visit {read read' : Extraction L (Forest (Symbol L))} (hr : read.Mirrors read')
    (path : List Span) (span : Span) :
    (span.visit E input path read).Mirrors (span.visit E' input path read') := by
  refine Extraction.Mirrors.get.bind fun known => ?_
  cases known.trees[span]? with
  | some found => exact .pure _
  | none =>
    refine (h.ends input span.node span.start).bind fun stops => ?_
    split
    · exact .pure _
    split
    · exact (Extraction.Mirrors.modify _).bind fun _ => .pure _
    · refine Extraction.Mirrors.get.bind fun _ => (Extraction.Mirrors.modify _).bind fun _ =>
        hr.bind fun _ => (Extraction.Mirrors.modify _).bind fun _ =>
          (Extraction.Mirrors.onGrammar (.note ?_)).bind fun _ => .pure _
      exact nofun

theorem trees (depth : Nat) (path : List Span) (span : Span) :
    (E.trees input depth path span).Mirrors (E'.trees input depth path span) := by
  induction depth generalizing path span with
  | zero => exact .throw _
  | succ depth ih => exact h.visit input (h.render input (ih (span :: path)) span) path span

theorem acceptingAt (position : Nat) (ids : List NodeId) :
    DerivativeParsing.Mirrors (E.acceptingAt position ids) (E'.acceptingAt position ids) := by
  induction ids generalizing position with
  | nil => exact .pure _
  | cons id rest ih => exact (h.nullable id).bind fun _ => (ih (position + 1)).bind fun _ => .pure _

omit input in
theorem readRun {α : Type} (unread : α) {read read' : NodeId → Extracted L → Eval L α}
    (hr : ∀ start known, DerivativeParsing.Mirrors (read start known) (read' start known))
    (chain : List NodeId) (input : List (Symbol L)) :
    DerivativeParsing.Mirrors (E.readRun unread read chain input)
      (E'.readRun unread read' chain input) := by
  cases chain with
  | nil => exact .pure _
  | cons start after =>
    unfold Evaluator.readRun
    dsimp only
    split
    · exact .pure _
    · refine (h.acceptingAt 0 _).bind fun stops => ?_
      split
      · exact .pure _
      · exact hr start _

theorem forestOfRun (depth : Nat) (chain : List NodeId) :
    DerivativeParsing.Mirrors (E.forestOfRun depth chain input)
      (E'.forestOfRun depth chain input) := by
  unfold Evaluator.forestOfRun Evaluator.forestBy
  refine h.readRun Forest.empty (fun start known => ?_) chain input
  exact ((h.trees input depth [] ⟨start, 0, input.length⟩).run' known).bind fun _ => .pure _

end Evaluator.Mirrors

end Evaluators

/-! ## Calls -/

/-- On a consistent recognizer the two actions do the same, and leave it consistent. -/
structure Recognizing.Mirrors {L α : Type} [DecidableEq L] (act act' : Recognizing L α) : Prop where
  consistent : ∀ {links origin W r}, Consistent links origin W r → ∀ a r', act r = .ok (a, r') →
    ∃ W', Consistent links origin W' r'
  faithful : ∀ {links origin W r}, Consistent links origin W r → Faithful act act' r

section Calls

variable {L α β : Type} [DecidableEq L] {r : Recognizer L}

namespace Recognizing.Mirrors

variable {act act' : Recognizing L α} {k k' : α → Recognizing L β}

theorem pure (a : α) : Mirrors (pure a : Recognizing L α) (Pure.pure a) where
  consistent h b r' run := by
    obtain ⟨-, rfl⟩ := Action.pure_ok.mp run
    exact ⟨_, h⟩
  faithful _ := .pure a

theorem get : Mirrors (get : Recognizing L (Recognizer L)) MonadState.get where
  consistent h b r' run := by
    obtain ⟨-, rfl⟩ := Action.get_ok.mp run
    exact ⟨_, h⟩
  faithful _ := .refl .get

theorem bind (first : Mirrors act act') (next : ∀ a, Mirrors (k a) (k' a)) :
    Mirrors (act >>= k) (act' >>= k') where
  consistent h b r' run := by
    obtain ⟨a, r₁, ha, hk⟩ := Action.bind_ok.mp run
    obtain ⟨W₁, h₁⟩ := first.consistent h a r₁ ha
    exact (next a).consistent h₁ b r' hk
  faithful h := (first.faithful h).bind fun a r' run => by
    obtain ⟨W', h'⟩ := first.consistent h a r' run
    exact (next a).faithful h'

theorem reset : Mirrors (Recognizer.reset : Recognizing L Unit) Recognizer.reset where
  consistent h u r' run := by
    obtain rfl := Action.modify_ok.mp run
    exact ⟨_, h.restarted⟩
  faithful _ := .refl (.modify rfl)

theorem onGrammar {act act' : Eval L α} (h : DerivativeParsing.Mirrors act act') :
    Mirrors (Recognizer.onGrammar act) (Recognizer.onGrammar act') where
  consistent hr a r' run := by
    obtain ⟨g', ran, rfl⟩ := Recognizer.onGrammar_ok.mp run
    obtain ⟨W', carries⟩ := h.keeps _ _ _ a g' hr.good ran
    exact ⟨W', (hr.carried carries).consistent⟩
  faithful {links origin W r} hr := by
    refine ⟨?_, fun a r' run => ?_⟩
    · unfold Recognizer.onGrammar
      simp only [(h.faithful hr.good).1]
    · obtain ⟨g', ran, rfl⟩ := Recognizer.onGrammar_ok.mp run
      exact (h.faithful hr.good).2 a g' ran

end Recognizing.Mirrors

omit [DecidableEq L] in
theorem hushed_onGrammar {act : Eval L α} (h : Hushed act r.grammar) :
    Hushed (Recognizer.onGrammar act) r := by
  intro a r' run
  obtain ⟨g', ran, rfl⟩ := Recognizer.onGrammar_ok.mp run
  exact h a g' ran

omit [DecidableEq L] in
theorem hushed_recognizerCollect : Hushed Recognizer.collect r := by
  refine .bind .get fun _ r₁ _ => (hushed_onGrammar (hushed_collect _)).bind fun roots r₂ _ => ?_
  cases roots with
  | nil => exact .pure ()
  | cons start nodes => exact .modify rfl

omit [DecidableEq L] in
theorem hushed_landed (s : Symbol L) (next : NodeId) (accepts : Bool) (settings : Settings) :
    Hushed (Run.landed s next accepts settings) r := by
  refine .bind (.modify rfl) fun _ r₁ _ => .bind .get fun _ r₂ _ => ?_
  refine (hushed_onGrammar (.bind .get fun _ _ _ => .note ?_)).bind fun _ r₃ _ => ?_
  · exact nofun
  have last {r : Recognizer L} : Hushed (do return !(← get).isDead : Recognizing L Bool) r :=
    .bind .get fun _ _ _ => .pure _
  refine (Hushed.lift _).bind fun due r₄ _ => ?_
  split
  · exact hushed_recognizerCollect.bind fun _ _ _ => last
  · exact (Hushed.pure ()).bind fun _ _ _ => last

/-- Between actions an engine answers what plain evaluation does. -/
structure Engine.Mirrors (fuel : Nat) (M : Engine L) : Prop where
  step : ∀ id s culling,
    DerivativeParsing.Mirrors (Grammar.step fuel id s culling) (M.step id s culling)
  nullable : ∀ id, DerivativeParsing.Mirrors (Grammar.nullable fuel id) (M.nullable id)
  forest : ∀ chain input,
    DerivativeParsing.Mirrors (Grammar.forestOfRun fuel chain input) (M.forest chain input)

theorem Evaluator.Mirrors.engine {E : Evaluator L} {fuel : Nat} (h : (plain fuel).Mirrors E) :
    (E.engine fuel).Mirrors fuel :=
  ⟨h.step, h.nullable, fun chain input => h.forestOfRun input fuel chain⟩

namespace Engine.Mirrors

variable {M : Engine L} {fuel : Nat} (h : M.Mirrors fuel)
include h

theorem feed (s : Symbol L) : Recognizing.Mirrors (Recognizer.feed fuel s) (M.feed s) where
  consistent h alive r' run := by
    obtain ⟨W', fed⟩ := feed_fed h run
    exact ⟨W', fed.follows.consistent⟩
  faithful {links origin W r} hr := by
    refine .next (Action.get_ok.mpr ⟨rfl, rfl⟩) rfl (.next (Action.get_ok.mpr ⟨rfl, rfl⟩) rfl ?_)
    dsimp only
    split
    · exact .pure false
    · have stepping :=
        (Recognizing.Mirrors.onGrammar (h.step r.current s r.settings.culling)).faithful hr
      exact stepping.bind fun p r₁ _ => .refl (hushed_landed s p.1 p.2 r.settings)

theorem accepted : Recognizing.Mirrors (Recognizer.accepted fuel : Recognizing L Bool) M.accepted :=
  Recognizing.Mirrors.get.bind fun r => .onGrammar (h.nullable r.current)

theorem feedAll (symbols : List (Symbol L)) :
    Recognizing.Mirrors (Recognizer.feedAll fuel symbols) (M.feedAll symbols) := by
  induction symbols with
  | nil => exact .pure ()
  | cons s rest ih =>
    refine (h.feed s).bind fun alive => ?_
    cases alive with
    | true => exact ih
    | false =>
      refine Recognizing.Mirrors.get.bind fun r => ?_
      split
      · exact .pure ()
      · exact ih

theorem recognize (symbols : List (Symbol L)) :
    Recognizing.Mirrors (Recognizer.recognize fuel symbols) (M.recognize symbols) :=
  Recognizing.Mirrors.reset.bind fun _ => (h.feedAll symbols).bind fun _ =>
    Recognizing.Mirrors.get.bind fun _ => h.accepted.bind fun _ => .pure _

theorem forestOf :
    Recognizing.Mirrors (Recognizer.forest fuel : Recognizing L (Forest (Symbol L))) M.forestOf :=
  Recognizing.Mirrors.get.bind fun r => Recognizing.Mirrors.get.bind fun r' =>
    .onGrammar (h.forest r.chain r'.input)

theorem parse (symbols : List (Symbol L)) :
    Recognizing.Mirrors (Recognizer.parse fuel symbols) (M.parse symbols) := by
  refine (h.recognize symbols).bind fun outcome => ?_
  split
  · exact h.forestOf.bind fun _ => .pure _
  · exact .pure none

theorem call (c : Call L) : Recognizing.Mirrors (Recognizer.call fuel c) (M.call c) := by
  cases c with
  | feed s => exact (h.feed s).bind fun _ => .pure ()
  | accepted => exact h.accepted.bind fun _ => .pure ()
  | recognize symbols => exact (h.recognize symbols).bind fun _ => .pure ()
  | parse symbols => exact (h.parse symbols).bind fun _ => .pure ()
  | forest => exact h.forestOf.bind fun _ => .pure ()
  | reset => exact .reset

theorem callAll (calls : List (Call L)) :
    Recognizing.Mirrors (Recognizer.callAll fuel calls) (M.callAll calls) := by
  induction calls with
  | nil => exact .pure ()
  | cons c rest ih => exact (h.call c).bind fun _ => ih

end Engine.Mirrors

end Calls

end DerivativeParsing
