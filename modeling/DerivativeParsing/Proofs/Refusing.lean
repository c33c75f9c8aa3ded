import DerivativeParsing.Proofs.Making
import DerivativeParsing.Proofs.Sealing

/-!
# What validation is good for

A grammar is validated once, before anything is asked of it. What is evaluated later are nodes that
were not there then, along edges that have been changed since.

1. `reached_of_validate`, `exists_of_validate_error`: validation accepts a start if all that it
   leads to has a body, and otherwise names something that has none.
2. `Evaluator.wary`, `Evaluator.waryTrees`: evaluation and reading which raise an alarm when they
   come to a nonterminal without a body. `wary_safe`, `Evaluator.Safe.trees`: in a sealed set they
   do what evaluation and reading do.
3. `Recognizing.Safe`: so do the calls of a recognizer whose nodes are in such a set.
4. `validated_calls`: a grammar that was validated is sealed around what its start leads to, and
   stays so.
-/

namespace DerivativeParsing

open Grammar (nothing lt_size_of_get? exists_get?)

/-! ## Validation -/

namespace Grammar

section Validate

variable {L : Type} {g : Grammar L} {start x : NodeId}

theorem refuseUndefined_eq_some {node : Node L} {e : Error} :
    refuseUndefined node = some e ↔ ∃ name, node = .undefined name ∧ e = .undefined name := by
  cases node <;> simp [refuseUndefined, eq_comm]

/-- Whatever a start that was accepted leads to is there, and has a body. -/
theorem reached_of_validate {u : Unit} (run : g.validate start = .ok u)
    (reaches : g.Reaches true start x) :
    ∃ node, g.arena.get? x = some node ∧ ∀ name, node ≠ .undefined name := by
  unfold validate at run
  cases walked : g.walk true refuseUndefined [.enter start] { seen := Marks.none g.size } with
  | error e =>
    rw [walked] at run
    cases run
  | ok t =>
    have passed := passed_of_walk (fun x hx => by
      rw [show NodeSet.contains (Marks.none g.size) x = false from Marks.contains_none _ x] at hx
      cases hx) walked
    have seen : NodeSet.contains t.seen x := by
      induction reaches with
      | refl => exact (met_of_walk walked).2 start (.head _)
      | tail _ there member ih =>
        obtain ⟨node, there', -, met⟩ := passed _ ih
        cases Option.some.inj (there.symm.trans there')
        exact (met _ member).resolve_right nofun
    obtain ⟨node, there, free, -⟩ := passed x seen
    refine ⟨node, there, fun name same => ?_⟩
    cases free.symm.trans (refuseUndefined_eq_some.mpr ⟨name, same, rfl⟩)

theorem Reaches.eq_of_missing {throughPending : Bool} (reaches : g.Reaches throughPending start x)
    (missing : g.arena.get? start = none) : x = start := by
  induction reaches with
  | refl => rfl
  | tail _ there _ ih =>
    subst ih
    cases missing.symm.trans there

/-- If a start is not accepted, it leads to a nonterminal without a body, which the error names, or
it is not there. -/
theorem exists_of_validate_error {e : Error} (ranged : g.Ranged true)
    (run : g.validate start = .error e) :
    (g.size ≤ start ∧ e = .outOfRange start) ∨
      ∃ x name, g.Reaches true start x ∧ g.arena.get? x = some (.undefined name) ∧
        e = .undefined name := by
  unfold validate at run
  cases walked : g.walk true refuseUndefined [.enter start] { seen := Marks.none g.size } with
  | ok t =>
    rw [walked] at run
    cases run
  | error e' =>
    rw [walked] at run
    cases run
    obtain ⟨x, reaches, ⟨missing, rfl⟩ | ⟨node, there, refused⟩⟩ :=
      refused_of_walk (P := g.Reaches true start)
      (fun _ _ reaches there _ member => reaches.tail there member) (fun x hx => by
        cases List.mem_singleton.mp hx
        exact .refl start) walked
    · rcases Nat.lt_or_ge start g.size with lt | le
      · obtain ⟨node, there⟩ := exists_get? (reaches.lt_size ranged lt)
        cases missing.symm.trans there
      · have gone : g.arena.get? start = none := missing_of_not_lt (Nat.not_lt.mpr le)
        exact .inl ⟨le, by rw [reaches.eq_of_missing gone]⟩
    · obtain ⟨name, rfl, rfl⟩ := refuseUndefined_eq_some.mp refused
      exact .inr ⟨x, name, reaches, there, rfl⟩

end Validate

end Grammar

/-! ## Evaluation and reading that raise an alarm -/

/-- Whether a slot holds a nonterminal without a body. -/
def Grammar.lacksBody {L : Type} (g : Grammar L) (id : NodeId) : Bool :=
  match g.arena.get? id with
  | some (.undefined _) => true
  | _ => false

/-- A node and all that it depends on. -/
def Grammar.surroundings {L : Type} (g : Grammar L) (id : NodeId) : List NodeId :=
  match g.arena.get? id with
  | some node => id :: node.successors true
  | none => [id]

/-- Raises the alarm at a nonterminal without a body. -/
def Grammar.refuse {L : Type} (alarm : Error) (id : NodeId) : Eval L Unit := fun g =>
  if g.lacksBody id then .error alarm else .ok ((), g)

/-- Raises the alarm at a nonterminal without a body, and at a node that depends on one. -/
def Grammar.refuseAround {L : Type} (alarm : Error) (id : NodeId) : Eval L Unit := fun g =>
  if (g.surroundings id).any g.lacksBody then .error alarm else .ok ((), g)

namespace Evaluator

open Extraction (onGrammar)

variable {L : Type} [DecidableEq L]

/-- Evaluation that raises the alarm when it comes to a nonterminal without a body. -/
def wary (alarm : Error) : Nat → Evaluator L
  | 0 => failing .outOfFuel
  | fuel + 1 =>
    { derive := fun id symbol => do
        Grammar.refuse alarm id
        (wary alarm fuel).deriveNode id symbol
      nullable := fun id => do
        Grammar.refuse alarm id
        (wary alarm fuel).nullableNode id
      force := fun id => do
        Grammar.refuse alarm id
        (wary alarm fuel).forceNode id }

variable (E : Evaluator L) (alarm : Error) (input : List (Symbol L))

/-- The trees of a span that comes up inside the spans of `path`. Before anything is asked of its
node or of what that depends on, the alarm is raised if one of them is a nonterminal without a
body. -/
def waryTrees : Nat → List Span → Span → Extraction L (Forest (Symbol L)) :=
  Span.nest fun path span below => do
    onGrammar (Grammar.refuseAround alarm span.node)
    span.visit E input path (E.render input below span)

/-- What an evaluator answers, and forests that are read with the alarm. -/
def waryEngine (depth : Nat) : Engine L :=
  { E.engine depth with
    forest := fun chain input => E.forestBy (E.waryTrees alarm input depth []) chain input }

end Evaluator

/-- Makes calls one after the other. Evaluation and reading raise the alarm when they come to a
nonterminal without a body. -/
def Recognizer.waryCallAll {L : Type} [DecidableEq L] (alarm : Error) (fuel : Nat)
    (calls : List (Call L)) : Recognizing L Unit :=
  ((Evaluator.wary alarm fuel).waryEngine alarm fuel).callAll calls

/-! ## No alarm in a sealed set -/

section Wary

variable {L α : Type} [DecidableEq L] {K : Set NodeId} {V : Set NodeId → α → Prop}
  {act act' : Eval L α} {id : NodeId} {g : Grammar L} {alarm : Error}

theorem Grammar.Sealed.has_body (h : g.Sealed K) (hid : id ∈ K) : g.lacksBody id = false := by
  obtain ⟨node, there, within⟩ := h.node id hid
  unfold Grammar.lacksBody
  rw [there]
  cases node with
  | undefined => exact within.elim
  | _ => rfl

theorem Safe.refuse (hid : id ∈ K) (h : Safe K V act act') :
    Safe K V act (Grammar.refuse alarm id >>= fun _ => act') := by
  intro g sealing
  have passes : Grammar.refuse alarm id g = .ok ((), g) := by
    rw [Grammar.refuse, sealing.has_body hid]
    rfl
  obtain ⟨same, after⟩ := h g sealing
  exact ⟨(Action.bind_of_ok passes).trans same, after⟩

theorem Safe.refuseAround (hid : id ∈ K) (h : Safe K V act act') :
    Safe K V act (Grammar.refuseAround alarm id >>= fun _ => act') := by
  intro g sealing
  have none : ((g.surroundings id).any g.lacksBody) = false := by
    obtain ⟨node, there, within⟩ := sealing.node id hid
    rw [Grammar.surroundings, there]
    refine List.any_eq_false.mpr fun x hx => ?_
    rcases List.mem_cons.mp hx with rfl | hx
    · exact Bool.eq_false_iff.mp (sealing.has_body hid)
    · exact Bool.eq_false_iff.mp (sealing.has_body (within.successors x hx))
  have passes : Grammar.refuseAround alarm id g = .ok ((), g) := by
    rw [Grammar.refuseAround, none]
    rfl
  obtain ⟨same, after⟩ := h g sealing
  exact ⟨(Action.bind_of_ok passes).trans same, after⟩

theorem wary_safe (alarm : Error) (fuel : Nat) :
    (Evaluator.plain fuel : Evaluator L).Safe (Evaluator.wary alarm fuel) := by
  induction fuel with
  | zero => exact .failing .outOfFuel
  | succ fuel ih =>
    exact ⟨fun s hid => .refuse hid (ih.deriveNode hid s), fun hid =>
      .refuse hid (ih.nullableNode hid), fun hid => .refuse hid (ih.forceNode hid)⟩

end Wary

/-! ## Extractions -/

/-- Whatever is known already, the two actions do the same to grammars that are sealed, and stay
inside. -/
def Extraction.Safe {L α : Type} [DecidableEq L] (K : Set NodeId) (V : Set NodeId → α → Prop)
    (act act' : Extraction L α) : Prop :=
  ∀ known, DerivativeParsing.Safe K (fun K p => V K p.1) (act known) (act' known)

namespace Extraction.Safe

variable {L α β : Type} [DecidableEq L] {K : Set NodeId} {V : Set NodeId → α → Prop}
  {U : Set NodeId → β → Prop} {act act' : Extraction L α} {k k' : α → Extraction L β}

theorem pure {a : α} (h : V K a) : Safe K V (pure a : Extraction L α) (Pure.pure a) :=
  fun _ => .pure h

theorem throw (e : Error) : Safe K V (throw e : Extraction L α) (MonadExcept.throw e) :=
  fun _ => .throw e

theorem get : Safe K Free (get : Extraction L (Extracted L)) MonadState.get :=
  fun _ => .pure trivial

theorem modify (f : Extracted L → Extracted L) :
    Safe K Free (modify f : Extraction L Unit) (modify f) :=
  fun _ => .pure trivial

theorem bind (first : Safe K V act act') (next : ∀ K' a, K ⊆ K' → V K' a → Safe K' U (k a) (k' a)) :
    Safe K U (act >>= k) (act' >>= k') :=
  fun known => (first known).bind fun K' p sub hv => next K' p.1 sub hv p.2

theorem onGrammar {act act' : Eval L α} (h : DerivativeParsing.Safe K V act act') :
    Safe K V (onGrammar act) (onGrammar act') :=
  fun known => show DerivativeParsing.Safe K _ (act >>= fun a => Pure.pure (a, known))
    (act' >>= fun a => Pure.pure (a, known)) from h.bind fun _ _ _ hv => .pure hv

theorem foldlM {f f' : β → α → Extraction L β} (l : List α) (b : β)
    (h : ∀ K', K ⊆ K' → ∀ b a, Safe K' Free (f b a) (f' b a)) :
    Safe K Free (l.foldlM f b) (l.foldlM f' b) := by
  induction l generalizing K b with
  | nil => exact .pure trivial
  | cons a l ih =>
    rw [List.foldlM_cons, List.foldlM_cons]
    exact (h K subset_rfl b a).bind fun K' c sub _ => ih c fun K₂ sub₂ => h K₂ (sub.trans sub₂)

theorem refuseAround {alarm : Error} {id : NodeId} (hid : id ∈ K) (h : Safe K V act act') :
    Safe K V act (Extraction.onGrammar (Grammar.refuseAround alarm id) >>= fun _ => act') :=
  fun known => show DerivativeParsing.Safe K _ (act known)
    ((Grammar.refuseAround alarm id >>= fun u => Pure.pure (u, known)) >>= fun p => act' p.2) by
    rw [bind_assoc]
    simp only [pure_bind]
    exact (h known).refuseAround hid

theorem run' (h : Safe K V act act') (known : Extracted L) :
    DerivativeParsing.Safe K V (act.run' known) (act'.run' known) :=
  (h known).bind fun _ _ _ hv => .pure hv

end Extraction.Safe

namespace Evaluator.Safe

variable {L : Type} [DecidableEq L] {E E' : Evaluator L} {K : Set NodeId} {id : NodeId}
  {alarm : Error} {below below' : Span → Extraction L (Forest (Symbol L))} {span : Span}

variable (h : E.Safe E') (input : List (Symbol L))
include h

omit input in
theorem step (hid : id ∈ K) (s : Symbol L) (culling : Bool) :
    DerivativeParsing.Safe K (fun K p => p.1 ∈ K) (E.step id s culling) (E'.step id s culling) := by
  refine .bind (.modify fun g sealing => ?_) fun K₁ _ sub₁ _ => ?_
  · exact ⟨sealing.nothing,
      sealing.node, fun x s next known => by cases (Memo.find?_nil x s).symm.trans known⟩
  refine .bind (h.derive s (sub₁ hid)) fun K₂ next _ hn =>
    .bind (h.nullable hn) fun K₃ accepts sub₃ _ => ?_
  have hn := sub₃ hn
  cases culling with
  | false => exact .pure hn
  | true =>
    refine .bind (.cull hn) fun K₄ culled _ remaining => .of_nothing fun first => .pure ?_
    cases culled with
    | some next => exact remaining next rfl
    | none => exact first

omit input in
theorem replay (hid : id ∈ K) (position : Nat) (symbols : List (Symbol L)) :
    DerivativeParsing.Safe K Free (E.replay id position symbols)
      (E'.replay id position symbols) := by
  induction symbols generalizing K id position with
  | nil => exact .pure trivial
  | cons s rest ih =>
    refine .bind (h.step hid s true) fun K₁ p sub₁ hn => ?_
    obtain ⟨next, accepts⟩ := p
    dsimp only
    split
    · exact .pure trivial
    · exact .bind (ih hn (position + 1)) fun _ _ _ _ => .pure trivial

theorem findEnds (hid : id ∈ K) (start : Nat) :
    DerivativeParsing.Safe K Free (E.findEnds input id start) (E'.findEnds input id start) := by
  refine .bind (.fetch hid) fun K₁ node sub₁ within => ?_
  have hid := sub₁ hid
  cases node with
  | undefined => exact within.elim
  | empty | matched => exact .pure trivial
  | token kind =>
    by_cases epsilon : kind = Kind.epsilon
    · simp only [if_pos epsilon]
      exact .pure trivial
    · simp only [if_neg epsilon]
      cases input[start]? <;> exact .pure trivial
  | alt | cat | rep | rule | thunk =>
    exact .bind (h.nullable hid) fun K₂ _ sub₂ _ =>
      .bind (h.replay (sub₂ hid) start _) fun _ _ _ _ => .pure trivial

theorem ends (hid : id ∈ K) (start : Nat) :
    Extraction.Safe K Free (E.ends input id start) (E'.ends input id start) := by
  refine .bind .get fun K₁ known sub₁ _ => ?_
  cases known.ends[(⟨id, start⟩ : Site)]? with
  | some found => exact .pure trivial
  | none =>
    refine .bind (.onGrammar (h.findEnds input (sub₁ hid) start)) fun _ _ _ _ => ?_
    exact .bind (.modify _) fun _ _ _ _ => .pure trivial

section Below

variable (hb : ∀ K span, span.node ∈ K → Extraction.Safe K Free (below span) (below' span))
include hb

theorem splits {left right : NodeId} (hl : left ∈ K) (hr : right ∈ K) (start stop : Nat)
    (consume : Bool) :
    Extraction.Safe K Free (E.splits input below left right start stop consume)
      (E'.splits input below' left right start stop consume) := by
  refine .bind (h.ends input hl start) fun K₁ middles sub₁ _ =>
    .foldlM middles _ fun K₂ sub₂ found middle => ?_
  unfold Evaluator.takeSplit
  split
  · exact .pure trivial
  · refine .bind (hb K₂ _ (sub₂ (sub₁ hr))) fun K₃ r sub₃ _ => ?_
    split
    · exact .pure trivial
    · exact .bind (hb K₃ _ (sub₃ (sub₂ (sub₁ hl)))) fun _ _ _ _ => .pure trivial

theorem render (hs : span.node ∈ K) :
    Extraction.Safe K Free (E.render input below span) (E'.render input below' span) := by
  refine .bind (.onGrammar (.fetch hs)) fun K₁ node sub₁ within => ?_
  have hs := sub₁ hs
  cases node with
  | undefined => exact within.elim
  | empty | matched => exact .pure trivial
  | token kind =>
    by_cases epsilon : kind = Kind.epsilon
    · simp only [if_pos epsilon]
      exact .pure trivial
    · simp only [if_neg epsilon]
      cases input[span.start]? with
      | some symbol => exact .pure trivial
      | none => exact .throw _
  | alt left right =>
    exact .bind (hb K₁ _ within.1) fun K₂ _ sub₂ _ =>
      .bind (hb K₂ _ (sub₂ within.2)) fun _ _ _ _ => .pure trivial
  | cat left right => exact h.splits input hb within.1 within.2 _ _ _
  | rep body =>
    by_cases done : span.start = span.stop
    · simp only [if_pos done]
      exact .pure trivial
    · simp only [if_neg done]
      exact h.splits input hb within hs _ _ _
  | rule r body => exact hb K₁ _ within.1
  | thunk => exact .bind (.onGrammar (h.force hs)) fun K₂ target _ ht => hb K₂ _ ht

end Below

theorem visit {read read' : Extraction L (Forest (Symbol L))} (path : List Span)
    (hs : span.node ∈ K) (hr : ∀ K', K ⊆ K' → Extraction.Safe K' Free read read') :
    Extraction.Safe K Free (span.visit E input path read) (span.visit E' input path read') := by
  refine .bind .get fun K₁ known sub₁ _ => ?_
  cases known.trees[span]? with
  | some found => exact .pure trivial
  | none =>
    refine .bind (h.ends input (sub₁ hs) span.start) fun K₂ stops sub₂ _ => ?_
    split
    · exact .pure trivial
    split
    · exact .bind (.modify _) fun _ _ _ _ => .pure trivial
    · refine .bind .get fun K₃ _ sub₃ _ => .bind (.modify _) fun K₄ _ sub₄ _ => ?_
      refine .bind (hr K₄ (sub₁.trans (sub₂.trans (sub₃.trans sub₄)))) fun K₅ found _ _ => ?_
      exact .bind (.modify _) fun _ _ _ _ =>
        .bind (.onGrammar (.note _)) fun _ _ _ _ => .pure trivial

theorem trees (depth : Nat) (path : List Span) (hs : span.node ∈ K) :
    Extraction.Safe K Free (E.trees input depth path span)
      (E'.waryTrees alarm input depth path span) := by
  induction depth generalizing K path span with
  | zero => exact .throw _
  | succ depth ih =>
    exact .refuseAround hs (h.visit input path hs fun K' sub =>
      h.render input (fun K part hp => ih (span :: path) hp) (sub hs))

omit input in
theorem acceptingAt (position : Nat) {ids : List NodeId} (hids : ∀ x ∈ ids, x ∈ K) :
    DerivativeParsing.Safe K Free (E.acceptingAt position ids) (E'.acceptingAt position ids) := by
  induction ids generalizing K position with
  | nil => exact .pure trivial
  | cons id rest ih =>
    refine .bind (h.nullable (hids id (.head _))) fun K₁ _ sub₁ _ => ?_
    exact .bind (ih (position + 1) fun x hx => sub₁ (hids x (.tail _ hx))) fun _ _ _ _ =>
      .pure trivial

theorem forestOfRun (depth : Nat) {chain : List NodeId} (hc : ∀ x ∈ chain, x ∈ K) :
    DerivativeParsing.Safe K Free (E.forestOfRun depth chain input)
      ((E'.waryEngine alarm depth).forest chain input) := by
  cases chain with
  | nil => exact .pure trivial
  | cons start after =>
    unfold Evaluator.forestOfRun Evaluator.waryEngine Evaluator.forestBy Evaluator.readRun
    dsimp only
    split
    · exact .pure trivial
    · refine .bind (h.acceptingAt 0 hc) fun K₁ stops sub₁ _ => ?_
      split
      · exact .pure trivial
      · have start_in : start ∈ K₁ := sub₁ (hc start (.head _))
        exact .bind ((h.trees input depth [] start_in).run' _) fun _ _ _ _ => .pure trivial

end Evaluator.Safe

/-! ## Calls -/

/-- The grammar is sealed in a set that has the nodes of the recognizer. -/
structure Recognizer.Shut {L : Type} [DecidableEq L] (K : Set NodeId) (r : Recognizer L) :
    Prop where
  grammar : r.grammar.Sealed K
  chain : ∀ x ∈ r.chain, x ∈ K

/-- The two actions do the same to recognizers that are shut in a set. What they leave is shut in
some set, for which the answer is as it should be. A collection may have renamed everything, so that
need not be a larger set. -/
def Recognizing.Safe {L α : Type} [DecidableEq L] (K : Set NodeId) (V : Set NodeId → α → Prop)
    (act act' : Recognizing L α) : Prop :=
  ∀ r : Recognizer L, r.Shut K →
    act' r = act r ∧ ∀ a r', act r = .ok (a, r') → ∃ K', r'.Shut K' ∧ V K' a

section Calls

variable {L α β : Type} [DecidableEq L] {K : Set NodeId} {V : Set NodeId → α → Prop}
  {U : Set NodeId → β → Prop} {r r' : Recognizer L}

namespace Recognizing.Safe

variable {act act' : Recognizing L α} {k k' : α → Recognizing L β}

theorem pure {a : α} (h : V K a) : Safe K V (pure a : Recognizing L α) (Pure.pure a) := by
  refine fun r shut => ⟨rfl, fun b r' run => ?_⟩
  obtain ⟨rfl, rfl⟩ := Action.pure_ok.mp run
  exact ⟨K, shut, h⟩

theorem read {k k' : Recognizer L → Recognizing L β} (h : ∀ r, r.Shut K → Safe K U (k r) (k' r)) :
    Safe K U (get >>= k) (get >>= k') :=
  fun r shut => h r shut r shut

theorem modify {f : Recognizer L → Recognizer L} (h : ∀ r, r.Shut K → (f r).Shut K) :
    Safe K Free (modify f : Recognizing L Unit) (modify f) := by
  refine fun r shut => ⟨rfl, fun u r' run => ?_⟩
  obtain rfl := Action.modify_ok.mp run
  exact ⟨K, h r shut, trivial⟩

theorem lift (x : Except Error α) : Safe K Free (liftM x : Recognizing L α) (liftM x) := by
  refine fun r shut => ⟨rfl, fun a r' run => ?_⟩
  obtain ⟨-, rfl⟩ := Action.lift_ok.mp run
  exact ⟨K, shut, trivial⟩

theorem bind (first : Safe K V act act') (next : ∀ K' a, V K' a → Safe K' U (k a) (k' a)) :
    Safe K U (act >>= k) (act' >>= k') := by
  intro r shut
  obtain ⟨same, after⟩ := first r shut
  constructor
  · show (act' r >>= fun p => k' p.1 p.2) = (act r >>= fun p => k p.1 p.2)
    rw [same]
    cases run : act r with
    | error e => rfl
    | ok p =>
      obtain ⟨K', shut', hv⟩ := after p.1 p.2 run
      exact (next K' p.1 hv p.2 shut').1
  · intro b r₂ run
    obtain ⟨a, r₁, ha, hk⟩ := Action.bind_ok.mp run
    obtain ⟨K₁, shut₁, hv⟩ := after a r₁ ha
    exact (next K₁ a hv r₁ shut₁).2 b r₂ hk

theorem onGrammar {act act' : Eval L α} (h : DerivativeParsing.Safe K V act act') :
    Safe K V (Recognizer.onGrammar act) (Recognizer.onGrammar act') := by
  intro r shut
  obtain ⟨same, after⟩ := h r.grammar shut.grammar
  refine ⟨?_, fun a r' run => ?_⟩
  · unfold Recognizer.onGrammar
    simp only [same]
  · obtain ⟨g', ran, rfl⟩ := Recognizer.onGrammar_ok.mp run
    obtain ⟨K', sub, sealing, hv⟩ := after a g' ran
    exact ⟨K', ⟨sealing, fun x hx => sub (shut.chain x hx)⟩, hv⟩

theorem reset : Safe K Free (Recognizer.reset : Recognizing L Unit) Recognizer.reset :=
  modify fun _ shut => ⟨shut.grammar, fun _ hx => List.mem_singleton.mp hx ▸ shut.chain _ (.head _)⟩

theorem collect : Safe K Free (Recognizer.collect : Recognizing L Unit) Recognizer.collect := by
  refine fun r shut => ⟨rfl, fun u r' run => ?_⟩
  obtain ⟨_, _, get, rest⟩ := Action.bind_ok.mp run
  obtain ⟨rfl, rfl⟩ := Action.get_ok.mp get
  obtain ⟨ids, _, ran, -⟩ := Action.bind_ok.mp rest
  obtain ⟨g', ran, -⟩ := Recognizer.onGrammar_ok.mp ran
  obtain ⟨place, K', rfl, sealing, inside⟩ := collect_sealed shut.grammar shut.chain ran
  cases (Recognizer.collect_of_ok ran).symm.trans run
  exact ⟨K', ⟨sealing, by rwa [Recognizer.chain_moved]⟩, trivial⟩

end Recognizing.Safe

/-- Where a grammar is sealed, two engines answer the same, and stay inside. -/
structure Engine.Safe (M M' : Engine L) : Prop where
  step : ∀ {K : Set NodeId} {id}, id ∈ K → ∀ s culling,
    DerivativeParsing.Safe K (fun K p => p.1 ∈ K) (M.step id s culling) (M'.step id s culling)
  nullable : ∀ {K : Set NodeId} {id}, id ∈ K →
    DerivativeParsing.Safe K Free (M.nullable id) (M'.nullable id)
  forest : ∀ {K : Set NodeId} {chain}, (∀ x ∈ chain, x ∈ K) → ∀ input,
    DerivativeParsing.Safe K Free (M.forest chain input) (M'.forest chain input)

theorem Evaluator.Safe.engine {E E' : Evaluator L} (h : E.Safe E') (alarm : Error) (depth : Nat) :
    (E.engine depth).Safe (E'.waryEngine alarm depth) where
  step hid := h.step hid
  nullable hid := h.nullable hid
  forest hc input := h.forestOfRun input depth hc

namespace Engine.Safe

variable {M M' : Engine L} (h : M.Safe M')
include h

theorem feed (s : Symbol L) : Recognizing.Safe K Free (M.feed s) (M'.feed s) := by
  refine .read fun r _ => .read fun r' shut => ?_
  dsimp only
  split
  · exact .pure trivial
  have stepping := h.step (shut.chain _ r'.current_mem_chain) s r.settings.culling
  refine .bind (.onGrammar stepping) fun K₁ p hn => ?_
  obtain ⟨next, accepts⟩ := p
  refine .bind (.modify fun r shut => ⟨shut.grammar, fun x hx => ?_⟩) fun K₂ _ _ =>
    .read fun r' _ => ?_
  · have hx : x ∈ (r.advanced s next r.grammar).chain := hx
    rw [Recognizer.chain_advanced] at hx
    rcases List.mem_append.mp hx with hx | hx
    · exact shut.chain x hx
    · exact List.mem_singleton.mp hx ▸ hn
  refine .bind (.onGrammar (.bind .get fun _ _ _ _ => .note _)) fun K₃ _ _ => ?_
  refine .bind (.lift _) fun K₄ due _ => ?_
  split
  · exact .bind .collect fun _ _ _ => .read fun _ _ => .pure trivial
  · exact .read fun _ _ => .pure trivial

theorem accepted :
    Recognizing.Safe K Free (M.accepted : Recognizing L Bool) (M'.accepted : Recognizing L Bool) :=
  .read fun r shut => .onGrammar (h.nullable (shut.chain _ r.current_mem_chain))

theorem feedAll (symbols : List (Symbol L)) :
    Recognizing.Safe K Free (M.feedAll symbols) (M'.feedAll symbols) := by
  induction symbols generalizing K with
  | nil => exact .pure trivial
  | cons s rest ih =>
    refine .bind (h.feed s) fun K₁ alive _ => ?_
    cases alive with
    | true => exact ih
    | false =>
      refine .read fun r _ => ?_
      split
      · exact .pure trivial
      · exact ih

theorem recognize (symbols : List (Symbol L)) :
    Recognizing.Safe K Free (M.recognize symbols) (M'.recognize symbols) :=
  .bind .reset fun _ _ _ => .bind (h.feedAll symbols) fun _ _ _ => .read fun _ _ =>
    .bind h.accepted fun _ _ _ => .pure trivial

theorem forestOf : Recognizing.Safe K Free M.forestOf M'.forestOf :=
  .read fun _ shut => .read fun r' _ => .onGrammar (h.forest shut.chain r'.input)

theorem parse (symbols : List (Symbol L)) :
    Recognizing.Safe K Free (M.parse symbols) (M'.parse symbols) := by
  refine .bind (h.recognize symbols) fun K₁ outcome _ => ?_
  split
  · exact .bind h.forestOf fun _ _ _ => .pure trivial
  · exact .pure trivial

theorem call (c : Call L) : Recognizing.Safe K Free (M.call c) (M'.call c) := by
  cases c with
  | feed s => exact .bind (h.feed s) fun _ _ _ => .pure trivial
  | accepted => exact .bind h.accepted fun _ _ _ => .pure trivial
  | recognize symbols => exact .bind (h.recognize symbols) fun _ _ _ => .pure trivial
  | parse symbols => exact .bind (h.parse symbols) fun _ _ _ => .pure trivial
  | forest => exact .bind h.forestOf fun _ _ _ => .pure trivial
  | reset => exact .reset

theorem callAll (calls : List (Call L)) :
    Recognizing.Safe K Free (M.callAll calls) (M'.callAll calls) := by
  induction calls generalizing K with
  | nil => exact .pure trivial
  | cons c rest ih => exact .bind (h.call c) fun _ _ _ => ih

end Engine.Safe

/-- Calls of a recognizer whose nodes are in a sealed set raise no alarm. -/
theorem callAll_safe (alarm : Error) (fuel : Nat) (calls : List (Call L)) :
    Recognizing.Safe K Free (Recognizer.callAll fuel calls)
      (Recognizer.waryCallAll alarm fuel calls) :=
  ((wary_safe alarm fuel).engine alarm fuel).callAll calls

end Calls

/-! ## Grammars that were validated -/

section Validated

variable {L : Type} [DecidableEq L] {g : Grammar L} {start : NodeId} {settings : Settings}

/-- In a raw graph, all that an accepted start leads to is a sealed set. -/
theorem Grammar.Raw.sealed {u : Unit} (raw : g.Raw) (valid : g.validate start = .ok u) :
    g.Sealed (insert nothing {x | g.Reaches true start x}) where
  nothing := .inl rfl
  node := by
    rintro x (rfl | reaches)
    · exact ⟨.empty, raw.formed.nothing, trivial⟩
    · obtain ⟨node, there, defined⟩ := Grammar.reached_of_validate valid reaches
      have fresh := raw.fresh x node there
      have part (y : NodeId) (member : y ∈ node.successors true) :
          y ∈ insert nothing {x | g.Reaches true start x} := .inr (reaches.tail there member)
      refine ⟨node, there, ?_⟩
      cases node with
      | empty | token => trivial
      | matched | thunk => cases fresh
      | alt left right | cat left right =>
        exact ⟨part left (.head _), part right (.tail _ (.head _))⟩
      | rep body => exact part body (.head _)
      | rule r body =>
        refine ⟨part body (.head _), fun kind next known => ?_⟩
        cases fresh.1.symm.trans known
      | undefined name => exact absurd rfl (defined name)
  memo x s next known := by
    rw [raw.memo, Memo.find?_nil] at known
    cases known

/-- A start of a graph that was built node by node is accepted if it is there and leads to no
nonterminal without a body; the error names one that it leads to otherwise, if it is there. And once
a recognizer accepted it, no calls, whatever they are and with whatever settings, make evaluation or
the reading of trees come to a nonterminal without a body: the alarm is not raised, whatever it
is. -/
theorem validated_calls (made : g.Made) (start : NodeId) :
    (g.validate start = .ok () ↔
      start < g.size ∧ ∀ x name, g.Reaches true start x → g.arena.get? x ≠ some (.undefined name)) ∧
    (∀ e, g.validate start = .error e → (g.size ≤ start ∧ e = .outOfRange start) ∨
      ∃ x name, g.Reaches true start x ∧ g.arena.get? x = some (.undefined name) ∧
        e = .undefined name) ∧
    ∀ settings r, Recognizer.ofGrammar g start settings = .ok r → ∀ alarm fuel calls,
      Recognizer.waryCallAll alarm fuel calls r = Recognizer.callAll fuel calls r := by
  have raw := made.raw
  refine ⟨⟨fun valid => ⟨Grammar.lt_size_of_validate valid, fun x name reaches there => ?_⟩, ?_⟩,
    fun e => Grammar.exists_of_validate_error
    (raw.formed.ranged true), fun settings r valid alarm fuel calls => ?_⟩
  · obtain ⟨node, there', defined⟩ := Grammar.reached_of_validate valid reaches
    exact defined name (Option.some.inj (there'.symm.trans there))
  · rintro ⟨lt, defined⟩
    cases valid : g.validate start with
    | ok u => rfl
    | error e =>
      rcases Grammar.exists_of_validate_error (raw.formed.ranged true) valid with ⟨le, -⟩
        | ⟨x, name, reaches, there, -⟩
      · exact absurd lt (Nat.not_lt.mpr le)
      · exact absurd there (defined x name reaches)
  · have valid' : g.validate start = .ok () := by
      cases accepted : g.validate start with
      | ok u => rfl
      | error e =>
        rw [Recognizer.ofGrammar, accepted] at valid
        cases valid
    obtain rfl := ofGrammar_ok valid
    have shut : Recognizer.Shut (insert nothing {x | g.Reaches true start x})
        ({ grammar := g, start, settings } : Recognizer L) :=
      ⟨raw.sealed valid', fun x hx => List.mem_singleton.mp hx ▸ .inr (.refl start)⟩
    exact (callAll_safe alarm fuel calls _ shut).1

/-- The undefined "T" of the sample is out of reach from "S", so "S" is accepted. From "T" itself it
is not. -/
theorem validated_calls_looped : looped.Made ∧ looped.validate 1 = .ok () ∧ ∃ r : Recognizer String,
    Recognizer.ofGrammar looped 1 {} = .ok r ∧
    Recognizer.waryCallAll (.unknownRule "alarm") 30
      [.feed ⟨2, "a"⟩, .parse [⟨2, "b"⟩, ⟨2, "c"⟩], .forest] r =
      Recognizer.callAll 30 [.feed ⟨2, "a"⟩, .parse [⟨2, "b"⟩, ⟨2, "c"⟩], .forest] r := by
  obtain ⟨r, valid⟩ :=
    exists_of_isOk (show (Recognizer.ofGrammar looped 1 {}).isOk = true by decide +kernel)
  have accepted : looped.validate 1 = .ok () := by decide +kernel
  exact ⟨made_looped, accepted, r, valid, (validated_calls made_looped 1).2.2 {} r valid _ _ _⟩

end Validated

end DerivativeParsing
