import DerivativeParsing.Proofs.Collecting
import DerivativeParsing.Proofs.Recognition
import Mathlib.Data.Set.Insert

/-!
# Parts of a graph that nothing leads out of

A part of a graph may be closed off from the rest: what its nodes lead to or remember is in it, and
no nonterminal in it is without a body. Evaluation only follows edges, so it stays in such a part,
whatever stands in other slots.

1. `Grammar.Sealed K`: the set `K` of nodes is such a part. Adding a node and changing one keep it
   so.
2. `Safe` says of two actions that they do the same to grammars that are sealed, and leave them
   sealed in a set with the nodes that are new. Each way of making an action of others has a rule.
3. `Evaluator.Safe`: so do two evaluators at the nodes of the set, and then the next level of
   evaluation does.
4. `Safe.cull` and `collect_sealed`: culling stays in the set, and a collection renames it.
-/

namespace DerivativeParsing

open Grammar (nothing)

/-! ## Sealed graphs -/

/-- What the node leads to or remembers is in the set, and it is not a nonterminal without a
body. -/
def Node.Within {L : Type} (K : Set NodeId) : Node L → Prop
  | .empty | .token _ | .matched _ => True
  | .alt left right | .cat left right => left ∈ K ∧ right ∈ K
  | .rep body => body ∈ K
  | .rule r body => body ∈ K ∧ ∀ kind next, r.memo = some (kind, next) → next ∈ K
  | .thunk t base => base ∈ K ∧ ∀ target, t.resolved? = some target → target ∈ K
  | .undefined _ => False

/-- Nothing leads out of a set of nodes, in which no nonterminal is without a body. -/
structure Grammar.Sealed {L : Type} [DecidableEq L] (K : Set NodeId) (g : Grammar L) : Prop where
  nothing : nothing ∈ K
  node : ∀ x ∈ K, ∃ node, g.arena.get? x = some node ∧ node.Within K
  memo : ∀ x s next, g.memo.find? x s = some next → next ∈ K

section Sealed

variable {L : Type} {K K' : Set NodeId} {g g' : Grammar L} {node : Node L} {id x : NodeId}
  {s : Symbol L}

theorem Node.Within.mono (h : node.Within K) (sub : K ⊆ K') : node.Within K' := by
  cases node with
  | empty | token | matched => trivial
  | undefined => exact h
  | alt | cat => exact ⟨sub h.1, sub h.2⟩
  | rep => exact sub h
  | rule => exact ⟨sub h.1, fun kind next known => sub (h.2 kind next known)⟩
  | thunk => exact ⟨sub h.1, fun target resolved => sub (h.2 target resolved)⟩

theorem Node.Within.successors (h : node.Within K) : ∀ x ∈ node.successors true, x ∈ K := by
  cases node with
  | empty | token | matched => exact nofun
  | undefined => exact h.elim
  | alt | cat =>
    intro x hx
    rcases List.mem_pair.mp hx with rfl | rfl
    · exact h.1
    · exact h.2
  | rep => exact fun x hx => List.mem_singleton.mp hx ▸ h
  | rule => exact fun x hx => List.mem_singleton.mp hx ▸ h.1
  | thunk t base =>
    obtain ⟨s, state⟩ := t
    intro x hx
    cases state with
    | pending | running => exact List.mem_singleton.mp hx ▸ h.1
    | forced target => exact List.mem_singleton.mp hx ▸ h.2 target rfl
    | culled target => exact h.2 x (Option.mem_toList.mp hx)

theorem Node.Within.mapRule {f : Rule → Rule} (h : node.Within K)
    (memo : ∀ r kind next, (f r).memo = some (kind, next) → r.memo = some (kind, next) ∨ next ∈ K) :
    (node.mapRule f).Within K := by
  cases node with
  | rule r body =>
    exact ⟨h.1, fun kind next known => (memo r kind next known).elim (h.2 kind next) id⟩
  | _ => exact h

namespace Grammar.Sealed

variable [DecidableEq L]

theorem of_eq (h : g.Sealed K) (arena : g'.arena = g.arena) (memo : g'.memo = g.memo) :
    g'.Sealed K where
  nothing := h.nothing
  node := by
    rw [arena]
    exact h.node
  memo := by
    rw [memo]
    exact h.memo

theorem withNode (h : g.Sealed K) (within : node.Within K) :
    (g.withNode node).Sealed (insert g.size K) where
  nothing := .inr h.nothing
  node x hx := by
    rcases hx with rfl | hx
    · exact ⟨node, get?_withNode_self node, within.mono (Set.subset_insert _ _)⟩
    · obtain ⟨old, there, within⟩ := h.node x hx
      refine ⟨old, ?_, within.mono (Set.subset_insert _ _)⟩
      rw [get?_withNode_of_lt (lt_size_of_get? there), there]
  memo x s next known := .inr (h.memo x s next known)

theorem revised {f : Node L → Node L} (h : g.Sealed K)
    (step : ∀ node, node.Within K → (f node).Within K) : (g.revised id f).Sealed K where
  nothing := h.nothing
  node x hx := by
    obtain ⟨node, there, within⟩ := h.node x hx
    rw [get?_revised, there]
    split
    · exact ⟨f node, rfl, step node within⟩
    · exact ⟨node, rfl, within⟩
  memo := h.memo

theorem settled {next : NodeId} (h : g.Sealed K) (hn : next ∈ K) (outer : Bool) :
    (settle id s next outer g).Sealed K where
  nothing := h.nothing
  node := h.node
  memo x s' next' known := by
    have known : (if g.provisional then g.memo else g.memo.record id s next).find? x s' =
        some next' := known
    split at known
    · exact h.memo x s' next' known
    · rw [Memo.find?_record] at known
      split at known
      · cases known
        exact hn
      · exact h.memo x s' next' known

end Grammar.Sealed

end Sealed

/-! ## Actions that stay inside -/

/-- The answer is one of the nodes. -/
def Enclosed (K : Set NodeId) (x : NodeId) : Prop := x ∈ K

/-- Any answer will do. -/
def Free {α : Type} (_ : Set NodeId) (_ : α) : Prop := True

/-- The two actions do the same to grammars that are sealed in a set. What they leave is sealed in a
larger set, for which the answer is as it should be. -/
def Safe {L α : Type} [DecidableEq L] (K : Set NodeId) (V : Set NodeId → α → Prop)
    (act act' : Eval L α) : Prop :=
  ∀ g : Grammar L, g.Sealed K → act' g = act g ∧
    ∀ a g', act g = .ok (a, g') → ∃ K', K ⊆ K' ∧ g'.Sealed K' ∧ V K' a

namespace Safe

variable {L α β : Type} [DecidableEq L] {K K' : Set NodeId} {V : Set NodeId → α → Prop}
  {U : Set NodeId → β → Prop} {act act' : Eval L α} {k k' : α → Eval L β} {g : Grammar L}
  {id x : NodeId} {node : Node L} {s : Symbol L}

theorem pure {a : α} (h : V K a) : Safe K V (pure a : Eval L α) (Pure.pure a) := by
  refine fun g sealing => ⟨rfl, fun b g' run => ?_⟩
  obtain ⟨rfl, rfl⟩ := Action.pure_ok.mp run
  exact ⟨K, subset_rfl, sealing, h⟩

theorem throw (e : Error) : Safe K V (throw e : Eval L α) (MonadExcept.throw e) :=
  fun _ _ => ⟨rfl, fun _ _ run => (Action.throw_ok.mp run).elim⟩

theorem bind (first : Safe K V act act') (next : ∀ K' a, K ⊆ K' → V K' a → Safe K' U (k a) (k' a)) :
    Safe K U (act >>= k) (act' >>= k') := by
  intro g sealing
  obtain ⟨same, after⟩ := first g sealing
  constructor
  · show (act' g >>= fun p => k' p.1 p.2) = (act g >>= fun p => k p.1 p.2)
    rw [same]
    cases run : act g with
    | error e => rfl
    | ok p =>
      obtain ⟨K', sub, sealing', hv⟩ := after p.1 p.2 run
      exact (next K' p.1 sub hv p.2 sealing').1
  · intro b g₂ run
    obtain ⟨a, g₁, ha, hk⟩ := Action.bind_ok.mp run
    obtain ⟨K₁, sub₁, sealing₁, hv⟩ := after a g₁ ha
    obtain ⟨K₂, sub₂, sealing₂, hu⟩ := (next K₁ a sub₁ hv g₁ sealing₁).2 b g₂ hk
    exact ⟨K₂, sub₁.trans sub₂, sealing₂, hu⟩

theorem of_nothing (h : nothing ∈ K → Safe K V act act') : Safe K V act act' :=
  fun g sealing => h sealing.nothing g sealing

/-! ### Primitive actions -/

theorem get : Safe K (fun K g => g.Sealed K) (get : Eval L (Grammar L)) MonadState.get := by
  refine fun g sealing => ⟨rfl, fun b g' run => ?_⟩
  obtain ⟨rfl, rfl⟩ := Action.get_ok.mp run
  exact ⟨K, subset_rfl, sealing, sealing⟩

theorem modify {f : Grammar L → Grammar L} (h : ∀ g, g.Sealed K → (f g).Sealed K) :
    Safe K Free (modify f : Eval L Unit) (modify f) := by
  refine fun g sealing => ⟨rfl, fun u g' run => ?_⟩
  obtain rfl := Action.modify_ok.mp run
  exact ⟨K, subset_rfl, h g sealing, trivial⟩

theorem fetch (hx : x ∈ K) :
    Safe K (fun K node => Node.Within K node) (Grammar.fetch x : Eval L (Node L))
    (Grammar.fetch x) := by
  refine fun g sealing => ⟨rfl, fun node g' run => ?_⟩
  obtain ⟨there, rfl⟩ := Grammar.fetch_ok.mp run
  obtain ⟨node', there', within⟩ := sealing.node x hx
  cases there.symm.trans there'
  exact ⟨K, subset_rfl, sealing, within⟩

theorem alloc (node : Node L) (within : node.Within K) :
    Safe K Enclosed (Grammar.alloc node) (Grammar.alloc node) := by
  refine fun g sealing => ⟨rfl, fun id g' run => ?_⟩
  obtain ⟨rfl, rfl⟩ := Grammar.alloc_ok.mp run
  exact ⟨_, Set.subset_insert _ _, sealing.withNode within, Set.mem_insert _ _⟩

theorem revise {f : Node L → Node L} (step : ∀ node, node.Within K → (f node).Within K) :
    Safe K Free (Grammar.revise id f) (Grammar.revise id f) :=
  modify fun _ sealing => sealing.revised step

theorem note (event : Event) :
    Safe K Free (Grammar.note event : Eval L Unit) (Grammar.note event) :=
  modify fun _ sealing => sealing.of_eq rfl rfl

/-! ### Derivatives of one node -/

theorem setFixpoint (fixpoint : Fixpoint) :
    Safe K Free (Grammar.setFixpoint id fixpoint : Eval L Unit) (Grammar.setFixpoint id fixpoint) :=
  revise fun _ within => within.mapRule fun _ _ _ known => .inl known

theorem setState (state : ThunkState)
    (h : ∀ symbol target, (⟨symbol, state⟩ : Thunk L).resolved? = some target → target ∈ K) :
    Safe K Free (Grammar.setState id state : Eval L Unit) (Grammar.setState id state) := by
  refine revise fun node within => ?_
  cases node with
  | thunk t base => exact ⟨within.1, h t.symbol⟩
  | _ => exact within

theorem remembering {compute compute' : Eval L NodeId}
    (h : ∀ K', K ⊆ K' → Safe K' Enclosed compute compute') :
    Safe K Enclosed (Grammar.remembering id s compute) (Grammar.remembering id s compute') := by
  unfold Grammar.remembering
  refine .bind .get fun K₁ g sub sealing => ?_
  cases known : g.memo.find? id s with
  | some next => exact .pure (sealing.memo id s next known)
  | none =>
    refine .bind .get fun K₂ before sub₂ _ => ?_
    refine .bind (.modify fun g sealing => sealing.of_eq rfl rfl) fun K₃ _ sub₃ _ => ?_
    refine .bind (h K₃ (sub.trans (sub₂.trans sub₃))) fun K₄ next sub₄ hn => ?_
    refine .bind
      (.modify fun g sealing => sealing.settled hn before.provisional) fun K₅ _ sub₅ _ => ?_
    exact .bind (.note _) fun K₆ _ sub₆ _ => .pure (sub₆ (sub₅ hn))

theorem deriveToken (kind : Kind) :
    Safe K Enclosed (Grammar.deriveToken kind s) (Grammar.deriveToken kind s) := by
  unfold Grammar.deriveToken
  split
  · exact .alloc (.matched s) trivial
  · exact .of_nothing .pure

/-- The thunk that is new leads to the body, the rule that is new leads to the thunk, and the old
one remembers it. -/
theorem deriveRule {r : Rule} {body : NodeId} (within : (Node.rule r body : Node L).Within K) :
    Safe K Enclosed (Grammar.deriveRule id r body s) (Grammar.deriveRule id r body s) := by
  unfold Grammar.deriveRule
  cases known : r.remembered? s.kind with
  | some next =>
    obtain ⟨⟨kind, next'⟩, memo, same⟩ := Option.bind_eq_some_iff.mp known
    dsimp only at same
    split at same
    · cases same
      exact .pure (within.2 kind next memo)
    · cases same
  | none =>
    refine .bind (.alloc (.thunk { symbol := s } body) ⟨within.1, nofun⟩) fun K₁ thunk sub₁ ht => ?_
    refine .bind (.alloc (.rule { name := r.name } thunk) ⟨ht, nofun⟩) fun K₂ next sub₂ hn => ?_
    refine .bind (.revise fun _ within => within.mapRule fun _ _ _ known => ?_) fun K₃ _ sub₃ _ =>
      .pure (sub₃ hn)
    cases known
    exact .inr hn

end Safe

/-! ## Evaluation -/

/-- At the nodes of a set that is sealed, the two evaluators do the same, and stay inside. -/
structure Evaluator.Safe {L : Type} [DecidableEq L] (E E' : Evaluator L) : Prop where
  derive : ∀ {K id} s, id ∈ K → DerivativeParsing.Safe K Enclosed (E.derive id s) (E'.derive id s)
  nullable : ∀ {K id}, id ∈ K → DerivativeParsing.Safe K Free (E.nullable id) (E'.nullable id)
  force : ∀ {K id}, id ∈ K → DerivativeParsing.Safe K Enclosed (E.force id) (E'.force id)

namespace Evaluator.Safe

variable {L : Type} [DecidableEq L] {E E' : Evaluator L} {K : Set NodeId} {id : NodeId}

theorem failing (e : Error) : (Evaluator.failing e : Evaluator L).Safe (Evaluator.failing e) :=
  ⟨fun _ _ => .throw e, fun _ => .throw e, fun _ => .throw e⟩

variable (h : E.Safe E') (hid : id ∈ K)
include h hid

theorem deriveNode (s : Symbol L) :
    DerivativeParsing.Safe K Enclosed (E.deriveNode id s) (E'.deriveNode id s) := by
  refine .bind (.fetch hid) fun K₁ node sub₁ within => ?_
  have hid := sub₁ hid
  cases node with
  | empty | matched => exact .of_nothing .pure
  | undefined name => exact within.elim
  | rule r body => exact .deriveRule within
  | thunk => exact .bind (h.force hid) fun K₂ target _ ht => h.derive s ht
  | token kind => exact .remembering fun _ _ => .deriveToken kind
  | alt left right =>
    refine .remembering fun K₂ sub₂ => .bind (h.derive s (sub₂ within.1)) fun K₃ l sub₃ hl => ?_
    refine .bind (h.derive s (sub₃ (sub₂ within.2))) fun K₄ r sub₄ hr => ?_
    exact .alloc (.alt l r) ⟨sub₄ hl, hr⟩
  | cat left right =>
    refine .remembering fun K₂ sub₂ => .bind (h.nullable (sub₂ within.1)) fun K₃ skips sub₃ _ => ?_
    have left_in : left ∈ K₃ := sub₃ (sub₂ within.1)
    have right_in : right ∈ K₃ := sub₃ (sub₂ within.2)
    cases skips with
    | true =>
      refine .bind (h.derive s left_in) fun K₄ l sub₄ hl => ?_
      refine .bind (.alloc (.cat l right) ⟨hl, sub₄ right_in⟩) fun K₅ consumed sub₅ hc => ?_
      refine .bind (h.derive s (sub₅ (sub₄ right_in))) fun K₆ skipped sub₆ hs => ?_
      exact .alloc (.alt consumed skipped) ⟨sub₆ hc, hs⟩
    | false =>
      refine .bind (h.derive s left_in) fun K₄ l sub₄ hl => ?_
      exact .alloc (.cat l right) ⟨hl, sub₄ right_in⟩
  | rep body =>
    refine .remembering fun K₂ sub₂ => .bind (h.derive s (sub₂ within)) fun K₃ d sub₃ hd => ?_
    exact .alloc (.cat d id) ⟨hd, sub₃ (sub₂ hid)⟩

theorem nullableNode : DerivativeParsing.Safe K Free (E.nullableNode id) (E'.nullableNode id) := by
  refine .bind (.fetch hid) fun K₁ node sub₁ within => ?_
  cases node with
  | empty | token | matched | rep => exact .pure trivial
  | undefined => exact within.elim
  | alt left right =>
    refine .bind (h.nullable within.1) fun K₂ answer sub₂ _ => ?_
    cases answer with
    | true => exact .pure trivial
    | false => exact h.nullable (sub₂ within.2)
  | cat left right =>
    refine .bind (h.nullable within.1) fun K₂ answer sub₂ _ => ?_
    cases answer with
    | true => exact h.nullable (sub₂ within.2)
    | false => exact .pure trivial
  | thunk => exact .bind (h.force (sub₁ hid)) fun K₂ target _ ht => h.nullable ht
  | rule r body =>
    obtain ⟨name, memo, fixpoint, busy⟩ := r
    cases fixpoint with
    | done answer => exact .pure trivial
    | inProgress =>
      exact .bind (.modify fun g sealing => sealing.of_eq rfl rfl) fun _ _ _ _ => .pure trivial
    | unstarted =>
      refine .bind (.setFixpoint .inProgress) fun K₂ _ sub₂ _ => ?_
      refine .bind (h.nullable (sub₂ within.1)) fun K₃ answer _ _ => ?_
      exact .bind (.setFixpoint (.done answer)) fun _ _ _ _ => .pure trivial

theorem forceNode : DerivativeParsing.Safe K Enclosed (E.forceNode id) (E'.forceNode id) := by
  refine .bind (.fetch hid) fun K₁ node sub₁ within => ?_
  cases node with
  | thunk t base =>
    obtain ⟨s, state⟩ := t
    cases state with
    | forced target => exact .pure (within.2 target rfl)
    | culled target =>
      cases target with
      | some target => exact .pure (within.2 target rfl)
      | none => exact .of_nothing .pure
    | running => exact .bind (.note _) fun _ _ _ _ => .of_nothing .pure
    | pending =>
      refine .bind (.setState .running nofun) fun K₂ _ sub₂ _ => ?_
      refine .bind (h.derive s (sub₂ within.1)) fun K₃ target sub₃ ht => ?_
      refine .bind (.setState
        (.forced target) fun _ _ resolved => Option.some.inj resolved ▸ ht) fun K₄ _ sub₄ _ => ?_
      refine .bind (.modify fun g sealing => sealing.of_eq rfl rfl) fun K₅ _ sub₅ _ => ?_
      exact .bind (.note _) fun K₆ _ sub₆ _ => .pure (sub₆ (sub₅ (sub₄ ht)))
  | undefined => exact within.elim
  | _ => exact .pure (sub₁ hid)

end Evaluator.Safe

/-! ## Culling -/

/-- What became of the nodes that are finished is in the set. -/
def Culling.Ended (K : Set NodeId) (F : Std.TreeMap NodeId (Option NodeId)) : Prop :=
  ∀ (x : NodeId) y, F[x]? = some (some y) → y ∈ K

/-- In the course of culling, the action stays in the set, and its answer is as it should be. -/
def Culling.Stays {L α : Type} [DecidableEq L] (K : Set NodeId) (V : α → Prop) (act : Culling L α) :
    Prop :=
  ∀ F g, Ended K F → g.Sealed K → ∀ a F' g', act F g = .ok ((a, F'), g') →
    Ended K F' ∧ g'.Sealed K ∧ V a

/-- What is left of a node, if anything, is in the set. -/
def Remaining (K : Set NodeId) (result : Option NodeId) : Prop := ∀ y, result = some y → y ∈ K

namespace Culling.Stays

variable {L α β : Type} [DecidableEq L] {K : Set NodeId} {V : α → Prop} {U : β → Prop}
  {act : Culling L α} {k : α → Culling L β} {id : NodeId} {node : Node L} {result : Option NodeId}
  {live : Std.TreeSet NodeId} {fuel : Nat}

theorem pure {a : α} (h : V a) : Stays K V (pure a : Culling L α) := by
  intro F g ended sealing b F' g' run
  obtain ⟨rfl, rfl, rfl⟩ := Culling.pure_ok.mp run
  exact ⟨ended, sealing, h⟩

theorem bind (first : Stays K V act) (next : ∀ a, V a → Stays K U (k a)) :
    Stays K U (act >>= k) := by
  intro F g ended sealing b F₂ g₂ run
  obtain ⟨a, F₁, g₁, ha, hk⟩ := Culling.bind_ok.mp run
  obtain ⟨ended₁, sealing₁, hv⟩ := first F g ended sealing a F₁ g₁ ha
  exact next a hv F₁ g₁ ended₁ sealing₁ b F₂ g₂ hk

theorem revise {f : Node L → Node L} (step : ∀ node, node.Within K → (f node).Within K) :
    Stays K (fun _ => True) (onGrammar (Grammar.revise id f) : Culling L Unit) := by
  intro F g ended sealing u F' g' run
  cases (Culling.onGrammar_of_ok (Grammar.revise_ok.mpr rfl)).symm.trans run
  exact ⟨ended, sealing.revised step, trivial⟩

theorem store (node : Node L) (within : node.Within K) :
    Stays K (fun _ => True) (onGrammar (Grammar.store id node) : Culling L Unit) := by
  intro F g ended sealing u F' g' run
  cases (Culling.onGrammar_of_ok Grammar.store_ok).symm.trans run
  exact ⟨ended, sealing.revised fun _ _ => within, trivial⟩

theorem finish (h : Remaining K result) :
    Stays K (Remaining K) (Grammar.finishCull id result : Culling L _) := by
  intro F g ended sealing r F' g' run
  obtain ⟨g₁, run', arena, memo⟩ := Grammar.finishCull_ok (F := F) (g := g) id result
  cases run'.symm.trans run
  refine ⟨fun x y known => ?_, sealing.of_eq arena memo, h⟩
  rw [Std.TreeMap.getElem?_insert] at known
  split at known
  · cases known
    exact h y rfl
  · exact ended x y known

theorem setState (state : ThunkState)
    (h : ∀ symbol target, (⟨symbol, state⟩ : Thunk L).resolved? = some target → target ∈ K) :
    Stays K (fun _ => True) (onGrammar (Grammar.setState id state) : Culling L Unit) := by
  refine revise fun node within => ?_
  cases node with
  | thunk t base => exact ⟨within.1, h t.symbol⟩
  | _ => exact within

theorem remaining_self (hid : id ∈ K) : Remaining K (some id) :=
  fun _ same => Option.some.inj same ▸ hid

theorem remaining_none : Remaining K none := nofun

theorem setBusy (busy : Bool) :
    Stays K (fun _ => True) (onGrammar (Grammar.setBusy id busy) : Culling L Unit) :=
  revise fun _ within => within.mapRule fun _ _ _ known => .inl known

section Trim

variable {visit : NodeId → Culling L (Option NodeId)}
  (ih : ∀ x ∈ K, Stays K (Remaining K) (visit x)) (hid : id ∈ K)
include ih hid

theorem trim_alt {left right : NodeId} (hl : left ∈ K) (hr : right ∈ K) :
    Stays K (Remaining K) (Grammar.trim visit id (.alt left right)) := by
  refine (ih left hl).bind fun l hl => (ih right hr).bind fun r hr => ?_
  match l, r with
  | some l, some r =>
    have within : (Node.alt l r : Node L).Within K := ⟨hl l rfl, hr r rfl⟩
    exact (store _ within).bind fun _ _ => finish (remaining_self hid)
  | some l, none => exact finish hl
  | none, some r => exact finish hr
  | none, none => exact finish remaining_none

theorem trim_cat {left right : NodeId} (hl : left ∈ K) (hr : right ∈ K) :
    Stays K (Remaining K) (Grammar.trim visit id (.cat left right)) := by
  refine (ih left hl).bind fun l hl => ?_
  cases l with
  | none => exact finish remaining_none
  | some l =>
    refine (ih right hr).bind fun r hr => ?_
    cases r with
    | none => exact finish remaining_none
    | some r =>
      have within : (Node.cat l r : Node L).Within K := ⟨hl l rfl, hr r rfl⟩
      exact (store _ within).bind fun _ _ => finish (remaining_self hid)

theorem trim_rep {body : NodeId} (hb : body ∈ K) :
    Stays K (Remaining K) (Grammar.trim visit id (.rep body)) := by
  unfold Grammar.trim
  dsimp only
  split
  · refine (ih body hb).bind fun b hb F g ended sealing => ?_
    have within : b.getD nothing ∈ K := by
      cases b with
      | none => exact sealing.nothing
      | some b => exact hb b rfl
    exact (store (.rep (b.getD nothing)) within).bind (fun _ _ => finish (remaining_self hid))
      F g ended sealing
  · exact finish (remaining_self hid)

theorem trim_rule {r : Rule} {body : NodeId} (hb : body ∈ K) :
    Stays K (Remaining K) (Grammar.trim visit id (.rule r body)) := by
  unfold Grammar.trim
  dsimp only
  split
  · exact pure (remaining_self hid)
  · refine (setBusy true).bind fun _ _ =>
      (ih body hb).bind fun b hb => (setBusy false).bind fun _ _ => ?_
    cases b with
    | none => exact finish remaining_none
    | some b =>
      refine (revise fun node within => ?_).bind fun _ _ => finish (remaining_self hid)
      cases node with
      | rule r body => exact ⟨hb b rfl, within.2⟩
      | _ => exact within

theorem trim_thunk {t : Thunk L} {base : NodeId} (within : (Node.thunk t base).Within K) :
    Stays K (Remaining K) (Grammar.trim visit id (.thunk t base)) := by
  obtain ⟨s, state⟩ := t
  cases state with
  | pending | running => exact finish (remaining_self hid)
  | culled target =>
    refine finish fun y hy => ?_
    obtain rfl := hy
    exact within.2 y rfl
  | forced target =>
    have inside : target ∈ K := within.2 target rfl
    -- while its resolution is culled, the thunk is kept as culled to what it was resolved to
    refine (setState (.culled (some target)) fun _ x resolved => ?_).bind fun _ _ => ?_
    · cases resolved
      exact inside
    · refine (ih target inside).bind fun result hr => ?_
      exact (setState (.culled result) fun _ x resolved => hr x resolved).bind fun _ _ => finish hr

theorem trim (within : node.Within K) : Stays K (Remaining K) (Grammar.trim visit id node) := by
  cases node with
  | empty => exact finish remaining_none
  | token | matched => exact finish (remaining_self hid)
  | undefined => exact within.elim
  | alt left right => exact trim_alt ih hid within.1 within.2
  | cat left right => exact trim_cat ih hid within.1 within.2
  | rep body => exact trim_rep ih hid within
  | rule r body => exact trim_rule ih hid within.1
  | thunk t base => exact trim_thunk ih hid within

end Trim

theorem cullNode (hid : id ∈ K) :
    Stays K (Remaining K) (Grammar.cullNode (L := L) live fuel id) := by
  induction fuel generalizing id with
  | zero => exact fun F g _ _ _ _ _ run => by cases run
  | succ fuel ih =>
    intro F g ended sealing r F' g' run
    cases done : F[id]? with
    | some result =>
      cases (Grammar.cullNode_finished done).symm.trans run
      exact ⟨ended, sealing, fun y hy => ended id y (hy ▸ done)⟩
    | none =>
      obtain ⟨node, there, within⟩ := sealing.node id hid
      rw [Grammar.cullNode_new done there] at run
      split at run
      · exact trim (fun x hx => ih hx) hid within F g ended sealing r F' g' run
      · exact finish remaining_none F g ended sealing r F' g' run

end Culling.Stays

section Passes

variable {L : Type} [DecidableEq L] {K : Set NodeId} {g g' : Grammar L} {x : NodeId}
  {roots ids : List NodeId}

theorem Safe.cull (hx : x ∈ K) :
    Safe K Remaining (Grammar.cull x : Eval L (Option NodeId)) (Grammar.cull x) := by
  refine fun g sealing => ⟨rfl, fun r g' run => ?_⟩
  obtain ⟨_, _, hg, run⟩ := Action.bind_ok.mp run
  obtain ⟨rfl, rfl⟩ := Action.get_ok.mp hg
  obtain ⟨order, _, walk, run⟩ := Action.bind_ok.mp run
  obtain ⟨-, rfl⟩ := Action.lift_ok.mp walk
  obtain ⟨F, culled⟩ := Culling.run'_ok.mp run
  have ended : Culling.Ended K {} := fun x y known => by simp at known
  obtain ⟨-, sealing', remaining⟩ := Culling.Stays.cullNode hx {} g ended sealing _ _ _ culled
  exact ⟨K, subset_rfl, sealing', remaining⟩

/-! ## Collection -/

omit [DecidableEq L] in
/-- The nodes of the set that are kept, under their new names, and what is dropped by the name of
the node that matches nothing. -/
theorem Node.Within.relocate {place : NodeId → Option NodeId} {node : Node L} (h : node.Within K)
    {K' : Set NodeId} (moves : ∀ x ∈ K, movedBy place x ∈ K') :
    (node.relocate place).Within K' := by
  cases node with
  | empty | token | matched => trivial
  | undefined => exact h.elim
  | alt | cat => exact ⟨moves _ h.1, moves _ h.2⟩
  | rep => exact moves _ h
  | rule r body =>
    refine ⟨moves _ h.1, fun kind next known => ?_⟩
    obtain ⟨old, known, place⟩ := remembered_of_moved known
    rw [← Grammar.movedBy_of_some place]
    exact moves old (h.2 kind old known)
  | thunk t base =>
    obtain ⟨s, state⟩ := t
    refine ⟨moves _ h.1, fun target resolved => ?_⟩
    cases state with
    | pending | running => cases resolved
    | forced old =>
      cases resolved
      exact moves old (h.2 old rfl)
    | culled old =>
      cases old with
      | none => cases resolved
      | some old =>
        cases resolved
        exact moves old (h.2 old rfl)

/-- What is left of a sealed graph by a collection is sealed, under the new names. -/
theorem collect_sealed (h : g.Sealed K) (inside : ∀ x ∈ roots, x ∈ K)
    (run : Grammar.collect roots g = .ok (ids, g')) :
    ∃ place K', ids = roots.map (movedBy place) ∧ g'.Sealed K' ∧ ∀ x ∈ ids, x ∈ K' := by
  obtain ⟨t, reach, same⟩ := Grammar.collect_iff.mp run
  obtain ⟨rfl, rfl⟩ := Prod.mk.inj same
  obtain ⟨first, there, -⟩ := h.node nothing h.nothing
  have flagged :=
    Grammar.flagged_iff.mpr ⟨Grammar.lt_size_of_get? there, Grammar.seen_of_reach reach (.head _)⟩
  have kept : (g.remaining t.seen).2 nothing = some nothing := Grammar.compact_nothing flagged
  have moves (x : NodeId) (hx : x ∈ K) :
      movedBy (g.remaining t.seen).2 x ∈ {j | ∃ i ∈ K, (g.remaining t.seen).2 i = some j} := by
    cases place : (g.remaining t.seen).2 x with
    | some j => exact ⟨x, hx, by rw [Grammar.movedBy_of_some place, place]⟩
    | none => exact ⟨nothing, h.nothing, by rw [movedBy, place, kept]; rfl⟩
  refine ⟨(g.remaining t.seen).2, {j | ∃ i ∈ K, (g.remaining t.seen).2 i = some j}, rfl,
    ⟨⟨nothing, h.nothing, kept⟩, ?_, fun x s next known => ?_⟩, fun x hx => ?_⟩
  · rintro j ⟨i, hi, place⟩
    obtain ⟨node, there, within⟩ := h.node i hi
    refine ⟨_, ?_, within.relocate moves⟩
    show (g.remaining t.seen).1.arena.get? j = _
    rw [Grammar.remaining, Grammar.compact_slot place, there]
    rfl
  · cases (Memo.find?_nil x s).symm.trans known
  · obtain ⟨old, member, rfl⟩ := List.mem_map.mp hx
    exact moves old (inside old member)

end Passes

end DerivativeParsing
