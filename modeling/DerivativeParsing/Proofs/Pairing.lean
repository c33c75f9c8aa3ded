import DerivativeParsing.Proofs.Actions
import Mathlib.Data.List.Forall2
import Mathlib.Order.Basic

/-!
# Graphs that are the same under other names

How a graph is built decides the names of its nodes, and nothing else should depend on it. Two
graphs in different orders are compared by a pairing of their nodes, which may leave nodes of either
out.

1. `Pairing` is such a pairing, one to one, and `Node.Twin` relates nodes that differ in the names
   that they hold. `Grammar.Twins` relates grammars: nodes that are paired are twins, and what is
   remembered is remembered of both.
2. `Tandem` relates actions: if the first answers on a grammar, then the second answers on every
   twin of it, and leaves a twin again, with new nodes paired to new nodes. The primitive actions
   are in tandem, and so is what is composed of actions in tandem.
-/

namespace DerivativeParsing

/-! ## Counterparts -/

theorem optionRel_mono {α β : Type} {V V' : α → β → Prop} (le : ∀ a b, V a b → V' a b)
    {a : Option α} {b : Option β} (h : Option.Rel V a b) : Option.Rel V' a b := by
  cases h with
  | some h => exact .some (le _ _ h)
  | none => exact .none

/-- Every member of each of two sets has a counterpart in the other. -/
structure Meets {α β : Type} (Q : α → β → Prop) (s : α → Prop) (s' : β → Prop) : Prop where
  forth : ∀ a, s a → ∃ b, Q a b ∧ s' b
  back : ∀ b, s' b → ∃ a, Q a b ∧ s a

/-- Two tables have entries at counterparts, and nowhere else; and the entries are counterparts in
turn. -/
def Tables {κ κ' α β : Type} (Q : κ → κ' → Prop) (V : α → β → Prop) (f : κ → Option α)
    (f' : κ' → Option β) : Prop :=
  Meets (fun (p : κ × α) (p' : κ' × β) => Q p.1 p'.1 ∧ V p.2 p'.2) (fun p => f p.1 = some p.2)
    fun p' => f' p'.1 = some p'.2

section Counterparts

variable {α β κ κ' : Type} {Q Q' : κ → κ' → Prop} {V V' : α → β → Prop}

namespace Meets

variable {s t : κ → Prop} {s' t' : κ' → Prop} {a : κ} {b : κ'}

theorem mono (h : Meets Q s s') (le : ∀ a b, Q a b → Q' a b) : Meets Q' s s' where
  forth a ha := by
    obtain ⟨b, hab, hb⟩ := h.forth a ha
    exact ⟨b, le a b hab, hb⟩
  back b hb := by
    obtain ⟨a, hab, ha⟩ := h.back b hb
    exact ⟨a, le a b hab, ha⟩

theorem empty (none : ∀ a, ¬s a) (none' : ∀ b, ¬s' b) : Meets Q s s' :=
  ⟨fun a ha => absurd ha (none a), fun b hb => absurd hb (none' b)⟩

theorem iff (h : Meets Q s s') (unique : Relator.BiUnique Q) (hab : Q a b) : s a ↔ s' b := by
  constructor
  · intro ha
    obtain ⟨b', hab', hb'⟩ := h.forth a ha
    exact unique.2 hab' hab ▸ hb'
  · intro hb
    obtain ⟨a', hab', ha'⟩ := h.back b hb
    exact unique.1 hab' hab ▸ ha'

theorem insert (h : Meets Q s s') (hab : Q a b) (more : ∀ x, t x ↔ a = x ∨ s x)
    (more' : ∀ y, t' y ↔ b = y ∨ s' y) : Meets Q t t' where
  forth x hx := by
    rcases (more x).mp hx with rfl | hx
    · exact ⟨b, hab, (more' b).mpr (.inl rfl)⟩
    · obtain ⟨y, hxy, hy⟩ := h.forth x hx
      exact ⟨y, hxy, (more' y).mpr (.inr hy)⟩
  back y hy := by
    rcases (more' y).mp hy with rfl | hy
    · exact ⟨a, hab, (more a).mpr (.inl rfl)⟩
    · obtain ⟨x, hxy, hx⟩ := h.back y hy
      exact ⟨x, hxy, (more x).mpr (.inr hx)⟩

end Meets

namespace Tables

variable {f g : κ → Option α} {f' g' : κ' → Option β} {k : κ} {k' : κ'} {a : α} {b : β}

theorem mono (h : Tables Q V f f') (keys : ∀ k k', Q k k' → Q' k k')
    (values : ∀ a b, V a b → V' a b) : Tables Q' V' f f' :=
  Meets.mono h fun _ _ hp => ⟨keys _ _ hp.1, values _ _ hp.2⟩

theorem empty (hf : ∀ k, f k = none) (hf' : ∀ k', f' k' = none) : Tables Q V f f' :=
  Meets.empty (fun p hp => by cases (hf p.1).symm.trans hp) fun p hp => by
    cases (hf' p.1).symm.trans hp

/-- At counterparts there are counterparts, or there is nothing. -/
theorem lookup (h : Tables Q V f f') (unique : Relator.BiUnique Q) (hk : Q k k') :
    Option.Rel V (f k) (f' k') := by
  cases here : f k with
  | some a =>
    obtain ⟨⟨k₁, b⟩, ⟨hk₁, hab⟩, there⟩ := h.forth (k, a) here
    obtain rfl := unique.2 hk₁ hk
    rw [show f' k₁ = some b from there]
    exact .some hab
  | none =>
    cases there : f' k' with
    | none => exact .none
    | some b =>
      obtain ⟨⟨k₁, a⟩, ⟨hk₁, -⟩, here'⟩ := h.back (k', b) there
      obtain rfl := unique.1 hk₁ hk
      cases here.symm.trans here'

theorem update (h : Tables Q V f f') (unique : Relator.BiUnique Q) (hk : Q k k') (hab : V a b)
    (here : g k = some a) (other : ∀ j, k ≠ j → g j = f j) (here' : g' k' = some b)
    (other' : ∀ j, k' ≠ j → g' j = f' j) : Tables Q V g g' where
  forth := by
    rintro ⟨j, c⟩ hj
    by_cases same : k = j
    · subst same
      cases here.symm.trans hj
      exact ⟨(k', b), ⟨hk, hab⟩, here'⟩
    · obtain ⟨⟨j', c'⟩, ⟨hjj', hcc'⟩, hj'⟩ := h.forth (j, c) ((other j same).symm.trans hj)
      have same' : k' ≠ j' := fun same' => same (unique.1 hk (same' ▸ hjj'))
      exact ⟨(j', c'), ⟨hjj', hcc'⟩, (other' j' same').trans hj'⟩
  back := by
    rintro ⟨j', c'⟩ hj'
    by_cases same' : k' = j'
    · subst same'
      cases here'.symm.trans hj'
      exact ⟨(k, a), ⟨hk, hab⟩, here⟩
    · obtain ⟨⟨j, c⟩, ⟨hjj', hcc'⟩, hj⟩ := h.back (j', c') ((other' j' same').symm.trans hj')
      have same : k ≠ j := fun same => same' (unique.2 hk (same ▸ hjj'))
      exact ⟨(j, c), ⟨hjj', hcc'⟩, (other j same).trans hj⟩

theorem insert {cmp : κ → κ → Ordering} [Std.TransCmp cmp] [Std.LawfulEqCmp cmp]
    {cmp' : κ' → κ' → Ordering} [Std.TransCmp cmp'] [Std.LawfulEqCmp cmp'] {t : Std.TreeMap κ α cmp}
    {t' : Std.TreeMap κ' β cmp'} (h : Tables Q V (t[·]?) (t'[·]?)) (unique : Relator.BiUnique Q)
    (hk : Q k k') (hab : V a b) : Tables Q V ((t.insert k a)[·]?) ((t'.insert k' b)[·]?) := by
  refine h.update unique hk hab Std.TreeMap.getElem?_insert_self (fun j other => ?_)
    Std.TreeMap.getElem?_insert_self fun j other => ?_
  · exact Std.TreeMap.getElem?_insert.trans
      (if_neg fun same => other (Std.LawfulEqCmp.compare_eq_iff_eq.mp same))
  · exact Std.TreeMap.getElem?_insert.trans
      (if_neg fun same => other (Std.LawfulEqCmp.compare_eq_iff_eq.mp same))

end Tables

end Counterparts

/-! ## Pairings -/

/-- Which node of one graph goes with which node of another. The nodes that match nothing go
together. -/
structure Pairing where
  Pairs : NodeId → NodeId → Prop
  unique : Relator.BiUnique Pairs
  nothing : Pairs Grammar.nothing Grammar.nothing

namespace Pairing

variable {R S : Pairing} {x x' y y' : NodeId}

instance : Preorder Pairing := .lift Pairs

theorem grow (le : R ≤ S) (h : R.Pairs x y) : S.Pairs x y := le x y h

theorem eq_nothing (h : R.Pairs x y) : x = Grammar.nothing ↔ y = Grammar.nothing := by
  constructor
  · rintro rfl
    exact R.unique.2 h R.nothing
  · rintro rfl
    exact R.unique.1 h R.nothing

theorem beq_nothing (h : R.Pairs x y) : (x == Grammar.nothing) = (y == Grammar.nothing) := by
  rw [Bool.eq_iff_iff, beq_iff_eq, beq_iff_eq]
  exact eq_nothing h

/-- With two nodes paired that were not in any pair. -/
def extend (R : Pairing) (x y : NodeId) (new : ∀ z, ¬R.Pairs x z) (new' : ∀ z, ¬R.Pairs z y) :
    Pairing where
  Pairs a b := a = x ∧ b = y ∨ R.Pairs a b
  unique := by
    constructor
    · rintro a b c (⟨ha, hc⟩ | h) (⟨hb, hc'⟩ | h')
      · rw [ha, hb]
      · exact absurd (hc ▸ h') (new' b)
      · exact absurd (hc' ▸ h) (new' a)
      · exact R.unique.1 h h'
    · rintro a b c (⟨ha, hb⟩ | h) (⟨ha', hc⟩ | h')
      · rw [hb, hc]
      · exact absurd (ha ▸ h') (new c)
      · exact absurd (ha' ▸ h) (new b)
      · exact R.unique.2 h h'
  nothing := .inr R.nothing

/-- Questions about paired nodes that are otherwise the same. -/
def Along {κ ρ : Type} (R : Pairing) (parts : κ → NodeId × ρ) (k k' : κ) : Prop :=
  R.Pairs (parts k).1 (parts k').1 ∧ (parts k).2 = (parts k').2

theorem biUnique_along {κ ρ : Type} {parts : κ → NodeId × ρ} (whole : Function.Injective parts) :
    Relator.BiUnique (R.Along parts) := by
  constructor
  · intro a b c h h'
    exact whole (Prod.ext (R.unique.1 h.1 h'.1) (h.2.trans h'.2.symm))
  · intro a b c h h'
    exact whole (Prod.ext (R.unique.2 h.1 h'.1) (h.2.symm.trans h'.2))

theorem along_mono {κ ρ : Type} {parts : κ → NodeId × ρ} (le : R ≤ S) (k k' : κ)
    (h : R.Along parts k k') : S.Along parts k k' :=
  ⟨grow le h.1, h.2⟩

end Pairing

/-! ## Twins -/

/-- States that differ in the names that they hold. -/
inductive ThunkState.Twin (R : Pairing) : ThunkState → ThunkState → Prop
  | pending : Twin R .pending .pending
  | running : Twin R .running .running
  | forced {target target' : NodeId} (h : R.Pairs target target') :
    Twin R (.forced target) (.forced target')
  | culled {target target' : Option NodeId} (h : Option.Rel R.Pairs target target') :
    Twin R (.culled target) (.culled target')

/-- Nonterminals that differ in the names that they hold. -/
structure Rule.Twin (R : Pairing) (r r' : Rule) : Prop where
  memo : Option.Rel (fun p p' => p.1 = p'.1 ∧ R.Pairs p.2 p'.2) r.memo r'.memo
  fixpoint : r.fixpoint = r'.fixpoint
  busy : r.busy = r'.busy

/-- Nodes that differ in the names that they hold. -/
inductive Node.Twin {L : Type} (R : Pairing) : Node L → Node L → Prop
  | empty : Twin R .empty .empty
  | token (kind : Kind) : Twin R (.token kind) (.token kind)
  | matched (symbol : Symbol L) : Twin R (.matched symbol) (.matched symbol)
  | alt {l l' r r' : NodeId} (left : R.Pairs l l') (right : R.Pairs r r') :
    Twin R (.alt l r) (.alt l' r')
  | cat {l l' r r' : NodeId} (left : R.Pairs l l') (right : R.Pairs r r') :
    Twin R (.cat l r) (.cat l' r')
  | rep {b b' : NodeId} (body : R.Pairs b b') : Twin R (.rep b) (.rep b')
  | rule {r r' : Rule} {b b' : NodeId} (rule : r.Twin R r') (body : R.Pairs b b') :
    Twin R (.rule r b) (.rule r' b')
  | thunk {symbol : Symbol L} {state state' : ThunkState} {b b' : NodeId}
    (far : state.Twin R state')
    (base : R.Pairs b b') : Twin R (.thunk ⟨symbol, state⟩ b) (.thunk ⟨symbol, state'⟩ b')
  | undefined (name : String) : Twin R (.undefined name) (.undefined name)

section Twin

variable {L : Type} {R S : Pairing} {node node' : Node L} {r r' : Rule} {state state' : ThunkState}

theorem ThunkState.Twin.mono (h : state.Twin R state') (le : R ≤ S) : state.Twin S state' := by
  cases h with
  | pending => exact .pending
  | running => exact .running
  | forced h => exact .forced (le _ _ h)
  | culled h => exact .culled (optionRel_mono le h)

namespace Rule.Twin

theorem mono (h : r.Twin R r') (le : R ≤ S) : r.Twin S r' :=
  ⟨optionRel_mono (fun _ _ hp => ⟨hp.1, le _ _ hp.2⟩) h.memo, h.fixpoint, h.busy⟩

theorem remembered (h : r.Twin R r') (kind : Kind) :
    Option.Rel R.Pairs (r.remembered? kind) (r'.remembered? kind) := by
  have memo := h.memo
  unfold Rule.remembered?
  generalize r.memo = last, r'.memo = last' at memo ⊢
  cases memo with
  | none => exact .none
  | @some p p' hp =>
    obtain ⟨same, pair⟩ := hp
    by_cases this : p.1 = kind
    · simp only [Option.bind_some, ← same, this, if_true]
      exact .some pair
    · simp only [Option.bind_some, ← same, this, if_false]
      exact .none

theorem fresh (name name' : String) : Rule.Twin R { name } { name := name' } := ⟨.none, rfl, rfl⟩

end Rule.Twin

namespace Node.Twin

theorem mono (h : node.Twin R node') (le : R ≤ S) : node.Twin S node' := by
  cases h with
  | empty => exact .empty
  | token kind => exact .token kind
  | matched symbol => exact .matched symbol
  | alt left right => exact .alt (le _ _ left) (le _ _ right)
  | cat left right => exact .cat (le _ _ left) (le _ _ right)
  | rep body => exact .rep (le _ _ body)
  | rule rule body => exact .rule (rule.mono le) (le _ _ body)
  | thunk state base => exact .thunk (state.mono le) (le _ _ base)
  | undefined name => exact .undefined name

theorem mapRule {f f' : Rule → Rule} (h : node.Twin R node')
    (step : ∀ r r', r.Twin R r' → (f r).Twin R (f' r')) :
    (node.mapRule f).Twin R (node'.mapRule f') := by
  cases h with
  | rule rule body => exact .rule (step _ _ rule) body
  | _ => constructor <;> assumption

theorem setBody {body body' : NodeId} (h : node.Twin R node') (pair : R.Pairs body body') :
    (node.setBody body).Twin R (node'.setBody body') := by
  cases h with
  | rule rule body => exact .rule rule pair
  | _ => constructor <;> assumption

theorem setState (h : node.Twin R node') (twin : state.Twin R state') :
    (node.setState state).Twin R (node'.setState state') := by
  cases h with
  | thunk _ base => exact .thunk twin base
  | _ => constructor <;> assumption

theorem successors (h : node.Twin R node') (throughPending : Bool) :
    List.Forall₂ R.Pairs (node.successors throughPending) (node'.successors throughPending) := by
  cases h with
  | alt left right | cat left right => exact .cons left (.cons right .nil)
  | rep body | rule _ body => exact .cons body .nil
  | thunk state base =>
    cases state with
    | pending | running =>
      cases throughPending
      · exact .nil
      · exact .cons base .nil
    | forced pair => exact .cons pair .nil
    | culled target =>
      cases target with
      | none => exact .nil
      | some pair => exact .cons pair .nil
  | empty | token | matched | undefined => exact .nil

end Node.Twin

end Twin

namespace Grammar

variable {L : Type} [DecidableEq L] {R S : Pairing} {g g' : Grammar L} {x y : NodeId}
  {node node' : Node L}

/-- Nodes that are paired are there and are twins, and what is remembered is remembered of both. -/
structure Twins (R : Pairing) (g g' : Grammar L) : Prop where
  node : ∀ x y : Nat, R.Pairs x y →
    ∃ node node', g.arena.get? x = some node ∧ g'.arena.get? y = some node' ∧ node.Twin R node'
  memo : Tables (R.Along id) R.Pairs (fun p : NodeId × Symbol L => g.memo.find? p.1 p.2)
    fun p => g'.memo.find? p.1 p.2
  provisional : g.provisional = g'.provisional

namespace Twins

theorem of_eq {h₁ h₁' : Grammar L} (h : g.Twins R g') (arena : h₁.arena = g.arena)
    (arena' : h₁'.arena = g'.arena) (memo : h₁.memo = g.memo) (memo' : h₁'.memo = g'.memo)
    (provisional : h₁.provisional = h₁'.provisional) : h₁.Twins R h₁' where
  node x y pair := by
    rw [arena, arena']
    exact h.node x y pair
  memo := by
    rw [memo, memo']
    exact h.memo
  provisional := provisional

theorem find? (h : g.Twins R g') (pair : R.Pairs x y) (s : Symbol L) :
    Option.Rel R.Pairs (g.memo.find? x s) (g'.memo.find? y s) := by
  have asked : R.Along id (x, s) (y, s) := ⟨pair, rfl⟩
  exact h.memo.lookup (Pairing.biUnique_along Function.injective_id) asked

theorem record (h : g.Twins R g') (pair : R.Pairs x y) (s : Symbol L) {next next' : NodeId}
    (result : R.Pairs next next') :
    ({ g with memo := g.memo.record x s next } : Grammar L).Twins R
      { g' with memo := g'.memo.record y s next' } where
  node := h.node
  provisional := h.provisional
  memo := by
    have other {memo : Memo L} {z next : NodeId} (p : NodeId × Symbol L) (ne : (z, s) ≠ p) :
        (memo.record z s next).find? p.1 p.2 = memo.find? p.1 p.2 :=
      (Memo.find?_record ..).trans (if_neg fun same => ne (Prod.ext same.1 same.2))
    have here {memo : Memo L} {z next : NodeId} : (memo.record z s next).find? z s = some next :=
      (Memo.find?_record ..).trans (if_pos ⟨rfl, rfl⟩)
    have asked : R.Along id (x, s) (y, s) := ⟨pair, rfl⟩
    exact h.memo.update (Pairing.biUnique_along Function.injective_id)
      asked result here other here other

theorem forget (h : g.Twins R g') :
    ({ g with memo := {} } : Grammar L).Twins R { g' with memo := {} } where
  node := h.node
  provisional := h.provisional
  memo := .empty (fun p => Memo.find?_nil p.1 p.2) fun p => Memo.find?_nil p.1 p.2

theorem revised {f f' : Node L → Node L} (h : g.Twins R g') (pair : R.Pairs x y)
    (step : ∀ node node', node.Twin R node' → (f node).Twin R (f' node')) :
    (g.revised x f).Twins R (g'.revised y f') where
  node a b hab := by
    obtain ⟨node, node', there, there', twin⟩ := h.node a b hab
    by_cases same : x = a
    · subst same
      obtain rfl := R.unique.2 pair hab
      refine ⟨f node, f' node', ?_, ?_, step node node' twin⟩
      · rw [get?_revised, if_pos rfl, there, Option.map_some]
      · rw [get?_revised, if_pos rfl, there', Option.map_some]
    · have same' : y ≠ b := fun same' => same (R.unique.1 pair (same' ▸ hab))
      refine ⟨node, node', ?_, ?_, twin⟩
      · rw [get?_revised, if_neg same, there]
      · rw [get?_revised, if_neg same', there']
  memo := h.memo
  provisional := h.provisional

theorem withNode (h : g.Twins R g') (twin : node.Twin R node') :
    ∃ S, R ≤ S ∧ (g.withNode node).Twins S (g'.withNode node') ∧ S.Pairs g.size g'.size := by
  have old (x y : NodeId) (pair : R.Pairs x y) : x < g.size ∧ y < g'.size := by
    obtain ⟨_, _, there, there', -⟩ := h.node x y pair
    exact ⟨lt_size_of_get? there, lt_size_of_get? there'⟩
  have le : R ≤ R.extend g.size g'.size (fun z pair => Nat.lt_irrefl _ (old _ z pair).1)
      fun z pair => Nat.lt_irrefl _ (old z _ pair).2 := fun a b pair => .inr pair
  refine ⟨_, le, ⟨fun x y pair => ?_, h.memo.mono (Pairing.along_mono le) le, h.provisional⟩,
    .inl ⟨rfl, rfl⟩⟩
  rcases pair with ⟨rfl, rfl⟩ | pair
  · exact ⟨node, node', get?_withNode_self node, get?_withNode_self node', twin.mono le⟩
  · obtain ⟨lt, lt'⟩ := old x y pair
    obtain ⟨found, found', there, there', twin'⟩ := h.node x y pair
    exact ⟨found, found', (get?_withNode_of_lt lt).trans there,
      (get?_withNode_of_lt lt').trans there', twin'.mono le⟩

end Twins

end Grammar

/-! ## Actions in tandem -/

/-- If the first action answers on a grammar, then the second answers on every twin. Then they leave
twins, and what they answer is related in the way `V`. New nodes may be paired in the course of
it. -/
def Tandem {L α β : Type} [DecidableEq L] (R : Pairing) (V : Pairing → α → β → Prop)
    (act : Eval L α) (act' : Eval L β) : Prop :=
  ∀ g g' : Grammar L, g.Twins R g' → ∀ a g₁, act g = .ok (a, g₁) →
    ∃ b g₁' S, act' g' = .ok (b, g₁') ∧ R ≤ S ∧ g₁.Twins S g₁' ∧ V S a b

/-- The same is answered. -/
def Same {α : Type} (_ : Pairing) (a b : α) : Prop := a = b

/-- Nothing of interest is answered. -/
def Mute (_ : Pairing) (_ _ : Unit) : Prop := True

namespace Tandem

variable {L α β γ δ : Type} [DecidableEq L] {R S : Pairing} {V : Pairing → α → β → Prop}
  {U : Pairing → γ → δ → Prop} {act : Eval L α} {act' : Eval L β} {k : α → Eval L γ}
  {k' : β → Eval L δ} {x y : NodeId} {node node' : Node L}

theorem pure {a : α} {b : β} (h : V R a b) : Tandem R V (pure a : Eval L α) (pure b) := by
  intro g g' twins c g₁ run
  obtain ⟨rfl, rfl⟩ := Action.pure_ok.mp run
  exact ⟨b, g', R, rfl, le_refl R, twins, h⟩

theorem throw (e : Error) : Tandem R V (throw e) act' :=
  fun _ _ _ _ _ run => (Action.throw_ok.mp run).elim

theorem bind (first : Tandem R V act act')
    (next : ∀ S a b, R ≤ S → V S a b → Tandem S U (k a) (k' b)) :
    Tandem R U (act >>= k) (act' >>= k') := by
  intro g g' twins c g₂ run
  obtain ⟨a, g₁, run₁, run₂⟩ := Action.bind_ok.mp run
  obtain ⟨b, g₁', S, run₁', le, twins₁, hab⟩ := first g g' twins a g₁ run₁
  obtain ⟨d, g₂', T, run₂', le', twins₂, hcd⟩ := next S a b le hab g₁ g₁' twins₁ c g₂ run₂
  exact ⟨d, g₂', T, (Action.bind_of_ok run₁').trans run₂', le_trans le le', twins₂, hcd⟩

theorem get : Tandem R (fun S g g' => g.Twins S g') (get : Eval L (Grammar L)) get := by
  intro g g' twins a g₁ run
  obtain ⟨rfl, rfl⟩ := Action.get_ok.mp run
  exact ⟨g', g', R, rfl, le_refl R, twins, twins⟩

theorem modify {f f' : Grammar L → Grammar L} (h : ∀ g g', g.Twins R g' → (f g).Twins R (f' g')) :
    Tandem R Mute (modify f : Eval L Unit) (modify f') := by
  intro g g' twins u g₁ run
  obtain rfl := Action.modify_ok.mp run
  exact ⟨(), f' g', R, rfl, le_refl R, h g g' twins, trivial⟩

theorem lift {a : Except Error α} {b : Except Error β}
    (h : ∀ c, a = .ok c → ∃ d, b = .ok d ∧ V R c d) :
    Tandem R V (liftM a : Eval L α) (liftM b) := by
  intro g g' twins c g₁ run
  obtain ⟨ok, rfl⟩ := Action.lift_ok.mp run
  obtain ⟨d, ok', hcd⟩ := h c ok
  exact ⟨d, g', R, Action.lift_ok.mpr ⟨ok', rfl⟩, le_refl R, twins, hcd⟩

theorem fetch (pair : R.Pairs x y) :
    Tandem R (fun S node node' => node.Twin S node') (Grammar.fetch x : Eval L (Node L))
      (Grammar.fetch y) := by
  intro g g' twins node g₁ run
  obtain ⟨there, rfl⟩ := Grammar.fetch_ok.mp run
  obtain ⟨node₁, node', there₁, there', twin⟩ := twins.node x y pair
  cases there.symm.trans there₁
  exact ⟨node', g', R, Grammar.fetch_ok.mpr ⟨there', rfl⟩, le_refl R, twins, twin⟩

theorem alloc (twin : node.Twin R node') :
    Tandem R Pairing.Pairs (Grammar.alloc node) (Grammar.alloc node') := by
  intro g g' twins id g₁ run
  obtain ⟨rfl, rfl⟩ := Grammar.alloc_ok.mp run
  obtain ⟨S, le, twins', pair⟩ := twins.withNode twin
  exact ⟨_, _, S, Grammar.alloc_ok.mpr ⟨rfl, rfl⟩, le, twins', pair⟩

theorem revise {f f' : Node L → Node L} (pair : R.Pairs x y)
    (step : ∀ node node', node.Twin R node' → (f node).Twin R (f' node')) :
    Tandem R Mute (Grammar.revise x f) (Grammar.revise y f') :=
  modify fun _ _ twins => twins.revised pair step

theorem store (pair : R.Pairs x y) (twin : node.Twin R node') :
    Tandem R Mute (Grammar.store x node) (Grammar.store y node') := by
  intro g g' twins u g₁ run
  cases run.symm.trans Grammar.store_ok
  exact ⟨(), _, R, Grammar.store_ok, le_refl R, twins.revised pair fun _ _ _ => twin, trivial⟩

theorem note (event event' : Event) :
    Tandem R Mute (Grammar.note event : Eval L Unit) (Grammar.note event') :=
  modify fun _ _ twins => twins.of_eq rfl rfl rfl rfl twins.provisional

end Tandem

/-- So do actions that keep something beside the grammar, related in the way `K`. -/
def TandemWith {L σ τ α β : Type} [DecidableEq L] (K : Pairing → σ → τ → Prop) (R : Pairing)
    (V : Pairing → α → β → Prop) (act : StateT σ (Eval L) α) (act' : StateT τ (Eval L) β) : Prop :=
  ∀ s t, K R s t → Tandem R (fun S p q => V S p.1 q.1 ∧ K S p.2 q.2) (act s) (act' t)

namespace TandemWith

variable {L σ τ α β γ δ : Type} [DecidableEq L] {K : Pairing → σ → τ → Prop} {R S : Pairing}
  {V : Pairing → α → β → Prop} {U : Pairing → γ → δ → Prop}

theorem pure {a : α} {b : β} (h : V R a b) :
    TandemWith K R V (pure a : StateT σ (Eval L) α) (pure b : StateT τ (Eval L) β) :=
  fun _ _ known => .pure ⟨h, known⟩

theorem throw (e : Error) {act' : StateT τ (Eval L) β} : TandemWith K R V (throw e) act' :=
  fun _ _ _ => .throw e

theorem bind {act : StateT σ (Eval L) α} {act' : StateT τ (Eval L) β} {k : α → StateT σ (Eval L) γ}
    {k' : β → StateT τ (Eval L) δ} (first : TandemWith K R V act act')
    (next : ∀ S a b, R ≤ S → V S a b → TandemWith K S U (k a) (k' b)) :
    TandemWith K R U (act >>= k) (act' >>= k') :=
  fun s t known => (first s t known).bind fun S p q le h => next S p.1 q.1 le h.1 p.2 q.2 h.2

theorem get : TandemWith K R K (get : StateT σ (Eval L) σ) (get : StateT τ (Eval L) τ) :=
  fun _ _ known => .pure ⟨known, known⟩

theorem modify {f : σ → σ} {f' : τ → τ} (h : ∀ s t, K R s t → K R (f s) (f' t)) :
    TandemWith K R Mute (modify f : StateT σ (Eval L) Unit) (modify f' : StateT τ (Eval L) Unit) :=
  fun s t known => .pure ⟨trivial, h s t known⟩

/-- An action on the grammar alone. What is kept beside it must still be related when new nodes are
paired. -/
theorem lift {act : Eval L α} {act' : Eval L β} (grows : ∀ S s t, R ≤ S → K R s t → K S s t)
    (h : Tandem R V act act') :
    TandemWith K R V (liftM act : StateT σ (Eval L) α) (liftM act' : StateT τ (Eval L) β) := by
  intro s t known
  show Tandem R _ (act >>= fun a => Pure.pure (a, s)) (act' >>= fun b => Pure.pure (b, t))
  exact h.bind fun S _ _ le hab => .pure ⟨hab, grows S s t le known⟩

/-- What was kept beside the grammar is forgotten in the end. -/
theorem run' {act : StateT σ (Eval L) α} {act' : StateT τ (Eval L) β}
    (h : TandemWith K R V act act') {s : σ} {t : τ} (known : K R s t) :
    Tandem R V (act.run' s) (act'.run' t) :=
  (h s t known).bind fun _ _ _ _ hab => .pure hab.1

end TandemWith

end DerivativeParsing
