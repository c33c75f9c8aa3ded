import DerivativeParsing.Proofs.Actions
import DerivativeParsing.Proofs.Worlds

/-!
# Evaluation as a relation

`Evaluates W g q a W' g'` says that the question `q`, asked of the grammar `g`, is answered `a`, and
that the grammar is `g'` afterwards. There is a clause for each way through `Grammar.derive`,
`Grammar.nullable` and `Grammar.force`, and no bound on how deep they nest.

Beside the grammar goes a world: when evaluation makes a node, the clause says what the node stands
for. What a choice or a sequence stands for is made of its parts; the thunk of a rule's body and the
rule over it stand for all that is left of the body and of the rule.

1. `evaluates_of_derive`, `evaluates_of_nullable`, `evaluates_of_force`: an action that answers,
   answers as the relation says, in any world.
2. `Evaluates.answers`: what the relation says is what the actions answer, given enough fuel.
-/

namespace DerivativeParsing

open Grammar (nothing)

/-- Something that evaluation is asked. -/
inductive Question (L : Type)
  /-- The derivative of a node. -/
  | derive (id : NodeId) (symbol : Symbol L)
  /-- The derivative of a combinator that is not known yet. -/
  | compute (id : NodeId) (symbol : Symbol L)
  /-- Whether a node matches the empty word. -/
  | nullable (id : NodeId)
  /-- The node that a node stands for. -/
  | force (id : NodeId)

/-- What evaluation answers. -/
inductive Reply
  | node (id : NodeId)
  | truth (answer : Bool)

def Question.id {L : Type} : Question L → NodeId
  | derive id _ | compute id _ | nullable id | force id => id

namespace Node

variable {L : Type}

/-- The nodes whose derivatives are remembered for a pass. -/
def isCombinator : Node L → Bool
  | token _ | alt _ _ | cat _ _ | rep _ => true
  | _ => false

/-- The nodes that nothing can follow. -/
def isSpent : Node L → Bool
  | empty | matched _ => true
  | _ => false

/-- The derivatives that may not have been taken yet. -/
def isThunk : Node L → Bool
  | thunk _ _ => true
  | _ => false

/-- Whether a node matches the empty word, if that needs no other node. -/
def nullable? : Node L → Option Bool
  | empty | undefined _ => some false
  | token kind => some (kind == Kind.epsilon)
  | matched _ | rep _ => some true
  | _ => none

end Node

/-- The world in which a node stands for a meaning. -/
def World.put (W : World) (id : NodeId) (meaning : Meaning) : World := Function.update W id meaning

namespace World

variable (W : World) (id other : NodeId) (meaning : Meaning)

@[simp] theorem put_self : W.put id meaning id = meaning := Function.update_self _ _ _

theorem put_of_ne {W : World} {id other : NodeId} {meaning : Meaning} (h : other ≠ id) :
    W.put id meaning other = W other :=
  Function.update_of_ne h _ _

theorem put_of_lt {W : World} {id other : Nat} {meaning : Meaning} (h : other < id) :
    W.put id meaning other = W other :=
  put_of_ne (Nat.ne_of_lt h)

end World

namespace Grammar

variable {L : Type}

/-! ## What evaluation does to rules and thunks -/

/-- With a rule in progress. -/
def begun (g : Grammar L) (id : NodeId) : Grammar L :=
  g.revised id (.mapRule ({ · with fixpoint := .inProgress }))

/-- With a rule that is known to match the empty word or not to. -/
def done (g : Grammar L) (id : NodeId) (answer : Bool) : Grammar L :=
  g.revised id (.mapRule ({ · with fixpoint := .done answer }))

/-- With a thunk under evaluation. -/
def running (g : Grammar L) (id : NodeId) : Grammar L := g.revised id (.setState .running)

def resolved (g : Grammar L) (id : NodeId) (t : Thunk L) (base target : NodeId) : Grammar L :=
  ((g.revised id (.setState (.forced target))).countedForced).noted
    (.forced id t.symbol.kind base target)

section Changes

variable (g : Grammar L) (id : NodeId)

@[simp] theorem size_begun : (g.begun id).size = g.size := size_revised _ _ _
@[simp] theorem size_done (answer : Bool) : (g.done id answer).size = g.size := size_revised _ _ _
@[simp] theorem size_running : (g.running id).size = g.size := size_revised _ _ _

@[simp] theorem size_resolved (t : Thunk L) (base target : NodeId) :
    (g.resolved id t base target).size = g.size :=
  size_revised _ _ _

@[simp] theorem memo_begun : (g.begun id).memo = g.memo := rfl
@[simp] theorem memo_done (answer : Bool) : (g.done id answer).memo = g.memo := rfl
@[simp] theorem memo_running : (g.running id).memo = g.memo := rfl

@[simp] theorem memo_resolved (t : Thunk L) (base target : NodeId) :
    (g.resolved id t base target).memo = g.memo :=
  rfl

variable {g} {id} {r : Rule} {t : Thunk L} {body base target : NodeId}

theorem get?_begun (there : g.arena.get? id = some (.rule r body)) :
    (g.begun id).arena.get? id = some (.rule { r with fixpoint := .inProgress } body) := by
  rw [begun, get?_revised, if_pos rfl, there]
  rfl

theorem get?_done {answer : Bool} (there : g.arena.get? id = some (.rule r body)) :
    (g.done id answer).arena.get? id = some (.rule { r with fixpoint := .done answer } body) := by
  rw [done, get?_revised, if_pos rfl, there]
  rfl

theorem get?_running (there : g.arena.get? id = some (.thunk t base)) :
    (g.running id).arena.get? id = some (.thunk { t with state := .running } base) := by
  rw [running, get?_revised, if_pos rfl, there]
  rfl

theorem get?_resolved {t' : Thunk L} {base' : NodeId}
    (there : g.arena.get? id = some (.thunk t base)) :
    (g.resolved id t' base' target).arena.get? id =
      some (.thunk { t with state := .forced target } base) := by
  show (g.revised id _).arena.get? id = _
  rw [get?_revised, if_pos rfl, there]
  rfl

theorem get?_resolved_of_ne {t' : Thunk L} {base' : NodeId} {x : Nat} (h : id ≠ x) :
    (g.resolved id t' base' target).arena.get? x = g.arena.get? x := by
  show (g.revised id _).arena.get? x = _
  rw [get?_revised, if_neg h]

end Changes

end Grammar

/-! ## The relation -/

/-- How a question is answered. -/
inductive Evaluates {L : Type} [DecidableEq L] :
    World → Grammar L → Question L → Reply → World → Grammar L → Prop
  | spent {W : World} {g : Grammar L} {id : NodeId} {s : Symbol L} {node : Node L} :
    g.arena.get? id = some node → node.isSpent →
      Evaluates W g (.derive id s) (.node nothing) W g
  | undefined {W : World} {g : Grammar L} {id : NodeId} {s : Symbol L} {name : String} :
    g.arena.get? id = some (.undefined name) →
      Evaluates W g (.derive id s) (.node nothing) W (g.noted (.undefinedDerived name))
  | rule_known {W : World} {g : Grammar L} {id body next : NodeId} {s : Symbol L} {r : Rule} :
    g.arena.get? id = some (.rule r body) → r.remembered? s.kind = some next →
      Evaluates W g (.derive id s) (.node next) W g
  | rule_new {W : World} {g : Grammar L} {id body : NodeId} {s : Symbol L} {r : Rule} :
    g.arena.get? id = some (.rule r body) → r.remembered? s.kind = none →
      Evaluates W g (.derive id s) (.node (g.size + 1))
        ((W.put g.size ((W body).after s.kind)).put (g.size + 1) ((W id).after s.kind))
        (g.withDerivedRule id r body s)
  | thunk {W W₁ W₂ : World} {g g₁ g₂ : Grammar L} {id base target next : NodeId} {s : Symbol L}
      {t : Thunk L} :
    g.arena.get? id = some (.thunk t base) →
      Evaluates W g (.force id) (.node target) W₁ g₁ →
      Evaluates W₁ g₁ (.derive target s) (.node next) W₂ g₂ →
      Evaluates W g (.derive id s) (.node next) W₂ g₂
  | known {W : World} {g : Grammar L} {id next : NodeId} {s : Symbol L} {node : Node L} :
    g.arena.get? id = some node → node.isCombinator → g.memo.find? id s = some next →
      Evaluates W g (.derive id s) (.node next) W g
  | fresh {W W₁ : World} {g g₁ : Grammar L} {id next : NodeId} {s : Symbol L} {node : Node L} :
    g.arena.get? id = some node → node.isCombinator → g.memo.find? id s = none →
      Evaluates W g.certain (.compute id s) (.node next) W₁ g₁ →
      Evaluates W g (.derive id s) (.node next) W₁ (g₁.finished id s next g.provisional)
  | hit {W : World} {g : Grammar L} {id : NodeId} {s : Symbol L} {kind : Kind} :
    g.arena.get? id = some (.token kind) → kind.isTerminal ∧ kind = s.kind →
      Evaluates W g (.compute id s) (.node g.size)
        (W.put g.size (((W id).after s.kind).withWords .nil)) (g.withNode (.matched s))
  | miss {W : World} {g : Grammar L} {id : NodeId} {s : Symbol L} {kind : Kind} :
    g.arena.get? id = some (.token kind) → ¬(kind.isTerminal ∧ kind = s.kind) →
      Evaluates W g (.compute id s) (.node nothing) W g
  | alt {W W₁ W₂ : World} {g g₁ g₂ : Grammar L} {id left right l r : NodeId} {s : Symbol L} :
    g.arena.get? id = some (.alt left right) →
      Evaluates W g (.derive left s) (.node l) W₁ g₁ →
      Evaluates W₁ g₁ (.derive right s) (.node r) W₂ g₂ →
      Evaluates W g (.compute id s) (.node g₂.size)
        (W₂.put g₂.size (((W₂ id).after s.kind).withWords ((W₂ l).words.union (W₂ r).words)))
        (g₂.withNode (.alt l r))
  | cat {W W₁ W₂ : World} {g g₁ g₂ : Grammar L} {id left right l : NodeId} {s : Symbol L} :
    g.arena.get? id = some (.cat left right) →
      Evaluates W g (.nullable left) (.truth false) W₁ g₁ →
      Evaluates W₁ g₁ (.derive left s) (.node l) W₂ g₂ →
      Evaluates W g (.compute id s) (.node g₂.size)
        (W₂.put g₂.size (((W₂ id).after s.kind).withWords ((W₂ l).words.concat (W₂ right).words)))
        (g₂.withNode (.cat l right))
  | cat_nullable {W W₁ W₂ W₃ W₄ : World} {g g₁ g₂ g₄ : Grammar L} {id left right l skipped : NodeId}
      {s : Symbol L} :
    g.arena.get? id = some (.cat left right) →
      Evaluates W g (.nullable left) (.truth true) W₁ g₁ →
      Evaluates W₁ g₁ (.derive left s) (.node l) W₂ g₂ →
      W₃ = W₂.put g₂.size
        (((W₂ id).after s.kind).withWords ((W₂ l).words.concat (W₂ right).words)) →
      Evaluates W₃ (g₂.withNode (.cat l right)) (.derive right s) (.node skipped) W₄ g₄ →
      Evaluates W g (.compute id s) (.node g₄.size)
        (W₄.put g₄.size
          (((W₄ id).after s.kind).withWords ((W₄ g₂.size).words.union (W₄ skipped).words)))
        (g₄.withNode (.alt g₂.size skipped))
  | rep {W W₁ : World} {g g₁ : Grammar L} {id body d : NodeId} {s : Symbol L} :
    g.arena.get? id = some (.rep body) →
      Evaluates W g (.derive body s) (.node d) W₁ g₁ →
      Evaluates W g (.compute id s) (.node g₁.size)
        (W₁.put g₁.size (((W₁ id).after s.kind).withWords ((W₁ d).words.concat (W₁ id).words)))
        (g₁.withNode (.cat d id))
  | nullable_plain {W : World} {g : Grammar L} {id : NodeId} {node : Node L} {b : Bool} :
    g.arena.get? id = some node → node.nullable? = some b →
      Evaluates W g (.nullable id) (.truth b) W g
  | nullable_left {W W₁ : World} {g g₁ : Grammar L} {id left right : NodeId} :
    g.arena.get? id = some (.alt left right) →
      Evaluates W g (.nullable left) (.truth true) W₁ g₁ →
      Evaluates W g (.nullable id) (.truth true) W₁ g₁
  | nullable_right {W W₁ W₂ : World} {g g₁ g₂ : Grammar L} {id left right : NodeId} {b : Bool} :
    g.arena.get? id = some (.alt left right) →
      Evaluates W g (.nullable left) (.truth false) W₁ g₁ →
      Evaluates W₁ g₁ (.nullable right) (.truth b) W₂ g₂ →
      Evaluates W g (.nullable id) (.truth b) W₂ g₂
  | nullable_first {W W₁ : World} {g g₁ : Grammar L} {id left right : NodeId} :
    g.arena.get? id = some (.cat left right) →
      Evaluates W g (.nullable left) (.truth false) W₁ g₁ →
      Evaluates W g (.nullable id) (.truth false) W₁ g₁
  | nullable_second {W W₁ W₂ : World} {g g₁ g₂ : Grammar L} {id left right : NodeId} {b : Bool} :
    g.arena.get? id = some (.cat left right) →
      Evaluates W g (.nullable left) (.truth true) W₁ g₁ →
      Evaluates W₁ g₁ (.nullable right) (.truth b) W₂ g₂ →
      Evaluates W g (.nullable id) (.truth b) W₂ g₂
  | nullable_thunk {W W₁ W₂ : World} {g g₁ g₂ : Grammar L} {id base target : NodeId} {t : Thunk L}
      {b : Bool} :
    g.arena.get? id = some (.thunk t base) →
      Evaluates W g (.force id) (.node target) W₁ g₁ →
      Evaluates W₁ g₁ (.nullable target) (.truth b) W₂ g₂ →
      Evaluates W g (.nullable id) (.truth b) W₂ g₂
  | nullable_done {W : World} {g : Grammar L} {id body : NodeId} {r : Rule} {b : Bool} :
    g.arena.get? id = some (.rule r body) → r.fixpoint = .done b →
      Evaluates W g (.nullable id) (.truth b) W g
  | nullable_cycle {W : World} {g : Grammar L} {id body : NodeId} {r : Rule} :
    g.arena.get? id = some (.rule r body) → r.fixpoint = .inProgress →
      Evaluates W g (.nullable id) (.truth false) W g.doubtful
  | nullable_rule {W W₁ : World} {g g₁ : Grammar L} {id body : NodeId} {r : Rule} {b : Bool} :
    g.arena.get? id = some (.rule r body) → r.fixpoint = .unstarted →
      Evaluates W (g.begun id) (.nullable body) (.truth b) W₁ g₁ →
      Evaluates W g (.nullable id) (.truth b) W₁ (g₁.done id b)
  | force_other {W : World} {g : Grammar L} {id : NodeId} {node : Node L} :
    g.arena.get? id = some node → node.isThunk = false →
      Evaluates W g (.force id) (.node id) W g
  | force_resolved {W : World} {g : Grammar L} {id base target : NodeId} {t : Thunk L} :
    g.arena.get? id = some (.thunk t base) → t.state.target? = some target →
      Evaluates W g (.force id) (.node target) W g
  | force_running {W : World} {g : Grammar L} {id base : NodeId} {t : Thunk L} :
    g.arena.get? id = some (.thunk t base) → t.state = .running →
      Evaluates W g (.force id) (.node nothing) W (g.noted (.reentered id))
  | force_pending {W W₁ : World} {g g₁ : Grammar L} {id base target : NodeId} {t : Thunk L} :
    g.arena.get? id = some (.thunk t base) → t.state = .pending →
      Evaluates W (g.running id) (.derive base t.symbol) (.node target) W₁ g₁ →
      Evaluates W g (.force id) (.node target) W₁ (g₁.resolved id t base target)

/-! ## The relation and the actions -/

namespace Grammar

variable {L : Type} [DecidableEq L] {g g' : Grammar L} {id next : NodeId} {s : Symbol L}

theorem derive_combinator {fuel : Nat} {node : Node L} (there : g.arena.get? id = some node)
    (comb : node.isCombinator) :
    derive (fuel + 1) id s g = remembering id s ((Evaluator.plain fuel).combine id s node) g := by
  rw [derive, Evaluator.deriveNode, fetch_bind there]
  cases node <;> first | rfl | cases comb

/-- What the actions answer with some fuel is answered as the relation says. -/
structure Adequate (L : Type) [DecidableEq L] (fuel : Nat) : Prop where
  derive : ∀ (W : World) (g g' : Grammar L) id s next, Grammar.derive fuel id s g = .ok (next, g') →
    ∃ W', Evaluates W g (.derive id s) (.node next) W' g'
  nullable : ∀ (W : World) (g g' : Grammar L) id b, Grammar.nullable fuel id g = .ok (b, g') →
    ∃ W', Evaluates W g (.nullable id) (.truth b) W' g'
  force : ∀ (W : World) (g g' : Grammar L) id next, Grammar.force fuel id g = .ok (next, g') →
    ∃ W', Evaluates W g (.force id) (.node next) W' g'

theorem Adequate.compute {fuel : Nat} {W : World} {node : Node L} (ih : Adequate L fuel)
    (there : g.arena.get? id = some node) (comb : node.isCombinator)
    (h : (Evaluator.plain fuel).combine id s node g = .ok (next, g')) :
    ∃ W', Evaluates W g (.compute id s) (.node next) W' g' := by
  cases node with
  | token kind =>
    have h := deriveToken_ok.mp h
    by_cases hit : kind.isTerminal ∧ kind = s.kind
    · rw [if_pos hit] at h
      obtain ⟨rfl, rfl⟩ := h
      exact ⟨_, .hit there hit⟩
    · rw [if_neg hit] at h
      obtain ⟨rfl, rfl⟩ := h
      exact ⟨_, .miss there hit⟩
  | alt left right =>
    obtain ⟨l, g₁, hl, h⟩ := Action.bind_ok.mp h
    obtain ⟨r, g₂, hr, h⟩ := Action.bind_ok.mp h
    obtain ⟨rfl, rfl⟩ := alloc_ok.mp h
    obtain ⟨W₁, hl⟩ := ih.derive W _ _ _ _ _ hl
    obtain ⟨W₂, hr⟩ := ih.derive W₁ _ _ _ _ _ hr
    exact ⟨_, .alt there hl hr⟩
  | cat left right =>
    obtain ⟨b, g₁, hb, h⟩ := Action.bind_ok.mp h
    obtain ⟨W₁, hb⟩ := ih.nullable W _ _ _ _ hb
    cases b with
    | false =>
      obtain ⟨l, g₂, hl, h⟩ := Action.bind_ok.mp h
      obtain ⟨rfl, rfl⟩ := alloc_ok.mp h
      obtain ⟨W₂, hl⟩ := ih.derive W₁ _ _ _ _ _ hl
      exact ⟨_, .cat there hb hl⟩
    | true =>
      obtain ⟨l, g₂, hl, h⟩ := Action.bind_ok.mp h
      obtain ⟨_, _, hc, h⟩ := Action.bind_ok.mp h
      obtain ⟨rfl, rfl⟩ := alloc_ok.mp hc
      obtain ⟨skipped, g₄, hr, h⟩ := Action.bind_ok.mp h
      obtain ⟨rfl, rfl⟩ := alloc_ok.mp h
      obtain ⟨W₂, hl⟩ := ih.derive W₁ _ _ _ _ _ hl
      obtain ⟨W₄, hr⟩ := ih.derive _ _ _ _ _ _ hr
      exact ⟨_, .cat_nullable there hb hl rfl hr⟩
  | rep body =>
    obtain ⟨d, g₁, hd, h⟩ := Action.bind_ok.mp h
    obtain ⟨rfl, rfl⟩ := alloc_ok.mp h
    obtain ⟨W₁, hd⟩ := ih.derive W _ _ _ _ _ hd
    exact ⟨_, .rep there hd⟩
  | _ => cases comb

theorem Adequate.combinator {fuel : Nat} (ih : Adequate L fuel) {W : World} {node : Node L}
    (there : g.arena.get? id = some node) (comb : node.isCombinator)
    (h : Grammar.derive (fuel + 1) id s g = .ok (next, g')) :
    ∃ W', Evaluates W g (.derive id s) (.node next) W' g' := by
  rw [derive_combinator there comb] at h
  have h := remembering_ok.mp h
  cases found : g.memo.find? id s with
  | some known =>
    rw [found] at h
    obtain ⟨rfl, rfl⟩ := h
    exact ⟨W, .known there comb found⟩
  | none =>
    rw [found] at h
    obtain ⟨g₁, hc, rfl⟩ := h
    obtain ⟨W₁, hc⟩ := ih.compute (g := g.certain) there comb hc
    exact ⟨W₁, .fresh there comb found hc⟩

theorem Adequate.zero : Adequate L 0 where
  derive _ _ _ _ _ _ h := by cases h
  nullable _ _ _ _ _ h := by cases h
  force _ _ _ _ _ h := by cases h

theorem Adequate.succ {fuel : Nat} (ih : Adequate L fuel) : Adequate L (fuel + 1) where
  derive W g g' id s next h := by
    have whole := h
    rw [Grammar.derive] at h
    obtain ⟨node, _, hf, h⟩ := Action.bind_ok.mp h
    obtain ⟨there, rfl⟩ := fetch_ok.mp hf
    cases node with
    | empty | matched =>
      obtain ⟨rfl, rfl⟩ := Action.pure_ok.mp h
      exact ⟨W, .spent there rfl⟩
    | undefined name =>
      obtain ⟨_, _, hn, h⟩ := Action.bind_ok.mp h
      obtain ⟨rfl, rfl⟩ := Action.pure_ok.mp h
      rw [← note_ok.mp hn]
      exact ⟨W, .undefined there⟩
    | rule r body =>
      have h := deriveRule_ok.mp h
      cases known : r.remembered? s.kind with
      | some known' =>
        rw [known] at h
        obtain ⟨rfl, rfl⟩ := h
        exact ⟨W, .rule_known there known⟩
      | none =>
        rw [known] at h
        obtain ⟨rfl, rfl⟩ := h
        exact ⟨_, .rule_new there known⟩
    | thunk t base =>
      obtain ⟨target, g₁, ht, h⟩ := Action.bind_ok.mp h
      obtain ⟨W₁, ht⟩ := ih.force W _ _ _ _ ht
      obtain ⟨W₂, h⟩ := ih.derive W₁ _ _ _ _ _ h
      exact ⟨W₂, .thunk there ht h⟩
    | token | alt | cat | rep => exact ih.combinator there rfl whole
  nullable W g g' id b h := by
    rw [Grammar.nullable] at h
    obtain ⟨node, _, hf, h⟩ := Action.bind_ok.mp h
    obtain ⟨there, rfl⟩ := fetch_ok.mp hf
    cases node with
    | empty | undefined | token | matched | rep =>
      obtain ⟨rfl, rfl⟩ := Action.pure_ok.mp h
      exact ⟨W, .nullable_plain there rfl⟩
    | alt left right =>
      obtain ⟨b', g₁, hl, h⟩ := Action.bind_ok.mp h
      obtain ⟨W₁, hl⟩ := ih.nullable W _ _ _ _ hl
      cases b' with
      | true =>
        obtain ⟨rfl, rfl⟩ := Action.pure_ok.mp h
        exact ⟨W₁, .nullable_left there hl⟩
      | false =>
        obtain ⟨W₂, h⟩ := ih.nullable W₁ _ _ _ _ h
        exact ⟨W₂, .nullable_right there hl h⟩
    | cat left right =>
      obtain ⟨b', g₁, hl, h⟩ := Action.bind_ok.mp h
      obtain ⟨W₁, hl⟩ := ih.nullable W _ _ _ _ hl
      cases b' with
      | true =>
        obtain ⟨W₂, h⟩ := ih.nullable W₁ _ _ _ _ h
        exact ⟨W₂, .nullable_second there hl h⟩
      | false =>
        obtain ⟨rfl, rfl⟩ := Action.pure_ok.mp h
        exact ⟨W₁, .nullable_first there hl⟩
    | thunk t base =>
      obtain ⟨target, g₁, ht, h⟩ := Action.bind_ok.mp h
      obtain ⟨W₁, ht⟩ := ih.force W _ _ _ _ ht
      obtain ⟨W₂, h⟩ := ih.nullable W₁ _ _ _ _ h
      exact ⟨W₂, .nullable_thunk there ht h⟩
    | rule r body =>
      cases state : r.fixpoint with
      | done answer =>
        simp only [state] at h
        obtain ⟨rfl, rfl⟩ := Action.pure_ok.mp h
        exact ⟨W, .nullable_done there state⟩
      | inProgress =>
        simp only [state] at h
        obtain ⟨_, _, hp, h⟩ := Action.bind_ok.mp h
        obtain ⟨rfl, rfl⟩ := Action.pure_ok.mp h
        rw [← Action.modify_ok.mp hp]
        exact ⟨W, .nullable_cycle there state⟩
      | unstarted =>
        simp only [state] at h
        obtain ⟨_, _, hs, h⟩ := Action.bind_ok.mp h
        rw [← revise_ok.mp hs] at h
        obtain ⟨answer, g₁, hb, h⟩ := Action.bind_ok.mp h
        obtain ⟨_, _, hs, h⟩ := Action.bind_ok.mp h
        obtain ⟨rfl, rfl⟩ := Action.pure_ok.mp h
        rw [← revise_ok.mp hs]
        obtain ⟨W₁, hb⟩ := ih.nullable W _ _ _ _ hb
        exact ⟨W₁, .nullable_rule there state hb⟩
  force W g g' id next h := by
    rw [Grammar.force] at h
    obtain ⟨node, _, hf, h⟩ := Action.bind_ok.mp h
    obtain ⟨there, rfl⟩ := fetch_ok.mp hf
    cases node with
    | thunk t base =>
      cases state : t.state with
      | forced target =>
        simp only [state] at h
        obtain ⟨rfl, rfl⟩ := Action.pure_ok.mp h
        exact ⟨W, .force_resolved there (by rw [state]; rfl)⟩
      | culled target =>
        simp only [state] at h
        obtain ⟨rfl, rfl⟩ := Action.pure_ok.mp h
        exact ⟨W, .force_resolved there (by rw [state]; rfl)⟩
      | running =>
        simp only [state] at h
        obtain ⟨_, _, hn, h⟩ := Action.bind_ok.mp h
        obtain ⟨rfl, rfl⟩ := Action.pure_ok.mp h
        rw [← note_ok.mp hn]
        exact ⟨W, .force_running there state⟩
      | pending =>
        simp only [state] at h
        obtain ⟨_, _, hs, h⟩ := Action.bind_ok.mp h
        rw [← revise_ok.mp hs] at h
        obtain ⟨target, g₁, hd, h⟩ := Action.bind_ok.mp h
        obtain ⟨_, _, hs, h⟩ := Action.bind_ok.mp h
        obtain ⟨_, _, hm, h⟩ := Action.bind_ok.mp h
        obtain ⟨_, _, hn, h⟩ := Action.bind_ok.mp h
        obtain ⟨rfl, rfl⟩ := Action.pure_ok.mp h
        rw [← note_ok.mp hn, ← Action.modify_ok.mp hm, ← revise_ok.mp hs]
        obtain ⟨W₁, hd⟩ := ih.derive W _ _ _ _ _ hd
        exact ⟨W₁, .force_pending there state hd⟩
    | _ =>
      obtain ⟨rfl, rfl⟩ := Action.pure_ok.mp h
      exact ⟨W, .force_other there rfl⟩

theorem adequate (fuel : Nat) : Adequate L fuel := by
  induction fuel with
  | zero => exact .zero
  | succ fuel ih => exact ih.succ

theorem evaluates_of_derive {fuel : Nat} (W : World) (h : derive fuel id s g = .ok (next, g')) :
    ∃ W', Evaluates W g (.derive id s) (.node next) W' g' :=
  (adequate fuel).derive W g g' id s next h

theorem evaluates_of_nullable {fuel : Nat} {b : Bool} (W : World)
    (h : nullable fuel id g = .ok (b, g')) : ∃ W', Evaluates W g (.nullable id) (.truth b) W' g' :=
  (adequate fuel).nullable W g g' id b h

theorem evaluates_of_force {fuel : Nat} (W : World) (h : force fuel id g = .ok (next, g')) :
    ∃ W', Evaluates W g (.force id) (.node next) W' g' :=
  (adequate fuel).force W g g' id next h

end Grammar

/-! ## The actions and the relation -/

/-- What the actions answer to a question, as deep as `fuel` allows. -/
def Question.Answered {L : Type} [DecidableEq L] (g : Grammar L) (fuel : Nat) :
    Question L → Reply → Grammar L → Prop
  | derive id s, .node next, g' => Grammar.derive fuel id s g = .ok (next, g')
  | compute id s, .node next, g' => ∃ node, g.arena.get? id = some node ∧ node.isCombinator ∧
      (Evaluator.plain fuel).combine id s node g = .ok (next, g')
  | nullable id, .truth b, g' => Grammar.nullable fuel id g = .ok (b, g')
  | force id, .node next, g' => Grammar.force fuel id g = .ok (next, g')
  | _, _, _ => False

section Answers

open Grammar (fetch_ok alloc_ok revise_ok note_ok)

variable {L : Type} [DecidableEq L] {W W' : World} {g g' : Grammar L} {q : Question L} {a : Reply}

/-- A property of all fuel from some amount on holds of one more from some amount on. -/
theorem eventually_succ {P : Nat → Prop} {N : Nat} (h : ∀ fuel ≥ N, P (fuel + 1)) :
    ∃ N, ∀ fuel ≥ N, P fuel := by
  refine ⟨N + 1, fun fuel le => ?_⟩
  obtain ⟨fuel, rfl⟩ : ∃ n, fuel = n + 1 := ⟨fuel - 1, by omega⟩
  exact h fuel (by omega)

/-- What is evaluated is answered, whatever the fuel from some amount on. -/
theorem Evaluates.answers (h : Evaluates W g q a W' g') :
    ∃ N, ∀ fuel ≥ N, q.Answered g fuel a g' := by
  induction h with
  | @spent W g id s node there spent =>
    refine eventually_succ (N := 0) fun fuel _ => ?_
    show Grammar.derive (fuel + 1) _ _ _ = _
    rw [Grammar.derive, Evaluator.deriveNode, Grammar.fetch_bind there]
    cases node <;> first | rfl | cases spent
  | undefined there =>
    refine eventually_succ (N := 0) fun fuel _ => ?_
    show Grammar.derive (fuel + 1) _ _ _ = _
    rw [Grammar.derive, Evaluator.deriveNode, Grammar.fetch_bind there]
    rfl
  | rule_known there known =>
    refine eventually_succ (N := 0) fun fuel _ => ?_
    show Grammar.derive (fuel + 1) _ _ _ = _
    rw [Grammar.derive, Evaluator.deriveNode, Grammar.fetch_bind there]
    refine Grammar.deriveRule_ok.mpr ?_
    rw [known]
    exact ⟨rfl, rfl⟩
  | rule_new there new =>
    refine eventually_succ (N := 0) fun fuel _ => ?_
    show Grammar.derive (fuel + 1) _ _ _ = _
    rw [Grammar.derive, Evaluator.deriveNode, Grammar.fetch_bind there]
    refine Grammar.deriveRule_ok.mpr ?_
    rw [new]
    exact ⟨rfl, rfl⟩
  | thunk there _ _ ihf ihd =>
    obtain ⟨N₁, ihf⟩ := ihf
    obtain ⟨N₂, ihd⟩ := ihd
    refine eventually_succ (N := max N₁ N₂) fun fuel le => ?_
    show Grammar.derive (fuel + 1) _ _ _ = _
    rw [Grammar.derive, Evaluator.deriveNode, Grammar.fetch_bind there]
    exact (Action.bind_of_ok (ihf fuel (by omega))).trans (ihd fuel (by omega))
  | known there comb found =>
    refine eventually_succ (N := 0) fun fuel _ => ?_
    show Grammar.derive (fuel + 1) _ _ _ = _
    rw [Grammar.derive_combinator there comb]
    refine Grammar.remembering_ok.mpr ?_
    rw [found]
    exact ⟨rfl, rfl⟩
  | fresh there comb new _ ih =>
    obtain ⟨N, ih⟩ := ih
    refine eventually_succ (N := N) fun fuel le => ?_
    show Grammar.derive (fuel + 1) _ _ _ = _
    rw [Grammar.derive_combinator there comb]
    refine Grammar.remembering_ok.mpr ?_
    rw [new]
    obtain ⟨node, there', -, ih⟩ := ih fuel le
    cases Option.some.inj (there.symm.trans there')
    exact ⟨_, ih, rfl⟩
  | hit there hit =>
    refine ⟨0, fun fuel _ => ⟨_, there, rfl, Grammar.deriveToken_ok.mpr ?_⟩⟩
    rw [if_pos hit]
    exact ⟨rfl, rfl⟩
  | miss there miss =>
    refine ⟨0, fun fuel _ => ⟨_, there, rfl, Grammar.deriveToken_ok.mpr ?_⟩⟩
    rw [if_neg miss]
    exact ⟨rfl, rfl⟩
  | alt there _ _ ihl ihr =>
    obtain ⟨N₁, ihl⟩ := ihl
    obtain ⟨N₂, ihr⟩ := ihr
    refine ⟨max N₁ N₂, fun fuel le => ⟨_, there, rfl, ?_⟩⟩
    refine (Action.bind_of_ok (ihl fuel (by omega))).trans ?_
    exact Action.bind_of_ok (ihr fuel (by omega))
  | cat there _ _ ihb ihl =>
    obtain ⟨N₁, ihb⟩ := ihb
    obtain ⟨N₂, ihl⟩ := ihl
    refine ⟨max N₁ N₂, fun fuel le => ⟨_, there, rfl, ?_⟩⟩
    refine (Action.bind_of_ok (ihb fuel (by omega))).trans ?_
    exact Action.bind_of_ok (ihl fuel (by omega))
  | cat_nullable there _ _ _ _ ihb ihl ihr =>
    obtain ⟨N₁, ihb⟩ := ihb
    obtain ⟨N₂, ihl⟩ := ihl
    obtain ⟨N₃, ihr⟩ := ihr
    refine ⟨max N₁ (max N₂ N₃), fun fuel le => ⟨_, there, rfl, ?_⟩⟩
    refine (Action.bind_of_ok (ihb fuel (by omega))).trans ?_
    refine (Action.bind_of_ok (ihl fuel (by omega))).trans ?_
    refine (Action.bind_of_ok (alloc_ok.mpr ⟨rfl, rfl⟩)).trans ?_
    exact Action.bind_of_ok (ihr fuel (by omega))
  | rep there _ ih =>
    obtain ⟨N, ih⟩ := ih
    exact ⟨N, fun fuel le => ⟨_, there, rfl, Action.bind_of_ok (ih fuel le)⟩⟩
  | @nullable_plain W g id node b there plain =>
    refine eventually_succ (N := 0) fun fuel _ => ?_
    show Grammar.nullable (fuel + 1) _ _ = _
    rw [Grammar.nullable, Evaluator.nullableNode, Grammar.fetch_bind there]
    cases node <;> cases plain <;> rfl
  | nullable_left there _ ih =>
    obtain ⟨N, ih⟩ := ih
    refine eventually_succ (N := N) fun fuel le => ?_
    show Grammar.nullable (fuel + 1) _ _ = _
    rw [Grammar.nullable, Evaluator.nullableNode, Grammar.fetch_bind there]
    exact Action.bind_of_ok (ih fuel le)
  | nullable_right there _ _ ihl ihr =>
    obtain ⟨N₁, ihl⟩ := ihl
    obtain ⟨N₂, ihr⟩ := ihr
    refine eventually_succ (N := max N₁ N₂) fun fuel le => ?_
    show Grammar.nullable (fuel + 1) _ _ = _
    rw [Grammar.nullable, Evaluator.nullableNode, Grammar.fetch_bind there]
    exact (Action.bind_of_ok (ihl fuel (by omega))).trans (ihr fuel (by omega))
  | nullable_first there _ ih =>
    obtain ⟨N, ih⟩ := ih
    refine eventually_succ (N := N) fun fuel le => ?_
    show Grammar.nullable (fuel + 1) _ _ = _
    rw [Grammar.nullable, Evaluator.nullableNode, Grammar.fetch_bind there]
    exact Action.bind_of_ok (ih fuel le)
  | nullable_second there _ _ ihl ihr =>
    obtain ⟨N₁, ihl⟩ := ihl
    obtain ⟨N₂, ihr⟩ := ihr
    refine eventually_succ (N := max N₁ N₂) fun fuel le => ?_
    show Grammar.nullable (fuel + 1) _ _ = _
    rw [Grammar.nullable, Evaluator.nullableNode, Grammar.fetch_bind there]
    exact (Action.bind_of_ok (ihl fuel (by omega))).trans (ihr fuel (by omega))
  | nullable_thunk there _ _ ihf ihn =>
    obtain ⟨N₁, ihf⟩ := ihf
    obtain ⟨N₂, ihn⟩ := ihn
    refine eventually_succ (N := max N₁ N₂) fun fuel le => ?_
    show Grammar.nullable (fuel + 1) _ _ = _
    rw [Grammar.nullable, Evaluator.nullableNode, Grammar.fetch_bind there]
    exact (Action.bind_of_ok (ihf fuel (by omega))).trans (ihn fuel (by omega))
  | nullable_done there state =>
    refine eventually_succ (N := 0) fun fuel _ => ?_
    show Grammar.nullable (fuel + 1) _ _ = _
    rw [Grammar.nullable, Evaluator.nullableNode, Grammar.fetch_bind there]
    simp only [state]
    rfl
  | nullable_cycle there state =>
    refine eventually_succ (N := 0) fun fuel _ => ?_
    show Grammar.nullable (fuel + 1) _ _ = _
    rw [Grammar.nullable, Evaluator.nullableNode, Grammar.fetch_bind there]
    simp only [state]
    rfl
  | nullable_rule there state _ ih =>
    obtain ⟨N, ih⟩ := ih
    refine eventually_succ (N := N) fun fuel le => ?_
    show Grammar.nullable (fuel + 1) _ _ = _
    rw [Grammar.nullable, Evaluator.nullableNode, Grammar.fetch_bind there]
    simp only [state]
    refine (Action.bind_of_ok ((revise_ok (u := ())).mpr rfl)).trans ?_
    exact Action.bind_of_ok (ih fuel le)
  | @force_other W g id node there other =>
    refine eventually_succ (N := 0) fun fuel _ => ?_
    show Grammar.force (fuel + 1) _ _ = _
    rw [Grammar.force, Evaluator.forceNode, Grammar.fetch_bind there]
    cases node <;> first | rfl | cases other
  | @force_resolved W g id base target t there target =>
    refine eventually_succ (N := 0) fun fuel _ => ?_
    show Grammar.force (fuel + 1) _ _ = _
    rw [Grammar.force, Evaluator.forceNode, Grammar.fetch_bind there]
    obtain ⟨symbol, state⟩ := t
    cases state <;> cases target <;> rfl
  | force_running there state =>
    refine eventually_succ (N := 0) fun fuel _ => ?_
    show Grammar.force (fuel + 1) _ _ = _
    rw [Grammar.force, Evaluator.forceNode, Grammar.fetch_bind there]
    simp only [state]
    rfl
  | force_pending there state _ ih =>
    obtain ⟨N, ih⟩ := ih
    refine eventually_succ (N := N) fun fuel le => ?_
    show Grammar.force (fuel + 1) _ _ = _
    rw [Grammar.force, Evaluator.forceNode, Grammar.fetch_bind there]
    simp only [state]
    refine (Action.bind_of_ok ((revise_ok (u := ())).mpr rfl)).trans ?_
    exact Action.bind_of_ok (ih fuel le)

end Answers

end DerivativeParsing
