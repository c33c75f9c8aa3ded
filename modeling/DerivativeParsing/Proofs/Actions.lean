import DerivativeParsing.Grammar.Derivative

/-!
# What the actions on a grammar do

An action is a function from a state to an answer and a state, or to an error; for `Eval` the state
is a grammar. Here the primitive actions are described by equations: when one succeeds, with which
answer, and what the grammar is afterwards. Proofs about larger actions take them apart with
`Action.bind_ok` and go on from these equations.

The changes that evaluation makes to a grammar get names of their own: a node more
(`Grammar.withNode`), a node revised (`Grammar.revised`), the flag for provisional answers down
(`certain`) or up (`doubtful`), an event more (`noted`), a derivative settled (`finished`).
-/

namespace DerivativeParsing

namespace Action

variable {σ α β : Type} {g g' : σ} {act : StateT σ (Except Error) α}
  {k : α → StateT σ (Except Error) β}

theorem bind_ok {b : β} :
    (act >>= k) g = .ok (b, g') ↔ ∃ a g₁, act g = .ok (a, g₁) ∧ k a g₁ = .ok (b, g') := by
  show Except.bind (act g) (fun p => k p.1 p.2) = .ok (b, g') ↔ _
  rcases act g with e | ⟨a, g₁⟩
  · constructor
    · intro h
      cases h
    · rintro ⟨a, g₁, h, -⟩
      cases h
  · constructor
    · intro h
      exact ⟨a, g₁, rfl, h⟩
    · rintro ⟨a', g₁', h, hk⟩
      cases h
      exact hk

/-- After an action that answers, the rest goes on with the answer. -/
theorem bind_of_ok {a : α} (h : act g = .ok (a, g')) :
    (act >>= k) g = k a g' := by
  show Except.bind (act g) (fun p => k p.1 p.2) = _
  rw [h]
  rfl

theorem bind_of_error {e : Error} (h : act g = .error e) : (act >>= k) g = .error e := by
  show Except.bind (act g) (fun p => k p.1 p.2) = _
  rw [h]
  rfl

theorem pure_ok {a b : α} :
    (pure a : StateT σ (Except Error) α) g = .ok (b, g') ↔ a = b ∧ g = g' := by
  show Except.ok (a, g) = .ok (b, g') ↔ _
  rw [Except.ok.injEq, Prod.mk.injEq]

theorem get_ok {b : σ} : (get : StateT σ (Except Error) σ) g = .ok (b, g') ↔ g = b ∧ g = g' :=
  pure_ok

theorem modify_ok {f : σ → σ} {u : Unit} :
    (modify f : StateT σ (Except Error) Unit) g = .ok (u, g') ↔ f g = g' := by
  show Except.ok ((), f g) = .ok (u, g') ↔ _
  rw [Except.ok.injEq, Prod.mk.injEq]
  exact and_iff_right rfl

theorem throw_ok {e : Error} {b : α} :
    (throw e : StateT σ (Except Error) α) g = .ok (b, g') ↔ False :=
  iff_false_intro fun h => by cases h

theorem lift_ok {x : Except Error α} {b : α} :
    (liftM x : StateT σ (Except Error) α) g = .ok (b, g') ↔ x = .ok b ∧ g = g' := by
  rcases x with e | a
  · exact ⟨fun h => (by cases h), fun h => (by cases h.1)⟩
  · show Except.ok (a, g) = .ok (b, g') ↔ _
    rw [Except.ok.injEq, Prod.mk.injEq, Except.ok.injEq]

theorem lift_error {x : Except Error α} {e : Error} (h : x = .error e) :
    (liftM x : StateT σ (Except Error) α) g = .error e := by
  subst h
  rfl

end Action

/-- The action answers so, whatever the fuel from some amount on. -/
def Answers {σ α : Type} (act : Nat → StateT σ (Except Error) α) (s : σ) (p : α × σ) : Prop :=
  ∃ N, ∀ fuel ≥ N, act fuel s = .ok p

namespace Answers

variable {σ α β : Type} {act : Nat → StateT σ (Except Error) α}
  {k : Nat → α → StateT σ (Except Error) β} {s s' : σ} {a : α} {p : β × σ}

theorem const {act : StateT σ (Except Error) β} (h : act s = .ok p) : Answers (fun _ => act) s p :=
  ⟨0, fun _ _ => h⟩

theorem bind (first : Answers act s (a, s')) (next : Answers (k · a) s' p) :
    Answers (fun fuel => act fuel >>= k fuel) s p := by
  obtain ⟨N₁, first⟩ := first
  obtain ⟨N₂, next⟩ := next
  refine ⟨max N₁ N₂, fun fuel le => ?_⟩
  exact (Action.bind_of_ok (first fuel (by omega))).trans (next fuel (by omega))

end Answers

/-- The action fails so, whatever the fuel from some amount on. -/
def Fails {σ α : Type} (act : Nat → StateT σ (Except Error) α) (s : σ) (e : Error) : Prop :=
  ∃ N, ∀ fuel ≥ N, act fuel s = .error e

namespace Fails

variable {σ α β : Type} {act : Nat → StateT σ (Except Error) α}
  {k : Nat → α → StateT σ (Except Error) β} {s s' : σ} {a : α} {e : Error}

theorem bind (first : Fails act s e) : Fails (fun fuel => act fuel >>= k fuel) s e := by
  obtain ⟨N, first⟩ := first
  exact ⟨N, fun fuel le => Action.bind_of_error (first fuel le)⟩

theorem after (first : Answers act s (a, s')) (next : Fails (k · a) s' e) :
    Fails (fun fuel => act fuel >>= k fuel) s e := by
  obtain ⟨N₁, first⟩ := first
  obtain ⟨N₂, next⟩ := next
  refine ⟨max N₁ N₂, fun fuel le => ?_⟩
  exact (Action.bind_of_ok (first fuel (by omega))).trans (next fuel (by omega))

theorem not_answers {p : α × σ} (h : Fails act s e) : ¬Answers act s p := by
  rintro ⟨N', h'⟩
  obtain ⟨N, h⟩ := h
  cases (h (max N N') (by omega)).symm.trans (h' (max N N') (by omega))

end Fails

namespace Grammar

variable {L : Type}

/-! ## Changes of a grammar -/

def withNode (g : Grammar L) (node : Node L) : Grammar L := { g with arena := g.arena.push node }

def revised (g : Grammar L) (id : NodeId) (f : Node L → Node L) : Grammar L :=
  { g with arena := g.arena.modify id f }

def certain (g : Grammar L) : Grammar L := { g with provisional := false }

def doubtful (g : Grammar L) : Grammar L := { g with provisional := true }

def noted (g : Grammar L) (event : Event) : Grammar L := { g with journal := g.journal.push event }

/-- With one evaluated thunk more in the counters. -/
def countedForced (g : Grammar L) : Grammar L :=
  { g with stats := { g.stats with forced := g.stats.forced + 1 } }

/-- With the derivative of a rule: a thunk of its body, a rule over the thunk, and the memo that
remembers it. -/
def withDerivedRule (g : Grammar L) (id : NodeId) (r : Rule) (body : NodeId) (symbol : Symbol L) :
    Grammar L :=
  ((g.withNode (.thunk { symbol } body)).withNode (.rule { name := r.name } g.size)).revised id
    (.mapRule ({ · with memo := some (symbol.kind, g.size + 1) }))

/-- With the derivative of a combinator settled and noted. -/
def finished [DecidableEq L] (g : Grammar L) (id : NodeId) (symbol : Symbol L) (next : NodeId)
    (outer : Bool) : Grammar L :=
  (settle id symbol next outer g).noted (.derived symbol.kind id next)

section Changes

variable (g : Grammar L)

@[simp] theorem size_withNode (node : Node L) : (g.withNode node).size = g.size + 1 :=
  Arena.size_push _ _

@[simp] theorem size_revised (id : NodeId) (f : Node L → Node L) : (g.revised id f).size = g.size :=
  Arena.size_modify _ _ _

@[simp] theorem size_certain : g.certain.size = g.size := rfl
@[simp] theorem size_doubtful : g.doubtful.size = g.size := rfl
@[simp] theorem size_noted (event : Event) : (g.noted event).size = g.size := rfl
@[simp] theorem size_countedForced : g.countedForced.size = g.size := rfl

@[simp] theorem size_finished [DecidableEq L] (id : NodeId) (symbol : Symbol L) (next : NodeId)
    (outer : Bool) : (g.finished id symbol next outer).size = g.size := rfl

@[simp] theorem size_withDerivedRule (id : NodeId) (r : Rule) (body : NodeId) (symbol : Symbol L) :
    (g.withDerivedRule id r body symbol).size = g.size + 2 := by
  rw [withDerivedRule, size_revised, size_withNode, size_withNode]

theorem get?_withNode (node : Node L) (i : Nat) :
    (g.withNode node).arena.get? i = if i = g.size then some node else g.arena.get? i :=
  Arena.get?_push _ _ _

theorem get?_revised (id i : Nat) (f : Node L → Node L) :
    (g.revised id f).arena.get? i = if id = i then (g.arena.get? i).map f else g.arena.get? i :=
  Arena.get?_modify _ _ _ _

@[simp] theorem arena_certain : g.certain.arena = g.arena := rfl
@[simp] theorem arena_doubtful : g.doubtful.arena = g.arena := rfl
@[simp] theorem arena_noted (event : Event) : (g.noted event).arena = g.arena := rfl
@[simp] theorem arena_countedForced : g.countedForced.arena = g.arena := rfl

@[simp] theorem arena_finished [DecidableEq L] (id : NodeId) (symbol : Symbol L) (next : NodeId)
    (outer : Bool) : (g.finished id symbol next outer).arena = g.arena := rfl

@[simp] theorem memo_withNode (node : Node L) : (g.withNode node).memo = g.memo := rfl
@[simp] theorem memo_revised (id : NodeId) (f : Node L → Node L) : (g.revised id f).memo = g.memo :=
  rfl
@[simp] theorem memo_certain : g.certain.memo = g.memo := rfl
@[simp] theorem memo_doubtful : g.doubtful.memo = g.memo := rfl
@[simp] theorem memo_noted (event : Event) : (g.noted event).memo = g.memo := rfl
@[simp] theorem memo_countedForced : g.countedForced.memo = g.memo := rfl

@[simp] theorem memo_withDerivedRule (id : NodeId) (r : Rule) (body : NodeId) (symbol : Symbol L) :
    (g.withDerivedRule id r body symbol).memo = g.memo := rfl

theorem memo_finished [DecidableEq L] (id : NodeId) (symbol : Symbol L) (next : NodeId)
    (outer : Bool) : (g.finished id symbol next outer).memo =
      if g.provisional then g.memo else g.memo.record id symbol next := rfl

variable {g}

theorem lt_size_of_get? {id : Nat} {node : Node L} (there : g.arena.get? id = some node) :
    id < g.size :=
  (g.arena.isSome_get? id).mp (by rw [there]; rfl)

theorem exists_get? {id : Nat} (h : id < g.size) : ∃ node, g.arena.get? id = some node :=
  Option.isSome_iff_exists.mp ((g.arena.isSome_get? id).mpr h)

theorem get?_withNode_of_lt {node : Node L} {i : Nat} (h : i < g.size) :
    (g.withNode node).arena.get? i = g.arena.get? i := by
  rw [get?_withNode, if_neg (Nat.ne_of_lt h)]

theorem get?_withNode_old {node node' : Node L} {i : Nat} (there : g.arena.get? i = some node) :
    (g.withNode node').arena.get? i = some node := by
  rw [get?_withNode_of_lt (lt_size_of_get? there), there]

theorem get?_withNode_self (node : Node L) : (g.withNode node).arena.get? g.size = some node := by
  rw [get?_withNode, if_pos rfl]

/-- The slots of a grammar with the derivative of a rule. -/
theorem get?_withDerivedRule {id : Nat} {r : Rule} {body : NodeId} {symbol : Symbol L}
    (there : g.arena.get? id = some (.rule r body)) (i : Nat) :
    (g.withDerivedRule id r body symbol).arena.get? i =
      if i = g.size + 1 then some (.rule { name := r.name } g.size)
      else if i = g.size then some (.thunk { symbol } body)
      else if i = id then some (.rule { r with memo := some (symbol.kind, g.size + 1) } body)
      else g.arena.get? i := by
  have lt := lt_size_of_get? there
  rw [withDerivedRule, get?_revised, get?_withNode, size_withNode, get?_withNode]
  by_cases h : i = id
  · subst h
    rw [if_pos rfl, if_neg (by omega), if_neg (by omega), if_neg (by omega), if_neg (by omega),
      if_pos rfl, there]
    rfl
  · rw [if_neg (Ne.symm h), if_neg h]

end Changes

/-! ## The primitive actions -/

variable {g g' : Grammar L}

theorem lookup_ok {id : NodeId} {node : Node L} :
    g.lookup id = .ok node ↔ g.arena.get? id = some node := by
  unfold lookup
  rcases g.arena.get? id with _ | found
  · exact ⟨fun h => (by cases h), fun h => (by cases h)⟩
  · rw [Except.ok.injEq, Option.some.injEq]

theorem fetch_ok {id : NodeId} {node : Node L} :
    fetch id g = .ok (node, g') ↔ g.arena.get? id = some node ∧ g = g' := by
  unfold fetch lookup
  rcases g.arena.get? id with _ | found
  · exact ⟨fun h => (by cases h), fun h => (by cases h.1)⟩
  · show Except.ok (found, g) = .ok (node, g') ↔ _
    rw [Except.ok.injEq, Prod.mk.injEq, Option.some.injEq]

/-- After a slot is read, the rest goes on with what it holds. -/
theorem fetch_bind {β : Type} {id : NodeId} {node : Node L} {k : Node L → Eval L β}
    (there : g.arena.get? id = some node) : (fetch id >>= k) g = k node g :=
  Action.bind_of_ok (fetch_ok.mpr ⟨there, rfl⟩)

theorem alloc_ok {node : Node L} {id : NodeId} :
    alloc node g = .ok (id, g') ↔ g.size = id ∧ g.withNode node = g' := by
  show Except.ok (g.size, g.withNode node) = .ok (id, g') ↔ _
  rw [Except.ok.injEq, Prod.mk.injEq]

theorem revise_ok {id : NodeId} {f : Node L → Node L} {u : Unit} :
    revise id f g = .ok (u, g') ↔ g.revised id f = g' :=
  Action.modify_ok

theorem store_ok {id : NodeId} {node : Node L} :
    store id node g = .ok ((), g.revised id fun _ => node) := by
  have same : g.arena.slots.setIfInBounds id node = g.arena.slots.modify id fun _ => node := by
    refine Array.ext (by simp) fun i _ _ => ?_
    rw [Array.getElem_setIfInBounds, Array.getElem_modify]
  show Except.ok ((), { g with arena := { slots := g.arena.slots.setIfInBounds id node } }) = _
  rw [same]
  rfl

theorem note_ok {event : Event} {u : Unit} : note event g = .ok (u, g') ↔ g.noted event = g' :=
  Action.modify_ok

theorem deriveToken_ok [DecidableEq L] {kind : Kind} {symbol : Symbol L} {next : NodeId} :
    deriveToken kind symbol g = .ok (next, g') ↔
      if kind.isTerminal ∧ kind = symbol.kind then g.size = next ∧ g.withNode (.matched symbol) = g'
      else nothing = next ∧ g = g' := by
  unfold deriveToken matched
  by_cases h : kind.isTerminal ∧ kind = symbol.kind
  · rw [if_pos h, if_pos (by simpa using h), alloc_ok]
  · rw [if_neg h, if_neg (by simpa using h), Action.pure_ok]

theorem deriveRule_ok [DecidableEq L] {id : NodeId} {r : Rule} {body : NodeId} {symbol : Symbol L}
    {next : NodeId} :
    deriveRule id r body symbol g = .ok (next, g') ↔
      match r.remembered? symbol.kind with
      | some known => known = next ∧ g = g'
      | none => g.size + 1 = next ∧ g.withDerivedRule id r body symbol = g' := by
  unfold deriveRule
  rcases r.remembered? symbol.kind with _ | known
  · simp only [Action.bind_ok, alloc_ok, revise_ok, Action.pure_ok]
    rw [withDerivedRule, ← size_withNode g (.thunk { symbol } body)]
    constructor
    · rintro ⟨_, _, ⟨rfl, rfl⟩, _, _, ⟨rfl, rfl⟩, _, _, rfl, rfl, rfl⟩
      exact ⟨rfl, rfl⟩
    · rintro ⟨rfl, rfl⟩
      exact ⟨_, _, ⟨rfl, rfl⟩, _, _, ⟨rfl, rfl⟩, (), _, rfl, rfl, rfl⟩
  · exact Action.pure_ok

/-- A combinator's derivative is the one that is known, or it is computed with the flag down and
settled. -/
theorem remembering_ok [DecidableEq L] {id : NodeId} {symbol : Symbol L} {compute : Eval L NodeId}
    {next : NodeId} :
    remembering id symbol compute g = .ok (next, g') ↔
      match g.memo.find? id symbol with
      | some known => known = next ∧ g = g'
      | none => ∃ g₁, compute g.certain = .ok (next, g₁) ∧
        g₁.finished id symbol next g.provisional = g' := by
  unfold remembering
  simp only [Action.bind_ok, Action.get_ok]
  constructor
  · rintro ⟨_, _, ⟨rfl, rfl⟩, hk⟩
    cases hm : g.memo.find? id symbol with
    | none =>
      simp only [hm, Action.bind_ok, Action.get_ok, Action.modify_ok, note_ok, Action.pure_ok] at hk
      obtain ⟨_, _, ⟨rfl, rfl⟩, _, _, rfl, found, g₁, hc, _, _, rfl, _, _, rfl, rfl, rfl⟩ := hk
      exact ⟨g₁, hc, rfl⟩
    | some known =>
      simp only [hm, Action.pure_ok] at hk
      exact hk
  · intro h
    refine ⟨g, g, ⟨rfl, rfl⟩, ?_⟩
    cases hm : g.memo.find? id symbol with
    | none =>
      simp only [hm] at h
      obtain ⟨g₁, hc, rfl⟩ := h
      simp only [Action.bind_ok, Action.get_ok, Action.modify_ok, note_ok, Action.pure_ok]
      exact ⟨_, _, ⟨rfl, rfl⟩, (), _, rfl, next, g₁, hc, (), _, rfl, (), _, rfl, rfl, rfl⟩
    | some known =>
      simp only [hm] at h
      exact Action.pure_ok.mpr h

end Grammar

end DerivativeParsing
