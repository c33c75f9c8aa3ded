import DerivativeParsing.Proofs.Operations

/-!
# What is done to a grammar

Whatever is asked of a grammar, or of a recognizer, comes down to a few things that are done to a
grammar one after the other.

1. A `Deed` is one of these things, and `Deed.place` says where it puts the nodes. `Grammar.follow`
   follows a node through whatever is done.
2. `enact_turns`: a deed evaluates, culls or collects, or it leaves the nodes as they are.
   Everything that is to be shown of deeds is shown of these.
3. `operate_enacts`: an operation comes down to deeds. `Enacts.forestOfRun`: so does reading a
   forest.
4. `Recognizing.Prolongs.feedAll`: so does consuming symbols, and the chain goes where the deeds put
   it. `Recognizing.Tracks.callAll`: so do calls of a recognizer, and its start goes where the deeds
   put it.
-/

namespace DerivativeParsing

open Grammar (nothing)

/-! ## Deeds -/

/-- Something that is done to a grammar. -/
inductive Deed (L : Type)
  | derive (id : NodeId) (symbol : Symbol L)
  | nullable (id : NodeId)
  | force (id : NodeId)
  | forget
  | note (event : Event)
  | cull (id : NodeId)
  | collect (roots : List NodeId)

/-- Whether a deed is a culling. -/
def Deed.isCull {L : Type} : Deed L → Bool
  | .cull _ => true
  | _ => false

/-- Where a deed puts the nodes of a grammar. Only a collection moves any, and drops some. -/
def Deed.place {L : Type} (g : Grammar L) : Deed L → NodeId → Option NodeId
  | .collect roots =>
    match g.kept roots with
    | .ok live => (g.compact live).2
    | .error _ => fun _ => none
  | _ => some

/-- Where an operation puts the nodes of a grammar. -/
def Operation.place {L : Type} (g : Grammar L) : Operation L → NodeId → Option NodeId
  | .collect roots => (Deed.collect roots).place g
  | _ => some

namespace Grammar

variable {L : Type}

/-- Where a node goes while one thing is done after the other, each of which has a place for every
node that it keeps. -/
def follow {δ : Type} (act : δ → Eval L Unit) (place : Grammar L → δ → NodeId → Option NodeId) :
    List δ → Grammar L → NodeId → Option NodeId
  | [], _, id => some id
  | d :: rest, g, id =>
    match act d g with
    | .ok (_, g') => (place g d id).bind (follow act place rest g')
    | .error _ => none

variable [DecidableEq L]

/-- Does something and forgets the answer. -/
def enact (fuel : Nat) : Deed L → Eval L Unit
  | .derive id symbol => do let _ ← derive fuel id symbol
  | .nullable id => do let _ ← nullable fuel id
  | .force id => do let _ ← force fuel id
  | .forget => forgetDerivatives
  | .note event => note event
  | .cull id => do let _ ← cull id
  | .collect roots => do let _ ← collect roots

def enactAll (fuel : Nat) : List (Deed L) → Eval L Unit
  | [] => pure ()
  | d :: rest => do
    enact fuel d
    enactAll fuel rest

end Grammar

section Follow

variable {L δ : Type} {act : δ → Eval L Unit} {place : Grammar L → δ → NodeId → Option NodeId}
  {d : δ} {rest : List δ} {g g' : Grammar L} {u : Unit}

theorem follow_cons (run : act d g = .ok (u, g')) (id : NodeId) :
    Grammar.follow act place (d :: rest) g id =
      (place g d id).bind (Grammar.follow act place rest g') := by
  rw [Grammar.follow, run]

end Follow

section Enact

variable {L : Type} [DecidableEq L] {links : Links} {W : World} {g g₁ g' : Grammar L} {fuel : Nat}
  {d : Deed L} {deeds deeds' : List (Deed L)} {u : Unit} {id : NodeId} {P : Grammar L → Prop}

theorem enactAll_append : Grammar.enactAll fuel (deeds ++ deeds') g = .ok ((), g') ↔
    ∃ g₁, Grammar.enactAll fuel deeds g = .ok ((), g₁) ∧
      Grammar.enactAll fuel deeds' g₁ = .ok ((), g') := by
  induction deeds generalizing g with
  | nil =>
    constructor
    · intro run
      exact ⟨g, rfl, run⟩
    · rintro ⟨g₁, first, run⟩
      obtain ⟨-, rfl⟩ := Action.pure_ok.mp first
      exact run
  | cons d rest ih =>
    constructor
    · intro run
      obtain ⟨u, g₁, first, run⟩ := Action.bind_ok.mp run
      obtain ⟨g₂, second, run⟩ := ih.mp run
      exact ⟨g₂, (Action.bind_of_ok first).trans second, run⟩
    · rintro ⟨g₂, first, run⟩
      obtain ⟨u, g₁, first, second⟩ := Action.bind_ok.mp first
      exact (Action.bind_of_ok first).trans (ih.mpr ⟨g₂, second, run⟩)

theorem enactAll_induct
    (step : ∀ d ∈ deeds, ∀ u g g', P g → Grammar.enact fuel d g = .ok (u, g') → P g') (h : P g)
    (run : Grammar.enactAll fuel deeds g = .ok (u, g')) : P g' := by
  induction deeds generalizing g with
  | nil =>
    obtain ⟨-, rfl⟩ := Action.pure_ok.mp run
    exact h
  | cons d rest ih =>
    obtain ⟨_, g₁, first, run⟩ := Action.bind_ok.mp run
    exact ih (fun d member => step d (.tail _ member)) (step d (.head _) _ _ _ h first) run

/-- What each deed keeps of a node, where it puts the node, some deeds keep where they put it. -/
theorem enactAll_follow {Q : Grammar L → NodeId → Prop} {x y : NodeId}
    (step : ∀ d u g g' x y, Q g x → Grammar.enact fuel d g = .ok (u, g') →
      d.place g x = some y → Q g' y) (h : Q g x) (run : Grammar.enactAll fuel deeds g = .ok (u, g'))
    (followed : Grammar.follow (Grammar.enact fuel) Deed.place deeds g x = some y) : Q g' y := by
  induction deeds generalizing g x with
  | nil =>
    obtain ⟨-, rfl⟩ := Action.pure_ok.mp run
    cases followed
    exact h
  | cons d rest ih =>
    obtain ⟨_, g₁, first, run⟩ := Action.bind_ok.mp run
    rw [follow_cons first] at followed
    obtain ⟨z, hz, followed⟩ := Option.bind_eq_some_iff.mp followed
    exact ih (step d _ g g₁ x z h first hz) run followed

/-! ## What deeds do -/

/-- What may become of a grammar, whether by culling, and where its nodes are put. -/
inductive Turns (W : World) (g : Grammar L) : Bool → (NodeId → Option NodeId) → Grammar L → Prop
  | evaluates {q : Question L} {a : Reply} {W' : World} {g' : Grammar L} :
    Evaluates W g q a W' g' → Turns W g false some g'
  | stays {g' : Grammar L} : g'.arena = g.arena → (g'.memo = g.memo ∨ g'.memo = {}) →
    g'.stats = g.stats → Turns W g false some g'
  | culls {id : NodeId} {result : Option NodeId} {g' : Grammar L} :
    Grammar.cull id g = .ok (result, g') → Turns W g true some g'
  | collects {roots roots' : List NodeId} {place : NodeId → Option NodeId} {g' : Grammar L} :
    Grammar.collect roots g = .ok (roots', g') → Grammar.Moved place g g' → Turns W g false place g'

omit [DecidableEq L] in
theorem place_of_reach {roots : List NodeId} {t : Traversal Marks}
    (reach : g.reach (nothing :: roots) = .ok t) :
    (Deed.collect roots).place g = (g.remaining t.seen).2 := by
  show (match g.kept roots with | .ok live => (g.compact live).2 | .error _ => fun _ => none) = _
  unfold Grammar.kept
  rw [reach]
  rfl

omit [DecidableEq L] in
/-- A collection names its roots after their places, and each has one. -/
theorem collect_roots {roots roots' : List NodeId}
    (run : Grammar.collect roots g = .ok (roots', g')) :
    roots' = roots.map (movedBy ((Deed.collect roots).place g)) ∧
      ∀ x ∈ roots, ∃ y, (Deed.collect roots).place g x = some y := by
  obtain ⟨t, reach, same⟩ := Grammar.collect_iff.mp run
  cases same
  refine ⟨by rw [place_of_reach reach], fun x member => ?_⟩
  rw [place_of_reach reach]
  have member : x ∈ nothing :: roots := .tail _ member
  exact Grammar.compact_has.mpr
    (Grammar.flagged_iff.mpr
      ⟨Grammar.lt_size_of_reach reach member, Grammar.seen_of_reach reach member⟩)

theorem collect_place {roots roots' : List NodeId} (formed : g.Formed)
    (run : Grammar.collect roots g = .ok (roots', g')) :
    Grammar.Moved ((Deed.collect roots).place g) g g' := by
  obtain ⟨t, reach, same⟩ := Grammar.collect_iff.mp run
  have range : ∀ root ∈ nothing :: roots, root < g.size := fun root member =>
    Grammar.lt_size_of_reach reach member
  obtain ⟨t', reach', seen, closed⟩ := Grammar.reach_ok (formed.ranged true) range
  cases reach.symm.trans reach'
  have flags (x : NodeId) : ((List.range g.size).map t.seen.contains)[x]? = some true ↔
      t.seen.contains x :=
    Grammar.flagged_iff.trans (and_iff_right_of_imp (closed.range x))
  obtain ⟨moved, -⟩ := Grammar.compact_moved closed (seen _ (.head _)) flags
  cases same
  rw [place_of_reach reach]
  exact ⟨moved.forth, moved.back, moved.mono, moved.nothing, moved.memo⟩

theorem enact_turns (W : World) (formed : g.Formed) (run : Grammar.enact fuel d g = .ok (u, g')) :
    Turns W g d.isCull (d.place g) g' := by
  cases d with
  | derive id s =>
    obtain ⟨next, run⟩ := exists_of_forgotten run
    obtain ⟨W', evaluated⟩ := Grammar.evaluates_of_derive W run
    exact .evaluates evaluated
  | nullable id =>
    obtain ⟨b, run⟩ := exists_of_forgotten run
    obtain ⟨W', evaluated⟩ := Grammar.evaluates_of_nullable W run
    exact .evaluates evaluated
  | force id =>
    obtain ⟨target, run⟩ := exists_of_forgotten run
    obtain ⟨W', evaluated⟩ := Grammar.evaluates_of_force W run
    exact .evaluates evaluated
  | forget =>
    obtain rfl := Action.modify_ok.mp run
    exact .stays rfl (.inr rfl) rfl
  | note event =>
    obtain rfl := Grammar.note_ok.mp run
    exact .stays rfl (.inl rfl) rfl
  | cull id =>
    obtain ⟨result, run⟩ := exists_of_forgotten run
    exact .culls run
  | collect roots =>
    obtain ⟨roots', run⟩ := exists_of_forgotten run
    exact .collects run (collect_place formed run)

theorem Turns.good {culling : Bool} {place : NodeId → Option NodeId}
    (h : Turns W g culling place g') (good : Good links W g) : ∃ W', Good links W' g' := by
  cases h with
  | evaluates evaluated => exact ⟨_, (evaluated.carries good).good⟩
  | stays arena memo => exact ⟨W, (Carries.of_eq good arena memo).good⟩
  | culls run =>
    obtain ⟨W', carries⟩ := (Mirrors.cull _).keeps links W g _ g' good run
    exact ⟨W', carries.good⟩
  | collects _ moved => exact ⟨_, moved.good good⟩

/-! ## Actions that come down to deeds -/

/-- A deed that puts every node where it is. -/
def Deed.Stays (d : Deed L) : Prop := ∀ g : Grammar L, d.place g = some

/-- The action comes down to deeds that leave the nodes where they are. -/
def Enacts {α : Type} (fuel : Nat) (act : Eval L α) : Prop :=
  ∀ g a g', act g = .ok (a, g') →
    ∃ deeds, Grammar.enactAll fuel deeds g = .ok ((), g') ∧ ∀ d ∈ deeds, d.Stays

/-- A node is followed through some deeds, and then through others. -/
theorem follow_append (run : Grammar.enactAll fuel deeds g = .ok ((), g')) :
    Grammar.follow (Grammar.enact fuel) Deed.place (deeds ++ deeds') g id =
      (Grammar.follow (Grammar.enact fuel) Deed.place deeds g id).bind
        (Grammar.follow (Grammar.enact fuel) Deed.place deeds' g') := by
  induction deeds generalizing g id with
  | nil =>
    obtain ⟨-, rfl⟩ := Action.pure_ok.mp run
    rfl
  | cons d rest ih =>
    obtain ⟨_, g₁, first, run⟩ := Action.bind_ok.mp run
    rw [List.cons_append, follow_cons first, follow_cons first, Option.bind_assoc]
    exact congrArg _ (funext fun x => ih run)

theorem follow_of_stays (stays : ∀ d ∈ deeds, d.Stays)
    (run : Grammar.enactAll fuel deeds g = .ok ((), g')) :
    Grammar.follow (Grammar.enact fuel) Deed.place deeds g id = some id := by
  induction deeds generalizing g with
  | nil => rfl
  | cons d rest ih =>
    obtain ⟨_, g₁, first, run⟩ := Action.bind_ok.mp run
    rw [follow_cons first, stays d (.head _) g]
    exact ih (fun d member => stays d (.tail _ member)) run

theorem enactAll_singleton (run : Grammar.enact fuel d g = .ok ((), g')) :
    Grammar.enactAll fuel [d] g = .ok ((), g') := Action.bind_of_ok run

namespace Enacts

variable {α β : Type} {act : Eval L α} {k : α → Eval L β}

theorem pure (a : α) : Enacts fuel (pure a : Eval L α) := by
  intro g b g' run
  obtain ⟨-, rfl⟩ := Action.pure_ok.mp run
  exact ⟨[], rfl, nofun⟩

theorem bind (first : Enacts fuel act) (next : ∀ a, Enacts fuel (k a)) :
    Enacts fuel (act >>= k) := by
  intro g b g' run
  obtain ⟨a, g₁, run, later⟩ := Action.bind_ok.mp run
  obtain ⟨deeds, done, stays⟩ := first g a g₁ run
  obtain ⟨deeds', done', stays'⟩ := next a g₁ b g' later
  refine ⟨deeds ++ deeds', enactAll_append.mpr ⟨g₁, done, done'⟩, fun d member => ?_⟩
  exact (List.mem_append.mp member).elim (stays d) (stays' d)

theorem of_enact (stays : d.Stays)
    (same : ∀ g a g', act g = .ok (a, g') → Grammar.enact fuel d g = .ok ((), g')) :
    Enacts fuel act := by
  intro g a g' run
  refine ⟨[d], enactAll_singleton (same g a g' run), fun d' member => ?_⟩
  obtain rfl := List.mem_singleton.mp member
  exact stays

theorem derive (id : NodeId) (s : Symbol L) : Enacts fuel (Grammar.derive fuel id s) :=
  of_enact (d := .derive id s) (fun _ => rfl) fun _ _ _ run => Action.bind_of_ok run

theorem nullable (id : NodeId) : Enacts fuel (Grammar.nullable (L := L) fuel id) :=
  of_enact (d := .nullable id) (fun _ => rfl) fun _ _ _ run => Action.bind_of_ok run

theorem force (id : NodeId) : Enacts fuel (Grammar.force (L := L) fuel id) :=
  of_enact (d := .force id) (fun _ => rfl) fun _ _ _ run => Action.bind_of_ok run

theorem note (event : Event) : Enacts fuel (Grammar.note event : Eval L Unit) :=
  of_enact (d := .note event) (fun _ => rfl) fun _ _ _ run => run

theorem forgetDerivatives : Enacts fuel (Grammar.forgetDerivatives : Eval L Unit) :=
  of_enact (d := .forget) (fun _ => rfl) fun _ _ _ run => run

theorem cull (id : NodeId) : Enacts fuel (Grammar.cull id : Eval L (Option NodeId)) :=
  of_enact (d := .cull id) (fun _ => rfl) fun _ _ _ run => Action.bind_of_ok run

theorem step (id : NodeId) (s : Symbol L) (culling : Bool) :
    Enacts fuel (Grammar.step fuel id s culling) := by
  refine forgetDerivatives.bind fun _ =>
    (derive id s).bind fun next => (nullable next).bind fun accepts => ?_
  cases culling with
  | true => exact (cull next).bind fun _ => pure _
  | false => exact pure _

theorem get : Enacts fuel (get : Eval L (Grammar L)) := by
  intro g b g' run
  obtain ⟨-, rfl⟩ := Action.get_ok.mp run
  exact ⟨[], rfl, nofun⟩

/-- What actions in the course of an extraction come down to. -/
theorem compositional : Compositional fuel fun _ (act : Eval L _) => Enacts fuel act where
  pure _ a := pure a
  throw _ _ := fun _ _ _ run => (Action.throw_ok.mp run).elim
  bind _ _ _ _ first next := first.bind next
  fetch id := by
    intro g node g' run
    obtain ⟨-, rfl⟩ := Grammar.fetch_ok.mp run
    exact ⟨[], rfl, nofun⟩
  note event := note event
  nullable id := nullable id
  force id := force id
  step id s culling := step id s culling

theorem forestOfRun (chain : List NodeId) (input : List (Symbol L)) :
    Enacts fuel (Grammar.forestOfRun fuel chain input) :=
  compositional.forestOfRun input chain

end Enacts

/-- An operation comes down to deeds, which put the nodes where the operation puts them. -/
theorem operate_enacts {op : Operation L} (run : Grammar.operate fuel op g = .ok (u, g')) :
    ∃ deeds, Grammar.enactAll fuel deeds g = .ok ((), g') ∧
      ∀ id, Grammar.follow (Grammar.enact fuel) Deed.place deeds g id = op.place g id := by
  have staying {α : Type} {act : Eval L α} (enacts : Enacts fuel act)
      (run : (do let _ ← act : Eval L Unit) g = .ok (u, g')) :
      ∃ deeds, Grammar.enactAll fuel deeds g = .ok ((), g') ∧
        ∀ id, Grammar.follow (Grammar.enact fuel) Deed.place deeds g id = some id := by
    obtain ⟨a, run⟩ := exists_of_forgotten run
    obtain ⟨deeds, done, stays⟩ := enacts g a g' run
    exact ⟨deeds, done, fun id => follow_of_stays stays done⟩
  cases op with
  | derive id s => exact staying (.derive id s) run
  | nullable id => exact staying (.nullable id) run
  | force id => exact staying (.force id) run
  | step id s culling => exact staying (.step id s culling) run
  | cull id => exact staying (.cull id) run
  | collect roots =>
    have run : Grammar.enact fuel (.collect roots) g = .ok ((), g') := run
    refine ⟨[.collect roots], enactAll_singleton run, fun id => ?_⟩
    rw [follow_cons run]
    show ((Deed.collect roots).place g id).bind some = _
    exact Option.bind_fun_some _

theorem operate_induct {op : Operation L}
    (step : ∀ d u g g', P g → Grammar.enact fuel d g = .ok (u, g') → P g') (h : P g)
    (run : Grammar.operate fuel op g = .ok (u, g')) : P g' := by
  obtain ⟨deeds, done, -⟩ := operate_enacts run
  exact enactAll_induct (fun d _ => step d) h done

/-- What each deed keeps of a node, where it puts the node, some operations keep where they put
it. -/
theorem operateAll_follow {Q : Grammar L → NodeId → Prop} {ops : List (Operation L)} {x y : NodeId}
    (step : ∀ d u g g' x y, Q g x → Grammar.enact fuel d g = .ok (u, g') →
      d.place g x = some y → Q g' y) (h : Q g x) (run : Grammar.operateAll fuel ops g = .ok (u, g'))
    (followed : Grammar.follow (Grammar.operate fuel) Operation.place ops g x = some y) :
    Q g' y := by
  induction ops generalizing g x with
  | nil =>
    obtain ⟨-, rfl⟩ := Action.pure_ok.mp run
    cases followed
    exact h
  | cons op rest ih =>
    obtain ⟨_, g₁, first, run⟩ := Action.bind_ok.mp run
    rw [follow_cons first] at followed
    obtain ⟨z, hz, followed⟩ := Option.bind_eq_some_iff.mp followed
    obtain ⟨deeds, done, places⟩ := operate_enacts first
    exact ih (enactAll_follow step h done ((places x).trans hz)) run followed

end Enact

/-! ## Calls that come down to deeds -/

section Calls

variable {L α β : Type} [DecidableEq L] {fuel : Nat} {r r' : Recognizer L}

/-- What the action does to the grammar of a recognizer comes down to deeds. -/
def Recognizing.Enacts (fuel : Nat) (act : Recognizing L α) : Prop :=
  ∀ r a r', act r = .ok (a, r') →
    ∃ deeds, Grammar.enactAll fuel deeds r.grammar = .ok ((), r'.grammar)

/-- So it does, and the start of the recognizer goes where the deeds put it. -/
def Recognizing.Tracks (fuel : Nat) (act : Recognizing L α) : Prop :=
  ∀ r a r', act r = .ok (a, r') →
    ∃ deeds, Grammar.enactAll fuel deeds r.grammar = .ok ((), r'.grammar) ∧
    Grammar.follow (Grammar.enact fuel) Deed.place deeds r.grammar r.start = some r'.start

/-- What was done to the grammar of a recognizer comes down to deeds, its chain went where the deeds
put it, and nodes may have come after it. -/
def Recognizer.Prolongs (fuel : Nat) (r r' : Recognizer L) : Prop :=
  ∃ deeds, Grammar.enactAll fuel deeds r.grammar = .ok ((), r'.grammar) ∧
    r.chain.map (Grammar.follow (Grammar.enact fuel) Deed.place deeds r.grammar)
    <+: r'.chain.map some

/-- The action prolongs the chain of a recognizer, if it does anything to it. -/
def Recognizing.Prolongs (fuel : Nat) (act : Recognizing L α) : Prop :=
  ∀ r a r', act r = .ok (a, r') → r.Prolongs fuel r'

theorem Recognizing.Tracks.enacts {act : Recognizing L α} (h : Recognizing.Tracks fuel act) :
    Recognizing.Enacts fuel act := by
  intro r a r' run
  obtain ⟨deeds, done, -⟩ := h r a r' run
  exact ⟨deeds, done⟩

namespace Recognizer.Prolongs

variable {r₁ : Recognizer L}

theorem of_eq (grammar : r'.grammar = r.grammar) (chain : r'.chain = r.chain) :
    r.Prolongs fuel r' := by
  refine ⟨[], ?_, ?_⟩
  · rw [grammar]
    rfl
  · rw [chain]
    exact List.prefix_rfl

theorem trans (h : r.Prolongs fuel r₁) (h' : r₁.Prolongs fuel r') : r.Prolongs fuel r' := by
  obtain ⟨deeds, done, before⟩ := h
  obtain ⟨deeds', done', before'⟩ := h'
  refine ⟨deeds ++ deeds', enactAll_append.mpr ⟨r₁.grammar, done, done'⟩, ?_⟩
  let later := Grammar.follow (Grammar.enact fuel) Deed.place deeds' r₁.grammar
  calc
    _ = (r.chain.map (Grammar.follow (Grammar.enact fuel) Deed.place deeds r.grammar)).map
      (·.bind later) := by
      rw [List.map_map]
      exact List.map_congr_left fun id _ => follow_append done
    _ <+: (r₁.chain.map some).map (·.bind later) := before.map _
    _ = r₁.chain.map later := by
      rw [List.map_map]
      rfl
    _ <+: r'.chain.map some := before'

end Recognizer.Prolongs

omit [DecidableEq L] in
/-- A collection moves the recognizer to where the deed puts its nodes. -/
theorem Recognizer.exists_of_collect {u : Unit} (run : Recognizer.collect r = .ok (u, r')) :
    ∃ place g', Grammar.collect r.chain r.grammar = .ok (r.chain.map (movedBy place), g') ∧
      place = (Deed.collect r.chain).place r.grammar ∧ r' = r.moved place g' ∧
        ∀ x ∈ r.chain, ∃ y, place x = some y := by
  obtain ⟨r₀, _, got, rest⟩ := Action.bind_ok.mp run
  obtain ⟨rfl, rfl⟩ := Action.get_ok.mp got
  obtain ⟨roots, r₁, first, -⟩ := Action.bind_ok.mp rest
  obtain ⟨g', collected, -⟩ := Recognizer.onGrammar_ok.mp first
  obtain ⟨rfl, has⟩ := collect_roots collected
  cases run.symm.trans (Recognizer.collect_of_ok collected)
  exact ⟨_, g', collected, rfl, rfl, has⟩

namespace Recognizing.Prolongs

variable {act : Recognizing L α} {k : α → Recognizing L β}

theorem pure (a : α) : Recognizing.Prolongs fuel (pure a : Recognizing L α) := by
  intro r b r' run
  obtain ⟨-, rfl⟩ := Action.pure_ok.mp run
  exact .of_eq rfl rfl

theorem get : Recognizing.Prolongs fuel (get : Recognizing L (Recognizer L)) := by
  intro r b r' run
  obtain ⟨-, rfl⟩ := Action.get_ok.mp run
  exact .of_eq rfl rfl

theorem lift (x : Except Error α) : Recognizing.Prolongs fuel (liftM x : Recognizing L α) := by
  intro r a r' run
  obtain ⟨-, rfl⟩ := Action.lift_ok.mp run
  exact .of_eq rfl rfl

theorem bind (first : Recognizing.Prolongs fuel act) (next : ∀ a, Recognizing.Prolongs fuel (k a)) :
    Recognizing.Prolongs fuel (act >>= k) := by
  intro r b r' run
  obtain ⟨a, r₁, run, later⟩ := Action.bind_ok.mp run
  exact (first r a r₁ run).trans (next a r₁ b r' later)

theorem push (s : Symbol L) (next : NodeId) : Recognizing.Prolongs fuel
    (modify fun r => { r with taken := r.taken.push (s, next) } : Recognizing L Unit) := by
  intro r u r' run
  obtain rfl := Action.modify_ok.mp run
  refine ⟨[], rfl, ?_⟩
  have chain : ({ r with taken := r.taken.push (s, next) } : Recognizer L).chain =
      r.chain ++ [next] := by
    simp [Recognizer.chain]
  rw [chain, List.map_append]
  exact List.prefix_append _ _

theorem of_stays {act : Eval L α} (h : DerivativeParsing.Enacts fuel act) :
    Recognizing.Prolongs fuel (Recognizer.onGrammar act) := by
  intro r a r' run
  obtain ⟨g', run', rfl⟩ := Recognizer.onGrammar_ok.mp run
  obtain ⟨deeds, done, stays⟩ := h r.grammar a g' run'
  refine ⟨deeds, done, ?_⟩
  have same : ∀ id ∈ r.chain, Grammar.follow (Grammar.enact fuel) Deed.place deeds r.grammar id =
      some id :=
    fun _ _ => follow_of_stays stays done
  rw [List.map_congr_left same]
  exact List.prefix_rfl

theorem collect : Recognizing.Prolongs fuel (Recognizer.collect : Recognizing L Unit) := by
  intro r u r' run
  obtain ⟨place, g', collected, rfl, rfl, has⟩ := Recognizer.exists_of_collect run
  have enacted : Grammar.enact fuel (.collect r.chain) r.grammar = .ok ((), g') :=
    Action.bind_of_ok collected
  refine ⟨[.collect r.chain], enactAll_singleton enacted, ?_⟩
  have placed : ∀ id ∈ r.chain,
      Grammar.follow (Grammar.enact fuel) Deed.place [.collect r.chain] r.grammar id =
      some (movedBy ((Deed.collect r.chain).place r.grammar) id) := by
    intro id member
    obtain ⟨y, place⟩ := has id member
    rw [follow_cons enacted, place, Grammar.movedBy_of_some place]
    rfl
  rw [List.map_congr_left placed, Recognizer.chain_moved, List.map_map]
  exact List.prefix_rfl

theorem feed (s : Symbol L) : Recognizing.Prolongs fuel (Recognizer.feed fuel s) := by
  refine get.bind fun r => get.bind fun r₁ => ?_
  dsimp only
  split
  · exact pure _
  · refine bind (of_stays (.step r₁.current s r.settings.culling)) fun (next, accepts) => ?_
    refine bind (push s next) fun _ => get.bind fun r₂ => ?_
    refine bind (of_stays (DerivativeParsing.Enacts.get.bind fun _ => .note _)) fun _ => ?_
    refine bind (lift _) fun due => ?_
    split
    · exact collect.bind fun _ => get.bind fun _ => pure _
    · exact get.bind fun _ => pure _

theorem accepted : Recognizing.Prolongs fuel (Recognizer.accepted (L := L) fuel) :=
  get.bind fun r => of_stays (.nullable r.current)

theorem feedAll (symbols : List (Symbol L)) :
    Recognizing.Prolongs fuel (Recognizer.feedAll fuel symbols) := by
  induction symbols with
  | nil => exact pure _
  | cons s rest ih =>
    refine (feed s).bind fun alive => get.bind fun r => ?_
    split
    · exact pure _
    · exact ih

theorem forest : Recognizing.Prolongs fuel (Recognizer.forest (L := L) fuel) :=
  get.bind fun r => get.bind fun r' => of_stays (.forestOfRun r.chain r'.input)

theorem tracks (h : Recognizing.Prolongs fuel act) : Recognizing.Tracks fuel act := by
  intro r a r' run
  obtain ⟨deeds, done, before⟩ := h r a r' run
  exact ⟨deeds, done, (List.cons_prefix_cons.mp before).1⟩

end Recognizing.Prolongs

namespace Recognizing.Tracks

variable {act : Recognizing L α} {k : α → Recognizing L β}

theorem reset : Recognizing.Tracks fuel (Recognizer.reset : Recognizing L Unit) := by
  intro r u r' run
  obtain rfl := Action.modify_ok.mp run
  exact ⟨[], rfl, rfl⟩

theorem bind (first : Recognizing.Tracks fuel act) (next : ∀ a, Recognizing.Tracks fuel (k a)) :
    Recognizing.Tracks fuel (act >>= k) := by
  intro r b r' run
  obtain ⟨a, r₁, run, later⟩ := Action.bind_ok.mp run
  obtain ⟨deeds, done, followed⟩ := first r a r₁ run
  obtain ⟨deeds', done', followed'⟩ := next a r₁ b r' later
  refine ⟨deeds ++ deeds', enactAll_append.mpr ⟨r₁.grammar, done, done'⟩, ?_⟩
  rw [follow_append done, followed]
  exact followed'

theorem recognize (symbols : List (Symbol L)) :
    Recognizing.Tracks fuel (Recognizer.recognize fuel symbols) := by
  refine reset.bind fun _ => Recognizing.Prolongs.tracks ?_
  exact (Recognizing.Prolongs.feedAll symbols).bind fun _ => .bind .get fun _ =>
    Recognizing.Prolongs.accepted.bind fun _ => .pure _

theorem parse (symbols : List (Symbol L)) :
    Recognizing.Tracks fuel (Recognizer.parse fuel symbols) := by
  refine (recognize symbols).bind fun o => Recognizing.Prolongs.tracks ?_
  split
  · exact Recognizing.Prolongs.forest.bind fun _ => .pure _
  · exact .pure _

theorem call (c : Call L) : Recognizing.Tracks fuel (Recognizer.call fuel c) := by
  cases c with
  | feed s => exact ((Recognizing.Prolongs.feed s).bind fun _ => .pure _).tracks
  | accepted => exact (Recognizing.Prolongs.accepted.bind fun _ => .pure _).tracks
  | recognize symbols =>
    exact (recognize symbols).bind fun _ => (Recognizing.Prolongs.pure _).tracks
  | parse symbols => exact (parse symbols).bind fun _ => (Recognizing.Prolongs.pure _).tracks
  | forest => exact (Recognizing.Prolongs.forest.bind fun _ => .pure _).tracks
  | reset => exact reset

theorem callAll (calls : List (Call L)) :
    Recognizing.Tracks fuel (Recognizer.callAll fuel calls) := by
  induction calls with
  | nil => exact (Recognizing.Prolongs.pure _).tracks
  | cons c rest ih => exact (call c).bind fun _ => ih

end Recognizing.Tracks

theorem Recognizing.Enacts.callAll (calls : List (Call L)) :
    Recognizing.Enacts fuel (Recognizer.callAll fuel calls) :=
  (Recognizing.Tracks.callAll calls).enacts

end Calls

end DerivativeParsing
