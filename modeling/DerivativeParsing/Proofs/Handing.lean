import DerivativeParsing.Proofs.Compacting

/-!
# Culling what was handed out

Whoever works with a grammar has the names that it handed out: the start that was built, and what
was answered since. None of them names a thunk, so no culling of one of them begins at a thunk that
another left.

1. `cullNode_idles`: culling what is compact changes nothing. `cull_idle`: so it is with the graph
   under a node.
2. `Source.Handed`: the names that are handed out for a source. `Handed.warrants` is what holds of
   them at any time.
3. `cull_idempotent`: culling leaves what is compact of a node that was handed out, and culling that
   again changes nothing.
-/

namespace DerivativeParsing

open Grammar (nothing lt_size_of_get?)

/-! ## Culling what is compact -/

section Idle

variable {L : Type} {g g' : Grammar L} {F F' : Std.TreeMap NodeId (Option NodeId)}
  {V : NodeId → Prop} {live : Std.TreeSet NodeId} {fuel : Nat} {id : NodeId} {node : Node L}
  {result : Option NodeId}

theorem Grammar.revised_self (there : g.arena.get? id = some node) :
    g.revised id (fun _ => node) = g := by
  suffices arena :
    (g.revised id fun _ => node).arena = g.arena from congrArg (fun arena => { g with arena }) arena
  refine Arena.ext_get? fun x => ?_
  rw [get?_revised]
  split
  · rename_i here
    subst here
    rw [there]
    rfl
  · rfl

/-- A rule that was opened and is released with the body that it had is the rule that it was. -/
theorem Grammar.released_opened {r : Rule} {body : NodeId}
    (there : g.arena.get? id = some (.rule r body)) (idle : r.busy = false) :
    (g.opened id).released id body = g := by
  suffices arena : ((g.opened id).released id body).arena = g.arena from
    congrArg (fun arena => { g with arena }) arena
  refine Arena.ext_get? fun x => ?_
  rw [get?_released (by rw [get?_opened there, if_pos rfl]), get?_opened there]
  split
  · rename_i here
    subst here
    obtain ⟨name, memo, fixpoint, busy⟩ := r
    cases idle
    exact there.symm
  · rfl

def Fixed (F : Std.TreeMap NodeId (Option NodeId)) : Prop :=
  ∀ (x : NodeId) r, F[x]? = some r → some x = r

/-- Culling with so much fuel changes nothing in what is compact. -/
def Idles (L : Type) (V : NodeId → Prop) (live : Std.TreeSet NodeId) (fuel : Nat) : Prop :=
  ∀ (id : NodeId) F (g : Grammar L) r F' g', V id → g.Compact V → Fixed F →
    Grammar.cullNode live fuel id F g = .ok ((r, F'), g') → some id = r ∧ g = g' ∧ Fixed F'

theorem Fixed.finish (fixed : Fixed F)
    (run : Grammar.finishCull id (some id) F g = .ok ((result, F'), g')) :
    some id = result ∧ g = g' ∧ Fixed F' := by
  cases run
  exact ⟨rfl, rfl, Culling.forall_insert rfl fixed⟩

theorem Grammar.Compact.opened {r : Rule} {body : NodeId} (h : g.Compact V)
    (there : g.arena.get? id = some (.rule r body)) : (g.opened id).Compact V where
  productive x hx := (h.productive x hx).shrunk ((Shrinking.start g).marked there true) (.refl x)
  waiting x t base hx there' := by
    rw [Grammar.get?_opened there] at there'
    split at there'
    · cases there'
    · exact h.waiting x t base hx there'
  leads x node hx there' := by
    rw [Grammar.get?_opened there] at there'
    split at there'
    · rename_i same
      subst same
      cases there'
      exact (h.leads id _ hx there).imp nofun fun leads => leads
    · exact h.leads x node hx there'

/-- Culling a node of what is compact, if culling the nodes below it changes nothing. -/
theorem idle_trim (ih : Idles L V live fuel) (member : V id) (compact : g.Compact V)
    (fixed : Fixed F) (there : g.arena.get? id = some node)
    (run : Grammar.trim (Grammar.cullNode live fuel) id node F g = .ok ((result, F'), g')) :
    some id = result ∧ g = g' ∧ Fixed F' := by
  have leads := compact.leads id node member there
  have stored := Grammar.revised_self there
  cases node with
  | empty => exact ((Grammar.productive_iff there).mp (compact.productive id member)).elim
  | token | matched | undefined => exact fixed.finish run
  | alt left right | cat left right =>
    have leads := leads.resolve_left nofun
    obtain ⟨l, F₁, g₁, run₁, run⟩ := Culling.bind_ok.mp run
    obtain ⟨rfl, rfl, fixed₁⟩ := ih left F g l F₁ g₁ (leads left (.head _)) compact fixed run₁
    obtain ⟨r, F₂, g₂, run₂, run⟩ := Culling.bind_ok.mp run
    obtain ⟨rfl, rfl, fixed₂⟩ :=
      ih right F₁ g r F₂ g₂ (leads right (.tail _ (.head _))) compact fixed₁ run₂
    have run := Grammar.store_bind.symm.trans run
    rw [stored] at run
    exact fixed₂.finish run
  | rep body =>
    unfold Grammar.trim at run
    dsimp only at run
    split at run
    · rename_i alive
      have leads := leads.resolve_left fun same => by cases same; exact absurd alive (by simp)
      obtain ⟨b, F₁, g₁, run₁, run⟩ := Culling.bind_ok.mp run
      obtain ⟨rfl, rfl, fixed₁⟩ := ih body F g b F₁ g₁ (leads body (.head _)) compact fixed run₁
      have run := Grammar.store_bind.symm.trans run
      rw [Option.getD_some, stored] at run
      exact fixed₁.finish run
    · exact fixed.finish run
  | rule r body =>
    have leads := leads.resolve_left nofun
    unfold Grammar.trim at run
    dsimp only at run
    split at run
    · cases run
      exact ⟨rfl, rfl, fixed⟩
    · rename_i idle
      have run := Grammar.revise_bind.symm.trans run
      obtain ⟨b, F₁, g₁, run₁, run⟩ := Culling.bind_ok.mp run
      obtain ⟨rfl, rfl, fixed₁⟩ :=
        ih body F (g.opened id) b F₁ g₁ (leads body (.head _)) (compact.opened there) fixed run₁
      have run := Grammar.revise_bind.symm.trans run
      have run : Grammar.finishCull id (some id) F₁ ((g.opened id).released id body) = _ :=
        Grammar.revise_bind.symm.trans run
      rw [Grammar.released_opened there (Bool.eq_false_iff.mpr idle)] at run
      exact fixed₁.finish run
  | thunk t base =>
    have waiting := compact.waiting id t base member there
    obtain ⟨s, state⟩ := t
    cases state with
    | pending | running => exact fixed.finish run
    | forced | culled => cases waiting

theorem cullNode_idles (alive : ∀ x, V x → live.contains x) (fuel : Nat) : Idles L V live fuel := by
  induction fuel with
  | zero => exact fun _ _ _ _ _ _ _ _ _ run => by cases run
  | succ fuel ih =>
    intro id F g r F' g' member compact fixed run
    cases done : F[id]? with
    | some result =>
      cases (Grammar.cullNode_finished done).symm.trans run
      exact ⟨fixed id _ done, rfl, fixed⟩
    | none =>
      obtain ⟨node, there⟩ := Grammar.exists_of_cullNode done run
      rw [Grammar.cullNode_new done there, if_pos (alive id member)] at run
      exact idle_trim ih member compact fixed there run

variable [DecidableEq L] {links : Links} {W : World}

/-- Culling the graph under a node of what is compact changes nothing. -/
theorem cull_idle (good : Good links W g) (lt : id < g.size) (compact : g.Compact V)
    (member : V id) : Grammar.cull id g = .ok (some id, g) := by
  obtain ⟨_, result, _, g', run, -⟩ := cull_trims good lt
  obtain ⟨order, ordered, mem, closed⟩ := Grammar.settledOrder_ok (good.formed.ranged false) lt
  obtain ⟨F', culled⟩ := (Grammar.cull_iff ordered).mp run
  have alive (x : NodeId) (hx : V x ∧ x ∈ order) : (g.productive order).contains x :=
    (compact.productive x hx.1).live closed hx.2
  obtain ⟨rfl, rfl, -⟩ := cullNode_idles alive _ id {} g result F' g' ⟨member, mem⟩
    (compact.within (.start g) closed) (fun x r done => by simp at done) culled
  exact run

/-- Culling the node that matches nothing changes nothing, and does not count it. -/
theorem cull_nothing (good : Good links W g) : Grammar.cull nothing g = .ok (none, g) := by
  have first := good.formed.nothing
  obtain ⟨order, ordered, -⟩ :=
    Grammar.settledOrder_ok (good.formed.ranged false) (lt_size_of_get? first)
  refine (Grammar.cull_iff ordered).mpr
    ⟨({} : Std.TreeMap NodeId (Option NodeId)).insert nothing none, ?_⟩
  show Grammar.cullNode _ ((order.length + 1) * order.length + order.length + 1) nothing {} g = _
  rw [Grammar.cullNode_new (by simp) first]
  split <;> rfl

omit [DecidableEq L] in
/-- What is compact reaches only what belongs to it, unless it repeats nothing. -/
theorem Grammar.Compact.reaches {x y : NodeId} (h : g.Compact V)
    (first : g.arena.get? nothing = some .empty) (member : V x) (reaches : g.Reaches false x y) :
    V y ∨ y = nothing ∧ ∃ z, g.Reaches false x z ∧ g.arena.get? z = some (.rep nothing) := by
  induction reaches with
  | refl => exact .inl member
  | @tail z y node reaches there part ih =>
    rcases ih with hz | ⟨rfl, -⟩
    · rcases h.leads z node hz there with rfl | leads
      · exact .inr ⟨List.mem_singleton.mp part, z, reaches, there⟩
      · exact .inl (leads y part)
    · cases Option.some.inj (there.symm.trans first)
      cases part

end Idle

/-! ## Names that are handed out -/

/-- The states of a grammar of a source between calls, with the names that were handed out and are
still in use. After a collection only the new names of its roots are. -/
inductive Source.Handed {L : Type} [DecidableEq L] (source : Source) :
    Grammar L → List NodeId → Prop
  | built {start : NodeId} {g : Grammar L} :
    source.grammar = .ok (start, g) → Handed source g [start]
  | derive {g g' : Grammar L} {known : List NodeId} {fuel : Nat} {id next : NodeId}
    {symbol : Symbol L} :
    Handed source g known → id ∈ known → Grammar.derive fuel id symbol g = .ok (next, g') →
      Handed source g' (next :: known)
  | nullable {g g' : Grammar L} {known : List NodeId} {fuel : Nat} {id : NodeId} {answer : Bool} :
    Handed source g known → id ∈ known → Grammar.nullable fuel id g = .ok (answer, g') →
      Handed source g' known
  | step {g g' : Grammar L} {known : List NodeId} {fuel : Nat} {id next : NodeId}
    {symbol : Symbol L}
    {culling accepts : Bool} :
    Handed source g known → id ∈ known →
      Grammar.step fuel id symbol culling g = .ok ((next, accepts), g') →
      Handed source g' (next :: known)
  | cull {g g' : Grammar L} {known : List NodeId} {id : NodeId} {result : Option NodeId} :
    Handed source g known → id ∈ known → Grammar.cull id g = .ok (result, g') →
      Handed source g' (result.getD nothing :: known)
  | collect {g g' : Grammar L} {known roots roots' : List NodeId} :
    Handed source g known → (∀ root ∈ roots, root ∈ known) →
      Grammar.collect roots g = .ok (roots', g') → Handed source g' roots'

/-- What holds between calls: the names that are in use name no thunks, and a thunk is led to only
by the rule that was made with it. -/
structure Grammar.Warrants {L : Type} [DecidableEq L] (links : Links) (g : Grammar L)
    (known : List NodeId) : Prop where
  between : g.Between links
  owned : g.Owned
  solid : ∀ id ∈ known, g.Solid id

section Handed

variable {L : Type} [DecidableEq L] {links : Links} {W W' : World} {g g' : Grammar L}
  {known roots roots' : List NodeId} {id next : NodeId} {symbol : Symbol L} {culling answer : Bool}
  {fuel : Nat} {result : Option NodeId} {source : Source}

namespace Grammar.Warrants

theorem cons (h : g.Warrants links known) (solid : g.Solid id) :
    g.Warrants links (id :: known) where
  between := h.between
  owned := h.owned
  solid x member := by
    rcases List.mem_cons.mp member with rfl | member
    · exact solid
    · exact h.solid x member

theorem mono (h : g.Warrants links known) (fewer : roots ⊆ known) : g.Warrants links roots :=
  ⟨h.between, h.owned, fun id member => h.solid id (fewer member)⟩

/-- It holds as long as the nodes stay the same, and what is remembered is kept or dropped. -/
theorem stays (h : g.Warrants links known) (arena : g'.arena = g.arena)
    (memo : g'.memo = g.memo ∨ g'.memo = {}) (stats : g'.stats = g.stats) :
    g'.Warrants links known where
  between := by
    obtain ⟨⟨W, good⟩, unculled⟩ := h.between
    have turns : Turns W g false some g' := .stays arena memo stats
    exact turns.between good unculled
  owned := h.owned.of_eq arena
  solid id member := by
    obtain ⟨node, there, plain⟩ := h.solid id member
    exact ⟨node, arena ▸ there, plain⟩

theorem forgotten (h : g.Warrants links known) : g.forgotten.Warrants links known :=
  h.stays rfl (.inr rfl) rfl

theorem noted (h : g.Warrants links known) (event : Event) : (g.noted event).Warrants links known :=
  h.stays rfl (.inl rfl) rfl

theorem evaluated {q : Question L} {a : Reply} (h : g.Warrants links known) (good : Good links W g)
    (evaluated : Evaluates W g q a W' g') : g'.Warrants links known where
  between := (Turns.evaluates evaluated).between good h.between.2
  owned := evaluated.owned h.owned
  solid id member := (h.solid id member).extended evaluated.extension

theorem derive (h : g.Warrants links known)
    (run : Grammar.derive fuel id symbol g = .ok (next, g')) :
    g'.Warrants links (next :: known) := by
  obtain ⟨W, good⟩ := h.between.1
  obtain ⟨W', evaluated⟩ := Grammar.evaluates_of_derive W run
  exact (h.evaluated good evaluated).cons (evaluated.formed good.formed).2

theorem nullable (h : g.Warrants links known)
    (run : Grammar.nullable fuel id g = .ok (answer, g')) : g'.Warrants links known := by
  obtain ⟨W, good⟩ := h.between.1
  obtain ⟨W', evaluated⟩ := Grammar.evaluates_of_nullable W run
  exact h.evaluated good evaluated

theorem cull (h : g.Warrants links known) (solid : g.Solid id)
    (run : Grammar.cull id g = .ok (result, g')) :
    g'.Warrants links (result.getD nothing :: known) := by
  obtain ⟨⟨W, good⟩, unculled⟩ := h.between
  have between := (Turns.culls run).between good unculled
  obtain ⟨culled, remains⟩ := cull_shrinks (good.formed.ranged false) solid.lt_size run
  refine Warrants.cons
    ⟨between, (cull_compacts h.between h.owned solid run).1, fun x member => ?_⟩ ?_
  · exact culled.solid_iff.mpr (h.solid x member)
  · cases result with
    | none =>
      obtain ⟨W', good'⟩ := between.1
      exact good'.formed.solid_nothing
    | some y => exact culled.solid_iff.mpr (solid.shrinks remains good.formed)

theorem step (h : g.Warrants links known)
    (run : Grammar.step fuel id symbol culling g = .ok ((next, answer), g')) :
    g'.Warrants links (next :: known) := by
  obtain ⟨d, g₁, g₂, derived, settled, trimmed⟩ := Grammar.step_ok.mp run
  have warrants₂ := (h.forgotten.derive derived).nullable settled
  cases culling with
  | false =>
    obtain ⟨rfl, rfl⟩ := trimmed_false trimmed
    exact warrants₂
  | true =>
    obtain ⟨result, g₃, culled, run⟩ := Action.bind_ok.mp trimmed
    obtain ⟨rfl, rfl⟩ := Action.pure_ok.mp run
    have warrants₃ := warrants₂.cull (warrants₂.solid d (.head _)) culled
    exact warrants₃.mono (List.cons_subset_cons _ (List.subset_cons_self d known))

theorem collect (h : g.Warrants links known) (among : ∀ root ∈ roots, root ∈ known)
    (run : Grammar.collect roots g = .ok (roots', g')) : g'.Warrants links roots' := by
  obtain ⟨⟨W, good⟩, unculled⟩ := h.between
  obtain ⟨place, g₁, run', moved, has⟩ := Grammar.collect_ok good.formed fun root member =>
    (h.solid root (among root member)).lt_size
  cases run'.symm.trans run
  refine ⟨(Turns.collects run moved).between good unculled, h.owned.moved moved, fun x member => ?_⟩
  obtain ⟨root, hr, rfl⟩ := List.mem_map.mp member
  obtain ⟨y, hy⟩ := has root hr
  rw [Grammar.movedBy_of_some hy]
  exact moved.solid hy (h.solid root (among root hr))

end Grammar.Warrants

theorem Founded.warrants {origin : Meaning} {start : NodeId}
    (founded : Founded links origin W g start) : g.Warrants links [start] where
  between := founded.between
  owned := by
    refine ⟨fun x r body there => founded.good.formed.ranged false x _ there body (.head _), ?_⟩
    exact fun x r body t base _ below => (founded.fresh body _ below).elim
  solid id member := by
    obtain rfl := List.mem_singleton.mp member
    obtain ⟨node, there⟩ := Grammar.exists_get? founded.range
    exact ⟨node, there, (founded.fresh id node there).not_isThunk⟩

theorem Source.Handed.warrants (handed : source.Handed g known) :
    g.Warrants source.links known := by
  induction handed with
  | built built =>
    obtain ⟨W, founded⟩ := grammar_founded built
    exact founded.warrants
  | derive _ _ run ih => exact ih.derive run
  | nullable _ _ run ih => exact ih.nullable run
  | step _ _ run ih => exact ih.step run
  | cull _ member run ih => exact ih.cull (ih.solid _ member) run
  | collect _ among run ih => exact ih.collect among run

/-- Culling a node whose name was handed out always answers, and what it leaves is compact. Whatever
that reaches without going through a thunk that was not evaluated, the node reached before; it is no
thunk that was evaluated; and it matches something. The node that matches nothing is excepted, where
nothing is left or where nothing is repeated. Culling what is left answers the same, and changes
nothing. -/
theorem cull_idempotent (handed : source.Handed g known) (member : id ∈ known) :
    ∃ result g', Grammar.cull id g = .ok (result, g') ∧
      (∀ x, g'.Reaches false (result.getD nothing) x →
        (∀ t base, g'.arena.get? x = some (.thunk t base) → t.state.isWaiting) ∧
          (g.Reaches false id x ∧ g'.Productive x ∨ x = nothing ∧ (result = none ∨
            ∃ y, g'.Reaches false (result.getD nothing) y ∧
              g'.arena.get? y = some (.rep nothing)))) ∧
      Grammar.cull (result.getD nothing) g' = .ok (result, g') := by
  have warrants := handed.warrants
  have solid := warrants.solid id member
  obtain ⟨W, good⟩ := warrants.between.1
  obtain ⟨_, result, _, g', run, -⟩ := cull_trims good solid.lt_size
  have warrants' := warrants.cull solid run
  obtain ⟨W', good'⟩ := warrants'.between.1
  have first := good'.formed.nothing
  obtain ⟨-, V, compact, before, left⟩ := cull_compacts warrants.between warrants.owned solid run
  refine ⟨result, g', run, ?_⟩
  cases result with
  | none =>
    refine ⟨fun x reaches => ?_, cull_nothing good'⟩
    obtain rfl := (Grammar.reaches_nothing first).mp reaches
    refine ⟨fun t base there => ?_, .inr ⟨rfl, .inl rfl⟩⟩
    cases there.symm.trans first
  | some y =>
    have lt := (warrants'.solid y (.head _)).lt_size
    refine ⟨fun x reaches => ?_, cull_idle good' lt compact (left y rfl)⟩
    rcases compact.reaches first (left y rfl) reaches with hx | ⟨rfl, z, repeats, there⟩
    · exact ⟨fun t base there => compact.waiting x t base hx there,
        .inl ⟨before x hx, compact.productive x hx⟩⟩
    · refine ⟨fun t base there => ?_, .inr ⟨rfl, .inr ⟨z, repeats, there⟩⟩⟩
      cases there.symm.trans first

/-- The name that was answered last names a node that was not culled before. -/
theorem cull_idempotent_leftRecursive :
    ∃ g : Grammar String, leftRecursive.Handed g [12, 7, 1] ∧ 12 ∈ [12, 7, 1] ∧
    ∃ result g', Grammar.cull 12 g = .ok (result, g') ∧
      (∀ x, g'.Reaches false (result.getD nothing) x →
        (∀ t base, g'.arena.get? x = some (.thunk t base) → t.state.isWaiting) ∧
          (g.Reaches false 12 x ∧ g'.Productive x ∨ x = nothing ∧ (result = none ∨
            ∃ y, g'.Reaches false (result.getD nothing) y ∧
              g'.arena.get? y = some (.rep nothing)))) ∧
      Grammar.cull (result.getD nothing) g' = .ok (result, g') := by
  obtain ⟨⟨start, g₀⟩, built, first⟩ := exists_of_any (show
    ((leftRecursive.grammar : Except Error (NodeId × Grammar String)).toOption.any fun p =>
      p.1 == 1 && (Grammar.step 30 p.1 ⟨2, "a"⟩ true p.2).toOption.any fun q => q.1.1 == 7 &&
        (Grammar.step 30 q.1.1 ⟨2, "b"⟩ false q.2).toOption.any fun r => r.1.1 == 12) =
        true by decide +kernel)
  obtain ⟨here, first⟩ := Bool.and_eq_true_iff.mp first
  obtain rfl := eq_of_beq here
  obtain ⟨⟨⟨next, _⟩, g₁⟩, once, second⟩ := exists_of_any first
  obtain ⟨here, second⟩ := Bool.and_eq_true_iff.mp second
  obtain rfl := eq_of_beq here
  obtain ⟨⟨⟨last, _⟩, g₂⟩, twice, third⟩ := exists_of_any second
  obtain rfl := eq_of_beq third
  have handed : leftRecursive.Handed g₂ [12, 7, 1] :=
    .step (.step (.built built) (.head _) once) (.head _) twice
  exact ⟨g₂, handed, .head _, cull_idempotent handed (.head _)⟩

/-- Where what is repeated is dead, culling leads the repetition to the node that matches nothing,
which it did not reach before. -/
theorem cull_reaches_nothing :
    ∃ g g' : Grammar String, (Source.plain (.rep (.token Kind.void))).Handed g [2] ∧
    Grammar.cull 2 g = .ok (some 2, g') ∧ g'.Reaches false 2 nothing ∧
      ∀ throughPending, ¬g.Reaches throughPending 2 nothing := by
  obtain ⟨⟨start, g⟩, built, facts⟩ := exists_of_any (show
    (((Source.plain (.rep (.token Kind.void))).grammar : Except Error
      (NodeId × Grammar String)).toOption.any fun p =>
      (Grammar.cull p.1 p.2).toOption.any fun q =>
        decide (p.1 = 2 ∧ p.2.arena.get? 1 = some (.token Kind.void) ∧
          p.2.arena.get? 2 = some (.rep 1) ∧ q.1 = some 2 ∧
          q.2.arena.get? 2 = some (.rep nothing))) = true by
      decide +kernel)
  obtain ⟨⟨result, g'⟩, run, facts⟩ := exists_of_any facts
  obtain ⟨rfl, dead, repeats, rfl, left⟩ := of_decide_eq_true facts
  refine ⟨g, g', .built built, run,
    .tail (.refl 2) left (.head _), fun throughPending reaches => ?_⟩
  have closed : g.Closed throughPending fun x => x = 2 ∨ x = 1 := by
    refine ⟨fun x hx => ?_, fun x node hx there y member => ?_⟩
    · rcases hx with rfl | rfl
      · exact lt_size_of_get? repeats
      · exact lt_size_of_get? dead
    · rcases hx with rfl | rfl
      · cases Option.some.inj (there.symm.trans repeats)
        exact .inr (List.mem_singleton.mp member)
      · cases Option.some.inj (there.symm.trans dead)
        cases member
  rcases closed.reaches (.inl rfl) reaches with same | same <;> cases same

end Handed

end DerivativeParsing
