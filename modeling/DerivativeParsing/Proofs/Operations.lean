import DerivativeParsing.Proofs.Matching
import DerivativeParsing.Proofs.Recognition
import DerivativeParsing.Proofs.Watching

/-!
# Grammars that are worked with

A recognizer asks its grammar in a certain order. Whoever has the grammar itself may ask for
anything at any time.

1. An `Operation` is what may be done to a grammar. `Source.worked` is the grammar of a source after
   some of them; `Source.worked_induct`: what every operation keeps holds of it.
2. `worked_good`: its nodes claim no more than they stand for, and no less as far as rules are
   stored rightly.
3. `nullable_exact`: a node is found to match the empty word exactly if it does, unless rules are
   entangled.
4. `cull_keeps_matches`: culling leaves every node the words that it matched.
-/

namespace DerivativeParsing

/-! ## Operations -/

/-- Something that may be done to a grammar. -/
inductive Operation (L : Type)
  | derive (id : NodeId) (symbol : Symbol L)
  | nullable (id : NodeId)
  | force (id : NodeId)
  | step (id : NodeId) (symbol : Symbol L) (culling : Bool)
  | cull (id : NodeId)
  | collect (roots : List NodeId)

namespace Grammar

variable {L : Type} [DecidableEq L]

/-- Does something and forgets the answer. -/
def operate (fuel : Nat) : Operation L → Eval L Unit
  | .derive id symbol => do let _ ← derive fuel id symbol
  | .nullable id => do let _ ← nullable fuel id
  | .force id => do let _ ← force fuel id
  | .step id symbol culling => do let _ ← step fuel id symbol culling
  | .cull id => do let _ ← cull id
  | .collect roots => do let _ ← collect roots

def operateAll (fuel : Nat) : List (Operation L) → Eval L Unit
  | [] => pure ()
  | op :: rest => do
    operate fuel op
    operateAll fuel rest

end Grammar

def Source.grammar {L : Type} : Source → Except Error (NodeId × Grammar L)
  | plain lang => Grammar.ofLanguage lang
  | ruled rules start => Grammar.ofRules rules start

/-- The grammar of a source after some operations. -/
def Source.worked {L : Type} [DecidableEq L] (source : Source) (fuel : Nat)
    (ops : List (Operation L)) : Except Error (Grammar L) := do
  let (_, g) ← source.grammar
  let (_, g) ← Grammar.operateAll fuel ops g
  return g

/-! ## What holds after any operations -/

section Worked

variable {L : Type} [DecidableEq L] {links : Links} {W : World} {g g' : Grammar L} {source : Source}
  {fuel : Nat} {ops : List (Operation L)} {op : Operation L} {id : NodeId} {u : Unit}
  {P : Grammar L → Prop}

omit [DecidableEq L] in
theorem exists_of_forgotten {α : Type} {act : Eval L α}
    (run : (do let _ ← act : Eval L Unit) g = .ok (u, g')) : ∃ a, act g = .ok (a, g') := by
  obtain ⟨a, g₁, first, run⟩ := Action.bind_ok.mp run
  obtain ⟨-, rfl⟩ := Action.pure_ok.mp run
  exact ⟨a, first⟩

/-- What each of some operations keeps, all of them keep. -/
theorem operateAll_induct
    (step : ∀ op ∈ ops, ∀ u g g', P g → Grammar.operate fuel op g = .ok (u, g') → P g') (h : P g)
    (run : Grammar.operateAll fuel ops g = .ok (u, g')) : P g' := by
  induction ops generalizing g with
  | nil =>
    obtain ⟨-, rfl⟩ := Action.pure_ok.mp run
    exact h
  | cons op rest ih =>
    obtain ⟨_, g₁, first, run⟩ := Action.bind_ok.mp run
    exact ih (fun op member => step op (.tail _ member)) (step op (.head _) _ _ _ h first) run

theorem worked_ok : source.worked fuel ops = .ok g ↔
    ∃ start g₀, source.grammar = .ok (start, g₀) ∧
      Grammar.operateAll fuel ops g₀ = .ok ((), g) := by
  unfold Source.worked
  constructor
  · intro h
    cases built : (source.grammar : Except Error (NodeId × Grammar L)) with
    | error e =>
      rw [built] at h
      cases h
    | ok p =>
      rw [built] at h
      obtain ⟨start, g₀⟩ := p
      cases run : Grammar.operateAll fuel ops g₀ with
      | error e =>
        change (do let (_,
          g) ← Grammar.operateAll fuel ops g₀; return g : Except Error (Grammar L)) = _ at h
        rw [run] at h
        cases h
      | ok q =>
        change (do let (_,
          g) ← Grammar.operateAll fuel ops g₀; return g : Except Error (Grammar L)) = _ at h
        rw [run] at h
        cases h
        exact ⟨start, g₀, rfl, run⟩
  · rintro ⟨start, g₀, built, run⟩
    rw [built]
    show (do let (_, g) ← Grammar.operateAll fuel ops g₀; return g : Except Error (Grammar L)) = _
    rw [run]
    rfl

/-- What holds of the grammar of a source, and what each operation keeps, holds after the
operations. -/
theorem Source.worked_induct (start : ∀ start g, source.grammar = .ok (start, g) → P g)
    (step : ∀ op ∈ ops, ∀ u g g', P g → Grammar.operate fuel op g = .ok (u, g') → P g')
    (history : source.worked fuel ops = .ok g) : P g := by
  obtain ⟨start', g₀, built, run⟩ := worked_ok.mp history
  exact operateAll_induct step (start start' g₀ built) run

/-- What a source is built to claims nothing too much and nothing too little. -/
theorem grammar_founded {start : NodeId} (built : source.grammar = .ok (start, g)) :
    ∃ W, Founded source.links source.origin W g start := by
  cases source with
  | plain lang => exact (ofLanguage_founded built).2
  | ruled rules start' => exact ofRules_founded built

theorem collect_moved {roots roots' : List NodeId} (formed : g.Formed)
    (run : Grammar.collect roots g = .ok (roots', g')) : ∃ place, Grammar.Moved place g g' := by
  obtain ⟨t, reach, -⟩ := Grammar.collect_iff.mp run
  obtain ⟨place, g₁, run', moved, -⟩ := Grammar.collect_ok formed fun x member =>
    Grammar.lt_size_of_reach reach (List.mem_cons_of_mem _ member)
  cases run'.symm.trans run
  exact ⟨place, moved⟩

/-- What an operation does to a grammar between actions: it goes on with it, or moves its nodes. -/
theorem operate_cases (good : Good links W g) (run : Grammar.operate fuel op g = .ok (u, g')) :
    (∃ W', Carries links W g W' g') ∨
      (∃ roots, op = .collect roots) ∧ ∃ place, Grammar.Moved place g g' := by
  have forgets {α : Type} {act : Eval L α} (keeps : Keeps act)
      (run : (do let _ ← act : Eval L Unit) g = .ok (u, g')) : ∃ W', Carries links W g W' g' := by
    obtain ⟨a, first⟩ := exists_of_forgotten run
    exact keeps links W g a g' good first
  cases op with
  | derive id s => exact .inl (forgets (.derive fuel id s) run)
  | nullable id => exact .inl (forgets (.nullable fuel id) run)
  | force id => exact .inl (forgets (.force fuel id) run)
  | step id s culling => exact .inl (forgets (.step fuel id s culling) run)
  | cull id => exact .inl (forgets (Mirrors.cull id).keeps run)
  | collect roots =>
    obtain ⟨roots', first⟩ := exists_of_forgotten run
    exact .inr ⟨⟨roots, rfl⟩, collect_moved good.formed first⟩

/-- After any operations the nodes claim no more than they stand for. They claim no less, as far as
rules are stored rightly; but where rules are entangled, a collection may drop one that is stored
wrongly. -/
theorem worked_good (history : source.worked fuel ops = .ok g) :
    ∃ W, Good source.links W g ∧
      ((∀ roots, .collect roots ∉ ops) ∨ ¬source.links.Entangled → Trusting source.links W g) := by
  refine Source.worked_induct (P := fun g => ∃ W, Good source.links W g ∧
    ((∀ roots, .collect roots ∉ ops) ∨ ¬source.links.Entangled → Trusting source.links W g))
    (fun start g built => ?_) (fun op member u g g' h run => ?_) history
  · obtain ⟨W, founded⟩ := grammar_founded built
    exact ⟨W, founded.good, fun _ k _ => founded.complete k⟩
  · obtain ⟨W, good, trusting⟩ := h
    rcases operate_cases good run with ⟨W', carries⟩ | ⟨⟨roots, rfl⟩, place, moved⟩
    · exact ⟨W', carries.good, fun calm => carries.trusting (trusting calm)⟩
    · refine ⟨W.renamed place, moved.good good, fun calm k _ => ?_⟩
      have untangled := calm.resolve_left fun none => none roots member
      exact moved.complete ((trusting (.inr untangled)).complete (Trust.of_untangled untangled) k)

theorem worked_proper (history : source.worked fuel ops = .ok g) : g.Proper := by
  refine (Source.worked_induct (P := fun g => (∃ W, Good source.links W g) ∧ g.Proper)
    (fun start g built => ?_)
    (fun op _ u g g' h run => ?_) history).2
  · obtain ⟨W, founded⟩ := grammar_founded built
    exact ⟨⟨W, founded.good⟩, founded.proper⟩
  · obtain ⟨⟨W, good⟩, proper⟩ := h
    rcases operate_cases good run with ⟨W', carries⟩ | ⟨-, place, moved⟩
    · exact ⟨⟨W', carries.good⟩, carries.proper proper⟩
    · exact ⟨⟨_, moved.good good⟩, moved.proper proper⟩

end Worked

/-! ## Nullability -/

section Nullable

variable {L : Type} [DecidableEq L] {source : Source} {fuel : Nat} {ops : List (Operation L)}
  {g : Grammar L} {id : NodeId}

/-- Whether a node matches the empty word is answered, given enough fuel, and rightly unless rules
are entangled. If nothing was collected, then one of them is stored wrongly. -/
theorem nullable_exact (history : source.worked fuel ops = .ok g) (lt : id < g.size) :
    ∃ answer g', Answers (fun fuel => Grammar.nullable fuel id) g (answer, g') ∧
      ((answer = true ↔ g.Matches id []) ∨
        source.links.Entangled ∧ ((∀ roots, .collect roots ∉ ops) → g'.Misled)) := by
  obtain ⟨W, good, trusting⟩ := worked_good history
  obtain ⟨answer, g', N, run⟩ := exists_nullable good lt
  obtain ⟨W', evaluated⟩ := Grammar.evaluates_of_nullable W (run N (Nat.le_refl N))
  have carries := evaluated.carries good
  have same : W' id = W id := carries.world id lt
  refine ⟨answer, g', ⟨N, run⟩, ?_⟩
  -- the answer is right where rules are stored rightly
  have right (trusting : Trusting source.links W g) (trust : Trust source.links W' g') :
      answer = true ↔ g.Matches id [] := by
    constructor
    · intro yes
      obtain ⟨n, holds⟩ := (evaluated.sound good.formed good.sound).2 yes
      rw [same] at holds
      have complete := trusting.complete (carries.trust trust) (W.level id)
      exact complete.matches good.formed good.sound lt (Nat.le_refl _) holds
    · intro matched
      refine evaluated.truth good trusting trust ?_
      rw [same]
      exact matched.holds good.sound
  by_cases tangled : source.links.Entangled
  · by_cases calm : ∀ roots, .collect roots ∉ ops
    · have trusting := trusting (.inl calm)
      by_cases misled : g'.Misled
      · exact .inr ⟨tangled, fun _ => misled⟩
      · exact .inl (right trusting ((carries.trusting trusting).trust carries.good misled))
    · exact .inr ⟨tangled, fun none => absurd none calm⟩
  · exact .inl (right (trusting (.inr tangled)) (.of_untangled tangled))

theorem exists_worked {p : Grammar L → Bool}
    (worked : (source.worked fuel ops).toOption.any p = true) :
    ∃ g, source.worked fuel ops = .ok g ∧ p g = true := exists_of_any worked

/-- Derivatives of a start, culled, with a collection at the end. -/
def chores : List (Operation String) :=
  [.derive 1 ⟨2, "a"⟩, .step 1 ⟨2, "b"⟩ true, .nullable 5, .force 6, .cull 1, .collect [1, 7]]

theorem leftRecursive_worked :
    ∃ g : Grammar String, leftRecursive.worked 30 chores = .ok g ∧ 6 < g.size := by
  obtain ⟨g, history, lt⟩ := exists_worked (show
    ((leftRecursive.worked 30 chores).toOption.any fun g => decide (6 < g.size)) =
    true by decide +kernel)
  exact ⟨g, history, of_decide_eq_true lt⟩

theorem nullable_exact_leftRecursive :
    ∃ g : Grammar String, leftRecursive.worked 30 chores = .ok g ∧ 6 < g.size ∧
    ∃ answer g', Answers (fun fuel => Grammar.nullable fuel 6) g (answer, g') ∧
      ((answer = true ↔ g.Matches 6 []) ∨
        leftRecursive.links.Entangled ∧ ((∀ roots, .collect roots ∉ chores) → g'.Misled)) := by
  obtain ⟨g, history, lt⟩ := leftRecursive_worked
  exact ⟨g, history, lt, nullable_exact history lt⟩

/-- The second of two rules that stand for one another is first asked for the sake of the first,
which may be empty. What it answers meanwhile is kept. -/
theorem nullable_misses_forked : ∃ g g' : Grammar String, forked.worked 30 [.nullable 2] = .ok g ∧
    Answers (fun fuel => Grammar.nullable fuel 3) g (false, g') ∧ g.Matches 3 [] := by
  obtain ⟨g, history, facts⟩ := exists_worked (L := String) (show
    ((forked.worked 30 [.nullable 2]).toOption.any fun g => decide
      ((Grammar.nullable 30 3 g).toOption.map Prod.fst = some false ∧
        g.arena.get? 3 = some (.rule { name := "B", fixpoint := .done false } 2) ∧
        g.arena.get? 2 = some (.rule { name := "A", fixpoint := .done true } 12) ∧
        g.arena.get? 12 = some (.alt 3 11) ∧ g.arena.get? 11 = some (.token Kind.epsilon)))
      = true by
      decide +kernel)
  obtain ⟨answered, second, first, choice, empty⟩ := of_decide_eq_true facts
  have matched : g.Matches 3 [] := .rule second (.rule first (.alt_right choice (.epsilon empty)))
  cases run : Grammar.nullable 30 3 g with
  | error e =>
    rw [run] at answered
    cases answered
  | ok p =>
    obtain ⟨answer, g'⟩ := p
    rw [run] at answered
    cases answered
    exact ⟨g, g', history, nullable_answers run, matched⟩

end Nullable

/-! ## Culling -/

section Cull

variable {L : Type} [DecidableEq L] {source : Source} {fuel : Nat} {ops : List (Operation L)}
  {g : Grammar L} {id : NodeId}

/-- Culling always answers. What it leaves of a node matches what the node matched, it leaves
nothing only of what matched nothing, and every node of the grammar matches the words that it
matched before. -/
theorem cull_keeps_matches (history : source.worked fuel ops = .ok g) (lt : id < g.size) :
    ∃ result g', Grammar.cull id g = .ok (result, g') ∧
      (∀ next, result = some next → ∀ w, g'.Matches next w ↔ g.Matches id w) ∧
      (result = none → ∀ w, ¬g.Matches id w) ∧ ∀ x w, g'.Matches x w ↔ g.Matches x w := by
  obtain ⟨W, good, -⟩ := worked_good history
  obtain ⟨_, result, _, g', run, -⟩ := cull_trims good lt
  obtain ⟨shrinking, remains⟩ := cull_shrinks (good.formed.ranged false) lt run
  obtain ⟨left, nothing⟩ := remains.matches good.formed
  have same (x : NodeId) (w : Word) : g'.Matches x w ↔ g.Matches x w :=
    shrinking.matches_iff good.formed
  exact ⟨result, g', run, fun next hn w => (same next w).trans (left next hn w), nothing, same⟩

theorem cull_keeps_matches_leftRecursive :
    ∃ g : Grammar String, leftRecursive.worked 30 chores = .ok g ∧ 6 < g.size ∧
    ∃ result g', Grammar.cull 6 g = .ok (result, g') ∧
      (∀ next, result = some next → ∀ w, g'.Matches next w ↔ g.Matches 6 w) ∧
      (result = none → ∀ w, ¬g.Matches 6 w) ∧ ∀ x w, g'.Matches x w ↔ g.Matches x w := by
  obtain ⟨g, history, lt⟩ := leftRecursive_worked
  exact ⟨g, history, lt, cull_keeps_matches history lt⟩

end Cull

end DerivativeParsing
