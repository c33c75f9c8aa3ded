import DerivativeParsing.Proofs.Completeness
import DerivativeParsing.Proofs.Probing
import DerivativeParsing.Proofs.Sparing
import DerivativeParsing.Proofs.Tally

/-!
# Grammars between actions

Between actions nothing is under way in a grammar, its nodes claim no more than they stand for
(`Good`), and they claim no less up to a level as long as rules are stored rightly up to there
(`Trusting`). So it is the rules stored as not matching the empty word that completeness rests on.

1. `Complete.matches`: what a node stands for, it matches, if the graph is complete up to its level.
2. `Trusting.trust`: if no rule is stored as not matching the empty word that it matches, then rules
   are stored rightly. The proof goes up from level to level.
3. `Carries` says what an action does to a grammar between actions, and `Evaluates.carries` that
   every question does so.
-/

namespace DerivativeParsing

open Grammar (lt_size_of_get?)

/-! ## What is stored wrongly -/

/-- Whether a rule is stored as not matching the empty word, though it matches it. -/
def Grammar.Misled {L : Type} (g : Grammar L) : Prop :=
  ∃ (id : Nat) (r : Rule) (body : NodeId), g.arena.get? id = some (.rule r body) ∧
    r.fixpoint = .done false ∧ g.Matches id []

/-- No rules, thunks or nonterminals without a body. -/
def Grammar.Regular {L : Type} (g : Grammar L) : Prop :=
  ∀ (id : Nat) node, g.arena.get? id = some node → node.isFixed ∧ ∀ name, node ≠ .undefined name

/-- A grammar between actions that claims nothing too much. -/
structure Good {L : Type} [DecidableEq L] (links : Links) (W : World) (g : Grammar L) : Prop where
  formed : g.Formed
  sound : Sound links W g
  quiet : g.Quiet

/-- All rules are stored rightly, as far as it matters. -/
def Trust {L : Type} (links : Links) (W : World) (g : Grammar L) : Prop :=
  links.Entangled → ∀ k, Right W g k

/-- It does not matter if no rules are entangled. -/
theorem Trust.of_untangled {L : Type} {links : Links} {W : World} {g : Grammar L}
    (untangled : ¬links.Entangled) : Trust links W g := fun tangled => absurd tangled untangled

/-- A grammar that claims nothing too little up to a level, if rules are stored rightly up to
there. -/
def Trusting {L : Type} [DecidableEq L] (links : Links) (W : World) (g : Grammar L) : Prop :=
  ∀ k, (links.Entangled → Right W g k) → Complete W g k

section Matches

variable {L : Type} [DecidableEq L] {links : Links} {W : World} {g : Grammar L} {k n x : Nat}
  {w : Word}

/-- What goes down from a node to its parts while a word is matched. -/
noncomputable def height (W : World) (g : Grammar L) (n x : Nat) (w : Word) : Nat → Nat
  | 0 => n
  | 1 => W.level x
  | 2 => open scoped Classical in if g.Solid x then 0 else 1
  | 3 => x
  | _ => w.length

section

variable {m y : Nat} {v : Word}

omit [DecidableEq L] in
theorem lower_of_rank (lt : m < n) : Lower 5 (height W g m y v) (height W g n x w) :=
  ⟨0, by omega, nofun, lt⟩

omit [DecidableEq L] in
theorem lower_of_level (le : m ≤ n) (lt : W.level y < W.level x) :
    Lower 5 (height W g m y v) (height W g n x w) := by
  refine ⟨1, by omega, fun j hj => ?_, lt⟩
  obtain rfl : j = 0 := by omega
  exact le

omit [DecidableEq L] in
theorem lower_of_target (le : m ≤ n) (level : W.level y ≤ W.level x) (solid : g.Solid y)
    (thunk : ¬g.Solid x) : Lower 5 (height W g m y v) (height W g n x w) := by
  refine ⟨2, by omega, fun j hj => ?_, ?_⟩
  · obtain rfl | rfl : j = 0 ∨ j = 1 := by omega
    · exact le
    · exact level
  · simp [height, solid, thunk]

omit [DecidableEq L] in
theorem lower_of_inner (le : m ≤ n) (level : W.level y ≤ W.level x) (part : g.Part x y) :
    Lower 5 (height W g m y v) (height W g n x w) := by
  refine ⟨3, by omega, fun j hj => ?_, part.1⟩
  obtain rfl | rfl | rfl : j = 0 ∨ j = 1 ∨ j = 2 := by omega
  · exact le
  · exact level
  · simp [height, part.2]

omit [DecidableEq L] in
theorem lower_of_shorter (le : m ≤ n) (lt : v.length < w.length) :
    Lower 5 (height W g m x v) (height W g n x w) := by
  refine ⟨4, by omega, fun j hj => ?_, lt⟩
  obtain rfl | rfl | rfl | rfl : j = 0 ∨ j = 1 ∨ j = 2 ∨ j = 3 := by omega
  · exact le
  all_goals exact Nat.le_refl _

end

/-- A node that stands for a word matches it, if the graph is complete up to the level of the
node. -/
theorem Complete.matches (complete : Complete W g k) (formed : g.Formed) (sound : Sound links W g)
    (lt : x < g.size) (level : W.level x ≤ k) (hw : (W x).words n w) : g.Matches x w := by
  generalize measure : height W g n x w = m
  induction m using (wellFounded_lower 5).induction generalizing n x w with
  | h m ih =>
    subst measure
    -- a part that has a word matches it
    have part {y : Nat} {v : Word} (hy : y < g.size) (le : W.level y ≤ W.level x)
        (hv : (W y).words.Upto n v)
        (less : ∀ m ≤ n, Lower 5 (height W g m y v) (height W g n x w)) : g.Matches y v := by
      obtain ⟨m, hm, hv⟩ := hv
      exact ih _ (less m hm) hy (Nat.le_trans le level) hv rfl
    obtain ⟨node, there⟩ := Grammar.exists_get? lt
    have formed' := formed.node x node there
    have supports := (complete.node x node there).supports level
    cases node with
    | empty | undefined => exact absurd hw (supports n w)
    | token kind =>
      rcases supports n w hw with ⟨rfl, rfl⟩ | ⟨terminal, rfl⟩
      · exact .epsilon there
      · exact .token there terminal
    | matched =>
      obtain rfl := supports n w hw
      exact .matched there
    | alt left right =>
      obtain ⟨left_id, right_id⟩ := sound.node x _ there
      rcases supports n w hw with hl | hr
      · exact .alt_left there (part formed'.1.2.lt_size left_id.level_le hl fun m hm =>
          lower_of_inner hm left_id.level_le formed'.1)
      · exact .alt_right there (part formed'.2.2.lt_size right_id.level_le hr fun m hm =>
          lower_of_inner hm right_id.level_le formed'.2)
    | cat left right =>
      have joins : (W left).Joins (W right) (W x) := sound.node x _ there
      have lel : W.level left ≤ W.level x := joins.left.length_le
      have ler : W.level right ≤ W.level x := by
        show (W right).trace.length ≤ _
        rw [joins.right]
        exact Nat.zero_le _
      obtain ⟨u, v, rfl, hu, hv⟩ := supports n w hw
      exact .cat there
        (part formed'.1.2.lt_size lel hu fun m hm => lower_of_inner hm lel formed'.1)
        (part formed'.2.2.lt_size ler hv fun m hm => lower_of_inner hm ler formed'.2)
    | rep body =>
      have leb : W.level body ≤ W.level x := (sound.node x _ there).body.level_le
      rcases supports n w hw with rfl | ⟨c, u, v, rfl, hu, hv⟩
      · exact .rep_nil there
      · refine .rep_cons there
          (part formed'.2.lt_size leb hu fun m hm => lower_of_inner hm leb formed')
          (part lt (Nat.le_refl _) hv fun m hm => lower_of_shorter hm ?_)
        rw [List.length_append, List.length_cons]
        omega
    | rule r body =>
      have leb : W.level body ≤ W.level x := (sound.node x _ there).1.trace.length_le
      obtain ⟨m, hm, hb⟩ := supports n w hw
      exact .rule there (ih _ (lower_of_rank hm) formed'.1 (Nat.le_trans leb level) hb rfl)
    | thunk t base =>
      cases target : t.state.target? with
      | some next =>
        have fits := (World.fits_resolved target).mp (sound.node x _ there)
        have supports := (World.supports_resolved target).mp supports
        rcases ThunkState.target?_cases target with rfl | resolved
        · obtain ⟨_, -, hn⟩ := supports n w hw
          rw [sound.void formed] at hn
          exact hn.elim
        · have solid := formed'.2 next target
          have thunk : ¬g.Solid x := fun ⟨node, there', solid⟩ => by
            cases Option.some.inj (there.symm.trans there')
            cases solid
          exact .resolved there (resolved t.symbol) (part solid.lt_size fits.level_le
            (supports n w hw) fun m hm => lower_of_target hm fits.level_le solid thunk)
      | none =>
        have fits := (World.fits_waiting target).mp (sound.node x _ there)
        have supports := (World.supports_waiting target).mp supports
        have waiting : t.state.isWaiting := by
          generalize t.state = state at target ⊢
          cases state <;> first | rfl | cases target
        have lower : W.level base < W.level x := fits.2.length_le
        exact .waiting there waiting (part formed'.1 (Nat.le_of_lt lower) (supports n w hw)
          fun m hm => lower_of_level hm lower)

/-- If no rule is stored wrongly that matches the empty word, then none is. -/
theorem Trusting.trust (trusting : Trusting links W g) (good : Good links W g) (h : ¬g.Misled) :
    Trust links W g := by
  intro _ k
  induction k with
  | zero => exact fun _ _ _ _ _ level => absurd level (Nat.not_lt_zero _)
  | succ k ih =>
    intro id r body there state level hn
    obtain ⟨n, hn⟩ := hn
    have complete := trusting k fun _ => ih
    exact h ⟨id, r, body, there, state,
      complete.matches good.formed good.sound (lt_size_of_get? there)
      (Nat.le_of_lt_succ level) hn⟩

theorem Trusting.complete (trusting : Trusting links W g) (trust : Trust links W g) (k : Nat) :
    Complete W g k :=
  trusting k fun tangled => trust tangled k

end Matches

/-! ## Actions -/

/-- What an action does to a grammar between actions. -/
structure Carries {L : Type} [DecidableEq L] (links : Links) (W : World) (g : Grammar L)
    (W' : World) (g' : Grammar L) : Prop where
  good : Good links W' g'
  size : g.size ≤ g'.size
  world : ∀ id : Nat, id < g.size → W' id = W id
  right : ∀ k, Right W' g' k → Right W g k
  complete : ∀ k, (links.Entangled → Right W' g' k) → Complete W g k → Complete W' g' k
  regular : g.Regular → g'.Regular
  proper : g.Proper → g'.Proper
  vetted : g.Proper → Vetted W g → Vetted W' g'
  spares : g.Spares g'

section Carries

variable {L : Type} [DecidableEq L] {links : Links} {W W₁ W₂ W' : World} {g g₁ g₂ g' : Grammar L}
  {q : Question L} {a : Reply} {id : Nat}

namespace Carries

theorem refl (good : Good links W g) : Carries links W g W g where
  good := good
  size := Nat.le_refl _
  world _ _ := rfl
  right _ h := h
  complete _ _ h := h
  regular h := h
  proper h := h
  vetted _ h := h
  spares := .refl g

theorem trans (h : Carries links W g W₁ g₁) (h' : Carries links W₁ g₁ W₂ g₂) :
    Carries links W g W₂ g₂ where
  good := h'.good
  size := Nat.le_trans h.size h'.size
  world id lt := (h'.world id (Nat.lt_of_lt_of_le lt h.size)).trans (h.world id lt)
  right k hr := h.right k (h'.right k hr)
  complete k trust complete :=
    h'.complete k trust (h.complete k (fun tangled => h'.right k (trust tangled)) complete)
  regular reg := h'.regular (h.regular reg)
  proper proper := h'.proper (h.proper proper)
  vetted proper vetted := h'.vetted (h.proper proper) (h.vetted proper vetted)
  spares := h.spares.trans h'.spares

theorem trust (h : Carries links W g W' g') (trust : Trust links W' g') : Trust links W g :=
  fun tangled k => h.right k (trust tangled k)

theorem trusting (h : Carries links W g W' g') (trusting : Trusting links W g) :
    Trusting links W' g' :=
  fun k trust => h.complete k trust (trusting k fun tangled => h.right k (trust tangled))

/-- Known derivatives may be forgotten. Beside them and the nodes, changes do not matter. -/
theorem of_eq (good : Good links W g) (arena : g'.arena = g.arena)
    (memo : g'.memo = g.memo ∨ g'.memo = {}) : Carries links W g W g' := by
  have found {id : Nat} {s : Symbol L} {next : NodeId} (h : g'.memo.find? id s = some next) :
      g.memo.find? id s = some next := by
    rcases memo with same | empty
    · rw [← same, h]
    · rw [empty, Memo.find?_nil] at h
      cases h
  obtain ⟨arena', memo', _, _, _⟩ := g'
  obtain rfl : arena' = g.arena := arena
  exact {
    good.formed.nothing := good.formed.nothing
    good.formed.node := fun id node there =>
      (good.formed.node id node there).mono (Nat.le_refl _) fun _ hx => hx
    good.formed.memo := fun id s next h => good.formed.memo id s next (found h)
    good.sound := ⟨good.sound.node, fun id s next h => good.sound.memo id s next (found h)⟩
    good.quiet := good.quiet
    size := Nat.le_refl _
    world := fun _ _ => rfl
    right := fun _ h => h
    complete := fun _ _ h => ⟨h.node, fun id s next h' => h.memo id s next (found h')⟩
    regular := fun h => h
    proper := fun h => h.of_eq rfl
    vetted := fun _ h => h.of_eq rfl
    spares := .of_eq rfl }

end Carries

theorem Evaluates.range (h : Evaluates W g q a W' g') : q.id < g.size := by
  induction h with
  | spent there | undefined there | rule_known there | rule_new there | thunk there | known there
  | fresh there | hit there | miss there | alt there | cat there | cat_nullable there | rep there
  | nullable_plain there | nullable_left there | nullable_right there | nullable_first there
  | nullable_second there | nullable_thunk there | nullable_done there | nullable_cycle there
  | nullable_rule there | force_other there | force_resolved there | force_running there
  | force_pending there => exact lt_size_of_get? there

/-- Between actions, any question may be asked. -/
theorem Good.ready (good : Good links W g) (range : g.size > q.id) : Ready links W g q where
  formed := good.formed
  sound := good.sound
  range := range
  begun x _ _ there state := absurd state (good.quiet x _ there).1
  running x _ _ there state := absurd state (good.quiet x _ there).2.1
  leads x _ _ there state := absurd state (good.quiet x _ there).1

theorem Extends.quiet (h : Extends W g W' g') (quiet : g.Quiet) : g'.Quiet := by
  intro id node there
  by_cases new : g.size ≤ id
  · exact h.idle id node new there
  · obtain ⟨node₀, there₀⟩ := Grammar.exists_get? (Nat.lt_of_not_le new)
    obtain ⟨node', there', step⟩ := h.node id node₀ there₀
    cases Option.some.inj (there.symm.trans there')
    exact step.idle_iff.mpr (quiet id node₀ there₀)

omit [DecidableEq L] in
theorem Grammar.Regular.withNode {node : Node L} (regular : g.Regular) (fixed : node.isFixed)
    (defined : ∀ name, node ≠ .undefined name) : (g.withNode node).Regular := by
  intro i node' there
  rw [Grammar.get?_withNode] at there
  split at there
  · cases there
    exact ⟨fixed, defined⟩
  · exact regular i node' there

/-- Evaluation makes rules and thunks of rules and thunks only. -/
theorem Evaluates.regular (h : Evaluates W g q a W' g') (regular : g.Regular) : g'.Regular := by
  induction h with
  | spent | rule_known | known | miss | nullable_plain | nullable_done | force_other
  | force_resolved => exact regular
  | undefined there => exact absurd rfl ((regular _ _ there).2 _)
  | rule_new there | thunk there | nullable_thunk there | nullable_cycle there | nullable_rule there
  | force_running there | force_pending there => cases (regular _ _ there).1
  | fresh _ _ _ _ ih => exact ih regular
  | hit => exact regular.withNode rfl nofun
  | alt _ _ _ ihl ihr => exact (ihr (ihl regular)).withNode rfl nofun
  | cat _ _ _ ihb ihl => exact (ihl (ihb regular)).withNode rfl nofun
  | cat_nullable _ _ _ _ _ ihb ihl ihr =>
    exact (ihr ((ihl (ihb regular)).withNode rfl nofun)).withNode rfl nofun
  | rep _ _ ih => exact (ih regular).withNode rfl nofun
  | nullable_left _ _ ih | nullable_first _ _ ih => exact ih regular
  | nullable_right _ _ _ ihl ihr | nullable_second _ _ _ ihl ihr => exact ihr (ihl regular)

theorem Evaluates.carries (h : Evaluates W g q a W' g') (good : Good links W g) :
    Carries links W g W' g' where
  good :=
    ⟨(h.formed good.formed).1, (h.sound good.formed good.sound).1, h.extension.quiet good.quiet⟩
  size := h.extension.size
  world := h.extension.world
  right _ := h.extension.right
  complete _ trust complete := (h.complete (good.ready h.range) complete trust).1
  regular := h.regular
  proper := h.proper
  vetted := h.vetted (good.ready h.range) (h.extension.quiet good.quiet)
  spares := h.extension.spares

/-- A derivative has all that is left, if rules are stored rightly. -/
theorem Evaluates.under {s : Symbol L} {next : NodeId}
    (h : Evaluates W g (.derive id s) (.node next) W' g') (good : Good links W g)
    (trusting : Trusting links W g) (trust : Trust links W' g') :
    ((W' id).words.after s.kind).Under (W' next).words :=
  have complete := trusting.complete ((h.carries good).trust trust) (W'.level id + 1)
  (h.complete (good.ready h.range) complete fun tangled => trust tangled _).2 (Nat.lt_succ_self _)

/-- A node that is found not to match the empty word does not stand for it, if rules are stored
rightly. -/
theorem Evaluates.not_nullable (h : Evaluates W g (.nullable id) (.truth false) W' g')
    (good : Good links W g) (trusting : Trusting links W g) (trust : Trust links W' g') :
    ¬(W' id).words.Nullable := by
  rintro ⟨n, hn⟩
  have complete := trusting.complete ((h.carries good).trust trust) (W'.level id + 1)
  obtain ⟨x, r, body, there, state, -⟩ := (h.complete (good.ready h.range) complete
    fun tangled => trust tangled _).2 (Nat.lt_succ_self _) rfl n hn
  exact ((h.carries good).good.quiet x _ there).1 state

/-- A node that stands for the empty word is found to match it, if rules are stored rightly. -/
theorem Evaluates.truth {b : Bool} (h : Evaluates W g (.nullable id) (.truth b) W' g')
    (good : Good links W g) (trusting : Trusting links W g) (trust : Trust links W' g')
    (null : (W' id).words.Nullable) : b = true := by
  cases b with
  | true => rfl
  | false => exact absurd null (h.not_nullable good trusting trust)

end Carries

end DerivativeParsing
