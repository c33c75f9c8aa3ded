import DerivativeParsing.Proofs.Settling
import DerivativeParsing.Proofs.Tally

/-!
# Every new combinator is paid for

A combinator is made only when another, of one level less, is derived by a symbol. That lowers the
price of the derivative: from 2 to 1 when the node becomes calm, from 1 to 0 when the derivative is
remembered. So when evaluation makes combinators, then at some level it makes none, up to that
level, and the sum of the prices there drops.

1. `load` is the sum of the prices at a level. It does not grow where no combinators are made.
2. `Thrifty` says how evaluation trades prices for combinators, and `Thrifty.trans` that it adds up.
3. `Evaluates.thrifty`: evaluation makes no combinators, or makes progress in this sense.
-/

namespace DerivativeParsing

open Grammar (lt_size_of_get?)

open scoped Classical

/-! ## Symbols in use -/

section Tracked

variable {L : Type} {symbols : List (Symbol L)} {g : Grammar L} {id : Nat}

/-- All thunks are derivatives by some of the symbols. -/
def Tracked (symbols : List (Symbol L)) (g : Grammar L) : Prop :=
  ∀ (id : Nat) t base, g.arena.get? id = some (.thunk t base) → t.symbol ∈ symbols

/-- A question that derives by one of the symbols, if it derives. -/
def Question.Uses (symbols : List (Symbol L)) : Question L → Prop
  | derive _ s | compute _ s => s ∈ symbols
  | _ => True

theorem Tracked.withFixed {node : Node L} (h : Tracked symbols g) (fixed : node.isFixed) :
    Tracked symbols (g.withNode node) := by
  intro id t base there
  rw [Grammar.get?_withNode] at there
  split at there
  · cases there
    cases fixed
  · exact h id t base there

theorem Tracked.revised {f : Node L → Node L} (h : Tracked symbols g)
    (keep : ∀ node t base, f node = .thunk t base →
      ∃ t', node = .thunk t' base ∧ t'.symbol = t.symbol) :
    Tracked symbols (g.revised id f) := by
  intro x t base there
  rw [Grammar.get?_revised] at there
  split at there
  · obtain ⟨node, there', same⟩ := Option.map_eq_some_iff.mp there
    obtain ⟨t', rfl, symbol⟩ := keep node t base same
    rw [← symbol]
    exact h x t' base there'
  · exact h x t base there

theorem Tracked.setFixpoint {fixpoint : Fixpoint} (h : Tracked symbols g) :
    Tracked symbols (g.revised id (.mapRule ({ · with fixpoint }))) := by
  refine h.revised fun node t base same => ?_
  cases node <;> cases same
  exact ⟨t, rfl, rfl⟩

theorem Tracked.setState {state : ThunkState} (h : Tracked symbols g) :
    Tracked symbols (g.revised id (.setState state)) := by
  refine h.revised fun node t base same => ?_
  cases node <;> cases same
  exact ⟨_, rfl, rfl⟩

end Tracked

section Sparing

variable {L : Type} {W W' : World} {g g' : Grammar L} {n m : Nat}

/-- New combinators have at least the level `n`. -/
def Sparing (W' : World) (g g' : Grammar L) (n : Nat) : Prop :=
  ∀ (x : Nat) node, g.size ≤ x → g'.arena.get? x = some node → node.isCombinator → n ≤ W'.level x

theorem Sparing.mono (h : Sparing W' g g' n) (le : m ≤ n) : Sparing W' g g' m :=
  fun x node new there comb => Nat.le_trans le (h x node new there comb)

theorem Sparing.of_size_le (h : g'.size ≤ g.size) : Sparing W' g g' n := by
  intro x node new there
  have := lt_size_of_get? there
  omega

/-- A new combinator has the level of what it stands for. -/
theorem sparing_withNode {node : Node L} {meaning : Meaning} (le : n ≤ meaning.trace.length) :
    Sparing (W.put g.size meaning) g (g.withNode node) n := by
  intro x node' new there comb
  have lt := lt_size_of_get? there
  rw [Grammar.size_withNode] at lt
  obtain rfl : x = g.size := by omega
  show n ≤ (World.put _ _ _ g.size).trace.length
  rw [World.put_self]
  exact le

end Sparing

variable {L : Type} [DecidableEq L] {links : Links} {symbols : List (Symbol L)} {W W₁ W₂ W' : World}
  {g g₁ g₂ g' : Grammar L} {id n m : Nat} {s : Symbol L}

theorem Evaluates.tracked {q : Question L} {a : Reply} (h : Evaluates W g q a W' g')
    (uses : q.Uses symbols) (tracked : Tracked symbols g) : Tracked symbols g' := by
  induction h with
  | rule_new there =>
    intro id t base there'
    rw [Grammar.get?_withDerivedRule there] at there'
    split at there'
    · cases there'
    · split at there'
      · cases there'
        exact uses
      · split at there'
        · cases there'
        · exact tracked id t base there'
  | thunk there hf hd ihf ihd => exact ihd uses (ihf trivial tracked)
  | fresh _ _ _ _ ih => exact ih uses tracked
  | hit => exact tracked.withFixed rfl
  | alt _ _ _ ihl ihr => exact (ihr uses (ihl uses tracked)).withFixed rfl
  | cat _ _ _ ihb ihl => exact (ihl uses (ihb trivial tracked)).withFixed rfl
  | cat_nullable _ _ _ _ _ ihb ihl ihr =>
    exact (ihr uses ((ihl uses (ihb trivial tracked)).withFixed rfl)).withFixed rfl
  | rep _ _ ih => exact (ih uses tracked).withFixed rfl
  | nullable_left _ _ ih | nullable_first _ _ ih => exact ih trivial tracked
  | nullable_right _ _ _ ihl ihr | nullable_second _ _ _ ihl ihr =>
    exact ihr trivial (ihl trivial tracked)
  | nullable_thunk _ _ _ ihf ihn => exact ihn trivial (ihf trivial tracked)
  | nullable_rule _ _ _ ih => exact (ih trivial tracked.setFixpoint).setFixpoint
  | force_pending there _ _ ih => exact (ih (tracked _ _ _ there) tracked.setState).setState
  | _ => exact tracked

/-! ## Prices -/

/-- What the derivative of a node by a symbol may still cost. -/
noncomputable def Grammar.price (g : Grammar L) (id : Nat) (s : Symbol L) : Nat :=
  if (g.memo.find? id s).isSome then 0 else if Calm g s id then 1 else 2

theorem Retains.price_le (h : Retains W g W' g') (id : Nat) (s : Symbol L) :
    g'.price id s ≤ g.price id s := by
  unfold Grammar.price
  by_cases known : (g.memo.find? id s).isSome
  · rw [if_pos known, if_pos (h.memo id s known)]
  · rw [if_neg known]
    by_cases calm : Calm g s id
    · rw [if_pos calm, if_pos (calm.retained h)]
      split <;> omega
    · rw [if_neg calm]
      split
      · omega
      · split <;> omega

theorem Evaluates.price_lt {next : Nat} {node : Node L}
    (h : Evaluates W g (.derive id s) (.node next) W' g') (ready : Ready links W g (.derive id s))
    (there : g.arena.get? id = some node) (comb : node.isCombinator)
    (new : g.memo.find? id s = none) : g'.price id s < g.price id s := by
  have unknown : ¬(g.memo.find? id s).isSome := by
    rw [new]
    exact Bool.false_ne_true
  unfold Grammar.price
  rw [if_neg unknown]
  by_cases calm : Calm g s id
  · rw [if_pos calm, if_pos ((calm.steady (.refl W g) h).2 node there comb)]
    exact Nat.one_pos
  · have solid : g.Solid id := ⟨node, there, by cases node <;> first | rfl | cases comb⟩
    have calm' : Calm g' s id := h.calmed ready (solid.extended h.extension)
    rw [if_neg calm, if_pos calm']
    split <;> omega

noncomputable def Grammar.due (symbols : List (Symbol L)) (W : World) (g : Grammar L) (n id : Nat)
    (node : Node L) : Nat :=
  if node.isCombinator ∧ W.level id = n then (symbols.map (g.price id)).sum else 0

/-- The sum of the prices of the combinators of a level. -/
noncomputable def load (symbols : List (Symbol L)) (W : World) (g : Grammar L) (n : Nat) : Nat :=
  g.tally (g.due symbols W n)

namespace Retains

theorem level (h : Retains W g W' g') (lt : id < g.size) : W'.level id = W.level id :=
  World.level_congr (h.world id lt)

theorem get?_combinator {node : Node L} (h : Retains W g W' g') (lt : id < g.size)
    (there : g'.arena.get? id = some node) (comb : node.isCombinator) :
    g.arena.get? id = some node := by
  obtain ⟨node₀, there₀⟩ := Grammar.exists_get? lt
  cases node₀ with
  | rule r body =>
    obtain ⟨r', there', -⟩ := h.rule id r body there₀
    cases Option.some.inj (there.symm.trans there')
    cases comb
  | thunk t base =>
    obtain ⟨t', there', -⟩ := h.thunk id t base there₀
    cases Option.some.inj (there.symm.trans there')
    cases comb
  | _ =>
    rw [there₀, ← h.fixed id _ there₀ rfl, there]

theorem due_le {node : Node L} (h : Retains W g W' g') (there : g.arena.get? id = some node) :
    ∃ node', g'.arena.get? id = some node' ∧
      g'.due symbols W' n id node' ≤ g.due symbols W n id node := by
  have lt := lt_size_of_get? there
  obtain ⟨node', there'⟩ := Grammar.exists_get? (Nat.lt_of_lt_of_le lt h.size)
  refine ⟨node', there', ?_⟩
  unfold Grammar.due
  by_cases counted : node'.isCombinator ∧ W'.level id = n
  · have same := Option.some.inj (there.symm.trans (h.get?_combinator lt there' counted.1))
    rw [if_pos counted, if_pos ⟨same ▸ counted.1, h.level lt ▸ counted.2⟩]
    exact List.sum_le_sum fun s _ => h.price_le id s
  · rw [if_neg counted]
    exact Nat.zero_le _

omit [DecidableEq L] in
theorem due_new [DecidableEq L] {node : Node L} (sparing : Sparing W' g g' (n + 1))
    (new : g.size ≤ id) (there : g'.arena.get? id = some node) :
    g'.due symbols W' n id node = 0 := by
  refine if_neg fun counted => ?_
  have := sparing id node new there counted.1
  omega

theorem load_le (h : Retains W g W' g') (sparing : Sparing W' g g' (n + 1)) :
    load symbols W' g' n ≤ load symbols W g n :=
  Grammar.tally_le h.size (fun _ _ => h.due_le) fun _ _ => due_new sparing

/-- If a price drops as well, their sum drops. -/
theorem load_lt {node : Node L} (h : Retains W g W' g') (sparing : Sparing W' g g' (W.level id + 1))
    (there : g.arena.get? id = some node) (comb : node.isCombinator) (uses : s ∈ symbols)
    (drop : g'.price id s < g.price id s) :
    load symbols W' g' (W.level id) < load symbols W g (W.level id) := by
  have lt := lt_size_of_get? there
  have there' := h.fixed id node there (Node.isFixed_of_isCombinator comb)
  refine Grammar.tally_lt h.size (fun _ _ => h.due_le) (fun _ _ => due_new sparing) there there' ?_
  unfold Grammar.due
  rw [if_pos ⟨comb, h.level lt⟩, if_pos ⟨comb, rfl⟩]
  exact List.sum_lt_sum _ _ (fun s _ => h.price_le id s) ⟨s, uses, drop⟩

end Retains

theorem Sparing.trans (h : Sparing W₁ g g₁ n) (h' : Sparing W₂ g₁ g₂ n)
    (keep : Retains W₁ g₁ W₂ g₂) : Sparing W₂ g g₂ n := by
  intro x node new there comb
  by_cases lt : x < g₁.size
  · rw [keep.level lt]
    exact h x node new (keep.get?_combinator lt there comb) comb
  · exact h' x node (Nat.le_of_not_lt lt) there comb

/-! ## Thrift -/

/-- Either new combinators have at least the level `m`, or the load drops at a level below `n` and
new combinators are above that. -/
def Thrifty (symbols : List (Symbol L)) (n m : Nat) (W : World) (g : Grammar L) (W' : World)
    (g' : Grammar L) : Prop :=
  Sparing W' g g' m ∨
    ∃ i < n, Sparing W' g g' (i + 1) ∧ load symbols W' g' i < load symbols W g i

namespace Thrifty

theorem mono {n' : Nat} (h : Thrifty symbols n m W g W' g') (le : n ≤ n') :
    Thrifty symbols n' m W g W' g' := by
  rcases h with h | ⟨i, hi, h⟩
  · exact .inl h
  · exact .inr ⟨i, Nat.lt_of_lt_of_le hi le, h⟩

/-- A question of a lower floor is answered thriftily at a higher one. -/
theorem widen {k : Nat} (h : ∀ m ≥ k, Thrifty symbols k m W g W' g') (le : k ≤ n) (hm : n ≤ m) :
    Thrifty symbols n m W g W' g' :=
  (h m (Nat.le_trans le hm)).mono le

theorem of_size_le (h : g'.size ≤ g.size) : Thrifty symbols n m W g W' g' := .inl (.of_size_le h)

theorem trans (h : Thrifty symbols n m W g W₁ g₁) (h' : Thrifty symbols n m W₁ g₁ W₂ g₂)
    (le : n ≤ m) (keep : Retains W g W₁ g₁) (keep' : Retains W₁ g₁ W₂ g₂) :
    Thrifty symbols n m W g W₂ g₂ := by
  rcases h with h | ⟨i, hi, h, drop⟩ <;> rcases h' with h' | ⟨j, hj, h', drop'⟩
  · exact .inl (h.trans h' keep')
  · have h := h.mono (m := j + 1) (by omega)
    exact .inr ⟨j, hj, h.trans h' keep', Nat.lt_of_lt_of_le drop' (keep.load_le h)⟩
  · have h' := h'.mono (m := i + 1) (by omega)
    exact .inr ⟨i, hi, h.trans h' keep', Nat.lt_of_le_of_lt (keep'.load_le h') drop⟩
  · -- the lower of the two levels
    by_cases lt : i ≤ j
    · have h' := h'.mono (m := i + 1) (by omega)
      exact .inr ⟨i, hi, h.trans h' keep', Nat.lt_of_le_of_lt (keep'.load_le h') drop⟩
    · have h := h.mono (m := j + 1) (by omega)
      exact .inr ⟨j, hj, h.trans h' keep', Nat.lt_of_lt_of_le drop' (keep.load_le h)⟩

end Thrifty

/-- A question that was answered thriftily. Computing a derivative makes combinators of one level
more than the node. -/
def Question.Thrifty (symbols : List (Symbol L)) (W : World) (g : Grammar L) (W' : World)
    (g' : Grammar L) : Question L → Prop
  | compute id _ => DerivativeParsing.Thrifty symbols (W.level id + 1) (W.level id + 1) W g W' g'
  | q => ∀ m ≥ q.floor W, DerivativeParsing.Thrifty symbols (q.floor W) m W g W' g'

theorem Evaluates.thrifty {q : Question L} {a : Reply} (h : Evaluates W g q a W' g')
    (ready : Ready links W g q) (uses : q.Uses symbols) (tracked : Tracked symbols g) :
    q.Thrifty symbols W g W' g' := by
  induction h with
  | spent | undefined | rule_known | known | nullable_plain | nullable_done | nullable_cycle
  | force_other | force_resolved | force_running => exact fun m _ => .of_size_le (Nat.le_refl _)
  | @rule_new W g id body s r there _ =>
    refine fun m _ => .inl fun x node new there' comb => ?_
    rw [Grammar.get?_withDerivedRule there] at there'
    have old := lt_size_of_get? there
    split at there'
    · cases there'
      cases comb
    · split at there'
      · cases there'
        cases comb
      · split at there'
        · omega
        · exact absurd (lt_size_of_get? there') (Nat.not_lt.mpr new)
  | @thunk W W₁ W₂ g g₁ g₂ id base target next s t there hf hd ihf ihd =>
    have ready₁ := ready.derive_target hf
    have target_id : (W₁ target).Refines (W₁ id) := (hf.sound ready.formed ready.sound).2
    have lower := target_id.level_le
    rw [hf.extension.level (lt_size_of_get? there)] at lower
    have first := ihf ready.force_of_derive trivial tracked
    have second := ihd ready₁ uses (hf.tracked trivial tracked)
    exact fun m hm => (Thrifty.widen first (Nat.le_succ _) hm).trans
      (.widen second (Nat.succ_le_succ lower) hm) hm hf.extension.retains hd.extension.retains
  | @fresh W W₁ g g₁ id next s node there comb new hc ih =>
    have h : Evaluates W g (.derive id s) (.node next) W₁ (g₁.finished id s next g.provisional) :=
      .fresh there comb new hc
    have keep := h.extension.retains
    intro m _
    rcases ih ready.compute uses tracked with sparing | ⟨i, hi, sparing, drop⟩
    · have sparing : Sparing W₁ g (g₁.finished id s next g.provisional) (W.level id + 1) := sparing
      exact .inr ⟨W.level id, Nat.lt_succ_self _, sparing,
        keep.load_lt sparing there comb uses (h.price_lt ready there comb new)⟩
    · -- what was paid for inside still is when the derivative is remembered
      have up : Extends W₁ g₁ W₁ (g₁.finished id s next g.provisional) := .finished
      have none : Sparing W₁ g₁ (g₁.finished id s next g.provisional) (i + 1) :=
        .of_size_le (Nat.le_refl _)
      have down : load symbols W g.certain i ≤ load symbols W g i :=
        (Retains.certain W g).load_le (.of_size_le (Nat.le_refl _))
      have after : load symbols W₁ (g₁.finished id s next g.provisional) i ≤ load symbols W₁ g₁ i :=
        up.retains.load_le none
      exact .inr ⟨i, hi, sparing.trans none up.retains, by omega⟩
  | hit =>
    refine .inl fun x node new there comb => ?_
    rw [Grammar.get?_withNode] at there
    split at there
    · cases there
      cases comb
    · exact absurd (lt_size_of_get? there) (Nat.not_lt.mpr new)
  | miss => exact .of_size_le (Nat.le_refl _)
  | @alt W W₁ W₂ g g₁ g₂ id left right l r s there hl hr ihl ihr =>
    have ready₁ := ready.after hl
    have there₁ := hl.extension.get?_fixed there rfl
    have lt := lt_size_of_get? there
    have lel := (ready.sound.node id _ there).1.level_le
    have ler := (ready₁.sound.node id _ there₁).2.level_le
    rw [hl.extension.level lt] at ler
    have first := ihl (ready.left_of_alt there) uses tracked
    have second := ihr (ready₁.right_of_alt there₁) uses (hl.tracked uses tracked)
    have le := Nat.le_refl (W.level id + 1)
    have both := (Thrifty.widen first (Nat.succ_le_succ lel) le).trans
      (.widen second (Nat.succ_le_succ ler) le) le hl.extension.retains hr.extension.retains
    have ext := hl.extension.trans hr.extension
    refine both.trans (.inl (sparing_withNode ?_)) le ext.retains (Extends.withFixed rfl _).retains
    exact Nat.le_of_eq (congrArg (· + 1) (ext.level lt).symm)
  | @cat W W₁ W₂ g g₁ g₂ id left right l s there hb hl ihb ihl =>
    have ready₁ := ready.after hb
    have there₁ := hb.extension.get?_fixed there rfl
    have lt := lt_size_of_get? there
    have lel : W.level left ≤ W.level id := (ready.sound.node id _ there).left.length_le
    have lel₁ : W₁.level left ≤ W₁.level id := (ready₁.sound.node id _ there₁).left.length_le
    rw [hb.extension.level lt] at lel₁
    have first := ihb (ready.left_of_cat there).1 trivial tracked
    have second := ihl (ready₁.left_of_cat there₁).2 uses (hb.tracked trivial tracked)
    have le := Nat.le_refl (W.level id + 1)
    have both := (Thrifty.widen first (Nat.le_succ_of_le lel) le).trans
      (.widen second (Nat.succ_le_succ lel₁) le) le hb.extension.retains hl.extension.retains
    have ext := hb.extension.trans hl.extension
    refine both.trans (.inl (sparing_withNode ?_)) le ext.retains (Extends.withFixed rfl _).retains
    exact Nat.le_of_eq (congrArg (· + 1) (ext.level lt).symm)
  | @cat_nullable W W₁ W₂ W₃ W₄ g g₁ g₂ g₄ id left right l skipped s there hb hl same hr ihb
      ihl ihr =>
    have ready₁ := ready.after hb
    have ready₂ := ready₁.after hl
    have ready₃ := ready.right_of_consumed there hb hl same
    have there₁ := hb.extension.get?_fixed there rfl
    have there₂ := hl.extension.get?_fixed there₁ rfl
    have new : Extends W₂ g₂ W₃ (g₂.withNode (.cat l right)) := .put same rfl
    have lt := lt_size_of_get? there
    have lel : W.level left ≤ W.level id := (ready.sound.node id _ there).left.length_le
    have lel₁ : W₁.level left ≤ W₁.level id := (ready₁.sound.node id _ there₁).left.length_le
    rw [hb.extension.level lt] at lel₁
    have flat : W₃.level right = 0 := by
      rw [new.level (ready₂.formed.node id _ there₂).2.2.lt_size]
      show (W₂ right).trace.length = 0
      rw [(ready₂.sound.node id _ there₂).right]
      rfl
    have tracked₁ := hb.tracked trivial tracked
    have tracked₂ := hl.tracked uses tracked₁
    have first := ihb (ready.left_of_cat there).1 trivial tracked
    have second := ihl (ready₁.left_of_cat there₁).2 uses tracked₁
    have third := ihr ready₃ uses (tracked₂.withFixed rfl)
    have le := Nat.le_refl (W.level id + 1)
    have ext := hb.extension.trans hl.extension
    have both := (Thrifty.widen first (Nat.le_succ_of_le lel) le).trans
      (.widen second (Nat.succ_le_succ lel₁) le) le hb.extension.retains hl.extension.retains
    have made : Thrifty symbols (W.level id + 1) (W.level id + 1) W₂ g₂ W₃
        (g₂.withNode (.cat l right)) := by
      rw [same]
      exact .inl (sparing_withNode (Nat.le_of_eq (congrArg (· + 1) (ext.level lt).symm)))
    have ext₃ := ext.trans new
    have ext₄ := ext₃.trans hr.extension
    have last : W₃.level right + 1 ≤ W.level id + 1 := by omega
    refine (((both.trans made le ext.retains new.retains).trans (.widen third last le)
      le ext₃.retains
      hr.extension.retains).trans (.inl (sparing_withNode ?_)) le ext₄.retains
      (Extends.withFixed rfl _).retains)
    exact Nat.le_of_eq (congrArg (· + 1) (ext₄.level lt).symm)
  | @rep W W₁ g g₁ id body d s there hd ih =>
    have lt := lt_size_of_get? there
    have leb := (ready.sound.node id _ there).body.level_le
    have first := ih (ready.body_of_rep there) uses tracked
    have le := Nat.le_refl (W.level id + 1)
    refine (Thrifty.widen first (Nat.succ_le_succ leb) le).trans (.inl (sparing_withNode ?_)) le
      hd.extension.retains (Extends.withFixed rfl _).retains
    exact Nat.le_of_eq (congrArg (· + 1) (hd.extension.level lt).symm)
  | nullable_left there _ ih =>
    have lel := (ready.sound.node _ _ there).1.level_le
    exact fun m hm => .widen (ih (ready.nullable_left_of_alt there) trivial tracked) lel hm
  | nullable_right there hl hr ihl ihr =>
    have ready₁ := ready.after hl
    have there₁ := hl.extension.get?_fixed there rfl
    have lel := (ready.sound.node _ _ there).1.level_le
    have ler := (ready₁.sound.node _ _ there₁).2.level_le
    rw [hl.extension.level (lt_size_of_get? there)] at ler
    have first := ihl (ready.nullable_left_of_alt there) trivial tracked
    have second := ihr (ready₁.nullable_right_of_alt there₁) trivial (hl.tracked trivial tracked)
    exact fun m hm => (Thrifty.widen first lel hm).trans (.widen second ler hm) hm
      hl.extension.retains hr.extension.retains
  | nullable_first there _ ih =>
    have lel := (ready.sound.node _ _ there).left.length_le
    exact fun m hm => .widen (ih (ready.nullable_left_of_cat there) trivial tracked) lel hm
  | @nullable_second W W₁ W₂ g g₁ g₂ id left right b there hl hr ihl ihr =>
    have ready₁ := ready.after hl
    have there₁ := hl.extension.get?_fixed there rfl
    have lel := (ready.sound.node _ _ there).left.length_le
    have flat : W₁.level right = 0 := by
      show (W₁ right).trace.length = 0
      rw [(ready₁.sound.node _ _ there₁).right]
      rfl
    have null := (hl.sound ready.formed ready.sound).2 rfl
    have first := ihl (ready.nullable_left_of_cat there) trivial tracked
    have second :=
      ihr (ready₁.nullable_right_of_cat there₁ null) trivial (hl.tracked trivial tracked)
    have ler : W₁.level right ≤ W.level id := by omega
    exact fun m hm => (Thrifty.widen first lel hm).trans (.widen second ler hm) hm
      hl.extension.retains hr.extension.retains
  | @nullable_thunk W W₁ W₂ g g₁ g₂ id base target t b there hf hn ihf ihn =>
    have target_id : (W₁ target).Refines (W₁ id) := (hf.sound ready.formed ready.sound).2
    have lower := target_id.level_le
    rw [hf.extension.level (lt_size_of_get? there)] at lower
    have first := ihf ready.force_of_nullable trivial tracked
    have second := ihn (ready.nullable_target hf) trivial (hf.tracked trivial tracked)
    exact fun m hm => (Thrifty.widen first (Nat.le_refl _) hm).trans (.widen second lower hm) hm
      hf.extension.retains hn.extension.retains
  | @nullable_rule W W₁ g g₁ id body r b there state hb ih =>
    obtain ⟨r₁, there₁, -, -, step⟩ := hb.extension.get?_rule (Grammar.get?_begun there)
    have state₁ : r₁.fixpoint = .inProgress := by
      generalize r₁.fixpoint = fixpoint at step
      cases step
      rfl
    have leb : W.level body ≤ W.level id := (ready.sound.node id _ there).1.trace.length_le
    have inner := ih (ready.body_of_rule there) trivial tracked.setFixpoint
    have before : Retains W g W (g.begun id) := .begun there state
    have after : Retains W₁ g₁ W₁ (g₁.done id b) := .done there₁ state₁
    intro m hm
    have begun : Thrifty symbols (W.level id) m W g W (g.begun id) :=
      .of_size_le (Nat.le_of_eq (Grammar.size_begun _ _))
    have done : Thrifty symbols (W.level id) m W₁ g₁ W₁ (g₁.done id b) :=
      .of_size_le (Nat.le_of_eq (Grammar.size_done _ _ _))
    exact (begun.trans (.widen inner leb hm) hm before hb.extension.retains).trans done hm
      (before.trans hb.extension.retains) after
  | @force_pending W W₁ g g₁ id base target t there state hd ih =>
    obtain ⟨t₁, there₁, -, step⟩ := hd.extension.get?_thunk (Grammar.get?_running there)
    have state₁ : t₁.state = .running := by
      generalize t₁.state = state at step
      cases step
      rfl
    have fits := (World.fits_waiting (t := t) (by rw [state]; rfl)).mp (ready.sound.node id _ there)
    have leb : W.level base + 1 ≤ W.level id := fits.2.length_le
    have inner := ih (ready.base_of_thunk there state) (tracked _ _ _ there) tracked.setState
    have before : Retains W g W (g.running id) := .running there state
    have after : Retains W₁ g₁ W₁ (g₁.resolved id t base target) := .resolved there₁ state₁
    intro m hm
    have running : Thrifty symbols (W.level id) m W g W (g.running id) :=
      .of_size_le (Nat.le_of_eq (Grammar.size_running _ _))
    have resolved : Thrifty symbols (W.level id) m W₁ g₁ W₁ (g₁.resolved id t base target) :=
      .of_size_le (Nat.le_of_eq (Grammar.size_resolved _ _ _ _ _))
    exact (running.trans (.widen inner leb hm) hm before hd.extension.retains).trans resolved hm
      (before.trans hd.extension.retains) after

end DerivativeParsing
