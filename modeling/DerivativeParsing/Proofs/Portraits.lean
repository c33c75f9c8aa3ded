import DerivativeParsing.Proofs.Depicting
import DerivativeParsing.Proofs.Derivatives
import DerivativeParsing.Proofs.Handing
import DerivativeParsing.Proofs.Relocation

/-!
# What the live graph portrays

Where there are no rules, the part of a graph that a node reaches can be read as a language, and
evaluation and culling do to the graph what is done to the language: the derivative of a node
portrays the derivative of the language, and what is left when it is culled portrays the language
without the parts that have no words. Nodes may be shared, but what a node is read as depends on the
node only.

1. `Grammar.Portrays`: the nodes below a node are made like a language.
2. `Evaluates.portrays`: so is a derivative, like the derivative of the language.
3. `cull_portrays`: so is what is left after culling. `step_portrays`: so is where a step leads.
4. `reachable_portrays`: what a node reaches is no more than the language has parts, and no less
   than it has parts one inside the other.
-/

namespace DerivativeParsing

open Grammar (lt_size_of_get?)

/-! ## Nodes that portray languages -/

/-- The nodes below a node are made like a language. A symbol that was matched is read as the empty
word. -/
def Grammar.Portrays {L : Type} (g : Grammar L) : Language → NodeId → Prop
  | .epsilon, id =>
    g.arena.get? id = some (.token Kind.epsilon) ∨ ∃ s, g.arena.get? id = some (.matched s)
  | .token kind, id =>
    g.arena.get? id = some (.token kind) ∨ kind = Kind.void ∧ g.arena.get? id = some .empty
  | .alt left right, id =>
    ∃ l r, g.arena.get? id = some (.alt l r) ∧ Portrays g left l ∧ Portrays g right r
  | .cat left right, id =>
    ∃ l r, g.arena.get? id = some (.cat l r) ∧ Portrays g left l ∧ Portrays g right r
  | .rep body, id => ∃ b, g.arena.get? id = some (.rep b) ∧ Portrays g body b
  | .rule _, _ => False

section Portrays

variable {L : Type} {g : Grammar L} {lang lang' : Language} {id left right body : NodeId}
  {kind : Kind} {s : Symbol L} {node : Node L}

theorem portrays_empty (there : g.arena.get? id = some .empty) :
    g.Portrays lang id ↔ lang = Language.nothing := by
  cases lang <;> simp [Grammar.Portrays, there, Language.nothing]

theorem portrays_matched (there : g.arena.get? id = some (.matched s)) :
    g.Portrays lang id ↔ lang = .epsilon := by
  cases lang <;> simp [Grammar.Portrays, there]

theorem portrays_token (there : g.arena.get? id = some (.token kind)) :
    g.Portrays lang id ↔ lang = .token kind ∨ kind = Kind.epsilon ∧ lang = .epsilon := by
  cases lang <;> simp [Grammar.Portrays, there, eq_comm]

theorem portrays_alt (there : g.arena.get? id = some (.alt left right)) :
    g.Portrays lang id ↔ ∃ l r, lang = .alt l r ∧ g.Portrays l left ∧ g.Portrays r right := by
  cases lang <;> simp [Grammar.Portrays, there]

theorem portrays_cat (there : g.arena.get? id = some (.cat left right)) :
    g.Portrays lang id ↔ ∃ l r, lang = .cat l r ∧ g.Portrays l left ∧ g.Portrays r right := by
  cases lang <;> simp [Grammar.Portrays, there]

theorem portrays_rep (there : g.arena.get? id = some (.rep body)) :
    g.Portrays lang id ↔ ∃ b, lang = .rep b ∧ g.Portrays b body := by
  cases lang <;> simp [Grammar.Portrays, there]

/-- A node that portrays a language is neither a rule nor a thunk, nor a nonterminal without a
body. -/
theorem Grammar.Portrays.exists (h : g.Portrays lang id) :
    ∃ node, g.arena.get? id = some node ∧ node.isFixed ∧ ∀ name, node ≠ .undefined name := by
  cases lang with
  | epsilon =>
    rcases h with there | ⟨s, there⟩
    · exact ⟨_, there, rfl, by simp⟩
    · exact ⟨_, there, rfl, by simp⟩
  | token kind =>
    rcases h with there | ⟨-, there⟩
    · exact ⟨_, there, rfl, by simp⟩
    · exact ⟨_, there, rfl, by simp⟩
  | alt left right | cat left right =>
    obtain ⟨l, r, there, -⟩ := h
    exact ⟨_, there, rfl, by simp⟩
  | rep body =>
    obtain ⟨b, there, -⟩ := h
    exact ⟨_, there, rfl, by simp⟩
  | rule => exact h.elim

theorem Grammar.Portrays.lt_size (h : g.Portrays lang id) : id < g.size := by
  obtain ⟨node, there, -⟩ := h.exists
  exact lt_size_of_get? there

/-- What was lowered portrays the language that it was lowered from. -/
theorem Grammar.Depicts.portrays (h : g.Depicts [] lang id) : g.Portrays lang id := by
  induction lang generalizing id with
  | epsilon => exact .inl h
  | token kind => exact .inl h
  | alt left right ihl ihr | cat left right ihl ihr =>
    obtain ⟨l, r, there, hl, hr⟩ := h
    exact ⟨l, r, there, ihl hl, ihr hr⟩
  | rep body ih =>
    obtain ⟨b, there, hb⟩ := h
    exact ⟨b, there, ih hb⟩
  | rule => cases h

/-- What a node portrays it portrays where the nodes below it are the same. -/
theorem Grammar.Portrays.of_nodes {g' : Grammar L} {P : NodeId → Prop} (h : g.Portrays lang id)
    (hid : P id)
    (nodes : ∀ (x : Nat) node, P x → g.arena.get? x = some node → node.isFixed →
      g'.arena.get? x = some node ∧ ∀ y ∈ node.successors false, P y) : g'.Portrays lang id := by
  induction lang generalizing id with
  | epsilon =>
    exact h.imp (fun there => (nodes _ _ hid there rfl).1) fun ⟨s, there⟩ =>
      ⟨s, (nodes _ _ hid there rfl).1⟩
  | token kind =>
    exact h.imp (fun there => (nodes _ _ hid there rfl).1) fun ⟨void, there⟩ =>
      ⟨void, (nodes _ _ hid there rfl).1⟩
  | alt left right ihl ihr | cat left right ihl ihr =>
    obtain ⟨l, r, there, hl, hr⟩ := h
    obtain ⟨there', parts⟩ := nodes _ _ hid there rfl
    exact ⟨l, r, there', ihl hl (parts l (.head _)), ihr hr (parts r (.tail _ (.head _)))⟩
  | rep body ih =>
    obtain ⟨b, there, hb⟩ := h
    obtain ⟨there', parts⟩ := nodes _ _ hid there rfl
    exact ⟨b, there', ih hb (parts b (.head _))⟩
  | rule => exact h

theorem Grammar.Portrays.of_eq {g' : Grammar L} (h : g.Portrays lang id)
    (arena : g'.arena = g.arena) : g'.Portrays lang id :=
  h.of_nodes (P := fun _ => True) trivial fun _ _ _ there _ => ⟨arena ▸ there, fun _ _ => trivial⟩

theorem Grammar.Portrays.withNode (h : g.Portrays lang id) (node : Node L) :
    (g.withNode node).Portrays lang id :=
  h.of_nodes (P := fun _ => True)
    trivial fun _ _ _ there _ => ⟨Grammar.get?_withNode_old there, fun _ _ => trivial⟩

theorem not_portrays_other (there : g.arena.get? id = some node)
    (other : node.isFixed = false ∨ ∃ name, node = .undefined name) : ¬g.Portrays lang id := by
  intro h
  obtain ⟨node', there', fixed, defined⟩ := h.exists
  cases there.symm.trans there'
  rcases other with other | ⟨name, rfl⟩
  · cases fixed.symm.trans other
  · exact defined name rfl

theorem Grammar.Portrays.size_eq (h : g.Portrays lang id) (h' : g.Portrays lang' id) :
    lang.size = lang'.size := by
  induction lang generalizing id lang' with
  | epsilon =>
    rcases h with there | ⟨s, there⟩
    · rcases (portrays_token there).mp h' with rfl | ⟨-, rfl⟩ <;> rfl
    · obtain rfl := (portrays_matched there).mp h'
      rfl
  | token kind =>
    rcases h with there | ⟨-, there⟩
    · rcases (portrays_token there).mp h' with rfl | ⟨-, rfl⟩ <;> rfl
    · obtain rfl := (portrays_empty there).mp h'
      rfl
  | alt left right ihl ihr =>
    obtain ⟨l, r, there, hl, hr⟩ := h
    obtain ⟨_, _, rfl, hl', hr'⟩ := (portrays_alt there).mp h'
    rw [Language.size_alt, Language.size_alt, ihl hl hl', ihr hr hr']
  | cat left right ihl ihr =>
    obtain ⟨l, r, there, hl, hr⟩ := h
    obtain ⟨_, _, rfl, hl', hr'⟩ := (portrays_cat there).mp h'
    rw [Language.size_cat, Language.size_cat, ihl hl hl', ihr hr hr']
  | rep body ih =>
    obtain ⟨b, there, hb⟩ := h
    obtain ⟨_, rfl, hb'⟩ := (portrays_rep there).mp h'
    rw [Language.size, Language.size, ih hb hb']
  | rule => exact h.elim

end Portrays

/-! ## Evaluation -/

/-- What is remembered of nodes that portray languages portrays their derivatives. -/
def Grammar.Recollects {L : Type} [DecidableEq L] (g : Grammar L) : Prop :=
  ∀ (id : NodeId) (s : Symbol L) next lang, g.memo.find? id s = some next → g.Portrays lang id →
    g.Portrays (lang.derivative s.kind) next

/-- What is answered of a node that portrays a language is what the language says. -/
def Reply.Portrays {L : Type} [DecidableEq L] (g g' : Grammar L) : Question L → Reply → Prop
  | .derive id s, .node next | .compute id s, .node next =>
    ∀ lang, g.Portrays lang id → g'.Recollects ∧ g'.Portrays (lang.derivative s.kind) next
  | .nullable id, .truth b => ∀ lang, g.Portrays lang id → g' = g ∧ b = lang.isNullable
  | _, _ => True

section Evaluation

variable {L : Type} [DecidableEq L] {W W' : World} {g g' : Grammar L} {lang : Language}
  {id next : NodeId} {s : Symbol L} {node : Node L} {q : Question L} {a : Reply}

theorem Grammar.Portrays.extended (h : g.Portrays lang id) (extension : Extends W g W' g') :
    g'.Portrays lang id :=
  h.of_nodes (P := fun _ => True)
    trivial fun _ _ _ there fixed => ⟨extension.get?_fixed there fixed, fun _ _ => trivial⟩

theorem Grammar.Portrays.back (h : g'.Portrays lang id) (extension : Extends W g W' g')
    (formed : g.Formed) (lt : id < g.size) : g.Portrays lang id := by
  refine h.of_nodes (P := (· < g.size)) lt fun x node' lt there' fixed => ?_
  obtain ⟨node, there⟩ := Grammar.exists_get? lt
  obtain ⟨_, same, becomes⟩ := extension.node x node there
  cases there'.symm.trans same
  cases becomes with
  | same => exact ⟨there, formed.ranged false x _ there⟩
  | rule | thunk => cases fixed

namespace Grammar.Recollects

/-- What was remembered portrays what it did, when nodes are added. -/
theorem extended (h : g.Recollects) (extension : Extends W g W' g') (formed : g.Formed)
    (memo : g'.memo = g.memo) : g'.Recollects := by
  intro id s next lang found portrays
  rw [memo] at found
  exact (h id s next lang found
    (portrays.back extension formed (formed.memo id s next found).1)).extended extension

theorem withNode (h : g.Recollects) (formed : g.Formed) (fixed : node.isFixed) :
    (g.withNode node).Recollects :=
  h.extended (.withFixed (W := fun _ => .void) fixed .void) formed rfl

theorem of_eq (h : g.Recollects) (arena : g'.arena = g.arena) (memo : g'.memo = g.memo) :
    g'.Recollects := by
  intro id s next lang found portrays
  rw [memo] at found
  exact (h id s next lang found (portrays.of_eq arena.symm)).of_eq arena

/-- A derivative that portrays what it should is remembered. -/
theorem finished {outer : Bool} (h : g.Recollects)
    (new : ∀ lang, g.Portrays lang id → g.Portrays (lang.derivative s.kind) next) :
    (g.finished id s next outer).Recollects := by
  intro x s' known lang found portrays
  have portrays : g.Portrays lang x := portrays.of_eq rfl
  suffices g.Portrays (lang.derivative s'.kind) known from this.of_eq rfl
  rw [Grammar.memo_finished] at found
  split at found
  · exact h x s' known lang found portrays
  · rw [Memo.find?_record] at found
    split at found
    · rename_i same
      obtain ⟨rfl, rfl⟩ := same
      cases found
      exact new lang portrays
    · exact h x s' known lang found portrays

theorem forgotten (g : Grammar L) : g.forgotten.Recollects := by
  intro id s next lang found
  cases (Memo.find?_nil id s).symm.trans found

end Grammar.Recollects

theorem Grammar.Formed.portrays_nothing (formed : g.Formed) :
    g.Portrays Language.nothing Grammar.nothing :=
  .inr ⟨rfl, formed.nothing⟩

/-- What is answered of a node that portrays a language is what the language says. By induction on
the evaluation. -/
theorem Evaluates.portrays (h : Evaluates W g q a W' g') (formed : g.Formed)
    (recollects : g.Recollects) : a.Portrays g g' q := by
  induction h with
  | spent there spent =>
    intro lang h
    refine ⟨recollects, ?_⟩
    cases ‹Node L› with
    | empty =>
      obtain rfl := (portrays_empty there).mp h
      exact formed.portrays_nothing
    | matched =>
      obtain rfl := (portrays_matched there).mp h
      exact formed.portrays_nothing
    | _ => cases spent
  | undefined there => exact fun lang h => absurd h (not_portrays_other there (.inr ⟨_, rfl⟩))
  | rule_known there | rule_new there | thunk there =>
    exact fun lang h => absurd h (not_portrays_other there (.inl rfl))
  | known there comb found => exact fun lang h => ⟨recollects, recollects _ _ _ lang found h⟩
  | @fresh W W₁ g g₁ id next s node there comb new hc ih =>
    have certain : g.certain.Formed := formed.of_eq rfl rfl
    have ih := ih certain (recollects.of_eq rfl rfl)
    intro lang h
    obtain ⟨recollects₁, portrays⟩ := ih lang (h.of_eq rfl)
    have back (lang : Language) (h' : g₁.Portrays lang id) : g.Portrays lang id :=
      (h'.back hc.extension certain (lt_size_of_get? there)).of_eq rfl
    exact ⟨recollects₁.finished fun lang h' => (ih lang ((back lang h').of_eq rfl)).2,
      portrays.of_eq rfl⟩
  | @hit W g id s kind there hit =>
    intro lang h
    refine ⟨recollects.withNode formed rfl, ?_⟩
    rcases (portrays_token there).mp h with rfl | ⟨rfl, -⟩
    · rw [Language.derivative_token, if_pos hit]
      exact .inr ⟨s, Grammar.get?_withNode_self _⟩
    · cases hit.1
  | @miss W g id s kind there miss =>
    intro lang h
    refine ⟨recollects, ?_⟩
    rcases (portrays_token there).mp h with rfl | ⟨-, rfl⟩
    · rw [Language.derivative_token, if_neg miss]
      exact formed.portrays_nothing
    · exact formed.portrays_nothing
  | @alt W W₁ W₂ g g₁ g₂ id left right l r s there hl hr ihl ihr =>
    obtain ⟨formed₁, -⟩ := hl.formed formed
    obtain ⟨formed₂, -⟩ := hr.formed formed₁
    intro lang h
    obtain ⟨_, _, rfl, left_is, right_is⟩ := (portrays_alt there).mp h
    obtain ⟨recollects₁, l_is⟩ := ihl formed recollects _ left_is
    obtain ⟨recollects₂, r_is⟩ := ihr formed₁ recollects₁ _ (right_is.extended hl.extension)
    exact ⟨recollects₂.withNode formed₂ rfl, l, r, Grammar.get?_withNode_self _,
      (l_is.extended hr.extension).withNode _, r_is.withNode _⟩
  | @cat W W₁ W₂ g g₁ g₂ id left right l s there hb hl ihb ihl =>
    intro lang h
    obtain ⟨_, _, rfl, left_is, right_is⟩ := (portrays_cat there).mp h
    obtain ⟨rfl, answer⟩ := ihb formed recollects _ left_is
    obtain ⟨recollects₂, l_is⟩ := ihl formed recollects _ left_is
    obtain ⟨formed₂, -⟩ := hl.formed formed
    rw [Language.derivative_cat, if_neg (by rw [← answer]; exact Bool.false_ne_true)]
    exact ⟨recollects₂.withNode formed₂ rfl, l, right, Grammar.get?_withNode_self _,
      l_is.withNode _, (right_is.extended hl.extension).withNode _⟩
  | @cat_nullable W W₁ W₂ W₃ W₄ g g₁ g₂ g₄ id left right l skipped s there hb hl same hr ihb
      ihl ihr =>
    intro lang h
    obtain ⟨_, _, rfl, left_is, right_is⟩ := (portrays_cat there).mp h
    obtain ⟨rfl, answer⟩ := ihb formed recollects _ left_is
    obtain ⟨recollects₂, l_is⟩ := ihl formed recollects _ left_is
    obtain ⟨formed₂, solidl⟩ := hl.formed formed
    have solidr := (formed.node _ _ there).2.2.extended hl.extension
    have formed₃ : (g₂.withNode (.cat l right)).Formed :=
      formed₂.withNode ⟨⟨solidl.lt_size, solidl⟩, solidr.lt_size, solidr⟩
    have right_is₂ := right_is.extended hl.extension
    obtain ⟨recollects₄, skipped_is⟩ :=
      ihr formed₃ (recollects₂.withNode formed₂ rfl) _ (right_is₂.withNode _)
    obtain ⟨formed₄, -⟩ := hr.formed formed₃
    have consumed : (g₂.withNode (.cat l right)).Portrays (.cat _ _) g₂.size :=
      ⟨l, right, Grammar.get?_withNode_self _, l_is.withNode _, right_is₂.withNode _⟩
    rw [Language.derivative_cat, if_pos answer.symm]
    exact ⟨recollects₄.withNode formed₄ rfl, g₂.size, skipped, Grammar.get?_withNode_self _,
      (consumed.extended hr.extension).withNode _, skipped_is.withNode _⟩
  | @rep W W₁ g g₁ id body d s there hd ih =>
    intro lang h
    obtain ⟨_, rfl, body_is⟩ := (portrays_rep there).mp h
    obtain ⟨recollects₁, d_is⟩ := ih formed recollects _ body_is
    obtain ⟨formed₁, -⟩ := hd.formed formed
    exact ⟨recollects₁.withNode formed₁ rfl, d, id, Grammar.get?_withNode_self _, d_is.withNode _,
      (h.extended hd.extension).withNode _⟩
  | @nullable_plain W g id node b there answer =>
    intro lang h
    refine ⟨rfl, ?_⟩
    cases node with
    | empty =>
      obtain rfl := (portrays_empty there).mp h
      exact (Option.some.inj answer).symm
    | token kind =>
      rcases (portrays_token there).mp h with rfl | ⟨rfl, rfl⟩ <;>
        exact (Option.some.inj answer).symm
    | matched =>
      obtain rfl := (portrays_matched there).mp h
      exact (Option.some.inj answer).symm
    | rep =>
      obtain ⟨_, rfl, -⟩ := (portrays_rep there).mp h
      exact (Option.some.inj answer).symm
    | undefined => exact absurd h (not_portrays_other there (.inr ⟨_, rfl⟩))
    | _ => cases answer
  | nullable_left there _ ih =>
    intro lang h
    obtain ⟨_, _, rfl, left_is, -⟩ := (portrays_alt there).mp h
    obtain ⟨rfl, answer⟩ := ih formed recollects _ left_is
    exact ⟨rfl, by rw [Language.isNullable_alt, ← answer, Bool.true_or]⟩
  | nullable_right there _ _ ihl ihr =>
    intro lang h
    obtain ⟨_, _, rfl, left_is, right_is⟩ := (portrays_alt there).mp h
    obtain ⟨rfl, first⟩ := ihl formed recollects _ left_is
    obtain ⟨rfl, second⟩ := ihr formed recollects _ right_is
    exact ⟨rfl, by rw [Language.isNullable_alt, ← first, ← second, Bool.false_or]⟩
  | nullable_first there _ ih =>
    intro lang h
    obtain ⟨_, _, rfl, left_is, -⟩ := (portrays_cat there).mp h
    obtain ⟨rfl, answer⟩ := ih formed recollects _ left_is
    exact ⟨rfl, by rw [Language.isNullable_cat, ← answer, Bool.false_and]⟩
  | nullable_second there _ _ ihl ihr =>
    intro lang h
    obtain ⟨_, _, rfl, left_is, right_is⟩ := (portrays_cat there).mp h
    obtain ⟨rfl, first⟩ := ihl formed recollects _ left_is
    obtain ⟨rfl, second⟩ := ihr formed recollects _ right_is
    exact ⟨rfl, by rw [Language.isNullable_cat, ← first, ← second, Bool.true_and]⟩
  | nullable_thunk there | nullable_done there | nullable_cycle there | nullable_rule there =>
    exact fun lang h => absurd h (not_portrays_other there (.inl rfl))
  | force_other | force_resolved | force_running | force_pending => trivial

end Evaluation

/-! ## Culling -/

section Culling

variable {L : Type} {g g' : Grammar L} {lang : Language} {id x y left right body : NodeId}
  {node : Node L} {F : Std.TreeMap NodeId (Option NodeId)} {V : NodeId → Prop}

theorem Node.Shrunk.eq_of_leaf {node' : Node L} (h : node.Shrunk g node') (fixed : node.isFixed)
    (leaf : node.successors false = []) : node' = node := by
  cases h with
  | same => rfl
  | alt | cat | rep => cases leaf
  | rule | thunk => cases fixed

theorem Node.Shrunk.exists_alt (h : (Node.alt left right).Shrunk g node) :
    ∃ l r, node = .alt l r ∧ g.Shrinks left l ∧ g.Shrinks right r := by
  cases h with
  | same => exact ⟨_, _, rfl, .refl _, .refl _⟩
  | alt hl hr => exact ⟨_, _, rfl, hl, hr⟩

theorem Node.Shrunk.exists_cat (h : (Node.cat left right).Shrunk g node) :
    ∃ l r, node = .cat l r ∧ g.Shrinks left l ∧ g.Shrinks right r := by
  cases h with
  | same => exact ⟨_, _, rfl, .refl _, .refl _⟩
  | cat hl hr => exact ⟨_, _, rfl, hl, hr⟩

theorem Node.Shrunk.exists_rep (h : (Node.rep body).Shrunk g node) :
    ∃ result, node = .rep (result.getD Grammar.nothing) ∧ g.Remains body result := by
  cases h with
  | same => exact ⟨some body, rfl, .refl _⟩
  | rep hb => exact ⟨_, rfl, hb⟩

theorem Grammar.Shrinks.eq_of_get? (h : g.Shrinks x y) (there : g.arena.get? x = some node)
    (fixed : node.isFixed) (single : ∀ l r, node ≠ .alt l r) : y = x := by
  cases h with
  | refl => rfl
  | alt_left there' | alt_right there' =>
    cases there.symm.trans there'
    exact absurd rfl (single _ _)
  | resolved there' =>
    cases there.symm.trans there'
    cases fixed

variable [DecidableEq L]

/-- A node that portrays a language matches something if the language has words. -/
theorem Grammar.Portrays.productive_iff (h : g.Portrays lang id) (formed : g.Formed) :
    g.Productive id ↔ lang.isAlive := by
  induction lang generalizing id with
  | epsilon =>
    refine iff_of_true ?_ rfl
    rcases h with there | ⟨s, there⟩
    · exact .token there (by decide)
    · refine .matched there fun void => ?_
      have terminal : s.kind.isTerminal := formed.node id _ there
      rw [void] at terminal
      cases terminal
  | token kind =>
    rcases h with there | ⟨rfl, there⟩
    · rw [Grammar.productive_iff there]
      exact bne_iff_ne.symm
    · rw [Grammar.productive_iff there]
      exact iff_of_false (fun h => h) Bool.false_ne_true
  | alt left right ihl ihr =>
    obtain ⟨l, r, there, hl, hr⟩ := h
    rw [Grammar.productive_iff there, Language.isAlive_alt, Bool.or_eq_true]
    exact or_congr (ihl hl) (ihr hr)
  | cat left right ihl ihr =>
    obtain ⟨l, r, there, hl, hr⟩ := h
    rw [Grammar.productive_iff there, Language.isAlive_cat, Bool.and_eq_true]
    exact and_congr (ihl hl) (ihr hr)
  | rep body ih =>
    obtain ⟨b, there, hb⟩ := h
    rw [Grammar.productive_iff there]
    exact iff_of_true trivial rfl
  | rule => exact h.elim

/-- What is left of a node portrays the language without the parts that have no words. By induction
on the language. -/
theorem Grammar.Portrays.pruned (h : g.Portrays lang x) (formed : g.Formed)
    (first : g'.arena.get? Grammar.nothing = some .empty) (culled : Shrinking g F g')
    (compact : g'.Compact V) (left : g.Shrinks x y) (hy : V y) : g'.Portrays lang.pruned y := by
  -- what is left of a part is compact, so the part matched something
  have alive {lang : Language} {z z' : NodeId} (portrays : g.Portrays lang z)
      (left : g.Shrinks z z') (hz : V z') : lang.isAlive := by
    have back := (compact.productive z' hz).of_shrunk fun x node' there => culled.get?_back there
    exact (portrays.productive_iff formed).mp (left.productive_iff.mpr back)
  induction lang generalizing x y with
  | epsilon =>
    rcases h with there | ⟨s, there⟩
    · obtain rfl := left.eq_of_get? there rfl (by simp)
      obtain ⟨node', there', shrunk⟩ := culled.node _ _ there
      obtain rfl := shrunk.eq_of_leaf rfl rfl
      exact .inl there'
    · obtain rfl := left.eq_of_get? there rfl (by simp)
      obtain ⟨node', there', shrunk⟩ := culled.node _ _ there
      obtain rfl := shrunk.eq_of_leaf rfl rfl
      exact .inr ⟨s, there'⟩
  | token kind =>
    rcases h with there | ⟨rfl, there⟩
    · obtain rfl := left.eq_of_get? there rfl (by simp)
      obtain ⟨node', there', shrunk⟩ := culled.node _ _ there
      obtain rfl := shrunk.eq_of_leaf rfl rfl
      exact .inl there'
    · obtain rfl := left.eq_of_get? there rfl (by simp)
      obtain ⟨node', there', shrunk⟩ := culled.node _ _ there
      obtain rfl := shrunk.eq_of_leaf rfl rfl
      exact .inr ⟨rfl, there'⟩
  | alt l r ihl ihr =>
    obtain ⟨a, b, there, ha, hb⟩ := h
    cases left with
    | refl =>
      obtain ⟨node', there', shrunk⟩ := culled.node _ _ there
      obtain ⟨a', b', rfl, left_a, left_b⟩ := shrunk.exists_alt
      have parts := (compact.leads _ _ hy there').resolve_left (by simp)
      have va := parts a' (.head _)
      have vb := parts b' (.tail _ (.head _))
      rw [Language.pruned_alt, if_pos (alive ha left_a va), if_pos (alive hb left_b vb)]
      exact ⟨a', b', there', ihl ha left_a va, ihr hb left_b vb⟩
    | alt_left there' dead left =>
      cases there.symm.trans there'
      rw [pruned_alt_of_dead_right (mt (hb.productive_iff formed).mpr dead)]
      exact ihl ha left hy
    | alt_right there' dead left =>
      cases there.symm.trans there'
      rw [pruned_alt_of_dead_left (mt (ha.productive_iff formed).mpr dead)]
      exact ihr hb left hy
    | resolved there' => cases there.symm.trans there'
  | cat l r ihl ihr =>
    obtain ⟨a, b, there, ha, hb⟩ := h
    obtain rfl := left.eq_of_get? there rfl (by simp)
    obtain ⟨node', there', shrunk⟩ := culled.node _ _ there
    obtain ⟨a', b', rfl, left_a, left_b⟩ := shrunk.exists_cat
    have parts := (compact.leads _ _ hy there').resolve_left (by simp)
    have va := parts a' (.head _)
    have vb := parts b' (.tail _ (.head _))
    rw [pruned_cat_of_isAlive ((Bool.and_eq_true _ _).mpr ⟨alive ha left_a va, alive hb left_b vb⟩)]
    exact ⟨a', b', there', ihl ha left_a va, ihr hb left_b vb⟩
  | rep body ih =>
    obtain ⟨b, there, hb⟩ := h
    obtain rfl := left.eq_of_get? there rfl (by simp)
    obtain ⟨node', there', shrunk⟩ := culled.node _ _ there
    obtain ⟨result, rfl, left_b⟩ := shrunk.exists_rep
    refine ⟨_, there', ?_⟩
    have dead (barren : ¬g.Productive b) : g'.Portrays body.pruned Grammar.nothing := by
      rw [pruned_of_not_isAlive (mt (hb.productive_iff formed).mpr barren)]
      exact .inr ⟨rfl, first⟩
    cases result with
    | none => exact dead left_b
    | some b' =>
      have left_b : g.Shrinks b b' := left_b
      rcases compact.leads _ _ hy there' with none | parts
      · obtain rfl : b' = Grammar.nothing := by simpa using none
        refine dead fun productive => ?_
        have empty :=
          (Grammar.productive_iff formed.nothing).mp (left_b.productive_iff.mp productive)
        exact empty
      · exact ih hb left_b (parts b' (.head _))
  | rule => exact h.elim

/-- What is left when a node is culled portrays the language without the parts that have no
words. -/
theorem cull_portrays {links : Links} {known : List NodeId} {result : Option NodeId}
    (h : g.Portrays lang id) (warrants : g.Warrants links known) (solid : g.Solid id)
    (run : Grammar.cull id g = .ok (result, g')) :
    g'.Portrays lang.pruned (result.getD Grammar.nothing) := by
  obtain ⟨W, good⟩ := warrants.between.1
  obtain ⟨W', good'⟩ := (warrants.cull solid run).between.1
  obtain ⟨culled, remains⟩ := cull_shrinks (good.formed.ranged false) solid.lt_size run
  obtain ⟨-, V, compact, -, left⟩ := cull_compacts warrants.between warrants.owned solid run
  cases result with
  | none =>
    rw [pruned_of_not_isAlive (mt (h.productive_iff good.formed).mpr remains)]
    exact good'.formed.portrays_nothing
  | some y => exact h.pruned good.formed good'.formed.nothing culled compact remains (left y rfl)

/-- A step leads to what portrays the derivative of the language, without the parts that have no
words. -/
theorem step_portrays {links : Links} {known : List NodeId} {fuel : Nat} {s : Symbol L}
    {next : NodeId} {accepts : Bool} (h : g.Portrays lang id) (warrants : g.Warrants links known)
    (run : Grammar.step fuel id s true g = .ok ((next, accepts), g')) :
    g'.Portrays (lang.derivative s.kind).pruned next := by
  obtain ⟨d, g₁, g₂, derived, settled, trimmed⟩ := Grammar.step_ok.mp run
  obtain ⟨result, g₃, culled, run⟩ := Action.bind_ok.mp trimmed
  obtain ⟨rfl, rfl⟩ := Action.pure_ok.mp run
  obtain ⟨W, good⟩ := warrants.forgotten.between.1
  obtain ⟨W₁, derives⟩ := Grammar.evaluates_of_derive W derived
  obtain ⟨-, portrays⟩ := derives.portrays good.formed (.forgotten g) lang (h.of_eq rfl)
  obtain ⟨W₂, asks⟩ := Grammar.evaluates_of_nullable W₁ settled
  have warrants₂ := (warrants.forgotten.derive derived).nullable settled
  exact cull_portrays (portrays.extended asks.extension) warrants₂
    (warrants₂.solid d (.head _)) culled

end Culling

/-! ## How much is reached -/

section Reached

variable {L : Type} {g : Grammar L} {lang part : Language} {id child : NodeId} {node : Node L}
  {n : Nat}

/-- What a node reaches is listed with a place for each part of what it portrays. By induction on
the language. -/
theorem Grammar.Portrays.exists_parts (h : g.Portrays lang id) :
    ∃ parts : List NodeId, parts.length = lang.size ∧ ∀ x, g.Reaches true id x → x ∈ parts := by
  have leaf {node : Node L} {id : NodeId} (there : g.arena.get? id = some node)
      (alone : node.successors true = []) :
      ∃ parts : List NodeId, parts.length = 1 ∧ ∀ x, g.Reaches true id x → x ∈ parts := by
    refine ⟨[id], rfl, fun x reaches => ?_⟩
    rcases (Grammar.reaches_iff there).mp reaches with rfl | ⟨y, below, -⟩
    · exact .head _
    · rw [alone] at below
      cases below
  induction lang generalizing id with
  | epsilon =>
    rcases h with there | ⟨s, there⟩
    · exact leaf there rfl
    · exact leaf there rfl
  | token kind =>
    rcases h with there | ⟨-, there⟩
    · exact leaf there rfl
    · exact leaf there rfl
  | alt left right ihl ihr | cat left right ihl ihr =>
    obtain ⟨l, r, there, hl, hr⟩ := h
    obtain ⟨first, countl, alll⟩ := ihl hl
    obtain ⟨second, countr, allr⟩ := ihr hr
    refine ⟨id :: (first ++ second), ?_, fun x reaches => ?_⟩
    · rw [List.length_cons, List.length_append, countl, countr]
      rfl
    · rcases (Grammar.reaches_iff there).mp reaches with rfl | ⟨y, below, reaches⟩
      · exact .head _
      · rcases List.mem_pair.mp below with rfl | rfl
        · exact .tail _ (List.mem_append_left _ (alll x reaches))
        · exact .tail _ (List.mem_append_right _ (allr x reaches))
  | rep body ih =>
    obtain ⟨b, there, hb⟩ := h
    obtain ⟨parts, count, all⟩ := ih hb
    refine ⟨id :: parts, congrArg Nat.succ count, fun x reaches => ?_⟩
    rcases (Grammar.reaches_iff there).mp reaches with rfl | ⟨y, below, reaches⟩
    · exact .head _
    · obtain rfl := List.mem_singleton.mp below
      exact .tail _ (all x reaches)
  | rule => exact h.elim

/-- So many nodes are reached that portray parts of the language. -/
def Grammar.Deep (g : Grammar L) (lang : Language) (id : NodeId) (n : Nat) : Prop :=
  ∃ chain : List NodeId, chain.length = n ∧ chain.Nodup ∧
    ∀ x ∈ chain, g.Reaches true id x ∧ ∃ part, g.Portrays part x ∧ part.size ≤ lang.size

/-- A node is none of those that a part of it reaches: they portray less. -/
theorem Grammar.Deep.cons (deep : g.Deep part child n) (h : g.Portrays lang id)
    (there : g.arena.get? id = some node) (member : child ∈ node.successors true)
    (less : part.size < lang.size) : g.Deep lang id (n + 1) := by
  obtain ⟨chain, count, nodup, parts⟩ := deep
  refine ⟨id :: chain, congrArg Nat.succ count, nodup.cons fun among => ?_, fun x among => ?_⟩
  · obtain ⟨-, part', h', le⟩ := parts id among
    have same := h.size_eq h'
    omega
  · rcases List.mem_cons.mp among with rfl | among
    · exact ⟨.refl x, lang, h, Nat.le_refl _⟩
    · obtain ⟨reaches, part', h', le⟩ := parts x among
      exact ⟨.head there member reaches, part', h', by omega⟩

theorem Grammar.Deep.single (h : g.Portrays lang id) : g.Deep lang id 1 := by
  refine ⟨[id], rfl, List.nodup_singleton id, fun x among => ?_⟩
  obtain rfl := List.mem_singleton.mp among
  exact ⟨.refl x, lang, h, Nat.le_refl _⟩

/-- A node reaches a node for each of the parts one inside the other. By induction on the
language. -/
theorem Grammar.Portrays.deep (h : g.Portrays lang id) : g.Deep lang id lang.height := by
  induction lang generalizing id with
  | epsilon | token => exact .single h
  | alt left right ihl ihr | cat left right ihl ihr =>
    have whole := h
    obtain ⟨l, r, there, hl, hr⟩ := h
    show g.Deep _ id (max left.height right.height + 1)
    rcases Nat.le_total left.height right.height with le | le
    · rw [Nat.max_eq_right le]
      exact (ihr hr).cons whole there (.tail _ (.head _)) (Nat.lt_succ_of_le (Nat.le_add_left _ _))
    · rw [Nat.max_eq_left le]
      exact (ihl hl).cons whole there (.head _) (Nat.lt_succ_of_le (Nat.le_add_right _ _))
  | rep body ih =>
    have whole := h
    obtain ⟨b, there, hb⟩ := h
    exact (ih hb).cons whole there (.head _) (Nat.lt_succ_self _)
  | rule => exact h.elim

/-- What a node reaches is no more than what it portrays has parts, and no less than it has parts
one inside the other. -/
theorem reachable_portrays (h : g.Portrays lang id) (ranged : g.Ranged true) :
    ∃ n, g.reachable id = .ok n ∧ lang.height ≤ n ∧ n ≤ lang.size := by
  obtain ⟨order, count, nodup, same⟩ := Grammar.reachable_exact ranged h.lt_size
  obtain ⟨chain, tall, distinct, parts⟩ := h.deep
  obtain ⟨places, many, all⟩ := h.exists_parts
  refine ⟨order.length, count, ?_, ?_⟩
  · rw [← tall]
    exact (List.subperm_of_subset distinct fun x among => (same x).mpr (parts x among).1).length_le
  · rw [← many]
    exact (List.subperm_of_subset nodup fun x among => all x ((same x).mp among)).length_le

end Reached

end DerivativeParsing
