import DerivativeParsing.Proofs.Settling

/-!
# The shapes of derivatives

Without culling the recognizer takes a run for dead only if it is left with the node that matches
nothing itself. Whether it is depends on the shapes of nodes, not on what they stand for.

1. `Grammar.Proper`: every nonterminal has a body, and what a nonterminal remembers as its
   derivative is a nonterminal too.
2. `Grammar.Shaped`: whether a node has parts. At the beginning of a pass the derivative of a node
   with parts has parts; that of a node without is a terminal that has matched, or nothing.
-/

namespace DerivativeParsing

open Grammar (nothing lt_size_of_get?)

/-! ## Proper graphs -/

namespace Grammar

variable {L : Type}

/-- A slot that holds a nonterminal with a body. -/
def IsRule (g : Grammar L) (id : Nat) : Prop := ∃ r body, g.arena.get? id = some (.rule r body)

end Grammar

/-- A node that is no nonterminal without a body, and that remembers nonterminals only. -/
def Node.Proper {L : Type} (g : Grammar L) : Node L → Prop
  | .undefined _ => False
  | .rule r _ => ∀ kind next, r.memo = some (kind, next) → g.IsRule next
  | _ => True

def Grammar.Proper {L : Type} (g : Grammar L) : Prop :=
  ∀ (id : Nat) node, g.arena.get? id = some node → node.Proper g

section Proper

variable {L : Type} {g g' : Grammar L} {id x : Nat} {node : Node L}

theorem Node.Proper.mono (h : node.Proper g) (rules : ∀ x, g.IsRule x → g'.IsRule x) :
    node.Proper g' := by
  cases node with
  | rule r body => exact fun kind next hm => rules next (h kind next hm)
  | undefined => exact h
  | _ => trivial

namespace Grammar

theorem IsRule.withNode (h : g.IsRule x) (node : Node L) : (g.withNode node).IsRule x := by
  obtain ⟨r, body, there⟩ := h
  exact ⟨r, body, by rw [get?_withNode_of_lt (lt_size_of_get? there), there]⟩

theorem IsRule.revised {f : Node L → Node L} (h : g.IsRule x)
    (keeps : ∀ r body, ∃ r', f (.rule r body) = .rule r' body) : (g.revised id f).IsRule x := by
  obtain ⟨r, body, there⟩ := h
  by_cases same : id = x
  · obtain ⟨r', hr⟩ := keeps r body
    exact ⟨r', body, by rw [get?_revised, if_pos same, there, Option.map_some, hr]⟩
  · exact ⟨r, body, by rw [get?_revised, if_neg same, there]⟩

namespace Proper

theorem of_eq (h : g.Proper) (arena : g'.arena = g.arena) : g'.Proper := by
  intro i node there
  rw [arena] at there
  refine (h i node there).mono fun x hx => ?_
  obtain ⟨r, body, there⟩ := hx
  exact ⟨r, body, arena ▸ there⟩

theorem withNode (h : g.Proper) (new : node.Proper g) : (g.withNode node).Proper := by
  intro i node' there
  rw [get?_withNode] at there
  split at there
  · cases there
    exact new.mono fun x hx => hx.withNode _
  · exact (h i node' there).mono fun x hx => hx.withNode _

theorem revised {f : Node L → Node L} (h : g.Proper)
    (keeps : ∀ r body, ∃ r', f (.rule r body) = .rule r' body)
    (new : ∀ node, node.Proper g → (f node).Proper g) : (g.revised id f).Proper := by
  intro i node there
  rw [get?_revised] at there
  split at there
  · obtain ⟨node', there', rfl⟩ := Option.map_eq_some_iff.mp there
    exact (new node' (h i node' there')).mono fun x hx => hx.revised keeps
  · exact (h i node there).mono fun x hx => hx.revised keeps

theorem setFixpoint {fixpoint : Fixpoint} (h : g.Proper) :
    (g.revised id (.mapRule ({ · with fixpoint }))).Proper :=
  h.revised (fun _ _ => ⟨_, rfl⟩) fun node proper => by cases node <;> exact proper

theorem setState {state : ThunkState} (h : g.Proper) : (g.revised id (.setState state)).Proper :=
  h.revised (fun _ _ => ⟨_, rfl⟩) fun node proper => by cases node <;> exact proper

theorem withDerivedRule {r : Rule} {body : NodeId} {s : Symbol L} (h : g.Proper) :
    (g.withDerivedRule id r body s).Proper := by
  have h₁ : (g.withNode (.thunk { symbol := s } body)).Proper := h.withNode trivial
  have h₂ : ((g.withNode (.thunk { symbol := s } body)).withNode
    (.rule { name := r.name } g.size)).Proper :=
    h₁.withNode fun kind next hm => by cases hm
  refine h₂.revised (fun _ _ => ⟨_, rfl⟩) fun node proper => ?_
  cases node with
  | rule r' body' =>
    intro kind next hm
    cases hm
    rw [← size_withNode g (.thunk { symbol := s } body)]
    exact ⟨_, _, get?_withNode_self _⟩
  | _ => exact proper

end Proper

end Grammar

/-- Evaluation declares no nonterminal without a body, and derivatives of nonterminals are
nonterminals. -/
theorem Evaluates.proper [DecidableEq L] {W W' : World} {q : Question L} {a : Reply}
    (h : Evaluates W g q a W' g') (proper : g.Proper) : g'.Proper := by
  induction h with
  | spent | rule_known | known | miss | nullable_plain | nullable_done | force_other
  | force_resolved =>
    exact proper
  | undefined | nullable_cycle | force_running => exact proper.of_eq rfl
  | rule_new => exact proper.withDerivedRule
  | thunk _ _ _ ihf ihd => exact ihd (ihf proper)
  | fresh _ _ _ _ ih => exact (ih (proper.of_eq rfl)).of_eq rfl
  | hit => exact proper.withNode trivial
  | alt _ _ _ ihl ihr => exact (ihr (ihl proper)).withNode trivial
  | cat _ _ _ ihb ihl => exact (ihl (ihb proper)).withNode trivial
  | cat_nullable _ _ _ _ _ ihb ihl ihr =>
    exact (ihr ((ihl (ihb proper)).withNode trivial)).withNode trivial
  | rep _ _ ih => exact (ih proper).withNode trivial
  | nullable_left _ _ ih | nullable_first _ _ ih => exact ih proper
  | nullable_right _ _ _ ihl ihr | nullable_second _ _ _ ihl ihr => exact ihr (ihl proper)
  | nullable_thunk _ _ _ ihf ihn => exact ihn (ihf proper)
  | nullable_rule _ _ _ ih => exact (ih proper.setFixpoint).setFixpoint
  | @force_pending W W₁ g g₁ id base target t _ _ _ ih =>
    exact Grammar.Proper.of_eq (g := g₁.revised id (.setState (.forced target)))
      (ih proper.setState).setState rfl

end Proper

/-! ## Nodes with parts and without -/

/-- Whether a node has parts. It cannot be told of a thunk, which may turn out to be either. -/
def Node.hasParts? {L : Type} : Node L → Option Bool
  | .alt _ _ | .cat _ _ | .rep _ | .rule _ _ => some true
  | .thunk _ _ => none
  | _ => some false

/-- A slot that holds a node with parts, or one without. -/
def Grammar.Shaped {L : Type} (g : Grammar L) (id : Nat) (parts : Bool) : Prop :=
  ∃ node, g.arena.get? id = some node ∧ node.hasParts? = some parts

section Shaped

variable {L : Type} [DecidableEq L] {links : Links} {W W' : World} {g g' : Grammar L}
  {id next : Nat} {s : Symbol L} {parts : Bool} {node : Node L}

omit [DecidableEq L] in
theorem Grammar.Shaped.eq (h : g.Shaped id parts) (there : g.arena.get? id = some node) :
    node.hasParts? = some parts := by
  obtain ⟨node', there', shape⟩ := h
  cases Option.some.inj (there.symm.trans there')
  exact shape

/-- A node with parts is not the one that matches nothing. -/
theorem Grammar.Shaped.ne_nothing (h : g.Shaped id true) (formed : g.Formed) : id ≠ nothing := by
  rintro rfl
  cases h.eq formed.nothing

theorem Extends.shaped (h : Extends W g W' g') (shaped : g.Shaped id parts) :
    g'.Shaped id parts := by
  obtain ⟨node, there, shape⟩ := shaped
  obtain ⟨node', there', step⟩ := h.node id node there
  exact ⟨node', there', by cases step <;> exact shape⟩

/-- At the beginning of a pass a derivative is taken of a combinator, not remembered. -/
theorem Evaluates.computed (h : Evaluates W g (.derive id s) (.node next) W' g') (new : g.memo = {})
    (there : g.arena.get? id = some node) (comb : node.isCombinator) :
    ∃ g₁, Evaluates W g.certain (.compute id s) (.node next) W' g₁ ∧
      g' = g₁.finished id s next g.provisional := by
  refine (h.of_combinator there comb).resolve_left fun ⟨found, _⟩ => ?_
  rw [new, Memo.find?_nil] at found
  cases found

/-- The derivative of a token is the symbol that it has matched, or nothing. -/
theorem Evaluates.of_token {kind : Kind} (h : Evaluates W g (.derive id s) (.node next) W' g')
    (new : g.memo = {}) (there : g.arena.get? id = some (.token kind)) :
    g'.arena.get? next = some (.matched s) ∧ kind.isTerminal ∧ kind = s.kind ∨ next = nothing := by
  obtain ⟨g₁, hc, rfl⟩ := h.computed new there rfl
  cases hc with
  | hit there' hit =>
    cases Option.some.inj (there.symm.trans there')
    exact .inl ⟨Grammar.get?_withNode_self _, hit⟩
  | miss => exact .inr rfl
  | alt there' | cat there' | cat_nullable there' | rep there' =>
    cases Option.some.inj (there.symm.trans there')

/-- A node without parts can be derived to something only if it is a token of the symbol's kind. -/
theorem Evaluates.of_partless (h : Evaluates W g (.derive id s) (.node next) W' g')
    (new : g.memo = {}) (shaped : g.Shaped id false) :
    next = nothing ∨ g'.arena.get? next = some (.matched s) ∧
      s.kind.isTerminal ∧ g.arena.get? id = some (.token s.kind) := by
  obtain ⟨node, there, shape⟩ := shaped
  cases node with
  | token kind =>
    rcases h.of_token new there with ⟨hit, terminal, rfl⟩ | none
    · exact .inr ⟨hit, terminal, there⟩
    · exact .inl none
  | empty | matched | undefined =>
    cases h with
    | spent | undefined => exact .inl rfl
    | rule_known there' | rule_new there' | thunk there' =>
      cases Option.some.inj (there.symm.trans there')
    | known there' comb | fresh there' comb =>
      cases Option.some.inj (there.symm.trans there')
      cases comb
  | _ => cases shape

/-- At the beginning of a pass the derivative of a node has parts exactly if the node has. -/
theorem Evaluates.shaped (h : Evaluates W g (.derive id s) (.node next) W' g') (new : g.memo = {})
    (formed : g.Formed) (proper : g.Proper) (shaped : g.Shaped id parts) :
    g'.Shaped next parts := by
  cases parts with
  | false =>
    rcases h.of_partless new shaped with rfl | ⟨hit, -⟩
    · exact ⟨.empty, (h.formed formed).1.nothing, rfl⟩
    · exact ⟨_, hit, rfl⟩
  | true =>
    obtain ⟨node, there, shape⟩ := shaped
    cases node with
    | alt | cat | rep =>
      obtain ⟨g₁, hc, rfl⟩ := h.computed new there rfl
      cases hc with
      | alt | cat | cat_nullable | rep => exact ⟨_, Grammar.get?_withNode_self _, rfl⟩
      | hit there' | miss there' => cases Option.some.inj (there.symm.trans there')
    | rule r body =>
      cases h with
      | rule_known there' known =>
        cases Option.some.inj (there.symm.trans there')
        obtain ⟨⟨kind, _⟩, memo, found⟩ := Option.bind_eq_some_iff.mp known
        obtain ⟨rfl, same⟩ : kind = s.kind ∧ _ = next := by simpa using found
        obtain ⟨r', body', there'⟩ := proper id _ there _ _ (same ▸ memo)
        exact ⟨_, there', rfl⟩
      | rule_new there' =>
        cases Option.some.inj (there.symm.trans there')
        exact ⟨_, by rw [Grammar.get?_withDerivedRule there, if_pos rfl], rfl⟩
      | spent there' spent =>
        cases Option.some.inj (there.symm.trans there')
        cases spent
      | undefined there' | thunk there' => cases Option.some.inj (there.symm.trans there')
      | known there' comb | fresh there' comb =>
        cases Option.some.inj (there.symm.trans there')
        cases comb
    | _ => cases shape

/-- What a node without parts is derived to stands for the empty word, unless it is nothing. -/
theorem Evaluates.nullable_of_partless (h : Evaluates W g (.derive id s) (.node next) W' g')
    (new : g.memo = {}) (sound : Sound links W g) (shaped : g.Shaped id false)
    (some : next ≠ nothing) : ((W id).words.after s.kind).Nullable := by
  obtain ⟨-, terminal, there⟩ := (h.of_partless new shaped).resolve_left some
  exact sound.node id _ there [s.kind] (.inr ⟨terminal, rfl⟩)

end Shaped

end DerivativeParsing
