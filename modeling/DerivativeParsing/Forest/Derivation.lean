import DerivativeParsing.Grammar.Basic
import DerivativeParsing.Tree

/-!
# Derivations and their trees

`Grammar.Derivation` relates a node and a stretch of the input to the trees of its derivations: a
token has the symbol at its position as a leaf, what matches the empty word has the empty tree, a
sequence joins the trees of its parts, a choice and a nonterminal have the tree of the part chosen,
and an iteration of a repetition consumes at least one symbol and joins its tree to the rest.
`Derivation.leaves` says that a tree spells its stretch of the input, `derivation_token`,
`derivation_alt` and so on what is derived at a node of each kind.
-/

namespace DerivativeParsing

namespace Grammar

variable {L : Type}

/-- The derivations of a node over a stretch of the input, with their trees. -/
inductive Derivation (g : Grammar L) (input : List (Symbol L)) :
    NodeId → Nat → Nat → Tree (Symbol L) → Prop
  | epsilon {id : NodeId} {i : Nat} :
    g.arena.get? id = some (.token Kind.epsilon) → Derivation g input id i i .nil
  | token {id : NodeId} {i : Nat} {kind : Kind} {symbol : Symbol L} :
    g.arena.get? id = some (.token kind) → kind.isTerminal → input[i]? = some symbol →
      symbol.kind = kind → Derivation g input id i (i + 1) (.leaf symbol)
  | alt_left {id left right : NodeId} {i j : Nat} {t : Tree (Symbol L)} :
    g.arena.get? id = some (.alt left right) → Derivation g input left i j t →
      Derivation g input id i j t
  | alt_right {id left right : NodeId} {i j : Nat} {t : Tree (Symbol L)} :
    g.arena.get? id = some (.alt left right) → Derivation g input right i j t →
      Derivation g input id i j t
  | cat {id left right : NodeId} {i j k : Nat} {s t : Tree (Symbol L)} :
    g.arena.get? id = some (.cat left right) → Derivation g input left i j s →
      Derivation g input right j k t → Derivation g input id i k (s.join t)
  | rep_nil {id body : NodeId} {i : Nat} :
    g.arena.get? id = some (.rep body) → Derivation g input id i i .nil
  | rep_cons {id body : NodeId} {i j k : Nat} {s t : Tree (Symbol L)} :
    g.arena.get? id = some (.rep body) → i < j → Derivation g input body i j s →
      Derivation g input id j k t → Derivation g input id i k (s.join t)
  | rule {id body : NodeId} {r : Rule} {i j : Nat} {t : Tree (Symbol L)} :
    g.arena.get? id = some (.rule r body) → Derivation g input body i j t →
      Derivation g input id i j t

variable {g : Grammar L} {input : List (Symbol L)} {id : NodeId} {i j : Nat} {t : Tree (Symbol L)}

theorem Derivation.le (h : Derivation g input id i j t) : i ≤ j := by
  induction h <;> omega

private theorem extract_append {α : Type} (l : List α) {i j k : Nat} (hij : i ≤ j) (hjk : j ≤ k) :
    l.extract i j ++ l.extract j k = l.extract i k := by
  simp only [List.extract_eq_take_drop]
  rw [show k - i = (j - i) + (k - j) by omega, List.take_add, List.drop_drop,
    show i + (j - i) = j by omega]

/-- The leaves of a tree are the symbols of its stretch, in order. -/
theorem Derivation.leaves (h : Derivation g input id i j t) : t.leaves = input.extract i j := by
  induction h with
  | epsilon | rep_nil => simp [Tree.leaves]
  | token _ _ here _ =>
    obtain ⟨hi, rfl⟩ := List.getElem?_eq_some_iff.mp here
    rw [Tree.leaves, List.extract_eq_take_drop, List.drop_eq_getElem_cons hi,
      Nat.add_sub_cancel_left, List.take_succ_cons, List.take_zero]
  | alt_left _ _ ih | alt_right _ _ ih | rule _ _ ih => exact ih
  | cat _ hl hr ihl ihr => rw [Tree.leaves_join, ihl, ihr, extract_append _ hl.le hr.le]
  | rep_cons _ _ hl hr ihl ihr => rw [Tree.leaves_join, ihl, ihr, extract_append _ hl.le hr.le]

/-! ## What is derived at a node of each kind -/

section Nodes

variable {left right body : NodeId} {r : Rule} {kind : Kind}

theorem not_derivation {node : Node L} (there : g.arena.get? id = some node)
    (spent : node = .empty ∨ ∃ name, node = .undefined name) : ¬g.Derivation input id i j t := by
  intro h
  cases h with
  | epsilon there' | token there' | alt_left there' | alt_right there' | cat there' | rep_nil there'
  | rep_cons there' | rule there' =>
    cases there.symm.trans there'
    obtain same | ⟨_, same⟩ := spent <;> cases same

theorem derivation_token (there : g.arena.get? id = some (.token kind)) :
    g.Derivation input id i j t ↔ kind = Kind.epsilon ∧ j = i ∧ t = .nil ∨
      kind.isTerminal = true ∧
        ∃ s, input[i]? = some s ∧ s.kind = kind ∧ j = i + 1 ∧ t = .leaf s := by
  constructor
  · intro h
    cases h with
    | epsilon there' =>
      cases there.symm.trans there'
      exact .inl ⟨rfl, rfl, rfl⟩
    | token there' terminal here same =>
      cases there.symm.trans there'
      exact .inr ⟨terminal, _, here, same, rfl, rfl⟩
    | alt_left there' | alt_right there' | cat there' | rep_nil there' | rep_cons there'
    | rule there' =>
      cases there.symm.trans there'
  · rintro (⟨rfl, rfl, rfl⟩ | ⟨terminal, s, here, same, rfl, rfl⟩)
    · exact .epsilon there
    · exact .token there terminal here same

theorem derivation_alt (there : g.arena.get? id = some (.alt left right)) :
    g.Derivation input id i j t ↔
      g.Derivation input left i j t ∨ g.Derivation input right i j t := by
  refine ⟨fun h => ?_, fun h => h.elim (.alt_left there) (.alt_right there)⟩
  cases h with
  | alt_left there' h =>
    cases there.symm.trans there'
    exact .inl h
  | alt_right there' h =>
    cases there.symm.trans there'
    exact .inr h
  | epsilon there' | token there' | cat there' | rep_nil there' | rep_cons there' | rule there' =>
    cases there.symm.trans there'

theorem derivation_cat (there : g.arena.get? id = some (.cat left right)) :
    g.Derivation input id i j t ↔
      ∃ m l r, g.Derivation input left i m l ∧ g.Derivation input right m j r ∧ l.join r = t := by
  constructor
  · intro h
    cases h with
    | cat there' hl hr =>
      cases there.symm.trans there'
      exact ⟨_, _, _, hl, hr, rfl⟩
    | epsilon there' | token there' | alt_left there' | alt_right there' | rep_nil there'
    | rep_cons there'
    | rule there' => cases there.symm.trans there'
  · rintro ⟨m, l, r, hl, hr, rfl⟩
    exact .cat there hl hr

theorem derivation_rep (there : g.arena.get? id = some (.rep body)) :
    g.Derivation input id i j t ↔ j = i ∧ t = .nil ∨
      ∃ m l r, i < m ∧ g.Derivation input body i m l ∧ g.Derivation input id m j r ∧
        l.join r = t := by
  constructor
  · intro h
    cases h with
    | rep_nil => exact .inl ⟨rfl, rfl⟩
    | rep_cons there' lt hb hr =>
      cases there.symm.trans there'
      exact .inr ⟨_, _, _, lt, hb, hr, rfl⟩
    | epsilon there' | token there' | alt_left there' | alt_right there' | cat there'
    | rule there' =>
      cases there.symm.trans there'
  · rintro (⟨rfl, rfl⟩ | ⟨m, l, r, lt, hb, hr, rfl⟩)
    · exact .rep_nil there
    · exact .rep_cons there lt hb hr

theorem derivation_rule (there : g.arena.get? id = some (.rule r body)) :
    g.Derivation input id i j t ↔ g.Derivation input body i j t := by
  refine ⟨fun h => ?_, .rule there⟩
  cases h with
  | rule there' h =>
    cases there.symm.trans there'
    exact h
  | epsilon there' | token there' | alt_left there' | alt_right there' | cat there' | rep_nil there'
  | rep_cons there' => cases there.symm.trans there'

end Nodes

end Grammar

end DerivativeParsing
