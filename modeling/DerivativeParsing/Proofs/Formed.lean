import DerivativeParsing.Proofs.Extension

/-!
# Well-formed graphs

In every graph that is built and evaluated, the parts of a combinator stand in slots before it and
are no thunks, and so are resolutions and remembered derivatives no thunks. All cycles go through
the body of a nonterminal or the base of a thunk.

1. `Grammar.Formed` is this invariant.
2. `Evaluates.formed`: evaluation keeps it, and what it answers is no thunk.
-/

namespace DerivativeParsing

namespace Grammar

variable {L : Type}

/-- A slot that holds a node other than a thunk. -/
def Solid (g : Grammar L) (id : Nat) : Prop :=
  ∃ node, g.arena.get? id = some node ∧ node.isThunk = false

/-- A node that can be a part of a combinator in a slot. -/
def Part (g : Grammar L) (id part : Nat) : Prop := part < id ∧ g.Solid part

end Grammar

/-- What a node in a slot of a well-formed graph is like. -/
def Node.Formed {L : Type} (g : Grammar L) (id : Nat) : Node L → Prop
  | .empty => id = 0
  | .matched symbol => symbol.kind.isTerminal
  | .token _ | .undefined _ => True
  | .alt left right | .cat left right => g.Part id left ∧ g.Part id right
  | .rep body => g.Part id body
  | .rule r body => g.size > body ∧ ∀ kind next, r.memo = some (kind, next) → g.Solid next
  | .thunk t base => g.size > base ∧ ∀ target, t.state.target? = some target → g.Solid target

/-- A well-formed graph. -/
structure Grammar.Formed {L : Type} [DecidableEq L] (g : Grammar L) : Prop where
  nothing : g.arena.get? Grammar.nothing = some .empty
  node : ∀ (id : Nat) node, g.arena.get? id = some node → node.Formed g id
  memo : ∀ (id : Nat) s next, g.memo.find? id s = some next → id < g.size ∧ g.Solid next

namespace Node

variable {L : Type}

@[simp] theorem isThunk_mapRule (f : Rule → Rule) (node : Node L) :
    (node.mapRule f).isThunk = node.isThunk := by
  cases node <;> rfl

@[simp] theorem isThunk_setState (state : ThunkState) (node : Node L) :
    (node.setState state).isThunk = node.isThunk := by
  cases node <;> rfl

theorem Formed.mono {g g' : Grammar L} {id : Nat} {node : Node L} (h : node.Formed g id)
    (size : g.size ≤ g'.size) (solid : ∀ x, g.Solid x → g'.Solid x) : node.Formed g' id := by
  cases node with
  | empty | matched => exact h
  | token | undefined => trivial
  | alt | cat => exact ⟨⟨h.1.1, solid _ h.1.2⟩, h.2.1, solid _ h.2.2⟩
  | rep => exact ⟨h.1, solid _ h.2⟩
  | rule r body =>
    exact ⟨Nat.lt_of_lt_of_le h.1 size, fun kind next hm => solid _ (h.2 kind next hm)⟩
  | thunk t base => exact ⟨Nat.lt_of_lt_of_le h.1 size, fun target ht => solid _ (h.2 target ht)⟩

theorem Formed.part {g : Grammar L} {id x : Nat} {node : Node L} (h : node.Formed g id)
    (comb : node.isCombinator) (mem : x ∈ node.successors true) : g.Part id x := by
  cases node with
  | token => cases mem
  | alt | cat =>
    rcases List.mem_cons.mp mem with rfl | mem
    · exact h.1
    · obtain rfl := List.mem_singleton.mp mem
      exact h.2
  | rep =>
    obtain rfl := List.mem_singleton.mp mem
    exact h
  | _ => cases comb

end Node

namespace Grammar

section Solid

variable {L : Type} {g : Grammar L} {id : Nat}

theorem Solid.lt_size (h : g.Solid id) : id < g.size := by
  obtain ⟨node, there, -⟩ := h
  exact lt_size_of_get? there

theorem Solid.withNode (h : g.Solid id) (node : Node L) : (g.withNode node).Solid id := by
  obtain ⟨node', there, solid⟩ := h
  exact ⟨node', by rw [get?_withNode_of_lt (lt_size_of_get? there), there], solid⟩

theorem Solid.revised {f : Node L → Node L} {x : Nat} (h : g.Solid x)
    (keeps : ∀ node, g.arena.get? id = some node → (f node).isThunk = node.isThunk) :
    (g.revised id f).Solid x := by
  obtain ⟨node, there, solid⟩ := h
  by_cases same : id = x
  · subst same
    exact ⟨f node, by rw [get?_revised, if_pos rfl, there]; rfl, by rw [keeps node there, solid]⟩
  · exact ⟨node, by rw [get?_revised, if_neg same, there], solid⟩

theorem solid_revised {f : Node L → Node L} {x : Nat}
    (keeps : ∀ node, g.arena.get? id = some node → (f node).isThunk = node.isThunk) :
    (g.revised id f).Solid x ↔ g.Solid x := by
  refine ⟨fun ⟨node, there, solid⟩ => ?_, fun h => h.revised keeps⟩
  rw [get?_revised] at there
  split at there
  · rename_i same
    subst same
    obtain ⟨node', there', rfl⟩ := Option.map_eq_some_iff.mp there
    exact ⟨node', there', (keeps node' there').symm.trans solid⟩
  · exact ⟨node, there, solid⟩

theorem solid_withNode {node : Node L} (solid : node.isThunk = false) :
    (g.withNode node).Solid g.size :=
  ⟨node, get?_withNode_self node, solid⟩

end Solid

variable {L : Type} [DecidableEq L] {W W' : World} {g g' : Grammar L} {id : Nat}

theorem Solid.extended (h : g.Solid id) (ext : Extends W g W' g') : g'.Solid id := by
  obtain ⟨node, there, solid⟩ := h
  obtain ⟨node', there', step⟩ := ext.node id node there
  exact ⟨node', there', by rw [step.isThunk_eq, solid]⟩

namespace Formed

theorem solid_nothing (h : g.Formed) : g.Solid Grammar.nothing := ⟨.empty, h.nothing, rfl⟩

/-- A node in a new slot is not the one that matches nothing. -/
theorem size_ne_nothing (h : g.Formed) : g.size ≠ Grammar.nothing :=
  Nat.ne_of_gt (Grammar.lt_size_of_get? h.nothing)

/-- Changes beside the nodes and the known derivatives do not matter. -/
theorem of_eq (h : g.Formed) (arena : g'.arena = g.arena) (memo : g'.memo = g.memo) :
    g'.Formed := by
  obtain ⟨arena', memo', _, _, _⟩ := g'
  obtain rfl : arena' = g.arena := arena
  obtain rfl : memo' = g.memo := memo
  exact ⟨h.nothing, fun id node there => (h.node id node there).mono (Nat.le_refl _) fun _ hx => hx,
    h.memo⟩

theorem withNode {node : Node L} (h : g.Formed) (new : node.Formed g g.size) :
    (g.withNode node).Formed where
  nothing := by rw [get?_withNode_of_lt (lt_size_of_get? h.nothing), h.nothing]
  node id node' there := by
    have size : g.size ≤ (g.withNode node).size := by rw [size_withNode]; omega
    rw [get?_withNode] at there
    by_cases last : id = g.size
    · rw [if_pos last] at there
      cases there
      subst last
      exact new.mono size fun _ hx => hx.withNode _
    · rw [if_neg last] at there
      exact (h.node id node' there).mono size fun _ hx => hx.withNode _
  memo id s next found := by
    obtain ⟨lt, solid⟩ := h.memo id s next found
    exact ⟨by rw [size_withNode]; omega, solid.withNode _⟩

theorem revised {f : Node L → Node L} (h : g.Formed)
    (keeps : ∀ node, g.arena.get? id = some node → (f node).isThunk = node.isThunk)
    (empty : g.arena.get? id = some .empty → f .empty = .empty)
    (new : ∀ node, g.arena.get? id = some node → (f node).Formed g id) :
    (g.revised id f).Formed where
  nothing := by
    rw [get?_revised, h.nothing]
    split
    · rename_i same
      rw [Option.map_some, empty (same ▸ h.nothing)]
    · rfl
  node i node there := by
    have size : g.size ≤ (g.revised id f).size := Nat.le_of_eq (size_revised _ _ _).symm
    rw [get?_revised] at there
    by_cases same : id = i
    · rw [if_pos same] at there
      obtain ⟨node', there', rfl⟩ := Option.map_eq_some_iff.mp there
      subst same
      exact (new node' there').mono size fun _ hx => hx.revised keeps
    · rw [if_neg same] at there
      exact (h.node i node there).mono size fun _ hx => hx.revised keeps
  memo i s next found := by
    obtain ⟨lt, solid⟩ := h.memo i s next found
    exact ⟨by rw [size_revised]; exact lt, solid.revised keeps⟩

theorem withDerivedRule {r : Rule} {body : NodeId} {s : Symbol L} (h : g.Formed)
    (there : g.arena.get? id = some (.rule r body)) : (g.withDerivedRule id r body s).Formed := by
  have lt : g.size > body := (h.node id _ there).1
  have h₁ : (g.withNode (.thunk { symbol := s } body)).Formed :=
    h.withNode ⟨lt, fun target ht => by cases ht⟩
  have h₂ : ((g.withNode (.thunk { symbol := s } body)).withNode
    (.rule { name := r.name } g.size)).Formed :=
    h₁.withNode ⟨by rw [size_withNode]; omega, fun kind next hm => by cases hm⟩
  refine h₂.revised (fun _ _ => by simp) (fun _ => rfl) fun node there' => ?_
  have formed := h₂.node id node there'
  cases node with
  | rule r' body' =>
    refine ⟨formed.1, fun kind next hm => ?_⟩
    cases hm
    rw [← size_withNode g (.thunk { symbol := s } body)]
    exact solid_withNode rfl
  | _ => exact formed

theorem finished {s : Symbol L} {next : NodeId} {outer : Bool} (h : g.Formed) (lt : id < g.size)
    (solid : g.Solid next) : (g.finished id s next outer).Formed where
  nothing := h.nothing
  node i node there := (h.node i node there).mono (Nat.le_refl _) fun _ hx => hx
  memo i s' known found := by
    rw [memo_finished] at found
    split at found
    · exact h.memo i s' known found
    · rw [Memo.find?_record] at found
      split at found
      · rename_i same
        obtain ⟨rfl, rfl⟩ := same
        cases found
        exact ⟨lt, solid⟩
      · exact h.memo i s' known found

theorem setFixpoint {fixpoint : Fixpoint} (h : g.Formed) :
    (g.revised id (.mapRule ({ · with fixpoint }))).Formed := by
  refine h.revised (fun _ _ => by simp) (fun _ => rfl) fun node there => ?_
  have formed := h.node id node there
  cases node with
  | rule r body => exact formed
  | _ => exact formed

theorem running (h : g.Formed) : (g.running id).Formed := by
  refine h.revised (fun _ _ => by simp) (fun _ => rfl) fun node there => ?_
  have formed := h.node id node there
  cases node with
  | thunk t base => exact ⟨formed.1, fun target ht => by cases ht⟩
  | _ => exact formed

theorem resolved {t : Thunk L} {base target : NodeId} (h : g.Formed) (solid : g.Solid target) :
    (g.resolved id t base target).Formed := by
  refine of_eq (g := g.revised id (.setState (.forced target))) ?_ rfl rfl
  refine h.revised (fun _ _ => by simp) (fun _ => rfl) fun node there => ?_
  have formed := h.node id node there
  cases node with
  | thunk t base =>
    refine ⟨formed.1, fun target' ht => ?_⟩
    cases ht
    exact solid
  | _ => exact formed

end Formed

end Grammar

/-! ## Evaluation keeps the graph well-formed -/

def Reply.Solid {L : Type} (g : Grammar L) : Reply → Prop
  | node id => g.Solid id
  | truth _ => True

open Grammar (lt_size_of_get? solid_withNode)

variable {L : Type} [DecidableEq L] {W W' : World} {g g' : Grammar L} {q : Question L} {a : Reply}

theorem Evaluates.formed (h : Evaluates W g q a W' g') (formed : g.Formed) :
    g'.Formed ∧ a.Solid g' := by
  induction h with
  | spent => exact ⟨formed, formed.solid_nothing⟩
  | undefined => exact ⟨formed.of_eq rfl rfl, formed.solid_nothing⟩
  | @rule_known W g id body next s r there known =>
    obtain ⟨⟨kind, _⟩, memo, found⟩ := Option.bind_eq_some_iff.mp known
    obtain ⟨rfl, same⟩ : kind = s.kind ∧ _ = next := by simpa using found
    exact ⟨formed, (formed.node id _ there).2 _ _ (same ▸ memo)⟩
  | rule_new there =>
    exact ⟨formed.withDerivedRule there,
      _, by rw [Grammar.get?_withDerivedRule there, if_pos rfl], rfl⟩
  | thunk _ _ _ ihf ihd => exact ihd (ihf formed).1
  | known _ _ found => exact ⟨formed, (formed.memo _ _ _ found).2⟩
  | fresh there _ _ hc ih =>
    obtain ⟨formed₁, solid⟩ := ih (formed.of_eq rfl rfl)
    have lt := Nat.lt_of_lt_of_le (lt_size_of_get? there) hc.extension.size
    exact ⟨formed₁.finished lt solid, solid⟩
  | hit _ hit =>
    obtain ⟨terminal, rfl⟩ := hit
    exact ⟨formed.withNode terminal, solid_withNode rfl⟩
  | miss => exact ⟨formed, formed.solid_nothing⟩
  | alt there hl hr ihl ihr =>
    obtain ⟨formed₁, solidl⟩ := ihl formed
    obtain ⟨formed₂, solidr⟩ := ihr formed₁
    have solidl := solidl.extended hr.extension
    exact ⟨formed₂.withNode ⟨⟨solidl.lt_size, solidl⟩, solidr.lt_size, solidr⟩, solid_withNode rfl⟩
  | cat there hb hl ihb ihl =>
    obtain ⟨formed₁, -⟩ := ihb formed
    obtain ⟨formed₂, solidl⟩ := ihl formed₁
    have solidr := (formed.node _ _ there).2.2.extended (hb.extension.trans hl.extension)
    exact ⟨formed₂.withNode ⟨⟨solidl.lt_size, solidl⟩, solidr.lt_size, solidr⟩, solid_withNode rfl⟩
  | @cat_nullable W W₁ W₂ W₃ W₄ g g₁ g₂ g₄ id left right l skipped s there hb hl same hr ihb
      ihl ihr =>
    obtain ⟨formed₁, -⟩ := ihb formed
    obtain ⟨formed₂, solidl⟩ := ihl formed₁
    have solidr := (formed.node _ _ there).2.2.extended (hb.extension.trans hl.extension)
    obtain ⟨formed₄, solids⟩ :=
      ihr (formed₂.withNode ⟨⟨solidl.lt_size, solidl⟩, solidr.lt_size, solidr⟩)
    have solidc : g₄.Solid g₂.size := (solid_withNode rfl).extended hr.extension
    exact ⟨formed₄.withNode ⟨⟨solidc.lt_size, solidc⟩, solids.lt_size, solids⟩, solid_withNode rfl⟩
  | rep there hd ih =>
    obtain ⟨formed₁, solidd⟩ := ih formed
    have solid := Grammar.Solid.extended ⟨_, there, rfl⟩ hd.extension
    exact ⟨formed₁.withNode ⟨⟨solidd.lt_size, solidd⟩, solid.lt_size, solid⟩, solid_withNode rfl⟩
  | nullable_plain | nullable_done => exact ⟨formed, trivial⟩
  | nullable_left _ _ ih | nullable_first _ _ ih => exact ih formed
  | nullable_right _ _ _ ihl ihr | nullable_second _ _ _ ihl ihr => exact ihr (ihl formed).1
  | nullable_thunk _ _ _ ihf ihn => exact ihn (ihf formed).1
  | nullable_cycle => exact ⟨formed.of_eq rfl rfl, trivial⟩
  | nullable_rule _ _ _ ih => exact ⟨(ih formed.setFixpoint).1.setFixpoint, trivial⟩
  | force_other there other => exact ⟨formed, _, there, other⟩
  | force_resolved there target => exact ⟨formed, (formed.node _ _ there).2 _ target⟩
  | force_running => exact ⟨formed.of_eq rfl rfl, formed.solid_nothing⟩
  | force_pending _ _ _ ih =>
    obtain ⟨formed₁, solid⟩ := ih formed.running
    exact ⟨formed₁.resolved solid, solid.revised fun _ _ => by simp⟩

end DerivativeParsing
