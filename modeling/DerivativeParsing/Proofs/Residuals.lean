import DerivativeParsing.Proofs.Steadiness

/-!
# What is left of a node after a symbol

A derivative matches only words that are left of words of its node. When it is taken, that can be
read off the clauses of the two nodes. It is harder to see that it stays so. A thunk that is
evaluated may match fewer words from then on, as a rule may have been taken for one that does not
match the empty word while it was still at work. If the node matched fewer words and its derivative
did not, then the derivative would match too many. But the derivative is made of the same thunks as
the node, and so it matches fewer words too.

To say this, the thunks that have not been evaluated are given whatever words one likes.

1. `Grammar.Residual`: whatever is guessed of the thunks, what follows a symbol in words of a node
   is all that another node matches, if of what is guessed it takes only what the bases of the
   thunks bear out. `Grammar.Residual.matches`: so it is for what the nodes do match.
2. `Conveys` says that every guess for one grammar goes back to a guess for an earlier one, so that
   what was residual is (`Residual.conveyed`). So it is when nodes are added (`Embeds.conveys`),
   when a thunk is resolved to a residual of its base (`conveys_resolved`), and when a grammar is
   culled (`Shrinking.conveys`).
3. `Evaluates.leaves`: derivatives are residual, and so is what is remembered of them
   (`Grammar.Recalls`).
4. `Turns.recalls`, `Turns.residual`: whatever is done to a grammar, what was residual stays so.
-/

namespace DerivativeParsing

open Grammar (nothing lt_size_of_get?)

/-! ## Residuals -/

namespace Grammar

variable {L : Type}

/-- What is guessed of a thunk that has not been evaluated, as far as its base bears it out. -/
def checked (g : Grammar L) (guess : NodeId → Word → Prop) (id : NodeId) (w : Word) : Prop :=
  guess id w ∧ ∃ t base, g.arena.get? id = some (.thunk t base) ∧ t.state.isWaiting ∧
    g.MatchesIf guess base (t.symbol.kind :: w)

/-- Whatever is guessed of thunks that have not been evaluated: the words that a node matches by as
much of the guess as is borne out are left of words that `id` matches, after a symbol of the
kind. -/
def Residual (g : Grammar L) (id : NodeId) (kind : Kind) (next : NodeId) : Prop :=
  ∀ guess w, g.MatchesIf (g.checked guess) next w → g.MatchesIf guess id (kind :: w)

variable {g : Grammar L} {id x next l r d left right body thunk : NodeId} {kind : Kind} {w : Word}
  {guess : NodeId → Word → Prop}

theorem MatchesIf.unchecked (h : g.MatchesIf (g.checked guess) id w) : g.MatchesIf guess id w :=
  h.mono fun _ _ _ checked => checked.1

theorem fulfilled_checked : g.Fulfilled (g.checked g.Matches) := by
  intro id t base w there waiting h
  have hb := h.unchecked
  exact ⟨.waiting there waiting (matchesIf_self.mp hb), t, base, there, waiting, hb⟩

/-- What a residual matches is left of what the node matches. -/
theorem Residual.matches (h : g.Residual id kind next) (hw : g.Matches next w) :
    g.Matches id (kind :: w) := by
  have borne := matches_iff_fulfilled.mp hw (g.checked g.Matches) fulfilled_checked
  exact matchesIf_self.mp (h g.Matches w borne)

namespace Residual

theorem mono (h : g.Residual id kind next)
    (sub : ∀ guess w, g.MatchesIf guess id w → g.MatchesIf guess x w) :
    g.Residual x kind next := fun guess w hw => sub guess _ (h guess w hw)

/-! ### What is made of residuals -/

theorem union (new : g.arena.get? next = some (.alt l r)) (hl : g.Residual id kind l)
    (hr : g.Residual id kind r) : g.Residual id kind next := by
  intro guess w hw
  rcases (matchesIf_iff new).mp hw with hw | hw
  · exact hl guess w hw
  · exact hr guess w hw

theorem alt (there : g.arena.get? id = some (.alt left right))
    (new : g.arena.get? next = some (.alt l r)) (hl : g.Residual left kind l)
    (hr : g.Residual right kind r) : g.Residual id kind next :=
  union new (hl.mono fun _ _ h => (matchesIf_iff there).mpr (.inl h))
    (hr.mono fun _ _ h => (matchesIf_iff there).mpr (.inr h))

/-- What is left of the first part comes before the second part. -/
theorem cat (there : g.arena.get? id = some (.cat left right))
    (new : g.arena.get? next = some (.cat l right)) (hl : g.Residual left kind l) :
    g.Residual id kind next := by
  intro guess w hw
  obtain ⟨u, v, rfl, hu, hv⟩ := (matchesIf_iff new).mp hw
  exact (matchesIf_iff there).mpr ⟨kind :: u, v, rfl, hl guess u hu, hv.unchecked⟩

theorem rep (there : g.arena.get? id = some (.rep body))
    (new : g.arena.get? next = some (.cat d id)) (hd : g.Residual body kind d) :
    g.Residual id kind next := by
  intro guess w hw
  obtain ⟨u, v, rfl, hu, hv⟩ := (matchesIf_iff new).mp hw
  exact (matchesIf_iff there).mpr (.inr ⟨kind :: u, v, rfl, hd guess u hu, hv.unchecked⟩)

theorem matched {s : Symbol L} (there : g.arena.get? id = some (.token s.kind))
    (terminal : s.kind.isTerminal) (new : g.arena.get? next = some (.matched s)) :
    g.Residual id s.kind next := by
  intro guess w hw
  obtain rfl : w = [] := (matchesIf_iff new).mp hw
  exact (matchesIf_iff there).mpr (.inr ⟨terminal, rfl⟩)

/-- Of a thunk of the body of a rule no more is believed than its base bears out. -/
theorem rule {rule rule' : Rule} {t : Thunk L} (there : g.arena.get? id = some (.rule rule body))
    (new : g.arena.get? next = some (.rule rule' thunk))
    (waits : g.arena.get? thunk = some (.thunk t body)) (waiting : t.state.isWaiting) :
    g.Residual id t.symbol.kind next := by
  intro guess w hw
  have hw : g.MatchesIf (g.checked guess) thunk w := (matchesIf_iff new).mp hw
  rcases (matchesIf_iff waits).mp hw with ⟨-, -, t', base, waits', -, hb⟩ | ⟨target, resolved, -⟩
  · cases waits.symm.trans waits'
    exact (matchesIf_iff there).mpr hb
  · exact absurd waiting (not_waiting_of_resolved resolved)

variable [DecidableEq L]

theorem nothing (formed : g.Formed) : g.Residual id kind nothing :=
  fun _ _ hw => ((matchesIf_iff formed.nothing).mp hw).elim

/-- What is left of the node that matches nothing is left of any node. -/
theorem of_nothing (h : g.Residual Grammar.nothing kind next) (formed : g.Formed) :
    g.Residual id kind next :=
  fun guess w hw => ((matchesIf_iff formed.nothing).mp (h guess w hw)).elim

theorem skip (formed : g.Formed) (there : g.arena.get? id = some (.cat left right))
    (empty : Evident g left) (hr : g.Residual right kind next) : g.Residual id kind next :=
  hr.mono fun guess w h => (matchesIf_iff there).mpr ⟨[], w, rfl, empty.matchesIf formed guess, h⟩

theorem resolved {t : Thunk L} {base target : NodeId} (formed : g.Formed)
    (there : g.arena.get? id = some (.thunk t base)) (known : t.state.target? = some target)
    (h : g.Residual target kind next) : g.Residual id kind next :=
  h.mono fun _ _ h => h.of_target formed there known

theorem shrinks (h : g.Residual id kind next) (formed : g.Formed) (left : g.Shrinks next x) :
    g.Residual id kind x :=
  fun guess w hw => h guess w ((left.matchesIf_iff formed).mpr hw)

end Residual

end Grammar

/-! ## What stays residual -/

/-- Every guess for a grammar goes back to a guess for an earlier one. By as much of it as is borne
out a node matched what it matches, and it matches what it matched by the guess. -/
structure Conveys {L : Type} (g g' : Grammar L) : Prop where
  size : g.size ≤ g'.size
  guess : ∀ guess', ∃ guess, (∀ x w, g.MatchesIf guess x w → g'.MatchesIf guess' x w) ∧
    ∀ x w, x < g.size → g'.MatchesIf (g'.checked guess') x w → g.MatchesIf (g.checked guess) x w

/-- What may become of a node without a change of the words that it matches. -/
inductive Node.Resembles {L : Type} : Node L → Node L → Prop
  | same (node : Node L) : Resembles node node
  | rule {r r' : Rule} {body : NodeId} : Resembles (.rule r body) (.rule r' body)
  | waiting {t t' : Thunk L} {base : NodeId} :
    t.symbol = t'.symbol → t.state.isWaiting → t'.state.isWaiting →
    Resembles (.thunk t base) (.thunk t' base)

/-- Nodes may have been added, and those that were there match words by the same clauses. -/
def Embeds {L : Type} (g g' : Grammar L) : Prop :=
  ∀ (id : NodeId) node, g.arena.get? id = some node →
    ∃ node', g'.arena.get? id = some node' ∧ node.Resembles node'

section Conveys

variable {L : Type} {g g₁ g' : Grammar L} {id x next : NodeId} {kind : Kind} {w : Word}
  {guess : NodeId → Word → Prop} {node node' : Node L} {f : Node L → Node L}

theorem Grammar.Residual.conveyed (h : g.Residual x kind next) (conveys : Conveys g g')
    (lt : next < g.size) : g'.Residual x kind next := by
  intro guess' w hw
  obtain ⟨guess, forth, back⟩ := conveys.guess guess'
  exact forth x _ (h guess w (back next w lt hw))

namespace Conveys

theorem refl (g : Grammar L) : Conveys g g where
  size := Nat.le_refl _
  guess guess := ⟨guess, fun _ _ h => h, fun _ _ _ h => h⟩

theorem trans (h : Conveys g g₁) (h' : Conveys g₁ g') : Conveys g g' where
  size := Nat.le_trans h.size h'.size
  guess guess' := by
    obtain ⟨guess₁, forth₁, back₁⟩ := h'.guess guess'
    obtain ⟨guess, forth, back⟩ := h.guess guess₁
    refine ⟨guess, fun x w hw => forth₁ x w (forth x w hw), fun x w lt hw => ?_⟩
    exact back x w lt (back₁ x w (Nat.lt_of_lt_of_le lt h.size) hw)

end Conveys

theorem Node.Resembles.spellsIf_iff {M : NodeId → Word → Prop} (h : node.Resembles node') :
    node.SpellsIf guess M id w ↔ node'.SpellsIf guess M id w := by
  cases h with
  | same | rule => rfl
  | @waiting t t' base same waiting waiting' =>
    have none {t : Thunk L} (waiting : t.state.isWaiting) : ¬∃ target,
        t.resolved? = some target ∧ M target w :=
      fun ⟨_, resolved, _⟩ => Grammar.not_waiting_of_resolved resolved waiting
    calc (Node.thunk t base).SpellsIf guess M id w
      _ ↔ guess id w := (or_iff_left (none waiting)).trans (and_iff_right waiting)
      _ ↔ _ := (and_iff_right waiting').symm.trans (or_iff_left (none waiting')).symm

namespace Embeds

theorem of_eq (arena : g'.arena = g.arena) : Embeds g g' :=
  fun _ node there => ⟨node, arena ▸ there, .same node⟩

theorem withNode (node : Node L) : Embeds g (g.withNode node) :=
  fun _ node' there =>
    ⟨node', by rw [Grammar.get?_withNode_of_lt (lt_size_of_get? there), there], .same node'⟩

theorem revised (step : ∀ node, g.arena.get? id = some node → node.Resembles (f node)) :
    Embeds g (g.revised id f) := by
  intro x node there
  rw [Grammar.get?_revised, there]
  by_cases same : id = x
  · subst same
    exact ⟨f node, if_pos rfl, step node there⟩
  · exact ⟨node, if_neg same, .same node⟩

/-- What belongs to a rule besides its body does not matter. -/
theorem mapRule (change : Rule → Rule) : Embeds g (g.revised id (.mapRule change)) := by
  refine revised fun node _ => ?_
  cases node with
  | rule => exact .rule
  | _ => exact .same _

theorem running {t : Thunk L} {base : NodeId} (there : g.arena.get? id = some (.thunk t base))
    (state : t.state = .pending) : Embeds g (g.running id) := by
  refine revised fun node there' => ?_
  cases there.symm.trans there'
  exact .waiting rfl (by rw [state]; rfl) rfl

theorem size_le (h : Embeds g g') : g.size ≤ g'.size := by
  refine Nat.le_of_not_lt fun lt => ?_
  obtain ⟨node, there⟩ := Grammar.exists_get? lt
  obtain ⟨_, there', -⟩ := h _ node there
  exact absurd (lt_size_of_get? there') (Nat.lt_irrefl _)

theorem matchesIf_forth (h : Embeds g g') (hw : g.MatchesIf guess x w) :
    g'.MatchesIf guess x w := by
  refine hw.least (P := g'.MatchesIf guess) fun x w node there _ spells => ?_
  obtain ⟨node', there', alike⟩ := h x node there
  exact (Grammar.matchesIf_iff there').mpr
    (alike.spellsIf_iff.mp (spells.mono (fun h => h) fun _ _ _ h => h.2))

theorem matchesIf_back (h : Embeds g g') (ranged : g.Ranged false) (hw : g'.MatchesIf guess x w)
    (lt : x < g.size) : g.MatchesIf guess x w := by
  refine hw.least (P := fun x w => x < g.size → g.MatchesIf guess x w)
    (fun x w node' there' _ spells lt => ?_) lt
  obtain ⟨node, there⟩ := Grammar.exists_get? lt
  obtain ⟨_, there₁, alike⟩ := h x node there
  cases there₁.symm.trans there'
  refine (Grammar.matchesIf_iff there).mpr
    ((alike.spellsIf_iff.mpr spells).mono (fun h => h) fun y v part h => h.2 ?_)
  rcases part with rfl | member
  · exact lt
  · exact ranged x node there y member

variable [DecidableEq L]

/-- When nodes are added, any guess is the same guess as before. -/
theorem conveys (h : Embeds g g') (formed : g.Formed) : Conveys g g' where
  size := h.size_le
  guess guess := by
    refine ⟨guess, fun x w => h.matchesIf_forth, fun x w lt hw => ?_⟩
    refine (h.matchesIf_back (formed.ranged false) hw lt).mono ?_
    rintro y v lt ⟨guessed, t', base', there', waiting', hb⟩
    obtain ⟨node, there⟩ := Grammar.exists_get? lt
    obtain ⟨_, there₁, alike⟩ := h y node there
    cases there₁.symm.trans there'
    have back {base : NodeId} {kind : Kind} (range : base < g.size)
        (hb : g'.MatchesIf guess base (kind :: v)) :=
      h.matchesIf_back (formed.ranged false) hb range
    cases alike with
    | same => exact ⟨guessed, t', base', there, waiting', back (formed.node _ _ there).1 hb⟩
    | @waiting t _ _ same waiting =>
      refine ⟨guessed, t, base', there, waiting, ?_⟩
      rw [same]
      exact back (formed.node _ _ there).1 hb

end Embeds

/-- A thunk is resolved to a residual of its base. What it was guessed to match is what it matches
from now on. -/
theorem conveys_resolved {t t₁ : Thunk L} {base target : NodeId}
    (there : g.arena.get? id = some (.thunk t₁ base)) (symbol : t₁.symbol = t.symbol)
    (waiting : t₁.state.isWaiting) (residual : g.Residual base t.symbol.kind target) :
    Conveys g (g.resolved id t base target) where
  size := Nat.le_of_eq (Grammar.size_resolved _ _ _ _ _).symm
  guess guess' := by
    let g' := g.resolved id t base target
    let guess := g'.MatchesIf guess'
    have there' : g'.arena.get? id = some (.thunk { t₁ with state := .forced target } base) :=
      Grammar.get?_resolved there
    have other {x : NodeId} (ne : id ≠ x) : g'.arena.get? x = g.arena.get? x :=
      Grammar.get?_resolved_of_ne ne
    have back {x : NodeId} {w : Word} (hw : g'.MatchesIf guess' x w) : g.MatchesIf guess x w := by
      refine hw.least (P := g.MatchesIf guess) fun x w node there₁ whole spells => ?_
      by_cases same : id = x
      · subst same
        exact (Grammar.matchesIf_iff there).mpr (.inl ⟨waiting, whole⟩)
      · rw [other same] at there₁
        exact (Grammar.matchesIf_iff there₁).mpr (spells.mono (fun _ => whole) fun _ _ _ h => h.2)
    refine ⟨guess, fun x w hw => ?_, fun x w _ hw => ?_⟩
    · refine hw.least (P := guess) fun x w node there₁ _ spells => ?_
      by_cases same : id = x
      · subst same
        cases there.symm.trans there₁
        rcases spells with ⟨-, guessed⟩ | ⟨target', resolved, -⟩
        · exact guessed
        · exact absurd waiting (Grammar.not_waiting_of_resolved resolved)
      · rcases spells.guessed_or with guessed | spells
        · exact guessed
        · exact (Grammar.matchesIf_iff ((other same).trans there₁)).mpr
            ((spells guess').mono (fun h => h) fun _ _ _ h => h.2)
    · refine hw.least (P := g.MatchesIf (g.checked guess)) fun x w node there₁ whole spells => ?_
      by_cases same : id = x
      · -- what the thunk was guessed to match is borne out by its base, as its resolution is
        -- residual
        subst same
        cases there'.symm.trans there₁
        rcases spells with ⟨waits, -⟩ | ⟨target', resolved, -, ht⟩
        · cases waits
        · cases resolved
          refine (Grammar.matchesIf_iff there).mpr
            (.inl ⟨waiting, whole.unchecked, t₁, base, there, waiting, ?_⟩)
          rw [symbol]
          exact residual guess w ht
      · rw [other same] at there₁
        refine (Grammar.matchesIf_iff there₁).mpr (spells.mono ?_ fun _ _ _ h => h.2)
        rintro ⟨-, t₂, base₂, there₂, waiting₂, hb⟩
        rw [other same] at there₂
        exact ⟨whole.unchecked, t₂, base₂, there₂, waiting₂, back hb⟩

/-- In the course of culling, any guess is the same guess as before. -/
theorem Shrinking.conveys [DecidableEq L] {F : Std.TreeMap NodeId (Option NodeId)}
    (h : Shrinking g F g') (formed : g.Formed) : Conveys g g' where
  size := Nat.le_of_eq h.size.symm
  guess guess := by
    refine ⟨guess, fun x w => (h.matchesIf_iff formed).mpr, fun x w _ hw => ?_⟩
    refine ((h.matchesIf_iff formed).mp hw).mono ?_
    rintro y v - ⟨guessed, t, base, there, waiting, hb⟩
    exact ⟨guessed, t, base, (h.waiting_iff waiting).mp there, waiting,
      (h.matchesIf_iff formed).mp hb⟩

end Conveys

/-! ## What is remembered -/

/-- All that is remembered of derivatives is residual. -/
structure Grammar.Recalls {L : Type} [DecidableEq L] (g : Grammar L) : Prop where
  memo : ∀ (x : NodeId) s next, g.memo.find? x s = some next → g.Residual x s.kind next
  rule : ∀ (x : NodeId) r body kind next, g.arena.get? x = some (.rule r body) →
    r.memo = some (kind, next) → g.Residual x kind next

section Recalls

variable {L : Type} [DecidableEq L] {g g' : Grammar L} {id body next : NodeId} {s : Symbol L}
  {r : Rule} {node : Node L}

namespace Grammar.Recalls

/-- What was remembered still is residual, and what was not is. -/
theorem step (h : g.Recalls) (formed : g.Formed) (conveys : Conveys g g')
    (memo : ∀ (x : NodeId) s next, g'.memo.find? x s = some next →
      g.memo.find? x s = some next ∨ g'.Residual x s.kind next)
    (rule : ∀ (x : NodeId) r' body' kind next, g'.arena.get? x = some (.rule r' body') →
      r'.memo = some (kind, next) → (∃ r body, g.arena.get? x = some (.rule r body) ∧
      r.memo = some (kind, next)) ∨ g'.Residual x kind next) :
    g'.Recalls where
  memo x s next found := by
    rcases memo x s next found with known | residual
    · exact (h.memo x s next known).conveyed conveys (formed.memo x s next known).2.lt_size
    · exact residual
  rule x r' body' kind next there remembered := by
    rcases rule x r' body' kind next there remembered with ⟨r, body, there, remembered⟩ | residual
    · have solid := (formed.node x _ there).2 kind next remembered
      exact (h.rule x r body kind next there remembered).conveyed conveys solid.lt_size
    · exact residual

theorem of_eq (h : g.Recalls) (formed : g.Formed) (arena : g'.arena = g.arena)
    (memo : g'.memo = g.memo ∨ g'.memo = {}) : g'.Recalls := by
  refine h.step formed ((Embeds.of_eq arena).conveys formed)
    (fun x s next found => ?_) fun x r body kind next there memo => ?_
  · rcases memo with same | empty
    · exact .inl (same ▸ found)
    · rw [empty, Memo.find?_nil] at found
      cases found
  · exact .inl ⟨r, body, arena ▸ there, memo⟩

theorem withNode (h : g.Recalls) (formed : g.Formed) (fixed : node.isFixed) :
    (g.withNode node).Recalls := by
  refine h.step formed ((Embeds.withNode node).conveys formed)
    (fun _ _ _ found => .inl found) fun x r body kind next there memo => ?_
  rw [get?_withNode] at there
  split at there
  · cases there
    cases fixed
  · exact .inl ⟨_, _, there, memo⟩

/-- A node is revised, but no rule remembers anything new. -/
theorem revised {f : Node L → Node L} (h : g.Recalls) (formed : g.Formed)
    (conveys : Conveys g (g.revised id f))
    (keeps : ∀ node r' body', g.arena.get? id = some node → f node = .rule r' body' →
      ∃ r body, node = .rule r body ∧ r'.memo = r.memo) : (g.revised id f).Recalls := by
  refine h.step formed conveys
    (fun _ _ _ found => .inl found) fun x r' body' kind next there memo => ?_
  rw [get?_revised] at there
  split at there
  · rename_i same
    subst same
    obtain ⟨node, there, becomes⟩ := Option.map_eq_some_iff.mp there
    obtain ⟨r, body, rfl, same⟩ := keeps node r' body' there becomes
    exact .inl ⟨r, body, there, same ▸ memo⟩
  · exact .inl ⟨_, _, there, memo⟩

theorem setFixpoint {fixpoint : Fixpoint} (h : g.Recalls) (formed : g.Formed) :
    (g.revised id (.mapRule ({ · with fixpoint }))).Recalls := by
  refine h.revised formed ((Embeds.mapRule _).conveys formed) fun node r' body' _ becomes => ?_
  cases node with
  | rule =>
    cases becomes
    exact ⟨_, _, rfl, rfl⟩
  | _ => cases becomes

theorem setState {state : ThunkState} (h : g.Recalls) (formed : g.Formed)
    (conveys : Conveys g (g.revised id (.setState state))) :
    (g.revised id (.setState state)).Recalls := by
  refine h.revised formed conveys fun node r' body' _ becomes => ?_
  cases node with
  | rule =>
    cases becomes
    exact ⟨_, _, rfl, rfl⟩
  | _ => cases becomes

theorem finished {outer : Bool} (h : g.Recalls) (formed : g.Formed)
    (residual : g.Residual id s.kind next) (lt : next < g.size) :
    (g.finished id s next outer).Recalls := by
  have embeds : Embeds g (g.finished id s next outer) := .of_eq rfl
  have conveys := embeds.conveys formed
  refine h.step formed conveys
    (fun x s' known found => ?_) fun x r body kind next there memo => .inl ⟨r, body, there, memo⟩
  rw [memo_finished] at found
  split at found
  · exact .inl found
  · rw [Memo.find?_record] at found
    split at found
    · rename_i same
      obtain ⟨rfl, rfl⟩ := same
      cases found
      exact .inr (residual.conveyed conveys lt)
    · exact .inl found

end Grammar.Recalls

/-! ## Evaluation -/

def Reply.Residual {L : Type} (g : Grammar L) : Question L → Reply → Prop
  | .derive id s, .node next | .compute id s, .node next => g.Residual id s.kind next
  | _, _ => True

/-- A derivative is residual, what is remembered of derivatives is, and what was residual stays
so. -/
structure Leaves {L : Type} [DecidableEq L] (g : Grammar L) (q : Question L) (a : Reply)
    (g' : Grammar L) : Prop where
  conveys : Conveys g g'
  recalls : g'.Recalls
  residual : a.Residual g' q

section Evaluation

variable {W W' : World} {q : Question L} {a : Reply} {t : Thunk L}
  {base target left right l : NodeId} {kind : Kind}

omit [DecidableEq L] in
theorem Embeds.withDerivedRule (there : g.arena.get? id = some (.rule r body)) :
    Embeds g (g.withDerivedRule id r body s) := by
  intro x node there'
  have lt := lt_size_of_get? there'
  rw [Grammar.get?_withDerivedRule there, if_neg (by omega), if_neg (by omega)]
  split
  · rename_i same
    subst same
    cases there.symm.trans there'
    exact ⟨_, rfl, .rule⟩
  · exact ⟨node, there', .same node⟩

omit [DecidableEq L] in
theorem residual_withDerivedRule (there : g.arena.get? id = some (.rule r body)) :
    (g.withDerivedRule id r body s).Residual id s.kind (g.size + 1) := by
  have lt := lt_size_of_get? there
  have old : (g.withDerivedRule id r body s).arena.get? id =
      some (.rule { r with memo := some (s.kind, g.size + 1) } body) := by
    rw [Grammar.get?_withDerivedRule there, if_neg (by omega), if_neg (by omega), if_pos rfl]
  have waits : (g.withDerivedRule id r body s).arena.get? g.size =
      some (.thunk { symbol := s } body) := by
    rw [Grammar.get?_withDerivedRule there, if_neg (by omega), if_pos rfl]
  have new : (g.withDerivedRule id r body s).arena.get? (g.size + 1) =
      some (.rule { name := r.name } g.size) := by
    rw [Grammar.get?_withDerivedRule there, if_pos rfl]
  exact .rule old new waits rfl

theorem Grammar.Recalls.withDerivedRule (h : g.Recalls) (formed : g.Formed)
    (there : g.arena.get? id = some (.rule r body)) : (g.withDerivedRule id r body s).Recalls := by
  refine h.step formed ((Embeds.withDerivedRule there).conveys formed)
    (fun _ _ _ found => .inl found) ?_
  intro x r' body' kind next there' memo
  rw [Grammar.get?_withDerivedRule there] at there'
  split at there'
  · cases there'
    cases memo
  split at there'
  · cases there'
  split at there'
  · rename_i same
    subst same
    cases there'
    cases memo
    exact .inr (residual_withDerivedRule there)
  · exact .inl ⟨_, _, there', memo⟩

theorem Leaves.derived (h : Leaves g (.derive id s) (.node next) g') : g'.Residual id s.kind next :=
  h.residual

theorem Leaves.withNode (conveys : Conveys g g') (formed : g'.Formed) (recalls : g'.Recalls)
    (fixed : node.isFixed) (residual : (g'.withNode node).Residual id s.kind g'.size) :
    Leaves g (.compute id s) (.node g'.size) (g'.withNode node) :=
  ⟨conveys.trans ((Embeds.withNode node).conveys formed), recalls.withNode formed fixed, residual⟩

theorem Evaluates.leaves (h : Evaluates W g q a W' g') (formed : g.Formed) (honest : g.Honest)
    (recalls : g.Recalls) : Leaves g q a g' := by
  induction h with
  | spent | miss => exact ⟨.refl _, recalls, .nothing formed⟩
  | undefined =>
    exact ⟨Embeds.conveys (.of_eq rfl) formed, recalls.of_eq formed rfl (.inl rfl),
      .nothing (formed.of_eq rfl rfl)⟩
  | rule_known there known =>
    obtain ⟨⟨kind, _⟩, memo, found⟩ := Option.bind_eq_some_iff.mp known
    obtain ⟨rfl, same⟩ : kind = _ ∧ _ = _ := by simpa using found
    exact ⟨.refl _, recalls, recalls.rule _ _ _ _ _ there (same ▸ memo)⟩
  | rule_new there =>
    exact ⟨(Embeds.withDerivedRule there).conveys formed, recalls.withDerivedRule formed there,
      residual_withDerivedRule there⟩
  | @thunk W W₁ W₂ g g₁ g₂ id base target next s t there hf hd ihf ihd =>
    obtain ⟨formed₁, -⟩ := hf.formed formed
    obtain ⟨formed₂, -⟩ := hd.formed formed₁
    have forced := ihf formed honest recalls
    have derived := ihd formed₁ (hf.honest formed honest).1 forced.recalls
    refine ⟨forced.conveys.trans derived.conveys, derived.recalls, ?_⟩
    rcases hf.stands there with rfl | ⟨t₁, there₁, known⟩
    · exact derived.derived.of_nothing formed₂
    · obtain ⟨t₂, there₂, -, keep⟩ := hd.extension.retains.thunk _ _ _ there₁
      exact derived.derived.resolved formed₂ there₂ (keep _ known)
  | known _ _ found => exact ⟨.refl _, recalls, recalls.memo _ _ _ found⟩
  | @fresh W W₁ g g₁ id next s node _ _ _ hc ih =>
    have certain : g.certain.Formed := formed.of_eq rfl rfl
    obtain ⟨conveys, recalls₁, residual⟩ :=
      ih certain (honest.of_eq rfl) (recalls.of_eq formed rfl (.inl rfl))
    obtain ⟨formed₁, solid⟩ := hc.formed certain
    have first : Conveys g g.certain := Embeds.conveys (.of_eq rfl) formed
    have last : Conveys g₁ (g₁.finished id s next g.provisional) :=
      Embeds.conveys (.of_eq rfl) formed₁
    have lt : next < g₁.size := Grammar.Solid.lt_size solid
    have residual : g₁.Residual id s.kind next := residual
    exact ⟨first.trans (conveys.trans last), recalls₁.finished formed₁ residual lt,
      residual.conveyed last lt⟩
  | @hit W g id s kind there hit =>
    obtain ⟨terminal, rfl⟩ := hit
    refine .withNode (.refl g) formed recalls rfl ?_
    exact .matched (Grammar.get?_withNode_old there) terminal (Grammar.get?_withNode_self _)
  | @alt W W₁ W₂ g g₁ g₂ id left right l r s there hl hr ihl ihr =>
    obtain ⟨formed₁, solidl⟩ := hl.formed formed
    obtain ⟨formed₂, solidr⟩ := hr.formed formed₁
    have first := ihl formed honest recalls
    have second := ihr formed₁ (hl.honest formed honest).1 first.recalls
    have added : Conveys g₂ (g₂.withNode (.alt l r)) := Embeds.conveys (.withNode _) formed₂
    have old := (hl.extension.trans hr.extension).get?_fixed there rfl
    refine .withNode (first.conveys.trans second.conveys) formed₂ second.recalls rfl ?_
    refine .alt (Grammar.get?_withNode_old old) (Grammar.get?_withNode_self _) ?_ ?_
    · exact first.derived.conveyed (second.conveys.trans added) solidl.lt_size
    · exact second.derived.conveyed added solidr.lt_size
  | @cat W W₁ W₂ g g₁ g₂ id left right l s there hb hl ihb ihl =>
    obtain ⟨formed₁, -⟩ := hb.formed formed
    obtain ⟨formed₂, solidl⟩ := hl.formed formed₁
    have asked := ihb formed honest recalls
    have first := ihl formed₁ (hb.honest formed honest).1 asked.recalls
    have added : Conveys g₂ (g₂.withNode (.cat l right)) := Embeds.conveys (.withNode _) formed₂
    have old := (hb.extension.trans hl.extension).get?_fixed there rfl
    refine .withNode (asked.conveys.trans first.conveys) formed₂ first.recalls rfl ?_
    refine .cat (Grammar.get?_withNode_old old) (Grammar.get?_withNode_self _) ?_
    exact first.derived.conveyed added solidl.lt_size
  | @cat_nullable W W₁ W₂ W₃ W₄ g g₁ g₂ g₄ id left right l skipped s there hb hl same hr ihb
      ihl ihr =>
    obtain ⟨formed₁, -⟩ := hb.formed formed
    obtain ⟨formed₂, solidl⟩ := hl.formed formed₁
    have solidr := (formed.node _ _ there).2.2.extended (hb.extension.trans hl.extension)
    have formed₃ : (g₂.withNode (.cat l right)).Formed :=
      formed₂.withNode ⟨⟨solidl.lt_size, solidl⟩, solidr.lt_size, solidr⟩
    obtain ⟨formed₄, solids⟩ := hr.formed formed₃
    obtain ⟨honest₁, seen⟩ := hb.honest formed honest
    have honest₂ := (hl.honest formed₁ honest₁).1
    have asked := ihb formed honest recalls
    have first := ihl formed₁ honest₁ asked.recalls
    have added : Conveys g₂ (g₂.withNode (.cat l right)) := Embeds.conveys (.withNode _) formed₂
    have second := ihr formed₃ (honest₂.withFixed rfl) (first.recalls.withNode formed₂ rfl)
    have last : Conveys g₄ (g₄.withNode (.alt g₂.size skipped)) :=
      Embeds.conveys (.withNode _) formed₄
    have put : Extends W₂ g₂ W₃ (g₂.withNode (.cat l right)) := .put same rfl
    have adds : Extends W₄ g₄ (W₄.put g₄.size .void) (g₄.withNode (.alt g₂.size skipped)) :=
      .withFixed rfl .void
    have kept := hl.extension.trans (put.trans (hr.extension.trans adds))
    have old := (hb.extension.trans kept).get?_fixed there rfl
    have consumed := hr.extension.get?_fixed (Grammar.get?_withNode_self _) rfl
    have solidc : g₄.Solid g₂.size := ⟨_, consumed, rfl⟩
    have formed' : (g₄.withNode (.alt g₂.size skipped)).Formed :=
      formed₄.withNode ⟨⟨solidc.lt_size, solidc⟩, solids.lt_size, solids⟩
    have before := added.trans second.conveys
    refine .withNode (asked.conveys.trans (first.conveys.trans before))
      formed₄ second.recalls rfl ?_
    refine .union (Grammar.get?_withNode_self _) (.cat old (Grammar.get?_withNode_old consumed) ?_)
      (.skip formed' old ((seen left rfl rfl).retained kept.retains) ?_)
    · exact first.derived.conveyed (before.trans last) solidl.lt_size
    · exact second.derived.conveyed last solids.lt_size
  | @rep W W₁ g g₁ id body d s there hd ih =>
    obtain ⟨formed₁, solidd⟩ := hd.formed formed
    have first := ih formed honest recalls
    have added : Conveys g₁ (g₁.withNode (.cat d id)) := Embeds.conveys (.withNode _) formed₁
    refine .withNode first.conveys formed₁ first.recalls rfl ?_
    refine .rep (Grammar.get?_withNode_old (hd.extension.get?_fixed there rfl))
      (Grammar.get?_withNode_self _) ?_
    exact first.derived.conveyed added solidd.lt_size
  | nullable_plain | nullable_done | force_other | force_resolved =>
    exact ⟨.refl _, recalls, trivial⟩
  | nullable_left _ _ ih | nullable_first _ _ ih =>
    have asked := ih formed honest recalls
    exact ⟨asked.conveys, asked.recalls, trivial⟩
  | nullable_right _ h _ ih ih' | nullable_second _ h _ ih ih' | nullable_thunk _ h _ ih ih' =>
    have asked := ih formed honest recalls
    have later := ih' (h.formed formed).1 (h.honest formed honest).1 asked.recalls
    exact ⟨asked.conveys.trans later.conveys, later.recalls, trivial⟩
  | nullable_cycle | force_running =>
    exact ⟨Embeds.conveys (.of_eq rfl) formed, recalls.of_eq formed rfl (.inl rfl), trivial⟩
  | @nullable_rule W W₁ g g₁ id body r b there state hb ih =>
    have asked := ih formed.setFixpoint (honest.begun there state) (recalls.setFixpoint formed)
    have formed₁ := (hb.formed formed.setFixpoint).1
    have begun : Conveys g (g.begun id) := Embeds.conveys (.mapRule _) formed
    have done : Conveys g₁ (g₁.done id b) := Embeds.conveys (.mapRule _) formed₁
    exact ⟨begun.trans (asked.conveys.trans done), asked.recalls.setFixpoint formed₁, trivial⟩
  | @force_pending W W₁ g g₁ id base target t there state hd ih =>
    have running : Conveys g (g.running id) := (Embeds.running there state).conveys formed
    have derived := ih formed.running (honest.setState (Retains.running (W := W) there state))
      (recalls.setState formed running)
    obtain ⟨formed₁, solid⟩ := hd.formed formed.running
    obtain ⟨t₁, there₁, symbol, kept⟩ := hd.extension.get?_thunk (Grammar.get?_running there)
    have waiting : t₁.state.isWaiting := by
      generalize t₁.state = state at kept
      cases kept
      rfl
    have resolved : Conveys g₁ (g₁.resolved id t base target) :=
      conveys_resolved there₁ symbol.symm waiting derived.derived
    refine ⟨running.trans (derived.conveys.trans resolved), ?_, trivial⟩
    have formed₂ : (g₁.resolved id t base target).Formed := formed₁.resolved solid
    have bare : Conveys g₁ (g₁.revised id (.setState (.forced target))) :=
      resolved.trans (Embeds.conveys (.of_eq rfl) formed₂)
    exact (derived.recalls.setState formed₁ bare).of_eq (formed₂.of_eq rfl rfl) rfl (.inl rfl)

end Evaluation

/-! ## Collection -/

section Collection

variable {place : NodeId → Option NodeId} {x x' y y' : NodeId} {kind : Kind} {w : Word}
  {guess guess' M : NodeId → Word → Prop}

/-- What holds of a node where it is put. -/
def Placed (place : NodeId → Option NodeId) (M : NodeId → Word → Prop) (x : NodeId) (w : Word) :
    Prop :=
  ∃ x', place x = some x' ∧ M x' w

theorem placed_iff (hx : place x = some x') : Placed place M x w ↔ M x' w := by
  simp [Placed, hx]

@[simp] theorem ThunkState.isWaiting_moved (state : ThunkState) :
    (state.moved place).isWaiting = state.isWaiting := by
  cases state with
  | culled target => cases target <;> rfl
  | _ => rfl

omit [DecidableEq L] in
theorem Node.successors_true_of_false (member : x ∈ node.successors false) :
    x ∈ node.successors true := by
  cases node with
  | thunk t base =>
    obtain ⟨s, state⟩ := t
    cases state with
    | pending | running => cases member
    | forced | culled => exact member
  | _ => exact member

omit [DecidableEq L] in
theorem spellsIf_relocate (hx : place x = some x')
    (has : ∀ y ∈ node.successors true, place y = some (movedBy place y)) :
    (node.relocate place).SpellsIf guess M x' w ↔
      node.SpellsIf (Placed place guess) (Placed place M) x w := by
  cases node with
  | empty | undefined | token | matched => rfl
  | alt left right =>
    exact or_congr (placed_iff (has _ (.head _))).symm (placed_iff (has _ (.tail _ (.head _)))).symm
  | cat left right =>
    refine exists_congr fun u => exists_congr fun v => and_congr_right fun _ => ?_
    exact and_congr (placed_iff (has _ (.head _))).symm
      (placed_iff (has _ (.tail _ (.head _)))).symm
  | rep body =>
    refine or_congr_right (exists_congr fun u => exists_congr fun v => and_congr_right fun _ => ?_)
    exact and_congr (placed_iff (has _ (.head _))).symm (placed_iff hx).symm
  | rule r body => exact (placed_iff (has _ (.head _))).symm
  | thunk t base =>
    obtain ⟨s, state⟩ := t
    rw [Node.relocate_thunk]
    cases state with
    | pending | running =>
      exact or_congr (and_congr_right fun _ => (placed_iff hx).symm)
        (by simp [Thunk.resolved?, ThunkState.moved])
    | forced target =>
      have := has target (.head _)
      simp [Node.SpellsIf, Thunk.resolved?, ThunkState.moved, ThunkState.isWaiting, placed_iff this]
    | culled target =>
      cases target with
      | none => simp [Node.SpellsIf, Thunk.resolved?, ThunkState.moved, ThunkState.isWaiting]
      | some target =>
        have := has target (.head _)
        simp [Node.SpellsIf, Thunk.resolved?, ThunkState.moved, ThunkState.isWaiting,
          placed_iff this]

namespace Grammar.Moved

omit [DecidableEq L]

/-- What a node matches it matches where it is put, if the same is guessed there. -/
theorem matchesIf_forth (h : Moved place g g') (hw : g.MatchesIf (Placed place guess) x w)
    (hx : place x = some x') : g'.MatchesIf guess x' w := by
  refine hw.least (P := fun x w => ∀ x', place x = some x' → g'.MatchesIf guess x' w)
    (fun x w node there _ spells x' hx => ?_) x' hx
  obtain ⟨there', has⟩ := h.part hx there
  refine (matchesIf_iff there').mpr
    ((spellsIf_relocate hx has).mpr (spells.mono (fun h => h) fun z v part keeps => ?_))
  rcases part with rfl | member
  · exact ⟨x', hx, keeps.2 x' hx⟩
  · have hz := has z (Node.successors_true_of_false member)
    exact ⟨_, hz, keeps.2 _ hz⟩

/-- What a node matches where it was put it matched, if no less was guessed of it. -/
theorem matchesIf_back (h : Moved place g g')
    (guesses : ∀ z z' v, place z = some z' → guess' z' v → guess z v)
    (hw : g'.MatchesIf guess' x' w) (hx : place x = some x') : g.MatchesIf guess x w := by
  refine hw.least (P := fun x' w => ∀ x, place x = some x' → g.MatchesIf guess x w)
    (fun x' w node' there' _ spells x hx => ?_) x hx
  obtain ⟨node, there, there₁, -⟩ := h.forth x x' hx
  cases there'.symm.trans there₁
  refine (matchesIf_iff there).mpr ?_
  refine ((spellsIf_relocate hx (h.part hx there).2).mp spells).mono ?_ ?_
  · rintro ⟨z', hz, guessed⟩
    exact guesses x z' w hz guessed
  · rintro z v - ⟨z', hz, -, keeps⟩
    exact keeps z hz

theorem residual (h : Moved place g g') (residual : g.Residual x kind y) (hx : place x = some x')
    (hy : place y = some y') : g'.Residual x' kind y' := by
  intro guess w hw
  refine h.matchesIf_forth (residual (Placed place guess) w ?_) hx
  refine h.matchesIf_back (fun z z' v hz checked => ?_) hw hy
  obtain ⟨guessed, t', base', there', waiting, hb⟩ := checked
  refine ⟨⟨z', hz, guessed⟩, ?_⟩
  obtain ⟨node, there, there₁, -⟩ := h.forth z z' hz
  have has := (h.part hz there).2
  have same := Option.some.inj (there'.symm.trans there₁)
  cases node with
  | thunk t base =>
    rw [Node.relocate_thunk] at same
    cases same
    have waits : t.state.isWaiting := by simpa using waiting
    have hbase := has base (base_mem_successors (ThunkState.isWaiting_iff.mp waits))
    exact ⟨t, base, there, waits,
      h.matchesIf_back (fun z z' v hz guessed => ⟨z', hz, guessed⟩) hb hbase⟩
  | _ => cases same

end Grammar.Moved

theorem Grammar.Moved.recalls (h : Grammar.Moved place g g') (recalls : g.Recalls) :
    g'.Recalls where
  memo x s next found := by
    rw [h.memo, Memo.find?_nil] at found
    cases found
  rule x r body kind next there remembered := by
    obtain ⟨old, r', body', hx, there', -, memo⟩ := h.rule_back there
    obtain ⟨next', remembered', hy⟩ := memo kind next remembered
    exact h.residual (recalls.rule old r' body' kind next' there' remembered') hx hy

end Collection

/-! ## Whatever is done -/

section Turns

variable {links : Links} {W : World} {culling : Bool} {place : NodeId → Option NodeId}
  {x x' y y' : NodeId} {kind : Kind}

theorem Turns.recalls (h : Turns W g culling place g') (good : Good links W g) (honest : g.Honest)
    (recalls : g.Recalls) : g'.Recalls := by
  cases h with
  | evaluates evaluated => exact (evaluated.leaves good.formed honest recalls).recalls
  | stays arena memo => exact recalls.of_eq good.formed arena memo
  | culls run =>
    obtain ⟨culled, change⟩ := cull_changes good run
    refine recalls.step good.formed (culled.conveys good.formed) (fun x s next found => ?_)
      fun x r body kind next there memo => ?_
    · exact .inl (change.memo ▸ found)
    · obtain ⟨body', there'⟩ := change.rule_iff.mp ⟨body, there⟩
      exact .inl ⟨r, body', there', memo⟩
  | collects _ moved => exact moved.recalls recalls

theorem Turns.residual (h : Turns W g culling place g') (good : Good links W g) (honest : g.Honest)
    (recalls : g.Recalls) (residual : g.Residual x kind y) (lt : y < g.size)
    (hx : place x = some x') (hy : place y = some y') : g'.Residual x' kind y' := by
  cases h with
  | evaluates evaluated =>
    cases hx
    cases hy
    exact residual.conveyed (evaluated.leaves good.formed honest recalls).conveys lt
  | stays arena =>
    cases hx
    cases hy
    exact residual.conveyed (Embeds.conveys (.of_eq arena) good.formed) lt
  | culls run =>
    cases hx
    cases hy
    exact residual.conveyed ((cull_changes good run).1.conveys good.formed) lt
  | collects _ moved => exact moved.residual residual hx hy

end Turns

end Recalls

end DerivativeParsing
