import DerivativeParsing.Proofs.Culling
import Mathlib.Order.FixedPoints

/-!
# What nodes match, before and after culling

A node matches words by the clause of its constructor, and nothing else (`Grammar.Matches`). Culling
leads edges past what matches nothing and past thunks that are resolved. On a cyclic graph it is not
enough that an edge leads to a node of the same words, as a cycle might be left with no way out of
it. But culling leads an edge only to what a derivation through it goes on with, so that every
derivation stays one with some of its nodes left out.

1. `Node.Spells` is one step of a derivation, `Grammar.Matches.least` the induction on derivations.
2. `Grammar.Matches.holds`: a node stands for the words that it matches.
3. `Grammar.MatchesIf`: the words that a node matches if thunks that have not been evaluated match
   what is guessed. `Grammar.matches_iff_fulfilled`: the words that it matches are those that it
   matches whatever the guess, if what is guessed of every thunk takes in what its base makes of it.
4. `Grammar.Shrinks.matchesIf_iff`, `Grammar.Shrinks.matches_iff`: what is left of a node matches
   what the node matches.
5. `Shrinking.matchesIf_iff`, `Shrinking.matches_iff`: in the course of culling, every node matches
   what it matched.
-/

namespace DerivativeParsing

open Grammar (nothing lt_size_of_get?)

/-! ## Derivations, step by step -/

/-- Whether the clause of a node gives it a word, given which nodes match which words. -/
def Node.Spells {L : Type} (M : NodeId → Word → Prop) (id : NodeId) (w : Word) : Node L → Prop
  | .empty | .undefined _ => False
  | .token kind => kind = Kind.epsilon ∧ w = [] ∨ kind.isTerminal ∧ w = [kind]
  | .matched _ => w = []
  | .alt left right => M left w ∨ M right w
  | .cat left right => ∃ u v, w = u ++ v ∧ M left u ∧ M right v
  | .rep body => w = [] ∨ ∃ u v, w = u ++ v ∧ M body u ∧ M id v
  | .rule _ body => M body w
  | .thunk t base => t.state.isWaiting ∧ M base (t.symbol.kind :: w) ∨
    ∃ target, t.resolved? = some target ∧ M target w

theorem Node.Spells.mono {L : Type} {M N : NodeId → Word → Prop} {id : NodeId} {w : Word}
    {node : Node L} (h : node.Spells M id w) (sub : ∀ x v, M x v → N x v) : node.Spells N id w := by
  cases node with
  | empty | undefined | token | matched => exact h
  | alt left right => exact h.imp (sub left w) (sub right w)
  | cat left right =>
    obtain ⟨u, v, same, hl, hr⟩ := h
    exact ⟨u, v, same, sub left u hl, sub right v hr⟩
  | rep body =>
    rcases h with same | ⟨u, v, same, hb, hr⟩
    · exact .inl same
    · exact .inr ⟨u, v, same, sub body u hb, sub id v hr⟩
  | rule r body => exact sub body w h
  | thunk t base =>
    rcases h with ⟨waiting, hb⟩ | ⟨target, resolved, ht⟩
    · exact .inl ⟨waiting, sub base _ hb⟩
    · exact .inr ⟨target, resolved, sub target w ht⟩

namespace Grammar

section Matches

variable {L : Type} {g : Grammar L} {id x : NodeId} {w : Word} {P : NodeId → Word → Prop}

theorem matches_iff {node : Node L} (there : g.arena.get? id = some node) :
    g.Matches id w ↔ node.Spells g.Matches id w := by
  constructor
  · intro h
    cases h with
    | epsilon there' => cases there.symm.trans there'; exact .inl ⟨rfl, rfl⟩
    | token there' terminal => cases there.symm.trans there'; exact .inr ⟨terminal, rfl⟩
    | matched there' => cases there.symm.trans there'; rfl
    | alt_left there' h => cases there.symm.trans there'; exact .inl h
    | alt_right there' h => cases there.symm.trans there'; exact .inr h
    | cat there' hl hr => cases there.symm.trans there'; exact ⟨_, _, rfl, hl, hr⟩
    | rep_nil there' => cases there.symm.trans there'; exact .inl rfl
    | rep_cons there' hb hr => cases there.symm.trans there'; exact .inr ⟨_, _, rfl, hb, hr⟩
    | rule there' h => cases there.symm.trans there'; exact h
    | resolved there' resolved h => cases there.symm.trans there'; exact .inr ⟨_, resolved, h⟩
    | waiting there' waiting h => cases there.symm.trans there'; exact .inl ⟨waiting, h⟩
  · intro h
    cases node with
    | empty | undefined => exact h.elim
    | token kind =>
      rcases h with ⟨rfl, rfl⟩ | ⟨terminal, rfl⟩
      · exact .epsilon there
      · exact .token there terminal
    | matched =>
      obtain rfl : w = [] := h
      exact .matched there
    | alt => exact h.elim (.alt_left there) (.alt_right there)
    | cat =>
      obtain ⟨u, v, rfl, hl, hr⟩ := h
      exact .cat there hl hr
    | rep =>
      rcases h with rfl | ⟨u, v, rfl, hb, hr⟩
      · exact .rep_nil there
      · exact .rep_cons there hb hr
    | rule => exact .rule there h
    | thunk =>
      rcases h with ⟨waiting, h⟩ | ⟨target, resolved, h⟩
      · exact .waiting there waiting h
      · exact .resolved there resolved h

/-- What every clause of matching keeps holds of every word that a node matches. -/
theorem Matches.least
    (step : ∀ x w node, g.arena.get? x = some node →
      node.Spells (fun y v => g.Matches y v ∧ P y v) x w → P x w) (h : g.Matches x w) : P x w := by
  induction h with
  | epsilon there => exact step _ _ _ there (.inl ⟨rfl, rfl⟩)
  | token there terminal => exact step _ _ _ there (.inr ⟨terminal, rfl⟩)
  | matched there => exact step _ _ _ there rfl
  | alt_left there h ih => exact step _ _ _ there (.inl ⟨h, ih⟩)
  | alt_right there h ih => exact step _ _ _ there (.inr ⟨h, ih⟩)
  | cat there hl hr ihl ihr => exact step _ _ _ there ⟨_, _, rfl, ⟨hl, ihl⟩, hr, ihr⟩
  | rep_nil there => exact step _ _ _ there (.inl rfl)
  | rep_cons there hb hr ihb ihr => exact step _ _ _ there (.inr ⟨_, _, rfl, ⟨hb, ihb⟩, hr, ihr⟩)
  | rule there h ih => exact step _ _ _ there ⟨h, ih⟩
  | resolved there resolved h ih => exact step _ _ _ there (.inr ⟨_, resolved, h, ih⟩)
  | waiting there waiting h ih => exact step _ _ _ there (.inl ⟨waiting, h, ih⟩)

/-- A node stands for the words that it matches. -/
theorem Matches.holds [DecidableEq L] {links : Links} {W : World} (h : g.Matches x w)
    (sound : Sound links W g) : (W x).words.Holds w := by
  refine h.least (P := fun x w => (W x).words.Holds w) fun x w node there spells => ?_
  have fits := sound.node x node there
  cases node with
  | empty | undefined => exact spells.elim
  | token => exact fits w spells
  | matched =>
    obtain rfl : w = [] := spells
    exact fits
  | alt => exact spells.elim (fun hl => fits.1.1 w hl.2) fun hr => fits.2.1 w hr.2
  | cat =>
    obtain ⟨u, v, rfl, ⟨-, hl⟩, -, hr⟩ := spells
    exact fits.words u v hl hr
  | rep =>
    rcases spells with rfl | ⟨u, v, rfl, ⟨-, hb⟩, -, hr⟩
    · exact fits.nil
    · exact fits.words u v hb hr
  | rule => exact fits.1.words w spells.2
  | thunk =>
    rcases spells with ⟨waiting, -, h⟩ | ⟨target, resolved, -, h⟩
    · have fits := (World.fits_waiting (ThunkState.isWaiting_iff.mp waiting)).mp fits
      exact fits.1 w h
    · have fits := (World.fits_resolved (Thunk.target?_of_resolved? resolved)).mp fits
      exact fits.1 w h

end Matches

end Grammar

/-! ## Guessing what thunks match -/

/-- Whether the clause of a node gives it a word, given which nodes match which words and what is
guessed of the thunks that have not been evaluated. -/
def Node.SpellsIf {L : Type} (guess M : NodeId → Word → Prop) (id : NodeId) (w : Word) :
    Node L → Prop
  | .thunk t _ => t.state.isWaiting ∧ guess id w ∨ ∃ target, t.resolved? = some target ∧ M target w
  | node => node.Spells M id w

theorem Node.spellsIf_iff {L : Type} {guess M : NodeId → Word → Prop} {id : NodeId} {w : Word}
    {node : Node L} (other : node.isThunk = false) :
    node.SpellsIf guess M id w ↔ node.Spells M id w := by
  cases node with
  | thunk => cases other
  | _ => rfl

/-- What is known of the node itself and of the nodes that it depends on is all that a clause asks
for. -/
theorem Node.SpellsIf.mono {L : Type} {guess guess' M N : NodeId → Word → Prop} {id : NodeId}
    {w : Word} {node : Node L} (h : node.SpellsIf guess M id w) (guesses : guess id w → guess' id w)
    (sub : ∀ x v, x = id ∨ x ∈ node.successors false → M x v → N x v) :
    node.SpellsIf guess' N id w := by
  cases node with
  | empty | undefined | token | matched => exact h
  | alt left right =>
    exact h.imp (sub left w (.inr (.head _))) (sub right w (.inr (.tail _ (.head _))))
  | cat left right =>
    obtain ⟨u, v, same, hl, hr⟩ := h
    exact ⟨u, v, same, sub left u (.inr (.head _)) hl, sub right v (.inr (.tail _ (.head _))) hr⟩
  | rep body =>
    rcases h with same | ⟨u, v, same, hb, hr⟩
    · exact .inl same
    · exact .inr ⟨u, v, same, sub body u (.inr (.head _)) hb, sub id v (.inl rfl) hr⟩
  | rule r body => exact sub body w (.inr (.head _)) h
  | thunk t base =>
    rcases h with ⟨waiting, hb⟩ | ⟨target, resolved, ht⟩
    · exact .inl ⟨waiting, guesses hb⟩
    · exact .inr ⟨target, resolved,
        sub target w (.inr (Grammar.mem_successors_of_resolved resolved)) ht⟩

/-- What a clause gives is guessed, or the guess does not matter. -/
theorem Node.SpellsIf.guessed_or {L : Type} {guess M : NodeId → Word → Prop} {id : NodeId}
    {w : Word} {node : Node L} (h : node.SpellsIf guess M id w) :
    guess id w ∨ ∀ guess', node.SpellsIf guess' M id w := by
  cases node with
  | thunk t base => exact h.imp And.right fun resolved guess' => .inr resolved
  | _ => exact .inr fun guess' => h

namespace Grammar

/-- What the clauses of the nodes make of words that are matched already. -/
def clausesIf {L : Type} (g : Grammar L) (guess : NodeId → Word → Prop) :
    (NodeId → Word → Prop) →o (NodeId → Word → Prop) where
  toFun M x w := ∃ node, g.arena.get? x = some node ∧ node.SpellsIf guess M x w
  monotone' _ _ sub _ _ := fun ⟨node, there, spells⟩ =>
    ⟨node, there, spells.mono id fun x v _ => sub x v⟩

/-- The words that a node matches if the thunks that have not been evaluated match what is
guessed. -/
def MatchesIf {L : Type} (g : Grammar L) (guess : NodeId → Word → Prop) : NodeId → Word → Prop :=
  (g.clausesIf guess).lfp

/-- A guess that takes in, of every thunk that has not been evaluated, what its base makes of it. -/
def Fulfilled {L : Type} (g : Grammar L) (guess : NodeId → Word → Prop) : Prop :=
  ∀ (id : NodeId) t base w, g.arena.get? id = some (.thunk t base) → t.state.isWaiting →
    g.MatchesIf guess base (t.symbol.kind :: w) → guess id w

section MatchesIf

variable {L : Type} {g : Grammar L} {id x : NodeId} {w : Word}
  {P guess guess' : NodeId → Word → Prop}

theorem matchesIf_iff_exists :
    g.MatchesIf guess x w ↔
      ∃ node, g.arena.get? x = some node ∧ node.SpellsIf guess (g.MatchesIf guess) x w :=
  iff_of_eq (congrFun (congrFun (g.clausesIf guess).map_lfp.symm x) w)

theorem matchesIf_iff {node : Node L} (there : g.arena.get? id = some node) :
    g.MatchesIf guess id w ↔ node.SpellsIf guess (g.MatchesIf guess) id w := by
  rw [matchesIf_iff_exists]
  constructor
  · rintro ⟨node', there', spells⟩
    cases there.symm.trans there'
    exact spells
  · exact fun spells => ⟨node, there, spells⟩

/-- What every clause keeps holds of every word that a node matches. -/
theorem MatchesIf.least (step : ∀ x w node, g.arena.get? x = some node → g.MatchesIf guess x w →
      node.SpellsIf guess (fun y v => g.MatchesIf guess y v ∧ P y v) x w → P x w)
    (h : g.MatchesIf guess x w) : P x w := by
  have closed : g.clausesIf guess (fun y v => g.MatchesIf guess y v ∧ P y v) ≤
      fun y v => g.MatchesIf guess y v ∧ P y v := by
    intro y v ⟨node, there, spells⟩
    have whole : g.MatchesIf guess y v :=
      (matchesIf_iff there).mpr (spells.mono id fun _ _ _ h => h.1)
    exact ⟨whole, step y v node there whole spells⟩
  exact ((g.clausesIf guess).lfp_le closed x w h).2

theorem MatchesIf.mono (h : g.MatchesIf guess x w)
    (guesses : ∀ x v, x < g.size → guess x v → guess' x v) : g.MatchesIf guess' x w :=
  h.least fun x w _ there _ spells =>
    (matchesIf_iff there).mpr (spells.mono (guesses x w (lt_size_of_get? there)) fun _ _ _ h => h.2)

/-- A node that matches a word matches something, whatever is guessed. -/
theorem MatchesIf.productive [DecidableEq L] (h : g.MatchesIf guess x w) (formed : g.Formed) :
    g.Productive x := by
  refine h.least
    (P := fun x _ => g.Productive x) fun x w node there _ spells => (productive_iff there).mpr ?_
  have terminal_ne {kind : Kind} (terminal : kind.isTerminal) : kind ≠ Kind.void := by
    rintro rfl
    cases terminal
  cases node with
  | empty | undefined => exact spells.elim
  | token kind =>
    rcases spells with ⟨rfl, -⟩ | ⟨terminal, -⟩
    · exact (by decide : Kind.epsilon ≠ Kind.void)
    · exact terminal_ne terminal
  | matched symbol => exact terminal_ne (show symbol.kind.isTerminal from formed.node x _ there)
  | alt => exact spells.imp And.right And.right
  | cat =>
    obtain ⟨u, v, -, ⟨-, hl⟩, -, hr⟩ := spells
    exact ⟨hl, hr⟩
  | rep => trivial
  | rule => exact spells.2
  | thunk t base =>
    exact spells.imp And.left fun ⟨target, resolved, _, ht⟩ => ⟨target, resolved, ht⟩

/-! ### The right guesses -/

/-- If thunks are guessed right, nodes match what they match. -/
theorem matchesIf_self : g.MatchesIf g.Matches x w ↔ g.Matches x w := by
  constructor
  · intro h
    refine h.least (P := g.Matches) fun x w node there _ spells => ?_
    cases node with
    | thunk t base =>
      rcases spells with ⟨-, h⟩ | ⟨target, resolved, -, ht⟩
      · exact h
      · exact .resolved there resolved ht
    | _ => exact (matches_iff there).mpr (((Node.spellsIf_iff rfl).mp spells).mono fun _ _ h => h.2)
  · intro h
    refine h.least
      (P := g.MatchesIf g.Matches) fun x w node there spells => (matchesIf_iff there).mpr ?_
    cases node with
    | thunk t base =>
      rcases spells with ⟨waiting, hb, -⟩ | ⟨target, resolved, -, ht⟩
      · exact .inl ⟨waiting, .waiting there waiting hb⟩
      · exact .inr ⟨target, resolved, ht⟩
    | _ => exact (Node.spellsIf_iff rfl).mpr (spells.mono fun _ _ h => h.2)

theorem fulfilled_matches : g.Fulfilled g.Matches := fun _ _ _ _ there waiting h =>
  .waiting there waiting (matchesIf_self.mp h)

/-- A node matches the words that it matches whatever the guess, as long as it takes in what the
bases of thunks make of it. -/
theorem matches_iff_fulfilled :
    g.Matches x w ↔ ∀ guess, g.Fulfilled guess → g.MatchesIf guess x w := by
  constructor
  · intro h guess fulfilled
    refine h.least
      (P := g.MatchesIf guess) fun x w node there spells => (matchesIf_iff there).mpr ?_
    cases node with
    | thunk t base =>
      rcases spells with ⟨waiting, -, hb⟩ | ⟨target, resolved, -, ht⟩
      · exact .inl ⟨waiting, fulfilled x t base w there waiting hb⟩
      · exact .inr ⟨target, resolved, ht⟩
    | _ => exact (Node.spellsIf_iff rfl).mpr (spells.mono fun _ _ h => h.2)
  · exact fun h => matchesIf_self.mp (h g.Matches fulfilled_matches)

end MatchesIf

/-! ## What is left of a node -/

section Shrinks

variable {L : Type} [DecidableEq L] {g : Grammar L} {id x y : NodeId} {w : Word}
  {guess : NodeId → Word → Prop} {result : Option NodeId}

omit [DecidableEq L] in
/-- A thunk that is resolved matches what its resolution does. -/
theorem matchesIf_resolved {base target : NodeId} {t : Thunk L}
    (there : g.arena.get? x = some (.thunk t base)) (resolved : t.resolved? = some target) :
    g.MatchesIf guess x w ↔ g.MatchesIf guess target w := by
  rw [matchesIf_iff there]
  constructor
  · rintro (⟨waiting, -⟩ | ⟨target', resolved', h⟩)
    · exact absurd waiting (not_waiting_of_resolved resolved)
    · cases resolved.symm.trans resolved'
      exact h
  · exact fun h => .inr ⟨target, resolved, h⟩

/-- A thunk matches what the node that it stands for does. -/
theorem MatchesIf.of_target {base target : NodeId} {t : Thunk L} (h : g.MatchesIf guess target w)
    (formed : g.Formed) (there : g.arena.get? x = some (.thunk t base))
    (known : t.state.target? = some target) : g.MatchesIf guess x w := by
  obtain ⟨s, state⟩ := t
  cases state with
  | pending | running => cases known
  | forced next =>
    cases known
    exact (matchesIf_resolved there rfl).mpr h
  | culled next =>
    cases next with
    | some next =>
      cases known
      exact (matchesIf_resolved there rfl).mpr h
    | none =>
      -- a thunk that was culled as dead stands for the node that matches nothing
      cases known
      exact ((matchesIf_iff formed.nothing).mp h).elim

theorem Shrinks.matchesIf_iff (h : g.Shrinks x y) (formed : g.Formed) :
    g.MatchesIf guess x w ↔ g.MatchesIf guess y w := by
  induction h with
  | refl => rfl
  | alt_left there dead _ ih =>
    rw [Grammar.matchesIf_iff there, ← ih]
    exact or_iff_left fun h => dead (h.productive formed)
  | alt_right there dead _ ih =>
    rw [Grammar.matchesIf_iff there, ← ih]
    exact or_iff_right fun h => dead (h.productive formed)
  | resolved there resolved _ ih => rw [matchesIf_resolved there resolved, ih]

/-- What is left of a node matches what the node matches. -/
theorem Shrinks.matches_iff (h : g.Shrinks x y) (formed : g.Formed) :
    g.Matches x w ↔ g.Matches y w := by
  rw [← matchesIf_self, h.matchesIf_iff formed, matchesIf_self]

/-- What is left of a node matches what the node matched, and nothing is left only of what matched
nothing. -/
theorem Remains.matches (remains : g.Remains id result) (formed : g.Formed) :
    (∀ next, result = some next → ∀ w, g.Matches next w ↔ g.Matches id w) ∧
      (result = none → ∀ w, ¬g.Matches id w) := by
  refine ⟨?_, ?_⟩
  · rintro next rfl w
    exact (Shrinks.matches_iff remains formed).symm
  · rintro rfl w hw
    exact remains (hw.productive formed)

end Shrinks

end Grammar

/-! ## In the course of culling -/

namespace Shrinking

variable {L : Type} [DecidableEq L] {g₀ g : Grammar L} {F : Std.TreeMap NodeId (Option NodeId)}
  {x : NodeId} {w : Word} {guess : NodeId → Word → Prop}

theorem matchesIf_forth (h : Shrinking g₀ F g) (formed : g₀.Formed) (hw : g₀.MatchesIf guess x w)
    {y : NodeId} (left : g₀.Shrinks x y) : g.MatchesIf guess y w := by
  refine hw.least (P := fun x w => ∀ y, g₀.Shrinks x y → g.MatchesIf guess y w)
    (fun x w node there _ spells y left => ?_)
    y left
  have dead {z : NodeId} {v : Word} (dead : ¬g₀.Productive z) : ¬g₀.MatchesIf guess z v :=
    fun h => dead (h.productive formed)
  cases left with
  | alt_left there' none left =>
    cases there.symm.trans there'
    rcases spells with ⟨-, keeps⟩ | ⟨hr, -⟩
    · exact keeps y left
    · exact absurd hr (dead none)
  | alt_right there' none left =>
    cases there.symm.trans there'
    rcases spells with ⟨hl, -⟩ | ⟨-, keeps⟩
    · exact absurd hl (dead none)
    · exact keeps y left
  | resolved there' resolved left =>
    cases there.symm.trans there'
    rcases spells with ⟨waiting, -⟩ | ⟨target', resolved', -, keeps⟩
    · exact absurd waiting (Grammar.not_waiting_of_resolved resolved)
    · cases resolved.symm.trans resolved'
      exact keeps y left
  | refl =>
    obtain ⟨node', there', shrunk⟩ := h.node x node there
    refine (Grammar.matchesIf_iff there').mpr ?_
    cases shrunk with
    | same => exact spells.mono id fun y v _ h => h.2 y (.refl y)
    | alt hl hr => exact spells.imp (·.2 _ hl) (·.2 _ hr)
    | cat hl hr =>
      obtain ⟨u, v, same, ⟨-, hu⟩, -, hv⟩ := spells
      exact ⟨u, v, same, hu _ hl, hv _ hr⟩
    | @rep b result remains =>
      rcases spells with same | ⟨u, v, same, ⟨hu, keeps⟩, -, hr⟩
      · exact .inl same
      · cases result with
        | none => exact absurd hu (dead remains)
        | some next => exact .inr ⟨u, v, same, keeps next remains, hr _ (.refl _)⟩
    | rule hb => exact spells.2 _ hb
    | @thunk t base target result resolved remains =>
      rcases spells with ⟨waiting, -⟩ | ⟨target', resolved', ht, keeps⟩
      · exact absurd waiting (Grammar.not_waiting_of_resolved resolved)
      · cases resolved.symm.trans resolved'
        cases result with
        | none => exact absurd ht (dead remains)
        | some next => exact .inr ⟨next, rfl, keeps next remains⟩

/-- What a node matches, it matched. -/
theorem matchesIf_back (h : Shrinking g₀ F g) (formed : g₀.Formed) (hw : g.MatchesIf guess x w) :
    g₀.MatchesIf guess x w := by
  refine hw.least (P := g₀.MatchesIf guess) fun x w node there _ spells => ?_
  obtain ⟨node₀, there₀, shrunk⟩ := h.get?_back there
  refine (Grammar.matchesIf_iff there₀).mpr ?_
  cases shrunk with
  | same => exact spells.mono id fun _ _ _ h => h.2
  | alt hl hr =>
    exact spells.imp
      (fun h => (hl.matchesIf_iff formed).mpr h.2) fun h => (hr.matchesIf_iff formed).mpr h.2
  | cat hl hr =>
    obtain ⟨u, v, same, ⟨-, hu⟩, -, hv⟩ := spells
    exact ⟨u, v, same, (hl.matchesIf_iff formed).mpr hu, (hr.matchesIf_iff formed).mpr hv⟩
  | @rep b result remains =>
    rcases spells with same | ⟨u, v, same, ⟨-, hu⟩, -, hv⟩
    · exact .inl same
    · cases result with
      | none => exact ((Grammar.matchesIf_iff formed.nothing).mp hu).elim
      | some next =>
        exact .inr ⟨u, v, same, (Grammar.Shrinks.matchesIf_iff remains formed).mpr hu, hv⟩
  | rule hb => exact (hb.matchesIf_iff formed).mpr spells.2
  | @thunk t base target result resolved remains =>
    rcases spells with ⟨waiting, -⟩ | ⟨next, resolved', -, ht⟩
    · cases waiting
    · obtain rfl : result = some next := resolved'
      exact .inr ⟨target, resolved, (Grammar.Shrinks.matchesIf_iff remains formed).mpr ht⟩

theorem matchesIf_iff (h : Shrinking g₀ F g) (formed : g₀.Formed) :
    g.MatchesIf guess x w ↔ g₀.MatchesIf guess x w :=
  ⟨h.matchesIf_back formed, fun hw => h.matchesIf_forth formed hw (.refl x)⟩

omit [DecidableEq L] in
/-- Culling leaves a thunk that has not been evaluated as it is. -/
theorem waiting_iff (h : Shrinking g₀ F g) {t : Thunk L} {base : NodeId}
    (waiting : t.state.isWaiting) :
    g.arena.get? x = some (.thunk t base) ↔ g₀.arena.get? x = some (.thunk t base) := by
  constructor
  · intro there
    obtain ⟨node₀, there₀, shrunk⟩ := h.get?_back there
    cases shrunk with
    | same => exact there₀
    | thunk => cases waiting
  · intro there₀
    obtain ⟨node, there, shrunk⟩ := h.node x _ there₀
    cases shrunk with
    | same => exact there
    | thunk resolved => exact absurd waiting (Grammar.not_waiting_of_resolved resolved)

theorem fulfilled_iff (h : Shrinking g₀ F g) (formed : g₀.Formed) :
    g.Fulfilled guess ↔ g₀.Fulfilled guess := by
  constructor
  · intro fulfilled id t base w there waiting hb
    exact fulfilled id t base w ((h.waiting_iff waiting).mpr there) waiting
      ((h.matchesIf_iff formed).mpr hb)
  · intro fulfilled id t base w there waiting hb
    exact fulfilled id t base w ((h.waiting_iff waiting).mp there) waiting
      ((h.matchesIf_iff formed).mp hb)

/-- In the course of culling, every node matches what it matched. -/
theorem matches_iff (h : Shrinking g₀ F g) (formed : g₀.Formed) :
    g.Matches x w ↔ g₀.Matches x w := by
  simp only [Grammar.matches_iff_fulfilled, h.fulfilled_iff formed, h.matchesIf_iff formed]

end Shrinking

end DerivativeParsing
