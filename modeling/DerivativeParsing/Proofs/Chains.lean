import DerivativeParsing.Proofs.Residuals

/-!
# Neighbours in a chain

Each node of the chain of a recognizer is what was left of the node before it after one symbol. What
was residual when the node was made stays so, whatever is done to the grammar later.

1. `Grammar.Reliable` is what holds of a grammar between calls. `Grammar.Keeps`: deeds that leave
   the nodes where they are keep it, and what is residual (`Enacts.keeps`).
2. `step_residual`: a step leads to a residual.
3. `Recognizer.Linked`: neighbours in the chain are residual. `Linked.callAll`: calls keep this, by
   induction on the calls. `Linked.matches_cons`: so what a node of the chain matches, the node
   before it matches after the symbol in between.
-/

namespace DerivativeParsing

open Grammar (nothing lt_size_of_get?)

/-! ## Between deeds -/

/-- What holds of a grammar between calls, as far as residuals need it. -/
structure Grammar.Reliable {L : Type} [DecidableEq L] (links : Links) (g : Grammar L) : Prop where
  between : ∃ W, Good links W g
  honest : g.Honest
  recalls : g.Recalls

/-- A grammar is reliable, and in it all is residual that was so before. -/
structure Grammar.Keeps {L : Type} [DecidableEq L] (links : Links) (g g' : Grammar L) : Prop where
  reliable : g'.Reliable links
  size : g.size ≤ g'.size
  residual : ∀ x kind y, y < g.size → g.Residual x kind y → g'.Residual x kind y

section Reliable

variable {L α : Type} [DecidableEq L] {links : Links} {origin : Meaning} {W : World}
  {g g₁ g' : Grammar L} {d : Deed L} {id start next x x' y y' : NodeId} {kind : Kind} {s : Symbol L}
  {fuel : Nat} {act : Eval L α} {a : α} {u : Unit} {culling accepts : Bool}
  {place : NodeId → Option NodeId}

theorem Founded.reliable (h : Founded links origin W g start) : g.Reliable links where
  between := ⟨W, h.good⟩
  honest x r body there known := by
    have unstarted : r.fixpoint = .unstarted := (h.fresh x _ there).2.1
    cases unstarted.symm.trans known
  recalls := by
    refine ⟨fun x s next found => ?_, fun x r body kind next there remembered => ?_⟩
    · rw [h.memo, Memo.find?_nil] at found
      cases found
    · have none : r.memo = none := (h.fresh x _ there).1
      cases none.symm.trans remembered

theorem Turns.reliable (h : Turns W g culling place g') (good : Good links W g)
    (reliable : g.Reliable links) : g'.Reliable links :=
  ⟨h.good good, h.honest good reliable.honest, h.recalls good reliable.honest reliable.recalls⟩

theorem Turns.range (h : Turns W g culling place g') (good : Good links W g) (lt : x < g.size)
    (hx : place x = some y) : y < g'.size := by
  cases h with
  | evaluates evaluated =>
    cases hx
    exact Nat.lt_of_lt_of_le lt evaluated.extension.size
  | stays arena =>
    cases hx
    exact Nat.lt_of_lt_of_le lt (Embeds.of_eq arena).size_le
  | culls run =>
    cases hx
    exact (cull_changes good run).1.size ▸ lt
  | collects _ moved => exact moved.lt_size hx

namespace Grammar.Keeps

theorem refl (reliable : g.Reliable links) : Keeps links g g :=
  ⟨reliable, Nat.le_refl _, fun _ _ _ _ h => h⟩

theorem trans (h : Keeps links g g₁) (h' : Keeps links g₁ g') : Keeps links g g' where
  reliable := h'.reliable
  size := Nat.le_trans h.size h'.size
  residual x kind y lt residual :=
    h'.residual x kind y (Nat.lt_of_lt_of_le lt h.size) (h.residual x kind y lt residual)

end Grammar.Keeps

/-- A deed that leaves the nodes where they are keeps what is residual. -/
theorem enact_keeps (reliable : g.Reliable links) (stays : d.Stays)
    (run : Grammar.enact fuel d g = .ok (u, g')) : Grammar.Keeps links g g' := by
  obtain ⟨W, good⟩ := reliable.between
  have turns := enact_turns W good.formed run
  rw [stays g] at turns
  refine ⟨turns.reliable good reliable, ?_, fun x kind y lt residual => ?_⟩
  · exact Nat.le_of_not_lt fun lt => Nat.lt_irrefl _ (turns.range good lt rfl)
  · exact turns.residual good reliable.honest reliable.recalls residual lt rfl rfl

theorem Enacts.keeps (h : Enacts fuel act) (reliable : g.Reliable links)
    (run : act g = .ok (a, g')) : Grammar.Keeps links g g' := by
  obtain ⟨deeds, done, stays⟩ := h g a g' run
  refine enactAll_induct (P := Grammar.Keeps links g) (fun d member u g₁ g₂ keeps run => ?_)
    (.refl reliable) done
  exact keeps.trans (enact_keeps keeps.reliable (stays d member) run)

theorem step_residual (reliable : g.Reliable links)
    (run : Grammar.step fuel id s culling g = .ok ((next, accepts), g')) :
    g'.Residual id s.kind next := by
  obtain ⟨W, good⟩ := reliable.between
  obtain ⟨d, g₁, g₂, derived, asked, trimmed⟩ := Grammar.step_ok.mp run
  have formed₀ := good.forgotten.good.formed
  have recalls₀ : g.forgotten.Recalls := reliable.recalls.of_eq good.formed rfl (.inr rfl)
  obtain ⟨W₁, derived⟩ := Grammar.evaluates_of_derive W derived
  obtain ⟨W₂, asked⟩ := Grammar.evaluates_of_nullable W₁ asked
  obtain ⟨formed₁, solid⟩ := derived.formed formed₀
  have first := derived.leaves formed₀ (reliable.honest.of_eq rfl) recalls₀
  have second :=
    asked.leaves formed₁ (derived.honest formed₀ (reliable.honest.of_eq rfl)).1 first.recalls
  have residual : g₂.Residual id s.kind d := first.derived.conveyed second.conveys solid.lt_size
  have good₂ := (asked.carries (derived.carries good.forgotten.good).good).good
  cases culling with
  | false =>
    obtain ⟨rfl, rfl⟩ := trimmed_false trimmed
    exact residual
  | true =>
    obtain ⟨_, stepped⟩ := step_stepped good run
    obtain ⟨result, g₃, culled, last⟩ := Action.bind_ok.mp trimmed
    obtain ⟨rfl, rfl⟩ := Action.pure_ok.mp last
    have lt : d < g₂.size := Grammar.lt_size_of_cull culled
    obtain ⟨shrinking, remains⟩ := cull_shrinks (good₂.formed.ranged false) lt culled
    cases result with
    | none => exact .nothing stepped.carries.good.formed
    | some next =>
      have range : next < g₂.size := shrinking.size ▸ stepped.solid.lt_size
      exact (residual.shrinks good₂.formed remains).conveyed (shrinking.conveys good₂.formed) range

end Reliable

/-! ## Chains -/

namespace Recognizer

variable {L : Type}

/-- The grammar is reliable, and each node of the chain is residual to the one before it, by the
symbol in between. -/
structure Linked [DecidableEq L] (links : Links) (r : Recognizer L) : Prop where
  reliable : r.grammar.Reliable links
  range : ∀ x ∈ r.chain, x < r.grammar.size
  residual : ∀ (i : Nat) x y s, r.chain[i]? = some x → r.chain[i + 1]? = some y →
    r.input[i]? = some s → r.grammar.Residual x s.kind y

end Recognizer

section Linked

variable {L α : Type} [DecidableEq L] {links : Links} {r r' : Recognizer L} {g' : Grammar L}
  {s : Symbol L} {next : NodeId} {symbols : List (Symbol L)} {fuel : Nat} {act : Eval L α} {a : α}
  {u : Unit} {alive answer : Bool}

omit [DecidableEq L] in
@[simp] theorem Recognizer.input_advanced : (r.advanced s next g').input = r.input ++ [s] := by
  simp [Recognizer.input, Recognizer.advanced]

omit [DecidableEq L] in
@[simp] theorem Recognizer.input_moved {place : NodeId → Option NodeId} :
    (r.moved place g').input = r.input := by
  simp [Recognizer.input, Recognizer.moved, Function.comp_def]

namespace Recognizer.Linked

theorem restarted (h : r.Linked links) : Linked links { r with taken := #[] } where
  reliable := h.reliable
  range x member := by
    obtain rfl := List.mem_singleton.mp member
    exact h.range _ (.head _)
  residual i x y s _ hy := by cases hy

theorem keeps (h : r.Linked links) (keeps : Grammar.Keeps links r.grammar g') :
    Linked links (r.withGrammar g') where
  reliable := keeps.reliable
  range x member := Nat.lt_of_lt_of_le (h.range x member) keeps.size
  residual i x y s hx hy hs :=
    keeps.residual x s.kind y (h.range y (List.mem_of_getElem? hy)) (h.residual i x y s hx hy hs)

/-- The node after a step is residual to the current one. -/
theorem advanced (h : r.Linked links) (keeps : Grammar.Keeps links r.grammar g')
    (lt : next < g'.size) (residual : g'.Residual r.current s.kind next) :
    Linked links (r.advanced s next g') where
  reliable := keeps.reliable
  range x member := by
    rw [Recognizer.chain_advanced] at member
    rcases List.mem_append.mp member with member | member
    · exact (h.keeps keeps).range x member
    · obtain rfl := List.mem_singleton.mp member
      exact lt
  residual i x y t hx hy ht := by
    have length := r.length_chain
    rw [Recognizer.chain_advanced] at hx hy
    rw [Recognizer.input_advanced] at ht
    by_cases old : i + 1 < r.chain.length
    · rw [List.getElem?_append_left (by omega)] at hx hy ht
      exact (h.keeps keeps).residual i x y t hx hy ht
    · have below := (List.getElem?_eq_some_iff.mp hy).1
      rw [List.length_append, List.length_singleton] at below
      obtain rfl : i = r.input.length := by omega
      have last := r.getElem?_chain
      rw [r.length_word] at last
      rw [List.getElem?_append_left (by omega), last] at hx
      rw [← r.length_chain, List.getElem?_concat_length] at hy
      rw [List.getElem?_concat_length] at ht
      cases hx
      cases hy
      cases ht
      exact residual

theorem moved {place : NodeId → Option NodeId} (h : r.Linked links)
    (change : Grammar.Moved place r.grammar g') (reliable : g'.Reliable links)
    (has : ∀ x ∈ r.chain, ∃ y, place x = some y) : Linked links (r.moved place g') where
  reliable := reliable
  range x member := by
    rw [Recognizer.chain_moved] at member
    obtain ⟨old, there, rfl⟩ := List.mem_map.mp member
    obtain ⟨y, hy⟩ := has old there
    rw [Grammar.movedBy_of_some hy]
    exact change.lt_size hy
  residual i x y s hx hy hs := by
    rw [Recognizer.chain_moved, List.getElem?_map] at hx hy
    rw [Recognizer.input_moved] at hs
    obtain ⟨x, there, rfl⟩ := Option.map_eq_some_iff.mp hx
    obtain ⟨y, there', rfl⟩ := Option.map_eq_some_iff.mp hy
    obtain ⟨x', hx⟩ := has x (List.mem_of_getElem? there)
    obtain ⟨y', hy⟩ := has y (List.mem_of_getElem? there')
    rw [Grammar.movedBy_of_some hx, Grammar.movedBy_of_some hy]
    exact change.residual (h.residual i x y s there there' hs) hx hy

theorem collect (h : r.Linked links) (run : Recognizer.collect r = .ok (u, r')) :
    r'.Linked links := by
  obtain ⟨place, g', collected, rfl, rfl, has⟩ := Recognizer.exists_of_collect run
  obtain ⟨W, good⟩ := h.reliable.between
  have change := collect_place good.formed collected
  have turns : Turns W r.grammar false _ g' := .collects collected change
  exact h.moved change (turns.reliable good h.reliable) has

/-! ### Calls -/

theorem stepped {accepts : Bool} {event : Event} (h : r.Linked links)
    (run : Grammar.step fuel r.current s r.settings.culling r.grammar = .ok ((next, accepts), g')) :
    Linked links (r.advanced s next (g'.noted event)) := by
  obtain ⟨W, good⟩ := h.reliable.between
  obtain ⟨_, outcome⟩ := step_stepped good run
  have keeps := (Enacts.step r.current s r.settings.culling).keeps h.reliable run
  have residual := step_residual h.reliable run
  have note : Grammar.note event g' = .ok ((), g'.noted event) := Grammar.note_ok.mpr rfl
  have enacts : Enacts fuel (Grammar.note event : Eval L Unit) := .note event
  have noted := enacts.keeps keeps.reliable note
  have lt := outcome.solid.lt_size
  exact h.advanced (keeps.trans noted) lt (noted.residual _ _ _ lt residual)

theorem feed (h : r.Linked links) (run : Recognizer.feed fuel s r = .ok (alive, r')) :
    r'.Linked links := by
  by_cases stops : r.settings.stopWhenDead ∧ r.isDead
  · rw [Recognizer.feed_stopped stops] at run
    cases run
    exact h
  · rw [Recognizer.feed_alive stops] at run
    obtain ⟨⟨next, accepts⟩, _, stepping, landing⟩ := Action.bind_ok.mp run
    obtain ⟨g', stepped, rfl⟩ := Recognizer.onGrammar_ok.mp stepping
    obtain ⟨event, -, ⟨-, collected⟩ | ⟨-, rfl⟩⟩ := Recognizer.landed_cases landing
    · exact (h.stepped stepped).collect collected
    · exact h.stepped stepped

theorem accepted (h : r.Linked links) (run : Recognizer.accepted fuel r = .ok (answer, r')) :
    r'.Linked links := by
  obtain ⟨g', asked, rfl⟩ := Recognizer.accepted_ok.mp run
  exact h.keeps ((Enacts.nullable r.current).keeps h.reliable asked)

theorem forest {f : Forest (Symbol L)} (h : r.Linked links)
    (run : Recognizer.forest fuel r = .ok (f, r')) : r'.Linked links := by
  obtain ⟨g', read, rfl⟩ := Recognizer.forest_ok.mp run
  exact h.keeps ((Enacts.forestOfRun r.chain r.input).keeps h.reliable read)

theorem feedAll (h : r.Linked links) (run : Recognizer.feedAll fuel symbols r = .ok (u, r')) :
    r'.Linked links :=
  feedAll_induct (fun _ _ _ _ h feeding => h.feed feeding) h run

theorem recognize {o : Recognition} (h : r.Linked links)
    (run : Recognizer.recognize fuel symbols r = .ok (o, r')) : r'.Linked links := by
  obtain ⟨r₁, feeding, -, asking⟩ := recognize_ok.mp run
  exact (h.restarted.feedAll feeding).accepted asking

theorem parse {found : Option (Forest (Symbol L))} (h : r.Linked links)
    (run : Recognizer.parse fuel symbols r = .ok (found, r')) : r'.Linked links := by
  obtain ⟨o, r₁, recognizing, rest⟩ := Action.bind_ok.mp run
  have linked := h.recognize recognizing
  split at rest
  · obtain ⟨f, r₂, reading, last⟩ := Action.bind_ok.mp rest
    obtain ⟨-, rfl⟩ := Action.pure_ok.mp last
    exact linked.forest reading
  · obtain ⟨-, rfl⟩ := Action.pure_ok.mp rest
    exact linked

theorem call {c : Call L} (h : r.Linked links) (run : Recognizer.call fuel c r = .ok (u, r')) :
    r'.Linked links := by
  cases c with
  | reset =>
    obtain rfl := Action.modify_ok.mp run
    exact h.restarted
  | _ =>
    obtain ⟨answer, r₁, first, last⟩ := Action.bind_ok.mp run
    obtain ⟨-, rfl⟩ := Action.pure_ok.mp last
    first
    | exact h.feed first
    | exact h.accepted first
    | exact h.recognize first
    | exact h.parse first
    | exact h.forest first

/-- Whatever is called, neighbours are residual. -/
theorem callAll {calls : List (Call L)} (h : r.Linked links)
    (run : Recognizer.callAll fuel calls r = .ok (u, r')) : r'.Linked links :=
  callAll_induct (fun _ _ _ _ _ h first => h.call first) h run

/-- What a node of the chain matches, the node before it matches after the symbol in between. -/
theorem matches_cons {i : Nat} {x y : NodeId} {w : Word} (h : r.Linked links)
    (hx : r.chain[i]? = some x) (hy : r.chain[i + 1]? = some y) (hs : r.input[i]? = some s)
    (hw : r.grammar.Matches y w) : r.grammar.Matches x (s.kind :: w) :=
  (h.residual i x y s hx hy hs).matches hw

end Recognizer.Linked

end Linked

end DerivativeParsing
