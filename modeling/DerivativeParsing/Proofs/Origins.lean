import DerivativeParsing.Proofs.Deeds
import DerivativeParsing.Proofs.Nesting

/-!
# What the start of a recognizer is made of

Residuals share nodes with the grammar that they were derived from, rules remember their
derivatives, culling leads edges on in place, and a collection moves everything. Still the grammar
that a recognizer was built from has no part in what is derived from it: from its start only its own
nodes are reached.

1. `Turns.keepsPristine`: whatever a deed does, nodes that depend on one another only, with no
   derivatives among them, are so afterwards, in their places. `enactAll_keepsPristine`: so they are
   after any deeds.
2. `start_unmixed`: after any history, what the start reaches are nodes that the grammar was built
   from, and trees are read off these.
-/

namespace DerivativeParsing

open Grammar (nothing)

/-! ## Pristine nodes in their places -/

/-- What a node depends on does not depend on thunks that have not been evaluated, unless it is
one. -/
theorem Node.successors_of_isBuilt {L : Type} {node : Node L} (built : node.isBuilt)
    (throughPending : Bool) : node.successors throughPending = node.successors false := by
  cases node with
  | matched | thunk => cases built
  | _ => rfl

section Pristine

variable {L : Type} {links : Links} {W : World} {g g₁ g' : Grammar L} {O : NodeId → Prop}
  {fuel : Nat} {deeds : List (Deed L)} {u : Unit} {names names' : NodeId → Option NodeId}

/-- Pristine nodes depend on pristine nodes only, through whatever thunks. -/
theorem Grammar.Pristine.isClosed (h : g.Pristine O) (throughPending : Bool) :
    g.Closed throughPending O := by
  refine ⟨fun x hx => h.lt_size hx, fun x node hx there y member => h.closed x node hx there y ?_⟩
  rwa [Node.successors_of_isBuilt (h.built hx there)] at member

/-- The nodes of a pristine set look like themselves under the names that they have in another
grammar, and those that have one are pristine there. -/
structure Grammar.KeepsPristine (names : NodeId → Option NodeId) (O : NodeId → Prop)
    (g g' : Grammar L) : Prop where
  nothing : names nothing = some nothing
  mirrors : g.Mirrors (fun x y => names x = some y ∧ O x) g'
  pristine : g'.Pristine fun y => ∃ x, names x = some y ∧ O x

namespace Grammar.KeepsPristine

theorem trans (h : KeepsPristine names O g g₁)
    (h' : KeepsPristine names' (fun y => ∃ x, names x = some y ∧ O x) g₁ g')
    (first : O Grammar.nothing) : KeepsPristine (fun x => (names x).bind names') O g g' where
  nothing := by rw [h.nothing, Option.bind_some, h'.nothing]
  mirrors := by
    have same : (fun x z => (names x).bind names' = some z ∧ O x) =
        fun x z =>
        ∃ y, (names x = some y ∧ O x) ∧ names' y = some z ∧ ∃ x, names x = some y ∧ O x := by
      funext x z
      refine propext
        ⟨fun ⟨hz, hx⟩ => ?_, fun ⟨y, ⟨hy, hx⟩, hz, _⟩ => ⟨by rw [hy, Option.bind_some, hz], hx⟩⟩
      obtain ⟨y, hy, hz⟩ := Option.bind_eq_some_iff.mp hz
      exact ⟨y, ⟨hy, hx⟩, hz, x, hy, hx⟩
    rw [same]
    exact h.mirrors.trans h'.mirrors ⟨h.nothing, first⟩
  pristine := by
    have same : (fun z => ∃ x, (names x).bind names' = some z ∧ O x) =
        fun z => ∃ y, names' y = some z ∧ ∃ x, names x = some y ∧ O x := by
      funext z
      refine propext
        ⟨fun ⟨x, hz, hx⟩ => ?_, fun ⟨y, hz, x, hy, hx⟩ => ⟨x, by rw [hy, Option.bind_some, hz], hx⟩⟩
      obtain ⟨y, hy, hz⟩ := Option.bind_eq_some_iff.mp hz
      exact ⟨y, hz, x, hy, hx⟩
    rw [same]
    exact h'.pristine

/-- From a node that has a name, only such nodes are reached, under their names. -/
theorem reaches (h : KeepsPristine names O g g') {x y z : NodeId} (hx : O x)
    (name : names x = some y) {throughPending : Bool} (reaches : g'.Reaches throughPending y z) :
    ∃ x', names x' = some z ∧ O x' := by
  exact (h.pristine.isClosed throughPending).reaches ⟨x, name, hx⟩ reaches

theorem of_spares (spares : g.Spares g') (pristine : g.Pristine O) : KeepsPristine some O g g' where
  nothing := rfl
  mirrors := by
    have same : (fun x y => some x = some y ∧ O x) = fun x y => O x ∧ x = y := by
      funext x y
      rw [Option.some.injEq, and_comm]
    rw [same]
    exact spares.mirrors pristine
  pristine := by
    have same : (fun y => ∃ x, some x = some y ∧ O x) = O := by
      funext y
      simp only [Option.some.injEq, exists_eq_left]
    rw [same]
    exact (spares O pristine).1

end Grammar.KeepsPristine

variable [DecidableEq L]

/-- Whatever is done, pristine nodes stay so, in their places. -/
theorem Turns.keepsPristine {culling : Bool} {place : NodeId → Option NodeId}
    (h : Turns W g culling place g') (good : Good links W g) (pristine : g.Pristine O) :
    g.KeepsPristine place O g' := by
  cases h with
  | evaluates evaluated => exact .of_spares evaluated.extension.spares pristine
  | stays arena => exact .of_spares (.of_eq arena) pristine
  | culls run =>
    exact .of_spares
      (cull_spares (good.formed.ranged false) (Grammar.lt_size_of_cull run) run) pristine
  | collects _ moved => exact ⟨moved.nothing, moved.mirrors pristine, moved.pristine pristine⟩

theorem enactAll_keepsPristine (good : Good links W g) (pristine : g.Pristine O)
    (run : Grammar.enactAll fuel deeds g = .ok (u, g')) :
    g.KeepsPristine (Grammar.follow (Grammar.enact fuel) Deed.place deeds g) O g' := by
  induction deeds generalizing g W O with
  | nil =>
    obtain ⟨-, rfl⟩ := Action.pure_ok.mp run
    exact .of_spares (.refl g) pristine
  | cons d rest ih =>
    obtain ⟨_, g₁, first, run⟩ := Action.bind_ok.mp run
    have turns := enact_turns W good.formed first
    obtain ⟨W₁, good₁⟩ := turns.good good
    have kept := turns.keepsPristine good pristine
    have followed : Grammar.follow (Grammar.enact fuel) Deed.place (d :: rest) g =
        fun x => (d.place g x).bind (Grammar.follow (Grammar.enact fuel) Deed.place rest g₁) :=
      funext fun x => follow_cons first x
    rw [followed]
    exact kept.trans (ih good₁ kept.pristine run) pristine.nothing

end Pristine

/-! ## After any history -/

section History

variable {L : Type} [DecidableEq L] {r r₀ : Recognizer L} {source : Source} {settings : Settings}
  {fuel : Nat} {calls : List (Call L)}

/-- Whatever happened before, it came down to deeds. Follow the nodes of the grammar as it was built
through them: the start goes to the start, and every node that is reached from there, through thunks
that have not been evaluated or not, is where one of these nodes went. It is none that a derivative
is made of, neither a symbol that was matched nor a thunk, and it looks as it did, but for edges
that are led past choices with a barren side. Trees are read off these nodes only: an alarm would be
raised otherwise. -/
theorem start_unmixed (history : source.after settings fuel calls = .ok r)
    (built : source.recognizer settings = .ok r₀) : ∃ deeds names,
      Grammar.enactAll fuel deeds r₀.grammar = .ok ((), r.grammar) ∧
        names = Grammar.follow (Grammar.enact fuel) Deed.place deeds r₀.grammar ∧
          names r₀.start = some r.start ∧
      (∀ throughPending y, r.grammar.Reaches throughPending r.start y →
      ∃ x node node', names x = some y ∧
        r₀.grammar.arena.get? x = some node ∧ r.grammar.arena.get? y = some node' ∧
          node'.isBuilt = true ∧
          node.Alike (r₀.grammar.Edge fun x y => names x = some y) node') ∧
      (∀ alarm fuel symbols, Grammar.parseTreesGuarded alarm
        ((List.range r₀.grammar.size).filterMap names) fuel fuel r.start
        symbols r.grammar = Grammar.parseTrees fuel r.start symbols r.grammar) ∧
      ∀ alarm fuel, Recognizer.forestGuarded alarm ((List.range r₀.grammar.size).filterMap names)
        fuel fuel r =
        Recognizer.forest fuel r := by
  obtain ⟨r₁, built', run⟩ := after_ok.mp history
  cases built.symm.trans built'
  obtain ⟨W₀, g, start, rfl, founded, -⟩ := exists_founded built
  obtain ⟨deeds, done, followed⟩ := Recognizing.Tracks.callAll calls _ () r run
  obtain ⟨W, consistent, -⟩ := after_consistent history
  have kept := enactAll_keepsPristine founded.good founded.rooted.pristine done
  have named (y : NodeId) :
      y ∈ (List.range g.size).filterMap (Grammar.follow (Grammar.enact fuel) Deed.place deeds g) ↔
      ∃ x, Grammar.follow (Grammar.enact fuel) Deed.place deeds g x = some y ∧ g.size > x := by
    rw [List.mem_filterMap]
    exact exists_congr fun x => by rw [List.mem_range, and_comm]
  have pristine : r.grammar.Pristine
      (· ∈ (List.range g.size).filterMap
        (Grammar.follow (Grammar.enact fuel) Deed.place deeds g)) := by
    simp only [named]
    exact kept.pristine
  have root := (named r.start).mpr ⟨start, followed, founded.range⟩
  refine ⟨deeds, _, done, rfl, followed, fun throughPending y reaches =>
    ?_, fun alarm fuel symbols => ?_, fun alarm fuel => ?_⟩
  · obtain ⟨x, name, lt⟩ := kept.reaches founded.range followed reaches
    obtain ⟨node, node', there, there', alike⟩ := kept.mirrors.node x y ⟨name, lt⟩
    exact ⟨x, node, node', name, there, there', alike.isBuilt,
      alike.mono fun _ _ _ ⟨z, passes, name', _⟩ => ⟨z, passes, name'⟩⟩
  · have keeps := Grammar.keeps_trees fuel symbols fuel [] ⟨r.start, 0, symbols.length⟩
    exact Extraction.Agree.run' keeps (agree_whole root (.inl rfl))
      {} _ _ _ consistent.good pristine
  · have same : Grammar.forestOfRunGuarded alarm _ fuel fuel r.chain r.input r.grammar =
        Grammar.forestOfRun fuel r.chain r.input r.grammar :=
      agree_forestOfRun root (.inl rfl) _ _ _ consistent.good pristine
    show Recognizer.onGrammar (Grammar.forestOfRunGuarded alarm _ fuel fuel r.chain r.input) r =
      Recognizer.onGrammar (Grammar.forestOfRun fuel r.chain r.input) r
    unfold Recognizer.onGrammar
    simp only [same]

theorem start_unmixed_forked : ∃ r r₀ : Recognizer String,
    forked.after (({} : Settings).withCollectEvery 1) 30
      [.parse [⟨2, "y"⟩], .feed ⟨3, "z"⟩] = .ok r ∧
      forked.recognizer (({} : Settings).withCollectEvery 1) = .ok r₀ ∧ ∃ deeds names,
        Grammar.enactAll 30 deeds r₀.grammar = .ok ((), r.grammar) ∧
          names = Grammar.follow (Grammar.enact 30) Deed.place deeds r₀.grammar ∧
            names r₀.start = some r.start ∧
          (∀ throughPending y, r.grammar.Reaches throughPending r.start y →
          ∃ x node node', names x = some y ∧
            r₀.grammar.arena.get? x = some node ∧ r.grammar.arena.get? y = some node' ∧
              node'.isBuilt = true ∧
              node.Alike (r₀.grammar.Edge fun x y => names x = some y) node') ∧
          ∀ alarm fuel, Recognizer.forestGuarded alarm
            ((List.range r₀.grammar.size).filterMap names) fuel fuel r =
            Recognizer.forest fuel r := by
  obtain ⟨r, history⟩ := forked_used
  obtain ⟨r₀, built, -⟩ := after_ok.mp history
  obtain ⟨deeds, names, done, followed, start, reaches, -, forests⟩ := start_unmixed history built
  exact ⟨r, r₀, history, built, deeds, names, done, followed, start, reaches, forests⟩

end History

end DerivativeParsing
