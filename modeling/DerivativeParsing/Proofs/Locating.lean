import DerivativeParsing.Proofs.Enumerating
import DerivativeParsing.Proofs.Handing
import DerivativeParsing.Proofs.Origins

/-!
# Where matches are said to end

The ends of the matches of a leaf are told from the leaf and the next symbol. Those of any other
node are found by derivatives, in a grammar that was changed by all that was looked for before.

1. `exists_step_leaf`: a step from a leaf leads to a symbol that has matched, or to nothing.
   `exists_replay_leaf`: so derivatives stop after at most one symbol, and `exists_searchEnds_leaf`:
   they find what is told directly.
2. `Outset.exists_endsAll`: at whatever sites ends are asked for, one after the other, each answer
   is right.
3. `ends_match`: after any history the positions that are answered ascend, and are ends of matches.
-/

namespace DerivativeParsing

open Grammar (nothing lt_size_of_get?)

/-! ## Leaves -/

section Leaves

variable {L : Type} [DecidableEq L] {links : Links} {W W' : World} {g g' : Grammar L}
  {id next i fuel : Nat} {s : Symbol L} {node : Node L} {b b' : Bool}

omit [DecidableEq L] in
theorem Node.exists_nullable? (leaf : node.hasParts? = some false) :
    ∃ b, node.nullable? = some b := by
  cases node with
  | empty | undefined | token | matched => exact ⟨_, rfl⟩
  | _ => cases leaf

/-- The derivative of a leaf is the symbol, if the leaf takes it, and nothing otherwise. -/
theorem Evaluates.of_leaf (h : Evaluates W g (.derive id s) (.node next) W' g') (new : g.memo = {})
    (there : g.arena.get? id = some node) (leaf : node.hasParts? = some false) :
    node.takes s ∧ g'.arena.get? next = some (.matched s) ∨
      node.takes s = false ∧ next = nothing := by
  cases takes : node.takes s with
  | true =>
    cases node with
    | token kind =>
      obtain ⟨g₁, hc, rfl⟩ := h.computed new there rfl
      cases hc with
      | hit => exact .inl ⟨rfl, Grammar.get?_withNode_self _⟩
      | miss there' other =>
        cases Option.some.inj (there.symm.trans there')
        exact absurd (Node.takes_token.mp takes) other
      | alt there' | cat there' | cat_nullable there' | rep there' =>
        cases Option.some.inj (there.symm.trans there')
    | _ => cases takes
  | false =>
    refine .inr ⟨rfl, (h.of_partless new ⟨node, there, leaf⟩).resolve_right ?_⟩
    rintro ⟨-, terminal, there'⟩
    cases there.symm.trans there'
    cases takes.symm.trans (Node.takes_token.mpr ⟨terminal, rfl⟩)

theorem nullable_answers_plain (there : g.arena.get? id = some node)
    (plain : node.nullable? = some b) : Answers (fun fuel => Grammar.nullable fuel id) g (b, g) :=
  (Evaluates.nullable_plain (W := fun _ => .void) there plain).answers

/-- Whether a leaf matches the empty word is answered without changing anything. -/
theorem nullable_plain_ok (there : g.arena.get? id = some node) (plain : node.nullable? = some b)
    (run : Grammar.nullable fuel id g = .ok (b', g')) : b' = b ∧ g' = g := by
  obtain ⟨N, answers⟩ := nullable_answers_plain there plain
  obtain ⟨N', answers'⟩ := nullable_answers run
  cases (answers (max N N') (Nat.le_max_left ..)).symm.trans (answers' _ (Nat.le_max_right ..))
  exact ⟨rfl, rfl⟩

omit [DecidableEq L] in
/-- A symbol that has matched leads nowhere else. -/
theorem Grammar.compact_matched (there : g.arena.get? id = some (.matched s))
    (lively : s.kind ≠ Kind.void) : g.Compact (· = id) where
  productive x hx := hx ▸ .matched there lively
  waiting x t base hx there' := by
    cases (hx ▸ there').symm.trans there
  leads x node hx there' := by
    cases (hx ▸ there').symm.trans there
    exact .inr nofun

/-- A step from a leaf leads to the symbol, if the leaf takes it, and to nothing otherwise. -/
theorem exists_step_leaf (good : Good links W g) (there : g.arena.get? id = some node)
    (leaf : node.hasParts? = some false) (s : Symbol L) : ∃ next W' g',
      Answers (fun fuel => Grammar.step fuel id s true) g ((next, node.takes s), g') ∧
        Good links W' g' ∧
        (node.takes s ∧ next ≠ nothing ∧ g'.arena.get? next = some (.matched s) ∨
          node.takes s = false ∧ next = nothing) := by
  obtain ⟨⟨next, accepts⟩, g', N, stepping⟩ := exists_step good (lt_size_of_get? there) s true
  obtain ⟨W', stepped⟩ := step_stepped good (stepping N (Nat.le_refl N))
  obtain ⟨d, g₁, g₂, derived, asked, trimmed⟩ := Grammar.step_ok.mp (stepping N (Nat.le_refl N))
  obtain ⟨W₁, derived⟩ := Grammar.evaluates_of_derive W derived
  have good₁ := (derived.carries good.forgotten.good).good
  obtain ⟨result, g₃, culled, rest⟩ := Action.bind_ok.mp trimmed
  obtain ⟨rfl, rfl⟩ := Action.pure_ok.mp rest
  rcases derived.of_leaf rfl there leaf with ⟨takes, there₁⟩ | ⟨misses, rfl⟩
  · obtain ⟨rfl, rfl⟩ := nullable_plain_ok there₁ rfl asked
    have lively : s.kind ≠ Kind.void := by
      cases node with
      | token kind =>
        obtain ⟨terminal, rfl⟩ := Node.takes_token.mp takes
        intro void
        rw [void] at terminal
        cases terminal
      | _ => cases takes
    cases (cull_idle good₁ (lt_size_of_get? there₁) (Grammar.compact_matched there₁ lively)
      rfl).symm.trans culled
    refine ⟨d, W', g₂, ⟨N, by rw [takes]; exact stepping⟩, stepped.carries.good,
      .inl ⟨takes, ?_, there₁⟩⟩
    rintro rfl
    cases good₁.formed.nothing.symm.trans there₁
  · obtain ⟨rfl, rfl⟩ := nullable_plain_ok good₁.formed.nothing rfl asked
    cases (cull_nothing good₁).symm.trans culled
    exact ⟨nothing, W', g₂, ⟨N, by rw [misses]; exact stepping⟩, stepped.carries.good,
      .inr ⟨misses, rfl⟩⟩

/-- By induction on the rest of the input: what a leaf has taken is a leaf that takes nothing. -/
theorem exists_replay_leaf (good : Good links W g) (there : g.arena.get? id = some node)
    (leaf : node.hasParts? = some false) (rest : List (Symbol L)) :
    ∃ g', Answers (fun fuel => Grammar.replay fuel id i rest) g
      (if rest.head?.any node.takes then [i + 1] else [], g') := by
  induction rest generalizing W g id node i with
  | nil => exact ⟨g, .const rfl⟩
  | cons s rest ih =>
    obtain ⟨next, W₁, g₁, stepping, good₁, ⟨takes, alive, there₁⟩ | ⟨misses, dead⟩⟩ :=
      exists_step_leaf good there leaf s
    · obtain ⟨g', looking⟩ := ih (i := i + 1) good₁ there₁ rfl
      have none : rest.head?.any (Node.matched s).takes = false := by cases rest <;> rfl
      rw [none] at looking
      refine ⟨g', .bind stepping ?_⟩
      simp only [if_neg alive, List.head?_cons, Option.any_some, takes, if_true]
      exact .bind looking (.const rfl)
    · refine ⟨g₁, .bind stepping ?_⟩
      simp only [dead, if_true, List.head?_cons, Option.any_some, misses]
      exact .const rfl

theorem exists_searchEnds_leaf (good : Good links W g) (there : g.arena.get? id = some node)
    (leaf : node.hasParts? = some false) (input : List (Symbol L)) (i : Nat) :
    ∃ g', Answers (fun fuel => Grammar.searchEnds fuel input id i) g
      (node.leafEnds i input[i]?, g') := by
  obtain ⟨b, plain⟩ := Node.exists_nullable? leaf
  obtain ⟨g', looking⟩ := exists_replay_leaf (i := i) good there leaf (input.drop i)
  rw [List.head?_drop] at looking
  refine ⟨g', .bind (nullable_answers_plain there plain) (.bind looking (.const ?_))⟩
  rw [Node.leafEnds, plain]
  cases b <;> rfl

end Leaves

/-! ## Any sites -/

section Sites

variable {L : Type} {g : Grammar L} {O : NodeId → Prop} {input : List (Symbol L)}

theorem Grammar.Reaches.of_any {throughPending : Bool} {x y z : NodeId}
    (reaches : g.Reaches throughPending x y)
    (leads : (g.arena.get? y).any
      (fun node => (node.successors throughPending).contains z) = true) :
    g.Reaches throughPending x z := by
  obtain ⟨node, there, member⟩ := (Option.any_eq_true _ _).mp leads
  exact reaches.tail there (List.contains_iff_mem.mp member)

/-- Positions that ascend, none of them before the site or beyond the input, where matches of the
site end. -/
structure Grammar.MatchEnds (g : Grammar L) (input : List (Symbol L)) (site : Site)
    (stops : List Nat) : Prop where
  ascending : stops.Pairwise (· < ·)
  within : ∀ k ∈ stops, site.start ≤ k ∧ k ≤ input.length
  matched : ∀ k ∈ stops, g.Matches site.node (stretch input site.start k)

def Grammar.AllEnds (g : Grammar L) (input : List (Symbol L)) (site : Site) (stops : List Nat) :
    Prop :=
  ∀ k, site.start ≤ k → k ≤ input.length →
    g.Matches site.node (stretch input site.start k) → k ∈ stops

variable {s : Site} {stops : List Nat} {sure : Prop}

theorem Lists.matchEnds (h : Lists sure (g.Spans input s.node s.start) stops)
    (le : s.start ≤ input.length) : g.MatchEnds input s stops where
  ascending := h.ascending
  within k member := by
    obtain ⟨t, derived⟩ := h.sound k member
    exact ⟨derived.le, derived.stop_le le⟩
  matched k member := by
    obtain ⟨t, derived⟩ := h.sound k member
    exact derived.matches_stretch

theorem Lists.allEnds (h : Lists sure (g.Spans input s.node s.start) stops) (sure : sure)
    (pristine : g.Pristine O) (root : O s.node) : g.AllEnds input s stops :=
  fun k after le matched => h.complete sure k (matched.derivation pristine root after le rfl)

variable [DecidableEq L] {o : Outset L} {a : Stage L} {sites : List Site}

def Outset.Sited (o : Outset L) (s : Site) : Prop := o.roots s.node ∧ s.start ≤ o.input.length

/-- Where the matches at some sites end, asked for one after the other. -/
def Grammar.endsAll (fuel : Nat) (input : List (Symbol L)) (sites : List Site) :
    Extraction L (List (List Nat)) :=
  sites.mapM fun s => ends fuel input s.node s.start

/-- By induction on the sites: each time the ends are found in the grammar that was left before. -/
theorem Outset.exists_endsAll (h : o.Underway a) (sited : ∀ s ∈ sites, o.Sited s) : ∃ found b,
    Stage.Answers (fun fuel => Grammar.endsAll fuel o.input sites) a found b ∧ o.Proceeds a b ∧
      List.Forall₂ (fun s stops =>
        o.Sited s ∧ Lists (o.Reliable b) (o.grammar.Spans o.input s.node s.start) stops)
        sites found := by
  induction sites generalizing a with
  | nil => exact ⟨[], a, .const [], .refl h, .nil⟩
  | cons s sites ih =>
    obtain ⟨root, le⟩ := sited s (.head _)
    obtain ⟨stops, b, asking, proceeds, -, -, lists⟩ := exists_ends h root le
    obtain ⟨found, c, rest, proceeds', right⟩ :=
      ih proceeds.underway fun s member => sited s (.tail _ member)
    refine ⟨stops :: found, c, ?_, proceeds.trans proceeds',
      .cons ⟨⟨root, le⟩, lists.mono proceeds'.reliable⟩ right⟩
    simp only [Grammar.endsAll, List.mapM_cons]
    exact .bind asking (.bind rest (.const _))

end Sites

/-! ## After any history -/

section History

variable {L : Type} [DecidableEq L] {r : Recognizer L} {source : Source} {settings : Settings}
  {fuel : Nat} {calls : List (Call L)} {origin : Meaning} {O : NodeId → Prop} {D : Readings L}
  {W W' : World} {g' : Grammar L} {input : List (Symbol L)} {sites : List Site}
  {found : List (List Nat)}

/-- A site whose node is reached from the start, through thunks that have not been evaluated or
not. -/
def Recognizer.Offers (r : Recognizer L) (input : List (Symbol L)) (s : Site) : Prop :=
  r.grammar.Reaches true r.start s.node ∧ s.start ≤ input.length

/-- What is found of some sites, and what is left then. Every answer is right, and they are
complete, unless rules are entangled, and, without collections, one of them is stored wrongly. In
what is left, as before, what is told of a leaf directly is what derivatives would find, and of all
other nodes ends are found by derivatives. -/
structure Source.EndsFound (source : Source) (settings : Settings) (g : Grammar L)
    (input : List (Symbol L)) (sites : List Site) (found : List (List Nat)) (g' : Grammar L) :
    Prop where
  right : List.Forall₂ (g.MatchEnds input) sites found
  complete : List.Forall₂ (g.AllEnds input) sites found ∨
    source.links.Entangled ∧ (settings.collectEvery = none → g'.Misled)
  direct : ∀ id, g'.Shaped id false → ∀ (input : List (Symbol L)) i, ∃ stops g₁,
    (∀ fuel, Grammar.findEnds fuel input id i g' = .ok (stops, g')) ∧
      Answers (fun fuel => Grammar.searchEnds fuel input id i) g' (stops, g₁)
  general : ∀ id < g'.size, ¬g'.Shaped id false → ∀ fuel (input : List (Symbol L)) i,
    Grammar.findEnds fuel input id i g' = Grammar.searchEnds fuel input id i g'

theorem Consistent.endsFound (h : Consistent source.links origin W r)
    (exact : r.Remembers source.links → Exact source.links origin W r)
    (rooted : Rooted D O W r.grammar r.start) (carries : Carries source.links W r.grammar W' g')
    (lists : List.Forall₂ (fun s stops => (h.outset rooted input).Sited s ∧
      Lists (Exact source.links origin W r ∧ Trust source.links W' g')
      (r.grammar.Spans input s.node s.start) stops) sites found) :
    source.EndsFound r.settings r.grammar input sites found g' := by
  refine ⟨lists.imp fun s stops ⟨sited, right⟩ => right.matchEnds sited.2,
    ?_, fun id leaf input i => ?_, fun id lt parts fuel input i => ?_⟩
  · refine ((h.carried carries).assured_or_misled exact).imp_left fun assured => ?_
    exact lists.imp fun s stops ⟨sited, right⟩ =>
      right.allEnds ⟨exact assured.remembers, assured.trust⟩ rooted.pristine sited.1
  · obtain ⟨node, there, leaf⟩ := leaf
    obtain ⟨g₁, searching⟩ := exists_searchEnds_leaf carries.good there leaf input i
    exact ⟨node.leafEnds i input[i]?, g₁, fun fuel => findEnds_leaf there leaf, searching⟩
  · obtain ⟨node, there⟩ := Grammar.exists_get? lt
    exact findEnds_eq_searchEnds there fun leaf => parts ⟨node, there, leaf⟩

/-- Whatever happened before, the ends of the matches of nodes that are reached from the start are
answered, given enough fuel, wherever in an input they are asked for and in whatever order:
positions that ascend, between the site and the end of the input, up to each of which the node
matches. So they are when what a run left is read, where the ends of the start are known from its
chain. What is told of leaves without derivatives is what derivatives would find. -/
theorem ends_match (history : source.after settings fuel calls = .ok r) :
    (∀ input sites, (∀ s ∈ sites, r.Offers input s) →
      ∃ found g', Answers (fun fuel => (Grammar.endsAll fuel input sites).run' {}) r.grammar
        (found, g') ∧
        source.EndsFound settings r.grammar input sites found g') ∧
    ∀ sites, (∀ s ∈ sites, r.Offers r.input s) →
      ∃ result g', Answers (fun fuel => (Evaluator.plain fuel).readRun none (fun _ known => do
          let found ← (Grammar.endsAll fuel r.input sites).run' known
          return some found) r.chain r.input) r.grammar (result, g') ∧
        ∀ found, result = some found →
        source.EndsFound settings r.grammar r.input sites found g' := by
  obtain ⟨W, consistent, exact, rfl, -, roots⟩ := after_consistent history
  obtain ⟨r₀, built, -⟩ := after_ok.mp history
  obtain ⟨O, rooted⟩ := roots r₀ built
  have sited (input : List (Symbol L)) (s : Site) (offered : r.Offers input s) :
      (consistent.outset rooted input).Sited s :=
    ⟨(rooted.pristine.isClosed true).reaches rooted.root offered.1, offered.2⟩
  refine ⟨fun input sites offered => ?_, fun sites offered => ?_⟩
  · obtain ⟨found, b, asking, proceeds, lists⟩ := Outset.exists_endsAll
      (consistent.outset rooted input).underway_begun fun s member =>
      sited input s (offered s member)
    exact ⟨found, b.grammar, asking.run', consistent.endsFound exact rooted proceeds.carries lists⟩
  · obtain ⟨result, W', g', reading, carries, right⟩ :=
      consistent.exists_readRun (α := Option (List (List Nat))) none
      (fun fuel _ known => do
        let found ← (Grammar.endsAll fuel r.input sites).run' known
        return some found)
      (Q := fun result W' g' => ∀ found, result = some found →
        List.Forall₂ (fun s stops => (consistent.outset rooted r.input).Sited s ∧
          Lists (Exact source.links source.origin W r ∧ Trust source.links W' g')
            (r.grammar.Spans r.input s.node s.start) stops) sites found) rooted
      (fun a underway _ => by
        obtain ⟨found, b, asking, proceeds, lists⟩ := Outset.exists_endsAll underway fun s member =>
          sited r.input s (offered s member)
        refine ⟨some found, b.world, b.grammar, .bind asking.run' (.const rfl),
          proceeds.carries, fun found' same => ?_⟩
        cases same
        exact lists)
      fun _ _ _ _ => nofun
    exact ⟨result, g',
      reading, fun found same => consistent.endsFound exact rooted carries (right found same)⟩

/-- Ends are asked for at the start, at the token that its body may be, and at the start again. -/
theorem ends_match_leftRecursive : ∃ r : Recognizer String,
    leftRecursive.after {} 30 [.parse [⟨2, "a"⟩], .feed ⟨2, "b"⟩] = .ok r ∧
      (∀ s ∈ [(⟨r.start, 0⟩ : Site), ⟨4, 1⟩, ⟨r.start, 1⟩, ⟨r.start, 0⟩],
        r.Offers [⟨2, "a"⟩, ⟨2, "b"⟩] s) ∧
      (∃ found g', Answers (fun fuel => (Grammar.endsAll fuel [⟨2, "a"⟩, ⟨2, "b"⟩]
          [⟨r.start, 0⟩, ⟨4, 1⟩, ⟨r.start, 1⟩, ⟨r.start, 0⟩]).run' {}) r.grammar (found, g') ∧
        leftRecursive.EndsFound {} r.grammar [⟨2, "a"⟩, ⟨2, "b"⟩]
          [⟨r.start, 0⟩, ⟨4, 1⟩, ⟨r.start, 1⟩, ⟨r.start, 0⟩] found g') ∧
      r.Offers r.input ⟨r.start, 0⟩ ∧
      ∃ result g', Answers (fun fuel => (Evaluator.plain fuel).readRun none (fun _ known => do
          let found ← (Grammar.endsAll fuel r.input [⟨r.start, 0⟩]).run' known
          return some found) r.chain r.input) r.grammar (result, g') ∧
        ∀ found, result = some found →
        leftRecursive.EndsFound {} r.grammar r.input [⟨r.start, 0⟩] found g' := by
  obtain ⟨r, history, leads⟩ := exists_of_any (show ((leftRecursive.after (L := String) {} 30
    [.parse [⟨2, "a"⟩], .feed ⟨2, "b"⟩]).toOption.any fun r =>
      (r.grammar.arena.get? r.start).any (fun node => (node.successors true).contains 5) &&
        (r.grammar.arena.get? 5).any (fun node => (node.successors true).contains 4)) =
        true by decide +kernel)
  obtain ⟨body, token⟩ := Bool.and_eq_true_iff.mp leads
  have reaches : r.grammar.Reaches true r.start 4 :=
    ((Grammar.Reaches.refl r.start).of_any body).of_any token
  have offered : ∀ s ∈ [(⟨r.start, 0⟩ : Site), ⟨4, 1⟩, ⟨r.start, 1⟩, ⟨r.start, 0⟩],
      r.Offers [⟨2, "a"⟩, ⟨2, "b"⟩] s := by
    simp only [List.mem_cons, List.not_mem_nil, or_false]
    rintro s (rfl | rfl | rfl | rfl)
    · exact ⟨.refl _, Nat.zero_le _⟩
    · exact ⟨reaches, Nat.le_add_left ..⟩
    · exact ⟨.refl _, Nat.le_add_left ..⟩
    · exact ⟨.refl _, Nat.zero_le _⟩
  have first : r.Offers r.input ⟨r.start, 0⟩ := ⟨.refl _, Nat.zero_le _⟩
  obtain ⟨anywhere, run⟩ := ends_match history
  refine ⟨r, history, offered, anywhere _ _ offered, first, run _ fun s member => ?_⟩
  exact List.mem_singleton.mp member ▸ first

end History

end DerivativeParsing
