import DerivativeParsing.Proofs.Watching

/-!
# Whatever is built evaluates without alarm

1. `Grammar.Made`: the graphs that can be built, not only those of descriptions. A nonterminal may
   be given any body, and may be left without one where it cannot be reached.
2. `Grammar.Raw` is what holds of them. In a world in which every node may stand for anything, a raw
   graph is between actions (`Raw.good`); its nodes have been derived by nothing, which is all that
   matters here.
3. `calls_guarded`: whatever is asked of a recognizer for such a graph, evaluation never comes to
   its own unfinished work.
-/

namespace DerivativeParsing

open Grammar (nothing lt_size_of_get?)

/-- A graph that was built node by node, each from nodes that were there. -/
inductive Grammar.Made {L : Type} : Grammar L → Prop
  | initial : Made Grammar.initial
  | token {g g' : Grammar L} {id : NodeId} {kind : Kind} :
    Made g → token kind g = .ok (id, g') → Made g'
  | epsilon {g g' : Grammar L} {id : NodeId} : Made g → epsilon g = .ok (id, g') → Made g'
  | alt {g g' : Grammar L} {id left right : NodeId} : Made g → left < g.size → right < g.size →
    alt left right g = .ok (id, g') → Made g'
  | cat {g g' : Grammar L} {id left right : NodeId} : Made g → left < g.size → right < g.size →
    cat left right g = .ok (id, g') → Made g'
  | cats {g g' : Grammar L} {id : NodeId} {nodes : List NodeId} :
    Made g → (∀ x ∈ nodes, x < g.size) → cats nodes g = .ok (id, g') → Made g'
  | rep {g g' : Grammar L} {id body : NodeId} :
    Made g → body < g.size → rep body g = .ok (id, g') → Made g'
  | rule {g g' : Grammar L} {id body : NodeId} {name : String} : Made g → body < g.size →
    rule name body g = .ok (id, g') → Made g'
  | declare {g g' : Grammar L} {id : NodeId} {name : String} :
    Made g → declare name g = .ok (id, g') → Made g'
  | define {g g' : Grammar L} {target body : NodeId} : Made g → body < g.size →
    define target body g = .ok ((), g') → Made g'

/-! ## Raw graphs -/

/-- A graph that nothing was asked of yet. -/
structure Grammar.Raw {L : Type} [DecidableEq L] (g : Grammar L) : Prop where
  formed : g.Formed
  fresh : ∀ (id : Nat) node, g.arena.get? id = some node → node.Fresh
  memo : g.memo = {}
  journal : g.journal = #[]

section Raw

variable {L : Type} [DecidableEq L] {g g' : Grammar L} {id x : NodeId} {node : Node L}

namespace Grammar.Raw

theorem solid (h : g.Raw) (lt : x < g.size) : g.Solid x := by
  obtain ⟨node, there⟩ := exists_get? lt
  exact ⟨node, there, (h.fresh x node there).not_isThunk⟩

theorem withNode (h : g.Raw) (fresh : node.Fresh) (formed : node.Formed g g.size) :
    (g.withNode node).Raw where
  formed := h.formed.withNode formed
  fresh id node' there := by
    rw [get?_withNode] at there
    split at there
    · cases there
      exact fresh
    · exact h.fresh id node' there
  memo := h.memo
  journal := h.journal

theorem combine (h : g.Raw) (comb : node.isCombinator)
    (range : ∀ x ∈ node.successors true, x < g.size) : (g.withNode node).Raw := by
  refine h.withNode (Node.fresh_of_isCombinator comb) ?_
  have part (x : NodeId) (mem : x ∈ node.successors true) : g.Part g.size x :=
    ⟨range x mem, h.solid (range x mem)⟩
  cases node with
  | token => trivial
  | alt left right | cat left right => exact ⟨part left (.head _), part right (.tail _ (.head _))⟩
  | rep body => exact part body (.head _)
  | _ => cases comb

theorem cats {nodes : List NodeId} (h : g.Raw) (range : ∀ x ∈ nodes, x < g.size)
    (run : Grammar.cats nodes g = .ok (id, g')) : g'.Raw ∧ g.size ≤ g'.size ∧ id < g'.size := by
  induction nodes generalizing g' id with
  | nil =>
    obtain ⟨rfl, rfl⟩ := alloc_ok.mp run
    exact ⟨h.combine rfl nofun, by simp, by simp⟩
  | cons first rest ih =>
    cases rest with
    | nil =>
      obtain ⟨rfl, rfl⟩ := Action.pure_ok.mp run
      exact ⟨h, Nat.le_refl _, range _ (.head _)⟩
    | cons second rest =>
      obtain ⟨tail, g₁, ht, hc⟩ := Action.bind_ok.mp run
      obtain ⟨raw, size, lt⟩ := ih (fun x hx => range x (.tail _ hx)) ht
      obtain ⟨rfl, rfl⟩ := alloc_ok.mp hc
      refine ⟨raw.combine rfl fun x hx => ?_, by rw [size_withNode]; omega, by simp⟩
      rcases List.mem_pair.mp hx with rfl | rfl
      · exact Nat.lt_of_lt_of_le (range _ (.head _)) size
      · exact lt

theorem define {target body : NodeId} {u : Unit} (h : g.Raw) (lt : body < g.size)
    (run : Grammar.define target body g = .ok (u, g')) : g'.Raw := by
  obtain ⟨name, there, rfl⟩ := define_ok.mp run
  refine ⟨h.formed.revised (fun node there' => ?_) (fun there' => ?_) fun node _ => ⟨lt, nofun⟩,
    fun id node there' => ?_, h.memo, h.journal⟩
  · cases Option.some.inj (there.symm.trans there')
    rfl
  · cases Option.some.inj (there.symm.trans there')
  · rw [get?_revised] at there'
    split at there'
    · obtain ⟨-, -, rfl⟩ := Option.map_eq_some_iff.mp there'
      exact ⟨rfl, rfl, rfl⟩
    · exact h.fresh id node there'

end Grammar.Raw

theorem raw_initial : (Grammar.initial : Grammar L).Raw :=
  have drafted := drafted_initial (L := L) []
  ⟨drafted.formed, drafted.fresh, rfl, rfl⟩

theorem Grammar.Made.raw (h : g.Made) : g.Raw := by
  induction h with
  | initial => exact raw_initial
  | token _ run ih | epsilon _ run ih =>
    obtain ⟨-, rfl⟩ := alloc_ok.mp run
    exact ih.combine rfl nofun
  | alt _ ltl ltr run ih | cat _ ltl ltr run ih =>
    obtain ⟨-, rfl⟩ := alloc_ok.mp run
    refine ih.combine rfl fun x hx => ?_
    rcases List.mem_pair.mp hx with rfl | rfl
    · exact ltl
    · exact ltr
  | cats _ range run ih => exact (ih.cats range run).1
  | rep _ lt run ih =>
    obtain ⟨-, rfl⟩ := alloc_ok.mp run
    exact ih.combine rfl fun x hx => List.mem_singleton.mp hx ▸ lt
  | rule _ lt run ih =>
    obtain ⟨-, rfl⟩ := alloc_ok.mp run
    exact ih.withNode ⟨rfl, rfl, rfl⟩ ⟨lt, nofun⟩
  | declare _ run ih =>
    obtain ⟨-, rfl⟩ := alloc_ok.mp run
    exact ih.withNode trivial trivial
  | define _ lt run ih => exact ih.define lt run

/-! ## Nodes that may stand for anything -/

/-- What stands for everything, derived by nothing. -/
def Meaning.whole : Meaning := ⟨fun _ _ => True, [], fun _ => True, fun _ => True⟩

/-- Any rule may begin with any other, and may be it. -/
def Links.all : Links := ⟨fun _ _ => True, fun _ _ => True⟩

/-- Every node stands for everything, but the one that matches nothing. -/
def World.whole : World := fun id => if id = nothing then .void else .whole

namespace World

theorem whole_of_ne (h : id ≠ nothing) : whole id = .whole := if_neg h

theorem trace_whole (id : NodeId) : (whole id).trace = [] := by
  unfold whole
  split <;> rfl

theorem whole_within (id : NodeId) : (whole id).Within .whole :=
  ⟨by rw [trace_whole]; exact List.prefix_rfl, fun _ => ⟨fun _ _ => trivial, fun _ _ => trivial⟩⟩

theorem whole_refines (id : NodeId) : (whole id).Refines .whole :=
  ⟨fun _ _ => ⟨0, trivial⟩, whole_within id⟩

omit [DecidableEq L] in
theorem fits_whole (fresh : node.Fresh) (formed : node.Formed g id)
    (only : id = nothing → node = .empty) : whole.Fits Links.all id node := by
  by_cases first : id = nothing
  · obtain rfl := only first
    exact if_pos first
  have here := whole_of_ne first
  cases node with
  | empty => exact absurd formed first
  | undefined => trivial
  | token kind =>
    intro w _
    rw [here]
    exact ⟨0, trivial⟩
  | alt left right =>
    show (whole left).Refines (whole id) ∧ (whole right).Refines (whole id)
    rw [here]
    exact ⟨whole_refines left, whole_refines right⟩
  | cat left right =>
    show (whole left).Joins (whole right) (whole id)
    rw [here]
    exact {
      words := fun _ _ _ _ => ⟨0, trivial⟩
      left := (whole_within left).1
      right := trace_whole right
      heads_left := fun _ _ _ => trivial
      heads_right := fun _ _ _ _ => trivial
      alone_left := fun _ _ _ _ => trivial
      alone_right := fun _ _ _ _ => trivial }
  | rep body =>
    show (whole body).Repeats (whole id)
    rw [here]
    exact ⟨⟨0, trivial⟩, fun _ _ _ _ => ⟨0, trivial⟩, rfl, whole_within body⟩
  | rule r body =>
    obtain ⟨memo, state, -⟩ := fresh
    refine ⟨?_, fun kind next known => ?_, fun done => ?_⟩
    · rw [here]
      exact ⟨fun _ _ => ⟨0, trivial⟩, (whole_within body).1, trivial, trivial, fun _ _ _ => trivial,
        fun _ _ _ => trivial⟩
    · cases memo.symm.trans known
    · cases state.symm.trans done
  | matched | thunk => cases fresh

end World

theorem Grammar.Raw.good (h : g.Raw) : Good Links.all World.whole g where
  formed := h.formed
  sound :=
    { node := fun id node there =>
      World.fits_whole (h.fresh id node there) (h.formed.node id node there)
        fun first => Option.some.inj (there.symm.trans (first ▸ h.formed.nothing))
      memo := fun id s next found => by
        rw [h.memo, Memo.find?_nil] at found
        cases found }
  quiet id node there := (h.fresh id node there).idle

end Raw

/-! ## Recognizers -/

section Recognizers

variable {L : Type} [DecidableEq L] {g : Grammar L} {start : NodeId} {settings : Settings}
  {r : Recognizer L}

omit [DecidableEq L] in
theorem lt_size_of_ofGrammar (h : Recognizer.ofGrammar g start settings = .ok r) :
    start < g.size := by
  unfold Recognizer.ofGrammar at h
  cases valid : g.validate start with
  | error e =>
    rw [valid] at h
    cases h
  | ok u => exact Grammar.lt_size_of_validate valid

theorem Grammar.Raw.consistent (raw : g.Raw) (lt : start < g.size) :
    Consistent Links.all (World.whole start) World.whole { grammar := g, start, settings } where
  good := raw.good
  range id hid := by
    obtain rfl := List.mem_singleton.mp hid
    exact lt
  start := rfl
  chain k id there := by
    obtain ⟨rfl, rfl⟩ := Recognizer.getElem?_chain_start rfl there
    exact .refl _

/-- Whatever is asked of a recognizer for a graph that was built: no thunk is asked for while it is
being evaluated, and while one is, the nullability of no nonterminal is asked that was in progress
when that began. For the alarm is not raised, whatever it is; and no thunk is noted as
re-entered. -/
theorem calls_guarded (made : g.Made) (valid : Recognizer.ofGrammar g start settings = .ok r)
    (alarm : Error) (fuel : Nat) (calls : List (Call L)) :
    ((Evaluator.guarded alarm fuel []).engine fuel).callAll calls r =
        Recognizer.callAll fuel calls r ∧
      ∀ r', Recognizer.callAll fuel calls r = .ok ((), r') →
      ∀ t, Event.reentered t ∉ r'.grammar.journal := by
  have lt := lt_size_of_ofGrammar valid
  obtain rfl := ofGrammar_ok valid
  obtain ⟨same, hushed⟩ :=
    ((mirrors_guarded alarm fuel).engine.callAll calls).faithful (made.raw.consistent lt)
  refine ⟨same, fun r' run t mem => ?_⟩
  have before : Event.reentered t ∈ g.journal := hushed () r' run t mem
  rw [made.raw.journal] at before
  exact Array.not_mem_empty _ before

end Recognizers

/-- A nonterminal that is a token or itself followed by one, and one without a body that it does not
lead to. -/
def looped : Grammar String :=
  ((((((Grammar.initial.withNode (.undefined "S")).withNode (.token 2)).withNode
    (.cat 1 2)).withNode
    (.alt 3 2)).withNode (.undefined "T")).revised 1 fun _ => .rule { name := "S" } 4)

theorem made_looped : looped.Made := by
  have s : (Grammar.initial.withNode (.undefined "S") : Grammar String).Made :=
    .declare .initial rfl
  have a : (Grammar.withNode _ (.token 2) : Grammar String).Made := .token s rfl
  have sa : (Grammar.withNode _ (.cat 1 2) : Grammar String).Made :=
    .cat a (by decide) (by decide) rfl
  have either : (Grammar.withNode _ (.alt 3 2) : Grammar String).Made :=
    .alt sa (by decide) (by decide) rfl
  have t : (Grammar.withNode _ (.undefined "T") : Grammar String).Made := .declare either rfl
  exact .define t (by decide) (Grammar.define_ok.mpr ⟨"S", rfl, rfl⟩)

theorem calls_guarded_looped :
    looped.Made ∧ ∃ r : Recognizer String, Recognizer.ofGrammar looped 1 {} = .ok r ∧
    ((Evaluator.guarded (.unknownRule "alarm") 30 []).engine 30).callAll
        [.feed ⟨2, "a"⟩, .parse [⟨2, "b"⟩, ⟨2, "c"⟩], .forest] r =
      Recognizer.callAll 30 [.feed ⟨2, "a"⟩, .parse [⟨2, "b"⟩, ⟨2, "c"⟩], .forest] r ∧
    ∀ r', Recognizer.callAll 30 [.feed ⟨2, "a"⟩, .parse [⟨2, "b"⟩, ⟨2, "c"⟩], .forest] r =
      .ok ((), r') →
      ∀ t, Event.reentered t ∉ r'.grammar.journal := by
  obtain ⟨r, valid⟩ :=
    exists_of_isOk (show (Recognizer.ofGrammar looped 1 {}).isOk = true by decide +kernel)
  exact ⟨made_looped, r, valid, calls_guarded made_looped valid _ _ _⟩

end DerivativeParsing
