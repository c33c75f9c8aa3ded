import DerivativeParsing.Proofs.Extracting
import DerivativeParsing.Proofs.Forests
import DerivativeParsing.Proofs.Recognition

/-!
# How spans nest

Reading the trees of a span asks for those of its parts, and rules may lead around to the span
itself. Nothing gets smaller on the way: there are only so many spans, and none is read inside
itself.

1. `Span.Nested`: spans inside each other that are all different, at given nodes.
   `Grammar.treesGuarded` reads trees, and raises an alarm before it reads a span that is not nested
   so.
2. `Extraction.Agree` says that two actions do the same on grammars that have given roots.
   `agree_trees`: so do reading and guarded reading, and how deep spans may nest makes no
   difference, if it is more than there are spans. Actions change the grammar, and add to it; but
   the parts of roots are roots.
3. `forest_nests`: after any history forests are read, given enough fuel, and no alarm is raised.
   The nodes that are met are those of the grammar as it was built, under the names that they have
   got since.
-/

namespace DerivativeParsing

open Extraction (onGrammar)

/-! ## Guarded reading -/

/-- The spans, each inside those behind it, are all different, and they are stretches of an input of
some length at nodes of a list. -/
def Span.Nested (nodes : List NodeId) (length : Nat) (chain : List Span) : Prop :=
  chain.Nodup ∧ ∀ s ∈ chain, s.node ∈ nodes ∧ s.start ≤ length ∧ s.stop ≤ length

instance (nodes : List NodeId) (length : Nat) : DecidablePred (Span.Nested nodes length) :=
  fun _ => inferInstanceAs (Decidable (_ ∧ _))

namespace Grammar

variable {L : Type} [DecidableEq L]

/-- Reads the trees of a span that comes up inside the spans of `path`, as `Grammar.trees` does.
Before the parts of the span are read, an alarm is raised if it and the spans around it are not
nested at nodes of the list. -/
def treesGuarded (alarm : Error) (nodes : List NodeId) (fuel : Nat) (input : List (Symbol L)) :
    Nat → List Span → Span → Extraction L (Forest (Symbol L)) :=
  Span.nest fun path span below => span.lookOr (.plain fuel) input path <|
    if Span.Nested nodes input.length (span :: path) then span.keeping
      (render fuel input below span)
    else throw alarm

/-- The trees of a node over the whole input. Spans nest to some depth, and an alarm is raised
otherwise. -/
def parseTreesGuarded (alarm : Error) (nodes : List NodeId) (fuel depth : Nat) (start : NodeId)
    (input : List (Symbol L)) : Eval L (Forest (Symbol L)) :=
  (treesGuarded alarm nodes fuel input depth [] ⟨start, 0, input.length⟩).run' {}

/-- The forest of a run of a recognizer. Spans nest to some depth, and an alarm is raised
otherwise. -/
def forestOfRunGuarded (alarm : Error) (nodes : List NodeId) (fuel depth : Nat)
    (chain : List NodeId) (input : List (Symbol L)) : Eval L (Forest (Symbol L)) :=
  (Evaluator.plain fuel).forestBy (treesGuarded alarm nodes fuel input depth []) chain input

end Grammar

/-- The parse trees of the symbols consumed so far. Spans nest to some depth, and an alarm is raised
otherwise. -/
def Recognizer.forestGuarded {L : Type} [DecidableEq L] (alarm : Error) (nodes : List NodeId)
    (fuel depth : Nat) : Recognizing L (Forest (Symbol L)) :=
  { Engine.plain fuel with
    forest := Grammar.forestOfRunGuarded alarm nodes fuel depth : Engine L }.forestOf

/-! ## Actions that agree on grammars with given roots -/

/-- On grammars between actions that have the roots `O`, the two actions do the same. -/
def Agree {L α : Type} [DecidableEq L] (O : NodeId → Prop) (act act' : Eval L α) : Prop :=
  ∀ (links : Links) (W : World) (g : Grammar L), Good links W g → g.Pristine O → act' g = act g

/-- Two extractions agree, whatever they know already. -/
def Extraction.Agree {L α : Type} [DecidableEq L] (O : NodeId → Prop) (act act' : Extraction L α) :
    Prop :=
  ∀ known, DerivativeParsing.Agree O (act known) (act' known)

section Agree

variable {L α β : Type} [DecidableEq L] {O : NodeId → Prop}

theorem Agree.bind {act act' : Eval L α} {k k' : α → Eval L β} (keeps : Keeps act)
    (first : Agree O act act') (next : ∀ a, Agree O (k a) (k' a)) :
    Agree O (act >>= k) (act' >>= k') := by
  intro links W g good pristine
  show (act' g >>= fun p => k' p.1 p.2) = (act g >>= fun p => k p.1 p.2)
  rw [first links W g good pristine]
  cases run : act g with
  | error e => rfl
  | ok p =>
    obtain ⟨W', carries⟩ := keeps links W g p.1 p.2 good run
    exact next p.1 links W' p.2 carries.good (carries.spares O pristine).1

theorem Agree.refl (act : Eval L α) : Agree O act act := fun _ _ _ _ _ => rfl

namespace Extraction.Agree

variable {act act' : Extraction L α} {k k' : α → Extraction L β}

theorem refl (act : Extraction L α) : Agree O act act := fun known => .refl (act known)

theorem bind (keeps : act.Keeps) (first : Agree O act act') (next : ∀ a, Agree O (k a) (k' a)) :
    Agree O (act >>= k) (act' >>= k') :=
  fun known => DerivativeParsing.Agree.bind (keeps known) (first known) fun p => next p.1 p.2

theorem next (keeps : act.Keeps) (next : ∀ a, Agree O (k a) (k' a)) :
    Agree O (act >>= k) (act >>= k') :=
  bind keeps (refl act) next

/-- A root holds a node as it was built, and the parts of that are roots. -/
theorem fetch {k k' : Node L → Extraction L β} {x : NodeId} (hx : O x)
    (next : ∀ node, node.isBuilt → (∀ y ∈ node.successors false, O y) →
      Agree O (k node) (k' node)) :
    Agree O (onGrammar (Grammar.fetch x) >>= k) (onGrammar (Grammar.fetch x) >>= k') := by
  intro known links W g good pristine
  obtain ⟨node, there, built⟩ := pristine.node x hx
  have fetched : onGrammar (Grammar.fetch x) known g = .ok ((node, known), g) :=
    Action.bind_of_ok (k := fun node => Pure.pure (node, known)) (Grammar.fetch_ok.mpr ⟨there, rfl⟩)
  have read (k : Node L → Extraction L β) :
      (onGrammar (Grammar.fetch x) >>= k) known g = k node known g :=
    Action.bind_of_ok (k := fun (p : Node L × Extracted L) => k p.1 p.2) fetched
  rw [read, read]
  exact next node built (pristine.closed x node hx there) known links W g good pristine

theorem foldlM {f f' : β → α → Extraction L β} (keeps : ∀ b a, (f b a).Keeps)
    (h : ∀ b a, Agree O (f b a) (f' b a)) (l : List α) (b : β) :
    Agree O (l.foldlM f b) (l.foldlM f' b) := by
  induction l generalizing b with
  | nil => exact refl _
  | cons a l ih =>
    rw [List.foldlM_cons, List.foldlM_cons]
    exact bind (keeps b a) (h b a) ih

theorem run' (keeps : act.Keeps) (h : Agree O act act') (known : Extracted L) :
    DerivativeParsing.Agree O (act.run' known) (act'.run' known) :=
  DerivativeParsing.Agree.bind (k := fun (p : α × Extracted L) => Pure.pure p.1) (keeps known)
    (h known) fun _ => .refl _

end Extraction.Agree

end Agree

/-! ## Reading and guarded reading -/

def Span.At (nodes : List NodeId) (length : Nat) (s : Span) : Prop :=
  s.node ∈ nodes ∧ s.start ≤ length ∧ s.stop ≤ length

section Reading

variable {L : Type} [DecidableEq L] {nodes : List NodeId} {fuel depth depth' : Nat}
  {input : List (Symbol L)} {path : List Span} {s : Span} {alarm : Error}
  {below below' : Span → Extraction L (Forest (Symbol L))}

omit [DecidableEq L] in
theorem Span.Nested.cons (h : Span.Nested nodes input.length path)
    (at_node : s.At nodes input.length) (new : s ∉ path) :
    Span.Nested nodes input.length (s :: path) :=
  ⟨List.nodup_cons.mpr ⟨new, h.1⟩, List.forall_mem_cons.mpr ⟨at_node, h.2⟩⟩

/-- Spans nest no deeper than there are spans. -/
theorem Span.Nested.length_le {length : Nat} (h : Span.Nested nodes length path) :
    path.length ≤ nodes.length * (length + 1) ^ 2 := by
  have within : ∀ p ∈ path, p ∈ Span.box nodes.toFinset length := by
    intro p hp
    obtain ⟨node, start, stop⟩ := h.2 p hp
    exact Span.mem_box (List.mem_toFinset.mpr node) start stop
  calc path.length ≤ (Span.box nodes.toFinset length).card := Span.length_le_card_box within h.1
    _ ≤ nodes.toFinset.card * (length + 1) ^ 2 := Span.card_box_le _ _
    _ ≤ nodes.length * (length + 1) ^ 2 := Nat.mul_le_mul_right _ nodes.toFinset_card_le

section Parts

variable (keeps : ∀ p, (below p).Keeps)
  (agree : ∀ p, p.At nodes input.length → Extraction.Agree (· ∈ nodes) (below p) (below' p))
include keeps agree

/-- The parts of a sequence end where the whole does, or before. -/
theorem agree_splits {left right : NodeId} {start stop : Nat} (consume : Bool) (hl : left ∈ nodes)
    (hr : right ∈ nodes) (hstart : start ≤ input.length) (hstop : stop ≤ input.length) :
    Extraction.Agree (· ∈ nodes) (Grammar.splits fuel input below left right start stop consume)
      (Grammar.splits fuel input below' left right start stop consume) := by
  refine .next (Grammar.keeps_ends fuel input left start) fun middles => ?_
  refine .foldlM (fun found middle => ?_) (fun found middle => ?_) middles _ <;>
    unfold Evaluator.takeSplit
  · split
    · exact .pure _
    · refine (keeps _).bind fun r => ?_
      split
      · exact .pure _
      · exact (keeps _).bind fun _ => .pure _
  · split
    · exact .refl _
    · rename_i admitted
      have le : middle ≤ stop := by
        have := admitted
        simp only [Bool.or_eq_true, decide_eq_true_eq, not_or, Nat.not_lt] at this
        exact this.1
      refine .bind (keeps _) (agree _ ⟨hr, Nat.le_trans le hstop, hstop⟩) fun r => ?_
      split
      · exact .refl _
      · exact .bind (keeps _) (agree _ ⟨hl, hstart, Nat.le_trans le hstop⟩) fun _ => .refl _

theorem agree_render (at_node : s.At nodes input.length) :
    Extraction.Agree (· ∈ nodes) (Grammar.render fuel input below s)
      (Grammar.render fuel input below' s) := by
  obtain ⟨hx, hstart, hstop⟩ := at_node
  refine .fetch hx fun node built closed => ?_
  cases node with
  | matched | thunk => cases built
  | empty | undefined | token => exact .refl _
  | alt left right =>
    have hl : left ∈ nodes := closed left (.head _)
    have hr : right ∈ nodes := closed right (.tail _ (.head _))
    exact .bind (keeps _) (agree _ ⟨hl, hstart, hstop⟩) fun _ =>
      .bind (keeps _) (agree _ ⟨hr, hstart, hstop⟩) fun _ => .refl _
  | cat left right =>
    exact agree_splits keeps agree false (closed left (.head _)) (closed right (.tail _ (.head _)))
      hstart hstop
  | rep body =>
    dsimp only
    split
    · exact .refl _
    · exact agree_splits keeps agree true (closed body (.head _)) hx hstart hstop
  | rule r body => exact agree _ ⟨closed body (.head _), hstart, hstop⟩

end Parts

/-- Reading and guarded reading do the same. So they do if spans may nest to different depths, both
of them more than there are spans. By induction on the depth. -/
theorem agree_trees (nested : Span.Nested nodes input.length path)
    (at_node : s.At nodes input.length)
    (deep : depth = depth' ∨
      nodes.length * (input.length + 1) ^ 2 < path.length + min depth depth') :
    Extraction.Agree (· ∈ nodes) (Grammar.trees fuel input depth path s)
      (Grammar.treesGuarded alarm nodes fuel input depth' path s) := by
  have few := nested.length_le
  induction depth generalizing depth' path s with
  | zero =>
    obtain rfl : depth' = 0 := by omega
    exact .refl _
  | succ depth ih =>
    obtain _ | depth' := depth'
    · omega
    refine .next .get fun known => ?_
    cases known.trees[s]? with
    | some found => exact .refl _
    | none =>
      refine .next (Grammar.keeps_ends fuel input s.node s.start) fun stops => ?_
      split
      · exact .refl _
      split
      · exact .refl _
      · rename_i outside
        have nested' := nested.cons at_node fun inside => outside (List.contains_iff_mem.mpr inside)
        have few' := nested'.length_le
        rw [if_pos nested']
        refine .next .get fun outer => .next (.modify _) fun _ => ?_
        have keeps := Grammar.keeps_trees fuel input depth (s :: path)
        refine .bind (Grammar.keeps_render fuel input keeps s)
          (agree_render keeps (fun p hp => ?_) at_node) fun _ => .refl _
        exact ih nested' hp (by rw [List.length_cons]; omega) few'

theorem agree_whole {start : NodeId} (root : start ∈ nodes)
    (deep : depth = fuel ∨ nodes.length * (input.length + 1) ^ 2 < min fuel depth) :
    Extraction.Agree (· ∈ nodes) (Grammar.trees fuel input fuel [] ⟨start, 0, input.length⟩)
      (Grammar.treesGuarded alarm nodes fuel input depth [] ⟨start, 0, input.length⟩) := by
  have nested : Span.Nested nodes input.length [] := ⟨.nil, nofun⟩
  refine agree_trees nested ⟨root, Nat.zero_le _, Nat.le_refl _⟩ ?_
  rw [List.length_nil]
  omega

theorem agree_forestOfRun {start : NodeId} {after : List NodeId} (root : start ∈ nodes)
    (deep : depth = fuel ∨ nodes.length * (input.length + 1) ^ 2 < min fuel depth) :
    Agree (· ∈ nodes) (Grammar.forestOfRun fuel (start :: after) input)
      (Grammar.forestOfRunGuarded alarm nodes fuel depth (start :: after) input) := by
  unfold Grammar.forestOfRun Grammar.forestOfRunGuarded Evaluator.forestOfRun Evaluator.forestBy
    Evaluator.readRun
  dsimp only
  split
  · exact .refl _
  · refine .bind (Grammar.keeps_acceptingAt fuel 0 _) (.refl _) fun stops => ?_
    split
    · exact .refl _
    · have keeps := Grammar.keeps_trees fuel input fuel [] ⟨start, 0, input.length⟩
      exact .bind (keeps.run' _)
        (Extraction.Agree.run' keeps (agree_whole root deep) _) fun _ => .refl _

end Reading

/-! ## After any history -/

/-- Under which names the nodes of a recognizer as it was built are found in it later. Without
collections they keep their own. -/
structure FoundAgain {L : Type} (names : NodeId → Option NodeId) (r₀ r : Recognizer L) : Prop where
  start : names r₀.start = some r.start
  injective : ∀ x x' y, names x = some y → names x' = some y → x = x'
  still : r₀.settings.collectEvery = none → names = some
  derives : ∀ x y, x < r₀.grammar.size → names x = some y → ∀ (input : List (Symbol L)) i j t,
    r.grammar.Derivation input y i j t ↔ r₀.grammar.Derivation input x i j t

section History

variable {L : Type} [DecidableEq L] {r r₀ : Recognizer L} {source : Source} {settings : Settings}
  {fuel : Nat} {calls : List (Call L)}

/-- After any history the nodes that a recognizer was built from are found again, and are still its
roots. -/
theorem exists_foundAgain (history : source.after settings fuel calls = .ok r)
    (built : source.recognizer settings = .ok r₀) : ∃ names W, FoundAgain names r₀ r ∧
      Consistent source.links source.origin W r ∧ Rooted (r₀.grammar.readings r₀.start)
        (· ∈ (List.range r₀.grammar.size).filterMap names) W r.grammar r.start ∧
          (r.Remembers source.links → Exact source.links source.origin W r) ∧
            r.settings = settings := by
  obtain ⟨r₁, built', run⟩ := after_ok.mp history
  cases built.symm.trans built'
  obtain ⟨W₀, g, start, rfl, founded, -⟩ := exists_founded built
  obtain ⟨W, follows⟩ := callAll_follows (founded.consistent settings) run
  have same : r.settings = settings := follows.settings
  obtain ⟨names, still, relocates⟩ := follows.names
  have rooted := relocates.rooted founded.rooted
  have roots : (fun y => ∃ x, names x = some y ∧ g.size > x) =
      (· ∈ (List.range g.size).filterMap names) := by
    funext y
    rw [List.mem_filterMap]
    exact propext (exists_congr fun x => by rw [List.mem_range, and_comm])
  rw [roots] at rooted
  refine ⟨names, W,
    ⟨relocates.root, fun _ _ _ => relocates.injective, still, fun x y lt name _ _ _ _ => ?_⟩,
    follows.consistent, rooted, fun remembers => follows.exact ?_ (founded.exact settings), same⟩
  · exact relocates.derives founded.rooted lt name
  · unfold Recognizer.Remembers at remembers ⊢
    rwa [← follows.settings]

/-- Whatever happened before, the trees of an input are read, and so is the forest of the symbols
consumed, given enough fuel. In doing so no span is read inside itself, and the spans are all at
nodes of the grammar as it was built, whatever nodes are added meanwhile: an alarm would be raised
otherwise. So spans nest no deeper than there are spans of that grammar. -/
theorem forest_nests (history : source.after settings fuel calls = .ok r)
    (built : source.recognizer settings = .ok r₀) : ∃ names, FoundAgain names r₀ r ∧
      (∀ symbols, (∃ found g',
        Answers (fun fuel => Grammar.parseTrees fuel r.start symbols) r.grammar (found, g')) ∧
        ∀ alarm fuel depth,
          (depth = fuel ∨ r₀.grammar.size * (symbols.length + 1) ^ 2 < min fuel depth) →
          Grammar.parseTreesGuarded alarm ((List.range r₀.grammar.size).filterMap names)
            fuel depth r.start symbols
            r.grammar = Grammar.parseTrees fuel r.start symbols r.grammar) ∧
      (∃ found r', Answers Recognizer.forest r (found, r')) ∧
        ∀ alarm fuel depth,
          (depth = fuel ∨ r₀.grammar.size * (r.input.length + 1) ^ 2 < min fuel depth) →
          Recognizer.forestGuarded alarm ((List.range r₀.grammar.size).filterMap names)
            fuel depth r =
            Recognizer.forest fuel r := by
  obtain ⟨names, W, foundAgain, consistent, rooted, -⟩ := exists_foundAgain history built
  have few (length : Nat) :
      ((List.range r₀.grammar.size).filterMap names).length * (length + 1) ^ 2 ≤
      r₀.grammar.size * (length + 1) ^ 2 := by
    refine Nat.mul_le_mul_right _ ?_
    calc _ ≤ (List.range r₀.grammar.size).length := List.length_filterMap_le _ _
      _ = r₀.grammar.size := List.length_range
  refine ⟨names, foundAgain, fun symbols => ⟨?_, fun alarm fuel depth deep => ?_⟩,
    ?_, fun alarm fuel depth deep => ?_⟩
  · obtain ⟨found, W', g', reading, -⟩ :=
      exists_parseTrees rooted consistent.good False.elim symbols
    exact ⟨found, g', reading⟩
  · have keeps := Grammar.keeps_trees fuel symbols fuel [] ⟨r.start, 0, symbols.length⟩
    have deep := deep.imp_right (Nat.lt_of_le_of_lt (few symbols.length))
    exact Extraction.Agree.run' keeps (agree_whole rooted.root deep)
      {} _ _ _ consistent.good rooted.pristine
  · obtain ⟨found, W', g', reading, -⟩ := exists_forest consistent rooted
    exact ⟨found, r.withGrammar g', reading⟩
  · have deep := deep.imp_right (Nat.lt_of_le_of_lt (few r.input.length))
    have same : Grammar.forestOfRunGuarded alarm _ fuel depth r.chain r.input r.grammar =
        Grammar.forestOfRun fuel r.chain r.input r.grammar :=
      agree_forestOfRun rooted.root deep _ _ _ consistent.good rooted.pristine
    show Recognizer.onGrammar (Grammar.forestOfRunGuarded alarm _ fuel depth r.chain r.input) r =
      Recognizer.onGrammar (Grammar.forestOfRun fuel r.chain r.input) r
    unfold Recognizer.onGrammar
    simp only [same]

theorem forest_nests_forked : ∃ r r₀ : Recognizer String,
    forked.after (({} : Settings).withCollectEvery 1) 30
      [.parse [⟨2, "y"⟩], .feed ⟨3, "z"⟩] = .ok r ∧
      forked.recognizer (({} : Settings).withCollectEvery 1) = .ok r₀ ∧
        ∃ names, FoundAgain names r₀ r ∧
        (∃ found g', Answers (fun fuel => Grammar.parseTrees fuel r.start [⟨2, "y"⟩]) r.grammar
          (found, g')) ∧
          ∀ alarm fuel depth, (depth = fuel ∨ r₀.grammar.size * 2 ^ 2 < min fuel depth) →
            Grammar.parseTreesGuarded alarm ((List.range r₀.grammar.size).filterMap names)
              fuel depth r.start
              [⟨2, "y"⟩] r.grammar = Grammar.parseTrees fuel r.start [⟨2, "y"⟩] r.grammar := by
  obtain ⟨r, history⟩ := forked_used
  obtain ⟨r₀, built, -⟩ := after_ok.mp history
  obtain ⟨names, foundAgain, reads, -⟩ := forest_nests history built
  exact ⟨r, r₀, history, built, names, foundAgain, reads [⟨2, "y"⟩]⟩

end History

end DerivativeParsing
