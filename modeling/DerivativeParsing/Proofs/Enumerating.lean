import DerivativeParsing.Proofs.Lasting
import DerivativeParsing.Proofs.Nesting

/-!
# Trees that are remembered

An extraction remembers the trees of a span for the next time, unless a span inside it was cut.
Whether what is found inside some spans is right inside others needs an argument; plain enumeration
remembers nothing and needs none.

1. `Extraction.Alike` relates an action to one that does the same, whatever the flag for cuts.
   `alike_enumerate`: to plain enumeration such an action is found, `Grammar.enumerateMarked`, that
   raises the flag on every way down. So what it answers need hold only where it was found.
2. `exists_enumerate`: given enough fuel a span is enumerated, and what is answered is what it
   bears.
3. `trees_enumerated`: after any history, the trees of a node, the forest of a run, and all trees
   that are remembered on the way are those that plain enumeration finds, in the same order, unless
   rules are entangled.
-/

namespace DerivativeParsing

open Extraction (onGrammar)

/-! ## Whatever the flag for cuts -/

section Alike

variable {L α β : Type}

/-- The same ends of matches are known, and no trees in `known'`. -/
structure Extracted.Alike (known known' : Extracted L) : Prop where
  ends : known.ends = known'.ends
  trees : ∀ s : Span, known'.trees[s]? = none

/-- What two actions end with is the same, but for the flag for cuts. -/
inductive Extraction.SameEnd :
    Except Error ((α × Extracted L) × Grammar L) →
    Except Error ((α × Extracted L) × Grammar L) → Prop
  | ok {known known' : Extracted L} (a : α) (g : Grammar L) :
    known.Alike known' → SameEnd (.ok ((a, known), g)) (.ok ((a, known'), g))
  | error (e : Error) : SameEnd (.error e) (.error e)

/-- Where the same ends are known, the actions answer the same and leave the same grammar. The
second one remembers no trees. -/
def Extraction.Alike (act act' : Extraction L α) : Prop :=
  ∀ known known' g, known.Alike known' → SameEnd (act known g) (act' known' g)

namespace Extraction.Alike

variable {act act' : Extraction L α} {k k' : α → Extraction L β}

theorem pure (a : α) : Alike (pure a : Extraction L α) (pure a) := fun _ _ g h => .ok a g h

theorem throw (e : Error) : Alike (throw e : Extraction L α) (throw e) := fun _ _ _ _ => .error e

theorem bind (first : Alike act act') (next : ∀ a, Alike (k a) (k' a)) :
    Alike (act >>= k) (act' >>= k') := by
  intro known known' g h
  have ended := first known known' g h
  show SameEnd (act known g >>= fun p => k p.1.1 p.1.2 p.2)
    (act' known' g >>= fun p => k' p.1.1 p.1.2 p.2)
  generalize act known g = first, act' known' g = first' at ended
  cases ended with
  | ok a g₁ alike => exact next a _ _ g₁ alike
  | error e => exact .error e

theorem onGrammar (act : Eval L α) :
    Alike (Extraction.onGrammar act) (Extraction.onGrammar act) := by
  intro known known' g h
  show SameEnd (act g >>= fun p => .ok ((p.1, known), p.2))
    (act g >>= fun p => .ok ((p.1, known'), p.2))
  cases act g with
  | error e => exact .error e
  | ok p => exact .ok p.1 p.2 h

theorem foldlM {f f' : β → α → Extraction L β} (each : ∀ b a, Alike (f b a) (f' b a)) (l : List α)
    (b : β) : Alike (l.foldlM f b) (l.foldlM f' b) := by
  induction l generalizing b with
  | nil => exact pure b
  | cons a l ih =>
    rw [List.foldlM_cons, List.foldlM_cons]
    exact bind (each b a) ih

theorem raise (h : Alike act act') :
    Alike act (modify (fun known => { known with cut := true }) >>= fun _ => act') :=
  fun known known' g alike => h known { known' with cut := true } g ⟨alike.ends, alike.trees⟩

theorem ok {known known' : Extracted L} {g : Grammar L} (h : Alike act act')
    (alike : known.Alike known') {a : α} {known₁' : Extracted L} {g' : Grammar L}
    (run : act' known' g = .ok ((a, known₁'), g')) :
    ∃ known₁, act known g = .ok ((a, known₁), g') := by
  have ended := h known known' g alike
  rw [run] at ended
  generalize act known g = result at ended ⊢
  cases ended with
  | @ok known₁ => exact ⟨known₁, rfl⟩

end Extraction.Alike

end Alike

namespace Grammar

variable {L : Type} [DecidableEq L]

/-- The trees of a span, as `Grammar.enumerate` finds them. What is known already is looked up, and
the flag for cuts is raised. -/
def enumerateMarked (fuel : Nat) (input : List (Symbol L)) :
    Nat → List Span → Span → Extraction L (Forest (Symbol L)) :=
  Span.nest fun path span below => span.lookOr (.plain fuel) input path do
    modify fun known => { known with cut := true }
    render fuel input below span

section Alike

open DerivativeParsing.Extraction (Alike)

variable {fuel : Nat} {input : List (Symbol L)}
  {below below' : Span → Extraction L (Forest (Symbol L))}

omit [DecidableEq L] in
theorem get_bind_run {α : Type} (k : Extracted L → Extraction L α) (known : Extracted L)
    (g : Grammar L) : (get >>= k : Extraction L α) known g = k known known g := rfl

theorem alike_ends (id : NodeId) (start : Nat) :
    Alike (ends fuel input id start) (ends fuel input id start) := by
  intro known known' g h
  unfold ends Evaluator.ends
  rw [get_bind_run, get_bind_run, h.ends]
  cases known'.ends[(⟨id, start⟩ : Site)]? with
  | some stops => exact .ok stops g h
  | none =>
    refine Alike.bind (.onGrammar _) (fun stops => Alike.bind ?_ fun _ => .pure stops)
      known known' g h
    exact fun known known' g h => .ok () g ⟨congrArg (·.insert ⟨id, start⟩ stops) h.ends, h.trees⟩

section Parts

variable (each : ∀ s, Alike (below s) (below' s))
include each

theorem alike_splits (left right : NodeId) (start stop : Nat) (consume : Bool) :
    Alike (splits fuel input below left right start stop consume)
      (splits fuel input below' left right start stop consume) := by
  refine .bind (alike_ends left start) fun middles => .foldlM (fun found middle => ?_) middles _
  unfold Evaluator.takeSplit
  split
  · exact .pure _
  · refine .bind (each _) fun r => ?_
    split
    · exact .pure _
    · exact .bind (each _) fun _ => .pure _

theorem alike_render (s : Span) :
    Alike (render fuel input below s) (render fuel input below' s) := by
  refine .bind (.onGrammar _) fun node => ?_
  cases node with
  | empty | undefined | matched => exact .pure _
  | token kind =>
    dsimp only
    split
    · exact .pure _
    · split
      · exact .pure _
      · exact .throw _
  | alt left right => exact .bind (each _) fun _ => .bind (each _) fun _ => .pure _
  | cat left right => exact alike_splits each left right _ _ _
  | rep body =>
    dsimp only
    split
    · exact .pure _
    · exact alike_splits each body _ _ _ _
  | rule r body => exact each _
  | thunk t base => exact .bind (.onGrammar _) fun _ => each _

end Parts

theorem alike_enumerate (depth : Nat) (path : List Span) (s : Span) :
    Alike (enumerate fuel input depth path s) (enumerateMarked fuel input depth path s) := by
  induction depth generalizing path s with
  | zero => exact .throw _
  | succ depth ih =>
    intro known known' g h
    unfold enumerate enumerateMarked Span.nest Span.lookOr
    rw [get_bind_run, h.trees s]
    refine Alike.bind (alike_ends s.node s.start) (fun stops => ?_) known known' g h
    split
    · exact .pure _
    split
    · exact .raise (.pure _)
    · exact .raise (alike_render (ih (s :: path)) s)

end Alike

end Grammar

/-! ## What is enumerated -/

section Enumerated

variable {L : Type} [DecidableEq L]

namespace Outset

variable {o : Outset L} {a : Stage L} {s : Span} {path : List Span}
  {below : Nat → Span → Extraction L (Forest (Symbol L))}

/-- The parts of a span are read with the flag for cuts up. It is still up afterwards, so that what
is answered need hold on this path only. -/
theorem reads_marked (ranged : o.Ranged s) (lies : o.Lies path s)
    (reads : s ∉ path → ∀ p, o.Ranged p → o.Lies (s :: path) p →
      o.Reads (below · p) (s :: path) p) :
    o.ReadsNew (fun fuel => do
      modify fun known => { known with cut := true }
      Grammar.render fuel o.input (below fuel) s) path s := by
  intro a h unknown live inside
  obtain ⟨found, b, rendering, renders⟩ :=
    rendersAt (reads inside) (h.withCut true) unknown ranged live lies
  have raised : b.known.cut = true := renders.proceeds.cut rfl
  refine ⟨found, b, .bind (.modify _) rendering,
    ⟨renders.proceeds.carries, renders.proceeds.underway, fun _ => raised,
      renders.proceeds.unknown⟩,
    fun p hp => renders.unknown p (.tail _ hp), renders.sound, fun reliable P suits => ?_⟩
  rcases suits with rfl | ⟨whole, -⟩
  · exact renders.bears reliable _ (.inl rfl) fun hs => inside hs.1
  · cases raised.symm.trans whole

theorem reads_enumerateMarked (ranged : o.Ranged s) :
    o.Reads (fun fuel => Grammar.enumerateMarked fuel o.input fuel [] s) [] s :=
  reads_nested (fun _ _ ranged lies reads =>
    reads_lookOr ranged lies (reads_marked ranged lies reads))
    (Nat.le_add_left o.box.card _) .nil nofun ranged fun _ => nofun

/-- A span that stands by itself is enumerated, and what is answered is what it bears. -/
theorem exists_enumerate (h : o.Underway a) (none : ∀ s : Span, a.known.trees[s]? = none)
    (ranged : o.Ranged s) :
    ∃ found W' g', Answers (fun fuel => (Grammar.enumerate fuel o.input fuel [] s).run' a.known)
      a.grammar (found, g') ∧
      Carries o.links a.world a.grammar W' g' ∧
        (o.sure ∧ Trust o.links W' g' → o.Bears ∅ s found) := by
  obtain ⟨found, b, ⟨N, reading⟩, yields⟩ := reads_enumerateMarked ranged a h nofun
  refine ⟨found, b.world, b.grammar, ⟨N, fun fuel le => ?_⟩,
    yields.proceeds.carries, fun reliable =>
    yields.bears reliable ∅ (.inl o.within_nil.symm)⟩
  obtain ⟨known, run⟩ := (Grammar.alike_enumerate fuel [] s).ok ⟨rfl, none⟩ (reading fuel le)
  exact Action.bind_of_ok (k := fun (p : Forest (Symbol L) × Extracted L) => pure p.1) run

end Outset

end Enumerated

/-! ## After any history -/

/-- Rules are entangled, and without collections one of them is stored wrongly in one of two
grammars. -/
def Source.Excused {L : Type} [DecidableEq L] (source : Source) (settings : Settings)
    (g g' : Grammar L) : Prop :=
  source.links.Entangled ∧ (settings.collectEvery = none → g.Misled ∨ g'.Misled)

section Enumerated

variable {L : Type} [DecidableEq L] {r r₀ : Recognizer L} {source : Source} {settings : Settings}
  {fuel : Nat} {calls : List (Call L)} {links : Links} {origin : Meaning} {O : NodeId → Prop}
  {W W' W₁ : World} {g g' g₁ : Grammar L} {input : List (Symbol L)} {s : Span}
  {f : Forest (Symbol L)}

/-- What was found of a span is what plain enumeration finds of it, in the same order. The exception
is that rules are entangled, and, without collections, that one of them is stored wrongly, be it in
the grammar `g'` that the first reading left, or in the one that the enumeration leaves. -/
def Source.Enumerated (source : Source) (settings : Settings) (g : Grammar L)
    (input : List (Symbol L)) (s : Span) (f : Forest (Symbol L)) (g' : Grammar L) : Prop :=
  ∃ f' g₁, Answers (fun fuel => Grammar.enumerateTrees fuel input s) g (f', g₁) ∧
    (f = f' ∨ source.Excused settings g' g₁)

/-- After two readings rules are stored rightly in both grammars, unless they are entangled. -/
theorem Consistent.exact_or_excused (h : Consistent source.links origin W r)
    (exact : r.Remembers source.links → Exact source.links origin W r)
    (carries : Carries source.links W r.grammar W' g')
    (carries₁ : Carries source.links W r.grammar W₁ g₁) :
    Exact source.links origin W r ∧ Trust source.links W' g' ∧ Trust source.links W₁ g₁ ∨
      source.Excused r.settings g' g₁ := by
  have outcomes := both_or_misled ((h.carried carries).assured_or_misled exact)
    ((h.carried carries₁).assured_or_misled exact)
  exact outcomes.imp_left fun ⟨assured, assured₁⟩ =>
    ⟨exact assured.remembers, assured.trust, assured₁.trust⟩

/-- What a span bears is what plain enumeration finds of it. -/
theorem Consistent.enumerated {D : Readings L} (h : Consistent source.links origin W r)
    (exact : r.Remembers source.links → Exact source.links origin W r)
    (rooted : Rooted D O W r.grammar r.start) (ranged : (h.outset rooted input).Ranged s)
    (carries : Carries source.links W r.grammar W' g')
    (bears : Exact source.links origin W r ∧ Trust source.links W' g' →
      r.grammar.Bears input ∅ s f) :
    source.Enumerated r.settings r.grammar input s f g' := by
  obtain ⟨f', W₁, g₁, enumerating, carries₁, bears₁⟩ :=
    Outset.exists_enumerate (h.outset rooted input).underway_begun
    (fun _ => Std.TreeMap.getElem?_emptyc) ranged
  refine ⟨f', g₁, enumerating, ?_⟩
  rcases h.exact_or_excused exact carries carries₁ with ⟨exact, trust, trust₁⟩ | excused
  · exact .inl ((bears ⟨exact, trust⟩).unique (bears₁ ⟨exact, trust₁⟩))
  · exact .inr excused

/-- What a run left is read, and what is remembered on the way is what the spans bear. -/
theorem Consistent.exists_keptOfRun {D : Readings L} (h : Consistent links origin W r)
    (rooted : Rooted D O W r.grammar r.start) : ∃ p W' g',
      Answers (fun fuel => Grammar.keptOfRun fuel r.chain r.input) r.grammar (p, g') ∧
        Carries links W r.grammar W' g' ∧
        (Exact links origin W r ∧ Trust links W' g' → D.Gives r.input p.1) ∧
          ∀ s f, p.2[s]? = some f → (h.outset rooted r.input).Ranged s ∧
            (Exact links origin W r ∧ Trust links W' g' → r.grammar.Bears r.input ∅ s f) := by
  refine h.exists_readRun _ _ rooted
    (fun a underway _ => ?_) fun W' g' none carries => ⟨fun reliable => ?_, fun s f kept => ?_⟩
  · obtain ⟨found, b, reading, proceeds, -, bears⟩ :=
      Outset.exists_read underway (Outset.ranged_whole _)
    refine ⟨(found.filter fun t => !t.isNil, b.known.trees), b.world, b.grammar,
      .bind reading (.const rfl), proceeds.carries, fun reliable => ?_, fun s f kept => ?_⟩
    · exact ⟨found, rooted.bears r.input found (bears reliable), rfl⟩
    · exact ⟨proceeds.underway.ranged s f kept, fun reliable =>
        proceeds.underway.bears s f kept reliable ∅ nofun⟩
  · exact ⟨.empty, rooted.bears r.input .empty (.none (none reliable)), rfl⟩
  · cases Std.TreeMap.getElem?_emptyc.symm.trans kept

theorem Consistent.exists_enumerateRun {D : Readings L} (h : Consistent links origin W r)
    (rooted : Rooted D O W r.grammar r.start) : ∃ f W' g',
      Answers (fun fuel => Grammar.enumerateRun fuel r.chain r.input) r.grammar (f, g') ∧
        Carries links W r.grammar W' g' ∧
          (Exact links origin W r ∧ Trust links W' g' → D.Gives r.input f) := by
  refine h.exists_readRun Forest.empty (fun fuel start known => do
      let found ← (Grammar.enumerate fuel r.input fuel [] ⟨start, 0, r.input.length⟩).run' known
      return found.filter fun t => !t.isNil) rooted (fun a underway new => ?_)
    fun W' g' none carries reliable => ?_
  · obtain ⟨found, W', g', enumerating, carries, bears⟩ :=
      Outset.exists_enumerate underway new (Outset.ranged_whole _)
    exact ⟨found.filter fun t => !t.isNil, W', g', .bind enumerating (.const rfl),
      carries, fun reliable =>
      ⟨found, rooted.bears r.input found (bears reliable), rfl⟩⟩
  · exact ⟨.empty, rooted.bears r.input .empty (.none (none reliable)), rfl⟩

theorem Grammar.forestOfRun_eq_keptOfRun (fuel : Nat) (chain : List NodeId)
    (input : List (Symbol L)) :
    Grammar.forestOfRun fuel chain input =
      (do let p ← Grammar.keptOfRun fuel chain input; return p.1) := by
  cases chain with
  | nil => rfl
  | cons start after =>
    unfold keptOfRun forestOfRun Evaluator.forestOfRun Evaluator.forestBy Evaluator.readRun
    dsimp only
    split
    · rfl
    · rw [bind_assoc]
      refine bind_congr fun stops => ?_
      split
      · rfl
      · rw [bind_assoc, StateT.run'_eq]
        simp [trees]

/-- Whatever happened before, the trees of a node over an input are read, and so is the forest of
the symbols consumed, given enough fuel. They are those that plain enumeration finds, which
remembers no trees and refuses only a span that comes up inside itself: the same trees in the same
order. So are all trees that were remembered on the way, each of a span that stands by itself. The
exception is that rules are entangled. -/
theorem trees_enumerated (history : source.after settings fuel calls = .ok r)
    (built : source.recognizer settings = .ok r₀) : ∃ names, FoundAgain names r₀ r ∧
      (∀ symbols x y, x < r₀.grammar.size → names x = some y → ∃ found known g',
        Answers (fun fuel => Grammar.parseTrees fuel y symbols) r.grammar (found, g') ∧
          Answers (fun fuel => (Grammar.trees fuel symbols fuel [] ⟨y, 0, symbols.length⟩).run {})
            r.grammar
            ((found, known), g') ∧
          source.Enumerated settings r.grammar symbols ⟨y, 0, symbols.length⟩ found g' ∧
            ∀ s f, known.trees[s]? = some f → source.Enumerated settings r.grammar symbols s f g') ∧
      ∃ f kept g', Answers (fun fuel => Grammar.forestOfRun fuel r.chain r.input)
        r.grammar (f, g') ∧
        Answers (fun fuel => Grammar.keptOfRun fuel r.chain r.input) r.grammar ((f, kept), g') ∧
          (∃ f' g₁, Answers (fun fuel => Grammar.enumerateRun fuel r.chain r.input) r.grammar
            (f', g₁) ∧
            (f = f' ∨ source.Excused settings g' g₁)) ∧
          ∀ s f, kept[s]? = some f → source.Enumerated settings r.grammar r.input s f g' := by
  obtain ⟨names, W, foundAgain, h, rooted, exact, rfl⟩ := exists_foundAgain history built
  refine ⟨names, foundAgain, fun symbols x y lt name => ?_, ?_⟩
  · have ranged : (h.outset rooted symbols).Ranged ⟨y, 0, symbols.length⟩ :=
      ⟨List.mem_filterMap.mpr ⟨x, List.mem_range.mpr lt, name⟩, Nat.zero_le _, Nat.le_refl _⟩
    obtain ⟨found, b, reading, proceeds, -, bears⟩ :=
      Outset.exists_read (h.outset rooted symbols).underway_begun ranged
    exact ⟨found, b.known, b.grammar, reading.run', reading,
      h.enumerated exact rooted ranged proceeds.carries bears,
      fun s f kept => h.enumerated exact rooted (proceeds.underway.ranged s f kept)
        proceeds.carries fun reliable =>
        proceeds.underway.bears s f kept reliable ∅ nofun⟩
  · obtain ⟨⟨f, kept⟩, W', g', reading, carries, gives, spans⟩ := h.exists_keptOfRun rooted
    refine ⟨f, kept, g', ?_, reading, ?_, fun s f there => ?_⟩
    · simp only [Grammar.forestOfRun_eq_keptOfRun]
      exact .bind reading (.const rfl)
    · obtain ⟨f', W₁, g₁, enumerating, carries₁, gives₁⟩ := h.exists_enumerateRun rooted
      refine ⟨f', g₁, enumerating, ?_⟩
      rcases h.exact_or_excused exact carries carries₁ with ⟨exact, trust, trust₁⟩ | excused
      · exact .inl ((gives ⟨exact, trust⟩).unique (gives₁ ⟨exact, trust₁⟩))
      · exact .inr excused
    · obtain ⟨ranged, bears⟩ := spans s f there
      exact h.enumerated exact rooted ranged carries bears

theorem trees_enumerated_forked : ∃ r r₀ : Recognizer String,
    forked.after (({} : Settings).withCollectEvery 1) 30
      [.parse [⟨2, "y"⟩], .feed ⟨3, "z"⟩] = .ok r ∧
      forked.recognizer (({} : Settings).withCollectEvery 1) = .ok r₀ ∧
        (∃ found known g',
          Answers (fun fuel => Grammar.parseTrees fuel r.start [⟨2, "y"⟩]) r.grammar (found, g') ∧
          Answers (fun fuel => (Grammar.trees fuel [⟨2, "y"⟩] fuel [] ⟨r.start, 0, 1⟩).run {})
            r.grammar
            ((found, known), g') ∧
          forked.Enumerated (({} : Settings).withCollectEvery 1) r.grammar [⟨2, "y"⟩]
            ⟨r.start, 0, 1⟩ found g' ∧
            ∀ s f, known.trees[s]? = some f →
              forked.Enumerated (({} : Settings).withCollectEvery 1) r.grammar [⟨2, "y"⟩] s f g') ∧
        ∃ f kept g', Answers (fun fuel => Grammar.forestOfRun fuel r.chain r.input)
          r.grammar (f, g') ∧
          Answers (fun fuel => Grammar.keptOfRun fuel r.chain r.input) r.grammar ((f, kept), g') ∧
            (∃ f' g₁, Answers (fun fuel => Grammar.enumerateRun fuel r.chain r.input) r.grammar
              (f', g₁) ∧
              (f = f' ∨ forked.Excused (({} : Settings).withCollectEvery 1) g' g₁)) ∧
            ∀ s f, kept[s]? = some f →
            forked.Enumerated (({} : Settings).withCollectEvery 1) r.grammar r.input s f g' := by
  obtain ⟨r, history⟩ := forked_used
  obtain ⟨r₀, built, inside⟩ := exists_of_any (show ((forked.recognizer (L := String)
    (({} : Settings).withCollectEvery 1)).toOption.any fun r => decide (r.start < r.grammar.size)) =
    true by
      decide +kernel)
  obtain ⟨names, foundAgain, trees, run⟩ := trees_enumerated history built
  exact ⟨r, r₀, history, built,
    trees [⟨2, "y"⟩] r₀.start r.start (of_decide_eq_true inside) foundAgain.start, run⟩

/-- How much fuel there is does not matter, if it is enough. -/
theorem lasts_enumerateTrees (input : List (Symbol L)) (s : Span) :
    Lasts fuel fun n => Grammar.enumerateTrees n input s := by
  refine (Grammar.lasts_nested (Grammar.enumerate · input) [] (fun _ _ _ _ _ run => by cases run)
    (fun path s below => ?_) rfl s).run' {}
  refine (Grammar.lasts_ends input s.node s.start).bind fun stops => ?_
  split
  · exact .const _
  split
  · exact .const _
  · exact Grammar.lasts_render below s

/-- Four rules: the first stands for the second, or the last, which end with symbols of their own.
They come back to the second through the third, which stands for it. -/
def braided : Source :=
  .ruled [("A", .alt (.alt (.rule "B") (.rule "D")) (.rule "B")),
    ("B", .alt (.cat (.alt (.alt (.rule "C") (.token 0)) (.token 2)) (.token 3)) (.token 2)),
    ("C", .cat .epsilon (.rule "B")),
    ("D", .cat (.token 2) (.cat (.alt (.token 3) (.rule "C")) (.token 2)))] "A"

/-- Trees that are remembered need not be enumerated again. But each enumeration asks rules whether
they match the empty word, and what one answers for the sake of another is stored; so a tree is
found that was missed before. -/
theorem parseTrees_misses_braided :
    ∃ (r : Recognizer String) (found : Forest (Symbol String)) (g' : Grammar String)
    (plain : Forest (Symbol String)) (g₁ : Grammar String), braided.recognizer {} = .ok r ∧
      Answers (fun fuel => Grammar.parseTrees fuel r.start [⟨2, "a"⟩, ⟨3, "b"⟩]) r.grammar
        (found, g') ∧
        Answers (fun fuel => Grammar.enumerateTrees fuel [⟨2, "a"⟩, ⟨3, "b"⟩] ⟨r.start, 0, 2⟩)
          r.grammar (plain, g₁) ∧
          found.size = 1 ∧ plain.size = 2 := by
  obtain ⟨r, built, reading⟩ :=
    exists_of_any (show ((braided.recognizer (L := String) {}).toOption.any fun r =>
    (Grammar.parseTrees 40 r.start [⟨2, "a"⟩, ⟨3, "b"⟩] r.grammar).toOption.any fun p =>
      p.1.size == 1) = true by
      decide +kernel)
  obtain ⟨r₁, built₁, enumerating⟩ :=
    exists_of_any (show ((braided.recognizer (L := String) {}).toOption.any fun r =>
    (Grammar.enumerateTrees 40 [⟨2, "a"⟩, ⟨3, "b"⟩] ⟨r.start, 0, 2⟩ r.grammar).toOption.any fun p =>
      p.1.size == 2) = true by decide +kernel)
  cases built.symm.trans built₁
  obtain ⟨⟨found, g'⟩, run, one⟩ := exists_of_any reading
  obtain ⟨⟨plain, g₁⟩, run₁, two⟩ := exists_of_any enumerating
  exact ⟨r, found, g', plain, g₁, built, Grammar.lasts_parseTrees _ _ _ _ run,
    lasts_enumerateTrees _ _ _ _ run₁, eq_of_beq one, eq_of_beq two⟩

end Enumerated

end DerivativeParsing
