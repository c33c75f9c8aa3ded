import DerivativeParsing.Forest.Enumeration
import DerivativeParsing.Proofs.Running
import DerivativeParsing.Proofs.Trees

/-!
# The forest of a run

1. `Reaps` says of a forest that its trees are those of the readings of an input: none is wrong,
   none is empty, and under conditions there are some, or all.
2. `exists_forest`, `parse_settles`: given enough fuel, the forest of a run and the answer to an
   input are found, and are so.
-/

namespace DerivativeParsing

open Grammar (nothing lt_size_of_get?)

/-- A forest of what a span bears, the empty tree left out. -/
def Readings.Gives {L : Type} (D : Readings L) (input : List (Symbol L)) (f : Forest (Symbol L)) :
    Prop :=
  ∃ found, D.bears input found ∧ f = found.filter fun t => !t.isNil

theorem Readings.Gives.unique {L : Type} [DecidableEq L] {g : Grammar L} {start : NodeId}
    {input : List (Symbol L)} {f f' : Forest (Symbol L)} (h : (g.readings start).Gives input f)
    (h' : (g.readings start).Gives input f') : f = f' := by
  obtain ⟨found, bears, rfl⟩ := h
  obtain ⟨found', bears', rfl⟩ := h'
  have bears : g.Bears input ∅ ⟨start, 0, input.length⟩ found := bears
  rw [bears.unique bears']

/-- The trees of a forest are those of the readings of an input, the empty tree left out. -/
structure Reaps {L : Type} (sure straight : Prop) (D : Readings L) (input : List (Symbol L))
    (f : Forest (Symbol L)) : Prop where
  sound : ∀ t ∈ f.trees, t ≠ .nil ∧ D.derives input 0 input.length t
  some : sure → input ≠ [] → (∃ t, D.derives input 0 input.length t) → ∃ t, t ∈ f.trees
  complete : sure → straight → ∀ t, t ≠ .nil → D.derives input 0 input.length t → t ∈ f.trees
  bears : sure → D.Gives input f

/-- What consumes nothing has the empty tree. -/
theorem Grammar.Derivation.eq_nil {L : Type} {g : Grammar L} {input : List (Symbol L)} {id : NodeId}
    {i j : Nat} {t : Tree (Symbol L)} (h : g.Derivation input id i j t) (same : i = j) :
    t = .nil := by
  induction h with
  | epsilon | rep_nil => rfl
  | token => omega
  | alt_left _ _ ih | alt_right _ _ ih | rule _ _ ih => exact ih same
  | cat _ hl hr ihl ihr =>
    have := hl.le
    have := hr.le
    rw [ihl (by omega), ihr (by omega)]
    rfl
  | rep_cons _ lt _ hr =>
    have := hr.le
    omega

theorem Forest.mem_filter {α : Type} {f : Forest α} {p : Tree α → Bool} {t : Tree α} :
    t ∈ (f.filter p).trees ↔ t ∈ f.trees ∧ p t = true := List.mem_filter

section Forests

variable {L : Type} [DecidableEq L] {links : Links} {D : Readings L} {O : NodeId → Prop} {W : World}
  {g : Grammar L} {start : NodeId} {after : List NodeId} {input : List (Symbol L)} {sure : Prop}

/-- What the start bears, the empty tree left out, are trees of readings. -/
theorem Rooted.reaps (rooted : Rooted D O W g start) (good : Good links W g)
    {found : Forest (Symbol L)}
    (sound : ∀ t ∈ found.trees, g.Derives input ⟨start, 0, input.length⟩ t)
    (bears : sure → Complete W g 0 ∧ g.Bears input ∅ ⟨start, 0, input.length⟩ found) :
    Reaps sure (¬links.Circular) D input (found.filter fun t => !t.isNil) := by
  have mem_iff {t : Tree (Symbol L)} : t ∈ (found.filter fun t => !t.isNil).trees ↔
      t ∈ found.trees ∧ t ≠ .nil := by
    rw [Forest.mem_filter, Bool.not_eq_true', ← Bool.not_eq_true, Tree.isNil_iff]
  have derives (t : Tree (Symbol L)) : g.Derives input ⟨start, 0, input.length⟩ t ↔
      D.derives input 0 input.length t :=
    rooted.derives input 0 input.length t
  refine ⟨fun t ht => ?_, fun sure some ⟨t, ht⟩ => ?_, fun sure straight t ne ht => ?_,
    fun sure => ⟨found, rooted.bears input found (bears sure).2, rfl⟩⟩
  · obtain ⟨ht, ne⟩ := mem_iff.mp ht
    exact ⟨ne, (derives t).mp (sound t ht)⟩
  · obtain ⟨complete, bears⟩ := bears sure
    obtain ⟨t', ht'⟩ := rooted.exists_mem_of_bears good complete bears rooted.root (Nat.zero_le _)
      ⟨t, (derives t).mpr ht⟩ nofun
    refine ⟨t', mem_iff.mpr ⟨ht', ?_⟩⟩
    rintro rfl
    have leaves : [] = input.extract 0 input.length := (sound _ ht').leaves
    exact some (leaves.trans
      (by rw [List.extract_eq_take_drop, List.drop_zero, Nat.sub_zero, List.take_length])).symm
  · exact mem_iff.mpr
      ⟨rooted.mem_of_bears good straight (bears sure).2 rooted.root nofun ((derives t).mpr ht), ne⟩

/-- An extraction that knows where the matches of the start end has come from the outset. -/
theorem Outset.underway_of_ends {o : Outset L} {W' : World} {g' : Grammar L} {stops : List Nat}
    (carries : Carries o.links o.world o.grammar W' g')
    (lists : Lists (o.sure ∧ Trust o.links W' g') (o.grammar.Spans o.input start 0) stops) :
    o.Underway ⟨W', g', { ends := Std.TreeMap.empty.insert ⟨start, 0⟩ stops }⟩ := by
  refine ⟨carries, fun x i stops' there => ?_, fun s f there => ?_, fun s f there =>
    ?_, fun s f there => ?_⟩
  · rw [Std.TreeMap.getElem?_insert] at there
    split at there
    · rename_i same
      cases Std.LawfulEqCmp.eq_of_compare same
      cases there
      exact lists
    · cases Std.TreeMap.getElem?_emptyc.symm.trans there
  all_goals cases Std.TreeMap.getElem?_emptyc.symm.trans there

namespace Outset

variable {o : Outset L} {a : Stage L}

def whole (o : Outset L) : Span := ⟨o.start, 0, o.input.length⟩

/-- The trees of a span that stands by itself are read, and they are what it bears. -/
theorem exists_read {s : Span} (h : o.Underway a) (ranged : o.Ranged s) : ∃ found b,
    Stage.Answers (fun fuel => Grammar.trees fuel o.input fuel [] s) a found b ∧ o.Proceeds a b ∧
      (∀ t ∈ found.trees, o.Derives s t) ∧ (o.Reliable b → o.Bears ∅ s found) := by
  obtain ⟨found, b, reading, yields⟩ := reads_trees ranged a h nofun
  exact ⟨found, b, reading, yields.proceeds, yields.sound,
    fun reliable => yields.bears reliable ∅ (.inl o.within_nil.symm)⟩

/-- The span of the start over the whole input is one that an extraction is asked for. -/
theorem ranged_whole (o : Outset L) : o.Ranged o.whole :=
  ⟨o.rooted.root, Nat.zero_le _, Nat.le_refl _⟩

/-- An extraction that knows nothing has come from the outset. -/
theorem underway_begun (o : Outset L) : o.Underway ⟨o.world, o.grammar, {}⟩ := by
  refine ⟨.refl o.good, fun x i stops there => ?_, fun s f there => ?_, fun s f there =>
    ?_, fun s f there => ?_⟩
  all_goals cases Std.TreeMap.getElem?_emptyc.symm.trans there

end Outset

/-- The trees of the whole input are read, the empty tree included. -/
theorem exists_parseTrees (rooted : Rooted D O W g start) (good : Good links W g)
    (trusting : sure → Trusting links W g) (input : List (Symbol L)) :
    ∃ found W' g',
      Answers (fun fuel => Grammar.parseTrees fuel start input) g (found, g') ∧
        Carries links W g W' g' ∧
        (∀ t ∈ found.trees, g.Derives input ⟨start, 0, input.length⟩ t) ∧
          (sure ∧ Trust links W' g' → g.Bears input ∅ ⟨start, 0, input.length⟩ found) := by
  let o : Outset L := ⟨links, D, O, W, g, start, input, rooted, good, sure, trusting⟩
  obtain ⟨found, b, reading, proceeds, sound, bears⟩ :=
    Outset.exists_read o.underway_begun o.ranged_whole
  exact ⟨found, b.world, b.grammar, reading.run', proceeds.carries, sound, bears⟩

/-- What a run left is read from where the matches of its start end, or it is not read and the input
has no tree. The nodes that were left after its symbols match the empty word exactly when the start
matches the beginning of the input. -/
theorem Outset.exists_readRun {α : Type} {unread : α} {read : Nat → NodeId → Extracted L → Eval L α}
    {Q : α → World → Grammar L → Prop} (o : Outset L)
    (range : ∀ id ∈ o.start :: after, id < o.grammar.size) (length : after.length = o.input.length)
    (sound : ∀ k id, (o.start :: after)[k]? = some id → (o.world id).words.Nullable →
      (o.world o.start).words.Holds (stretch o.input 0 k))
    (complete : o.sure → Trust o.links o.world o.grammar →
      ∀ k id, (o.start :: after)[k]? = some id →
        (o.world o.start).words.Holds (stretch o.input 0 k) → (o.world id).words.Nullable)
    (reading : ∀ a : Stage L, o.Underway a → (∀ s : Span, a.known.trees[s]? = none) →
      ∃ x W' g', Answers (fun fuel => read fuel o.start a.known) a.grammar (x, g') ∧
      Carries o.links a.world a.grammar W' g' ∧ Q x W' g')
    (passing : ∀ W' g', (o.sure ∧ Trust o.links W' g' → ¬o.Derivable o.whole) →
      Carries o.links o.world o.grammar W' g' → Q unread W' g') :
    ∃ x W' g', Answers (fun fuel => (Evaluator.plain fuel).readRun unread (read fuel)
      (o.start :: after) o.input) o.grammar (x, g') ∧
      Carries o.links o.world o.grammar W' g' ∧ Q x W' g' := by
  obtain ⟨stops, W₁, g₁, accepting, locates⟩ := exists_acceptingAt o.good range 0
  have spans_iff {k : Nat} : o.grammar.Spans o.input o.start 0 k ↔
      k ≤ o.input.length ∧ (o.world o.start).words.Holds (stretch o.input 0 k) :=
    (o.rooted.spans_iff o.good o.rooted.root (Nat.zero_le _)).trans (and_iff_right (Nat.zero_le k))
  have lists : Lists (o.sure ∧ Trust o.links W₁ g₁) (o.grammar.Spans o.input o.start 0) stops := by
    refine locates.lists.imp
      (fun k accepts => ?_) fun ⟨sure, trust⟩ => ⟨⟨o.trusting sure, trust⟩, fun k hk => ?_⟩
    · have range := accepts.range
      rw [List.length_cons] at range
      obtain ⟨m, id, same, there, null⟩ := accepts
      rw [Nat.zero_add] at same
      exact spans_iff.mpr ⟨by omega, sound k id (same ▸ there) null⟩
    · obtain ⟨le, holds⟩ := spans_iff.mp hk
      have there :=
        List.getElem?_eq_getElem (l := o.start :: after) (i := k) (by rw [List.length_cons]; omega)
      exact ⟨k, _, (Nat.zero_add k).symm, there,
        complete sure (locates.carries.trust trust) k _ there holds⟩
  have unfolded (x : α) (g' : Grammar L)
      (rest : Answers (fun fuel => if stops.getLast? ≠ some o.input.length then pure unread
        else read fuel o.start { ends := Std.TreeMap.empty.insert ⟨o.start, 0⟩ stops }) g₁
        (x, g')) :
      Answers (fun fuel => (Evaluator.plain fuel).readRun unread (read fuel) (o.start :: after)
        o.input) o.grammar (x, g') := by
    simp only [Evaluator.readRun, if_neg (not_not.mpr length)]
    exact .bind accepting rest
  by_cases whole : stops.getLast? = some o.input.length
  · obtain ⟨x, W', g', answers, carries, q⟩ :=
      reading _ (Outset.underway_of_ends locates.carries lists)
      fun _ => Std.TreeMap.getElem?_emptyc
    refine ⟨x, W', g', unfolded x g' ?_, locates.carries.trans carries, q⟩
    simp only [if_neg (not_not.mpr whole)]
    exact answers
  · have none (reliable : o.sure ∧ Trust o.links W₁ g₁) : ¬o.Derivable o.whole := fun live =>
      whole (lists.getLast? (lists.complete reliable _ live) fun m hm => (spans_iff.mp hm).1)
    refine ⟨unread, W₁, g₁, unfolded unread g₁ ?_, locates.carries,
      passing W₁ g₁ none locates.carries⟩
    simp only [if_pos whole]
    exact .const rfl

end Forests

/-! ## Calls -/

section Calls

variable {L : Type} [DecidableEq L] {links : Links} {origin : Meaning} {D : Readings L}
  {O : NodeId → Prop} {W W' : World} {r r' : Recognizer L}

def Consistent.outset (h : Consistent links origin W r) (rooted : Rooted D O W r.grammar r.start)
    (input : List (Symbol L)) : Outset L :=
  ⟨links, D, O, W, r.grammar, r.start, input, rooted, h.good, Exact links origin W r,
    Exact.trusting⟩

/-- What a run of a recognizer left is read, or the symbols consumed have no tree. -/
theorem Consistent.exists_readRun {α : Type} (unread : α)
    (read : Nat → NodeId → Extracted L → Eval L α) {Q : α → World → Grammar L → Prop}
    (h : Consistent links origin W r) (rooted : Rooted D O W r.grammar r.start)
    (reading : ∀ a : Stage L, (h.outset rooted r.input).Underway a →
      (∀ s : Span, a.known.trees[s]? = none) → ∃ x W' g', Answers (fun fuel => read fuel r.start
      a.known) a.grammar (x, g') ∧ Carries links a.world a.grammar W' g' ∧ Q x W' g')
    (passing : ∀ W' g', (Exact links origin W r ∧ Trust links W' g' → ¬r.grammar.Derivable r.input
      ⟨r.start, 0, r.input.length⟩) → Carries links W r.grammar W' g' → Q unread W' g') :
    ∃ x W' g', Answers (fun fuel =>
      (Evaluator.plain fuel).readRun unread (read fuel) r.chain r.input) r.grammar (x, g') ∧
      Carries links W r.grammar W' g' ∧ Q x W' g' := by
  have holds_iff {k : Nat} : (origin.afterAll (r.word.take k)).words.Nullable ↔
      (W r.start).words.Holds (stretch r.input 0 k) := by
    have beginning : stretch r.input 0 k = r.word.take k ++ [] := by
      rw [stretch_eq, Nat.sub_zero, List.drop_zero, List.append_nil]
      rfl
    rw [h.start, beginning]
    exact Meaning.afterAll_holds
  have length : (r.taken.toList.map Prod.snd).length = r.input.length := by
    rw [List.length_map, Recognizer.input, List.length_map]
  refine (h.outset rooted r.input).exists_readRun h.range length (fun k id there null => ?_)
    (fun exact trust k id there holds => ?_) reading passing
  · exact holds_iff.mp ((h.chain k id there).nullable null)
  · obtain ⟨n, hn⟩ := holds_iff.mpr holds
    exact (exact.chain trust k id there n [] hn).holds

theorem exists_forest (h : Consistent links origin W r) (rooted : Rooted D O W r.grammar r.start) :
    ∃ f W' g', Answers (fun fuel => Recognizer.forest fuel) r (f, r.withGrammar g') ∧
      Carries links W r.grammar W' g' ∧
        Reaps (Exact links origin W r ∧ Trust links W' g') (¬links.Circular) D r.input f := by
  have complete {W' : World} {g' : Grammar L} (carries : Carries links W r.grammar W' g')
      (reliable : Exact links origin W r ∧ Trust links W' g') : Complete W r.grammar 0 :=
    (reliable.1.trusting).complete (carries.trust reliable.2) 0
  obtain ⟨f, W', g', reading, carries, reaps⟩ :=
    h.exists_readRun (Forest.empty.filter fun t => !t.isNil)
    (fun fuel start known => do
      let found ← (Grammar.trees fuel r.input fuel [] ⟨start, 0, r.input.length⟩).run' known
      return found.filter fun t => !t.isNil)
    (Q := fun f W' g' => Carries links W r.grammar W' g' →
      Reaps (Exact links origin W r ∧ Trust links W' g') (¬links.Circular) D r.input f) rooted
    (fun a underway _ => by
      obtain ⟨found, b, reading, proceeds, sound, bears⟩ :=
        Outset.exists_read underway (Outset.ranged_whole _)
      refine ⟨found.filter fun t => !t.isNil, b.world, b.grammar, .bind reading.run' (.const rfl),
        proceeds.carries, fun carries => ?_⟩
      exact rooted.reaps h.good sound fun reliable => ⟨complete carries reliable, bears reliable⟩)
    fun W' g' none _ carries =>
      rooted.reaps h.good nofun fun reliable => ⟨complete carries reliable, .none (none reliable)⟩
  refine ⟨f, W', g', ?_, carries, reaps carries⟩
  have reading : Answers (fun fuel => Grammar.forestOfRun fuel r.chain r.input) r.grammar (f, g') :=
    reading
  obtain ⟨N, reading⟩ := reading
  exact ⟨N, fun fuel le => (Action.bind_of_ok (Action.get_ok.mpr ⟨rfl, rfl⟩)).trans
    ((Action.bind_of_ok (Action.get_ok.mpr ⟨rfl, rfl⟩)).trans
      (Recognizer.onGrammar_of_ok (reading fuel le)))⟩

/-- The words of the start are the inputs that have trees. -/
theorem Consistent.holds_iff (h : Consistent links origin W r)
    (rooted : ∃ O, Rooted D O W r.grammar r.start) (symbols : List (Symbol L)) :
    origin.words.Holds (symbols.map Symbol.kind) ↔ ∃ t, D.derives symbols 0 symbols.length t := by
  obtain ⟨O, rooted⟩ := rooted
  rw [← stretch_all, ← h.start]
  refine ((rooted.spans_iff h.good rooted.root (Nat.zero_le _)).trans ?_).symm.trans
    (exists_congr fun t => rooted.derives symbols 0 symbols.length t)
  simp only [Nat.zero_le, Nat.le_refl, true_and]

/-- What a call of `parse` answers, and what it does. -/
structure Parsed (links : Links) (origin : Meaning) (D : Readings L) (W : World) (r : Recognizer L)
    (symbols : List (Symbol L)) (answer : Option (Forest (Symbol L))) (W' : World)
    (r' : Recognizer L) : Prop where
  follows : Follows links origin W r W' r'
  sound : answer.isSome → ∃ t, D.derives symbols 0 symbols.length t
  complete : Assured links W r W' r' → (∃ t, D.derives symbols 0 symbols.length t) → answer.isSome
  reaps : ∀ f, answer = some f → Reaps (Assured links W r W' r') (¬links.Circular) D symbols f

/-- After an input was recognized or not, it is parsed or not. -/
theorem exists_parse {W₁ : World} {o : Recognition} {r₁ : Recognizer L} {symbols : List (Symbol L)}
    (h : Consistent links origin W r) (rooted : ∃ O, Rooted D O W r.grammar r.start)
    (recognizing : Answers (fun fuel => Recognizer.recognize fuel symbols) r (o, r₁))
    (recognized : Recognized links origin W r symbols o.accepted W₁ r₁) :
    ∃ answer r', Answers (fun fuel => Recognizer.parse fuel symbols) r (answer, r') ∧
      ∃ W', Parsed links origin D W r symbols answer W' r' := by
  have holds_iff := h.holds_iff rooted symbols
  cases yes : o.accepted with
  | true =>
    obtain ⟨O, rooted₁⟩ := recognized.follows.rooted D rooted
    obtain ⟨f, W', g', reading, carries, reaps⟩ :=
      exists_forest recognized.follows.consistent rooted₁
    rw [recognized.input yes] at reaps
    refine ⟨some f, r₁.withGrammar g', .bind recognizing ?_, W',
      recognized.follows.trans (recognized.follows.consistent.carried carries),
      fun _ => holds_iff.mp (recognized.sound yes), fun _ _ => rfl, fun f' same => ?_⟩
    · simp only [yes, ↓reduceIte]
      exact .bind reading (.const rfl)
    · cases same
      have sure (assured : Assured links W r W' (r₁.withGrammar g')) :
          Exact links origin W₁ r₁ ∧ Trust links W' g' :=
        ⟨recognized.exact assured.remembers assured.trusting, assured.trust⟩
      exact ⟨reaps.sound, fun assured => reaps.some (sure assured), fun assured =>
        reaps.complete (sure assured), fun assured => reaps.bears (sure assured)⟩
  | false =>
    refine ⟨none, r₁, .bind recognizing ?_, W₁, recognized.follows,
      nofun, fun assured derives => ?_, nofun⟩
    · simp only [yes, Bool.false_eq_true, ↓reduceIte]
      exact .const rfl
    · have :=
        recognized.complete assured.remembers assured.trusting assured.trust (holds_iff.mpr derives)
      cases yes.symm.trans this

/-- Given enough fuel, an input is parsed or not. -/
theorem parse_settles (h : Consistent links origin W r)
    (rooted : ∃ O, Rooted D O W r.grammar r.start) (symbols : List (Symbol L)) :
    r.Settles (fun fuel => Recognizer.parse fuel symbols) fun answer r' =>
      ∃ W', Parsed links origin D W r symbols answer W' r' := by
  rcases recognize_settles h symbols with ⟨o, r₁, recognizing, W₁, recognized⟩ | broken
  · exact .inl (exists_parse h rooted recognizing recognized)
  · exact .inr broken.bind

/-- Parsing breaks as recognition does. -/
theorem parse_breaks_iff (h : Consistent links origin W r)
    (rooted : ∃ O, Rooted D O W r.grammar r.start) (alive : r.start ≠ nothing)
    (symbols : List (Symbol L)) :
    r.Breaks (fun fuel => Recognizer.parse fuel symbols) ↔
      r.settings.collectEvery = some 0 ∧ symbols ≠ [] := by
  rw [← recognize_breaks_iff h alive symbols]
  refine ⟨fun broken => ?_, fun broken => broken.bind⟩
  refine (recognize_settles h symbols).resolve_left fun ⟨o, r₁, recognizing, W₁, recognized⟩ => ?_
  obtain ⟨answer, r', parsing, -⟩ := exists_parse h rooted recognizing recognized
  exact broken.not_answers parsing

end Calls

end DerivativeParsing
