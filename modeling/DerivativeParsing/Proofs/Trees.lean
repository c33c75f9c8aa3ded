import DerivativeParsing.Proofs.Spans

/-!
# The trees that an extraction reads

An extraction reads trees off a grammar that it changes at the same time, and keeps those that it
may use again. What it answers is what the spans bear in the grammar that it starts from.

1. `Outset` is a grammar with roots, and an input. `Outset.Underway` says that an extraction has
   come from there, and that what it knows is right: where matches end, and what the spans that it
   kept bear.
2. `Outset.Yields` says of the forest of a span that its trees are derived, and that they are what
   the span bears, if rules are stored rightly. If no span was cut, that holds inside any spans that
   have not been kept: so the forest may be kept.
3. `Outset.reads_trees`: given enough fuel, the trees of a span are answered, and are as
   `Outset.Yields` says. Spans that come up inside each other are all different, so they nest only
   so deep (`Outset.reads_nested`).
-/

namespace DerivativeParsing

open Extraction (onGrammar)

variable {L : Type}

/-! ## Stages of an extraction -/

/-- A grammar in the course of an extraction, what its nodes stand for, and what is known. -/
structure Stage (L : Type) where
  world : World
  grammar : Grammar L
  known : Extracted L := {}

namespace Stage

variable {α β : Type} {act : Nat → Extraction L α} {k : Nat → α → Extraction L β} {a b c : Stage L}
  {x : α} {y : β}

/-- The action answers `x` and leads from one stage to another, whatever the fuel from some amount
on. -/
def Answers (act : Nat → Extraction L α) (a : Stage L) (x : α) (b : Stage L) : Prop :=
  DerivativeParsing.Answers (fun fuel => act fuel a.known) a.grammar ((x, b.known), b.grammar)

namespace Answers

theorem const (x : α) : Answers (fun _ => pure x) a x a := DerivativeParsing.Answers.const rfl

theorem get : Answers (fun _ => get) a a.known a := DerivativeParsing.Answers.const rfl

theorem modify (f : Extracted L → Extracted L) :
    Answers (fun _ => modify f) a () { a with known := f a.known } :=
  DerivativeParsing.Answers.const rfl

theorem bind (first : Answers act a x b) (next : Answers (k · x) b y c) :
    Answers (fun fuel => act fuel >>= k fuel) a y c :=
  DerivativeParsing.Answers.bind (k := fun fuel (p : α × Extracted L) => k fuel p.1 p.2) first next

theorem onGrammar {act : Nat → Eval L α} {g' : Grammar L}
    (h : DerivativeParsing.Answers act a.grammar (x, g')) (W' : World) :
    Answers (fun fuel => onGrammar (act fuel)) a x ⟨W', g', a.known⟩ :=
  DerivativeParsing.Answers.bind (k := fun _ x => pure (x, a.known)) h
    (DerivativeParsing.Answers.const rfl)

/-- After a slot is read, the rest goes on with what it holds. -/
theorem fetch {k : Nat → Node L → Extraction L β} {id : NodeId} {node : Node L}
    (there : a.grammar.arena.get? id = some node) (next : Answers (k · node) a y b) :
    Answers (fun fuel => Extraction.onGrammar (Grammar.fetch id) >>= k fuel) a y b :=
  bind (.onGrammar (DerivativeParsing.Answers.const (Grammar.fetch_ok.mpr ⟨there, rfl⟩)) a.world)
    next

theorem run' (h : Answers act a x b) :
    DerivativeParsing.Answers (fun fuel => (act fuel).run' a.known) a.grammar (x, b.grammar) :=
  DerivativeParsing.Answers.bind (k := fun _ (p : α × Extracted L) => pure p.1) h
    (DerivativeParsing.Answers.const rfl)

theorem congr {act' : Nat → Extraction L α} (h : Answers act a x b) (N : Nat)
    (same : ∀ fuel ≥ N, act' fuel = act fuel) : Answers act' a x b := by
  obtain ⟨M, h⟩ := h
  exact ⟨max M N, fun fuel le =>
    (congrFun (congrFun (same fuel (by omega)) _) _).trans (h fuel (by omega))⟩

end Answers

/-! ### Trees that are kept -/

def Unknown (a : Stage L) (s : Span) : Prop := a.known.trees[s]? = none

/-- The trees of a span are kept, unless it or one inside it came up inside itself. -/
def keep (a : Stage L) (s : Span) (found : Forest (Symbol L)) (outer : Bool) : Stage L :=
  { a with known := Span.keep s found outer a.known }

section Keep

variable {s p : Span} {found : Forest (Symbol L)} {outer : Bool}

theorem keep_of_cut (cut : a.known.cut = true) :
    (a.keep s found outer).known.trees = a.known.trees := by
  rw [keep, Span.keep, if_pos cut]

theorem keep_of_uncut (uncut : a.known.cut = false) :
    (a.keep s found outer).known.trees = a.known.trees.insert s found := by
  rw [keep, Span.keep, if_neg (by rw [uncut]; exact Bool.false_ne_true)]

/-- What is unknown after trees are kept was so before, and is not their span, if they were kept. -/
theorem Unknown.of_keep (h : (a.keep s found outer).Unknown p) :
    a.Unknown p ∧ (a.known.cut = false → p ≠ s) := by
  cases cut : a.known.cut with
  | true =>
    rw [Unknown, keep_of_cut cut] at h
    exact ⟨h, nofun⟩
  | false =>
    rw [Unknown, keep_of_uncut cut, Std.TreeMap.getElem?_insert] at h
    split at h
    · cases h
    · rename_i other
      refine ⟨h, fun _ same => other ?_⟩
      rw [same]
      exact Std.ReflCmp.compare_self

theorem Unknown.keep (h : a.Unknown p) (other : p ≠ s) : (a.keep s found outer).Unknown p := by
  cases cut : a.known.cut with
  | true =>
    rw [Unknown, keep_of_cut cut]
    exact h
  | false =>
    have away : ¬Span.order s p = .eq := fun same => other (Std.LawfulEqCmp.eq_of_compare same).symm
    rw [Unknown, keep_of_uncut cut, Std.TreeMap.getElem?_insert, if_neg away]
    exact h

end Keep

end Stage

/-! ## What an extraction starts from -/

/-- A grammar with roots, and an input to be read. If it is sure, the grammar claims nothing too
little. -/
structure Outset (L : Type) [DecidableEq L] where
  links : Links
  readings : Readings L
  roots : NodeId → Prop
  world : World
  grammar : Grammar L
  start : NodeId
  input : List (Symbol L)
  rooted : Rooted readings roots world grammar start
  good : Good links world grammar
  sure : Prop
  trusting : sure → Trusting links world grammar

variable [DecidableEq L]

namespace Outset

section Definitions

variable (o : Outset L)

def Derives (s : Span) (t : Tree (Symbol L)) : Prop := o.grammar.Derives o.input s t

def Derivable (s : Span) : Prop := o.grammar.Derivable o.input s

/-- Whether a span is not passed by at the outset. -/
def Firm (s : Span) : Prop := o.grammar.Firm o.input s

/-- What a span bears at the outset, inside others. -/
def Bears (P : Set Span) (s : Span) (f : Forest (Symbol L)) : Prop := o.grammar.Bears o.input P s f

/-- The spans that an extraction is asked for. -/
structure Ranged (s : Span) : Prop where
  root : o.roots s.node
  le : s.start ≤ s.stop
  stop : s.stop ≤ o.input.length

/-- Nothing is claimed too little: it was sure not to be at the outset, and rules are stored
rightly. -/
def Reliable (a : Stage L) : Prop := o.sure ∧ Trust o.links a.world a.grammar

/-- An extraction has come to a stage, and what is known there is right. What is known of a span
holds inside any spans of which nothing is known. -/
structure Underway (a : Stage L) : Prop where
  carries : Carries o.links o.world o.grammar a.world a.grammar
  ends : ∀ x i stops, a.known.ends[(⟨x, i⟩ : Site)]? = some stops →
    Lists (o.Reliable a) (o.grammar.Spans o.input x i) stops
  ranged : ∀ s f, a.known.trees[s]? = some f → o.Ranged s
  sound : ∀ s f, a.known.trees[s]? = some f → ∀ t ∈ f.trees, o.Derives s t
  bears : ∀ s f, a.known.trees[s]? = some f → o.Reliable a →
    ∀ P : Set Span, (∀ p ∈ P, a.Unknown p) → o.Bears P s f

/-- An extraction goes from one stage to another. -/
structure Proceeds (a b : Stage L) : Prop where
  carries : Carries o.links a.world a.grammar b.world b.grammar
  underway : o.Underway b
  cut : a.known.cut → b.known.cut
  unknown : ∀ p, b.Unknown p → a.Unknown p

/-- The spans inside which a span comes up are those of `path` that are firm. -/
def within (path : List Span) : Set Span := {p | p ∈ path ∧ o.Firm p}

/-- What is answered inside `path` holds inside `P`: because it is the same, or because no span was
cut, and nothing is known of the spans of `P`. -/
def Suits (path : List Span) (b : Stage L) (P : Set Span) : Prop :=
  P = o.within path ∨ b.known.cut = false ∧ ∀ p ∈ P, b.Unknown p

/-- One span bears what the other does. -/
def Leads (p s : Span) : Prop := ∀ P f, o.Bears P s f → o.Bears P p f

/-- A span of `path` that is passed by leads to the span, which is further down, or to a firm one
that has come up already. -/
def Lies (path : List Span) (s : Span) : Prop := o.Derivable s → ∀ p ∈ path, ¬o.Firm p →
  s.node < p.node ∧ o.Leads p s ∨ ∃ y ∈ path, o.Firm y ∧ o.Leads p y

/-- What is answered for a span that comes up inside the spans of `path`. -/
structure Yields (path : List Span) (s : Span) (a : Stage L) (found : Forest (Symbol L))
    (b : Stage L) : Prop where
  proceeds : o.Proceeds a b
  unknown : ∀ p ∈ path, b.Unknown p
  sound : ∀ t ∈ found.trees, o.Derives s t
  bears : o.Reliable b → ∀ P, o.Suits path b P → o.Bears P s found

/-- What is answered for a span that is not among the spans of `path`, once its parts are read. -/
structure Renders (path : List Span) (s : Span) (a : Stage L) (found : Forest (Symbol L))
    (b : Stage L) : Prop where
  proceeds : o.Proceeds a b
  unknown : ∀ p ∈ s :: path, b.Unknown p
  sound : ∀ t ∈ found.trees, o.Derives s t
  bears : o.Reliable b → ∀ P, o.Suits path b P → s ∉ P → o.Bears P s found

/-- At every stage at which nothing is known of the spans of `path`, the action answers with the
trees of the span, given enough fuel. -/
def Reads (act : Nat → Extraction L (Forest (Symbol L))) (path : List Span) (s : Span) : Prop :=
  ∀ a, o.Underway a → (∀ p ∈ path, a.Unknown p) →
    ∃ found b, Stage.Answers act a found b ∧ o.Yields path s a found b

/-- The action answers with the trees of the span, once its parts are read. -/
def RendersAt (a : Stage L) (act : Nat → Extraction L (Forest (Symbol L))) (path : List Span)
    (s : Span) : Prop :=
  ∃ found b, Stage.Answers act a found b ∧ o.Renders path s a found b

end Definitions

variable {o : Outset L} {a b c : Stage L} {s p : Span} {path : List Span} {P : Set Span}
  {x y left right : NodeId} {i j m : Nat} {t : Tree (Symbol L)} {found found' f : Forest (Symbol L)}

/-! ### Going on -/

theorem Proceeds.refl (h : o.Underway a) : o.Proceeds a a :=
  ⟨.refl h.carries.good, h, id, fun _ => id⟩

theorem Proceeds.trans (h : o.Proceeds a b) (h' : o.Proceeds b c) : o.Proceeds a c :=
  ⟨h.carries.trans h'.carries, h'.underway,
    h'.cut ∘ h.cut, fun p hp => h.unknown p (h'.unknown p hp)⟩

theorem Proceeds.reliable (h : o.Proceeds a b) (reliable : o.Reliable b) : o.Reliable a :=
  ⟨reliable.1, h.carries.trust reliable.2⟩

theorem Proceeds.uncut (h : o.Proceeds a b) (whole : b.known.cut = false) :
    a.known.cut = false := by
  cases cut : a.known.cut with
  | false => rfl
  | true => exact absurd (h.cut cut) (by rw [whole]; exact Bool.false_ne_true)

namespace Underway

theorem carried (h : o.Underway a) {W' : World} {g' : Grammar L}
    (carries : Carries o.links a.world a.grammar W' g') : o.Proceeds a ⟨W', g', a.known⟩ := by
  have reliable (later : o.Reliable ⟨W', g', a.known⟩) : o.Reliable a :=
    ⟨later.1, carries.trust later.2⟩
  exact ⟨carries, ⟨h.carries.trans carries, fun x i stops known =>
    (h.ends x i stops known).mono reliable, h.ranged,
    h.sound, fun s f known later => h.bears s f known (reliable later)⟩, id, fun _ => id⟩

/-- Whether a span came up inside itself does not matter for what is known. -/
theorem withCut (h : o.Underway a) (cut : Bool) :
    o.Underway { a with known := { a.known with cut } } :=
  ⟨h.carries, h.ends, h.ranged, h.sound, h.bears⟩

theorem rooted (h : o.Underway a) : Rooted o.readings o.roots a.world a.grammar o.start :=
  o.rooted.carried h.carries

theorem mirrors (h : o.Underway a) : o.grammar.Mirrors (fun x x' => o.roots x ∧ x = x') a.grammar :=
  h.carries.spares.mirrors o.rooted.pristine

theorem spans_iff (h : o.Underway a) (hx : o.roots x) :
    a.grammar.Spans o.input x i j ↔ o.grammar.Spans o.input x i j :=
  exists_congr fun _ => h.mirrors.derivation_iff ⟨hx, rfl⟩

end Underway

/-! ### Spans around a span -/

theorem within_nil (o : Outset L) : o.within [] = ∅ :=
  Set.ext fun _ => ⟨fun h => (nomatch h.1), nofun⟩

theorem within_cons_firm (firm : o.Firm s) : o.within (s :: path) = insert s (o.within path) := by
  ext p
  constructor
  · rintro ⟨hp, here⟩
    exact (List.mem_cons.mp hp).imp id fun hp => ⟨hp, here⟩
  · rintro (rfl | ⟨hp, here⟩)
    · exact ⟨.head _, firm⟩
    · exact ⟨.tail _ hp, here⟩

theorem within_cons_soft (soft : ¬o.Firm s) : o.within (s :: path) = o.within path := by
  ext p
  constructor
  · rintro ⟨hp, here⟩
    rcases List.mem_cons.mp hp with rfl | hp
    · exact absurd here soft
    · exact ⟨hp, here⟩
  · exact fun ⟨hp, here⟩ => ⟨.tail _ hp, here⟩

namespace Suits

variable (h : o.Suits path c P) (proceeds : o.Proceeds b c)
include h proceeds

/-- What is answered inside a firm span holds inside it and `P`. -/
theorem firm (unknown : ∀ p ∈ s :: path, b.Unknown p) (firm : o.Firm s) :
    o.Suits (s :: path) b (insert s P) := by
  rcases h with rfl | ⟨whole, new⟩
  · exact .inl (within_cons_firm firm).symm
  · refine .inr ⟨proceeds.uncut whole, ?_⟩
    rintro p (rfl | hp)
    · exact unknown p (.head _)
    · exact proceeds.unknown p (new p hp)

/-- What is answered inside a span that is passed by holds inside `P`. -/
theorem soft (soft : ¬o.Firm s) : o.Suits (s :: path) b P := by
  rcases h with rfl | ⟨whole, new⟩
  · exact .inl (within_cons_soft soft).symm
  · exact .inr ⟨proceeds.uncut whole, fun p hp => proceeds.unknown p (new p hp)⟩

end Suits

/-- Where parts of a span lie, if the span is firm, or passed by and they are further down. -/
theorem Lies.cons (h : o.Lies path s) (live : o.Derivable s)
    (down : ¬o.Firm s → o.Derivable p → p.node < s.node ∧ o.Leads s p) : o.Lies (s :: path) p := by
  intro live' y hy soft
  rcases List.mem_cons.mp hy with rfl | hy
  · exact .inl (down soft live')
  · rcases h live y hy soft with ⟨lt, leads⟩ | ⟨z, hz, firm, leads⟩
    · by_cases firm : o.Firm s
      · exact .inr ⟨s, .head _, firm, leads⟩
      · obtain ⟨lt', leads'⟩ := down firm live'
        exact .inl ⟨Nat.lt_trans lt' lt, fun P f bears => leads P f (leads' P f bears)⟩
    · exact .inr ⟨z, .tail _ hz, firm, leads⟩

/-- A span that comes up inside itself bears nothing there. -/
theorem Lies.cut (h : o.Lies path s) (live : o.Derivable s) (inside : s ∈ path) :
    o.Bears (o.within path) s .empty := by
  by_cases firm : o.Firm s
  · exact .cut firm ⟨inside, firm⟩
  · rcases h live s inside firm with ⟨lt, -⟩ | ⟨y, hy, there, leads⟩
    · exact absurd lt (Nat.lt_irrefl _)
    · exact leads _ _ (.cut there ⟨hy, there⟩)

/-! ## Where matches end -/

/-- The ends of the matches that start at a position are answered, and known from then on. -/
theorem exists_ends (h : o.Underway a) (hx : o.roots x) (le : i ≤ o.input.length) : ∃ stops b,
    Stage.Answers (fun fuel => Grammar.ends fuel o.input x i) a stops b ∧ o.Proceeds a b ∧
      b.known.cut = a.known.cut ∧ b.known.trees = a.known.trees ∧
        Lists (o.Reliable b) (o.grammar.Spans o.input x i) stops := by
  cases known : a.known.ends[(⟨x, i⟩ : Site)]? with
  | some stops =>
    refine ⟨stops, a, .bind .get ?_, .refl h, rfl, rfl, h.ends x i stops known⟩
    simp only [known]
    exact .const stops
  | none =>
    obtain ⟨stops, W', g', finding, locates⟩ := exists_findEnds h.rooted h.carries.good hx le
    have proceeds := h.carried locates.carries
    have lists : Lists (o.Reliable ⟨W', g', a.known⟩) (o.grammar.Spans o.input x i) stops :=
      (locates.lists.mono fun ⟨sure, trust⟩ => ⟨h.carries.trusting (o.trusting sure), trust⟩).congr
        fun k => h.spans_iff hx
    refine ⟨stops, ⟨W', g', { a.known with ends := a.known.ends.insert ⟨x, i⟩ stops }⟩,
      .bind .get ?_, ⟨proceeds.carries, ⟨proceeds.underway.carries, fun y k stops' there => ?_,
        proceeds.underway.ranged, proceeds.underway.sound, proceeds.underway.bears⟩,
        id, fun _ => id⟩, rfl, rfl, lists⟩
    · simp only [known]
      exact .bind (.onGrammar finding W') (.bind (.modify _) (.const stops))
    · rw [Std.TreeMap.getElem?_insert] at there
      split at there
      · rename_i same
        cases Std.LawfulEqCmp.eq_of_compare same
        cases there
        exact lists
      · exact proceeds.underway.ends y k stops' there

end Outset

/-! ## Sequences -/

namespace Sequence

variable (q : Sequence)

theorem admits_iff {m : Nat} :
    q.Admits m ↔ ¬(q.stop < m || (q.consume && m == q.start)) = true := by
  simp [Admits]

/-- What `Grammar.splits` does about a position where the left part can end. -/
def splitAt (trees : Span → Extraction L (Forest (Symbol L))) :
    Forest (Symbol L) → Nat → Extraction L (Forest (Symbol L)) :=
  Evaluator.takeSplit (fun found l r => found.union (l.permute r))
    trees q.left q.right q.start q.stop
    q.consume

theorem splits_eq (fuel : Nat) (input : List (Symbol L))
    (trees : Span → Extraction L (Forest (Symbol L))) :
    Grammar.splits fuel input trees q.left q.right q.start q.stop q.consume =
      (do
        let middles ← Grammar.ends fuel input q.left q.start
        middles.foldlM (q.splitAt trees) .empty) :=
  rfl

end Sequence

namespace Outset

/-- The trees of both parts of a sequence that are read for some positions where the left part may
end. -/
structure Gathers (o : Outset L) (path : List Span) (q : Sequence) (ms : List Nat) (a : Stage L)
    (joints : List (Joint L)) (b : Stage L) : Prop where
  proceeds : o.Proceeds a b
  unknown : ∀ p ∈ path, b.Unknown p
  middles : joints.map Joint.middle = ms.filter (q.Admits ·)
  sound : ∀ p ∈ joints, (∀ t ∈ p.left.trees, o.Derives (q.before p.middle) t) ∧
    ∀ t ∈ p.right.trees, o.Derives (q.behind p.middle) t
  bears : o.Reliable b → ∀ P, o.Suits path b P →
    ∀ p ∈ joints, o.Bears P (q.behind p.middle) p.right ∧
    (p.right ≠ .empty → o.Bears P (q.before p.middle) p.left)

section Sequence

variable {o : Outset L} {a b c : Stage L} {q : Sequence} {path : List Span} {P : Set Span}
  {ms ms' : List Nat} {m : Nat} {joints joints' : List (Joint L)} {found : Forest (Symbol L)}
  {below : Nat → Span → Extraction L (Forest (Symbol L))}

/-- What holds inside spans at a later stage holds there at an earlier one. -/
theorem Suits.back (h : o.Suits path c P) (proceeds : o.Proceeds b c) : o.Suits path b P :=
  h.imp id fun ⟨whole, new⟩ => ⟨proceeds.uncut whole, fun p hp => proceeds.unknown p (new p hp)⟩

theorem Gathers.nil (h : o.Underway a) (unknown : ∀ p ∈ path, a.Unknown p)
    (none : ms.filter (q.Admits ·) = []) : o.Gathers path q ms a [] a where
  proceeds := .refl h
  unknown := unknown
  middles := none.symm
  sound := nofun
  bears _ _ _ := nofun

theorem Gathers.append (h : o.Gathers path q ms a joints b)
    (h' : o.Gathers path q ms' b joints' c) :
    o.Gathers path q (ms ++ ms') a (joints ++ joints') c where
  proceeds := h.proceeds.trans h'.proceeds
  unknown := h'.unknown
  middles := by rw [List.map_append, List.filter_append, h.middles, h'.middles]
  sound p hp := (List.mem_append.mp hp).elim (h.sound p) (h'.sound p)
  bears reliable P suits p hp := (List.mem_append.mp hp).elim
    (h.bears (h'.proceeds.reliable reliable) P (suits.back h'.proceeds) p)
    (h'.bears reliable P suits p)

variable (reads : ∀ p, o.Ranged p → o.Reads (below · p) path p) (left : o.roots q.left)
  (right : o.roots q.right) (stop : q.stop ≤ o.input.length)
include reads left right stop

theorem exists_splitAt (h : o.Underway a) (unknown : ∀ p ∈ path, a.Unknown p)
    (found : Forest (Symbol L)) (hm : o.Derivable (q.before m)) :
    ∃ joints b,
      Stage.Answers (fun fuel => q.splitAt (below fuel) found m) a (Joint.gather found joints) b ∧
        o.Gathers path q [m] a joints b := by
  by_cases admits : q.Admits m
  · have here := q.admits_iff.mp admits
    have middle (l r : Forest (Symbol L)) :
        [Joint.mk m l r].map Joint.middle = [m].filter (q.Admits ·) := by
      simp [admits]
    obtain ⟨_, item⟩ := hm
    obtain ⟨r, b, reading, yields⟩ := reads (q.behind m) ⟨right, admits.1, stop⟩ a h unknown
    by_cases none : r.isEmpty = true
    · -- without a tree of the right part the left part is not asked
      obtain rfl : r = .empty := Forest.eq_of_trees (List.isEmpty_iff.mp none)
      refine ⟨[⟨m, .empty, .empty⟩], b, ?_, yields.proceeds, yields.unknown,
        middle _ _, fun p hp => ?_, fun reliable P suits p hp => ?_⟩
      · simp only [Sequence.splitAt, Evaluator.takeSplit, if_neg here]
        exact .bind reading (.const found)
      · obtain rfl := List.mem_singleton.mp hp
        exact ⟨nofun, nofun⟩
      · obtain rfl := List.mem_singleton.mp hp
        exact ⟨yields.bears reliable P suits, fun some => absurd rfl some⟩
    · obtain ⟨l, c, reading', yields'⟩ :=
        reads (q.before m) ⟨left, item.le, Nat.le_trans admits.1 stop⟩
          b yields.proceeds.underway yields.unknown
      refine ⟨[⟨m, l, r⟩], c, ?_, yields.proceeds.trans yields'.proceeds, yields'.unknown,
        middle _ _, fun p hp => ?_, fun reliable P suits p hp => ?_⟩
      · simp only [Sequence.splitAt, Evaluator.takeSplit, if_neg here]
        refine .bind reading ?_
        simp only [if_neg none]
        exact .bind reading' (.const _)
      · obtain rfl := List.mem_singleton.mp hp
        exact ⟨yields'.sound, yields.sound⟩
      · obtain rfl := List.mem_singleton.mp hp
        exact ⟨yields.bears (yields'.proceeds.reliable reliable) P (suits.back yields'.proceeds),
          fun _ => yields'.bears reliable P suits⟩
  · refine ⟨[], a, ?_, .nil h unknown (by simp [admits])⟩
    simp only [Sequence.splitAt, Evaluator.takeSplit,
      if_pos (not_not.mp (mt q.admits_iff.mpr admits))]
    exact .const found

/-- All positions where the left part can end, by induction on the list of them. -/
theorem exists_foldlM (h : o.Underway a) (unknown : ∀ p ∈ path, a.Unknown p)
    (found : Forest (Symbol L)) (hms : ∀ m ∈ ms, o.Derivable (q.before m)) :
    ∃ joints b,
      Stage.Answers (fun fuel => ms.foldlM (q.splitAt (below fuel)) found) a
        (Joint.gather found joints) b ∧
        o.Gathers path q ms a joints b := by
  induction ms generalizing a found with
  | nil => exact ⟨[], a, .const found, .nil h unknown rfl⟩
  | cons m ms ih =>
    obtain ⟨joints, b, splitting, gathers⟩ :=
      exists_splitAt reads left right stop h unknown found (hms m (.head _))
    obtain ⟨joints', c, folding, gathers'⟩ :=
      ih gathers.proceeds.underway gathers.unknown
        (Joint.gather found joints) fun k hk => hms k (.tail _ hk)
    refine ⟨joints ++ joints', c, ?_, gathers.append gathers'⟩
    simp only [List.foldlM_cons, Joint.gather_append]
    exact .bind splitting folding

end Sequence

/-! ## Edges since the outset -/

section Edges

variable {o : Outset L} {P : Set Span} {f : Forest (Symbol L)} {x c : NodeId} {i j : Nat}
  {t : Tree (Symbol L)}

/-- An edge that led to `x` at the outset leads to `c`. -/
def Edge (o : Outset L) (x c : NodeId) : Prop := o.grammar.Edge (fun x x' => o.roots x ∧ x = x') x c

namespace Edge

variable (h : o.Edge x c)
include h

theorem root : o.roots c := by
  obtain ⟨_, -, root, rfl⟩ := h
  exact root

theorem derives_iff : o.Derives ⟨c, i, j⟩ t ↔ o.Derives ⟨x, i, j⟩ t := by
  obtain ⟨_, passes, -, rfl⟩ := h
  exact passes.derivation_iff o.rooted.pristine.empty

theorem derivable_iff : o.Derivable ⟨c, i, j⟩ ↔ o.Derivable ⟨x, i, j⟩ :=
  exists_congr fun _ => h.derives_iff

theorem bears (bears : o.Bears P ⟨c, i, j⟩ f) : o.Bears P ⟨x, i, j⟩ f := by
  obtain ⟨_, passes, -, rfl⟩ := h
  exact bears.passed passes o.rooted.pristine.empty

end Edge

end Edges

/-! ## The parts of a span -/

section Render

variable {o : Outset L} {a b c : Stage L} {s p : Span} {path : List Span} {left right body : NodeId}
  {r : Rule} {q : Sequence} {kind : Kind} {below : Nat → Span → Extraction L (Forest (Symbol L))}

theorem Renders.single {t : Tree (Symbol L)} (h : o.Underway a)
    (unknown : ∀ p ∈ s :: path, a.Unknown p) (single : o.grammar.Single s)
    (derives : o.Derives s t) : o.Renders path s a (.single t) a where
  proceeds := .refl h
  unknown := unknown
  sound t' ht := by
    obtain rfl := List.mem_singleton.mp ht
    exact derives
  bears _ P _ out := .single single out derives

variable (reads : ∀ p, o.Ranged p → o.Lies (s :: path) p → o.Reads (below · p) (s :: path) p)
  (h : o.Underway a) (unknown : ∀ p ∈ s :: path, a.Unknown p) (ranged : o.Ranged s)
  (live : o.Derivable s) (lies : o.Lies path s)
include h unknown ranged live

theorem rendersAt_token (there : a.grammar.arena.get? s.node = some (.token kind)) :
    o.RendersAt a (fun fuel => Grammar.render fuel o.input (below fuel) s) path s := by
  obtain ⟨_, there₀, alike⟩ := h.mirrors.back ⟨ranged.root, rfl⟩ there
  cases alike
  obtain ⟨t, ht⟩ := live
  rcases (Grammar.derivation_token there₀).mp ht with ⟨rfl, -, rfl⟩
    | ⟨terminal, symbol, here, -, -, rfl⟩
  · refine ⟨.single .nil, a, .fetch there ?_, .single h unknown (.token there₀) ht⟩
    simp only [↓reduceIte]
    exact .const _
  · have epsilon : kind ≠ Kind.epsilon := by
      rintro rfl
      cases terminal
    refine ⟨.single (.leaf symbol), a, .fetch there ?_, .single h unknown (.token there₀) ht⟩
    simp only [if_neg epsilon, here]
    exact .const _

include reads lies

theorem rendersAt_rule (there : a.grammar.arena.get? s.node = some (.rule r body)) :
    o.RendersAt a (fun fuel => Grammar.render fuel o.input (below fuel) s) path s := by
  obtain ⟨_, there₀, alike⟩ := h.mirrors.back ⟨ranged.root, rfl⟩ there
  cases alike with
  | @rule _ _ body₀ _ edge =>
    have edge : o.Edge body₀ body := edge
    have firm : o.Firm s := Grammar.firm_of_get? there₀ nofun
    obtain ⟨found, b, reading, yields⟩ :=
      reads { s with node := body } ⟨edge.root, ranged.le, ranged.stop⟩
      (lies.cons live fun soft => absurd firm soft) a h unknown
    refine ⟨found, b, .fetch there reading, yields.proceeds, yields.unknown, fun t ht => ?_,
      fun reliable P suits out => .rule there₀ out (edge.bears (yields.bears reliable _ ?_))⟩
    · exact (Grammar.derivation_rule there₀).mpr (edge.derives_iff.mp (yields.sound t ht))
    · exact suits.firm (.refl yields.proceeds.underway) yields.unknown firm

theorem rendersAt_alt (there : a.grammar.arena.get? s.node = some (.alt left right)) :
    o.RendersAt a (fun fuel => Grammar.render fuel o.input (below fuel) s) path s := by
  obtain ⟨_, there₀, alike⟩ := h.mirrors.back ⟨ranged.root, rfl⟩ there
  cases alike with
  | @alt left₀ _ right₀ _ edgel edger =>
    have edgel : o.Edge left₀ left := edgel
    have edger : o.Edge right₀ right := edger
    obtain ⟨partl, partr⟩ := h.carries.good.formed.node s.node _ there
    -- a side that derives the stretch leads down, unless the other one does too
    have downl (soft : ¬o.Firm s) (livel : o.Derivable { s with node := left }) :
        left < s.node ∧ o.Leads s { s with node := left } := by
      have none : ¬o.Derivable { s with node := right₀ } := fun liver =>
        soft ((Grammar.firm_alt there₀).mpr ⟨edgel.derivable_iff.mp livel, liver⟩)
      exact ⟨partl.1, fun P f bears => .past (.left there₀ none) (edgel.bears bears)⟩
    have downr (soft : ¬o.Firm s) (liver : o.Derivable { s with node := right }) :
        right < s.node ∧ o.Leads s { s with node := right } := by
      have none : ¬o.Derivable { s with node := left₀ } := fun livel =>
        soft ((Grammar.firm_alt there₀).mpr ⟨livel, edger.derivable_iff.mp liver⟩)
      exact ⟨partr.1, fun P f bears => .past (.right there₀ none) (edger.bears bears)⟩
    obtain ⟨l, b, readl, yieldsl⟩ :=
      reads { s with node := left } ⟨edgel.root, ranged.le, ranged.stop⟩
      (lies.cons live downl) a h unknown
    obtain ⟨r, c, readr, yieldsr⟩ :=
      reads { s with node := right } ⟨edger.root, ranged.le, ranged.stop⟩
      (lies.cons live downr) b yieldsl.proceeds.underway yieldsl.unknown
    refine ⟨l.union r, c, .fetch there (.bind readl (.bind readr (.const _))),
      yieldsl.proceeds.trans yieldsr.proceeds,
      yieldsr.unknown, fun t ht => (Grammar.derivation_alt there₀).mpr ((Forest.mem_union.mp ht).imp
        (fun ht => edgel.derives_iff.mp (yieldsl.sound t ht)) fun ht =>
        edger.derives_iff.mp (yieldsr.sound t ht)),
      fun reliable P suits out => ?_⟩
    have reliable' := yieldsr.proceeds.reliable reliable
    have stay := Proceeds.refl yieldsr.proceeds.underway
    by_cases firm : o.Firm s
    · exact .alt there₀ firm out
        (edgel.bears (yieldsl.bears reliable' _ (suits.firm yieldsr.proceeds yieldsl.unknown firm)))
        (edger.bears (yieldsr.bears reliable _ (suits.firm stay yieldsr.unknown firm)))
    · by_cases livel : o.Derivable { s with node := left }
      · have none : ¬o.Derivable { s with node := right } := fun liver =>
          firm ((Grammar.firm_alt there₀).mpr
            ⟨edgel.derivable_iff.mp livel, edger.derivable_iff.mp liver⟩)
        obtain rfl : r = .empty := Forest.eq_empty fun t ht => none ⟨t, yieldsr.sound t ht⟩
        exact (downl firm livel).2
          _ _ (yieldsl.bears reliable' _ (suits.soft yieldsr.proceeds firm))
      · obtain rfl : l = .empty := Forest.eq_empty fun t ht => livel ⟨t, yieldsl.sound t ht⟩
        rw [Forest.empty_union]
        have liver : o.Derivable { s with node := right } := by
          obtain ⟨t, ht⟩ := live
          have side := ((Grammar.derivation_alt there₀).mp ht).resolve_left fun hl =>
            livel (edgel.derivable_iff.mpr ⟨t, hl⟩)
          exact edger.derivable_iff.mpr ⟨t, side⟩
        exact (downr firm liver).2 _ _ (yieldsr.bears reliable _ (suits.soft stay firm))

theorem rendersAt_split (divides : a.grammar.Divides s q) : o.RendersAt a
    (fun fuel => Grammar.splits fuel o.input (below fuel) q.left q.right q.start q.stop q.consume)
      path s := by
  obtain ⟨l, r, edgel, edger, divides₀⟩ := divides.mirrored_back h.mirrors ⟨ranged.root, rfl⟩
  have edgel : o.Edge l q.left := edgel
  have edger : o.Edge r q.right := edger
  have firm : o.Firm s := divides₀.firm
  obtain ⟨stops, b, finding, proceeds, -, trees, lists⟩ := exists_ends h edgel.root
    (divides.start_eq.trans_le (Nat.le_trans ranged.le ranged.stop))
  obtain ⟨joints, c, folding, gathers⟩ := exists_foldlM
    (fun p hp => reads p hp (lies.cons live fun soft => absurd firm soft)) edgel.root edger.root
    (divides.stop_eq.trans_le ranged.stop) proceeds.underway
    (fun p hp => (congrArg (·[p]?) trees).trans (unknown p hp)) .empty lists.sound
  have admits {p : Joint L} (hp : p ∈ joints) : q.Admits p.middle := by
    have member := List.mem_map_of_mem (f := Joint.middle) hp
    rw [gathers.middles] at member
    exact of_decide_eq_true (List.mem_filter.mp member).2
  refine ⟨Joint.gather .empty joints, c, ?_, proceeds.trans gathers.proceeds,
    gathers.unknown, fun t ht => ?_, fun reliable P suits out => ?_⟩
  · simp only [Sequence.splits_eq]
    exact .bind finding folding
  · obtain ⟨p, hp, ht⟩ := (Joint.mem_gather.mp ht).resolve_left nofun
    obtain ⟨l', hl', r', hr', same⟩ := Joint.mem_trees.mp ht
    exact divides₀.derives_iff.mpr
      ⟨p.middle, admits hp, l', r', edgel.derives_iff.mp ((gathers.sound p hp).1 l' hl'),
      edger.derives_iff.mp ((gathers.sound p hp).2 r' hr'), same⟩
  · have inside := suits.firm (.refl gathers.proceeds.underway) gathers.unknown firm
    have bears {p : Joint L} (hp : p ∈ joints) := gathers.bears reliable _ inside p hp
    refine .split divides₀ out ?_ (fun m => ?_) (fun p hp => edger.bears (bears hp).1)
      fun p hp some => edgel.bears ((bears hp).2 some)
    · rw [gathers.middles]
      exact lists.ascending.filter _
    · rw [gathers.middles, List.mem_filter, decide_eq_true_iff, and_comm]
      refine and_congr_right fun _ => Iff.trans ?_ edgel.derivable_iff
      exact ⟨lists.sound m, lists.complete (gathers.proceeds.reliable reliable) m⟩

theorem rendersAt_rep (there : a.grammar.arena.get? s.node = some (.rep body)) :
    o.RendersAt a (fun fuel => Grammar.render fuel o.input (below fuel) s) path s := by
  rcases Nat.eq_or_lt_of_le ranged.le with same | lt
  · obtain ⟨_, there₀, alike⟩ := h.mirrors.back ⟨ranged.root, rfl⟩ there
    cases alike with
    | rep =>
      refine ⟨.single .nil, a, .fetch there ?_, .single h unknown (.rep there₀ same)
        ((Grammar.derivation_rep there₀).mpr (.inl ⟨same.symm, rfl⟩))⟩
      simp only [if_pos same]
      exact .const _
  · obtain ⟨found, b, splitting, renders⟩ :=
      rendersAt_split reads h unknown ranged live lies (.rep there lt)
    refine ⟨found, b, .fetch there ?_, renders⟩
    simp only [if_neg (Nat.ne_of_lt lt)]
    exact splitting

/-- The trees of a span that has one, if its parts are read rightly. -/
theorem rendersAt :
    o.RendersAt a (fun fuel => Grammar.render fuel o.input (below fuel) s) path s := by
  obtain ⟨node, there, built⟩ := h.rooted.pristine.node s.node ranged.root
  have live' : a.grammar.Spans o.input s.node s.start s.stop := (h.spans_iff ranged.root).mpr live
  cases node with
  | matched | thunk => cases built
  | empty =>
    obtain ⟨t, ht⟩ := live'
    exact absurd ht (Grammar.not_derivation there (.inl rfl))
  | undefined name =>
    obtain ⟨t, ht⟩ := live'
    exact absurd ht (Grammar.not_derivation there (.inr ⟨name, rfl⟩))
  | token => exact rendersAt_token h unknown ranged live there
  | alt => exact rendersAt_alt reads h unknown ranged live lies there
  | cat =>
    obtain ⟨found, b, splitting, renders⟩ :=
      rendersAt_split reads h unknown ranged live lies (.cat there)
    exact ⟨found, b, .fetch there splitting, renders⟩
  | rep => exact rendersAt_rep reads h unknown ranged live lies there
  | rule => exact rendersAt_rule reads h unknown ranged live lies there

end Render

end Outset

/-! ## Spans that come up inside each other -/

namespace Span

variable {nodes : Finset NodeId} {length : Nat} {s : Span} {path : List Span}

/-- The spans of some nodes over an input of some length. -/
def box (nodes : Finset NodeId) (length : Nat) : Finset Span :=
  (nodes ×ˢ Finset.range (length + 1) ×ˢ Finset.range (length + 1)).image fun p =>
    ⟨p.1, p.2.1, p.2.2⟩

theorem mem_box (node : s.node ∈ nodes) (start : s.start ≤ length) (stop : s.stop ≤ length) :
    s ∈ box nodes length := by
  refine Finset.mem_image.mpr ⟨(s.node, s.start, s.stop), ?_, rfl⟩
  simp only [Finset.mem_product, Finset.mem_range]
  exact ⟨node, by omega, by omega⟩

theorem card_box_le (nodes : Finset NodeId) (length : Nat) :
    (box nodes length).card ≤ nodes.card * (length + 1) ^ 2 := by
  calc (box nodes length).card
      ≤ (nodes ×ˢ Finset.range (length + 1) ×ˢ Finset.range (length + 1)).card :=
        Finset.card_image_le
    _ = nodes.card * (length + 1) ^ 2 := by simp only [Finset.card_product, Finset.card_range, sq]

/-- Spans that are all different are no more than there are. -/
theorem length_le_card_box (within : ∀ p ∈ path, p ∈ box nodes length) (nodup : path.Nodup) :
    path.length ≤ (box nodes length).card := by
  rw [← List.toFinset_card_of_nodup nodup]
  exact Finset.card_le_card fun p hp => within p (List.mem_toFinset.mp hp)

end Span

namespace Outset

section Visit

variable {o : Outset L} {a b c : Stage L} {s p : Span} {path : List Span}
  {found : Forest (Symbol L)} {P : Set Span} {below : Nat → Span → Extraction L (Forest (Symbol L))}

theorem Renders.underway_keep (h : o.Renders path s a found b) (ranged : o.Ranged s)
    (outer : Bool) : o.Underway (b.keep s found outer) := by
  have before := h.proceeds.underway
  cases cut : b.known.cut with
  | true =>
    refine ⟨before.carries, before.ends, fun s' f there => ?_, fun s' f there => ?_,
      fun s' f there reliable P new => ?_⟩
    all_goals rw [Stage.keep_of_cut cut] at there
    · exact before.ranged s' f there
    · exact before.sound s' f there
    · exact before.bears s' f there reliable P fun p hp => (new p hp).of_keep.1
  | false =>
    have kept {s' : Span} {f : Forest (Symbol L)}
        (there : (b.keep s found outer).known.trees[s']? = some f) :
        s' = s ∧ f = found ∨ b.known.trees[s']? = some f := by
      rw [Stage.keep_of_uncut cut, Std.TreeMap.getElem?_insert] at there
      split at there
      · rename_i same
        exact .inl ⟨(Std.LawfulEqCmp.eq_of_compare same).symm, (Option.some.inj there).symm⟩
      · exact .inr there
    refine ⟨before.carries, before.ends, fun s' f there => ?_, fun s' f there => ?_,
      fun s' f there reliable P new => ?_⟩
    · rcases kept there with ⟨rfl, rfl⟩ | there
      · exact ranged
      · exact before.ranged s' f there
    · rcases kept there with ⟨rfl, rfl⟩ | there
      · exact h.sound
      · exact before.sound s' f there
    · have new' (p : Span) (hp : p ∈ P) : b.Unknown p ∧ p ≠ s :=
        ⟨(new p hp).of_keep.1, (new p hp).of_keep.2 cut⟩
      rcases kept there with ⟨rfl, rfl⟩ | there
      · exact h.bears reliable P (.inr ⟨cut, fun p hp => (new' p hp).1⟩) fun hs => (new' _ hs).2 rfl
      · exact before.bears s' f there reliable P fun p hp => (new' p hp).1

theorem Proceeds.none (h : o.Proceeds a b) (unknown : ∀ p ∈ path, b.Unknown p)
    (none : o.Reliable b → ¬o.Derivable s) : o.Yields path s a .empty b where
  proceeds := h
  unknown := unknown
  sound := nofun
  bears reliable _ _ := .none (none reliable)

theorem Proceeds.cycle (h : o.Proceeds a b) (unknown : ∀ p ∈ path, b.Unknown p)
    (lies : o.Lies path s) (live : o.Derivable s) (inside : s ∈ path) :
    o.Yields path s a .empty { b with known := { b.known with cut := true } } where
  proceeds := ⟨h.carries, h.underway.withCut true, fun _ => rfl, h.unknown⟩
  unknown := unknown
  sound := nofun
  bears _ P suits := by
    rcases suits with rfl | ⟨whole, -⟩
    · exact lies.cut live inside
    · cases whole

/-- The action answers with the trees of a span that is read, because nothing is known of it, it has
some, and it does not come up inside itself. -/
def ReadsNew (o : Outset L) (act : Nat → Extraction L (Forest (Symbol L))) (path : List Span)
    (s : Span) : Prop :=
  ∀ a, o.Underway a → (∀ p ∈ s :: path, a.Unknown p) → o.Derivable s → s ∉ path →
    ∃ found b, Stage.Answers act a found b ∧ o.Yields path s a found b

/-- A span is looked up, found not to match, found to come up inside itself, or read. -/
theorem reads_lookOr {read : Nat → Extraction L (Forest (Symbol L))} (ranged : o.Ranged s)
    (lies : o.Lies path s) (reads : o.ReadsNew read path s) :
    o.Reads (fun fuel => s.lookOr (.plain fuel) o.input path (read fuel)) path s := by
  intro a h unknown
  cases known : a.known.trees[s]? with
  | some f =>
    refine ⟨f, a, .bind .get ?_, .refl h, unknown, h.sound s f known, fun reliable P suits => ?_⟩
    · simp only [known]
      exact .const f
    · refine h.bears s f known reliable P fun p hp => ?_
      rcases suits with rfl | ⟨-, new⟩
      · exact unknown p hp.1
      · exact new p hp
  | none =>
    obtain ⟨stops, b, finding, proceeds, cut, trees, lists⟩ :=
      exists_ends h ranged.root (Nat.le_trans ranged.le ranged.stop)
    have unknown' {p : Span} (hp : a.Unknown p) : b.Unknown p := (congrArg (·[p]?) trees).trans hp
    by_cases ends : s.stop ∈ stops
    · have live : o.Derivable s := lists.sound _ ends
      by_cases inside : s ∈ path
      · refine ⟨.empty, _, .bind .get ?_,
          proceeds.cycle (fun p hp => unknown' (unknown p hp)) lies live inside⟩
        simp only [known]
        refine .bind finding ?_
        simp only [List.contains_iff_mem.mpr ends, List.contains_iff_mem.mpr inside]
        exact .bind (.modify _) (.const _)
      · obtain ⟨found, c, reading, yields⟩ := reads b proceeds.underway
          (List.forall_mem_cons.mpr ⟨unknown' known, fun p hp => unknown' (unknown p hp)⟩)
          live inside
        refine ⟨found, c, .bind .get ?_, proceeds.trans yields.proceeds, yields.unknown,
          yields.sound, yields.bears⟩
        simp only [known]
        refine .bind finding ?_
        simp only [List.contains_iff_mem.mpr ends, mt List.contains_iff_mem.mp inside]
        exact reading
    · refine ⟨.empty, b, .bind .get ?_,
        proceeds.none (fun p hp => unknown' (unknown p hp)) fun reliable live =>
        ends (lists.complete reliable _ live)⟩
      simp only [known]
      refine .bind finding ?_
      simp only [mt List.contains_iff_mem.mp ends]
      exact .const _

/-- The parts of a span are read, and its trees are kept unless it rests on a cut. -/
theorem reads_keeping (ranged : o.Ranged s) (lies : o.Lies path s)
    (reads : s ∉ path → ∀ p, o.Ranged p → o.Lies (s :: path) p →
      o.Reads (below · p) (s :: path) p) :
    o.ReadsNew (fun fuel => s.keeping (Grammar.render fuel o.input (below fuel) s)) path s := by
  intro a h unknown live inside
  obtain ⟨found, c, rendering, renders⟩ :=
    rendersAt (reads inside) (h.withCut false) unknown ranged live lies
  have kept := renders.underway_keep ranged a.known.cut
  let g' := c.grammar.noted (.extracted s.node s.start s.stop found.size)
  have noting : Carries o.links c.world c.grammar c.world g' :=
    .of_eq kept.carries.good rfl (.inl rfl)
  have noted := kept.carried noting
  refine ⟨found, ⟨c.world, g', (c.keep s found a.known.cut).known⟩, .bind .get ?_,
    ⟨renders.proceeds.carries.trans noted.carries,
      noted.underway, fun cut => Bool.or_eq_true_iff.mpr (.inr cut),
      fun p new => renders.proceeds.unknown p new.of_keep.1⟩,
    fun p hp => (renders.unknown p (.tail _ hp)).keep (ne_of_mem_of_not_mem hp inside),
      renders.sound,
    fun reliable P suits => ?_⟩
  · have note := Stage.Answers.onGrammar (a := c.keep s found a.known.cut)
      (DerivativeParsing.Answers.const (Grammar.note_ok (u := ()).mpr (rfl : _ = g'))) c.world
    exact .bind (.modify _) (.bind rendering (.bind (.modify _) (.bind note (.const found))))
  · have reliable' := noted.reliable reliable
    rcases suits with rfl | ⟨whole, new⟩
    · exact renders.bears reliable' _ (.inl rfl) fun hs => inside hs.1
    · have whole' : c.known.cut = false := (Bool.or_eq_false_iff.mp whole).1
      exact renders.bears reliable' P (.inr ⟨whole', fun p hp => (new p hp).of_keep.1⟩) fun hs =>
        (new s hs).of_keep.2 whole' rfl

theorem reads_visit (ranged : o.Ranged s) (lies : o.Lies path s)
    (reads : s ∉ path → ∀ p, o.Ranged p → o.Lies (s :: path) p →
      o.Reads (below · p) (s :: path) p) :
    o.Reads (fun fuel =>
      s.visit (.plain fuel) o.input path (Grammar.render fuel o.input (below fuel) s)) path s :=
  reads_lookOr ranged lies (reads_keeping ranged lies reads)

theorem Reads.congr {act act' : Nat → Extraction L (Forest (Symbol L))} (h : o.Reads act path s)
    (N : Nat) (same : ∀ fuel ≥ N, act' fuel = act fuel) : o.Reads act' path s := by
  intro a underway unknown
  obtain ⟨found, b, reading, yields⟩ := h a underway unknown
  exact ⟨found, b, reading.congr N same, yields⟩

/-- The spans that an extraction can be asked for. -/
def box (o : Outset L) : Finset Span := Span.box (Finset.range o.grammar.size) o.input.length

theorem Ranged.mem_box (h : o.Ranged s) : s ∈ o.box :=
  Span.mem_box (Finset.mem_range.mpr (o.rooted.pristine.lt_size h.root))
    (Nat.le_trans h.le h.stop) h.stop

/-- If every span is read once the spans inside it are, then a span is read inside any other spans.
By induction on how many more spans there can be inside it. -/
theorem reads_nested {read : Nat → Nat → List Span → Span → Extraction L (Forest (Symbol L))}
    (visits : ∀ path s, o.Ranged s → o.Lies path s →
      (s ∉ path → ∀ p, o.Ranged p → o.Lies (s :: path) p →
      o.Reads (fun fuel => read fuel (fuel - (s :: path).length) (s :: path) p) (s :: path) p) →
      o.Reads (fun fuel => read fuel (fuel - (s :: path).length + 1) path s) path s) {d : Nat}
    (room : o.box.card ≤ path.length + d) (nodup : path.Nodup)
    (path_ranged : ∀ p ∈ path, o.Ranged p) (ranged : o.Ranged s) (lies : o.Lies path s) :
    o.Reads (fun fuel => read fuel (fuel - path.length) path s) path s := by
  induction d using Nat.strong_induction_on generalizing path s with
  | h d ih =>
    refine (visits path s ranged lies fun new p hp lies' => ?_).congr
      (path.length + 1) fun fuel le => ?_
    · have path_ranged' := List.forall_mem_cons.mpr ⟨ranged, path_ranged⟩
      have nodup' := List.nodup_cons.mpr ⟨new, nodup⟩
      have le : (s :: path).length ≤ o.box.card :=
        Span.length_le_card_box (fun p hp => (path_ranged' p hp).mem_box) nodup'
      rw [List.length_cons] at le
      exact ih (d - 1) (by omega) (by rw [List.length_cons]; omega) nodup' path_ranged' hp lies'
    · rw [show fuel - path.length = fuel - (s :: path).length + 1 by rw [List.length_cons]; omega]

theorem reads_trees (ranged : o.Ranged s) :
    o.Reads (fun fuel => Grammar.trees fuel o.input fuel [] s) [] s :=
  reads_nested (fun _ _ ranged lies reads => reads_visit ranged lies reads)
    (Nat.le_add_left o.box.card _) .nil nofun
    ranged fun _ => nofun

end Visit

end Outset

end DerivativeParsing
