import DerivativeParsing.Proofs.Forests
import DerivativeParsing.Proofs.Lasting
import DerivativeParsing.Proofs.Recognition

/-!
# Parsing

What a recognizer answers when it is asked to parse an input, compared with the trees of its
description.

1. `parse_sound`: every tree that is found is the tree of a derivation, whatever happened before.
2. `plain_parse`: without rules the trees found are those of all derivations, the empty tree left
   out.
3. `parse_isEmpty`: an input that is accepted has a tree, unless it is empty or rules are entangled.
4. `parse_culling`: culling changes neither what is accepted nor which trees are found, under the
   same exception.
-/

namespace DerivativeParsing

variable {L : Type} [DecidableEq L] {r r₀ r' : Recognizer L} {source : Source} {settings : Settings}
  {fuel : Nat} {calls : List (Call L)} {symbols : List (Symbol L)}

def answered (answer : Option (Forest (Symbol L))) : List (Tree (Symbol L)) :=
  (answer.getD .empty).trees

/-- The trees that are answered to an input after a history of calls, if the fuel lasts. -/
def Source.trees? (source : Source) (settings : Settings) (fuel : Nat) (calls : List (Call L))
    (symbols : List (Symbol L)) : Option (Option (List (Tree (Symbol L)))) :=
  match source.after settings fuel calls with
  | .ok r =>
    match Recognizer.parse fuel symbols r with
    | .ok (answer, _) => some (answer.map Forest.trees)
    | .error _ => none
  | .error _ => none

theorem trees?_eq_some {found : Option (List (Tree (Symbol L)))}
    (h : source.trees? settings fuel calls symbols = some found) : ∃ r answer r',
      source.after settings fuel calls = .ok r ∧
        Recognizer.parse fuel symbols r = .ok (answer, r') ∧ answer.map Forest.trees = found := by
  unfold Source.trees? at h
  cases history : source.after settings fuel calls with
  | error => simp only [history] at h; cases h
  | ok r =>
    cases run : Recognizer.parse fuel symbols r with
    | error => simp only [history, run] at h; cases h
    | ok p =>
      simp only [history, run, Option.some.injEq] at h
      exact ⟨r, p.1, p.2, rfl, run, h⟩

/-- After any history an input is parsed or not, given enough fuel. -/
theorem parse_settles_after (history : source.after settings fuel calls = .ok r)
    (built : source.recognizer settings = .ok r₀) (symbols : List (Symbol L)) :
    r.Settles (fun fuel => Recognizer.parse fuel symbols) fun answer r' =>
      ∃ W W', Parsed source.links source.origin (r₀.grammar.readings r₀.start)
        W r symbols answer W' r' ∧
        (Assured source.links W r W' r' ∨
          source.links.Entangled ∧ (settings.collectEvery = none → r'.grammar.Misled)) := by
  obtain ⟨W, consistent, exact, rfl, -, rooted⟩ := after_consistent history
  refine (parse_settles consistent (rooted r₀ built) symbols).imp fun answer r' ⟨W', parsed⟩ => ?_
  exact ⟨W, W', parsed, parsed.follows.assured_or_misled exact⟩

/-- An input breaks the call exactly if it is not empty and the period is of no steps. -/
theorem parse_breaks_after (history : source.after settings fuel calls = .ok r)
    (symbols : List (Symbol L)) : r.Breaks (fun fuel => Recognizer.parse fuel symbols) ↔
      settings.collectEvery = some 0 ∧ symbols ≠ [] := by
  obtain ⟨r₀, built, -⟩ := after_ok.mp history
  obtain ⟨W, consistent, -, rfl, -, rooted⟩ := after_consistent history
  exact parse_breaks_iff consistent (rooted r₀ built) (after_alive history) symbols

/-- Whatever happened before, the trees that are found are those of derivations in the graph as it
was built, and they spell the input. -/
theorem parse_sound (history : source.after settings fuel calls = .ok r)
    (built : source.recognizer settings = .ok r₀) (symbols : List (Symbol L)) :
    r.Settles (fun fuel => Recognizer.parse fuel symbols) fun answer _ =>
      ∀ f, answer = some f → ∀ t ∈ f.trees,
        r₀.grammar.Derivation symbols r₀.start 0 symbols.length t ∧ t.leaves = symbols := by
  refine (parse_settles_after history built
    symbols).imp fun answer r' ⟨W, W', parsed, _⟩ f same t ht => ?_
  have derivation : r₀.grammar.Derivation symbols r₀.start 0 symbols.length t :=
    ((parsed.reaps f same).sound t ht).2
  refine ⟨derivation, derivation.leaves.trans ?_⟩
  rw [List.extract_eq_take_drop, List.drop_zero, Nat.sub_zero, List.take_length]

theorem parse_sound_leftRecursive : ∃ r r₀ : Recognizer String,
    leftRecursive.after {} 30 [.parse [⟨2, "a"⟩], .feed ⟨2, "b"⟩] = .ok r ∧
      leftRecursive.recognizer {} = .ok r₀ ∧
        ∃ answer r', Answers (fun fuel => Recognizer.parse fuel [⟨2, "a"⟩, ⟨2, "b"⟩]) r
          (answer, r') ∧
          ∀ f, answer = some f → ∀ t ∈ f.trees,
            r₀.grammar.Derivation [⟨2, "a"⟩, ⟨2, "b"⟩] r₀.start 0 2 t ∧
              t.leaves = [⟨2, "a"⟩, ⟨2, "b"⟩] := by
  obtain ⟨r, history⟩ := leftRecursive_used
  obtain ⟨r₀, built, -⟩ := after_ok.mp history
  have period : r.settings.collectEvery ≠ some 0 := settings_of_after history ▸ nofun
  exact ⟨r, r₀, history, built, (parse_sound history built [⟨2, "a"⟩, ⟨2, "b"⟩]).answers period⟩

/-- The trees that are found, if no rule stands alone in itself and rules are stored rightly. -/
theorem Parsed.mem_answered {links : Links} {origin : Meaning} {D : Readings L} {W W' : World}
    {answer : Option (Forest (Symbol L))} (h : Parsed links origin D W r symbols answer W' r')
    (assured : Assured links W r W' r') (straight : ¬links.Circular) {t : Tree (Symbol L)} :
    t ∈ answered answer ↔ t ≠ .nil ∧ D.derives symbols 0 symbols.length t := by
  constructor
  · intro ht
    cases answer with
    | none => cases ht
    | some f => exact (h.reaps f rfl).sound t ht
  · rintro ⟨ne, ht⟩
    obtain ⟨f, rfl⟩ := Option.isSome_iff_exists.mp (h.complete assured ⟨t, ht⟩)
    exact (h.reaps f rfl).complete assured straight t ne ht

/-- Every language without rules is accepted, and whatever happens then, the trees that are found
are those of all derivations, the empty tree left out, if a period of no steps does not break the
call. -/
theorem plain_parse {lang : Language} (plain : lang.isPlain) (settings : Settings) :
    (∃ r : Recognizer L, (Source.plain lang).recognizer settings = .ok r) ∧
      ∀ (fuel : Nat) (calls : List (Call L)) r,
        (Source.plain lang).after settings fuel calls = .ok r →
        ∀ symbols, r.Settles (fun fuel => Recognizer.parse fuel symbols) fun answer _ =>
          ∀ t, t ∈ answered answer ↔ t ≠ .nil ∧ lang.Yields [] symbols 0 symbols.length t := by
  refine ⟨exists_ofLanguage plain settings, fun fuel calls r history symbols => ?_⟩
  obtain ⟨r₀, built, -⟩ := after_ok.mp history
  refine (parse_settles_after history built symbols).imp fun answer r' ⟨W, W', parsed, assured⟩ t =>
    ?_
  have assured := assured.resolve_right fun h => Language.not_entangled_nil h.1
  have straight : ¬(Source.plain lang).links.Circular :=
    Language.not_circular Language.not_entangled_nil
  exact (parsed.mem_answered assured straight).trans
    (and_congr_right fun _ => derivation_iff_yields built)

theorem plain_parse_closedList : closedList.isPlain = true ∧ ∃ r : Recognizer String,
    (Source.plain closedList).after {} 0 [] = .ok r ∧
      ∃ answer r', Answers (fun fuel => Recognizer.parse fuel [⟨2, "a"⟩, ⟨4, "z"⟩]) r (answer, r') ∧
        ∀ t, t ∈ answered answer ↔ t ≠ .nil ∧ closedList.Yields [] [⟨2, "a"⟩, ⟨4, "z"⟩] 0 2 t := by
  have plain : closedList.isPlain = true := rfl
  obtain ⟨⟨r, built⟩, parse⟩ := plain_parse (L := String) plain {}
  have history : (Source.plain closedList).after {} 0 [] = .ok r := after_nil 0 built
  have period : r.settings.collectEvery ≠ some 0 := settings_of_after history ▸ nofun
  exact ⟨plain, r, history, (parse 0 [] r history [⟨2, "a"⟩, ⟨4, "z"⟩]).answers period⟩

/-- With a period of no steps an input that has a tree breaks the call. -/
theorem parse_breaks_tokens : ∃ r : Recognizer String,
    (Source.plain tokens).recognizer { collectEvery := some 0 } = .ok r ∧
      (∃ t, t ≠ .nil ∧ tokens.Yields [] [(⟨2, "a"⟩ : Symbol String)] 0 1 t) ∧
        r.Breaks fun fuel => Recognizer.parse fuel [⟨2, "a"⟩] := by
  obtain ⟨r, built⟩ := tokens_made { collectEvery := some 0 }
  refine ⟨r, built, ⟨_, ?_, .rep_cons Nat.one_pos (.token rfl rfl rfl) .rep_nil⟩, ?_⟩
  · nofun
  · exact (parse_breaks_after (after_nil 0 built) _).mpr ⟨rfl, nofun⟩

/-- If an input is accepted, the forest is empty if the input is; and an empty forest for an input
that is not means that rules are entangled, and, without collections, that one of them is stored
wrongly. -/
theorem parse_isEmpty (history : source.after settings fuel calls = .ok r)
    (symbols : List (Symbol L)) :
    r.Settles (fun fuel => Recognizer.parse fuel symbols) fun answer r' =>
      ∀ f, answer = some f → (symbols = [] → f.isEmpty) ∧
        (f.isEmpty → symbols = [] ∨
          source.links.Entangled ∧ (settings.collectEvery = none → r'.grammar.Misled)) := by
  obtain ⟨r₀, built, -⟩ := after_ok.mp history
  refine (parse_settles_after history built
    symbols).imp fun answer r' ⟨W, W', parsed, assured⟩ f same => ?_
  refine ⟨?_, fun empty => ?_⟩
  · rintro rfl
    refine List.isEmpty_iff.mpr (List.eq_nil_iff_forall_not_mem.mpr fun t ht => ?_)
    obtain ⟨ne, derives⟩ := (parsed.reaps f same).sound t ht
    have derivation : r₀.grammar.Derivation [] r₀.start 0 0 t := derives
    exact ne (derivation.eq_nil rfl)
  · by_cases none : symbols = []
    · exact .inl none
    · refine .inr (assured.resolve_left fun assured => ?_)
      obtain ⟨t, ht⟩ := (parsed.reaps f same).some assured none (parsed.sound (same ▸ rfl))
      rw [List.isEmpty_iff.mp empty] at ht
      cases ht

theorem parse_isEmpty_leftRecursive :
    ∃ r : Recognizer String, leftRecursive.after {} 30 [.parse [⟨2, "a"⟩]] = .ok r ∧
    ∃ answer r', Answers (fun fuel => Recognizer.parse fuel [⟨2, "a"⟩, ⟨2, "b"⟩]) r (answer, r') ∧
      ∀ f, answer = some f → (([⟨2, "a"⟩, ⟨2, "b"⟩] : List (Symbol String)) = [] → f.isEmpty) ∧
        (f.isEmpty → ([⟨2, "a"⟩, ⟨2, "b"⟩] : List (Symbol String)) = [] ∨
          leftRecursive.links.Entangled ∧
            (({} : Settings).collectEvery = none → r'.grammar.Misled)) := by
  obtain ⟨r, history⟩ := exists_of_isOk (show
    (leftRecursive.after (L := String) {} 30 [.parse [⟨2, "a"⟩]]).isOk = true by decide +kernel)
  have period : r.settings.collectEvery ≠ some 0 := settings_of_after history ▸ nofun
  exact ⟨r, history, (parse_isEmpty history [⟨2, "a"⟩, ⟨2, "b"⟩]).answers period⟩

/-- Two rules of which each begins with the other, before and after a token. -/
def twined : Source :=
  .ruled [("S", .cat (.rule "B") (.cat (.token 5) (.rule "A"))),
    ("A", .alt (.cat (.rule "B") (.token 4)) (.alt (.token 2) (.token 3))), ("B", .rule "A")] "S"

/-- The input is accepted, and the second rule is found to match its first two tokens. But the first
rule, which the second one stands for, is found to match only one of them, so no tree is left. -/
theorem parse_misses_twined :
    ∃ (r : Recognizer String) (f : Forest (Symbol String)) (r' : Recognizer String),
    twined.recognizer {} = .ok r ∧
      Answers (fun fuel => Recognizer.parse fuel [⟨2, "a"⟩, ⟨4, "x"⟩, ⟨5, "z"⟩, ⟨3, "b"⟩]) r
        (some f, r') ∧
        f.isEmpty = true := by
  obtain ⟨r, answer, r', history, run, none⟩ := trees?_eq_some (show
    twined.trees? {} 30 [] [(⟨2, "a"⟩ : Symbol String), ⟨4, "x"⟩, ⟨5, "z"⟩, ⟨3, "b"⟩] =
    some (some []) by
      decide +kernel)
  obtain ⟨r₀, built, same⟩ := after_ok.mp history
  obtain ⟨-, rfl⟩ := Action.pure_ok.mp same
  obtain ⟨f, rfl, empty⟩ := Option.map_eq_some_iff.mp none
  exact ⟨r₀, f, r', built, parse_answers run, List.isEmpty_iff.mpr empty⟩

/-- There is one forest to be found, if rules are stored rightly. -/
theorem Parsed.unique {links : Links} {origin : Meaning} {g : Grammar L} {start : NodeId}
    {W W' W₀ W₀' : World} {r₀' : Recognizer L} {answer answer₀ : Option (Forest (Symbol L))}
    (h : Parsed links origin (g.readings start) W r symbols answer W' r')
    (assured : Assured links W r W' r')
    (h₀ : Parsed links origin (g.readings start) W₀ r₀ symbols answer₀ W₀' r₀')
    (assured₀ : Assured links W₀ r₀ W₀' r₀') : answer = answer₀ := by
  have some : answer.isSome ↔ answer₀.isSome :=
    ⟨fun yes => h₀.complete assured₀ (h.sound yes), fun yes => h.complete assured (h₀.sound yes)⟩
  cases answer with
  | none =>
    cases answer₀ with
    | none => rfl
    | some => cases some.mpr rfl
  | some f =>
    obtain ⟨f₀, rfl⟩ := Option.isSome_iff_exists.mp (some.mp rfl)
    obtain ⟨found, bears, rfl⟩ := (h.reaps f rfl).bears assured
    obtain ⟨found₀, bears₀, rfl⟩ := (h₀.reaps f₀ rfl).bears assured₀
    have bears : g.Bears symbols ∅ ⟨start, 0, symbols.length⟩ found := bears
    rw [bears.unique bears₀]

/-- With culling and without it, the same inputs are accepted and the same trees are found in the
same order, unless rules are entangled; and if nothing is collected, then one of them is stored
wrongly. A call that breaks does so with culling and without it. -/
theorem parse_culling {rOn rOff : Recognizer L}
    (on : source.recognizer (settings.withCulling true) = .ok rOn)
    (off : source.recognizer (settings.withCulling false) = .ok rOff) (symbols : List (Symbol L)) :
    rOn.BothSettle rOff (fun fuel => Recognizer.recognize fuel symbols)
      (fun fuel => Recognizer.recognize fuel symbols) (fun o r' o₀ r₀' =>
        o.accepted = o₀.accepted ∨ source.links.Entangled ∧
          (settings.collectEvery = none → r'.grammar.Misled ∨ r₀'.grammar.Misled)) ∧
    rOn.BothSettle rOff (fun fuel => Recognizer.parse fuel symbols)
      (fun fuel => Recognizer.parse fuel symbols) fun answer r' answer₀ r₀' =>
        answer = answer₀ ∨ source.links.Entangled ∧
          (settings.collectEvery = none → r'.grammar.Misled ∨ r₀'.grammar.Misled) := by
  have historyOn : source.after (settings.withCulling true) 0 [] = .ok rOn := after_nil 0 on
  have historyOff : source.after (settings.withCulling false) 0 [] = .ok rOff := after_nil 0 off
  constructor
  · refine ((recognize_settles_after historyOn symbols).both
      (recognize_settles_after historyOff symbols)
      ((recognize_breaks_after historyOn _).trans (recognize_breaks_after historyOff _).symm)).imp
        ?_
    rintro o r' o₀ r₀' ⟨accepted, accepted₀⟩
    refine (both_or_misled (accepted.imp_right And.right) (accepted₀.imp_right And.right)).imp_left
      fun ⟨accepted, accepted₀⟩ => ?_
    exact Bool.eq_iff_iff.mpr (accepted.trans accepted₀.symm)
  · refine ((parse_settles_after historyOn on symbols).both
      (parse_settles_after historyOff off symbols)
      ((parse_breaks_after historyOn _).trans (parse_breaks_after historyOff _).symm)).imp ?_
    rintro answer r' answer₀ r₀' ⟨⟨W, W', parsed, assured⟩, W₀, W₀', parsed₀, assured₀⟩
    refine (both_or_misled assured assured₀).imp_left fun ⟨assured, assured₀⟩ => ?_
    obtain ⟨grammar, start⟩ := recognizer_grammar off on
    rw [grammar, start] at parsed₀
    exact parsed.unique assured parsed₀ assured₀

theorem parse_culling_leftRecursive : ∃ rOn rOff : Recognizer String,
    leftRecursive.recognizer (({} : Settings).withCulling true) = .ok rOn ∧
      leftRecursive.recognizer (({} : Settings).withCulling false) = .ok rOff ∧
        ∃ answer r' answer₀ r₀',
          Answers (fun fuel => Recognizer.parse fuel [⟨2, "a"⟩, ⟨2, "b"⟩]) rOn (answer, r') ∧
          Answers (fun fuel => Recognizer.parse fuel [⟨2, "a"⟩, ⟨2, "b"⟩]) rOff (answer₀, r₀') ∧
            (answer = answer₀ ∨ leftRecursive.links.Entangled ∧
              (({} : Settings).collectEvery = none → r'.grammar.Misled ∨ r₀'.grammar.Misled)) := by
  obtain ⟨rOn, on⟩ := leftRecursive_made (({} : Settings).withCulling true)
  obtain ⟨rOff, off⟩ := leftRecursive_made (({} : Settings).withCulling false)
  have period : rOn.settings.collectEvery ≠ some 0 := settings_of_recognizer on ▸ nofun
  exact ⟨rOn, rOff, on, off, (parse_culling on off [⟨2, "a"⟩, ⟨2, "b"⟩]).2.answers period⟩

/-- Two rules that stand for one another, one of which may be empty, asked for at the same place;
and a choice that culling leaves out. -/
def pruned : Source :=
  .ruled [("S", .cat (.token 2) (.alt .epsilon (.alt (.cat (.rule "B") (.token 0))
      (.cat (.token 3) (.alt (.rule "A") (.cat (.rule "B") (.token 4))))))),
    ("A", .alt (.rule "B") .epsilon), ("B", .rule "A")] "S"

/-- Without culling, a dead choice asks for the second rule before the first. With culling it is
gone, so that the second rule is first asked for the sake of the first, and what it then answers is
kept. -/
theorem recognize_pruned_depends :
    ∃ (rOn rOff : Recognizer String) (o o₀ : Recognition) (r' r₀' : Recognizer String),
    pruned.recognizer (({} : Settings).withCulling true) = .ok rOn ∧
      pruned.recognizer (({} : Settings).withCulling false) = .ok rOff ∧
        Answers (fun fuel => Recognizer.recognize fuel [⟨2, "a"⟩, ⟨3, "b"⟩, ⟨4, "c"⟩]) rOn (o, r') ∧
          Answers (fun fuel => Recognizer.recognize fuel [⟨2, "a"⟩, ⟨3, "b"⟩, ⟨4, "c"⟩]) rOff
            (o₀, r₀') ∧
            o.accepted = false ∧ o₀.accepted = true := by
  obtain ⟨rOn, o, r', on, run, no⟩ := exists_recognizer_of_answer? (show
    pruned.answer? (({} : Settings).withCulling true) 30 []
    [(⟨2, "a"⟩ : Symbol String), ⟨3, "b"⟩, ⟨4, "c"⟩] =
      some false by decide +kernel)
  obtain ⟨rOff, o₀, r₀', off, run₀, yes⟩ := exists_recognizer_of_answer? (show
    pruned.answer? (({} : Settings).withCulling false) 30 []
    [(⟨2, "a"⟩ : Symbol String), ⟨3, "b"⟩, ⟨4, "c"⟩] =
      some true by decide +kernel)
  exact ⟨rOn, rOff, o, o₀, r', r₀', on, off, recognize_answers run, recognize_answers run₀, no, yes⟩

end DerivativeParsing
