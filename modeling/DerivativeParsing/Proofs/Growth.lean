import DerivativeParsing.Proofs.Portraits
import DerivativeParsing.Proofs.Stopping
import DerivativeParsing.Proofs.Weights

/-!
# How the live graph grows

The current node of a recognizer for a language without rules portrays what is left of the language,
without the parts that have no words. So the graph that is live grows as that does. Nothing else is
left out: where a word can be cut into a sequence in more and more ways, every cut leaves an
alternative of its own, and they are never merged.

1. `feed_pictures`: a symbol that is fed leaves a recognizer that portrays what is left. By
   induction on the symbols `feeds_pictures`.
2. `live_between`: how much the current node reaches, compared with what is left.
3. `live_bounded`: the live graph is bounded where what is left is; so it is where no word has more
   than so many trees. It is not for two repetitions of one token in a row
   (`live_unbounded_twoStars`).
-/

namespace DerivativeParsing

open Grammar (nothing)

/-! ## What a recognizer portrays -/

/-- A recognizer that culls and does not collect, and whose current node portrays a language. -/
structure Recognizer.Pictures {L : Type} [DecidableEq L] (links : Links) (r : Recognizer L)
    (lang : Language) : Prop where
  warrants : r.grammar.Warrants links [r.current]
  portrays : r.grammar.Portrays lang r.current
  culling : r.settings.culling = true
  collecting : r.settings.collectEvery = none

section Pictures

variable {L : Type} [DecidableEq L] {links : Links} {r r' : Recognizer L} {lang : Language}
  {s : Symbol L} {alive : Bool} {fuel : Nat} {u : Unit} {symbols : List (Symbol L)}

/-- A dead recognizer portrays nothing, and nothing is left of that. -/
theorem Recognizer.Pictures.dead (h : r.Pictures links lang) (dead : r.isDead) :
    lang = Language.nothing := by
  obtain ⟨W, good⟩ := h.warrants.between.1
  have portrays := h.portrays
  rw [Recognizer.isDead_iff.mp dead] at portrays
  exact (portrays_empty good.formed.nothing).mp portrays

/-- Feeding a symbol leaves a recognizer that portrays what is left after it. -/
theorem feed_pictures (h : r.Pictures links lang)
    (run : Recognizer.feed fuel s r = .ok (alive, r')) :
    r'.Pictures links (lang.derivative s.kind).pruned := by
  by_cases stops : r.settings.stopWhenDead ∧ r.isDead
  · rw [Recognizer.feed_stopped stops] at run
    cases run
    obtain rfl := h.dead stops.2
    exact h
  · rw [Recognizer.feed_alive stops] at run
    obtain ⟨⟨next, accepts⟩, _, stepping, landing⟩ := Action.bind_ok.mp run
    obtain ⟨g', stepped, rfl⟩ := Recognizer.onGrammar_ok.mp stepping
    rw [Recognizer.landed_not_due (Settings.collectDue_none _ h.collecting)] at landing
    cases landing
    have warrants := (h.warrants.step stepped).mono (List.cons_subset_cons _ (List.nil_subset _))
    rw [h.culling] at stepped
    have portrays := step_portrays h.portrays h.warrants stepped
    exact ⟨by rw [Recognizer.current_advanced]; exact warrants.noted _,
      by rw [Recognizer.current_advanced]; exact portrays.of_eq rfl, h.culling, h.collecting⟩

theorem feeds_pictures (h : r.Pictures links lang)
    (run : Recognizer.callAll fuel (symbols.map Call.feed) r = .ok (u, r')) :
    r'.Pictures links (lang.remainder symbols) := by
  induction symbols generalizing r lang with
  | nil =>
    cases run
    exact h
  | cons s rest ih =>
    obtain ⟨_, r₁, first, run⟩ := Action.bind_ok.mp run
    obtain ⟨alive, _, feeding, last⟩ := Action.bind_ok.mp first
    obtain ⟨-, rfl⟩ := Action.pure_ok.mp last
    exact ih (feed_pictures h feeding) run

/-- A recognizer that was just built portrays the language that it was built from. -/
theorem built_pictures (built : (Source.plain lang).recognizer {} = .ok r) :
    r.Pictures (Source.plain lang).links lang := by
  obtain ⟨start, g, lowered, rfl⟩ := ofLanguage_ok built
  obtain ⟨W, g₀, start₀, same, founded, -⟩ := exists_founded built
  cases same
  exact ⟨founded.warrants, (Grammar.lower_depicts lowered).2.portrays, rfl, rfl⟩

/-- After symbols were fed, the current node reaches no more than there are parts of what is left,
and no less than there are parts one inside the other. -/
theorem live_between (plain : lang.isPlain) (symbols : List (Symbol L)) :
    ∃ (r : Recognizer L) (live : Nat),
    (∃ N, ∀ fuel ≥ N, (Source.plain lang).after {} fuel (symbols.map Call.feed) = .ok r) ∧
      r.grammar.reachable r.current = .ok live ∧
      (lang.remainder symbols).height ≤ live ∧ live ≤ (lang.remainder symbols).size := by
  obtain ⟨r, ⟨N, after⟩, -⟩ :=
    (plain_feeds plain {} symbols).resolve_right fun broken => nomatch broken.1
  obtain ⟨r₀, built, run⟩ := after_ok.mp (after N (Nat.le_refl N))
  have pictures := feeds_pictures (built_pictures built) run
  obtain ⟨W, good⟩ := pictures.warrants.between.1
  obtain ⟨live, count, bounds⟩ := reachable_portrays pictures.portrays (good.formed.ranged true)
  exact ⟨r, live, ⟨N, after⟩, count, bounds⟩

end Pictures

/-! ## Where the live graph is bounded -/

/-- After whatever symbols were fed to a recognizer of the language, the current node reaches no
more than so many nodes. -/
def Language.LivesWithin (L : Type) [DecidableEq L] (lang : Language) (bound : Nat) : Prop :=
  ∀ symbols : List (Symbol L), ∃ (r : Recognizer L) (live : Nat),
    (∃ N, ∀ fuel ≥ N, (Source.plain lang).after {} fuel (symbols.map Call.feed) = .ok r) ∧
      r.grammar.reachable r.current = .ok live ∧ live ≤ bound

/-- No word but the empty one has more than so many trees. -/
def Language.HasTreesWithin (L : Type) (lang : Language) (bound : Nat) : Prop :=
  ∀ (w : List (Symbol L)) (trees : Finset (Tree (Symbol L))), w ≠ [] →
    (∀ t ∈ trees, lang.Yields [] w 0 w.length t) → trees.card ≤ bound

section Bounded

variable {L : Type} {lang : Language} {bound : Nat} {s : Symbol L}

theorem remainder_concat (w : List (Symbol L)) :
    lang.remainder (w ++ [s]) = ((lang.remainder w).derivative s.kind).pruned := by
  rw [Language.remainder, List.foldl_append]
  rfl

/-- What is left when what has no words is left out after each symbol has no more parts, but for the
language itself. -/
theorem size_remainder_le {m : Nat} (small : ∀ w : List (Symbol L), (lang.after w).pruned.size ≤ m)
    (symbols : List (Symbol L)) : (lang.remainder symbols).size ≤ max lang.size m := by
  rcases symbols.eq_nil_or_concat' with rfl | ⟨w, s, rfl⟩
  · exact Nat.le_max_left _ _
  · have last : (lang.remainder (w ++ [s])).pruned = lang.remainder (w ++ [s]) := by
      rw [remainder_concat, pruned_pruned]
    rw [← last, pruned_remainder]
    exact (small _).trans (Nat.le_max_right _ _)

theorem yields_repetition {kind : Kind} {w : List (Symbol L)} {i j : Nat} {t : Tree (Symbol L)}
    (yields : (Language.rep (.token kind)).Yields [] w i j t) :
    i ≤ j ∧ t = ((w.drop i).take (j - i)).foldr (fun s rest => (Tree.leaf s).join rest) .nil := by
  generalize whole : Language.rep (.token kind) = lang at yields
  induction yields with
  | rep_nil => exact ⟨Nat.le_refl _, by rw [Nat.sub_self]; rfl⟩
  | @rep_cons body i j k t rest lt first _ _ ih =>
    cases whole
    obtain ⟨le, rfl⟩ := ih rfl
    cases first with
    | token_epsilon => exact (Nat.lt_irrefl _ lt).elim
    | @token _ _ s _ there =>
      obtain ⟨inside, rfl⟩ := List.getElem?_eq_some_iff.mp there
      refine ⟨by omega, ?_⟩
      rw [List.drop_eq_getElem_cons inside, show k - i = (k - (i + 1)) + 1 by omega]
      rfl
  | _ => cases whole

theorem repetition_trees (kind : Kind) : (Language.rep (.token kind)).HasTreesWithin L 1 := by
  intro w trees _ among
  refine Finset.card_le_one.mpr fun t ht t' ht' => ?_
  rw [(yields_repetition (among t ht)).2, (yields_repetition (among t' ht')).2]

variable [DecidableEq L]

/-- What is left after symbols is not tall, where the live graph is bounded. -/
theorem Language.LivesWithin.height_le (lives : lang.LivesWithin L bound) (plain : lang.isPlain)
    (symbols : List (Symbol L)) : (lang.remainder symbols).height ≤ bound := by
  obtain ⟨r, live, ⟨N, after⟩, count, le⟩ := lives symbols
  obtain ⟨r', live', ⟨N', after'⟩, count', tall, -⟩ := live_between plain symbols
  cases (after (max N N') (by omega)).symm.trans (after' (max N N') (by omega))
  cases count.symm.trans count'
  exact tall.trans le

/-- The live graph of a recognizer for a language without rules is bounded exactly if what is left
of the language after symbols, without the parts that have no words, is. So it is if no word has
more than so many trees. -/
theorem live_bounded (plain : lang.isPlain) :
    ((∃ bound, lang.LivesWithin L bound) ↔
      ∃ m, ∀ w : List (Symbol L), (lang.after w).pruned.size ≤ m) ∧
      ∀ k, lang.HasTreesWithin L k → ∃ bound, lang.LivesWithin L bound := by
  have enough (small : ∃ m, ∀ w : List (Symbol L), (lang.after w).pruned.size ≤ m) :
      ∃ bound, lang.LivesWithin L bound := by
    obtain ⟨m, small⟩ := small
    refine ⟨max lang.size m, fun symbols => ?_⟩
    obtain ⟨r, live, after, count, -, le⟩ := live_between plain symbols
    exact ⟨r, live, after, count, le.trans (size_remainder_le small symbols)⟩
  refine ⟨⟨?_, enough⟩, fun k few => enough ?_⟩
  · rintro ⟨bound, lives⟩
    refine ⟨2 ^ bound, fun w => ?_⟩
    calc (lang.after w).pruned.size = (lang.remainder w).pruned.size := by rw [pruned_remainder]
      _ ≤ (lang.remainder w).size := size_pruned_le
      _ ≤ 2 ^ (lang.remainder w).height := Nat.le_of_lt size_lt_of_height
      _ ≤ 2 ^ bound := Nat.pow_le_pow_right Nat.two_pos (lives.height_le plain w)
  · have few (w : List (Symbol L)) (some : w ≠ []) : (lang.trees w).card ≤ k := by
      refine few w _ some fun t member => ?_
      simpa using yields_of_mem_trees [] [] [] member
    rcases isEmpty_or_nonempty L with none | ⟨⟨lexeme⟩⟩
    · refine ⟨lang.pruned.size, fun w => ?_⟩
      cases w with
      | nil => exact Nat.le_refl _
      | cons s => exact (none.false s.lexeme).elim
    · obtain ⟨m, light⟩ := exists_weight_bound lexeme few
      exact ⟨m + 1, fun w => size_pruned_le_weight.trans (Nat.succ_le_succ (light w))⟩

theorem live_bounded_repetition : (Language.rep (.token 2)).isPlain = true ∧
    (Language.rep (.token 2)).HasTreesWithin String 1 ∧
      ∃ bound, (Language.rep (.token 2)).LivesWithin String bound :=
  ⟨rfl, repetition_trees 2, (live_bounded rfl).2 1 (repetition_trees 2)⟩

end Bounded

/-! ## Where it is not -/

/-- Two repetitions of one token in a row: a word can be cut anywhere. -/
def twoStars : Language := .cat (.rep (.token 2)) (.rep (.token 2))

/-- What is left of two repetitions in a row after one symbol and so many more: the first one may go
on, and the second one may have begun at every one of them. -/
def stacked : Nat → Language
  | 0 => .cat (.cat .epsilon (.rep (.token 2))) (.rep (.token 2))
  | n + 1 => .alt (stacked n) (.cat .epsilon (.rep (.token 2)))

theorem stacked_next (n : Nat) : ((stacked n).derivative 2).pruned = stacked (n + 1) := by
  induction n with
  | zero => rfl
  | succ n ih =>
    have alive : ((stacked n).derivative 2).isAlive := by
      rw [← isAlive_pruned, ih]
      exact Bool.or_true _
    rw [stacked, Language.derivative_alt, Language.pruned_alt, if_pos alive, ih]
    rfl

theorem remainder_twoStars (n : Nat) :
    twoStars.remainder (List.replicate (n + 1) (⟨2, "a"⟩ : Symbol String)) = stacked (n + 1) := by
  induction n with
  | zero => rfl
  | succ n ih => rw [List.replicate_succ', remainder_concat, ih, stacked_next]

theorem lt_height_stacked (n : Nat) : n < (stacked n).height := by
  induction n with
  | zero => exact Nat.succ_pos _
  | succ n ih =>
    rw [stacked, Language.height_alt]
    exact Nat.succ_lt_succ (ih.trans_le (Nat.le_max_left _ _))

/-- Every symbol leaves one more alternative, and all of them are kept. -/
theorem live_unbounded_twoStars : ¬∃ bound, twoStars.LivesWithin String bound := by
  rintro ⟨bound, lives⟩
  have le := lives.height_le rfl (List.replicate (bound + 1) ⟨2, "a"⟩)
  rw [remainder_twoStars] at le
  have lt := lt_height_stacked (bound + 1)
  omega

end DerivativeParsing
