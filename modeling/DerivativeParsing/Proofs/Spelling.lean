import DerivativeParsing.Language.Derives

/-!
# The text of a language

The text of a sequence is the texts of its parts, one after the other, so that it does not show how
the sequence is grouped. Everything else can be read off it.

1. `Language.Regrouped`: two languages differ at most in how sequences are grouped.
   `Language.parts`: the parts of a sequence; `regrouped_iff`: they are what regrouping leaves.
2. `Reader`: a reader that goes through a text once, from left to right, with a stack of the choices
   that are open.
3. `legible`: having read the text of a language, it has found the parts of the language and nothing
   else.
4. `text_eq_iff`: so languages with the same text differ at most in the grouping of sequences.
-/

namespace DerivativeParsing

namespace Language

variable {a b c d : Language}

/-! ## Grouping -/

/-- Languages that differ at most in how sequences are grouped, at any depth. -/
inductive Regrouped : Language → Language → Prop
  | refl (a : Language) : Regrouped a a
  | symm {a b : Language} : Regrouped a b → Regrouped b a
  | trans {a b c : Language} : Regrouped a b → Regrouped b c → Regrouped a c
  | assoc (a b c : Language) : Regrouped (cat (cat a b) c) (cat a (cat b c))
  | alt {a a' b b' : Language} : Regrouped a a' → Regrouped b b' → Regrouped (alt a b) (alt a' b')
  | cat {a a' b b' : Language} : Regrouped a a' → Regrouped b b' → Regrouped (cat a b) (cat a' b')
  | rep {a a' : Language} : Regrouped a a' → Regrouped (rep a) (rep a')

/-- The parts of a sequence, which are no sequences. Inside them every sequence is nested to the
right. -/
def parts : Language → List Language
  | cat left right => left.parts ++ right.parts
  | alt left right => [alt (cats left.parts) (cats right.parts)]
  | rep body => [rep (cats body.parts)]
  | epsilon => [epsilon]
  | token kind => [token kind]
  | rule name => [rule name]

@[simp] theorem parts_cat : (cat a b).parts = a.parts ++ b.parts := rfl
@[simp] theorem parts_alt : (alt a b).parts = [alt (cats a.parts) (cats b.parts)] := rfl
@[simp] theorem parts_rep : (rep a).parts = [rep (cats a.parts)] := rfl

theorem parts_ne_nil (a : Language) : a.parts ≠ [] := by
  induction a with
  | cat left right ihl => exact List.append_ne_nil_of_left_ne_nil ihl _
  | _ => exact List.cons_ne_nil _ _

theorem cats_cons (x : Language) {xs : List Language} (some : xs ≠ []) :
    cats (x :: xs) = cat x (cats xs) := by
  cases xs with
  | nil => exact absurd rfl some
  | cons => rfl

theorem alts_cons (x : Language) {xs : List Language} (some : xs ≠ []) :
    alts (x :: xs) = alt x (alts xs) := by
  cases xs with
  | nil => exact absurd rfl some
  | cons => rfl

/-- Two sequences in a row are a sequence of the parts of both. -/
theorem regrouped_cats_append {xs ys : List Language} (left : xs ≠ []) (right : ys ≠ []) :
    Regrouped (cat (cats xs) (cats ys)) (cats (xs ++ ys)) := by
  induction xs with
  | nil => exact absurd rfl left
  | cons x xs ih =>
    by_cases last : xs = []
    · subst last
      rw [List.singleton_append, cats_cons x right]
      exact .refl _
    · rw [List.cons_append, cats_cons x last,
        cats_cons x (List.append_ne_nil_of_left_ne_nil last ys)]
      exact .trans (.assoc _ _ _) (.cat (.refl x) (ih last))

theorem regrouped_parts (a : Language) : Regrouped a (cats a.parts) := by
  induction a with
  | epsilon | token | rule => exact .refl _
  | alt left right ihl ihr => exact .alt ihl ihr
  | cat left right ihl ihr =>
    exact .trans (.cat ihl ihr) (regrouped_cats_append left.parts_ne_nil right.parts_ne_nil)
  | rep body ih => exact .rep ih

/-- Grouping does not change the parts, and nothing else leaves them as they are. -/
theorem regrouped_iff : a.Regrouped b ↔ a.parts = b.parts := by
  constructor
  · intro h
    induction h with
    | refl => rfl
    | symm _ ih => exact ih.symm
    | trans _ _ ih ih' => exact ih.trans ih'
    | assoc a b c => exact List.append_assoc _ _ _
    | alt _ _ ihl ihr => rw [parts_alt, parts_alt, ihl, ihr]
    | cat _ _ ihl ihr => rw [parts_cat, parts_cat, ihl, ihr]
    | rep _ ih => rw [parts_rep, parts_rep, ih]
  · intro same
    have left := regrouped_parts a
    rw [same] at left
    exact left.trans (regrouped_parts b).symm

/-- Grouping keeps the alternatives of a choice apart. -/
theorem regrouped_alt : (alt a b).Regrouped (alt c d) ↔ a.Regrouped c ∧ b.Regrouped d := by
  constructor
  · intro h
    have same := regrouped_iff.mp h
    rw [parts_alt, parts_alt, List.cons.injEq, alt.injEq] at same
    obtain ⟨⟨left, right⟩, -⟩ := same
    refine ⟨(regrouped_parts a).trans ?_, (regrouped_parts b).trans ?_⟩
    · rw [left]
      exact (regrouped_parts c).symm
    · rw [right]
      exact (regrouped_parts d).symm
  · intro h
    exact .alt h.1 h.2

/-- A sequence has several parts, so that it is not regrouped to what has one. -/
theorem not_regrouped_cat {x : Language} (single : a.parts = [x]) : ¬ a.Regrouped (cat c d) := by
  intro h
  have same := congrArg List.length (single.symm.trans (regrouped_iff.mp h))
  have left := List.length_pos_iff.mpr c.parts_ne_nil
  have right := List.length_pos_iff.mpr d.parts_ne_nil
  rw [parts_cat, List.length_append, List.length_singleton] at same
  omega

theorem Regrouped.sizeOf_eq (same : a.Regrouped b) : sizeOf a = sizeOf b := by
  induction same with
  | refl => rfl
  | symm _ ih => exact ih.symm
  | trans _ _ ih ih' => exact ih.trans ih'
  | assoc => simp only [cat.sizeOf_spec]; omega
  | alt _ _ ihl ihr => simp only [alt.sizeOf_spec, ihl, ihr]
  | cat _ _ ihl ihr => simp only [cat.sizeOf_spec, ihl, ihr]
  | rep _ ih => simp only [rep.sizeOf_spec, ih]

/-- A choice is nested to the left or to the right, whatever its alternatives are. -/
theorem not_regrouped_nested (a b c : Language) :
    ¬ (alt (alt a b) c).Regrouped (alt a (alt b c)) := by
  intro h
  have size := (regrouped_alt.mp h).1.sizeOf_eq
  rw [alt.sizeOf_spec] at size
  omega

/-- A choice at the end of the alternatives adds its own. -/
theorem alts_append_alt (before : List Language) (a b : Language) :
    alts (before ++ [alt a b]) = alts (before ++ [a, b]) := by
  induction before with
  | nil => rfl
  | cons x before ih =>
    rw [List.cons_append, List.cons_append, alts_cons x (by simp), alts_cons x (by simp), ih]

end Language

/-! ## Reading -/

/-- A choice that is being read. -/
structure Choice where
  /-- The alternatives that are complete. -/
  before : List Language := []
  /-- The parts of the alternative that is being read, the last one first. -/
  parts : List Language := []

namespace Choice

/-- The alternative that is being read, as far as it was. -/
def alternative (c : Choice) : Language := .cats c.parts.reverse

/-- The language of a choice that ends here. One alternative is no choice. -/
def close (c : Choice) : Language := .alts (c.before ++ [c.alternative])

def extend (c : Choice) (parts : List Language) : Choice :=
  { c with parts := parts.reverse ++ c.parts }

end Choice

/-- How far a text was read. -/
structure Reader where
  /-- The innermost choice that is open. -/
  choice : Choice := {}
  /-- The choices around it, the innermost first. -/
  around : List Choice := []
  /-- The number that the digits so far are. -/
  number : Nat := 0

namespace Reader

/-- Adds a part to the alternative that is being read. -/
def add (r : Reader) (part : Language) : Reader := { r with choice := r.choice.extend [part] }

def read (r : Reader) : Char → Reader
  | 'ε' => r.add .epsilon
  | '<' => r
  | '>' => { r.add (.token r.number) with number := 0 }
  | '(' => { r with choice := {}, around := r.choice :: r.around }
  | '|' => { r with choice := { before := r.choice.before ++ [r.choice.alternative] } }
  | ')' =>
    match r.around with
    | [] => r
    | outer :: around => { r with choice := outer.extend [r.choice.close], around }
  | '*' =>
    match r.choice.parts with
    | [] => r
    | last :: parts => { r with choice := { r.choice with parts := .rep last :: parts } }
  | digit => { r with number := 10 * r.number + (digit.toNat - '0'.toNat) }

def readAll (r : Reader) (text : String) : Reader := text.toList.foldl read r

theorem readAll_append (r : Reader) (s t : String) :
    r.readAll (s ++ t) = (r.readAll s).readAll t := by
  rw [readAll, String.toList_append, List.foldl_append]
  rfl

theorem read_digit {r : Reader} {c : Char} (digit : c.isDigit) :
    r.read c = { r with number := 10 * r.number + (c.toNat - '0'.toNat) } := by
  unfold read
  split
  case h_8 => rfl
  all_goals cases digit

/-- The digits of a number are read as the number. -/
theorem readAll_toString (choice : Choice) (around : List Choice) (n : Nat) :
    readAll ⟨choice, around, 0⟩ (toString n) = ⟨choice, around, n⟩ := by
  have digits {cs : List Char} (all : ∀ c ∈ cs, c.isDigit) (m : Nat) :
      cs.foldl read ⟨choice, around, m⟩ = ⟨choice, around, Nat.ofDigitChars 10 cs m⟩ := by
    induction cs generalizing m with
    | nil => rfl
    | cons c cs ih =>
      rw [List.foldl_cons, read_digit (all c (.head _)), ih fun c member => all c (.tail _ member),
        Nat.ofDigitChars_cons]
  have all (c : Char) (member : c ∈ Nat.toDigits 10 n) : c.isDigit :=
    Nat.isDigit_of_mem_toDigits (by decide) (by decide) member
  show List.foldl read _ n.repr.toList = _
  rw [Nat.toList_repr, digits all, Nat.ofDigitChars_ten_toDigits]

end Reader

/-! ## Texts are legible -/

namespace Language

open Reader (readAll readAll_append readAll_toString)

variable {lang left right body a b c d : Language}

theorem write_token (kind : Kind) (inChoice : Bool) :
    (token kind).write inChoice = "<" ++ toString kind ++ ">" := rfl

theorem write_cat (inChoice : Bool) : (cat a b).write inChoice = a.write false ++ b.write false :=
  rfl

theorem write_rep (inChoice : Bool) : (rep a).write inChoice = "(" ++ a.write false ++ ")*" := rfl

/-- A choice that ends a choice adds its alternatives. -/
theorem write_alt_inside : (alt a b).write true = a.write false ++ "|" ++ b.write true := rfl

/-- Any other stands between marks of its own. -/
theorem write_alt_outside : (alt a b).write false = "(" ++ (alt a b).write true ++ ")" := rfl

/-- In the text of a language the reader finds the parts of the language. -/
def Legible (lang : Language) : Prop :=
  ∀ choice around, readAll ⟨choice, around, 0⟩ (lang.write false) =
    ⟨choice.extend lang.parts, around, 0⟩

/-- In the text of a language that ends a choice the reader finds the language, or, where that is a
choice, all its alternatives. -/
def Listed (lang : Language) : Prop :=
  ∀ before around, ∃ choice, readAll ⟨{ before }, around, 0⟩ (lang.write true) =
    ⟨choice, around, 0⟩ ∧ choice.close = alts (before ++ [cats lang.parts])

/-- A language that is no choice is its only alternative. -/
theorem Legible.listed (h : lang.Legible) (same : lang.write true = lang.write false) :
    lang.Listed := by
  intro before around
  refine ⟨_, (congrArg _ same).trans (h _ around), ?_⟩
  simp [Choice.close, Choice.alternative, Choice.extend]

theorem legible_token (kind : Kind) : (token kind).Legible := by
  intro choice around
  rw [write_token, readAll_append, readAll_append]
  show readAll (readAll ⟨choice, around, 0⟩ (toString kind)) ">" = _
  rw [readAll_toString]
  rfl

theorem listed_alt (hl : left.Legible) (hr : right.Listed) : (alt left right).Listed := by
  intro before around
  obtain ⟨choice, reads, closes⟩ := hr (before ++ [cats left.parts]) around
  refine ⟨choice, ?_, ?_⟩
  · rw [write_alt_inside, readAll_append, readAll_append, hl, ← reads]
    show readAll ⟨{ before := before ++ [Choice.alternative _] }, around, 0⟩ _ = _
    simp [Choice.alternative, Choice.extend]
  · rw [closes, List.append_assoc]
    exact (alts_append_alt before _ _).symm

/-- The alternatives of a choice stand between marks of their own. -/
theorem legible_alt (listed : (alt left right).Listed) : (alt left right).Legible := by
  intro choice around
  obtain ⟨inner, reads, closes⟩ := listed [] (choice :: around)
  rw [write_alt_outside, readAll_append, readAll_append]
  show readAll (readAll ⟨{}, choice :: around, 0⟩ _) ")" = _
  rw [reads]
  show Reader.mk (choice.extend [inner.close]) around 0 = _
  rw [closes]
  rfl

theorem legible_cat (hl : left.Legible) (hr : right.Legible) : (cat left right).Legible := by
  intro choice around
  rw [write_cat, readAll_append, hl, hr]
  simp [Choice.extend]

theorem legible_rep (h : body.Legible) : (rep body).Legible := by
  intro choice around
  rw [write_rep, readAll_append, readAll_append]
  show readAll (readAll ⟨{}, choice :: around, 0⟩ _) ")*" = _
  rw [h]
  show Reader.mk { choice with parts := rep (Choice.close _) :: choice.parts } around 0 = _
  simp [Choice.close, Choice.alternative, Choice.extend, alts]

/-- The text of every language without rules is legible. A name could be any text. -/
theorem legible (plain : lang.isPlain) : lang.Legible ∧ lang.Listed := by
  have alone {lang : Language} (h : lang.Legible) (same : lang.write true = lang.write false) :
      lang.Legible ∧ lang.Listed := ⟨h, h.listed same⟩
  induction lang with
  | epsilon => exact alone (fun _ _ => rfl) rfl
  | token kind => exact alone (legible_token kind) rfl
  | alt left right ihl ihr =>
    obtain ⟨plainl, plainr⟩ := (Bool.and_eq_true _ _).mp plain
    have listed := listed_alt (ihl plainl).1 (ihr plainr).2
    exact ⟨legible_alt listed, listed⟩
  | cat left right ihl ihr =>
    obtain ⟨plainl, plainr⟩ := (Bool.and_eq_true _ _).mp plain
    exact alone (legible_cat (ihl plainl).1 (ihr plainr).1) rfl
  | rep body ih => exact alone (legible_rep (ih plain).1) rfl
  | rule name => cases plain

/-! ## What a text shows -/

/-- The marks around a choice show where it ends, and nothing shows how a sequence is grouped. -/
theorem Regrouped.write_eq (same : a.Regrouped b) (inChoice : Bool) :
    a.write inChoice = b.write inChoice := by
  induction same generalizing inChoice with
  | refl => rfl
  | symm _ ih => exact (ih inChoice).symm
  | trans _ _ ih ih' => exact (ih inChoice).trans (ih' inChoice)
  | assoc a b c => exact String.append_assoc
  | alt _ _ ihl ihr =>
    cases inChoice with
    | true => rw [write_alt_inside, write_alt_inside, ihl, ihr]
    | false =>
      rw [write_alt_outside, write_alt_outside, write_alt_inside, write_alt_inside, ihl, ihr]
  | cat _ _ ihl ihr => rw [write_cat, write_cat, ihl, ihr]
  | rep _ ih => rw [write_rep, write_rep, ih]

/-- What a text shows is the language up to the grouping of sequences. -/
theorem regrouped_of_text_eq (plaina : a.isPlain) (plainb : b.isPlain) (same : a.text = b.text) :
    a.Regrouped b := by
  have reads : readAll {} a.text = readAll {} b.text := by rw [same]
  unfold text at reads
  rw [(legible plaina).1 {} [], (legible plainb).1 {} []] at reads
  rw [regrouped_iff]
  simpa [Choice.extend] using reads

/-- Languages without rules have the same text exactly if they differ at most in the grouping of
sequences. So the text of a choice shows how the choice is nested, and the text of a choice, of a
repetition and of a sequence are never the same. -/
theorem text_eq_iff (plaina : a.isPlain) (plainb : b.isPlain) (plainc : c.isPlain)
    (plaind : d.isPlain) :
    (a.text = b.text ↔ a.Regrouped b) ∧
    (alt (alt a b) c).text ≠ (alt a (alt b c)).text ∧
    (alt a b).text ≠ (rep c).text ∧
    (alt a b).text ≠ (cat c d).text ∧
    (rep a).text ≠ (cat c d).text := by
  have alt_plain {x y : Language} (plainx : x.isPlain) (plainy : y.isPlain) : (alt x y).isPlain :=
    (Bool.and_eq_true _ _).mpr ⟨plainx, plainy⟩
  have sequence : (cat c d).isPlain := (Bool.and_eq_true _ _).mpr ⟨plainc, plaind⟩
  have choice := alt_plain plaina plainb
  refine ⟨⟨regrouped_of_text_eq plaina plainb, fun same => same.write_eq false⟩, ?_, ?_, ?_, ?_⟩ <;>
    intro same
  · apply not_regrouped_nested a b c
    exact regrouped_of_text_eq (alt_plain choice plainc)
      (alt_plain plaina (alt_plain plainb plainc)) same
  · have h := regrouped_iff.mp (regrouped_of_text_eq choice (b := rep c) plainc same)
    simp at h
  · exact not_regrouped_cat rfl (regrouped_of_text_eq choice sequence same)
  · exact not_regrouped_cat rfl (regrouped_of_text_eq (a := rep a) plaina sequence same)

/-- A choice of two sequences, which are grouped in both ways. -/
theorem text_eq_iff_nested :
    (alt (cat (cat epsilon (token 2)) (rep epsilon)) (token 3)).text =
      (alt (cat epsilon (cat (token 2) (rep epsilon))) (token 3)).text :=
  ((text_eq_iff (c := epsilon) (d := epsilon) (by decide) (by decide) (by decide)
    (by decide)).1).mpr
    (.alt (.assoc _ _ _) (.refl _))

end Language

end DerivativeParsing
