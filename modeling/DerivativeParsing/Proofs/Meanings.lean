import DerivativeParsing.Language.Derives
import DerivativeParsing.Proofs.Completeness

/-!
# What a description stands for

1. `Language.DerivesIn` counts how many rules are nested in a derivation; `exists_derivesIn` says
   that otherwise it is `Language.Derives`.
2. `Language.Leads` are the rules that a question about the empty word may come to first, and
   `Language.StandsAlone` those beside which everything can be empty. `Language.links` collects them
   for a list of rules.
3. `Language.meaning` is what the graph of a language will stand for.
-/

namespace DerivativeParsing

namespace Language

variable {rules : List (String × Language)} {lang left right body : Language} {w : Word} {m n : Nat}
  {name : String}

/-! ## Derivations with ranks -/

/-- The words of a language that are derived with at most so many rules nested. -/
inductive DerivesIn (rules : List (String × Language)) : Language → Nat → Word → Prop
  | epsilon {n : Nat} : DerivesIn rules epsilon n []
  | token_epsilon {n : Nat} : DerivesIn rules (token Kind.epsilon) n []
  | token {kind : Kind} {n : Nat} : kind.isTerminal → DerivesIn rules (token kind) n [kind]
  | alt_left {left right : Language} {n : Nat} {w : Word} :
    DerivesIn rules left n w → DerivesIn rules (alt left right) n w
  | alt_right {left right : Language} {n : Nat} {w : Word} :
    DerivesIn rules right n w → DerivesIn rules (alt left right) n w
  | cat {left right : Language} {n : Nat} {v w : Word} :
    DerivesIn rules left n v → DerivesIn rules right n w →
      DerivesIn rules (cat left right) n (v ++ w)
  | rep_nil {body : Language} {n : Nat} : DerivesIn rules (rep body) n []
  | rep_cons {body : Language} {n : Nat} {v w : Word} :
    DerivesIn rules body n v → DerivesIn rules (rep body) n w →
      DerivesIn rules (rep body) n (v ++ w)
  | rule {name : String} {lang : Language} {m n : Nat} {w : Word} :
    (name, lang) ∈ rules → m < n → DerivesIn rules lang m w → DerivesIn rules (rule name) n w

theorem DerivesIn.derives (h : DerivesIn rules lang n w) : Derives rules lang w := by
  induction h with
  | epsilon => exact .epsilon
  | token_epsilon => exact .token_epsilon
  | token terminal => exact .token terminal
  | alt_left _ ih => exact .alt_left ih
  | alt_right _ ih => exact .alt_right ih
  | cat _ _ ihl ihr => exact .cat ihl ihr
  | rep_nil => exact .rep_nil
  | rep_cons _ _ ihb ihr => exact .rep_cons ihb ihr
  | rule member _ _ ih => exact .rule member ih

theorem DerivesIn.mono (h : DerivesIn rules lang m w) (le : m ≤ n) : DerivesIn rules lang n w := by
  induction h generalizing n with
  | epsilon => exact .epsilon
  | token_epsilon => exact .token_epsilon
  | token terminal => exact .token terminal
  | alt_left _ ih => exact .alt_left (ih le)
  | alt_right _ ih => exact .alt_right (ih le)
  | cat _ _ ihl ihr => exact .cat (ihl le) (ihr le)
  | rep_nil => exact .rep_nil
  | rep_cons _ _ ihb ihr => exact .rep_cons (ihb le) (ihr le)
  | rule member lt h => exact .rule member (Nat.lt_of_lt_of_le lt le) h

/-- Every derivation nests only so many rules. -/
theorem exists_derivesIn : (∃ n, DerivesIn rules lang n w) ↔ Derives rules lang w := by
  refine ⟨fun ⟨n, h⟩ => h.derives, fun h => ?_⟩
  induction h with
  | epsilon => exact ⟨0, .epsilon⟩
  | token_epsilon => exact ⟨0, .token_epsilon⟩
  | token terminal => exact ⟨0, .token terminal⟩
  | alt_left _ ih =>
    obtain ⟨n, h⟩ := ih
    exact ⟨n, .alt_left h⟩
  | alt_right _ ih =>
    obtain ⟨n, h⟩ := ih
    exact ⟨n, .alt_right h⟩
  | cat _ _ ihl ihr =>
    obtain ⟨i, hl⟩ := ihl
    obtain ⟨j, hr⟩ := ihr
    exact ⟨max i j, .cat (hl.mono (Nat.le_max_left i j)) (hr.mono (Nat.le_max_right i j))⟩
  | rep_nil => exact ⟨0, .rep_nil⟩
  | rep_cons _ _ ihb ihr =>
    obtain ⟨i, hb⟩ := ihb
    obtain ⟨j, hr⟩ := ihr
    exact ⟨max i j, .rep_cons (hb.mono (Nat.le_max_left i j)) (hr.mono (Nat.le_max_right i j))⟩
  | rule member _ ih =>
    obtain ⟨n, h⟩ := ih
    exact ⟨n + 1, .rule member (Nat.lt_succ_self n) h⟩

/-- A word of a repetition is empty, or its first item consumes something. -/
theorem DerivesIn.first_item (h : DerivesIn rules (rep body) n w) :
    w = [] ∨ ∃ c u v, w = c :: u ++ v ∧ DerivesIn rules body n (c :: u) ∧
      DerivesIn rules (rep body) n v := by
  generalize whole : rep body = lang at h
  induction h with
  | rep_nil => exact .inl rfl
  | @rep_cons _ _ v w hb hr _ ihr =>
    cases whole
    cases v with
    | nil => exact ihr rfl
    | cons c u => exact .inr ⟨c, u, w, rfl, hb, hr⟩
  | _ => cases whole

/-! ## Which rules are asked -/

/-- The rules that may be asked first whether they derive the empty word. -/
def Leads (rules : List (String × Language)) : Language → String → Prop
  | epsilon, _ | token _, _ => False
  | alt left right, x => left.Leads rules x ∨ right.Leads rules x
  | cat left right, x => left.Leads rules x ∨ Derives rules left [] ∧ right.Leads rules x
  | rep body, x => body.Leads rules x
  | rule name, x => x = name

/-- The rules that a language may consist of, everything beside them being empty. -/
def StandsAlone (rules : List (String × Language)) : Language → String → Prop
  | epsilon, _ | token _, _ => False
  | alt left right, x => left.StandsAlone rules x ∨ right.StandsAlone rules x
  | cat left right, x => left.StandsAlone rules x ∧ Derives rules right [] ∨
      Derives rules left [] ∧ right.StandsAlone rules x
  | rep body, x => body.StandsAlone rules x
  | rule name, x => x = name

/-- How the rules of a list lead to one another, and stand alone in one another. -/
def links (rules : List (String × Language)) : Links where
  leads name x := ∃ lang, (name, lang) ∈ rules ∧ lang.Leads rules x
  alone name x := ∃ lang, (name, lang) ∈ rules ∧ lang.StandsAlone rules x

theorem not_entangled_nil : ¬(links []).Entangled := by
  rintro ⟨_, _, -, _, member, -⟩
  cases member

/-! ## Meanings -/

def meaning (rules : List (String × Language)) (lang : Language) : Meaning where
  words := DerivesIn rules lang
  trace := []
  heads := lang.Leads rules
  alone := lang.StandsAlone rules

theorem meaning_holds : (lang.meaning rules).words.Holds w ↔ Derives rules lang w :=
  exists_derivesIn

theorem meaning_nullable : (lang.meaning rules).words.Nullable ↔ Derives rules lang [] :=
  exists_derivesIn

theorem left_refines : (left.meaning rules).Refines ((alt left right).meaning rules) :=
  ⟨fun _ ⟨n, h⟩ => ⟨n, .alt_left h⟩, List.nil_prefix, fun _ => ⟨fun _ => .inl, fun _ => .inl⟩⟩

theorem right_refines : (right.meaning rules).Refines ((alt left right).meaning rules) :=
  ⟨fun _ ⟨n, h⟩ => ⟨n, .alt_right h⟩, List.nil_prefix, fun _ => ⟨fun _ => .inr, fun _ => .inr⟩⟩

theorem joins :
    (left.meaning rules).Joins (right.meaning rules) ((cat left right).meaning rules) where
  words _ _ hu hv := meaning_holds.mpr (.cat (meaning_holds.mp hu) (meaning_holds.mp hv))
  left := List.nil_prefix
  right := rfl
  heads_left _ _ := .inl
  heads_right _ null _ hx := .inr ⟨meaning_nullable.mp null, hx⟩
  alone_left _ null _ hx := .inl ⟨hx, meaning_nullable.mp null⟩
  alone_right _ null _ hx := .inr ⟨meaning_nullable.mp null, hx⟩

theorem repeats : (body.meaning rules).Repeats ((rep body).meaning rules) where
  nil := meaning_nullable.mpr .rep_nil
  words _ _ hu hv := meaning_holds.mpr (.rep_cons (meaning_holds.mp hu) (meaning_holds.mp hv))
  trace := rfl
  body := ⟨List.nil_prefix, fun _ => ⟨fun _ h => h, fun _ h => h⟩⟩

theorem names (member : (name, lang) ∈ rules) :
    (lang.meaning rules).Names (links rules) name ((rule name).meaning rules) where
  words _ h := meaning_holds.mpr (.rule member (meaning_holds.mp h))
  trace := List.nil_prefix
  head := rfl
  alone := rfl
  heads_body _ _ hx := ⟨lang, member, hx⟩
  alone_body _ _ hx := ⟨lang, member, hx⟩

end Language

end DerivativeParsing
