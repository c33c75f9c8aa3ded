import DerivativeParsing.Language

/-!
# What a language derives

The meaning of a language is the set of words of kinds that it derives, given the rules that its
names refer to. `Language.Derives` is the least relation with the usual clauses: a name derives what
the language of a rule of that name derives, a repetition derives any number of words in a row.
-/

namespace DerivativeParsing

/-- A word: the kinds of the symbols of an input. -/
abbrev Word := List Kind

namespace Language

/-- The words of a language, given a list of rules. -/
inductive Derives (rules : List (String × Language)) : Language → Word → Prop
  | epsilon : Derives rules epsilon []
  | token_epsilon : Derives rules (token Kind.epsilon) []
  | token {kind : Kind} : kind.isTerminal → Derives rules (token kind) [kind]
  | alt_left {left right : Language} {w : Word} :
    Derives rules left w → Derives rules (alt left right) w
  | alt_right {left right : Language} {w : Word} :
    Derives rules right w → Derives rules (alt left right) w
  | cat {left right : Language} {v w : Word} :
    Derives rules left v → Derives rules right w → Derives rules (cat left right) (v ++ w)
  | rep_nil {body : Language} : Derives rules (rep body) []
  | rep_cons {body : Language} {v w : Word} :
    Derives rules body v → Derives rules (rep body) w → Derives rules (rep body) (v ++ w)
  | rule {name : String} {lang : Language} {w : Word} :
    (name, lang) ∈ rules → Derives rules lang w → Derives rules (rule name) w

/-- Whether a language refers to no rule. -/
def isPlain : Language → Bool
  | epsilon | token _ => true
  | alt left right | cat left right => left.isPlain && right.isPlain
  | rep body => body.isPlain
  | rule _ => false

/-- The names that a language refers to, from left to right. -/
def references : Language → List String
  | epsilon | token _ => []
  | alt left right | cat left right => left.references ++ right.references
  | rep body => body.references
  | rule name => [name]

theorem references_of_isPlain {lang : Language} (plain : lang.isPlain) : lang.references = [] := by
  induction lang with
  | epsilon | token => rfl
  | alt left right ihl ihr | cat left right ihl ihr =>
    obtain ⟨plainl, plainr⟩ := (Bool.and_eq_true _ _).mp plain
    rw [references, ihl plainl, ihr plainr, List.append_nil]
  | rep body ih => exact ih plain
  | rule => cases plain

variable {rules : List (String × Language)} {left right : Language} {w : Word}

theorem derives_epsilon : Derives rules epsilon w ↔ w = [] :=
  ⟨fun h => by cases h; rfl, fun h => h ▸ .epsilon⟩

theorem derives_token {kind : Kind} :
    Derives rules (token kind) w ↔
      kind = Kind.epsilon ∧ w = [] ∨ kind.isTerminal = true ∧ w = [kind] := by
  constructor
  · intro h
    cases h with
    | token_epsilon => exact .inl ⟨rfl, rfl⟩
    | token terminal => exact .inr ⟨terminal, rfl⟩
  · rintro (⟨rfl, rfl⟩ | ⟨terminal, rfl⟩)
    · exact .token_epsilon
    · exact .token terminal

theorem derives_alt :
    Derives rules (alt left right) w ↔ Derives rules left w ∨ Derives rules right w := by
  constructor
  · intro h
    cases h with
    | alt_left h => exact .inl h
    | alt_right h => exact .inr h
  · exact Or.rec .alt_left .alt_right

theorem derives_cat :
    Derives rules (cat left right) w ↔
      ∃ u v, w = u ++ v ∧ Derives rules left u ∧ Derives rules right v := by
  constructor
  · intro h
    cases h with
    | cat hl hr => exact ⟨_, _, rfl, hl, hr⟩
  · rintro ⟨u, v, rfl, hl, hr⟩
    exact .cat hl hr

theorem derives_rule {name : String} :
    Derives rules (rule name) w ↔ ∃ lang, (name, lang) ∈ rules ∧ Derives rules lang w := by
  constructor
  · intro h
    cases h with
    | rule member h => exact ⟨_, member, h⟩
  · rintro ⟨lang, member, h⟩
    exact .rule member h

end Language

end DerivativeParsing
