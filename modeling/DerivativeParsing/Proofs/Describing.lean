import DerivativeParsing.Proofs.Bookkeeping
import DerivativeParsing.Proofs.Grounded
import DerivativeParsing.Proofs.Operations

/-!
# What a description says

A description follows the graph and stops at the nonterminals that have come up before.

1. `Description.pieces`: a text, cut where nonterminals are named.
2. `Grammar.Describes`: what a description says of a node is so in the graph.
3. `Once`: from left to right, a nonterminal is opened exactly when it has not come up before.
4. `describeNode_tells`: both hold of what describing a node answers.
5. `Describes.opened_iff`: so what is opened is what can be reached.
6. `displayed_once`: after any operations every node has such a description.
-/

namespace DerivativeParsing

/-! ## Texts in pieces -/

/-- A piece of the text of a node. -/
inductive Piece
  | mark (content : String)
  /-- A nonterminal is named, and opened or not. -/
  | named (name : String) (id : NodeId) (opens : Bool)

namespace Piece

def text : Piece → String
  | mark content => content
  | named name id opens =>
    if opens then "[" ++ name ++ "#" ++ toString id ++ ": " else name ++ "#" ++ toString id

/-- The nonterminal that is named, and whether it is opened. -/
def nonterminal? : Piece → Option (NodeId × Bool)
  | mark _ => none
  | named _ id opens => some (id, opens)

/-- Which nonterminals come up can be read off the pieces. -/
theorem mem_filterMap_nonterminal? {pieces : List Piece} {id : NodeId} {opens : Bool} :
    (id, opens) ∈ pieces.filterMap nonterminal? ↔ ∃ name, .named name id opens ∈ pieces := by
  rw [List.mem_filterMap]
  constructor
  · rintro ⟨piece, member, eq⟩
    cases piece with
    | mark => cases eq
    | named name =>
      cases eq
      exact ⟨name, member⟩
  · rintro ⟨name, member⟩
    exact ⟨_, member, rfl⟩

end Piece

namespace Description

variable {L : Type} [Lexeme L]

def pieces : Description L → List Piece
  | alt left right => [.mark "("] ++ left.pieces ++ [.mark " | "] ++ right.pieces ++ [.mark ")"]
  | cat left right => [.mark "("] ++ left.pieces ++ [.mark " "] ++ right.pieces ++ [.mark ")"]
  | rep body => [.mark "(* "] ++ body.pieces ++ [.mark ")"]
  | opened name id body => [.named name id true] ++ body.pieces ++ [.mark "]"]
  | again name id => [.named name id false]
  | delayed kind base => [.mark ("(D" ++ toString kind ++ " ")] ++ base.pieces ++ [.mark ")"]
  | empty => [.mark (empty (L := L)).text]
  | token kind => [.mark (token (L := L) kind).text]
  | matched symbol => [.mark (matched symbol).text]
  | undefined name => [.mark (undefined (L := L) name).text]

theorem text_eq_join (d : Description L) : d.text = String.join (d.pieces.map Piece.text) := by
  induction d with
  | empty | token | matched | undefined | again => simp [pieces, text, Piece.text]
  | alt _ _ ihl ihr | cat _ _ ihl ihr =>
    simp [pieces, text, Piece.text, ihl, ihr, String.append_assoc]
  | rep _ ih | opened _ _ _ ih | delayed _ _ ih =>
    simp [pieces, text, Piece.text, ih, String.append_assoc]

theorem nonterminals_eq (d : Description L) :
    d.nonterminals = d.pieces.filterMap Piece.nonterminal? := by
  induction d with
  | empty | token | matched | undefined | again => rfl
  | alt _ _ ihl ihr | cat _ _ ihl ihr =>
    simp [pieces, nonterminals, Piece.nonterminal?, List.filterMap_cons, ihl, ihr]
  | rep _ ih | opened _ _ _ ih | delayed _ _ ih =>
    simp [pieces, nonterminals, Piece.nonterminal?, List.filterMap_cons, ih]

end Description

/-! ## Descriptions and graphs -/

/-- What a description says of a node is so. A resolved thunk is described as what it stands for. -/
inductive Grammar.Describes {L : Type} (g : Grammar L) : NodeId → Description L → Prop
  | empty {id : NodeId} : g.arena.get? id = some .empty → Describes g id .empty
  | token {id : NodeId} {kind : Kind} :
    g.arena.get? id = some (.token kind) → Describes g id (.token kind)
  | matched {id : NodeId} {symbol : Symbol L} :
    g.arena.get? id = some (.matched symbol) → Describes g id (.matched symbol)
  | undefined {id : NodeId} {name : String} :
    g.arena.get? id = some (.undefined name) → Describes g id (.undefined name)
  | alt {id left right : NodeId} {l r : Description L} :
    g.arena.get? id = some (.alt left right) → Describes g left l → Describes g right r →
      Describes g id (.alt l r)
  | cat {id left right : NodeId} {l r : Description L} :
    g.arena.get? id = some (.cat left right) → Describes g left l → Describes g right r →
      Describes g id (.cat l r)
  | rep {id body : NodeId} {b : Description L} :
    g.arena.get? id = some (.rep body) → Describes g body b → Describes g id (.rep b)
  | opened {id body : NodeId} {r : Rule} {b : Description L} :
    g.arena.get? id = some (.rule r body) → Describes g body b →
      Describes g id (.opened r.name id b)
  | again {id body : NodeId} {r : Rule} :
    g.arena.get? id = some (.rule r body) → Describes g id (.again r.name id)
  | resolved {id base target : NodeId} {t : Thunk L} {d : Description L} :
    g.arena.get? id = some (.thunk t base) → t.resolved? = some target → Describes g target d →
      Describes g id d
  | dead {id base : NodeId} {t : Thunk L} :
    g.arena.get? id = some (.thunk t base) → t.state = .culled none → Describes g id .empty
  | delayed {id base : NodeId} {t : Thunk L} {b : Description L} :
    g.arena.get? id = some (.thunk t base) → t.state.isWaiting → Describes g base b →
      Describes g id (.delayed t.symbol.kind b)

/-! ## Opening once -/

/-- Read from left to right, after those in `met`, exactly those nonterminals are opened that have
not come up. -/
def Once (met : NodeId → Prop) : List (NodeId × Bool) → Prop
  | [] => True
  | (id, opens) :: rest => (opens = true ↔ ¬met id) ∧ Once (fun x => id = x ∨ met x) rest

section Once

variable {met : NodeId → Prop} {xs ys : List (NodeId × Bool)} {id : NodeId} {opens : Bool}

theorem once_cons :
    Once met ((id, opens) :: xs) ↔
      (opens = true ↔ ¬met id) ∧ Once (fun x => id = x ∨ met x) xs := Iff.rfl

theorem once_append :
    Once met (xs ++ ys) ↔ Once met xs ∧ Once (fun x => met x ∨ ∃ b, (x, b) ∈ xs) ys := by
  induction xs generalizing met with
  | nil =>
    have none : (fun x => met x ∨ ∃ b, (x, b) ∈ ([] : List (NodeId × Bool))) = met := by
      funext x
      simp
    rw [none]
    exact (and_iff_right trivial).symm
  | cons p xs ih =>
    obtain ⟨id, opens⟩ := p
    have same : (fun x => (id = x ∨ met x) ∨ ∃ b, (x, b) ∈ xs) =
        fun x => met x ∨ ∃ b, (x, b) ∈ (id, opens) :: xs := by
      funext x
      simp only [List.mem_cons, Prod.mk.injEq, exists_or, exists_and_left, exists_eq, and_true,
        eq_comm (a := x)]
      rw [or_assoc, propext or_left_comm]
    rw [List.cons_append, once_cons, once_cons, ih, same, and_assoc]

/-- Whether a nonterminal is opened shows whether it came up before. -/
theorem Once.opens_iff {before after : List (NodeId × Bool)}
    (once : Once met (before ++ (id, opens) :: after)) :
    opens = true ↔ ¬met id ∧ ∀ b, (id, b) ∉ before := by
  rw [(once_append.mp once).2.1, not_or, not_exists]

theorem Once.opened (once : Once met xs) (new : ¬met id) (member : (id, opens) ∈ xs) :
    (id, true) ∈ xs := by
  induction xs generalizing met with
  | nil => cases member
  | cons p xs ih =>
    obtain ⟨first, b⟩ := p
    by_cases same : id = first
    · subst same
      rw [once.1.mpr new]
      exact .head _
    · have later : (id, opens) ∈ xs := by
        rcases List.mem_cons.mp member with eq | later
        · cases eq
          exact absurd rfl same
        · exact later
      exact .tail _ (ih once.2 (fun h => h.elim (fun eq => same eq.symm) new) later)

end Once

/-! ## Describing a node -/

section Saying

variable {L : Type} {g : Grammar L} {id : NodeId} {d : Description L}
  {met met' : Std.TreeSet NodeId}

/-- What describing a node answers says what is so, opens what has not come up, and has met what
came up. -/
structure Tells (g : Grammar L) (id : NodeId) (met : Std.TreeSet NodeId) (d : Description L)
    (met' : Std.TreeSet NodeId) : Prop where
  describes : g.Describes id d
  once : Once (fun x => met.contains x) d.nonterminals
  met : ∀ x, met'.contains x ↔ met.contains x ∨ ∃ b, (x, b) ∈ d.nonterminals

theorem Tells.append {left right : NodeId} {l r : Description L} {met₁ : Std.TreeSet NodeId}
    (hl : Tells g left met l met₁) (hr : Tells g right met₁ r met') :
    Once (fun x => met.contains x) (l.nonterminals ++ r.nonterminals) ∧
      ∀ x, met'.contains x ↔ met.contains x ∨ ∃ b, (x, b) ∈ l.nonterminals ++ r.nonterminals := by
  have same : (fun x => met₁.contains x = true) =
      fun x => met.contains x = true ∨ ∃ b, (x, b) ∈ l.nonterminals := by
    funext x
    exact propext (hl.met x)
  refine ⟨once_append.mpr ⟨hl.once, same ▸ hr.once⟩, fun x => ?_⟩
  rw [hr.met, hl.met, or_assoc, ← exists_or]
  simp only [List.mem_append]

theorem Tells.opened {r : Rule} {body : NodeId} {b : Description L}
    (there : g.arena.get? id = some (.rule r body)) (new : ¬met.contains id)
    (h : Tells g body (met.insert id) b met') : Tells g id met (.opened r.name id b) met' := by
  have same : (fun x => (met.insert id).contains x = true) =
      fun x => id = x ∨ met.contains x = true := by
    funext x
    exact propext Grammar.contains_insert_iff
  refine ⟨.opened there h.describes, ⟨iff_of_true rfl new, same ▸ h.once⟩, fun x => ?_⟩
  rw [h.met, Grammar.contains_insert_iff]
  simp only [Description.nonterminals, List.mem_cons, Prod.mk.injEq, exists_or, exists_and_left,
    exists_eq, and_true, eq_comm (a := x)]
  rw [or_assoc, or_left_comm]

theorem Tells.leaf (describes : g.Describes id d) (none : d.nonterminals = []) :
    Tells g id met d met := by
  refine ⟨describes, ?_, fun x => ?_⟩
  · rw [none]
    trivial
  · rw [none]
    simp

/-- What describing a node answers is so. By induction on how deep the calls may nest. -/
theorem describeNode_tells (fuel : Nat) :
    ∀ (id : NodeId) (met met' : Std.TreeSet NodeId) (d : Description L),
    g.describeNode fuel id met = .ok (d, met') → Tells g id met d met' := by
  induction fuel with
  | zero => exact fun _ _ _ _ run => (Action.throw_ok.mp run).elim
  | succ fuel ih =>
    intro id met met' d run
    obtain ⟨node, met₀, looked, run⟩ := Action.bind_ok.mp run
    obtain ⟨found, rfl⟩ := Action.lift_ok.mp looked
    have there := Grammar.lookup_ok.mp found
    cases node with
    | empty =>
      obtain ⟨rfl, rfl⟩ := Action.pure_ok.mp run
      exact .leaf (.empty there) rfl
    | token kind =>
      obtain ⟨rfl, rfl⟩ := Action.pure_ok.mp run
      exact .leaf (.token there) rfl
    | matched symbol =>
      obtain ⟨rfl, rfl⟩ := Action.pure_ok.mp run
      exact .leaf (.matched there) rfl
    | undefined name =>
      obtain ⟨rfl, rfl⟩ := Action.pure_ok.mp run
      exact .leaf (.undefined there) rfl
    | alt left right =>
      obtain ⟨l, met₁, runl, run⟩ := Action.bind_ok.mp run
      obtain ⟨r, met₂, runr, run⟩ := Action.bind_ok.mp run
      obtain ⟨rfl, rfl⟩ := Action.pure_ok.mp run
      have hl := ih left met met₁ l runl
      have hr := ih right met₁ met₂ r runr
      exact ⟨.alt there hl.describes hr.describes, (hl.append hr).1, (hl.append hr).2⟩
    | cat left right =>
      obtain ⟨l, met₁, runl, run⟩ := Action.bind_ok.mp run
      obtain ⟨r, met₂, runr, run⟩ := Action.bind_ok.mp run
      obtain ⟨rfl, rfl⟩ := Action.pure_ok.mp run
      have hl := ih left met met₁ l runl
      have hr := ih right met₁ met₂ r runr
      exact ⟨.cat there hl.describes hr.describes, (hl.append hr).1, (hl.append hr).2⟩
    | rep body =>
      obtain ⟨b, met₁, runb, run⟩ := Action.bind_ok.mp run
      obtain ⟨rfl, rfl⟩ := Action.pure_ok.mp run
      have h := ih body met met₁ b runb
      exact ⟨.rep there h.describes, h.once, h.met⟩
    | rule r body =>
      obtain ⟨_, _, got, run⟩ := Action.bind_ok.mp run
      obtain ⟨rfl, rfl⟩ := Action.get_ok.mp got
      by_cases old : met.contains id = true
      · rw [if_pos old] at run
        obtain ⟨rfl, rfl⟩ := Action.pure_ok.mp run
        refine ⟨.again there,
          ⟨iff_of_false Bool.false_ne_true (not_not_intro old), trivial⟩, fun x => ?_⟩
        refine ⟨.inl, fun h => h.elim (fun seen => seen) fun ⟨b, member⟩ => ?_⟩
        cases List.mem_singleton.mp member
        exact old
      · rw [if_neg old] at run
        obtain ⟨_, met₁, met_id, run⟩ := Action.bind_ok.mp run
        cases Action.modify_ok.mp met_id
        obtain ⟨b, met₂, runb, run⟩ := Action.bind_ok.mp run
        obtain ⟨rfl, rfl⟩ := Action.pure_ok.mp run
        exact (ih body _ met₂ b runb).opened there old
    | thunk t base =>
      obtain ⟨s, state⟩ := t
      have stands {target : NodeId} (resolved : (⟨s, state⟩ : Thunk L).resolved? = some target)
          (run : g.describeNode fuel target met = .ok (d, met')) : Tells g id met d met' := by
        have h := ih target met met' d run
        exact ⟨.resolved there resolved h.describes, h.once, h.met⟩
      have waits (waiting : state.isWaiting)
          (run : (do let b ← g.describeNode fuel base; return .delayed s.kind b : Describing _)
            met = .ok (d, met')) :
          Tells g id met d met' := by
        obtain ⟨b, met₁, runb, run⟩ := Action.bind_ok.mp run
        obtain ⟨rfl, rfl⟩ := Action.pure_ok.mp run
        have h := ih base met met₁ b runb
        exact ⟨.delayed there waiting h.describes, h.once, h.met⟩
      cases state with
      | forced target => exact stands rfl run
      | culled target =>
        cases target with
        | none =>
          obtain ⟨rfl, rfl⟩ := Action.pure_ok.mp run
          exact .leaf (.dead there rfl) rfl
        | some target => exact stands rfl run
      | pending => exact waits rfl run
      | running => exact waits rfl run

end Saying

/-! ## What is opened -/

namespace Grammar

section Opening

variable {L : Type} {g : Grammar L} {id n x y : NodeId} {d : Description L} {b : Bool}

theorem successors_of_resolved {t : Thunk L} {base target : NodeId} {throughPending : Bool}
    (resolved : t.resolved? = some target) :
    (Node.thunk t base).successors throughPending = [target] := by
  obtain ⟨s, state⟩ := t
  cases state with
  | forced => cases resolved; rfl
  | culled => cases resolved; rfl
  | pending | running => cases resolved

theorem successors_of_waiting {t : Thunk L} {base : NodeId} (waiting : t.state.isWaiting) :
    (Node.thunk t base).successors true = [base] := by
  obtain ⟨s, state⟩ := t
  cases state with
  | forced | culled => cases waiting
  | pending | running => rfl

/-- Only nonterminals with a body that can be reached come up. -/
theorem Describes.reaches (describes : g.Describes n d) (member : (x, b) ∈ d.nonterminals) :
    g.Reaches true n x ∧ g.IsRule x := by
  induction describes with
  | empty | token | matched | undefined | dead => cases member
  | alt there _ _ ihl ihr | cat there _ _ ihl ihr =>
    rcases List.mem_append.mp member with member | member
    · exact ⟨.head there (.head _) (ihl member).1, (ihl member).2⟩
    · exact ⟨.head there (.tail _ (.head _)) (ihr member).1, (ihr member).2⟩
  | rep there _ ih => exact ⟨.head there (.head _) (ih member).1, (ih member).2⟩
  | opened there _ ih =>
    rcases List.mem_cons.mp member with same | member
    · cases same
      exact ⟨.refl _, _, _, there⟩
    · exact ⟨.head there (.head _) (ih member).1, (ih member).2⟩
  | again there =>
    cases List.mem_singleton.mp member
    exact ⟨.refl _, _, _, there⟩
  | resolved there stands _ ih =>
    refine ⟨.head there ?_ (ih member).1, (ih member).2⟩
    rw [successors_of_resolved stands]
    exact .head _
  | delayed there waiting _ ih =>
    refine ⟨.head there ?_ (ih member).1, (ih member).2⟩
    rw [successors_of_waiting waiting]
    exact .head _

theorem Describes.name?_eq [Lexeme L] {name : String} (describes : g.Describes n d)
    (member : .named name x b ∈ d.pieces) : g.name? x = some name := by
  induction describes with
  | empty | token | matched | undefined | dead => cases List.mem_singleton.mp member
  | alt _ _ _ ihl ihr | cat _ _ _ ihl ihr =>
    simp only [Description.pieces, List.mem_append, List.mem_singleton, reduceCtorEq, false_or,
      or_false] at member
    exact member.elim ihl ihr
  | rep _ _ ih | delayed _ _ _ ih =>
    simp only [Description.pieces, List.mem_append, List.mem_singleton, reduceCtorEq, false_or,
      or_false] at member
    exact ih member
  | opened there _ ih =>
    simp only [Description.pieces, List.mem_append, List.mem_singleton, reduceCtorEq,
      or_false] at member
    rcases member with same | member
    · cases same
      exact name?_eq_some.mpr ⟨_, there, rfl⟩
    · exact ih member
  | again there =>
    cases List.mem_singleton.mp member
    exact name?_eq_some.mpr ⟨_, there, rfl⟩
  | resolved _ _ _ ih => exact ih member

/-- Where a nonterminal is opened, its body is described. -/
theorem Describes.body (describes : g.Describes n d) (member : (x, true) ∈ d.nonterminals) :
    ∃ r body b, g.arena.get? x = some (.rule r body) ∧ g.Describes body b ∧
      b.nonterminals ⊆ d.nonterminals := by
  induction describes with
  | empty | token | matched | undefined | dead => cases member
  | alt _ _ _ ihl ihr | cat _ _ _ ihl ihr =>
    rcases List.mem_append.mp member with member | member
    · obtain ⟨r, body, b, there, inner, within⟩ := ihl member
      exact ⟨r, body, b, there, inner, fun p hp => List.mem_append_left _ (within hp)⟩
    · obtain ⟨r, body, b, there, inner, within⟩ := ihr member
      exact ⟨r, body, b, there, inner, fun p hp => List.mem_append_right _ (within hp)⟩
  | rep _ _ ih | resolved _ _ _ ih | delayed _ _ _ ih => exact ih member
  | opened there describes ih =>
    rcases List.mem_cons.mp member with same | member
    · cases same
      exact ⟨_, _, _, there, describes, List.subset_cons_self _ _⟩
    · obtain ⟨r, body, b, there, inner, within⟩ := ih member
      exact ⟨r, body, b, there, inner, fun p hp => .tail _ (within hp)⟩
  | again => cases List.mem_singleton.mp member

/-- What is below a node is described with it: where a nonterminal is not opened, it was opened
elsewhere. -/
theorem Describes.covers (describes : g.Describes n d) (once : Once (fun _ => False) d.nonterminals)
    (reaches : g.Reaches true n x) : ∃ e, g.Describes x e ∧ e.nonterminals ⊆ d.nonterminals := by
  induction reaches with
  | refl => exact ⟨d, describes, fun _ h => h⟩
  | tail _ there member ih =>
    obtain ⟨e, inner, within⟩ := ih
    cases inner with
    | empty here | token here | matched here | undefined here =>
      cases Option.some.inj (there.symm.trans here)
      cases member
    | alt here hl hr | cat here hl hr =>
      cases Option.some.inj (there.symm.trans here)
      rcases List.mem_cons.mp member with rfl | member
      · exact ⟨_, hl, fun p hp => within (List.mem_append_left _ hp)⟩
      · cases List.mem_singleton.mp member
        exact ⟨_, hr, fun p hp => within (List.mem_append_right _ hp)⟩
    | rep here hb =>
      cases Option.some.inj (there.symm.trans here)
      cases List.mem_singleton.mp member
      exact ⟨_, hb, within⟩
    | opened here hb =>
      cases Option.some.inj (there.symm.trans here)
      cases List.mem_singleton.mp member
      exact ⟨_, hb, fun p hp => within (.tail _ hp)⟩
    | again here =>
      cases Option.some.inj (there.symm.trans here)
      cases List.mem_singleton.mp member
      obtain ⟨r, body, b, here', hb, inside⟩ :=
        describes.body (once.opened (fun h => h) (within (.head _)))
      cases Option.some.inj (here.symm.trans here')
      exact ⟨b, hb, inside⟩
    | resolved here stands hd =>
      cases Option.some.inj (there.symm.trans here)
      rw [successors_of_resolved stands] at member
      cases List.mem_singleton.mp member
      exact ⟨_, hd, within⟩
    | dead here dead =>
      cases Option.some.inj (there.symm.trans here)
      simp only [Node.successors, dead] at member
      cases member
    | delayed here waiting hb =>
      cases Option.some.inj (there.symm.trans here)
      rw [successors_of_waiting waiting] at member
      cases List.mem_singleton.mp member
      exact ⟨_, hb, within⟩

/-- What is opened are the nonterminals with a body that can be reached. -/
theorem Describes.opened_iff (describes : g.Describes n d)
    (once : Once (fun _ => False) d.nonterminals) :
    (x, true) ∈ d.nonterminals ↔ g.Reaches true n x ∧ g.IsRule x := by
  constructor
  · exact describes.reaches
  · rintro ⟨reaches, r, body, there⟩
    obtain ⟨e, inner, within⟩ := describes.covers once reaches
    have comes : ∃ b, (x, b) ∈ e.nonterminals := by
      cases inner with
      | opened => exact ⟨true, .head _⟩
      | again => exact ⟨false, .head _⟩
      | _ => cases there.symm.trans ‹_›
    obtain ⟨b, member⟩ := comes
    exact once.opened (fun h => h) (within member)

end Opening

end Grammar

/-! ## After any operations -/

section Displayed

variable {L : Type} {source : Source} {fuel : Nat} {g : Grammar L} {n x : NodeId}

/-- Where every nonterminal has a body, what has a name is a rule. -/
theorem isRule_iff (proper : g.Proper) : g.IsRule x ↔ (g.name? x).isSome := by
  rw [Option.isSome_iff_exists]
  constructor
  · rintro ⟨r, body, there⟩
    exact ⟨r.name, name?_eq_some.mpr ⟨_, there, rfl⟩⟩
  · rintro ⟨name, named⟩
    obtain ⟨node, there, label⟩ := name?_eq_some.mp named
    cases node with
    | rule r body => exact ⟨r, body, there⟩
    | undefined => exact (proper x _ there).elim
    | _ => cases label

theorem describe_tells {d : Description L} (run : g.describe n = .ok d) :
    ∃ met, Tells g n {} d met := by
  unfold Grammar.describe at run
  cases counted : g.reachable n with
  | error e =>
    rw [counted] at run
    cases run
  | ok count =>
    rw [counted] at run
    change Except.map Prod.fst (g.describeNode ((count + 1) * (count + 1)) n {}) = _ at run
    cases describing : g.describeNode ((count + 1) * (count + 1)) n {} with
    | error e =>
      rw [describing] at run
      cases run
    | ok p =>
      rw [describing] at run
      cases run
      exact ⟨p.2, describeNode_tells _ n {} p.2 p.1 describing⟩

/-- After any operations the text of every node can be written. It says what is so. In it a
nonterminal is opened exactly where it comes up first, and the nonterminals that are opened are
those that the node depends on, be it as what a thunk was resolved to or as what an unresolved one
is a derivative of. -/
theorem displayed_once [DecidableEq L] [Lexeme L] {ops : List (Operation L)}
    (history : source.worked fuel ops = .ok g) (lt : n < g.size) :
    ∃ d : Description L, g.Describes n d ∧
      g.display n = .ok (String.join (d.pieces.map Piece.text)) ∧
      (∀ before name id opens after, d.pieces = before ++ .named name id opens :: after →
        g.name? id = some name ∧ (opens = true ↔ ∀ other again, .named other id again ∉ before)) ∧
      ∀ id, (∃ name, .named name id true ∈ d.pieces) ↔
        g.Reaches true n id ∧ (g.name? id).isSome := by
  obtain ⟨W, good, -⟩ := worked_good history
  have proper := worked_proper history
  obtain ⟨d, run⟩ := describe_ok good lt
  obtain ⟨met, tells⟩ := describe_tells run
  have none : (fun x => (∅ : Std.TreeSet NodeId).contains x = true) = fun _ => False := by
    funext x
    simp
  have once := tells.once
  rw [none] at once
  refine ⟨d, tells.describes, ?_, fun before name id opens after split => ⟨?_, ?_⟩, fun id => ?_⟩
  · rw [Grammar.display, run, ← d.text_eq_join]
    rfl
  · refine tells.describes.name?_eq (b := opens) ?_
    rw [split]
    exact List.mem_append_right _ (.head _)
  · have first := once
    rw [d.nonterminals_eq, split, List.filterMap_append, List.filterMap_cons] at first
    rw [first.opens_iff, and_iff_right not_false]
    constructor
    · intro fresh other again member
      exact fresh again (Piece.mem_filterMap_nonterminal?.mpr ⟨other, member⟩)
    · intro fresh again member
      obtain ⟨other, member⟩ := Piece.mem_filterMap_nonterminal?.mp member
      exact fresh other again member
  · rw [← Piece.mem_filterMap_nonterminal?, ← d.nonterminals_eq, tells.describes.opened_iff once,
      isRule_iff proper]

/-- The derivative of a rule that begins with itself comes up again in its own body. -/
theorem displayed_once_leftRecursive :
    ∃ g : Grammar String, leftRecursive.worked 30 chores = .ok g ∧ 6 < g.size ∧
    ∃ d : Description String, g.Describes 6 d ∧
      g.display 6 = .ok (String.join (d.pieces.map Piece.text)) ∧
      (∀ before name id opens after, d.pieces = before ++ .named name id opens :: after →
        g.name? id = some name ∧ (opens = true ↔ ∀ other again, .named other id again ∉ before)) ∧
      ∀ id, (∃ name, .named name id true ∈ d.pieces) ↔
        g.Reaches true 6 id ∧ (g.name? id).isSome := by
  obtain ⟨g, history, lt⟩ := leftRecursive_worked
  exact ⟨g, history, lt, displayed_once history lt⟩

end Displayed

end DerivativeParsing
