import DerivativeParsing.Forest.Extraction
import DerivativeParsing.Proofs.Rooted

/-!
# Where matches end

1. `Lists` says of ascending positions that they are among some, and all of them under a condition.
   `Locates` says so of an action that answers positions, the condition being that rules are stored
   rightly.
2. `findEnds_leaf`: where the matches of a leaf end is told from the leaf and the next symbol.
   `findEnds_eq_searchEnds`: of all other nodes ends are found by derivatives.
3. `exists_replay`, `exists_findEnds`, `exists_acceptingAt`: the searches for the ends of matches
   answer, and do so.
-/

namespace DerivativeParsing

open Grammar (nothing lt_size_of_get?)

/-- The positions `stops`, which ascend, are among those that satisfy `here`, and all of them if
that is sure. -/
structure Lists (sure : Prop) (here : Nat → Prop) (stops : List Nat) : Prop where
  ascending : stops.Pairwise (· < ·)
  sound : ∀ k ∈ stops, here k
  complete : sure → ∀ k, here k → k ∈ stops

namespace Lists

variable {sure sure' : Prop} {here here' : Nat → Prop} {stops : List Nat} {i : Nat}

theorem imp (h : Lists sure here stops) (sound : ∀ k, here k → here' k)
    (complete : sure' → sure ∧ ∀ k, here' k → here k) : Lists sure' here' stops where
  ascending := h.ascending
  sound k hk := sound k (h.sound k hk)
  complete sure k hk := h.complete (complete sure).1 k ((complete sure).2 k hk)

theorem mono (h : Lists sure here stops) (weaker : sure' → sure) : Lists sure' here stops :=
  h.imp (fun _ => id) fun sure => ⟨weaker sure, fun _ => id⟩

theorem congr (h : Lists sure here stops) (same : ∀ k, here k ↔ here' k) : Lists sure here' stops :=
  h.imp (fun k => (same k).mp) fun sure => ⟨sure, fun k => (same k).mpr⟩

theorem nil (none : sure → ∀ k, ¬here k) : Lists sure here [] :=
  ⟨.nil, nofun, fun sure k hk => absurd hk (none sure k)⟩

/-- A position before all others is put in front, if it is found. -/
theorem cons (h : Lists sure here stops) (before : ∀ k, here k → i < k) {b : Bool} {yes : Prop}
    (sound : b = true → yes) (complete : sure → yes → b = true) :
    Lists sure (fun k => k = i ∧ yes ∨ here k) (if b then i :: stops else stops) := by
  cases b with
  | true =>
    refine ⟨.cons (fun k hk => before k (h.sound k hk)) h.ascending, fun k hk =>
      ?_, fun sure k hk => ?_⟩
    · exact (List.mem_cons.mp hk).imp (fun same => ⟨same, sound rfl⟩) (h.sound k)
    · exact List.mem_cons.mpr (hk.imp And.left (h.complete sure k))
  | false =>
    refine ⟨h.ascending, fun k hk => .inr (h.sound k hk), fun sure k hk =>
      h.complete sure k (hk.resolve_left ?_)⟩
    exact fun ⟨_, yes⟩ => absurd (complete sure yes) Bool.false_ne_true

theorem getLast? (h : Lists sure here stops) {k : Nat} (hk : k ∈ stops)
    (last : ∀ m, here m → m ≤ k) : stops.getLast? = some k := by
  obtain ⟨l, r, rfl⟩ := List.append_of_mem hk
  cases r with
  | nil => simp
  | cons m r =>
    have behind : k < m :=
      (List.pairwise_cons.mp (List.pairwise_append.mp h.ascending).2.1).1 m (.head _)
    exact absurd (last m (h.sound m (by simp))) (Nat.not_le.mpr behind)

end Lists

/-- The positions `stops` are among those that satisfy `here`, and all of them if rules are stored
rightly. -/
structure Locates {L : Type} [DecidableEq L] (links : Links) (W : World) (g : Grammar L)
    (here : Nat → Prop) (stops : List Nat) (W' : World) (g' : Grammar L) : Prop where
  carries : Carries links W g W' g'
  lists : Lists (Trusting links W g ∧ Trust links W' g') here stops

section Ends

variable {L : Type} [DecidableEq L] {links : Links} {W : World} {g : Grammar L}
  {input : List (Symbol L)} {id : NodeId} {i : Nat}

/-- The ends of the matches that consume something. -/
def Meaning.EndsAfter (a : Meaning) (input : List (Symbol L)) (i k : Nat) : Prop :=
  i < k ∧ k ≤ input.length ∧ a.words.Holds (stretch input i k)

omit [DecidableEq L] in
/-- A match that consumes something ends after its first symbol, or later. -/
theorem Meaning.endsAfter_iff {a : Meaning} {s : Symbol L} {k : Nat} (here : input[i]? = some s) :
    a.EndsAfter input i k ↔
      k = i + 1 ∧ (a.after s.kind).words.Nullable ∨ (a.after s.kind).EndsAfter input (i + 1) k := by
  have lt : i < input.length := (List.getElem?_eq_some_iff.mp here).1
  have first {k : Nat} (le : i + 1 ≤ k) :
      stretch input i k = s.kind :: stretch input (i + 1) k := by
    rw [← stretch_append (Nat.le_succ i) le, stretch_succ here]
    rfl
  constructor
  · rintro ⟨before, le, holds⟩
    rw [first before] at holds
    rcases Nat.eq_or_lt_of_le before with rfl | later
    · rw [stretch_self] at holds
      exact .inl ⟨rfl, holds⟩
    · exact .inr ⟨later, le, holds⟩
  · rintro (⟨rfl, null⟩ | ⟨later, le, holds⟩)
    · refine ⟨Nat.lt_succ_self i, lt, ?_⟩
      rw [first (Nat.le_refl _), stretch_self]
      exact null
    · refine ⟨Nat.lt_of_succ_lt later, le, ?_⟩
      rw [first (Nat.le_of_lt later)]
      exact holds

theorem exists_replay {rest : List (Symbol L)} (good : Good links W g) (lt : id < g.size)
    (rest_is : input.drop i = rest) :
    ∃ stops W' g', Answers (fun fuel => Grammar.replay fuel id i rest) g (stops, g') ∧
      Locates links W g ((W id).EndsAfter input i) stops W' g' := by
  induction rest generalizing W g id i with
  | nil =>
    refine ⟨[], W, g, .const rfl, .refl good, .nil fun _ k ⟨before, le, _⟩ => ?_⟩
    have := List.drop_eq_nil_iff.mp rest_is
    omega
  | cons s rest ih =>
    have here : input[i]? = some s := by rw [← List.head?_drop, rest_is, List.head?_cons]
    have rest_is' : input.drop (i + 1) = rest := by rw [← List.tail_drop, rest_is, List.tail_cons]
    obtain ⟨⟨next, accepts⟩, g₁, N, stepping⟩ := exists_step good lt s true
    obtain ⟨W₁, stepped⟩ := step_stepped good (stepping N (Nat.le_refl N))
    -- what is found later, be the rest of the input dead or not
    obtain ⟨later, W', g', ⟨N', looking⟩, carries, lists⟩ : ∃ later W' g',
        Answers (fun fuel =>
          if next = nothing then pure [] else Grammar.replay fuel next (i + 1) rest) g₁
          (later, g') ∧ Locates links W₁ g₁ ((W₁ next).EndsAfter input (i + 1)) later W' g' := by
      by_cases dead : next = nothing
      · refine ⟨[], W₁, g₁, ⟨0, fun _ _ => by simp only [if_pos dead]; rfl⟩,
          .refl stepped.carries.good, .nil fun _ k ⟨_, _, holds⟩ => ?_⟩
        obtain ⟨n, none⟩ := holds
        rw [dead, stepped.carries.good.sound.void stepped.carries.good.formed] at none
        exact none.elim
      · obtain ⟨later, W', g', ⟨N', looking⟩, locates⟩ :=
          ih stepped.carries.good stepped.solid.lt_size rest_is'
        exact ⟨later, W', g',
          ⟨N', fun fuel le => by simp only [if_neg dead]; exact looking fuel le⟩, locates⟩
    have lists : Lists (Trusting links W g ∧ Trust links W' g')
        (((W id).after s.kind).EndsAfter input (i + 1)) later :=
      lists.imp (fun k ⟨before, le, holds⟩ =>
        ⟨before, le, stepped.refines.1 _ holds⟩) fun ⟨trusting, trust⟩ =>
        ⟨⟨stepped.carries.trusting trusting, trust⟩, fun k ⟨before, le, n, hn⟩ =>
          ⟨before, le, (stepped.under trusting (carries.trust trust) n _ hn).holds⟩⟩
    refine ⟨if accepts then (i + 1) :: later else later, W', g', ⟨max N N', fun fuel le => ?_⟩,
      stepped.carries.trans carries,
      (lists.cons (fun k hk => hk.1) stepped.sound fun ⟨trusting, trust⟩ =>
        stepped.complete trusting (carries.trust trust)).congr fun k =>
          (Meaning.endsAfter_iff here).symm⟩
    refine (Action.bind_of_ok (stepping fuel (by omega))).trans ?_
    have looking := looking fuel (by omega)
    dsimp only at looking ⊢
    split at looking
    · rename_i dead
      rw [if_pos dead]
      exact (Action.bind_of_ok looking).trans rfl
    · rename_i alive
      rw [if_neg alive]
      exact (Action.bind_of_ok looking).trans rfl

/-! ## Ends of derivations -/

omit [DecidableEq L] in
/-- A stretch that is derived does not go beyond the input. -/
theorem Grammar.Derivation.stop_le {j : Nat} {t : Tree (Symbol L)} (h : g.Derivation input id i j t)
    (le : i ≤ input.length) : j ≤ input.length := by
  induction h with
  | epsilon | rep_nil => exact le
  | token _ _ here => exact (List.getElem?_eq_some_iff.mp here).1
  | alt_left _ _ ih | alt_right _ _ ih | rule _ _ ih => exact ih le
  | cat _ _ _ ihl ihr => exact ihr (ihl le)
  | rep_cons _ _ _ _ ihb ihr => exact ihr (ihb le)

omit [DecidableEq L] in
theorem Grammar.spans_token {kind : Kind} {k : Nat} (there : g.arena.get? id = some (.token kind)) :
    g.Spans input id i k ↔ kind = Kind.epsilon ∧ k = i ∨
      kind.isTerminal = true ∧ ∃ s, input[i]? = some s ∧ s.kind = kind ∧ k = i + 1 := by
  constructor
  · rintro ⟨t, h⟩
    exact ((Grammar.derivation_token there).mp h).imp (fun ⟨epsilon, stop, _⟩ => ⟨epsilon, stop⟩)
      fun ⟨terminal, s, here, same, stop, _⟩ => ⟨terminal, s, here, same, stop⟩
  · rintro (⟨rfl, rfl⟩ | ⟨terminal, s, here, same, rfl⟩)
    · exact ⟨_, .epsilon there⟩
    · exact ⟨_, .token there terminal here same⟩

/-! ## Leaves -/

def Node.takes (node : Node L) (s : Symbol L) : Bool :=
  match node with
  | .token kind => kind.isTerminal && s.kind == kind
  | _ => false

/-- Where the matches of a leaf that start at a position end, told from the leaf and the symbol
there. -/
def Node.leafEnds (node : Node L) (start : Nat) (next : Option (Symbol L)) : List Nat :=
  let later := if next.any node.takes then [start + 1] else []
  if node.nullable? = some true then start :: later else later

section Leaves

variable {node : Node L} {s : Symbol L} {next : Option (Symbol L)} {k fuel : Nat}

omit [DecidableEq L] in
theorem Node.takes_token {kind : Kind} :
    (Node.token kind : Node L).takes s ↔ kind.isTerminal ∧ kind = s.kind := by
  rw [takes, Bool.and_eq_true, beq_iff_eq, eq_comm (a := kind)]

omit [DecidableEq L] in
theorem Node.mem_leafEnds :
    k ∈ node.leafEnds i next ↔
      node.nullable? = some true ∧ k = i ∨ next.any node.takes ∧ k = i + 1 := by
  have later : k ∈ (if next.any node.takes then [i + 1] else []) ↔
      next.any node.takes ∧ k = i + 1 := by
    split <;> simp_all
  rw [leafEnds]
  split
  · rename_i null
    rw [List.mem_cons, later, null, and_iff_right rfl]
  · rename_i consumes
    rw [later, or_iff_right fun h => consumes h.1]

omit [DecidableEq L] in
theorem Node.pairwise_leafEnds : (node.leafEnds i next).Pairwise (· < ·) := by
  rw [leafEnds]
  split <;> split <;> simp

omit [DecidableEq L] in
theorem Grammar.spans_leaf (there : g.arena.get? id = some node)
    (leaf : node.hasParts? = some false) (built : node.isBuilt) :
    k ∈ node.leafEnds i input[i]? ↔ g.Spans input id i k := by
  rw [Node.mem_leafEnds]
  cases node with
  | empty =>
    refine iff_of_false ?_ ?_
    · cases input[i]? <;> simp [Node.nullable?, Node.takes]
    · rintro ⟨t, h⟩
      exact Grammar.not_derivation there (.inl rfl) h
  | undefined name =>
    refine iff_of_false ?_ ?_
    · cases input[i]? <;> simp [Node.nullable?, Node.takes]
    · rintro ⟨t, h⟩
      exact Grammar.not_derivation there (.inr ⟨name, rfl⟩) h
  | token kind =>
    rw [Grammar.spans_token there, Node.nullable?, Option.some.injEq, beq_iff_eq,
      Option.any_eq_true]
    refine or_congr_right ⟨?_, ?_⟩
    · rintro ⟨⟨s, here, takes⟩, stop⟩
      obtain ⟨terminal, same⟩ := Node.takes_token.mp takes
      exact ⟨terminal, s, here, same.symm, stop⟩
    · rintro ⟨terminal, s, here, same, stop⟩
      exact ⟨⟨s, here, Node.takes_token.mpr ⟨terminal, same.symm⟩⟩, stop⟩
  | matched => cases built
  | _ => cases leaf

/-- What is told of a leaf is told without changing anything. -/
theorem findEnds_leaf (there : g.arena.get? id = some node) (leaf : node.hasParts? = some false) :
    Grammar.findEnds fuel input id i g = .ok (node.leafEnds i input[i]?, g) := by
  refine (Grammar.fetch_bind there).trans ?_
  cases node with
  | empty | undefined | matched => cases input[i]? <;> rfl
  | token kind =>
    by_cases epsilon : kind = Kind.epsilon
    · subst epsilon
      cases input[i]? <;> rfl
    · have consumes : (Node.token kind : Node L).nullable? = some false := by
        rw [Node.nullable?, beq_false_of_ne epsilon]
      simp only [if_neg epsilon]
      rw [Node.leafEnds, consumes]
      cases input[i]? <;> rfl
  | _ => cases leaf

theorem findEnds_eq_searchEnds (there : g.arena.get? id = some node)
    (parts : node.hasParts? ≠ some false) :
    Grammar.findEnds fuel input id i g = Grammar.searchEnds fuel input id i g := by
  refine (Grammar.fetch_bind there).trans ?_
  cases node with
  | empty | undefined | matched | token => exact absurd rfl parts
  | alt | cat | rep | rule | thunk => rfl

end Leaves

section Roots

variable {D : Readings L} {O : NodeId → Prop} {start : NodeId} {W' : World} {g' : Grammar L}
  {stops : List Nat} {here here' : Nat → Prop}

/-- What a root stands for and what it derives are the same. -/
theorem Rooted.spans_iff {j : Nat} (rooted : Rooted D O W g start) (good : Good links W g)
    (hx : O id) (le : i ≤ input.length) :
    g.Spans input id i j ↔ i ≤ j ∧ j ≤ input.length ∧ (W id).words.Holds (stretch input i j) :=
  ⟨fun ⟨_, h⟩ => ⟨h.le, h.stop_le le, h.holds good.sound⟩,
    fun ⟨hij, hj, holds⟩ => rooted.derived id hx input i j hij hj holds⟩

theorem Locates.congr (h : Locates links W g here stops W' g') (same : ∀ k, here k ↔ here' k) :
    Locates links W g here' stops W' g' :=
  ⟨h.carries, h.lists.congr same⟩

/-- Without evaluating anything, positions are found exactly. -/
theorem locates_of_iff (good : Good links W g) (ascending : stops.Pairwise (· < ·))
    (same : ∀ k, k ∈ stops ↔ here k) : Locates links W g here stops W g :=
  ⟨.refl good, ascending, fun k => (same k).mp, fun _ k => (same k).mpr⟩

/-- A match consumes nothing, or something. -/
theorem exists_searchEnds (good : Good links W g) (lt : id < g.size) (le : i ≤ input.length) :
    ∃ stops W' g', Answers (fun fuel => Grammar.searchEnds fuel input id i) g (stops, g') ∧
      Locates links W g (fun k => i ≤ k ∧ k ≤ input.length ∧ (W id).words.Holds (stretch input i k))
        stops W' g' := by
  obtain ⟨b, g₁, N, asking⟩ := exists_nullable good lt
  obtain ⟨W₁, asked⟩ := Grammar.evaluates_of_nullable W (asking N (Nat.le_refl N))
  have carries₁ := asked.carries good
  have same : W₁ id = W id := carries₁.world id lt
  obtain ⟨later, W', g', looking, carries, lists⟩ :=
    exists_replay carries₁.good (Nat.lt_of_lt_of_le lt carries₁.size) (rfl : input.drop i = _)
  rw [same] at lists
  have here : b = true → (W id).words.Nullable := fun yes =>
    same ▸ (asked.sound good.formed good.sound).2 yes
  refine ⟨if b then i :: later else later, W', g', .bind ⟨N, asking⟩ (.bind looking (.const rfl)),
    carries₁.trans carries,
    ((lists.mono fun ⟨trusting, trust⟩ => ⟨carries₁.trusting trusting, trust⟩).cons
      (fun k hk => hk.1) here fun ⟨trusting, trust⟩ null =>
        asked.truth good trusting (carries.trust trust) (same ▸ null)).congr fun k =>
          ⟨?_, fun ⟨hik, hk, holds⟩ => ?_⟩⟩
  · rintro (⟨rfl, null⟩ | ⟨before, hk, holds⟩)
    · exact ⟨Nat.le_refl _, le, by rwa [stretch_self]⟩
    · exact ⟨Nat.le_of_lt before, hk, holds⟩
  · rcases Nat.eq_or_lt_of_le hik with rfl | before
    · rw [stretch_self] at holds
      exact .inl ⟨rfl, holds⟩
    · exact .inr ⟨before, hk, holds⟩

/-- The ends of the matches of a root that start at a position are found. -/
theorem exists_findEnds (rooted : Rooted D O W g start) (good : Good links W g) (hx : O id)
    (le : i ≤ input.length) : ∃ stops W' g',
      Answers (fun fuel => Grammar.findEnds fuel input id i) g (stops, g') ∧
        Locates links W g (g.Spans input id i) stops W' g' := by
  obtain ⟨node, there, built⟩ := rooted.pristine.node id hx
  by_cases leaf : node.hasParts? = some false
  · exact ⟨_, W, g, ⟨0, fun _ _ => findEnds_leaf there leaf⟩,
      locates_of_iff good Node.pairwise_leafEnds fun _ => Grammar.spans_leaf there leaf built⟩
  · obtain ⟨stops, W', g', ⟨N, run⟩, locates⟩ :=
      exists_searchEnds good (rooted.pristine.lt_size hx) le
    exact ⟨stops, W', g',
      ⟨N, fun fuel le => (findEnds_eq_searchEnds there leaf).trans (run fuel le)⟩,
      locates.congr fun k => (rooted.spans_iff good hx le).symm⟩

end Roots

/-! ## Ends of the beginnings of an input -/

/-- Whether the node for a position matches the empty word, the first of a list being for
`first`. -/
def AcceptsAt (W : World) (first : Nat) (ids : List NodeId) (k : Nat) : Prop :=
  ∃ m id, k = first + m ∧ ids[m]? = some id ∧ (W id).words.Nullable

theorem acceptsAt_cons {first k : Nat} {ids : List NodeId} :
    AcceptsAt W first (id :: ids) k ↔
      k = first ∧ (W id).words.Nullable ∨ AcceptsAt W (first + 1) ids k := by
  constructor
  · rintro ⟨m, x, rfl, there, null⟩
    cases m with
    | zero =>
      cases there
      exact .inl ⟨rfl, null⟩
    | succ m => exact .inr ⟨m, x, by omega, there, null⟩
  · rintro (⟨rfl, null⟩ | ⟨m, x, rfl, there, null⟩)
    · exact ⟨0, id, rfl, rfl, null⟩
    · exact ⟨m + 1, x, by omega, there, null⟩

theorem AcceptsAt.range {first k : Nat} {ids : List NodeId} (h : AcceptsAt W first ids k) :
    first ≤ k ∧ k < first + ids.length := by
  obtain ⟨m, x, rfl, there, -⟩ := h
  have := (List.getElem?_eq_some_iff.mp there).1
  omega

/-- The nodes of a list that match the empty word are found. -/
theorem exists_acceptingAt {ids : List NodeId} (good : Good links W g)
    (range : ∀ id ∈ ids, id < g.size) (first : Nat) :
    ∃ stops W' g',
      Answers (fun fuel => Grammar.acceptingAt fuel first ids) g (stops, g') ∧
        Locates links W g (AcceptsAt W first ids) stops W' g' := by
  induction ids generalizing W g first with
  | nil =>
    refine ⟨[], W, g, .const rfl, .refl good, .nil fun _ k h => ?_⟩
    have := h.range
    rw [List.length_nil] at this
    omega
  | cons id ids ih =>
    obtain ⟨b, g₁, asking⟩ := exists_nullable good (range id (.head _))
    obtain ⟨W₁, asked⟩ := Grammar.evaluates_of_nullable W (asking.choose_spec _ (Nat.le_refl _))
    have carries₁ := asked.carries good
    have world (x : NodeId) (hx : x ∈ id :: ids) : W₁ x = W x := carries₁.world x (range x hx)
    obtain ⟨later, W', g', looking, carries, lists⟩ := ih carries₁.good
      (fun x hx => Nat.lt_of_lt_of_le (range x (.tail _ hx)) carries₁.size) (first + 1)
    have later_iff (k : Nat) : AcceptsAt W₁ (first + 1) ids k ↔ AcceptsAt W (first + 1) ids k := by
      refine exists_congr fun m =>
        exists_congr fun x => and_congr_right fun _ => and_congr_right fun there => ?_
      rw [world x (.tail _ (List.mem_of_getElem? there))]
    have yes : b = true → (W id).words.Nullable := fun h =>
      world id (.head _) ▸ (asked.sound good.formed good.sound).2 h
    refine ⟨if b then first :: later else later, W', g', .bind asking (.bind looking (.const rfl)),
      carries₁.trans carries, ((lists.imp (fun k => (later_iff k).mp) fun ⟨trusting, trust⟩ =>
        ⟨⟨carries₁.trusting trusting, trust⟩, fun k => (later_iff k).mpr⟩).cons
          (fun k hk => hk.range.1) yes
          fun ⟨trusting, trust⟩ null => asked.truth good trusting (carries.trust trust)
            (world id (.head _) ▸ null)).congr fun k => acceptsAt_cons.symm⟩

end Ends

end DerivativeParsing
