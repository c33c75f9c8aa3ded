import DerivativeParsing.Proofs.Readiness

/-!
# Evaluation claims nothing too little

Up to a level, the nodes of a graph are backed: their parts, and the derivatives they remember, have
all the words that they stand for (`Complete`). Evaluation keeps this as long as no rule is stored
as not matching the empty word though it stands for it.

1. A rule is stored so when its body is found not to match the empty word. That answer may be wrong
   if it came from a rule in progress, which was answered no too early: then that rule leads to this
   one, and this one may be that rule alone. Rules that allow this are `Links.Entangled`.
2. `Evaluates.complete`: up to a level, evaluation keeps a graph complete and answers completely, if
   the rules are not entangled, or else if the rules stored as not matching the empty word are so
   rightly.
-/

namespace DerivativeParsing

open Grammar (nothing lt_size_of_get?)

/-- Whether a rule leads to another that may be the first one alone. -/
def Links.Entangled (links : Links) : Prop :=
  ∃ a b, Relation.TransGen links.leads a b ∧ links.alone b a

/-- The parts of a node, up to a level, claim no less than it stands for. -/
structure World.Backs {L : Type} (W : World) (k id : Nat) (node : Node L) : Prop where
  supports : W.level id ≤ k → W.Supports id node
  memo : ∀ r body kind next, node = .rule r body → r.memo = some (kind, next) → W.level id < k →
    ((W id).words.after kind).Under (W next).words
  right : ∀ r body, node = .rule r body → r.fixpoint = .done false → W.level id < k →
    ¬(W id).words.Nullable

/-- The nodes and the known derivatives of a grammar, up to a level, claim no less than what they
stand for. -/
structure Complete {L : Type} [DecidableEq L] (W : World) (g : Grammar L) (k : Nat) : Prop where
  node : ∀ (id : Nat) node, g.arena.get? id = some node → W.Backs k id node
  memo : ∀ (id : Nat) s next, g.memo.find? id s = some next → W.level id < k →
    ((W id).words.after s.kind).Under (W next).words

/-- The rules below a level that are stored as not matching the empty word are so rightly. -/
def Right {L : Type} (W : World) (g : Grammar L) (k : Nat) : Prop :=
  ∀ (id : Nat) r body, g.arena.get? id = some (.rule r body) → r.fixpoint = .done false →
    W.level id < k → ¬(W id).words.Nullable

/-- A node was found not to match the empty word because of a rule in progress that matches it, at
no higher rank than `n`. -/
def Blamed {L : Type} (W : World) (g : Grammar L) (id n : Nat) : Prop :=
  ∃ (x : Nat) (r : Rule) (body : NodeId), g.arena.get? x = some (.rule r body) ∧
    r.fixpoint = .inProgress ∧ W.level x ≤ W.level id ∧ (W x).words.Upto n [] ∧
      (W.level x = W.level id → (W id).alone r.name)

def Reply.Complete {L : Type} (W : World) (g : Grammar L) (k : Nat) : Question L → Reply → Prop
  | .derive id s, node next | .compute id s, node next => W.level id < k →
      ((W id).words.after s.kind).Under (W next).words
  | .nullable id, truth b => W.level id < k → b = false → ∀ n, (W id).words n [] → Blamed W g id n
  | .force id, node target => W.level id ≤ k → (W id).words.Under (W target).words
  | _, _ => False

section

variable {L : Type} {W W' : World} {g : Grammar L} {k id : Nat} {node : Node L}

theorem World.Supports.agree (h : W.Supports id node) (formed : node.Formed g id) (lt : id < g.size)
    (same : ∀ x : Nat, x < g.size → W' x = W x) : W'.Supports id node := by
  cases node with
  | empty | undefined | token | matched =>
    intro n w hw
    rw [same id lt] at hw
    exact h n w hw
  | alt left right | cat left right =>
    intro n w hw
    rw [same id lt] at hw
    rw [same left formed.1.2.lt_size, same right formed.2.2.lt_size]
    exact h n w hw
  | rep body =>
    intro n w hw
    rw [same id lt] at hw ⊢
    rw [same body formed.2.lt_size]
    exact h n w hw
  | rule r body =>
    intro n w hw
    rw [same id lt] at hw
    rw [same body formed.1]
    exact h n w hw
  | thunk t base =>
    obtain ⟨range, solid⟩ := formed
    cases target : t.state.target? with
    | some next =>
      rw [World.supports_resolved target] at h ⊢
      rw [same id lt, same next (solid next target).lt_size]
      exact h
    | none =>
      rw [World.supports_waiting target] at h ⊢
      rw [same id lt, same base range]
      exact h

theorem World.Backs.agree (h : W.Backs k id node) (formed : node.Formed g id) (lt : id < g.size)
    (same : ∀ x : Nat, x < g.size → W' x = W x) : W'.Backs k id node where
  supports le := by
    rw [World.level_congr (same id lt)] at le
    exact (h.supports le).agree formed lt same
  memo r body kind next it hm level := by
    subst it
    rw [World.level_congr (same id lt)] at level
    rw [same id lt, same next (formed.2 kind next hm).lt_size]
    exact h.memo r body kind next rfl hm level
  right r body it state level := by
    rw [World.level_congr (same id lt)] at level
    rw [same id lt]
    exact h.right r body it state level

theorem World.Supports.backs (h : W.level id ≤ k → W.Supports id node)
    (other : ∀ r body, node ≠ .rule r body) : W.Backs k id node :=
  ⟨h, fun r body _ _ it => absurd it (other r body), fun r body it => absurd it (other r body)⟩

end

namespace Complete

variable {L : Type} [DecidableEq L] {links : Links} {W W' : World} {g g' : Grammar L} {k id : Nat}
  {node : Node L} {meaning : Meaning}

theorem of_eq (h : Complete W g k) (arena : g'.arena = g.arena) (memo : g'.memo = g.memo) :
    Complete W g' k :=
  ⟨fun id node there => h.node id node (arena ▸ there),
    fun id s next found => h.memo id s next (memo ▸ found)⟩

theorem agree (h : Complete W g k) (formed : g.Formed) (same : ∀ x : Nat, x < g.size → W' x = W x) :
    Complete W' g k where
  node id node there :=
    (h.node id node there).agree (formed.node id node there) (lt_size_of_get? there) same
  memo id s next found level := by
    obtain ⟨lt, solid⟩ := formed.memo id s next found
    rw [World.level_congr (same id lt)] at level
    rw [same id lt, same next solid.lt_size]
    exact h.memo id s next found level

theorem withNode (h : Complete W g k) (formed : g.Formed)
    (new : (W.put g.size meaning).Backs k g.size node) :
    Complete (W.put g.size meaning) (g.withNode node) k := by
  have h' : Complete (W.put g.size meaning) g k := h.agree formed fun x lt => World.put_of_lt lt
  refine ⟨fun i node' there => ?_, h'.memo⟩
  rw [Grammar.get?_withNode] at there
  by_cases last : i = g.size
  · rw [if_pos last] at there
    cases there
    subst last
    exact new
  · rw [if_neg last] at there
    exact h'.node i node' there

theorem revised {f : Node L → Node L} (h : Complete W g k)
    (new : ∀ node, g.arena.get? id = some node → W.Backs k id (f node)) :
    Complete W (g.revised id f) k := by
  refine ⟨fun i node there => ?_, h.memo⟩
  rw [Grammar.get?_revised] at there
  by_cases same : id = i
  · rw [if_pos same] at there
    obtain ⟨node', there', rfl⟩ := Option.map_eq_some_iff.mp there
    subst same
    exact new node' there'
  · rw [if_neg same] at there
    exact h.node i node there

theorem finished {s : Symbol L} {next : NodeId} {outer : Bool} (h : Complete W g k)
    (new : W.level id < k → ((W id).words.after s.kind).Under (W next).words) :
    Complete W (g.finished id s next outer) k := by
  refine ⟨h.node, fun i s' known found => ?_⟩
  rw [Grammar.memo_finished] at found
  split at found
  · exact h.memo i s' known found
  · rw [Memo.find?_record] at found
    split at found
    · rename_i same
      obtain ⟨rfl, rfl⟩ := same
      cases found
      exact new
    · exact h.memo i s' known found

theorem setFixpoint {fixpoint : Fixpoint} (h : Complete W g k)
    (new : fixpoint = .done false → W.level id < k → ¬(W id).words.Nullable) :
    Complete W (g.revised id (.mapRule ({ · with fixpoint }))) k := by
  refine h.revised fun node there => ?_
  have backs := h.node id node there
  cases node with
  | rule r body =>
    refine ⟨backs.supports, fun r' body' kind next it hm => ?_, fun r' body' it state => ?_⟩
    · cases it
      exact backs.memo r body kind next rfl hm
    · cases it
      exact new state
  | _ => exact backs

theorem running {t : Thunk L} {base : NodeId} (h : Complete W g k)
    (there : g.arena.get? id = some (.thunk t base)) (state : t.state = .pending) :
    Complete W (g.running id) k := by
  refine h.revised fun node there' => ?_
  cases Option.some.inj (there.symm.trans there')
  refine World.Supports.backs (fun le => (World.supports_waiting rfl).mpr ?_) nofun
  exact (World.supports_waiting (t := t) (by rw [state]; rfl)).mp ((h.node id _ there).supports le)

theorem resolved {t : Thunk L} {base target : NodeId} (h : Complete W g k)
    (new : W.level id ≤ k → (W id).words.Under (W target).words) :
    Complete W (g.resolved id t base target) k := by
  refine of_eq (g := g.revised id (.setState (.forced target))) ?_ rfl rfl
  refine h.revised fun node there => ?_
  have backs := h.node id node there
  cases node with
  | thunk t base => exact World.Supports.backs new nofun
  | _ => exact backs

/-- The derivative of a rule has all that is left of the rule, since its thunk has all that is left
of the body. -/
theorem withDerivedRule {r : Rule} {body : NodeId} {s : Symbol L} (h : Complete W g k)
    (formed : g.Formed) (there : g.arena.get? id = some (.rule r body)) :
    Complete ((W.put g.size ((W body).after s.kind)).put (g.size + 1) ((W id).after s.kind))
      (g.withDerivedRule id r body s) k := by
  have lt := lt_size_of_get? there
  have range : g.size > body := (formed.node id _ there).1
  generalize hW' :
    (W.put g.size ((W body).after s.kind)).put (g.size + 1) ((W id).after s.kind) = W'
  have same : ∀ x : Nat, x < g.size → W' x = W x := fun x hx => by
    rw [← hW', World.put_of_lt (by omega), World.put_of_lt hx]
  have rule' : W' (g.size + 1) = (W id).after s.kind := by rw [← hW', World.put_self]
  have thunk' : W' g.size = (W body).after s.kind := by
    rw [← hW', World.put_of_lt (by omega), World.put_self]
  have h' := h.agree formed same
  have backs := h'.node id _ there
  refine ⟨fun i node there' => ?_, h'.memo⟩
  rw [Grammar.get?_withDerivedRule there] at there'
  split at there'
  · rename_i last
    subst last
    cases there'
    refine ⟨fun le n w hw => ?_, fun r' body' kind next it hm => ?_, fun r' body' it state => ?_⟩
    · -- the rule that is derived has a level less
      have level : W'.level id + 1 = W'.level (g.size + 1) := by
        unfold World.level
        rw [rule', same id lt]
        rfl
      rw [rule'] at hw
      rw [thunk']
      have supports := backs.supports (by omega)
      obtain ⟨m, hm, hb⟩ := supports n (s.kind :: w) (by rw [same id lt]; exact hw)
      rw [same body range] at hb
      exact ⟨m, hm, hb⟩
    · cases it
      cases hm
    · cases it
      cases state
  · split at there'
    · rename_i last
      subst last
      cases there'
      refine World.Supports.backs (fun _ => (World.supports_waiting rfl).mpr ?_) nofun
      rw [thunk', same body range]
      exact .refl _
    · split at there'
      · rename_i it
        subst it
        cases there'
        refine ⟨backs.supports, fun r' body' kind next it hm => ?_, fun r' body' it state => ?_⟩
        · cases it
          cases hm
          rw [rule', same _ lt]
          exact fun _ => .refl _
        · cases it
          exact backs.right r body rfl state
      · exact h'.node i node there'

theorem withAlt {l r : NodeId} (h : Complete W g k) (formed : g.Formed) (solidl : g.Solid l)
    (solidr : g.Solid r) (hm : meaning.words = (W l).words.union (W r).words) :
    Complete (W.put g.size meaning) (g.withNode (.alt l r)) k := by
  refine h.withNode formed (World.Supports.backs (fun _ n w hw => ?_) nofun)
  rw [World.put_self, hm] at hw
  rw [World.put_of_lt solidl.lt_size, World.put_of_lt solidr.lt_size]
  exact hw.imp Ranked.upto_self Ranked.upto_self

/-- A new sequence has the words of its parts, one after the other. -/
theorem withCat {l r : NodeId} (h : Complete W g k) (formed : g.Formed) (solidl : g.Solid l)
    (solidr : g.Solid r) (hm : meaning.words = (W l).words.concat (W r).words) :
    Complete (W.put g.size meaning) (g.withNode (.cat l r)) k := by
  refine h.withNode formed (World.Supports.backs (fun _ n w hw => ?_) nofun)
  rw [World.put_self, hm] at hw
  rw [World.put_of_lt solidl.lt_size, World.put_of_lt solidr.lt_size]
  exact hw

end Complete

/-! ## Evaluation is complete -/

section Stored

variable {L : Type} {W : World} {g : Grammar L} {k id x n m : Nat}

/-- What is stored rightly when a rule is done was so when it was in progress. -/
theorem Right.of_done {r : Rule} {body : NodeId} {b : Bool} (h : Right W (g.done id b) k)
    (there : g.arena.get? id = some (.rule r body)) (state : r.fixpoint = .inProgress) :
    Right W g k := by
  intro y r' body' there' state' level
  by_cases same : id = y
  · subst same
    cases Option.some.inj (there.symm.trans there')
    rw [state] at state'
    cases state'
  · exact h y r' body' (by rw [Grammar.done, Grammar.get?_revised, if_neg same, there'])
      state' level

/-- What is stored rightly when a thunk is resolved was so when it was under evaluation. -/
theorem Right.of_resolved {t : Thunk L} {base target : NodeId}
    (h : Right W (g.resolved id t base target) k) : Right W g k := by
  intro y r body there state level
  refine h y r body ?_ state level
  show (g.revised id _).arena.get? y = _
  rw [Grammar.get?_revised, there]
  split <;> rfl

theorem Blamed.part (h : Blamed W g x m) (le : W.level x ≤ W.level id) (rank : m ≤ n)
    (alone : W.level x = W.level id → ∀ name, (W x).alone name → (W id).alone name) :
    Blamed W g id n := by
  obtain ⟨y, r, body, there, state, level, words, alone'⟩ := h
  refine ⟨y, r, body, there, state, Nat.le_trans level le, words.mono rank, fun same => ?_⟩
  exact alone (by omega) r.name (alone' (by omega))

end Stored

section Evaluation

variable {L : Type} [DecidableEq L] {links : Links} {W W' : World} {g g' : Grammar L}
  {k id x n m : Nat} {q : Question L} {a : Reply} {kind : Kind}

/-- What is stored in an extension rightly, was stored rightly before. -/
theorem Extends.right (ext : Extends W g W' g') (h : Right W' g' k) : Right W g k := by
  intro id r body there state level
  have lt := lt_size_of_get? there
  obtain ⟨r', there', -, -, step⟩ := ext.get?_rule there
  rw [state] at step
  have state' : r'.fixpoint = .done false := by
    generalize r'.fixpoint = fixpoint at step
    cases step
    rfl
  rw [← ext.world id lt]
  exact h id r' body there' state' (by rw [ext.level lt]; exact level)

theorem Blamed.extended (h : Blamed W g id n) (ext : Extends W g W' g') (lt : id < g.size) :
    Blamed W' g' id n := by
  obtain ⟨y, r, body, there, state, level, words, alone⟩ := h
  have lty := lt_size_of_get? there
  obtain ⟨r', there', name, -, step⟩ := ext.get?_rule there
  rw [state] at step
  have state' : r'.fixpoint = .inProgress := by
    generalize r'.fixpoint = fixpoint at step
    cases step
    rfl
  refine ⟨y, r', body, there', state', ?_, ?_, ?_⟩
  · rw [ext.level lty, ext.level lt]
    exact level
  · rw [ext.world y lty]
    exact words
  · rw [ext.level lty, ext.level lt, ext.world id lt, ← name]
    exact alone

/-- While a derivative is taken, nothing is blamed on a rule in progress. -/
theorem Ready.not_blamed {s : Symbol L} (h : Ready links W g (.compute id s))
    (le : W.level x ≤ W.level id) : ¬Blamed W g x n := by
  rintro ⟨y, r, body, there, state, level, -⟩
  have floor : W.level id + 1 ≤ W.level y := h.begun y r body there state
  omega

/-- If a rule is found not to match the empty word, it does not stand for it, unless the rules are
entangled: what its body is blamed on is the rule itself, in a longer derivation. -/
theorem not_nullable_of_body {r : Rule} {body : NodeId} {W₁ : World} {g₁ : Grammar L}
    (ready : Ready links W g (.nullable id)) (there : g.arena.get? id = some (.rule r body))
    (ext : Extends W (g.begun id) W₁ g₁) (sound : Sound links W₁ g₁) (complete : Complete W₁ g₁ k)
    (level : W₁.level id < k)
    (blamed : ∀ n, (W₁ body).words n [] → Blamed W₁ g₁ body n) (plain : ¬links.Entangled) :
    ¬(W₁ id).words.Nullable := by
  have size : (g.begun id).size = g.size := Grammar.size_begun g id
  have lt : id < (g.begun id).size := size ▸ lt_size_of_get? there
  obtain ⟨r₁, there₁, name, -⟩ := ext.get?_rule (Grammar.get?_begun there)
  have names : (W₁ body).Names links r₁.name (W₁ id) := (sound.node id _ there₁).1
  have supports : W₁.Supports id (.rule r₁ body) :=
    (complete.node id _ there₁).supports (Nat.le_of_lt level)
  have noneAt (n : Nat) : ¬(W₁ id).words n [] := by
    induction n using Nat.strongRecOn with
    | ind n ih =>
      intro hn
      obtain ⟨m, hm, hb⟩ := supports n [] hn
      obtain ⟨y, ry, by', therey, statey, levely, ⟨i, hi, hy⟩, aloney⟩ := blamed m hb
      by_cases itself : y = id
      · subst itself
        exact ih i (by omega) hy
      · -- another rule in progress was so before, so it leads here
        obtain ⟨lty, r₀, there₀, state₀, name₀⟩ := ext.begun therey statey
        rw [Grammar.begun, Grammar.get?_revised, if_neg (Ne.symm itself)] at there₀
        have floor : W.level id ≤ W.level y := ready.begun y r₀ by' there₀ state₀
        have body_le : W₁.level body ≤ W₁.level id := names.trace.length_le
        rw [← ext.level lty, ← ext.level lt] at floor
        have flat : W₁.level body = W₁.level id := by omega
        have standsAlone : links.alone r₁.name ry.name :=
          names.alone_body (names.trace.eq_of_length flat) _ (aloney (by omega))
        have head : (W id).heads r.name := (ready.sound.node id _ there).1.head
        have leads := ready.leads y r₀ by' there₀ state₀
          (by show W.level y = W.level id; rw [← ext.level lty, ← ext.level lt]; omega) r.name head
        exact plain ⟨ry.name, r₁.name, by rw [← name₀, ← name]; exact leads, standsAlone⟩
  rintro ⟨n, hn⟩
  exact noneAt n hn

theorem Extends.under {y : Nat} (ext : Extends W g W' g') (hx : x < g.size) (hy : y < g.size)
    (h : W.level x < k → ((W x).words.after kind).Under (W y).words) :
    W'.level x < k → ((W' x).words.after kind).Under (W' y).words := by
  rw [ext.level hx, ext.world x hx, ext.world y hy]
  exact h

theorem Evaluates.complete (h : Evaluates W g q a W' g') (ready : Ready links W g q)
    (complete : Complete W g k) (trusted : links.Entangled → Right W' g' k) :
    Complete W' g' k ∧ a.Complete W' g' k q := by
  induction h with
  | @spent W g id s node there spent =>
    refine ⟨complete, fun level n w hw => ?_⟩
    cases node with
    | empty =>
      have void : W id = .void := ready.sound.node id _ there
      rw [void] at hw
      exact hw.elim
    | matched => cases (complete.node id _ there).supports (Nat.le_of_lt level) n (s.kind :: w) hw
    | _ => cases spent
  | @undefined W g id s name there =>
    refine ⟨complete.of_eq rfl rfl, fun level n w hw => ?_⟩
    exact absurd hw ((complete.node id _ there).supports (Nat.le_of_lt level) n (s.kind :: w))
  | @rule_known W g id body next s r there known =>
    obtain ⟨⟨kind, _⟩, memo, found⟩ := Option.bind_eq_some_iff.mp known
    obtain ⟨rfl, rfl⟩ : kind = s.kind ∧ _ = next := by simpa using found
    exact ⟨complete, (complete.node id _ there).memo r body _ _ rfl memo⟩
  | @rule_new W g id body s r there _ =>
    have lt := lt_size_of_get? there
    refine ⟨complete.withDerivedRule ready.formed there, fun _ => ?_⟩
    show (Ranked.after (World.put _ _ _ id).words _).Under (World.put _ _ _ (g.size + 1)).words
    rw [World.put_self, World.put_of_lt (by omega), World.put_of_lt lt]
    exact .refl _
  | @thunk W W₁ W₂ g g₁ g₂ id base target next s t there hf hd ihf ihd =>
    have ready₁ := ready.derive_target hf
    obtain ⟨complete₁, under⟩ := ihf ready.force_of_derive complete
      fun tangled => hd.extension.right (trusted tangled)
    obtain ⟨complete₂, under'⟩ := ihd ready₁ complete₁ trusted
    have lt := Nat.lt_of_lt_of_le (lt_size_of_get? there) hf.extension.size
    have target_id : (W₁ target).Refines (W₁ id) := (hf.sound ready.formed ready.sound).2
    refine ⟨complete₂, fun level => ?_⟩
    have level₁ : W₁.level id < k := hd.extension.level lt ▸ level
    have range : target < g₁.size := ready₁.range
    have level₂ : W₂.level target < k := by
      rw [hd.extension.level range]
      exact Nat.lt_of_le_of_lt target_id.level_le level₁
    refine Ranked.Under.trans ?_ (under' level₂)
    rw [hd.extension.world target range, hd.extension.world id lt]
    exact (under (Nat.le_of_lt level₁)).after s.kind
  | known _ _ found => exact ⟨complete, complete.memo _ _ _ found⟩
  | fresh _ _ _ _ ih =>
    obtain ⟨complete₁, under⟩ := ih ready.compute (complete.of_eq rfl rfl) trusted
    exact ⟨complete₁.finished under, under⟩
  | @hit W g id s kind there hit =>
    have lt := lt_size_of_get? there
    refine ⟨complete.withNode ready.formed (World.Supports.backs (fun _ n w hw => ?_) nofun),
      fun level n w hw => ?_⟩
    · rw [World.put_self] at hw
      exact hw
    · have hw : (World.put _ _ _ id).words n (s.kind :: w) := hw
      have level : (World.put _ _ _).level id < k := level
      rw [World.put_of_lt lt] at hw
      rw [World.level_congr (World.put_of_lt lt)] at level
      rw [World.put_self]
      rcases (complete.node id _ there).supports (Nat.le_of_lt level) n _ hw with ⟨-, same⟩
        | ⟨-, same⟩
      · cases same
      · exact Ranked.upto_self (List.cons.inj same).2
  | @miss W g id s kind there miss =>
    refine ⟨complete, fun level n w hw => ?_⟩
    rcases (complete.node id _ there).supports (Nat.le_of_lt level) n _ hw with ⟨-, same⟩
      | ⟨terminal, same⟩
    · cases same
    · exact absurd ⟨terminal, (List.cons.inj same).1.symm⟩ miss
  | @alt W W₁ W₂ g g₁ g₂ id left right l r s there hl hr ihl ihr =>
    have ready₁ := ready.after hl
    have ready₂ := ready₁.after hr
    have there₁ := hl.extension.get?_fixed there rfl
    have there₂ := hr.extension.get?_fixed there₁ rfl
    have solidl : g₁.Solid l := (hl.formed ready.formed).2
    have solidr : g₂.Solid r := (hr.formed ready₁.formed).2
    have lt : id < g₂.size := ready₂.range
    have new (m : Meaning) : Extends W₂ g₂ (W₂.put g₂.size m) (g₂.withNode (.alt l r)) :=
      .withFixed rfl _
    obtain ⟨complete₁, underl⟩ := ihl (ready.left_of_alt there) complete
      fun tangled => (hr.extension.trans (new _)).right (trusted tangled)
    obtain ⟨complete₂, underr⟩ := ihr (ready₁.right_of_alt there₁) complete₁
      fun tangled => (new _).right (trusted tangled)
    refine ⟨complete₂.withAlt ready₂.formed (solidl.extended hr.extension) solidr rfl,
      fun level => ?_⟩
    have level : W₂.level id < k := (new _).level lt ▸ level
    obtain ⟨left_id, right_id⟩ := ready₂.sound.node id _ there₂
    have supports := (complete₂.node id _ there₂).supports (Nat.le_of_lt level)
    show (Ranked.after (World.put _ _ _ id).words _).Under (World.put _ _ _ g₂.size).words
    rw [World.put_self, World.put_of_lt lt]
    have underl := hr.extension.under (ready₁.left_of_alt there₁).range solidl.lt_size underl
    exact Ranked.under_union supports (underl (Nat.lt_of_le_of_lt left_id.level_le level))
      (underr (Nat.lt_of_le_of_lt right_id.level_le level))
  | @cat W W₁ W₂ g g₁ g₂ id left right l s there hb hl ihb ihl =>
    have ready₁ := ready.after hb
    have ready₂ := ready₁.after hl
    have there₁ := hb.extension.get?_fixed there rfl
    have there₂ := hl.extension.get?_fixed there₁ rfl
    have solidl : g₂.Solid l := (hl.formed ready₁.formed).2
    have lt : id < g₂.size := ready₂.range
    have new (m : Meaning) : Extends W₂ g₂ (W₂.put g₂.size m) (g₂.withNode (.cat l right)) :=
      .withFixed rfl _
    obtain ⟨complete₁, unmatched⟩ := ihb (ready.left_of_cat there).1 complete
      fun tangled => (hl.extension.trans (new _)).right (trusted tangled)
    obtain ⟨complete₂, underl⟩ := ihl (ready₁.left_of_cat there₁).2 complete₁
      fun tangled => (new _).right (trusted tangled)
    refine ⟨complete₂.withCat ready₂.formed solidl (ready₂.formed.node id _ there₂).2.2 rfl,
      fun level n w hw => ?_⟩
    have level : W₂.level id < k := (new _).level lt ▸ level
    have hw : (World.put _ _ _ id).words n (s.kind :: w) := hw
    rw [World.put_of_lt lt] at hw
    rw [World.put_self]
    have joins : (W₂ left).Joins (W₂ right) (W₂ id) := ready₂.sound.node id _ there₂
    have le : W₂.level left ≤ W₂.level id := joins.left.length_le
    have supports := (complete₂.node id _ there₂).supports (Nat.le_of_lt level)
    rcases Ranked.concat_or_skipped supports (underl (Nat.lt_of_le_of_lt le level)) hw with
      found | ⟨⟨m, -, null⟩, -⟩
    · exact Ranked.upto_self found
    · -- the left part was found not to match the empty word, with nothing to blame for it
      have range : left < g₁.size := (ready₁.left_of_cat there₁).1.range
      have lt₁ : id < g₁.size := ready₁.range
      rw [hl.extension.world left range] at null
      rw [hl.extension.level range, hl.extension.level lt₁] at le
      rw [hl.extension.level lt₁] at level
      have blamed := unmatched (Nat.lt_of_le_of_lt le level) rfl m null
      exact absurd blamed (ready₁.not_blamed le)
  | @cat_nullable W W₁ W₂ W₃ W₄ g g₁ g₂ g₄ id left right l skipped s there hb hl same hr ihb
      ihl ihr =>
    have ready₁ := ready.after hb
    have ready₂ := ready₁.after hl
    have there₁ := hb.extension.get?_fixed there rfl
    have there₂ := hl.extension.get?_fixed there₁ rfl
    have solidl : g₂.Solid l := (hl.formed ready₁.formed).2
    have solidr : g₂.Solid right := (ready₂.formed.node id _ there₂).2.2
    have ready₃ := ready.right_of_consumed there hb hl same
    have new₃ : Extends W₂ g₂ W₃ (g₂.withNode (.cat l right)) := .put same rfl
    have formed₄ := (hr.formed ready₃.formed).1
    have solids : g₄.Solid skipped := (hr.formed ready₃.formed).2
    have ext₄ := new₃.trans hr.extension
    have new₄ (m : Meaning) :
        Extends W₄ g₄ (W₄.put g₄.size m) (g₄.withNode (.alt g₂.size skipped)) :=
      .withFixed rfl _
    obtain ⟨complete₁, -⟩ := ihb (ready.left_of_cat there).1 complete
      fun tangled => ((hl.extension.trans ext₄).trans (new₄ _)).right (trusted tangled)
    obtain ⟨complete₂, underl⟩ := ihl (ready₁.left_of_cat there₁).2 complete₁
      fun tangled => (ext₄.trans (new₄ _)).right (trusted tangled)
    have complete₃ : Complete W₃ (g₂.withNode (.cat l right)) k := by
      rw [same]
      exact complete₂.withCat ready₂.formed solidl solidr rfl
    obtain ⟨complete₄, underr⟩ :=
      ihr ready₃ complete₃ fun tangled => (new₄ _).right (trusted tangled)
    have solidc : g₄.Solid g₂.size := (Grammar.solid_withNode rfl).extended hr.extension
    refine ⟨complete₄.withAlt formed₄ solidc solids rfl, fun level n w hw => ?_⟩
    have lt : id < g₂.size := ready₂.range
    have lt₄ : id < g₄.size := Nat.lt_of_lt_of_le lt ext₄.size
    have level : W₂.level id < k := (ext₄.trans (new₄ _)).level lt ▸ level
    have hw : (World.put _ _ _ id).words n (s.kind :: w) := hw
    rw [World.put_of_lt lt₄, ext₄.world id lt] at hw
    rw [World.put_self]
    have joins : (W₂ left).Joins (W₂ right) (W₂ id) := ready₂.sound.node id _ there₂
    have le : W₂.level left ≤ W₂.level id := joins.left.length_le
    have supports := (complete₂.node id _ there₂).supports (Nat.le_of_lt level)
    rcases Ranked.concat_or_skipped supports (underl (Nat.lt_of_le_of_lt le level)) hw with
      found | ⟨-, m, hm, rest⟩
    · -- the sequence that was made first has the word
      have made : (W₄ g₂.size).words = (W₂ l).words.concat (W₂ right).words := by
        have size : g₂.size < (g₂.withNode (.cat l right)).size := by
          rw [Grammar.size_withNode]
          omega
        rw [hr.extension.world g₂.size size, same, World.put_self]
        rfl
      refine Ranked.upto_self (.inl ?_)
      rw [made]
      exact found
    · have level_right : W₄.level right < k := by
        rw [ext₄.level solidr.lt_size]
        have flat : W₂.level right = 0 := by
          show (W₂ right).trace.length = 0
          rw [joins.right]
          rfl
        omega
      rw [← ext₄.world right solidr.lt_size] at rest
      obtain ⟨i, hi, rest⟩ := underr level_right m w rest
      exact ⟨i, by omega, .inr rest⟩
  | @rep W W₁ g g₁ id body d s there hd ih =>
    have ready₁ := ready.after hd
    have there₁ := hd.extension.get?_fixed there rfl
    have solidd : g₁.Solid d := (hd.formed ready.formed).2
    have lt : id < g₁.size := ready₁.range
    have new (m : Meaning) : Extends W₁ g₁ (W₁.put g₁.size m) (g₁.withNode (.cat d id)) :=
      .withFixed rfl _
    obtain ⟨complete₁, underd⟩ := ih (ready.body_of_rep there) complete
      fun tangled => (new _).right (trusted tangled)
    refine ⟨complete₁.withCat ready₁.formed solidd ⟨_, there₁, rfl⟩ rfl, fun level => ?_⟩
    have level : W₁.level id < k := (new _).level lt ▸ level
    show (Ranked.after (World.put _ _ _ id).words _).Under (World.put _ _ _ g₁.size).words
    rw [World.put_self, World.put_of_lt lt]
    have repeats : (W₁ body).Repeats (W₁ id) := ready₁.sound.node id _ there₁
    exact Ranked.under_repeat ((complete₁.node id _ there₁).supports (Nat.le_of_lt level))
      (underd (Nat.lt_of_le_of_lt repeats.body.level_le level))
  | @nullable_plain W g id node b there plain =>
    refine ⟨complete, fun level no n hn => ?_⟩
    subst no
    have supports := (complete.node id _ there).supports (Nat.le_of_lt level)
    cases node with
    | empty | undefined => exact absurd hn (supports n [])
    | token kind =>
      rcases supports n [] hn with ⟨same, -⟩ | ⟨-, same⟩
      · subst same
        cases plain
      · cases same
    | _ => cases plain
  | @nullable_left W W₁ g g₁ id left right there hl ih =>
    exact ⟨(ih (ready.nullable_left_of_alt there) complete trusted).1, nofun⟩
  | @nullable_right W W₁ W₂ g g₁ g₂ id left right b there hl hr ihl ihr =>
    have ready₁ := ready.after hl
    have ready₂ := ready₁.after hr
    have there₁ := hl.extension.get?_fixed there rfl
    have there₂ := hr.extension.get?_fixed there₁ rfl
    have readyl := ready₁.nullable_left_of_alt there₁
    obtain ⟨complete₁, blamedl⟩ := ihl (ready.nullable_left_of_alt there) complete
      fun tangled => hr.extension.right (trusted tangled)
    obtain ⟨complete₂, blamedr⟩ := ihr (ready₁.nullable_right_of_alt there₁) complete₁ trusted
    refine ⟨complete₂, fun level no n hn => ?_⟩
    obtain ⟨left_id, right_id⟩ := ready₂.sound.node id _ there₂
    rcases (complete₂.node id _ there₂).supports (Nat.le_of_lt level) n [] hn with
      ⟨m, hm, hl'⟩ | ⟨m, hm, hr'⟩
    · have range : left < g₁.size := readyl.range
      have level_left : W₁.level left < k := by
        rw [← hr.extension.level range]
        exact Nat.lt_of_le_of_lt left_id.level_le level
      have blamed := blamedl level_left rfl m (by rw [← hr.extension.world left range]; exact hl')
      exact (blamed.extended hr.extension range).part left_id.level_le hm
        fun flat => (left_id.2.2 (left_id.2.1.eq_of_length flat)).2
    · have blamed := blamedr (Nat.lt_of_le_of_lt right_id.level_le level) no m hr'
      exact blamed.part right_id.level_le hm
        fun flat => (right_id.2.2 (right_id.2.1.eq_of_length flat)).2
  | @nullable_first W W₁ g g₁ id left right there hl ih =>
    have ready₁ := ready.after hl
    have there₁ := hl.extension.get?_fixed there rfl
    obtain ⟨complete₁, blamed⟩ := ih (ready.nullable_left_of_cat there) complete trusted
    refine ⟨complete₁, fun level no n hn => ?_⟩
    have joins : (W₁ left).Joins (W₁ right) (W₁ id) := ready₁.sound.node id _ there₁
    have le : W₁.level left ≤ W₁.level id := joins.left.length_le
    obtain ⟨u, v, same, ⟨m, hm, hu⟩, hv⟩ :=
      (complete₁.node id _ there₁).supports (Nat.le_of_lt level) n [] hn
    obtain ⟨rfl, rfl⟩ := List.append_eq_nil_iff.mp same.symm
    exact (blamed (Nat.lt_of_le_of_lt le level) no m hu).part le hm
      fun flat => joins.alone_left (joins.left.eq_of_length flat) hv.holds
  | @nullable_second W W₁ W₂ g g₁ g₂ id left right b there hl hr ihl ihr =>
    have ready₁ := ready.after hl
    have ready₂ := ready₁.after hr
    have there₁ := hl.extension.get?_fixed there rfl
    have there₂ := hr.extension.get?_fixed there₁ rfl
    have null := (hl.sound ready.formed ready.sound).2 rfl
    obtain ⟨complete₁, -⟩ := ihl (ready.nullable_left_of_cat there) complete
      fun tangled => hr.extension.right (trusted tangled)
    obtain ⟨complete₂, blamed⟩ := ihr (ready₁.nullable_right_of_cat there₁ null) complete₁ trusted
    refine ⟨complete₂, fun level no n hn => ?_⟩
    have joins : (W₂ left).Joins (W₂ right) (W₂ id) := ready₂.sound.node id _ there₂
    obtain ⟨u, v, same, hu, m, hm, hv⟩ :=
      (complete₂.node id _ there₂).supports (Nat.le_of_lt level) n [] hn
    obtain ⟨rfl, rfl⟩ := List.append_eq_nil_iff.mp same.symm
    have flat : W₂.level right = 0 := by
      show (W₂ right).trace.length = 0
      rw [joins.right]
      rfl
    refine (blamed (by omega) no m hv).part (by omega) hm fun flat' => ?_
    have bare : (W₂ id).trace.length = 0 := flat'.symm.trans flat
    exact joins.alone_right (List.length_eq_zero_iff.mp bare) hu.holds
  | @nullable_thunk W W₁ W₂ g g₁ g₂ id base target t b there hf hn ihf ihn =>
    have ready₁ := ready.nullable_target hf
    obtain ⟨complete₁, under⟩ := ihf ready.force_of_nullable complete
      fun tangled => hn.extension.right (trusted tangled)
    obtain ⟨complete₂, blamed⟩ := ihn ready₁ complete₁ trusted
    have lt := Nat.lt_of_lt_of_le (lt_size_of_get? there) hf.extension.size
    have range : target < g₁.size := ready₁.range
    have target_id : (W₂ target).Refines (W₂ id) := by
      rw [hn.extension.world target range, hn.extension.world id lt]
      exact (hf.sound ready.formed ready.sound).2
    refine ⟨complete₂, fun level no n hn' => ?_⟩
    have level₁ : W₁.level id < k := hn.extension.level lt ▸ level
    rw [hn.extension.world id lt] at hn'
    obtain ⟨m, hm, ht⟩ := under (Nat.le_of_lt level₁) n [] hn'
    rw [← hn.extension.world target range] at ht
    exact (blamed (Nat.lt_of_le_of_lt target_id.level_le level) no m ht).part target_id.level_le hm
      fun flat => (target_id.2.2 (target_id.2.1.eq_of_length flat)).2
  | @nullable_done W g id body r b there state =>
    refine ⟨complete, fun level no n hn => ?_⟩
    exact absurd ⟨n, hn⟩ ((complete.node id _ there).right r body rfl (no ▸ state) level)
  | @nullable_cycle W g id body r there state =>
    have alone : (W id).alone r.name := (ready.sound.node id _ there).1.alone
    exact ⟨complete.of_eq rfl rfl, fun _ _ n hn =>
      ⟨id, r, body, there, state, Nat.le_refl _, Ranked.upto_self hn, fun _ => alone⟩⟩
  | @nullable_rule W W₁ g g₁ id body r b there state hb ih =>
    obtain ⟨r₁, there₁, -, -, step⟩ := hb.extension.get?_rule (Grammar.get?_begun there)
    have state₁ : r₁.fixpoint = .inProgress := by
      generalize r₁.fixpoint = fixpoint at step
      cases step
      rfl
    have ready₁ := ready.body_of_rule there
    obtain ⟨complete₁, blamed⟩ := ih ready₁ (complete.setFixpoint nofun)
      fun tangled => (trusted tangled).of_done there₁ state₁
    have sound₁ := (hb.sound ready₁.formed ready₁.sound).1
    have level_body : W₁.level body ≤ W₁.level id := (sound₁.node id _ there₁).1.trace.length_le
    have not_nullable : b = false → W₁.level id < k → ¬(W₁ id).words.Nullable := by
      intro no level
      by_cases tangled : links.Entangled
      · exact trusted tangled id _ body (Grammar.get?_done there₁) (by rw [no]) level
      · exact not_nullable_of_body ready there hb.extension sound₁ complete₁ level
          (blamed (Nat.lt_of_le_of_lt level_body level) no) tangled
    refine ⟨complete₁.setFixpoint fun done => not_nullable (Fixpoint.done.inj done), ?_⟩
    exact fun level no n hn => absurd ⟨n, hn⟩ (not_nullable no level)
  | force_other => exact ⟨complete, fun _ => .refl _⟩
  | @force_resolved W g id base target t there target =>
    exact ⟨complete, fun level =>
      (World.supports_resolved target).mp ((complete.node id _ there).supports level)⟩
  | force_running there state => exact absurd state (ready.not_running there)
  | @force_pending W W₁ g g₁ id base target t there state hd ih =>
    have ready₁ := ready.base_of_thunk there state
    obtain ⟨complete₁, under⟩ := ih ready₁ (complete.running there state)
      fun tangled => (trusted tangled).of_resolved
    have lt : id < (g.running id).size := by
      rw [Grammar.size_running]
      exact lt_size_of_get? there
    have range : base < (g.running id).size := ready₁.range
    have fits := (World.fits_waiting (t := t) (by rw [state]; rfl)).mp (ready.sound.node id _ there)
    have level_base : W.level base < W.level id := fits.2.length_le
    have under' : W₁.level id ≤ k → (W₁ id).words.Under (W₁ target).words := by
      intro level
      rw [hd.extension.level lt] at level
      have supports := (World.supports_waiting (t := t) (by rw [state]; rfl)).mp
        ((complete.node id _ there).supports level)
      rw [hd.extension.world id lt]
      refine supports.trans ?_
      rw [← hd.extension.world base range]
      refine under ?_
      rw [hd.extension.level range]
      omega
    exact ⟨complete₁.resolved under', under'⟩

end Evaluation

end DerivativeParsing
