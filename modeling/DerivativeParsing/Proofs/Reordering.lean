import DerivativeParsing.Proofs.Depicting
import DerivativeParsing.Proofs.TandemRuns

/-!
# The order of rules

Two lists of rules are given in different orders, and one may have further rules. Then every node
has another name; but node for node the graphs are the same, as far as the rules of the shorter list
go.

1. `Plan` says where the nodes of a list of rules are: first all nonterminals, then the bodies in
   their order. `ofRules_built`: so they are in the graph that is built.
2. `Plan.pairing` pairs the nodes of two plans that are for the same spot of the same rule.
   `Plan.Built.twins`: then the graphs are twins.
3. `calls_reordered`: recognizers for lists of rules where one has all rules of the other answer the
   same.
-/

namespace DerivativeParsing

/-! ## Where the nodes of a body are -/

/-- How many nodes the graph of a language adds. -/
def Language.nodes : Language → Nat
  | epsilon | token _ => 1
  | alt left right | cat left right => left.nodes + right.nodes + 1
  | rep body => body.nodes + 1
  | rule _ => 0

namespace Grammar

/-- Nothing has been asked yet. -/
def Blank {L : Type} (g : Grammar L) : Prop := g.memo = {} ∧ g.provisional = false

section Bodies

variable {L : Type} {g g₁ g' : Grammar L} {names names' : Names} {lang : Language}
  {base base' : Nat} {id id' : NodeId} {R : Pairing}

/-- The graph of a language has the slots from `base` on, and begins at a node. -/
def Laid (names : Names) (g : Grammar L) : Language → Nat → NodeId → Prop
  | .epsilon, base, id => id = base ∧ g.arena.get? id = some (.token Kind.epsilon)
  | .token kind, base, id => id = base ∧ g.arena.get? id = some (.token kind)
  | .alt left right, base, id =>
    ∃ l r, Laid names g left base l ∧ Laid names g right (base + left.nodes) r ∧
      id = base + left.nodes + right.nodes ∧ g.arena.get? id = some (.alt l r)
  | .cat left right, base, id =>
    ∃ l r, Laid names g left base l ∧ Laid names g right (base + left.nodes) r ∧
      id = base + left.nodes + right.nodes ∧ g.arena.get? id = some (.cat l r)
  | .rep body, base, id =>
    ∃ b, Laid names g body base b ∧ id = base + body.nodes ∧ g.arena.get? id = some (.rep b)
  | .rule name, _, id => names.lookup name = some id

theorem Laid.retained (h : g.Laid names lang base id) (retains : g.Retains g') :
    g'.Laid names lang base id := by
  induction lang generalizing base id with
  | epsilon | token => exact ⟨h.1, retains id _ h.2 nofun⟩
  | alt left right ihl ihr | cat left right ihl ihr =>
    obtain ⟨l, r, hl, hr, here, there⟩ := h
    exact ⟨l, r, ihl hl, ihr hr, here, retains id _ there nofun⟩
  | rep body ih =>
    obtain ⟨b, hb, here, there⟩ := h
    exact ⟨b, ih hb, here, retains id _ there nofun⟩
  | rule name => exact h

/-- Adding the graph of a language lays it out behind what is there. -/
theorem lower_laid (h : lower names lang g = .ok (id, g')) :
    g'.size = g.size + lang.nodes ∧ g'.Laid names lang g.size id ∧ (g.Blank → g'.Blank) := by
  induction lang generalizing g id g' with
  | epsilon | token =>
    obtain ⟨rfl, rfl⟩ := alloc_ok.mp h
    exact ⟨size_withNode g _, ⟨rfl, get?_withNode_self _⟩, fun blank => blank⟩
  | alt left right ihl ihr | cat left right ihl ihr =>
    obtain ⟨l, g₁, hl, h⟩ := Action.bind_ok.mp h
    obtain ⟨r, g₂, hr, h⟩ := Action.bind_ok.mp h
    obtain ⟨rfl, rfl⟩ := alloc_ok.mp h
    obtain ⟨size₁, left_is, blank₁⟩ := ihl hl
    obtain ⟨size₂, right_is, blank₂⟩ := ihr hr
    have last := retains_withNode g₂
    rw [size₁] at right_is size₂
    refine ⟨?_, ⟨l, r, left_is.retained ((lower_depicts hr).1.trans (last _)),
      right_is.retained (last _), size₂, get?_withNode_self _⟩, fun blank => blank₂ (blank₁ blank)⟩
    rw [size_withNode, size₂, Language.nodes]
    omega
  | rep body ih =>
    obtain ⟨b, g₁, hb, h⟩ := Action.bind_ok.mp h
    obtain ⟨rfl, rfl⟩ := alloc_ok.mp h
    obtain ⟨size, body_is, blank⟩ := ih hb
    refine ⟨?_, ⟨b, body_is.retained (retains_withNode g₁ _), size, get?_withNode_self _⟩, blank⟩
    rw [size_withNode, size]
    rfl
  | rule name =>
    obtain ⟨found, rfl⟩ := resolve_ok.mp h
    exact ⟨rfl, found, fun blank => blank⟩

/-- Graphs of the same language are twins, if their nodes are paired in their order. -/
theorem Laid.twin (h : g.Laid names lang base id) (h' : g'.Laid names' lang base' id')
    (rules : ∀ name x y, names.lookup name = some x → names'.lookup name = some y → R.Pairs x y)
    (shift : ∀ k < lang.nodes, R.Pairs (base + k) (base' + k)) :
    R.Pairs id id' ∧ ∀ k < lang.nodes, ∃ node node', g.arena.get? (base + k) = some node ∧
      g'.arena.get? (base' + k) = some node' ∧ node.Twin R node' := by
  induction lang generalizing base base' id id' with
  | epsilon | token =>
    obtain ⟨rfl, there⟩ := h
    obtain ⟨rfl, there'⟩ := h'
    have first : R.Pairs id id' := shift 0 Nat.zero_lt_one
    refine ⟨first, fun k lt => ?_⟩
    obtain rfl : k = 0 := Nat.lt_one_iff.mp lt
    exact ⟨_, _, there, there', .token _⟩
  | alt left right ihl ihr | cat left right ihl ihr =>
    obtain ⟨l, r, hl, hr, rfl, there⟩ := h
    obtain ⟨l', r', hl', hr', rfl, there'⟩ := h'
    rw [Language.nodes] at shift ⊢
    obtain ⟨pairl, lefts⟩ := ihl hl hl' fun k lt => shift k (by omega)
    obtain ⟨pairr, rights⟩ := ihr hr hr' fun k lt => by
      rw [Nat.add_assoc, Nat.add_assoc]
      exact shift (left.nodes + k) (by omega)
    have last := shift (left.nodes + right.nodes) (by omega)
    rw [← Nat.add_assoc, ← Nat.add_assoc] at last
    refine ⟨last, fun k lt => ?_⟩
    rcases Nat.lt_trichotomy k (left.nodes + right.nodes) with before | rfl | after
    · by_cases inside : k < left.nodes
      · exact lefts k inside
      · have within := rights (k - left.nodes) (by omega)
        rwa [Nat.add_assoc, Nat.add_assoc, Nat.add_sub_cancel' (Nat.le_of_not_lt inside)] at within
    · rw [← Nat.add_assoc, ← Nat.add_assoc]
      exact ⟨_, _, there, there', by constructor <;> assumption⟩
    · omega
  | rep body ih =>
    obtain ⟨b, hb, rfl, there⟩ := h
    obtain ⟨b', hb', rfl, there'⟩ := h'
    rw [Language.nodes] at shift ⊢
    obtain ⟨pair, bodies⟩ := ih hb hb' fun k lt => shift k (Nat.lt_succ_of_lt lt)
    refine ⟨shift body.nodes (Nat.lt_succ_self _), fun k lt => ?_⟩
    rcases Nat.lt_succ_iff_lt_or_eq.mp lt with before | rfl
    · exact bodies k before
    · exact ⟨_, _, there, there', .rep pair⟩
  | rule name => exact ⟨rules name id id' h h', fun k lt => absurd lt (Nat.not_lt_zero k)⟩

end Bodies

end Grammar

/-! ## Where the nodes of a list of rules are -/

/-- How many nodes the bodies of the rules before one of a name have. -/
def Language.before (name : String) : List (String × Language) → Nat
  | [] => 0
  | (first, lang) :: rest => if first = name then 0 else lang.nodes + before name rest

/-- No two bodies have a node in common. -/
theorem Language.before_inj {rules : List (String × Language)} {name name' : String}
    {lang lang' : Language} {k k' : Nat} (nodup : (rules.map Prod.fst).Nodup)
    (member : (name, lang) ∈ rules) (member' : (name', lang') ∈ rules) (lt : k < lang.nodes)
    (lt' : k' < lang'.nodes) (same : before name rules + k = before name' rules + k') :
    name = name' := by
  induction rules with
  | nil => cases member
  | cons rule rest ih =>
    obtain ⟨first, body⟩ := rule
    obtain ⟨new, nodup⟩ := List.nodup_cons.mp nodup
    have ne {other : String} {lang : Language} (member : (other, lang) ∈ rest) : first ≠ other := by
      rintro rfl
      exact new (List.mem_map.mpr ⟨_, member, rfl⟩)
    rw [before, before] at same
    rcases List.mem_cons.mp member with here | later
    · cases here
      rcases List.mem_cons.mp member' with here | later'
      · cases here
        rfl
      · rw [if_pos rfl, if_neg (ne later')] at same
        omega
    · rcases List.mem_cons.mp member' with here | later'
      · cases here
        rw [if_neg (ne later), if_pos rfl] at same
        omega
      · rw [if_neg (ne later), if_neg (ne later')] at same
        exact ih nodup later later' (by omega)

/-- What a slot is for: the node that matches nothing, a nonterminal, or a node in the body of
one. -/
inductive Spot
  | nothing
  | rule (name : String)
  | body (name : String) (offset : Nat)

/-- Where the nodes of a list of rules are: behind the nonterminals, the bodies in their order. -/
structure Plan where
  rules : List (String × Language)
  names : Names
  /-- The first slot behind the nonterminals. -/
  first : Nat
  nodup : (rules.map Prod.fst).Nodup
  positive : 0 < first
  within : ∀ name id, names.lookup name = some id → 0 < id ∧ id < first
  injective : ∀ name name' id, names.lookup name = some id → names.lookup name' = some id →
    name = name'

namespace Plan

variable {L : Type} {p p' : Plan} {g g' : Grammar L}

def At (p : Plan) : Spot → Nat → Prop
  | .nothing, x => x = Grammar.nothing
  | .rule name, x => p.names.lookup name = some x
  | .body name k, x => ∃ lang, (name, lang) ∈ p.rules ∧ k < lang.nodes ∧
      x = p.first + Language.before name p.rules + k

theorem at_right {spot : Spot} {x y : Nat} (h : p.At spot x) (h' : p.At spot y) : x = y := by
  cases spot with
  | nothing => exact h.trans h'.symm
  | rule name => exact Option.some.inj (h.symm.trans h')
  | body name k =>
    obtain ⟨_, -, -, here⟩ := h
    obtain ⟨_, -, -, here'⟩ := h'
    exact here.trans here'.symm

/-- Bodies are behind the nonterminals, and those behind the node that matches nothing. -/
theorem at_left {spot spot' : Spot} {x : Nat} (h : p.At spot x) (h' : p.At spot' x) :
    spot = spot' := by
  have positive := p.positive
  have some {name : String} (h : p.At (.rule name) x) : 0 < x ∧ x < p.first := p.within name x h
  have behind {name : String} {k : Nat} (h : p.At (.body name k) x) : p.first ≤ x := by
    obtain ⟨_, -, -, rfl⟩ := h
    omega
  have none (h : p.At .nothing x) : x = 0 := h
  cases spot with
  | nothing =>
    cases spot' with
    | nothing => rfl
    | rule => have := none h; have := some h'; omega
    | body => have := none h; have := behind h'; omega
  | rule name =>
    cases spot' with
    | nothing => have := some h; have := none h'; omega
    | rule name' => rw [p.injective name name' x h h']
    | body => have := some h; have := behind h'; omega
  | body name k =>
    cases spot' with
    | nothing => have := behind h; have := none h'; omega
    | rule => have := behind h; have := some h'; omega
    | body name' k' =>
      obtain ⟨lang, member, lt, here⟩ := h
      obtain ⟨lang', member', lt', here'⟩ := h'
      obtain rfl := Language.before_inj p.nodup member member' lt lt' (by omega)
      obtain rfl : k = k' := by omega
      rfl

def pairing (p p' : Plan) : Pairing where
  Pairs x y := ∃ spot, p.At spot x ∧ p'.At spot y
  unique := by
    constructor
    · rintro x x' y ⟨spot, h, hy⟩ ⟨spot', h', hy'⟩
      obtain rfl := at_left hy hy'
      exact at_right h h'
    · rintro x y y' ⟨spot, hx, h⟩ ⟨spot', hx', h'⟩
      obtain rfl := at_left hx hx'
      exact at_right h h'
  nothing := ⟨.nothing, rfl, rfl⟩

/-- The graph was built by the plan, and nothing has been asked yet. -/
structure Built (p : Plan) (g : Grammar L) : Prop where
  nothing : g.arena.get? Grammar.nothing = some .empty
  rule : ∀ name lang, (name, lang) ∈ p.rules → ∃ id title body, p.names.lookup name = some id ∧
    g.arena.get? id = some (.rule { name := title } body) ∧
      g.Laid p.names lang (p.first + Language.before name p.rules) body
  named : ∀ name id, p.names.lookup name = some id → ∃ lang, (name, lang) ∈ p.rules
  blank : g.Blank

/-- Graphs that were built by plans for the same rules are twins. One may have more rules. -/
theorem Built.twins [DecidableEq L] (h : p.Built g) (h' : p'.Built g')
    (sub : ∀ rule ∈ p.rules, rule ∈ p'.rules) : g.Twins (p.pairing p') g' where
  node x y pair := by
    have same {name : String} {lang lang' : Language} (member : (name, lang) ∈ p.rules)
        (member' : (name, lang') ∈ p'.rules) : lang = lang' := by
      cases List.inj_on_of_nodup_map p'.nodup (sub _ member) member' rfl
      rfl
    have laid (name : String) (lang : Language) (member : (name, lang) ∈ p.rules) :
        ∃ id title body id' title' body',
        p.names.lookup name = some id ∧ g.arena.get? id = some (.rule { name := title } body) ∧
        p'.names.lookup name = some id' ∧
          g'.arena.get? id' = some (.rule { name := title' } body') ∧
        (p.pairing p').Pairs body body' ∧ ∀ k < lang.nodes, ∃ node node',
          g.arena.get? (p.first + Language.before name p.rules + k) = some node ∧
          g'.arena.get? (p'.first + Language.before name p'.rules + k) = some node' ∧
            node.Twin (p.pairing p') node' := by
      obtain ⟨id, title, body, found, there, body_is⟩ := h.rule name lang member
      obtain ⟨id', title', body', found', there', body_is'⟩ := h'.rule name lang (sub _ member)
      obtain ⟨pair, twins⟩ :=
        body_is.twin (R := p.pairing p') body_is' (fun other x y hx hy => ⟨.rule other, hx, hy⟩)
        fun k lt => ⟨.body name k, ⟨lang, member, lt, rfl⟩, ⟨lang, sub _ member, lt, rfl⟩⟩
      exact ⟨id, title, body, id', title', body', found, there, found', there', pair, twins⟩
    obtain ⟨spot, hx, hy⟩ := pair
    cases spot with
    | nothing =>
      cases hx
      cases hy
      exact ⟨_, _, h.nothing, h'.nothing, .empty⟩
    | rule name =>
      obtain ⟨lang, member⟩ := h.named name x hx
      obtain ⟨id, title, body, id', title', body', found, there, found', there', pair, -⟩ :=
        laid name lang member
      cases found.symm.trans hx
      cases found'.symm.trans hy
      exact ⟨_, _, there, there', .rule (.fresh title title') pair⟩
    | body name k =>
      obtain ⟨lang, member, lt, rfl⟩ := hx
      obtain ⟨lang', member', -, rfl⟩ := hy
      obtain ⟨_, _, _, _, _, _, -, -, -, -, -, twins⟩ := laid name lang member
      exact twins k lt
  memo := by
    rw [h.blank.1, h'.blank.1]
    exact .empty (fun q => Memo.find?_nil q.1 q.2) fun q => Memo.find?_nil q.1 q.2
  provisional := h.blank.2.trans h'.blank.2.symm

end Plan

/-! ## What is built by a plan -/

namespace Grammar

section Rules

variable {L : Type} {g g' : Grammar L} {names names' : Names} {id : NodeId}

/-- Nonterminals of different names are different, and there are only nonterminals and the node that
matches nothing. -/
structure Declared (names : Names) (g : Grammar L) : Prop where
  positive : 0 < g.size
  nothing : g.arena.get? nothing = some .empty
  within : ∀ name id, names.lookup name = some id → 0 < id ∧ id < g.size
  injective : ∀ name name' id, names.lookup name = some id → names.lookup name' = some id →
    name = name'
  blank : g.Blank

theorem declared_initial : Declared [] (initial : Grammar L) where
  positive := Nat.zero_lt_one
  nothing := rfl
  within := nofun
  injective := nofun
  blank := ⟨rfl, rfl⟩

theorem Declared.cons (h : Declared names g) (name : String) :
    Declared ((name, g.size) :: names) (g.withNode (.undefined name)) where
  positive := by
    rw [size_withNode]
    exact Nat.succ_pos _
  nothing := (get?_withNode_of_lt h.positive).trans h.nothing
  within other id found := by
    rw [size_withNode]
    rw [lookup_cons] at found
    split at found
    · cases found
      exact ⟨h.positive, Nat.lt_succ_self _⟩
    · obtain ⟨positive, lt⟩ := h.within other id found
      exact ⟨positive, Nat.lt_succ_of_lt lt⟩
  injective other other' id found found' := by
    have old {name : String} (found : names.lookup name = some id) : id ≠ g.size :=
      Nat.ne_of_lt (h.within name id found).2
    rw [lookup_cons] at found found'
    split at found <;> split at found'
    · rename_i same same'
      rw [same, same']
    · cases found
      exact absurd rfl (old found')
    · cases found'
      exact absurd rfl (old found)
    · exact h.injective other other' id found found'
  blank := h.blank

theorem Declared.all {list : List String} (h : Declared names g)
    (run : declareAll names list g = .ok (names', g')) : Declared names' g' := by
  induction list generalizing names g with
  | nil =>
    obtain ⟨rfl, rfl⟩ := Action.pure_ok.mp run
    exact h
  | cons name rest ih =>
    have new : names.lookup name = none := (declareAll_nodup run).2 name (.head _)
    rw [declareAll, new] at run
    obtain ⟨id, g₁, declared, later⟩ := Action.bind_ok.mp run
    obtain ⟨rfl, rfl⟩ := alloc_ok.mp declared
    exact ih (h.cons name) later

theorem defineAll_laid {list : List (String × Language)} {u : Unit}
    (nodup : (list.map Prod.fst).Nodup) (h : defineAll names list g = .ok (u, g')) :
    (∀ name lang, (name, lang) ∈ list → ∃ id title body, names.lookup name = some id ∧
      g'.arena.get? id = some (.rule { name := title } body) ∧
        g'.Laid names lang (g.size + Language.before name list) body) ∧ (g.Blank → g'.Blank) := by
  induction list generalizing g with
  | nil =>
    obtain ⟨-, rfl⟩ := Action.pure_ok.mp h
    exact ⟨nofun, fun blank => blank⟩
  | cons rule rest ih =>
    obtain ⟨first, lang⟩ := rule
    obtain ⟨new, nodup⟩ := List.nodup_cons.mp nodup
    obtain ⟨body, g₁, hb, h⟩ := Action.bind_ok.mp h
    obtain ⟨target, _, hr, h⟩ := Action.bind_ok.mp h
    obtain ⟨found, rfl⟩ := resolve_ok.mp hr
    obtain ⟨_, g₂, hd, later⟩ := Action.bind_ok.mp h
    obtain ⟨title, there, rfl⟩ := define_ok.mp hd
    obtain ⟨size, body_is, blank₁⟩ := lower_laid hb
    obtain ⟨laid, blank₂⟩ := ih nodup later
    have after := (defineAll_draws later).1
    refine ⟨fun name lang' member => ?_, fun blank => blank₂ (blank₁ blank)⟩
    rw [Language.before]
    rcases List.mem_cons.mp member with same | member
    · cases same
      have defined : (g₁.revised target fun _ => .rule { name := title } body).arena.get? target =
          some (.rule { name := title } body) := by
        rw [get?_revised, if_pos rfl, there]
        rfl
      rw [if_pos rfl]
      exact ⟨target, title, body, found, after target _ defined nofun,
        body_is.retained ((retains_define body there).trans after)⟩
    · have ne : first ≠ name := by
        rintro rfl
        exact new (List.mem_map.mpr ⟨_, member, rfl⟩)
      obtain ⟨id, title', body', found', there', body_is'⟩ := laid name lang' member
      rw [size_revised, size, Nat.add_assoc] at body_is'
      rw [if_neg ne]
      exact ⟨id, title', body', found', there', body_is'⟩

theorem ofRules_built {rules : List (String × Language)} {start : String}
    (h : ofRules rules start = .ok (id, g)) :
    ∃ p : Plan, p.rules = rules ∧ p.Built g ∧ p.names.lookup start = some id := by
  obtain ⟨names, g₁, hdeclare, hdefine, found⟩ := ofRules_ok h
  have declared := declared_initial.all hdeclare
  have nodup := (declareAll_nodup hdeclare).1
  obtain ⟨laid, blank⟩ := defineAll_laid nodup hdefine
  refine ⟨⟨rules, names, g₁.size, nodup, declared.positive, declared.within, declared.injective⟩,
    rfl, ⟨?_, laid, fun name id found => ?_, blank declared.blank⟩, found⟩
  · exact (defineAll_draws hdefine).1 _ _ declared.nothing nofun
  · obtain ⟨⟨_, lang⟩, rule, rfl⟩ :=
      List.mem_map.mp ((declareAll_named hdeclare found).resolve_right nofun)
    exact ⟨lang, rule⟩

end Rules

end Grammar

/-! ## Runs -/

section Runs

variable {L : Type} [DecidableEq L] {rules rules' extra : List (String × Language)} {start : String}
  {settings : Settings} {r r' : Recognizer L}

/-- Recognizers for lists of rules, one of which has all rules of the other, are the same under
other names. -/
theorem exists_twin (sub : ∀ rule ∈ rules, rule ∈ rules')
    (built : Recognizer.ofRules rules start settings = .ok r)
    (built' : Recognizer.ofRules rules' start settings = .ok r') : ∃ R, r.Twin R r' := by
  obtain ⟨id, g, hg, rfl⟩ := ofRules_ok built
  obtain ⟨id', g', hg', rfl⟩ := ofRules_ok built'
  obtain ⟨p, rfl, hp, found⟩ := Grammar.ofRules_built hg
  obtain ⟨p', rfl, hp', found'⟩ := Grammar.ofRules_built hg'
  exact ⟨p.pairing p', hp.twins hp' sub, ⟨.rule start, found, found'⟩, .nil, rfl⟩

/-- The order of the rules does not matter, nor do further rules. Whatever calls are made, they are
answered the same: whether anything can still match, whether there is a match, how many symbols were
consumed, and the forests with their trees in their order. If they break, they do so in either
order. Both lists are accepted, so a further rule is none that the others lead to. -/
theorem calls_reordered (order : rules'.Perm (rules ++ extra))
    (built : (Source.ruled rules start).recognizer settings = .ok r)
    (built' : (Source.ruled rules' start).recognizer settings = .ok r') (calls : List (Call L)) :
    r.BothSettle r' (fun fuel => Recognizer.respondAll fuel calls)
      (fun fuel => Recognizer.respondAll fuel calls)
      fun responses _ responses' _ => responses = responses' := by
  obtain ⟨W, consistent, -, same, -, rooted⟩ := recognizer_consistent built
  obtain ⟨W', consistent', -, same', -, rooted'⟩ := recognizer_consistent built'
  have breaks_iff := respondAll_breaks_iff consistent rooted (idle_of_recognizer built) calls
  have breaks_iff' := respondAll_breaks_iff consistent' rooted' (idle_of_recognizer built') calls
  rw [same] at breaks_iff
  rw [same'] at breaks_iff'
  obtain ⟨R, twin⟩ :=
    exists_twin (fun rule member => order.mem_iff.mpr (List.mem_append_left _ member)) built built'
  rcases (respondAll_settles consistent rooted calls).both
    (respondAll_settles consistent' rooted' calls)
    (breaks_iff.trans breaks_iff'.symm) with ⟨responses, q, responses', q', ⟨N, answers⟩,
      ⟨N', answers'⟩, -⟩ | broken
  · refine .inl ⟨responses, q, responses', q', ⟨N, answers⟩, ⟨N', answers'⟩, ?_⟩
    obtain ⟨_, _, S, run, -, rfl⟩ :=
      Recognizer.inStep_respondAll (max N N') calls r r' twin responses q
      (answers _ (Nat.le_max_left N N'))
    cases run.symm.trans (answers' _ (Nat.le_max_right N N'))
    rfl
  · exact .inr broken

/-- A digit, or a sequence of digits that is nested to the left. -/
def digits : List (String × Language) :=
  [("S", .alt (.cat (.rule "S") (.rule "D")) (.rule "D")), ("D", .alt (.token 2) (.token 3))]

/-- The same rules the other way round, behind one that they do not lead to. -/
def digitsAgain : List (String × Language) :=
  [("E", .cat (.rule "E") (.rule "S")), ("D", .alt (.token 2) (.token 3)),
    ("S", .alt (.cat (.rule "S") (.rule "D")) (.rule "D"))]

theorem calls_reordered_digits :
    digitsAgain.Perm (digits ++ [("E", .cat (.rule "E") (.rule "S"))]) ∧
    ∃ r r' : Recognizer String, (Source.ruled digits "S").recognizer {} = .ok r ∧
      (Source.ruled digitsAgain "S").recognizer {} = .ok r' ∧
        ∃ responses q responses' q',
          Answers (fun fuel => Recognizer.respondAll fuel
            [.feed ⟨2, "a"⟩, .feed ⟨3, "b"⟩, .accepted, .forest, .parse [⟨3, "c"⟩], .reset]) r
              (responses, q) ∧
          Answers (fun fuel => Recognizer.respondAll fuel
            [.feed ⟨2, "a"⟩, .feed ⟨3, "b"⟩, .accepted, .forest, .parse [⟨3, "c"⟩], .reset]) r'
              (responses', q') ∧
          responses = responses' := by
  have order : digitsAgain.Perm (digits ++ [("E", .cat (.rule "E") (.rule "S"))]) := by decide
  have made :
      ((Source.ruled digits "S").recognizer {} : Except Error (Recognizer String)).isOk = true ∧
      ((Source.ruled digitsAgain "S").recognizer {} : Except Error (Recognizer String)).isOk =
      true := by decide +kernel
  obtain ⟨r, built⟩ := exists_of_isOk made.1
  obtain ⟨r', built'⟩ := exists_of_isOk made.2
  have period : r.settings.collectEvery ≠ some 0 := settings_of_recognizer built ▸ nofun
  exact ⟨order, r, r', built, built', (calls_reordered order built built' _).answers period⟩

end Runs

end DerivativeParsing
