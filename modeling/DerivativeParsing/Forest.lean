import DerivativeParsing.Tree

/-!
# Parse forests

A forest is a set of trees that remembers the order in which they were found. Equal trees that were
found by different routes are one tree of the forest.
-/

namespace DerivativeParsing

/-- A list of trees without repetitions. -/
structure Forest (α : Type) where
  trees : List (Tree α) := []
  nodup : trees.Nodup := by simp

namespace Forest

variable {α : Type}

def empty : Forest α := {}

def single (t : Tree α) : Forest α := { trees := [t] }

def size (f : Forest α) : Nat := f.trees.length

def isEmpty (f : Forest α) : Bool := f.trees.isEmpty

/-- The trees that satisfy a condition, in their order. -/
def filter (p : Tree α → Bool) (f : Forest α) : Forest α :=
  { trees := f.trees.filter p, nodup := f.nodup.filter p }

def text (write : α → String) (f : Forest α) : String :=
  f.trees.foldl (fun lines t => lines ++ t.text write ++ "\n") ""

instance : EmptyCollection (Forest α) := ⟨empty⟩

instance : Inhabited (Forest α) := ⟨empty⟩

variable [DecidableEq α]

def contains (f : Forest α) (t : Tree α) : Bool := decide (t ∈ f.trees)

/-- Adds a tree at the end, unless it is there already. -/
def insert (f : Forest α) (t : Tree α) : Forest α :=
  if h : t ∈ f.trees then f
  else
    { trees := f.trees ++ [t]
      nodup := List.nodup_append.mpr ⟨f.nodup, by simp, by
        intro a ha b hb
        rw [List.mem_singleton.mp hb]
        exact fun same => h (same ▸ ha)⟩ }

/-- The trees of both forests, those of the first in front. -/
def union (f g : Forest α) : Forest α :=
  g.trees.foldl insert f

/-- Every tree of the first forest joined with every tree of the second. -/
def permute (f g : Forest α) : Forest α :=
  f.trees.foldl (fun acc l => g.trees.foldl (fun acc r => acc.insert (l.join r)) acc) empty

/-- Whether two forests have the same trees, in whatever order. -/
def sameTrees (f g : Forest α) : Bool :=
  f.size == g.size && f.trees.all g.contains

/-! ## Membership -/

@[simp] theorem contains_iff {f : Forest α} {t : Tree α} : f.contains t = true ↔ t ∈ f.trees := by
  simp [contains]

theorem mem_insert {f : Forest α} {s t : Tree α} :
    s ∈ (f.insert t).trees ↔ s ∈ f.trees ∨ s = t := by
  unfold insert
  split
  · rename_i h
    exact ⟨Or.inl, fun hs => hs.elim id fun same => same ▸ h⟩
  · simp

theorem mem_foldl_insert {f : Forest α} {ts : List (Tree α)} {t : Tree α} :
    t ∈ (ts.foldl insert f).trees ↔ t ∈ f.trees ∨ t ∈ ts := by
  induction ts generalizing f with
  | nil => simp
  | cons s ts ih => rw [List.foldl_cons, ih, mem_insert, List.mem_cons, or_assoc]

theorem mem_union {f g : Forest α} {t : Tree α} :
    t ∈ (f.union g).trees ↔ t ∈ f.trees ∨ t ∈ g.trees :=
  mem_foldl_insert

theorem mem_permute {f g : Forest α} {t : Tree α} :
    t ∈ (f.permute g).trees ↔ ∃ l ∈ f.trees, ∃ r ∈ g.trees, l.join r = t := by
  have inner : ∀ (l : Tree α) (rs : List (Tree α)) (acc : Forest α),
      t ∈ (rs.foldl (fun acc r => acc.insert (l.join r)) acc).trees ↔
        t ∈ acc.trees ∨ ∃ r ∈ rs, l.join r = t := by
    intro l rs
    induction rs with
    | nil => simp
    | cons r rs ih =>
      intro acc
      rw [List.foldl_cons, ih, mem_insert]
      simp only [List.mem_cons, exists_eq_or_imp, or_assoc, eq_comm (a := t)]
  have outer : ∀ (ls : List (Tree α)) (acc : Forest α),
      t ∈ (ls.foldl (fun acc l =>
          g.trees.foldl (fun acc r => acc.insert (l.join r)) acc) acc).trees ↔
        t ∈ acc.trees ∨ ∃ l ∈ ls, ∃ r ∈ g.trees, l.join r = t := by
    intro ls
    induction ls with
    | nil => simp
    | cons l ls ih =>
      intro acc
      rw [List.foldl_cons, ih, inner]
      simp only [List.mem_cons, exists_eq_or_imp, or_assoc]
  unfold permute
  rw [outer]
  simp [empty]

/-! ## Equality -/

omit [DecidableEq α] in
theorem eq_of_trees {f g : Forest α} (h : f.trees = g.trees) : f = g := by
  cases f
  cases g
  cases h
  rfl

omit [DecidableEq α] in
theorem eq_empty {f : Forest α} (none : ∀ t, t ∉ f.trees) : f = empty :=
  eq_of_trees (List.eq_nil_iff_forall_not_mem.mpr none)

theorem trees_foldl_insert {f : Forest α} {ts : List (Tree α)} (nodup : (f.trees ++ ts).Nodup) :
    (ts.foldl insert f).trees = f.trees ++ ts := by
  induction ts generalizing f with
  | nil => simp
  | cons t ts ih =>
    have new : t ∉ f.trees := fun old => (List.nodup_append.mp nodup).2.2 t old t (.head _) rfl
    have added : (f.insert t).trees = f.trees ++ [t] := by simp [insert, new]
    rw [List.foldl_cons, ih (by simpa [added] using nodup), added, List.append_assoc]
    rfl

/-- Forests that share no tree are put one behind the other. -/
theorem trees_union {f g : Forest α} (disjoint : ∀ t ∈ f.trees, t ∉ g.trees) :
    (f.union g).trees = f.trees ++ g.trees := by
  refine trees_foldl_insert (List.nodup_append.mpr ⟨f.nodup, g.nodup, fun s hs t ht same => ?_⟩)
  exact disjoint s hs (same ▸ ht)

theorem empty_union (f : Forest α) : empty.union f = f := eq_of_trees (trees_union nofun)

theorem permute_empty (f : Forest α) : f.permute empty = empty := by
  refine eq_empty fun t ht => ?_
  obtain ⟨_, _, _, none, _⟩ := mem_permute.mp ht
  cases none

end Forest

end DerivativeParsing
