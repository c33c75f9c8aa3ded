import DerivativeParsing.Arena

/-!
# Sliding slots down

`Arena.compact` reads its flags twice: one run over them counts the places that slots go to, another
picks what is moved. Both are told here by recursion on the flags, from any first place.

1. `slide` is the first run and `sift` the second; `renumbering_eq_slide` and `toList_retain` say
   so. `getElem?_sift` and `exists_slide` tie them together: `slide` sends a slot to where `sift`
   puts it.
2. `slide_spread` and `sift_spread`: two compactions are one, by the flags of the second spread over
   those of the first.
3. `Arena.Compacted` is what a compaction promises, and `Arena.compact_compacted` that it keeps it.
-/

namespace DerivativeParsing

/-! ## Places and contents -/

/-- Where slots go if the flagged ones are kept, the first of them going to `next`. -/
def slide (next : Nat) : List Bool → List (Option NodeId)
  | [] => []
  | true :: live => some next :: slide (next + 1) live
  | false :: live => none :: slide next live

section Slide

variable {α β : Type} {live later : List Bool} {xs : List α} {n i i' j j' k : Nat}

theorem renumbering_eq_slide (live : List Bool) : (renumbering live).toList = slide 0 live := by
  have main : ∀ (live : List Bool) (places : Array (Option NodeId)) (next : Nat),
      (live.foldl (fun (places, next) keep =>
        if keep then (places.push (some next), next + 1) else (places.push none, next))
          (places, next)).1.toList = places.toList ++ slide next live := by
    intro live
    induction live with
    | nil => exact fun places _ => (List.append_nil _).symm
    | cons keep live ih =>
      intro places next
      cases keep with
      | true => simp [ih, slide]
      | false => simp [ih, slide]
  exact main live #[] 0

theorem le_of_slide (h : (slide n live)[i]? = some (some j)) : n ≤ j := by
  induction live generalizing n i with
  | nil => simp [slide] at h
  | cons keep live ih =>
    cases keep <;> cases i <;>
      simp only [slide, List.getElem?_cons_zero, List.getElem?_cons_succ] at h
    · cases h
    · exact ih h
    · exact Nat.le_of_eq (Option.some.inj (Option.some.inj h))
    · exact Nat.le_of_succ_le (ih h)

/-- Slots that are kept, and only those, have somewhere to go. -/
theorem slide_iff : (∃ j, (slide n live)[i]? = some (some j)) ↔ live[i]? = some true := by
  induction live generalizing n i with
  | nil => simp [slide]
  | cons keep live ih => cases keep <;> cases i <;> simp [slide, ih]

theorem slide_lt (h : (slide n live)[i]? = some (some j))
    (h' : (slide n live)[i']? = some (some j')) (lt : i < i') : j < j' := by
  induction live generalizing n i i' with
  | nil => simp [slide] at h
  | cons keep live ih =>
    obtain ⟨i', rfl⟩ : ∃ n, i' = n + 1 := ⟨i' - 1, by omega⟩
    cases keep <;> cases i <;>
      simp only [slide, List.getElem?_cons_zero, List.getElem?_cons_succ] at h h'
    · cases h
    · exact ih h h' (Nat.lt_of_succ_lt_succ lt)
    · obtain rfl : n = j := Option.some.inj (Option.some.inj h)
      exact le_of_slide h'
    · exact ih h h' (Nat.lt_of_succ_lt_succ lt)

/-- What the flagged slots hold. -/
def sift (xs : List α) (live : List Bool) : List α :=
  (xs.zip live).filterMap fun (x, keep) => if keep then some x else none

theorem getElem?_sift (h : (slide n live)[i]? = some (some (n + k))) :
    (sift xs live)[k]? = xs[i]? := by
  induction live generalizing n i k xs with
  | nil => simp [slide] at h
  | cons keep live ih =>
    cases xs with
    | nil => simp [sift]
    | cons x xs =>
      cases keep <;> cases i <;>
        simp only [slide, List.getElem?_cons_zero, List.getElem?_cons_succ] at h
      · cases h
      · exact ih h
      · have same : n = n + k := Option.some.inj (Option.some.inj h)
        obtain rfl : k = 0 := by omega
        simp [sift]
      · have le := le_of_slide h
        obtain ⟨k, rfl⟩ : ∃ n, k = n + 1 := ⟨k - 1, by omega⟩
        rw [← Nat.add_assoc, Nat.add_right_comm] at h
        exact ih h

/-- Every slot that is left came from somewhere. -/
theorem exists_slide (lt : k < (sift xs live).length) :
    ∃ i : Nat, (slide n live)[i]? = some (some (n + k)) := by
  induction live generalizing n k xs with
  | nil => simp [sift] at lt
  | cons keep live ih =>
    cases xs with
    | nil => simp [sift] at lt
    | cons x xs =>
      cases keep with
      | false =>
        obtain ⟨i, h⟩ := ih (n := n) lt
        exact ⟨i + 1, h⟩
      | true =>
        cases k with
        | zero => exact ⟨0, rfl⟩
        | succ k =>
          obtain ⟨i, h⟩ := ih (n := n + 1) (Nat.lt_of_succ_lt_succ lt)
          exact ⟨i + 1, by rw [← Nat.add_assoc, Nat.add_right_comm]; exact h⟩

theorem length_slide : (slide n live).length = live.length := by
  induction live generalizing n with
  | nil => rfl
  | cons keep live ih => cases keep <;> simp [slide, ih]

/-- Slots that are dropped, and only those, have nowhere to go. -/
theorem slide_none_iff : (slide n live)[i]? = some none ↔ live[i]? = some false := by
  induction live generalizing n i with
  | nil => simp [slide]
  | cons keep live ih => cases keep <;> cases i <;> simp [slide, ih]

/-- No slot goes past what is left. -/
theorem slide_lt_length (xs : List α) (fits : live.length ≤ xs.length)
    (h : (slide n live)[i]? = some (some j)) : j < n + (sift xs live).length := by
  induction live generalizing n i xs with
  | nil => simp [slide] at h
  | cons keep live ih =>
    obtain ⟨x, xs, rfl⟩ := List.exists_cons_of_length_pos (Nat.lt_of_lt_of_le (Nat.succ_pos _) fits)
    have rest : live.length ≤ xs.length := Nat.le_of_succ_le_succ fits
    cases keep <;> cases i <;>
      simp only [slide, List.getElem?_cons_zero, List.getElem?_cons_succ] at h
    · cases h
    · exact ih xs rest h
    · obtain rfl : n = j := Option.some.inj (Option.some.inj h)
      exact Nat.lt_add_of_pos_right (Nat.succ_pos _)
    · have lt := ih xs rest h
      have more : (sift (x :: xs) (true :: live)).length = (sift xs live).length + 1 := rfl
      omega

theorem sift_nil : sift xs [] = [] := by
  rw [sift, List.zip_nil_right, List.filterMap_nil]

theorem sift_drop (n : Nat) :
    sift xs (live.drop n) =
      ((xs.zipIdx n).filter fun slot => live[slot.2]? == some true).map Prod.fst := by
  induction xs generalizing n with
  | nil => rfl
  | cons x xs ih =>
    rw [List.zipIdx_cons, List.filter_cons]
    rcases Nat.lt_or_ge n live.length with lt | ge
    · rw [List.drop_eq_getElem_cons lt, List.getElem?_eq_getElem lt]
      cases live[n] with
      | true => exact congrArg (x :: ·) (ih (n + 1))
      | false => exact ih (n + 1)
    · have rest := ih (n + 1)
      rw [List.drop_eq_nil_of_le (Nat.le_succ_of_le ge), sift_nil] at rest
      rw [List.drop_eq_nil_of_le ge, List.getElem?_eq_none ge, sift_nil]
      exact rest

end Slide

theorem Arena.toList_retain {α : Type} (a : Arena α) (live : List Bool) :
    (a.retain live).toList = sift a.toList live := rfl

/-! ## Two compactions in turn -/

/-- Reads a list through a map of places: each slot gets what the list has at its place, and a slot
that is dropped gets `dropped`. -/
def through {β : Type} (dropped : β) (places : List (Option NodeId)) (values : List β) : List β :=
  places.map fun place => place.elim dropped fun j => values[j]?.getD dropped

/-- Spreads a list over the flagged slots, in order; the other slots get `dropped`. -/
def spread {β : Type} (dropped : β) : List Bool → List β → List β
  | [], _ => []
  | false :: live, values => dropped :: spread dropped live values
  | true :: live, [] => dropped :: spread dropped live []
  | true :: live, value :: values => value :: spread dropped live values

section Turns

variable {α β : Type} {live later : List Bool} {xs : List α} {n : Nat}

theorem through_slide (dropped : β) (values : List β) :
    through dropped (slide n live) values = spread dropped live (values.drop n) := by
  induction live generalizing n with
  | nil => rfl
  | cons keep live ih =>
    cases keep with
    | false => exact congrArg (dropped :: ·) ih
    | true =>
      have tail : through dropped (slide (n + 1) live) values =
          spread dropped live (values.drop (n + 1)) := ih
      show values[n]?.getD dropped :: through dropped (slide (n + 1) live) values = _
      rcases Nat.lt_or_ge n values.length with lt | ge
      · rw [List.drop_eq_getElem_cons lt, List.getElem?_eq_getElem lt, tail]
        rfl
      · rw [List.drop_eq_nil_of_le (Nat.le_succ_of_le ge)] at tail
        rw [List.drop_eq_nil_of_le ge, List.getElem?_eq_none ge, tail]
        rfl

/-- The places by the flags of both turns are those of the second turn, spread by the first. -/
theorem slide_spread : slide n (spread false live later) = spread none live (slide n later) := by
  induction live generalizing n later with
  | nil => rfl
  | cons keep live ih =>
    cases keep with
    | false => exact congrArg (none :: ·) ih
    | true =>
      cases later with
      | nil => exact congrArg (none :: ·) ih
      | cons again later =>
        cases again with
        | true => exact congrArg (some n :: ·) ih
        | false => exact congrArg (none :: ·) ih

theorem sift_spread : sift xs (spread false live later) = sift (sift xs live) later := by
  induction live generalizing later xs with
  | nil => cases xs <;> rfl
  | cons keep live ih =>
    cases xs with
    | nil => rfl
    | cons x xs =>
      cases keep with
      | false => exact ih
      | true =>
        cases later with
        | nil => exact ih.trans (sift_nil.trans sift_nil.symm)
        | cons again later =>
          cases again with
          | true => exact congrArg (x :: ·) ih
          | false => exact ih

end Turns

/-! ## What a compaction promises -/

namespace Arena

variable {α : Type}

/-- What a compaction by the flags `live` leaves of an arena: the slots at the flagged positions and
nothing else, and a place for each old slot, in order, at which it is left as it was. -/
structure Compacted (a : Arena α) (live : List Bool) (after : Arena α)
    (places : Array (Option NodeId)) : Prop where
  filtered : after.toList =
    (a.toList.zipIdx.filter fun slot => live[slot.2]? == some true).map Prod.fst
  entries : places.size = a.size
  dropped : ∀ i : Nat, places[i]? = some none ↔ live[i]? = some false
  increasing : ∀ i i' j j' : Nat, places[i]? = some (some j) → places[i']? = some (some j') →
    i < i' → j < j'
  onto : ∀ j, j < after.size ↔ ∃ i : Nat, places[i]? = some (some j)
  untouched : ∀ i : Nat, live[i]? = some true →
    ∃ j slot, places[i]? = some (some j) ∧ a.get? i = some slot ∧ after.get? j = some slot

theorem compacted_retain {a : Arena α} {live : List Bool} (fits : live.length = a.size) :
    a.Compacted live (a.retain live) (renumbering live) := by
  have place (i : Nat) : (renumbering live)[i]? = (slide 0 live)[i]? := by
    rw [← renumbering_eq_slide, Array.getElem?_toList]
  have left : (a.retain live).size = (sift a.toList live).length := Array.length_toList.symm
  constructor
  case filtered =>
    rw [toList_retain]
    exact sift_drop 0
  case entries => rw [← Array.length_toList, renumbering_eq_slide, length_slide, fits]
  case dropped => exact fun i => by rw [place, slide_none_iff]
  case increasing =>
    intro i i' j j' h h' lt
    rw [place] at h h'
    exact slide_lt h h' lt
  case onto =>
    intro j
    rw [left]
    constructor
    · intro lt
      obtain ⟨i, goes⟩ := exists_slide (n := 0) lt
      exact ⟨i, by rw [place, goes, Nat.zero_add]⟩
    · rintro ⟨i, goes⟩
      have lt := slide_lt_length a.toList (Nat.le_of_eq fits) ((place i).symm.trans goes)
      rwa [Nat.zero_add] at lt
  case untouched =>
    intro i kept
    obtain ⟨j, goes⟩ := slide_iff (n := 0) |>.mpr kept
    obtain ⟨inside, -⟩ := List.getElem?_eq_some_iff.mp kept
    obtain ⟨slot, there⟩ := Option.isSome_iff_exists.mp ((a.isSome_get? i).mpr (fits ▸ inside))
    have moved : (sift a.toList live)[j]? = a.toList[i]? :=
      getElem?_sift (n := 0) (by rw [goes, Nat.zero_add])
    refine ⟨j, slot, (place i).trans goes, there, ?_⟩
    rw [Arena.get?, ← Array.getElem?_toList]
    exact moved.trans (Array.getElem?_toList.trans there)

/-- A compaction by as many flags as there are slots loses, duplicates and reorders nothing, and two
in turn are one: by the flags of the second read through the places of the first, and the places of
the second read through them as well. -/
theorem compact_compacted (a : Arena α) (live : List Bool) (fits : live.length = a.size) :
    ∃ after places, a.compact live = some (after, places) ∧ a.Compacted live after places ∧
      ∀ later : List Bool, later.length = after.size →
        ∃ last moved, after.compact later = some (last, moved) ∧
          a.compact (through false places.toList later) =
            some (last, (through none places.toList moved.toList).toArray) := by
  refine ⟨a.retain live, renumbering live, if_neg (Nat.not_lt.mpr (Nat.le_of_eq fits.symm)),
    compacted_retain fits, fun later fits' => ?_⟩
  refine ⟨(a.retain live).retain later, renumbering later,
    if_neg (Nat.not_lt.mpr (Nat.le_of_eq fits'.symm)), ?_⟩
  have both : through false (renumbering live).toList later = spread false live later := by
    rw [renumbering_eq_slide, through_slide, List.drop_zero]
  have length : (through false (renumbering live).toList later).length = a.size := by
    rw [through, List.length_map, renumbering_eq_slide, length_slide, fits]
  have kept : a.retain (through false (renumbering live).toList later) =
      (a.retain live).retain later := by
    rw [both]
    exact congrArg (fun slots => Arena.mk (List.toArray slots)) sift_spread
  have moved : renumbering (through false (renumbering live).toList later) =
      (through none (renumbering live).toList (renumbering later).toList).toArray := by
    apply Array.toList_inj.mp
    rw [both, renumbering_eq_slide, renumbering_eq_slide, renumbering_eq_slide, through_slide,
      List.drop_zero, slide_spread]
  rw [compact, if_neg (Nat.not_lt.mpr (Nat.le_of_eq length.symm)), kept, moved]

/-- Five slots in a ring, each with edges to the next and to the one before. -/
def pentagon : Arena (Linked Char) :=
  ⟨#[⟨1, 4, 'a'⟩, ⟨2, 0, 'b'⟩, ⟨3, 1, 'c'⟩, ⟨4, 2, 'd'⟩, ⟨0, 3, 'e'⟩]⟩

theorem compact_compacted_pentagon :
    [true, false, true, false, true].length = pentagon.size ∧
    ∃ after places last moved,
      pentagon.compact [true, false, true, false, true] = some (after, places) ∧
      pentagon.Compacted [true, false, true, false, true] after places ∧
      [false, true, true].length = after.size ∧
      after.compact [false, true, true] = some (last, moved) ∧
      pentagon.compact (through false places.toList [false, true, true]) =
        some (last, (through none places.toList moved.toList).toArray) := by
  obtain ⟨after, places, first, compacted, twice⟩ :=
    compact_compacted pentagon [true, false, true, false, true] rfl
  have left : [false, true, true].length = after.size := by
    cases first
    rfl
  obtain ⟨last, moved, second, once⟩ := twice [false, true, true] left
  exact ⟨rfl, after, places, last, moved, first, compacted, left, second, once⟩

end Arena

end DerivativeParsing
