import ArrayExpr.Proofs.Indices

/-!
Stretching shapes to a common one. Shapes are aligned at their last axes, and an axis that is missing
counts as one of length one. The common shape is found exactly where each pair of lengths is equal or
one of the two is one (`broadcast?_eq_some_iff`). What is stretched is read at the same positions, those
along axes of length one apart, and every element is read somewhere unless the common shape is without
elements (`mem_stretch_iff`).
-/

namespace ArrayExpr.Shape

/-- The length of an axis, the axes being counted from the last one. A missing axis has length one. -/
def lengthAt (shape : List Nat) (k : Nat) : Nat :=
  shape.reverse.getD k 1

/-- The position along an axis, the axes being counted from the last one. -/
def positionAt (index : List Nat) (k : Nat) : Nat :=
  index.reverse.getD k 0

/-- Shapes in which each pair of lengths, aligned at the last axis, is equal or one of them is one. -/
def Compatible (a b : List Nat) : Prop :=
  ∀ k, lengthAt a k = lengthAt b k ∨ lengthAt a k = 1 ∨ lengthAt b k = 1

/-- The common shape of two shapes: of each pair of lengths the one that is not one. -/
structure IsBroadcast (a b target : List Nat) : Prop where
  rank : target.length = max a.length b.length
  axis : ∀ k, lengthAt target k = if lengthAt a k = 1 then lengthAt b k else lengthAt a k

/-- The index of a shape that is read for an index of a shape to which it stretches: the position is zero
along axes of length one and the same along all others. -/
structure Reads (shape index own : List Nat) : Prop where
  rank : own.length = shape.length
  axis : ∀ k < shape.length,
    positionAt own k = if lengthAt shape k = 1 then 0 else positionAt index k

/-- A shape that stretches to another: each of its lengths is one or the same there. -/
structure StretchesTo (shape target : List Nat) : Prop where
  rank : shape.length ≤ target.length
  axis : ∀ k, lengthAt shape k = 1 ∨ lengthAt target k = lengthAt shape k

/-! ### Axes counted from the last one -/

theorem lengthAt_of_le {shape : List Nat} {k : Nat} (h : shape.length ≤ k) : lengthAt shape k = 1 := by
  rw [lengthAt, List.getD_eq_getElem?_getD, List.getElem?_eq_none (by simpa using h), Option.getD_none]

theorem lengthAt_cons (n : Nat) (rest : List Nat) (k : Nat) :
    lengthAt (n :: rest) k = if k = rest.length then n else lengthAt rest k := by
  unfold lengthAt
  rw [List.reverse_cons, List.getD_eq_getElem?_getD, List.getD_eq_getElem?_getD]
  rcases Nat.lt_trichotomy k rest.length with h | h | h
  · rw [if_neg (by omega), List.getElem?_append_left (by simpa using h)]
  · rw [if_pos h, h, List.getElem?_append_right (by simp)]
    simp
  · rw [if_neg (by omega), List.getElem?_eq_none (by simp; omega),
      List.getElem?_eq_none (by simp; omega)]

/-- Axes of length one in front change no length. -/
@[simp]
theorem lengthAt_padded (rank : Nat) (shape : List Nat) (k : Nat) :
    lengthAt (padded rank shape) k = lengthAt shape k := by
  unfold padded
  induction rank - shape.length with
  | zero => rfl
  | succ d ih =>
      rw [List.replicate_succ, List.cons_append, lengthAt_cons, ih]
      split
      · rename_i hk
        exact (lengthAt_of_le (by simp [hk])).symm
      · rfl

/-- Positions of zero in front change no position. -/
theorem positionAt_replicate_append (d : Nat) (index : List Nat) (k : Nat) :
    positionAt (List.replicate d 0 ++ index) k = positionAt index k := by
  unfold positionAt
  rw [List.reverse_append, List.reverse_replicate, List.getD_eq_getElem?_getD,
    List.getD_eq_getElem?_getD]
  by_cases h : k < index.length
  · rw [List.getElem?_append_left (by simpa using h)]
  · rw [List.getElem?_append_right (by simpa using h), List.getElem?_replicate,
      List.getElem?_eq_none (by simpa using h)]
    split <;> rfl

theorem positionAt_eq_getElem {index : List Nat} {k : Nat} (h : k < index.reverse.length) :
    positionAt index k = index.reverse[k] := by
  rw [positionAt, List.getD_eq_getElem?_getD, List.getElem?_eq_getElem h, Option.getD_some]

theorem lengthAt_eq_getElem {shape : List Nat} {k : Nat} (h : k < shape.reverse.length) :
    lengthAt shape k = shape.reverse[k] := by
  rw [lengthAt, List.getD_eq_getElem?_getD, List.getElem?_eq_getElem h, Option.getD_some]

theorem within_iff {shape index : List Nat} :
    Within shape index ↔
      index.length = shape.length ∧ ∀ k < shape.length, positionAt index k < lengthAt shape k := by
  rw [← within_reverse, Within, List.forall₂_iff_get]
  constructor
  · rintro ⟨hlength, h⟩
    rw [List.length_reverse, List.length_reverse] at hlength
    refine ⟨hlength, fun k hk => ?_⟩
    have hindex : k < index.reverse.length := by simpa [hlength] using hk
    have hshape : k < shape.reverse.length := by simpa using hk
    rw [positionAt_eq_getElem hindex, lengthAt_eq_getElem hshape]
    exact h k hindex hshape
  · rintro ⟨hlength, h⟩
    refine ⟨by simpa using hlength, fun k hindex hshape => ?_⟩
    have hlt := h k (by simpa using hshape)
    rwa [positionAt_eq_getElem hindex, lengthAt_eq_getElem hshape] at hlt

/-- An index is known by its positions. -/
theorem eq_of_positionAt_eq {i j : List Nat} (hlength : i.length = j.length)
    (h : ∀ k < i.length, positionAt i k = positionAt j k) : i = j := by
  apply List.reverse_inj.mp
  apply List.ext_getElem (by simpa using hlength)
  intro k hi hj
  rw [← positionAt_eq_getElem hi, ← positionAt_eq_getElem hj]
  exact h k (by simpa using hi)

/-! ### The common shape -/

theorem meet?_eq_some_iff {m n length : Nat} :
    meet? m n = some length ↔ (m = n ∨ m = 1 ∨ n = 1) ∧ length = if m = 1 then n else m := by
  unfold meet?
  grind

theorem meetAll?_cons_eq_some_iff {m n : Nat} {a b target : List Nat} :
    meetAll? (m :: a) (n :: b) = some target ↔
      ∃ length rest, meet? m n = some length ∧ meetAll? a b = some rest ∧ target = length :: rest := by
  constructor
  · intro h
    obtain ⟨length, hmeet, h⟩ := Option.bind_eq_some_iff.mp h
    obtain ⟨rest, hrest, h⟩ := Option.bind_eq_some_iff.mp h
    exact ⟨length, rest, hmeet, hrest, (Option.some.inj h).symm⟩
  · rintro ⟨length, rest, hmeet, hrest, rfl⟩
    rw [meetAll?, hmeet, Option.bind_eq_bind, Option.bind_some, hrest]
    rfl

/-- Aligned shapes of one rank meet axis by axis. -/
theorem meetAll?_eq_some_iff {a b target : List Nat} (hlength : a.length = b.length) :
    meetAll? a b = some target ↔
      target.length = a.length ∧
        ∀ k, meet? (lengthAt a k) (lengthAt b k) = some (lengthAt target k) := by
  induction a generalizing b target with
  | nil =>
      obtain rfl := List.length_eq_zero_iff.mp hlength.symm
      constructor
      · rintro ⟨⟩
        exact ⟨rfl, fun _ => rfl⟩
      · rintro ⟨hnil, -⟩
        rw [List.length_eq_zero_iff.mp hnil]
        rfl
  | cons m a ih =>
      cases b with
      | nil => cases hlength
      | cons n b =>
          have hrank : a.length = b.length := Nat.succ.inj hlength
          rw [meetAll?_cons_eq_some_iff]
          constructor
          · rintro ⟨length, rest, hmeet, hrest, rfl⟩
            obtain ⟨hlength, haxis⟩ := (ih hrank).mp hrest
            refine ⟨congrArg Nat.succ hlength, fun k => ?_⟩
            rw [lengthAt_cons, lengthAt_cons, lengthAt_cons, hlength, ← hrank]
            split
            · exact hmeet
            · exact haxis k
          · rintro ⟨hlength, haxis⟩
            obtain ⟨length, rest, rfl⟩ := List.exists_cons_of_length_eq_add_one hlength
            have htail : rest.length = a.length := Nat.succ.inj hlength
            simp only [lengthAt_cons, htail, ← hrank] at haxis
            refine ⟨length, rest, by simpa using haxis a.length, (ih hrank).mpr ⟨htail, fun k => ?_⟩, rfl⟩
            by_cases hk : k = a.length
            · -- Behind the first axis the shapes have no further one.
              rw [lengthAt_of_le (by omega), lengthAt_of_le (by omega), lengthAt_of_le (by omega)]
              rfl
            · simpa only [if_neg hk] using haxis k

theorem exists_meetAll? {a b : List Nat} (hlength : a.length = b.length) (h : Compatible a b) :
    ∃ target, meetAll? a b = some target := by
  induction a generalizing b with
  | nil => exact ⟨[], by rw [meetAll?]; simp⟩
  | cons m a ih =>
      cases b with
      | nil => cases hlength
      | cons n b =>
          have hrank : a.length = b.length := Nat.succ.inj hlength
          have hfirst := h a.length
          rw [lengthAt_cons, lengthAt_cons, if_pos rfl, if_pos hrank] at hfirst
          have hrest : Compatible a b := by
            intro k
            by_cases hk : k = a.length
            · exact .inr (.inl (lengthAt_of_le (by omega)))
            · have haxis := h k
              rwa [lengthAt_cons, lengthAt_cons, if_neg hk, if_neg (by omega)] at haxis
          obtain ⟨rest, hrest⟩ := ih hrank hrest
          exact ⟨_, meetAll?_cons_eq_some_iff.mpr
            ⟨_, rest, meet?_eq_some_iff.mpr ⟨hfirst, rfl⟩, hrest, rfl⟩⟩

variable {a b shape target : List Nat}

/-- The common shape is found exactly for compatible shapes. -/
theorem broadcast?_eq_some_iff :
    broadcast? a b = some target ↔ Compatible a b ∧ IsBroadcast a b target := by
  rw [broadcast?, meetAll?_eq_some_iff (length_padded_max a b),
    length_padded (Nat.le_max_left _ _)]
  simp only [lengthAt_padded, meet?_eq_some_iff]
  constructor
  · rintro ⟨hrank, haxis⟩
    exact ⟨fun k => (haxis k).1, hrank, fun k => (haxis k).2⟩
  · rintro ⟨hcompatible, hrank, haxis⟩
    exact ⟨hrank, fun k => ⟨hcompatible k, haxis k⟩⟩

theorem Compatible.exists_broadcast? (h : Compatible a b) : ∃ target, broadcast? a b = some target := by
  apply exists_meetAll? (length_padded_max a b)
  intro k
  simpa using h k

theorem broadcast?_eq_none_iff : broadcast? a b = none ↔ ¬ Compatible a b := by
  constructor
  · intro h hcompatible
    obtain ⟨target, htarget⟩ := hcompatible.exists_broadcast?
    rw [h] at htarget
    cases htarget
  · intro h
    cases hfound : broadcast? a b with
    | none => rfl
    | some target => exact absurd (broadcast?_eq_some_iff.mp hfound).1 h

theorem broadcast?_self (shape : List Nat) : broadcast? shape shape = some shape := by
  apply broadcast?_eq_some_iff.mpr
  refine ⟨fun k => .inl rfl, (Nat.max_self shape.length).symm, fun k => ?_⟩
  split <;> rfl

instance (a b : List Nat) : Decidable (Compatible a b) :=
  decidable_of_iff (broadcast? a b ≠ none) (by rw [ne_eq, broadcast?_eq_none_iff, not_not])

/-- Both shapes stretch to their common one. -/
theorem stretchesTo_of_broadcast? (h : broadcast? a b = some target) :
    StretchesTo a target ∧ StretchesTo b target := by
  obtain ⟨hcompatible, hrank, haxis⟩ := broadcast?_eq_some_iff.mp h
  constructor
  · refine ⟨hrank ▸ Nat.le_max_left _ _, fun k => ?_⟩
    by_cases hk : lengthAt a k = 1
    · exact .inl hk
    · exact .inr ((haxis k).trans (if_neg hk))
  · refine ⟨hrank ▸ Nat.le_max_right _ _, fun k => ?_⟩
    have hpair := haxis k
    split at hpair
    · exact .inr hpair
    · rcases hcompatible k with heq | hone | hone
      · exact .inr (hpair.trans heq)
      · contradiction
      · exact .inl hone

/-! ### What is read of a stretched shape -/

theorem reads_project {index : List Nat} (h : shape.length ≤ index.length) :
    Reads shape index (project shape index) := by
  have hdrop : (index.drop (index.length - shape.length)).length = shape.length := by
    rw [List.length_drop]
    omega
  refine ⟨by simp [project, hdrop], fun k hk => ?_⟩
  have hshape : k < shape.reverse.length := by simpa using hk
  have hindex : k < index.reverse.length := by simpa using Nat.lt_of_lt_of_le hk h
  have hsame : index.length - (index.length - shape.length) = shape.length := by omega
  rw [positionAt_eq_getElem hindex, lengthAt_eq_getElem hshape, positionAt, project,
    List.reverse_zipWith hdrop.symm, List.reverse_drop, hsame, List.getD_eq_getElem?_getD,
    List.getElem?_zipWith, List.getElem?_eq_getElem hshape, List.getElem?_take_of_lt hk,
    List.getElem?_eq_getElem hindex]
  simp

/-- There is one index to read. -/
theorem Reads.unique {index i j : List Nat} (hi : Reads shape index i) (hj : Reads shape index j) :
    i = j := by
  apply eq_of_positionAt_eq (hi.rank.trans hj.rank.symm)
  intro k hk
  rw [hi.rank] at hk
  rw [hi.axis k hk, hj.axis k hk]

namespace StretchesTo

theorem reads_project (h : StretchesTo shape target) {index : List Nat}
    (hindex : Within target index) : Reads shape index (project shape index) := by
  apply Shape.reads_project
  rw [(within_iff.mp hindex).1]
  exact h.rank

/-- The index that is read is one of the shape. -/
theorem within_project (h : StretchesTo shape target) {index : List Nat}
    (hindex : Within target index) : Within shape (project shape index) := by
  obtain ⟨hrank, haxis⟩ := h.reads_project hindex
  refine within_iff.mpr ⟨hrank, fun k hk => ?_⟩
  rw [haxis k hk]
  split
  · rename_i hone
    rw [hone]
    exact Nat.one_pos
  · rename_i hlong
    rcases h.axis k with hone | hsame
    · contradiction
    · rw [← hsame]
      exact (within_iff.mp hindex).2 k (Nat.lt_of_lt_of_le hk h.rank)

theorem count_pos (h : StretchesTo shape target) (htarget : 0 < count target) : 0 < count shape := by
  obtain ⟨index, hindex, -⟩ := exists_within_offset htarget
  exact (h.within_project hindex).count_pos

/-- Every index of a shape is read for some index of a shape with elements. -/
theorem exists_project_eq (h : StretchesTo shape target) (htarget : 0 < count target) {own : List Nat}
    (hown : Within shape own) : ∃ index, Within target index ∧ project shape index = own := by
  obtain ⟨least, hleast, -⟩ := exists_within_offset htarget
  obtain ⟨hlength, hbelow⟩ := within_iff.mp hown
  -- Missing axes are read at their first position.
  let index := List.replicate (target.length - shape.length) 0 ++ own
  have hrank : index.length = target.length := by
    have := h.rank
    simp only [index, List.length_append, List.length_replicate, hlength]
    omega
  have hposition (k : Nat) : positionAt index k = positionAt own k := positionAt_replicate_append _ _ k
  have hone {k : Nat} (hk : k < shape.length) (hone : lengthAt shape k = 1) : positionAt own k = 0 := by
    have := hbelow k hk
    omega
  have hindex : Within target index := by
    refine within_iff.mpr ⟨hrank, fun k hk => ?_⟩
    have hpos : 0 < lengthAt target k := Nat.zero_lt_of_lt ((within_iff.mp hleast).2 k hk)
    rw [hposition]
    by_cases hshape : k < shape.length
    · rcases h.axis k with hlength | hsame
      · rw [hone hshape hlength]
        exact hpos
      · rw [hsame]
        exact hbelow k hshape
    · have hmissing : positionAt own k = 0 := by
        rw [positionAt, List.getD_eq_getElem?_getD, List.getElem?_eq_none (by simp; omega),
          Option.getD_none]
      rw [hmissing]
      exact hpos
  refine ⟨index, hindex, (h.reads_project hindex).unique ⟨hlength, fun k hk => ?_⟩⟩
  rw [hposition]
  split
  · rename_i hlength
    exact hone hk hlength
  · rfl

section Elements

variable {α : Type} {xs : List α}

theorem getElem?_stretch (h : StretchesTo shape target) (hxs : xs.length = count shape)
    {index : List Nat} (hindex : Within target index) :
    (stretch shape xs target)[offset target index]? = xs[offset shape (project shape index)]? :=
  getElem?_gather hxs h.count_pos (project shape) hindex

/-- What is stretched to a shape with elements has the same elements as before. -/
theorem mem_stretch_iff (h : StretchesTo shape target) (hxs : xs.length = count shape) {x : α} :
    x ∈ stretch shape xs target ↔ x ∈ xs ∧ 0 < count target := by
  constructor
  · intro hx
    have hlength : (stretch shape xs target).length = count target := length_stretch hxs h.count_pos
    exact ⟨mem_of_mem_gather hx, hlength ▸ List.length_pos_of_mem hx⟩
  · rintro ⟨hx, htarget⟩
    obtain ⟨k, hk⟩ := List.mem_iff_getElem?.mp hx
    have hplace : k < count shape := hxs ▸ (List.getElem?_eq_some_iff.mp hk).1
    obtain ⟨own, hown, rfl⟩ := exists_within_offset hplace
    obtain ⟨index, hindex, rfl⟩ := h.exists_project_eq htarget hown
    exact List.mem_of_getElem? ((h.getElem?_stretch hxs hindex).trans hk)

end Elements

end StretchesTo

/-- What is stretched to its own shape stays as it is. -/
theorem stretch_self {α : Type} {xs : List α} (hxs : xs.length = count shape) :
    stretch shape xs shape = xs := by
  apply gather_self hxs
  intro index hindex
  obtain ⟨hlength, hbelow⟩ := within_iff.mp hindex
  have hreads : Reads shape index index := by
    refine ⟨hlength, fun k hk => ?_⟩
    have hposition := hbelow k hk
    split <;> omega
  exact (reads_project (Nat.le_of_eq hlength.symm)).unique hreads

end ArrayExpr.Shape
