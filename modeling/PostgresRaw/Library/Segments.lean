import Mathlib.Algebra.Ring.Nat
import Mathlib.Data.List.Basic

/-!
# Segments of a marked sequence

A scanner that splits a sequence marks some of its positions as separators.  Two
scanners of the same sequence split it alike exactly when they mark the same
positions, and this module says so for the *first `n`* pieces only, which is what a
scanner that stops early can observe.

A mask is a `List Bool`, `true` at a separator.  `boundaries n start mask` lists where
the first `n` pieces end; the end of the sequence closes the last piece when the
separators run out.  `segmentMask lens` is the mask of a sequence cut into pieces of
the given lengths.  `boundaries_eq_iff_take` is the comparison of two masks and
`boundaries_eq_of_isPrefix` is what makes it usable for a scanner that found fewer
pieces than it was asked for: the first difference is already visible.
-/

namespace Segments

open List

/-- Where the first `n` pieces of a marked sequence end, counting positions from
`start`.  A piece ends at a separator, or at the end of the sequence. -/
def boundaries : Nat → Nat → List Bool → List Nat
  | 0, _, _ => []
  | _ + 1, start, [] => [start]
  | n + 1, start, true :: mask => start :: boundaries n (start + 1) mask
  | n + 1, start, false :: mask => boundaries (n + 1) (start + 1) mask

/-- How many positions a scanner that stops after `n` pieces has looked at. -/
def span : Nat → List Bool → Nat
  | 0, _ => 0
  | _ + 1, [] => 0
  | n + 1, true :: mask => span n mask + 1
  | n + 1, false :: mask => span (n + 1) mask + 1

/-- The mask of a sequence cut into consecutive pieces of the lengths `lens`. -/
def segmentMask : List Nat → List Bool
  | [] => []
  | [len] => List.replicate len false
  | len :: next :: lens => List.replicate len false ++ true :: segmentMask (next :: lens)

/-- The ends of consecutive pieces of the lengths `lens`, the first starting at `start`
and each separated from the next by one position. -/
def ends : Nat → List Nat → List Nat
  | _, [] => []
  | start, len :: lens => (start + len) :: ends (start + len + 1) lens

@[simp] theorem boundaries_zero (start : Nat) (mask : List Bool) : boundaries 0 start mask = [] := by
  cases mask <;> rfl

@[simp] theorem boundaries_succ_nil (n start : Nat) : boundaries (n + 1) start [] = [start] := rfl

@[simp] theorem boundaries_succ_true (n start : Nat) (mask : List Bool) :
    boundaries (n + 1) start (true :: mask) = start :: boundaries n (start + 1) mask := rfl

@[simp] theorem boundaries_succ_false (n start : Nat) (mask : List Bool) :
    boundaries (n + 1) start (false :: mask) = boundaries (n + 1) (start + 1) mask := rfl

@[simp] theorem span_zero (mask : List Bool) : span 0 mask = 0 := by
  cases mask <;> rfl

@[simp] theorem ends_length (start : Nat) (lens : List Nat) : (ends start lens).length = lens.length := by
  induction lens generalizing start with
  | nil => rfl
  | cons len lens ih => simp [ends, ih]

variable {mask tail : List Bool} {n position start : Nat} {lens : List Nat}

/-- No boundary lies before the first position, or behind the last. -/
theorem bounds_of_mem_boundaries (mem : position ∈ boundaries n start mask) :
    start ≤ position ∧ position ≤ start + mask.length := by
  fun_induction boundaries n start mask with
  | case1 => cases mem
  | case2 => simp [mem_singleton.1 mem]
  | case3 n start mask ih =>
    rw [length_cons]
    rcases mem_cons.mp mem with rfl | later
    · omega
    · have := ih later; omega
  | case4 n start mask ih =>
    rw [length_cons]
    have := ih mem; omega

/-- A scanner asked for at least one piece finds at least one boundary. -/
theorem boundaries_succ_ne_nil (n start : Nat) (mask : List Bool) : boundaries (n + 1) start mask ≠ [] := by
  induction mask generalizing start with
  | nil => simp
  | cons marked mask ih =>
    cases marked with
    | true => simp
    | false => exact ih (start + 1)

theorem boundaries_length_le (n start : Nat) (mask : List Bool) : (boundaries n start mask).length ≤ n := by
  fun_induction boundaries n start mask <;> simp_all

/-- A boundary list that starts later cannot extend one whose first boundary is here. -/
private theorem not_cons_isPrefix_boundaries {n start : Nat} {mask : List Bool} {positions : List Nat}
    (isPrefix : start :: positions <+: boundaries n (start + 1) mask) : False := by
  have later := bounds_of_mem_boundaries (isPrefix.subset mem_cons_self)
  omega

/-- Nor can it be an initial part of one. -/
private theorem not_boundaries_isPrefix_cons {n start : Nat} {mask : List Bool} {positions : List Nat}
    (isPrefix : boundaries (n + 1) (start + 1) mask <+: start :: positions) : False := by
  obtain ⟨first, rest, shape⟩ := exists_cons_of_ne_nil
    (boundaries_succ_ne_nil n (start + 1) mask)
  have later := bounds_of_mem_boundaries (shape ▸ mem_cons_self)
  rw [shape, cons_prefix_cons] at isPrefix
  omega

/-- **The first difference is visible.**  For two masks of one sequence, a boundary
list that is a prefix of the other is the other: a scanner cannot stop early and still
have agreed so far. -/
theorem boundaries_eq_of_isPrefix {mask₁ mask₂ : List Bool} (sameLength : mask₁.length = mask₂.length)
    (isPrefix : boundaries n start mask₁ <+: boundaries n start mask₂) :
    boundaries n start mask₁ = boundaries n start mask₂ := by
  induction mask₁ generalizing n start mask₂ with
  | nil => rw [length_eq_zero_iff.mp sameLength.symm]
  | cons marked₁ mask₁ ih =>
    obtain ⟨marked₂, mask₂, rfl⟩ := exists_cons_of_length_eq_add_one sameLength.symm
    have tailLength : mask₁.length = mask₂.length := by simpa using sameLength
    cases n with
    | zero => simp
    | succ n =>
      cases marked₁ with
      | true =>
        cases marked₂ with
        | true =>
          rw [boundaries_succ_true, boundaries_succ_true] at isPrefix ⊢
          rw [ih tailLength (cons_prefix_cons.mp isPrefix).2]
        | false => exact (not_cons_isPrefix_boundaries isPrefix).elim
      | false =>
        cases marked₂ with
        | true => exact (not_boundaries_isPrefix_cons isPrefix).elim
        | false => exact ih tailLength isPrefix

/-- **Two scanners agree on their first `n` pieces exactly when they mark the same
positions up to the last boundary.** -/
theorem boundaries_eq_iff_take {mask₁ mask₂ : List Bool} (sameLength : mask₁.length = mask₂.length) :
    boundaries n start mask₁ = boundaries n start mask₂ ↔ mask₁.take (span n mask₂) = mask₂.take (span n mask₂) := by
  induction mask₁ generalizing n start mask₂ with
  | nil => rw [length_eq_zero_iff.mp sameLength.symm]; simp
  | cons marked₁ mask₁ ih =>
    obtain ⟨marked₂, mask₂, rfl⟩ := exists_cons_of_length_eq_add_one sameLength.symm
    have tailLength : mask₁.length = mask₂.length := by simpa using sameLength
    cases n with
    | zero => simp
    | succ n =>
      cases marked₁ with
      | true =>
        cases marked₂ with
        | true => simpa [span] using @ih n (start + 1) mask₂ tailLength
        | false =>
          refine ⟨fun same => ?_, fun same => by simp [span] at same⟩
          exact (not_cons_isPrefix_boundaries ⟨[], by simpa using same⟩).elim
      | false =>
        cases marked₂ with
        | true =>
          refine ⟨fun same => ?_, fun same => by simp [span] at same⟩
          exact (not_boundaries_isPrefix_cons ⟨[], by simpa using same⟩).elim
        | false => simpa [span] using @ih (n + 1) (start + 1) mask₂ tailLength

/-! ### Masks of sequences with known pieces -/

theorem boundaries_replicate_append (n start len : Nat) (mask : List Bool) :
    boundaries (n + 1) start (List.replicate len false ++ mask) = boundaries (n + 1) (start + len) mask := by
  induction len generalizing start with
  | zero => simp
  | succ len ih =>
    rw [replicate_succ, cons_append, boundaries_succ_false, ih]
    congr 1
    omega

theorem span_replicate_append (n len : Nat) (mask : List Bool) :
    span (n + 1) (List.replicate len false ++ mask) = len + span (n + 1) mask := by
  induction len with
  | zero => simp
  | succ len ih =>
    rw [replicate_succ, cons_append]
    simp only [span, ih]
    omega

/-- What may follow the last piece asked for: nothing, or a separator. -/
def Closes (tail : List Bool) : Prop := tail = [] ∨ ∃ rest, tail = true :: rest

theorem segmentMask_cons (len : Nat) (nonempty : lens ≠ []) :
    segmentMask (len :: lens) = List.replicate len false ++ true :: segmentMask lens := by
  cases lens with
  | nil => exact absurd rfl nonempty
  | cons next lens => rfl

theorem boundaries_segmentMask (start : Nat) (nonempty : lens ≠ []) (closes : Closes tail) :
    boundaries lens.length start (segmentMask lens ++ tail) = ends start lens := by
  induction lens generalizing start with
  | nil => exact absurd rfl nonempty
  | cons len lens ih =>
    by_cases last : lens = []
    · subst last
      rcases closes with rfl | ⟨rest, rfl⟩
      · simpa [segmentMask, ends] using boundaries_replicate_append 0 start len []
      · simp [segmentMask, ends, boundaries_replicate_append]
    · rw [segmentMask_cons len last, append_assoc, length_cons,
        boundaries_replicate_append, cons_append, boundaries_succ_true, ih _ last, ends]

theorem segmentMask_length (nonempty : lens ≠ []) : (segmentMask lens).length + 1 = (lens.map (· + 1)).sum := by
  induction lens with
  | nil => exact absurd rfl nonempty
  | cons len lens ih =>
    by_cases last : lens = []
    · subst last; simp [segmentMask]
    · have := ih last
      rw [segmentMask_cons len last]
      simp only [length_append, length_replicate, length_cons, map_cons, sum_cons]
      omega

theorem segmentMask_append {lens₁ lens₂ : List Nat} (nonempty₁ : lens₁ ≠ []) (nonempty₂ : lens₂ ≠ []) :
    segmentMask (lens₁ ++ lens₂) = segmentMask lens₁ ++ true :: segmentMask lens₂ := by
  induction lens₁ with
  | nil => exact absurd rfl nonempty₁
  | cons len lens₁ ih =>
    by_cases last : lens₁ = []
    · subst last
      rw [singleton_append, segmentMask_cons len nonempty₂]
      rfl
    · have more : lens₁ ++ lens₂ ≠ [] := by simp [last]
      rw [cons_append, segmentMask_cons len more, segmentMask_cons len last, ih last]
      simp

/-- The mask begins with that of the first `n` pieces. -/
theorem exists_segmentMask_take (lens : List Nat) (n : Nat) (nonempty : lens.take n ≠ []) :
    ∃ tail, Closes tail ∧ segmentMask lens = segmentMask (lens.take n) ++ tail := by
  by_cases all : lens.drop n = []
  · exact ⟨[], .inl rfl, by rw [take_of_length_le (drop_eq_nil_iff.1 all), append_nil]⟩
  · refine ⟨_, .inr ⟨_, rfl⟩, Eq.trans ?_ (segmentMask_append nonempty all)⟩
    rw [take_append_drop]

/-- Read from the other end, a cut sequence is cut into the same pieces. -/
theorem segmentMask_reverse (lens : List Nat) : (segmentMask lens).reverse = segmentMask lens.reverse := by
  induction lens with
  | nil => rfl
  | cons len lens ih =>
    by_cases last : lens = []
    · subst last; simp [segmentMask]
    · have more : lens.reverse ≠ [] := by simpa using last
      rw [segmentMask_cons len last, reverse_cons, segmentMask_append more (by simp)]
      simp [ih, segmentMask]

theorem span_segmentMask (nonempty : lens ≠ []) (closes : Closes tail) : span lens.length (segmentMask lens ++ tail) =
      min ((segmentMask lens).length + 1) (segmentMask lens ++ tail).length := by
  induction lens with
  | nil => exact absurd rfl nonempty
  | cons len lens ih =>
    by_cases last : lens = []
    · subst last
      rcases closes with rfl | ⟨rest, rfl⟩
      · have all := span_replicate_append 0 len []
        simp only [append_nil] at all
        simp [segmentMask, all, span]
      · simp [segmentMask, span_replicate_append, span]
    · rw [segmentMask_cons len last, append_assoc, length_cons, span_replicate_append, cons_append]
      simp only [span, ih last, length_append, length_replicate, length_cons]
      omega

/-- **Agreement with known pieces.**  A mask yields the ends of the pieces of `lens` exactly
when it agrees with their mask up to and including the position behind the last piece. -/
theorem boundaries_eq_ends_iff {start : Nat} {lens : List Nat} (nonempty : lens ≠ [])
    {tail mask : List Bool} (closes : Closes tail) (sameLength : mask.length = (segmentMask lens ++ tail).length) :
    boundaries lens.length start mask = ends start lens ↔ mask.take ((segmentMask lens).length + 1) =
        (segmentMask lens ++ tail).take ((segmentMask lens).length + 1) := by
  rw [← boundaries_segmentMask start nonempty closes, boundaries_eq_iff_take sameLength,
    span_segmentMask nonempty closes]
  rcases Nat.le_total ((segmentMask lens).length + 1) (segmentMask lens ++ tail).length with
    inside | beyond
  · rw [min_eq_left inside]
  · rw [min_eq_right beyond, take_of_length_le (sameLength ▸ le_rfl),
      take_of_length_le le_rfl, take_of_length_le (sameLength ▸ beyond), take_of_length_le beyond]

/-- Boundaries found so far that are all ends of the known pieces are all of these ends. -/
theorem boundaries_eq_ends (nonempty : lens ≠ []) (closes : Closes tail)
    (sameLength : mask.length = (segmentMask lens ++ tail).length)
    (found : ∀ (i position : Nat), (boundaries lens.length start mask)[i]? = some position →
      (ends start lens)[i]? = some position) : boundaries lens.length start mask = ends start lens := by
  rw [← boundaries_segmentMask start nonempty closes] at found ⊢
  refine boundaries_eq_of_isPrefix sameLength (prefix_iff_getElem?.mpr ?_)
  exact fun i inside => found i _ (getElem?_eq_getElem inside)

/-- Piece `i` ends one position before the start of the next. -/
theorem add_one_of_mem_ends {i : Nat} (here : (ends start lens)[i]? = some position) :
    position + 1 = start + ((lens.take (i + 1)).map (· + 1)).sum := by
  induction lens generalizing start i with
  | nil => simp [ends] at here
  | cons len lens ih =>
    cases i with
    | zero =>
      obtain rfl : start + len = position := by simpa [ends] using here
      simp
      omega
    | succ i =>
      have := ih (by simpa [ends] using here)
      simp only [take_succ_cons, map_cons, sum_cons]
      omega

end Segments
