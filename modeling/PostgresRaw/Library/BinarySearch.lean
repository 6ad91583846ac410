import Mathlib.Order.Lattice
import Mathlib.Data.Int.Order.Basic

/-!
# Binary search with inclusive limits

The loop that keeps two limits, both of which it may still read, over a memory of which the first `size` entries
are increasing.  A run is its result and the places that it has read.

**What is load-bearing** is that whatever is outside the limits has been decided (`Decided`).  From it the result
is right wherever the loop stops (`loop_result`).  Whether the loop stays in front of `size` depends
on where it starts: with `size` itself as the upper limit it reads that place exactly if no entry stops it
(`loop_inside`, `loop_reads_end`).
-/

namespace BinarySearch

open List

universe u

variable {α : Type u} [LinearOrder α] (read : Int → α) (key : α)

/-- The place that is read next. -/
def middle (min max : Int) : Int := min + (max - min) / 2

/-- **The loop.**  `none` is lack of fuel; a result of `-1` says that the key is absent. -/
def loop : (fuel : Nat) → (min max : Int) → Option (Int × List Int)
  | 0, _, _ => none
  | fuel + 1, min, max =>
    if min ≤ max then
      let i := middle min max
      if read i < key then (loop fuel (i + 1) max).map fun (result, probes) => (result, i :: probes)
      else if key < read i then (loop fuel min (i - 1)).map fun (result, probes) => (result, i :: probes)
      else some (i, [i])
    else some (-1, [])

/-- The first `size` entries are increasing. -/
def Increasing (size : Nat) : Prop := ∀ i j : Int, 0 ≤ i → i < j → j < size → read i < read j

/-- What is outside the limits is not the key. -/
structure Decided (size : Nat) (min max : Int) : Prop where
  nonneg : 0 ≤ min
  inside : max ≤ size
  below : ∀ i, 0 ≤ i → i < min → i < size → read i < key
  above : ∀ i, max < i → i < size → key < read i

variable {read key} {size fuel : Nat} {min max : Int}

theorem middle_mem (more : min ≤ max) : min ≤ middle min max ∧ middle min max ≤ max := by
  unfold middle
  omega

variable {result : Int} {probes : List Int}

/-- **What a round can do**, with the entry that it reads. -/
theorem loop_succ_cases (run : loop read key (fuel + 1) min max = some (result, probes)) :
    (max < min ∧ result = -1 ∧ probes = []) ∨ min ≤ max ∧
        ((∃ later, read (middle min max) < key ∧ probes = middle min max :: later ∧
            loop read key fuel (middle min max + 1) max = some (result, later)) ∨
          (∃ later, key < read (middle min max) ∧ probes = middle min max :: later ∧
            loop read key fuel min (middle min max - 1) = some (result, later)) ∨
          read (middle min max) = key ∧ result = middle min max ∧ probes = [middle min max]) := by
  simp only [loop] at run
  split at run
  · next more =>
    refine .inr ⟨more, ?_⟩
    split at run
    · next less =>
      obtain ⟨⟨_, later⟩, rest, same⟩ := Option.map_eq_some_iff.1 run
      cases same
      exact .inl ⟨later, less, rfl, rest⟩
    · next notLess =>
      split at run
      · next greater =>
        obtain ⟨⟨_, later⟩, rest, same⟩ := Option.map_eq_some_iff.1 run
        cases same
        exact .inr (.inl ⟨later, greater, rfl, rest⟩)
      · next notGreater =>
        cases run
        exact .inr (.inr ⟨le_antisymm (not_lt.1 notGreater) (not_lt.1 notLess), rfl, rfl⟩)
  · next crossed =>
    cases run
    exact .inl ⟨not_le.1 crossed, rfl, rfl⟩

/-- **The loop ends**, whatever it reads: every round takes a place away. -/
theorem loop_terminates (read : Int → α) (key : α) (enough : (max + 1 - min).toNat < fuel) :
    ∃ result probes, loop read key fuel min max = some (result, probes) := by
  induction fuel generalizing min max with
  | zero => exact absurd enough (Nat.not_lt_zero _)
  | succ fuel ih =>
    rw [loop]
    by_cases more : min ≤ max
    · have mid := middle_mem more
      obtain ⟨result, probes, right⟩ := @ih (middle min max + 1) max (by omega)
      obtain ⟨result', probes', left⟩ := @ih min (middle min max - 1) (by omega)
      simp only [if_pos more, right, left, Option.map_some]
      split
      · exact ⟨_, _, rfl⟩
      · split
        · exact ⟨_, _, rfl⟩
        · exact ⟨_, _, rfl⟩
    · exact ⟨-1, [], if_neg more⟩

/-! ### The result -/

namespace Decided

section

variable (decided : Decided read key size min max)
include decided

theorem nonneg_middle (more : min ≤ max) : 0 ≤ middle min max :=
  le_trans decided.nonneg (middle_mem more).1

/-- The place behind the entries is only read when nothing else is left. -/
theorem eq_size (more : min ≤ max) (behind : size ≤ middle min max) :
    min = size := by
  have := decided.inside
  unfold middle at behind
  omega

/-- The entry that is read is too small. -/
theorem right (increasing : Increasing read size) (more : min ≤ max)
    (less : read (middle min max) < key) : Decided read key size (middle min max + 1) max where
  nonneg := Int.le_add_one (decided.nonneg_middle more)
  inside := decided.inside
  below i nonneg before inside := by
    rcases lt_or_ge (middle min max) size with entry | behind
    · rcases lt_or_eq_of_le (Int.lt_add_one_iff.1 before) with earlier | here
      · exact lt_trans (increasing i _ nonneg earlier entry) less
      · rw [here]
        exact less
    · exact decided.below i nonneg (by rw [decided.eq_size more behind]; exact inside) inside
  above := decided.above

/-- The entry that is read is too large. -/
theorem left (increasing : Increasing read size) (more : min ≤ max)
    (greater : key < read (middle min max)) : Decided read key size min (middle min max - 1) where
  nonneg := decided.nonneg
  inside := by
    have := (middle_mem more).2
    have := decided.inside
    omega
  below := decided.below
  above i behind inside := by
    rcases lt_or_eq_of_le (Int.le_of_sub_one_lt behind) with later | here
    · exact lt_trans greater (increasing _ i (decided.nonneg_middle more) later inside)
    · rw [← here]
      exact greater

end

end Decided

/-- The whole memory is still to be searched. -/
theorem decided_start (read : Int → α) (key : α) (size : Nat) : Decided read key size 0 size where
  nonneg := le_refl 0
  inside := le_refl _
  below _ nonneg before _ := absurd before (not_lt.2 nonneg)
  above _ behind inside := absurd inside (not_lt.2 (le_of_lt behind))

section

variable (increasing : Increasing read size) (decided : Decided read key size min max)
  (run : loop read key fuel min max = some (result, probes))

include increasing decided run

/-- **The result**: a place with the key, or `-1` if no entry is the key. -/
theorem loop_result :
    (0 ≤ result ∧ result ∈ probes ∧ read result = key) ∨
      result = -1 ∧ ∀ i : Int, 0 ≤ i → i < size → read i ≠ key := by
  induction fuel generalizing min max probes with
  | zero => cases run
  | succ fuel ih =>
    rcases loop_succ_cases run with ⟨crossed, rfl, rfl⟩ |
      ⟨more, ⟨later, less, rfl, rest⟩ | ⟨later, greater, rfl, rest⟩ | ⟨here, rfl, rfl⟩⟩
    · refine .inr ⟨rfl, fun i nonneg inside => ?_⟩
      rcases lt_or_ge i min with before | behind
      · exact ne_of_lt (decided.below i nonneg before inside)
      · exact ne_of_gt (decided.above i (lt_of_lt_of_le crossed behind) inside)
    · rcases ih (decided.right increasing more less) rest with ⟨nonneg, probed, found⟩ | absent
      · exact .inl ⟨nonneg, mem_cons_of_mem _ probed, found⟩
      · exact .inr absent
    · rcases ih (decided.left increasing more greater) rest with ⟨nonneg, probed, found⟩ | absent
      · exact .inl ⟨nonneg, mem_cons_of_mem _ probed, found⟩
      · exact .inr absent
    · exact .inl ⟨decided.nonneg_middle more, mem_singleton_self _, here⟩

/-! ### The places that are read -/

/-- **An entry that is not below the key keeps the loop in front of the end.** -/
theorem loop_inside {i : Int} (nonneg : 0 ≤ i) (inside : i < size) (stops : key ≤ read i) :
    ∀ probe ∈ probes, 0 ≤ probe ∧ probe < size := by
  have front : ∀ {min max : Int}, Decided read key size min max → min ≤ max →
      0 ≤ middle min max ∧ middle min max < size := by
    intro min max decided more
    refine ⟨decided.nonneg_middle more, lt_of_not_ge fun behind => ?_⟩
    have below := decided.below i nonneg (by rw [decided.eq_size more behind]; exact inside) inside
    exact absurd below (not_lt.2 stops)
  induction fuel generalizing min max probes with
  | zero => cases run
  | succ fuel ih =>
    rcases loop_succ_cases run with ⟨crossed, rfl, rfl⟩ |
      ⟨more, ⟨later, less, rfl, rest⟩ | ⟨later, greater, rfl, rest⟩ | ⟨here, rfl, rfl⟩⟩
    · exact fun _ mem => absurd mem not_mem_nil
    · exact forall_mem_cons.2 ⟨front decided more, ih (decided.right increasing more less) rest⟩
    · exact forall_mem_cons.2 ⟨front decided more, ih (decided.left increasing more greater) rest⟩
    · exact forall_mem_singleton.2 (front decided more)

end

/-- **If all entries are below the key the place behind them is read.** -/
theorem loop_reads_end (small : ∀ i : Int, 0 ≤ i → i < size → read i < key) (nonneg : 0 ≤ min) (inside : min ≤ size)
    (run : loop read key fuel min size = some (result, probes)) : (size : Int) ∈ probes := by
  induction fuel generalizing min probes with
  | zero => cases run
  | succ fuel ih =>
    have mid := middle_mem inside
    rcases lt_or_eq_of_le mid.2 with entry | end_
    · have less := small _ (le_trans nonneg mid.1) entry
      rcases loop_succ_cases run with ⟨crossed, rfl, rfl⟩ |
        ⟨more, ⟨later, -, rfl, rest⟩ | ⟨later, greater, rfl, rest⟩ | ⟨here, rfl, rfl⟩⟩
      · exact absurd inside (not_le.2 crossed)
      · exact mem_cons_of_mem _ (ih (Int.le_add_one (le_trans nonneg mid.1)) entry rest)
      · exact absurd less (not_lt_of_gt greater)
      · exact absurd less (not_lt_of_ge (ge_of_eq here))
    · rcases loop_succ_cases run with ⟨crossed, rfl, rfl⟩ |
        ⟨more, ⟨later, -, rfl, rest⟩ | ⟨later, greater, rfl, rest⟩ | ⟨here, rfl, rfl⟩⟩
      · exact absurd inside (not_le.2 crossed)
      all_goals
        rw [end_]
        exact mem_cons_self

end BinarySearch
