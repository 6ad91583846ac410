import PostgresRaw.Library.BinarySearch
import PostgresRaw.Strategy.Sources

/-!
# Searching a vector of columns

`BuildMatrix` finds the place of a column in `queryInfo.cols` with `NoDBColVectorBinarySearch`.  Its upper limit
starts at the size of the vector and is inclusive, so the entry behind the vector is one of those that may be
read.  It is read exactly if every entry is below the column (`findsLike_iff`); then what is found depends on the
memory there.  `BuildMatrix` only searches for columns of the query, where this does not happen
(`QueryInfo.binarySearch_cols`).
-/

namespace PostgresRaw

open List

/-- `NoDBColVector_t`.  `cols` is the memory at the pointer of the vector, of which the first `size` entries are
the vector's. -/
structure ColVector where
  size : Nat
  cols : Int → Int

/-- The loop of `NoDBColVectorIndex`. -/
def indexLoop (v : ColVector) (col : Int) : (todo i : Nat) → Int
  | 0, _ => -1
  | todo + 1, i => if v.cols i = col then i else indexLoop v col todo (i + 1)

/-- `NoDBColVectorIndex`. -/
def noDBColVectorIndex (v : ColVector) (col : Int) : Int := indexLoop v col v.size 0

/-- `NoDBColVectorBinarySearch`: the index that it returns, and the indices that it reads. -/
def noDBColVectorBinarySearch (v : ColVector) (col : Int) (fuel : Nat) : Option (Int × List Int) :=
  BinarySearch.loop v.cols col fuel 0 v.size

namespace ColVector

variable {v : ColVector} {col : Int}

/-- The columns are strictly increasing. -/
def Increasing (v : ColVector) : Prop := BinarySearch.Increasing v.cols v.size

/-- **Binary search finds what linear search finds**: it ends, returns the same index, and reads entries of the vector
only. -/
def FindsLike (v : ColVector) (col : Int) : Prop :=
  ∃ fuel result probes, noDBColVectorBinarySearch v col fuel = some (result, probes) ∧
    result = noDBColVectorIndex v col ∧ ∀ i ∈ probes, 0 ≤ i ∧ i < v.size

/-! ### Linear search -/

theorem indexLoop_of_absent {todo i : Nat} (absent : ∀ j : Nat, i ≤ j → j < i + todo → v.cols j ≠ col) :
    indexLoop v col todo i = -1 := by
  induction todo generalizing i with
  | zero => rfl
  | succ todo ih =>
    rw [indexLoop, if_neg (absent i (Nat.le_refl i) (by omega))]
    exact ih fun j from_ before => absent j (by omega) (by omega)

theorem indexLoop_of_present {todo i n : Nat} (first : ∀ j : Nat, i ≤ j → j < n → v.cols j ≠ col) (from_ : i ≤ n)
    (inside : n < i + todo) (here : v.cols n = col) : indexLoop v col todo i = n := by
  induction todo generalizing i with
  | zero => omega
  | succ todo ih =>
    rw [indexLoop]
    rcases eq_or_lt_of_le from_ with rfl | before
    · rw [if_pos here]
    · rw [if_neg (first i (Nat.le_refl i) before)]
      exact ih (fun j later before => first j (by omega) before) before (by omega)

/-- In an increasing vector the first place is the only one. -/
theorem index_of_present (increasing : v.Increasing) {n : Nat} (inside : n < v.size) (here : v.cols n = col) :
    noDBColVectorIndex v col = n := by
  refine indexLoop_of_present (fun j _ before same => ?_) (Nat.zero_le n) (by omega) here
  have less := increasing j n (Int.natCast_nonneg j) (by omega) (by omega)
  rw [same, here] at less
  exact lt_irrefl col less

theorem index_of_absent (absent : ∀ i : Int, 0 ≤ i → i < v.size → v.cols i ≠ col) : noDBColVectorIndex v col = -1 :=
  indexLoop_of_absent fun j _ before => absent j (Int.natCast_nonneg j) (by omega)

/-! ### Binary search -/

/-- It ends. -/
theorem binarySearch_terminates (v : ColVector) (col : Int) :
    ∃ result probes, noDBColVectorBinarySearch v col (v.size + 2) = some (result, probes) :=
  BinarySearch.loop_terminates v.cols col (by omega)

/-- A run that stays inside finds what linear search finds. -/
theorem result_eq_index (increasing : v.Increasing) {fuel : Nat} {result : Int} {probes : List Int}
    (run : noDBColVectorBinarySearch v col fuel = some (result, probes)) (inside : ∀ i ∈ probes, 0 ≤ i ∧ i < v.size) :
    result = noDBColVectorIndex v col := by
  rcases BinarySearch.loop_result increasing (BinarySearch.decided_start v.cols col v.size) run with
    ⟨nonneg, probed, here⟩ | ⟨rfl, absent⟩
  · obtain ⟨n, rfl⟩ := Int.eq_ofNat_of_zero_le nonneg
    exact (index_of_present increasing (by have := (inside _ probed).2; omega) here).symm
  · exact (index_of_absent absent).symm

/-- If every entry is below the column, the one behind the vector is read. -/
theorem not_findsLike_of_small (small : ∀ i : Int, 0 ≤ i → i < v.size → v.cols i < col) : ¬ v.FindsLike col := by
  rintro ⟨fuel, result, probes, run, -, inside⟩
  have probed := BinarySearch.loop_reads_end small (le_refl 0) (Int.natCast_nonneg v.size) run
  exact lt_irrefl _ (inside _ probed).2

/-- An entry that is not below the column keeps the search inside. -/
theorem findsLike_of_entry (increasing : v.Increasing) {i : Int} (nonneg : 0 ≤ i) (entry : i < v.size)
    (stops : col ≤ v.cols i) : v.FindsLike col := by
  obtain ⟨result, probes, run⟩ := binarySearch_terminates v col
  have inside := BinarySearch.loop_inside increasing (BinarySearch.decided_start v.cols col v.size) run nonneg entry stops
  exact ⟨_, result, probes, run, result_eq_index increasing run inside, inside⟩

/-- **Binary search is right exactly if some entry is not below the column.** -/
theorem findsLike_iff (v : ColVector) (increasing : v.Increasing) (col : Int) :
    v.FindsLike col ↔ ∃ i : Int, 0 ≤ i ∧ i < v.size ∧ col ≤ v.cols i := by
  constructor
  · intro finds
    by_contra none
    refine not_findsLike_of_small (fun i nonneg entry => ?_) finds
    exact not_le.1 fun stops => none ⟨i, nonneg, entry, stops⟩
  · rintro ⟨i, nonneg, entry, stops⟩
    exact findsLike_of_entry increasing nonneg entry stops

/-- The columns 1 and 5, with a 7 in the memory behind them. -/
def oneFive : ColVector := ⟨2, fun i => if i = 0 then 1 else if i = 1 then 5 else 7⟩

theorem increasing_oneFive : oneFive.Increasing := by
  intro i j nonneg less inside
  have size : oneFive.size = 2 := rfl
  obtain rfl : i = 0 := by omega
  obtain rfl : j = 1 := by omega
  decide

theorem findsLike_iff_oneFive : oneFive.FindsLike 5 :=
  (findsLike_iff oneFive increasing_oneFive 5).2 ⟨1, by decide⟩

/-- **The entry behind the vector is read**, also if the vector is empty; and a column that happens to be there is
found. -/
theorem not_findsLike_behind :
    (¬ (⟨0, fun _ => 0⟩ : ColVector).FindsLike 3) ∧ ¬ oneFive.FindsLike 7 ∧ noDBColVectorIndex oneFive 7 = -1 ∧
      noDBColVectorBinarySearch oneFive 7 4 = some (2, [1, 2]) := by
  refine ⟨not_findsLike_of_small fun i nonneg entry => absurd entry (not_lt.2 nonneg), ?_, by decide, by decide⟩
  refine not_findsLike_of_small fun i nonneg entry => ?_
  have size : oneFive.size = 2 := rfl
  rcases (by omega : i = 0 ∨ i = 1) with rfl | rfl
  · decide
  · decide

end ColVector

end PostgresRaw
