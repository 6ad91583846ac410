import PostgresRaw.Scan.Outcome
import PostgresRaw.Scan.RowRead

/-!
# Counters and nodes of caches only

Between two looks at its counters a scan goes through some rows without thinking: those of the node,
or, when it reads the file, those whose lengths it knows if they are fewer.  `Counters` says what the
counters hold at a row, given the row of the last look; from it follow the function that reads the
next line (`Counters.readFile_eq`) and what a look finds (`Counters.look`).

Nodes that are served from caches only come first in a plan (`Phase.Valid.cacheOnly_of_next`), and end
within the rows whose lengths are known (`Phase.Valid.row_le_known`).
-/

namespace PostgresRaw

/-! ### Counters -/

/-- The rows that are ahead at row `p₀` of a node that ends at row `b`. -/
def aheadAt (known : Nat) (cacheOnly : Bool) (p₀ b : Nat) : Nat :=
  if cacheOnly = false ∧ p₀ < known then min (known - p₀) (b - p₀) else b - p₀

/-- The counters at row `p`, after a look at row `p₀`. -/
structure Counters (known : Nat) (cacheOnly : Bool) (b p₀ p : Nat) (plan : PlanState) : Prop where
  since : p₀ ≤ p
  ahead : p < p₀ + aheadAt known cacheOnly p₀ b
  nRows : plan.nRows = ((b - p₀ : Nat) : Int)
  nEOL : plan.nEOL = ((known - p₀ : Nat) : Int)
  tuplesToRead : plan.tuplesToRead = (aheadAt known cacheOnly p₀ b : Nat)
  nMin : plan.nMin = ((p₀ + aheadAt known cacheOnly p₀ b - p : Nat) : Int)
  readFile : plan.readFile = if p₀ < known then .fromFileWithEOL else .fromFile

theorem noDBGetReadFile_eq (known p : Nat) :
    noDBGetReadFile ((known - p : Nat) : Int) = if p < known then .fromFileWithEOL else .fromFile := by
  exact if_congr (by omega) rfl rfl

/-- `NoDBGetReadFile` and the choice of `plan->nMin` at the start of a node. -/
theorem rowsAhead_eq {n : Strategy} {known p b : Nat} (length : n.nrows = b - p) :
    rowsAhead n ((known - p : Nat) : Int) = (aheadAt known (noDBReadFromCacheOnly n) p b : Nat) := by
  unfold rowsAhead aheadAt
  have same : (0 : Int) < ((known - p : Nat) : Int) ↔ p < known := by omega
  simp only [same, length]
  split
  · split <;> omega
  · rfl

theorem aheadAt_pos (known : Nat) (cacheOnly : Bool) {p b : Nat} (less : p < b) : 0 < aheadAt known cacheOnly p b := by
  unfold aheadAt
  split <;> omega

theorem aheadAt_le (known : Nat) (cacheOnly : Bool) (p b : Nat) : aheadAt known cacheOnly p b ≤ b - p := by
  unfold aheadAt
  split <;> omega

namespace Counters

variable {known b p₀ p : Nat} {cacheOnly : Bool} {plan : PlanState}

/-- A look at the counters at the start of a node. -/
theorem start {n : Strategy} (length : n.nrows = b - p) (less : p < b)
    (nRows : plan.nRows = n.nrows) (nEOL : plan.nEOL = ((known - p : Nat) : Int))
    (tuplesToRead : plan.tuplesToRead = rowsAhead n plan.nEOL) (nMin : plan.nMin = rowsAhead n plan.nEOL)
    (readFile : plan.readFile = noDBGetReadFile plan.nEOL) : Counters known (noDBReadFromCacheOnly n) b p p plan := by
  have positive := aheadAt_pos known (noDBReadFromCacheOnly n) less
  rw [nEOL, rowsAhead_eq length] at tuplesToRead nMin
  rw [nEOL, noDBGetReadFile_eq] at readFile
  exact ⟨Nat.le_refl p, by omega, by rw [nRows, length], nEOL, tuplesToRead, by rw [nMin]; omega, readFile⟩

/-- The function that reads the next line, if one is read. -/
theorem readFile_eq (counters : Counters known false b p₀ p plan) :
    plan.readFile = if p < known then .fromFileWithEOL else .fromFile := by
  have since := counters.since
  have ahead := counters.ahead
  rw [counters.readFile]
  refine if_congr ?_ rfl rfl
  by_cases less : p₀ < known
  · rw [aheadAt, if_pos ⟨rfl, less⟩] at ahead
    omega
  · omega

theorem lt_end (counters : Counters known cacheOnly b p₀ p plan) : p < b := by
  have ahead := counters.ahead
  have le := aheadAt_le known cacheOnly p₀ b
  have since := counters.since
  omega

/-- The next row without a look. -/
theorem next (counters : Counters known cacheOnly b p₀ p plan) (more : plan.nMin - 1 ≠ 0) :
    Counters known cacheOnly b p₀ (p + 1) { plan with nMin := plan.nMin - 1 } := by
  have ahead := counters.ahead
  have since := counters.since
  rw [counters.nMin] at more
  refine ⟨by omega, by omega, counters.nRows, counters.nEOL, counters.tuplesToRead, ?_, counters.readFile⟩
  change plan.nMin - 1 = _
  rw [counters.nMin]
  omega

end Counters

section

variable {D : Type} {known b p₀ p : Nat} {cacheOnly : Bool} {s : Scan D}

/-- **What a look at the counters finds** at row `p + 1`. -/
theorem Counters.look (counters : Counters known cacheOnly b p₀ p s.plan) (due : s.plan.nMin - 1 = 0)
    (within : cacheOnly = true → b ≤ known) : s.countDown.plan.nRows = ((b - (p + 1) : Nat) : Int) ∧
      s.countDown.plan.nEOL = ((known - (p + 1) : Nat) : Int) ∧
      s.countDown.plan.readFile = noDBGetReadFile s.countDown.plan.nEOL ∧
      (p + 1 ≠ b → known ≤ p + 1 ∧ cacheOnly = false) := by
  have since := counters.since
  have le := aheadAt_le known cacheOnly p₀ b
  have row : p + 1 = p₀ + aheadAt known cacheOnly p₀ b := by
    have ahead := counters.ahead
    rw [counters.nMin] at due
    omega
  -- No more rows are ahead than lengths are known, unless none are.
  have few : p₀ < known → aheadAt known cacheOnly p₀ b ≤ known - p₀ := by
    intro less
    cases cacheOnly with
    | true =>
      have := within rfl
      omega
    | false =>
      rw [aheadAt, if_pos ⟨rfl, less⟩]
      omega
  have nRows : s.countDown.plan.nRows = ((b - (p + 1) : Nat) : Int) := by
    change (if 0 < s.plan.nRows then s.plan.nRows - s.plan.tuplesToRead else s.plan.nRows) = _
    rw [counters.nRows, counters.tuplesToRead]
    split <;> omega
  have nEOL : s.countDown.plan.nEOL = ((known - (p + 1) : Nat) : Int) := by
    change (if 0 < s.plan.nEOL then s.plan.nEOL - s.plan.tuplesToRead else s.plan.nEOL) = _
    rw [counters.nEOL, counters.tuplesToRead]
    split <;> omega
  refine ⟨nRows, nEOL, ?_, fun rest => ?_⟩
  · change (if s.countDown.plan.nEOL = 0 then noDBGetReadFile s.countDown.plan.nEOL else s.plan.readFile) = _
    split
    · rfl
    · rw [counters.readFile, nEOL, noDBGetReadFile_eq, if_pos (by omega), if_pos (by omega)]
  · unfold aheadAt at row
    split at row
    · next both => exact ⟨by omega, both.1⟩
    · omega

/-- The rest of the node is ahead. -/
theorem Counters.rest (nRows : s.plan.nRows = ((b - p : Nat) : Int)) (nEOL : s.plan.nEOL = ((known - p : Nat) : Int))
    (readFile : s.plan.readFile = noDBGetReadFile s.plan.nEOL) (behind : known ≤ p) (less : p < b) :
    Counters known cacheOnly b p p s.restOfNode.plan := by
  have all : aheadAt known cacheOnly p b = b - p := if_neg fun both => by omega
  refine ⟨Nat.le_refl p, by omega, nRows, nEOL, by rw [all]; exact nRows, ?_, ?_⟩
  · change s.plan.nRows = _
    rw [all, nRows]
    omega
  · change s.plan.readFile = _
    rw [readFile, nEOL, noDBGetReadFile_eq]

end

/-! ### Nodes of caches only -/

section

variable {D : Type} {rel : Relation D} {records : List (PlainRecord rel.fmt rel.natts)} {task : Task D}
  {phase : Phase D} {j : Nat}

/-- The node is served from caches only. -/
def Phase.cacheOnly (phase : Phase D) (byValue : Nat → Bool) (task : Task D) (j : Nat) : Bool :=
  noDBReadFromCacheOnly (phase.node byValue task j)

namespace Phase.Valid

variable (valid : phase.Valid rel records task) (proper : task.Proper rel.natts)

include valid proper

section

variable (inside : j < phase.count)
include inside

theorem allCached (cacheOnly : phase.cacheOnly rel.byValue task j = true) :
    AllCached task ((phase.planning task).matrix j) :=
  valid.built.allCached_of_cacheOnly proper inside cacheOnly

/-- Some column is claimed for all rows of the node. -/
theorem exists_claim (cacheOnly : phase.cacheOnly rel.byValue task j = true) :
    ∃ i c, (lane phase.base .data).Claims i c (phase.row (j + 1) - 1) := by
  have cached := valid.allCached proper inside cacheOnly
  obtain ⟨c, mem⟩ := List.exists_mem_of_ne_nil _ cached.some
  obtain ⟨i, hit⟩ := cached.hits c mem
  have rising := valid.row_lt (Nat.lt_add_one j) inside
  refine ⟨i, c, (valid.aligned .data).claims_node inside ?_ (valid.built.hit hit)⟩
  exact ⟨show phase.row j ≤ _ by omega, show _ < phase.row (j + 1) by omega⟩

/-- Such a node ends within the rows whose lengths are known. -/
theorem row_le_known (cacheOnly : phase.cacheOnly rel.byValue task j = true) :
    phase.row (j + 1) ≤ task.known := by
  obtain ⟨i, c, claims⟩ := valid.exists_claim proper inside cacheOnly
  obtain ⟨cache, here, -, -, row⟩ := lane_claims_iff.1 claims
  have ends := valid.ends here
  have last := (Cache.hasRow_iff.1 row).2
  have rising := valid.row_lt (Nat.lt_add_one j) inside
  have first := valid.row_le (Nat.zero_le j) (le_of_lt inside)
  omega

/-- There is none if no cache reaches the first row. -/
theorem not_cacheOnly (ends : ∀ {i : Nat} {cache : Cache D}, phase.base[i]? = some cache → cache.endRow ≤ phase.row 0) :
    phase.cacheOnly rel.byValue task j = false := by
  by_contra cacheOnly
  obtain ⟨i, c, claims⟩ := valid.exists_claim proper inside (by simpa using cacheOnly)
  obtain ⟨cache, here, -, -, row⟩ := lane_claims_iff.1 claims
  have last := (Cache.hasRow_iff.1 row).2
  have before := ends here
  have rising := valid.row_lt (Nat.lt_add_one j) inside
  have first := valid.row_le (Nat.zero_le j) (le_of_lt inside)
  omega

/-- A node is served from caches only if its first row is, with nothing to write. -/
theorem cacheOnly_of_covers (some : task.query.readAll ≠ [])
    (data : ∀ c ∈ task.query.readAll, (lane phase.base .data).Covers c (phase.row j))
    (writes : ∀ t, ∀ c ∈ task.info.write t, (lane phase.base t).Covers c (phase.row j)) :
    phase.cacheOnly rel.byValue task j = true := by
  refine valid.built.cacheOnly_of_allCached proper inside ⟨some, fun c mem => ?_, fun t c i mark => ?_⟩
  · exact valid.built.cached inside (proper.mem_cols.2 mem) (data c mem)
  · obtain ⟨marked, write, -⟩ := valid.built.mark_add mark
    exact ((valid.ready t).planned.add marked).2.2.1 (writes t c write)

/-- What is to be written is there in the rows of such a node. -/
theorem covers_of_cacheOnly (cacheOnly : phase.cacheOnly rel.byValue task j = true)
    (t : CacheType) {c : Nat} (writes : c ∈ task.info.write t) : (lane phase.base t).Covers c (phase.row j) := by
  have cached := valid.allCached proper inside cacheOnly
  by_contra missing
  obtain ⟨i, mark⟩ := (valid.ready t).mark_of_missing (c := c) writes inside missing
  exact cached.idle t c i (Mark.added_eq_some.1 mark)

end

/-- **Nodes of caches only come first.** -/
theorem cacheOnly_of_next (inside : j + 1 < phase.count)
    (cacheOnly : phase.cacheOnly rel.byValue task (j + 1) = true) : phase.cacheOnly rel.byValue task j = true := by
  have cached := valid.allCached proper inside cacheOnly
  have le := le_of_lt (valid.row_lt (Nat.lt_add_one j) (le_of_lt inside))
  refine valid.cacheOnly_of_covers proper (by omega) cached.some (fun c mem => ?_) fun t c writes => ?_
  · obtain ⟨i, hit⟩ := cached.hits c mem
    exact (valid.tidy .data).initial ⟨i, valid.built.hit hit⟩ le
  · exact (valid.tidy t).initial (valid.covers_of_cacheOnly proper inside cacheOnly t writes) le

end Phase.Valid

end

end PostgresRaw
