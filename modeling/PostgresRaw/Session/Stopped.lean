import PostgresRaw.Scan.Tended

/-!
# Sessions with early stops

Queries that are stopped by the node above their scan after any number of rows.  Two things can go
wrong.  Planning registers columns in caches for all nodes of the plan; a cache that is created for a
node which the scan does not get to stays behind without rows, and is taken for one that is in use
when a later query adds a column to it.  And with a header line the relative seek behind rows that
were served from caches adds the length of the header, so that the raw reader, which has not seen the
header yet, takes the next line for it.

`ReachedWell` are the worlds of sessions without either; their caches hold what the file says
(`reachedWell_sound`), and their queries give the lines behind the header in order
(`reachedWell_answers`).
-/

namespace PostgresRaw

open List

section

variable {D : Type} {rel : Relation D} {header : List Byte} {records : List (PlainRecord rel.fmt rel.natts)}
  {w : World D} {q : Query D}

/-! ### Where a scan is stopped -/

/-- No node that has not been begun writes a cache that begins with it. -/
def RowRun.StopsClean (run : RowRun D) : Prop :=
  ∀ node ∈ run.scan.plan.iterator.strategy, run.scan.processed ≤ node.startRow →
    ∀ {i : Nat} {cache : Cache D}, node.writesTo i = true → run.world.caches[i]? = some cache →
      cache.startRow ≠ node.startRow

variable {frame : Frame} {task : Task D} {n p : Nat} {keep : Phase D → Prop}

/-- **The plan stops well** where no cache begins from some row on. -/
theorem Halted.stopsWell {phase : Phase D} {valid : phase.Valid rel records task} {j row e : Nat} {run : RowRun D}
    (halted : Halted header frame valid j run.world run.scan)
    (clean : ∀ node ∈ run.scan.plan.iterator.strategy, row ≤ node.startRow → ∀ {i : Nat} {cache : Cache D},
      node.writesTo i = true → run.world.caches[i]? = some cache → cache.startRow ≠ node.startRow)
    (le : row ≤ e) (t : CacheType) : BookPlan.StopsWell valid.cuts ((phase.planning task).plan t) e := by
  intro a i inside writes behind begins
  have shape : SameShape (phase.planning task).caches run.world.caches := by
    rcases halted.caches with ⟨progress, -⟩ | ⟨-, progress⟩
    · exact progress.shape
    · exact progress.shape
  obtain ⟨c, mark⟩ := writes
  obtain ⟨cache, here, -⟩ := shape.lane_has.1 ((valid.ready t).planned.add mark).2.2.2.1
  have node : phase.node rel.byValue task a ∈ run.scan.plan.iterator.strategy := by
    rw [halted.iterator]
    exact mem_map.2 ⟨a, mem_range.2 inside, rfl⟩
  have startRow : (phase.node rel.byValue task a).startRow = phase.row a := strategyNode_startRow ..
  refine clean _ node (by rw [startRow]; exact le_trans le behind) ((valid.writesTo_iff inside).2 ⟨t, c, mark⟩) here ?_
  change (lane (phase.planning task).caches t).start i = phase.row a at begins
  rw [shape.lane_start t i, lane_start here] at begins
  rw [begins, startRow]

/-! ### Rows that are served from caches -/

/-- The row of a query is served from caches: they have all its columns, and there is nothing to write. -/
def World.Serves (w : World D) (q : Query D) (r : Nat) : Prop :=
  q.readAll ≠ [] ∧ (∀ c ∈ q.readAll, (lane w.caches .data).Covers c r) ∧
    ∀ t, ∀ c ∈ (w.task q).info.write t, (lane w.caches t).Covers c r

/-- If the first row is served from caches, so are all others that the scan gets to. -/
def World.ServesOn (w : World D) (q : Query D) (count n : Nat) : Prop :=
  w.Serves q 0 → ∀ r < count, r ≤ n → w.Serves q r

/-- Then no row that is read from the file follows one that is served from caches. -/
theorem Stocked.smooth (stocked : Stocked header records w) (nonempty : records ≠ []) (formed : q.Formed rel.natts)
    (free : w.Free q) (serves : w.ServesOn q records.length n) :
    w.phase.Smooth rel.byValue (w.task q) records.length n := by
  have tended := stocked.tended nonempty
  have valid := tended.valid q
  have proper := formed.proper free
  intro j inside cacheOnly within
  have first : w.phase.cacheOnly rel.byValue (w.task q) 0 = true := by
    clear within
    induction j with
    | zero => exact cacheOnly
    | succ j ih => exact ih (Nat.lt_of_succ_lt inside) (valid.cacheOnly_of_next proper inside cacheOnly)
  have served : w.Serves q 0 := by
    have cached := valid.allCached proper valid.count_pos first
    rw [← tended.row_zero]
    refine ⟨cached.some, fun c mem => ?_, fun t c writes => ?_⟩
    · obtain ⟨i, hit⟩ := cached.hits c mem
      exact ⟨i, valid.built.hit hit⟩
    · exact valid.covers_of_cacheOnly proper valid.count_pos first t writes
  by_contra goesOn
  rw [not_or] at goesOn
  obtain ⟨more, noNext⟩ := goesOn
  have known := valid.row_le_known proper inside cacheOnly
  have used := tended.used_le
  have known : w.phase.row (j + 1) ≤ w.eol.usedRows := known
  obtain ⟨some, covers, writes⟩ := serves served (w.phase.row (j + 1)) (by omega) within
  rcases lt_or_eq_of_le (show j + 1 ≤ w.phase.count from inside) with next | last
  · exact noNext ⟨next, valid.cacheOnly_of_covers proper next some covers writes⟩
  · -- No cache ends behind the last node.
    obtain ⟨c, mem⟩ := exists_mem_of_ne_nil _ some
    obtain ⟨i, has, -, behind⟩ := covers c mem
    rcases (valid.aligned .data).stops has with early | ⟨a, le, ends⟩
    · have early : (lane w.caches .data).stop i ≤ w.phase.row 0 := early
      have := valid.row_le (Nat.zero_le (j + 1)) (le_of_eq last)
      omega
    · have ends : (lane w.caches .data).stop i = w.phase.row a := ends
      have := valid.row_le (show a ≤ w.phase.count from le) le_rfl
      rw [last] at behind
      omega

/-! ### Sessions -/

variable (rel records) in
/-- **The worlds of sessions whose stops are clean**, and where rows that are served from caches are
followed by such rows if there is a header. -/
inductive ReachedWell : World D → Prop where
  | initial : ReachedWell .initial
  | query {w : World D} (reached : ReachedWell w) {q : Query D} (formed : q.Formed rel.natts) (n : Nat)
      (serves : rel.headerLine = true → w.ServesOn q records.length n)
      (ends : (startAndRun rel n w q).reachesEnd = true) (clean : (startAndRun rel n w q).StopsClean) :
      ReachedWell (endQuery (startAndRun rel n w q).world (startAndRun rel n w q).scan)

section

variable (stocked : Stocked header records w) (nonempty : records ≠ []) (plain : PlainRelation rel header records)
  (formed : q.Formed rel.natts) (free : w.Free q) (serves : rel.headerLine = true → w.ServesOn q records.length n)

include stocked nonempty plain formed free serves

/-- The scan of the next query. -/
theorem Stocked.underway (tight : Prop) (fits : tight ∨ w.phase.Fits (w.task q)) :
    Underway header records (w.frame q tight n) (w.task q) (fun _ => True) (noDBScanStateInit rel w q).1
      (noDBScanStateInit rel w q).2 :=
  ⟨w.phase, (stocked.tended nonempty).valid q, 0, trivial, .inl ((stocked.tended nonempty).start q plain
    (fun isHeader => stocked.smooth nonempty formed free (serves isHeader)) fits)⟩

/-- A run of a scan whose columns are not locked. -/
theorem Stocked.run :
    RunEnds header records (w.frame q True n) (w.task q) (fun _ => True) 0 n (startAndRun rel n w q) ∧
      TuplesRight records (w.task q) 0 (startAndRun rel n w q) := by
  exact (stocked.underway nonempty plain formed free serves True (.inl trivial)).run (n := n) goesOn_true
    (formed.proper free) plain (le_of_eq (zero_add _))

end

/-- A scan that is stopped is left. -/
theorem Underway.left {s : Scan D} (underway : Underway header records frame task keep w s) :
    Left header records frame task keep w s := by
  obtain ⟨phase, valid, j, kept, executing | ended⟩ := underway
  · exact ⟨phase, valid, j, kept, executing.halted⟩
  · exact ⟨phase, valid, j, kept, ended.halted⟩

section

variable {run : RowRun D} (runs : RunEnds header records frame task keep p n run)
include runs

/-- A run that gets to its end is left. -/
theorem RunEnds.left (ends : run.reachesEnd = true) :
    Left header records frame task keep run.world run.scan := by
  rcases runs with ⟨ending, -⟩ | ⟨-, -, underway⟩ | ⟨-, -, -, left⟩ | ⟨ending, -⟩
  · rw [RowRun.reachesEnd, ending] at ends
    cases ends
  · exact underway.left
  · exact left
  · rw [RowRun.reachesEnd, ending] at ends
    cases ends

/-- A run that has seen the end of the data has passed all rows. -/
theorem RunEnds.processed_of_done (ending : run.ending = some .done) : run.scan.processed = records.length := by
  rcases runs with ⟨other, -⟩ | ⟨other, -⟩ | ⟨-, -, processed, -⟩ | ⟨other, -⟩
  · rw [ending] at other
    cases other
  · rw [ending] at other
    cases other
  · exact processed
  · rw [ending] at other
    cases other

/-- A run that could go on has passed as many rows as it was asked for. -/
theorem RunEnds.processed_of_going (ending : run.ending = none) :
    run.scan.processed = p + n := by
  rcases runs with ⟨other, -⟩ | ⟨-, processed, -⟩ | ⟨other, -⟩ | ⟨other, -⟩
  · rw [ending] at other
    cases other
  · exact processed
  · rw [ending] at other
    cases other
  · rw [ending] at other
    cases other

end

/-- **A query keeps the world**, if it is stopped where it does no harm. -/
theorem Kept.query (kept : Kept header records w) (plain : PlainRelation rel header records)
    (formed : q.Formed rel.natts) (serves : rel.headerLine = true → w.ServesOn q records.length n)
    (ends : (startAndRun rel n w q).reachesEnd = true) (clean : (startAndRun rel n w q).StopsClean) :
    Kept header records (endQuery (startAndRun rel n w q).world (startAndRun rel n w q).scan) := by
  by_cases empty : records = []
  · obtain ⟨-, -, query, cacheLock, pmLock, unfilled⟩ := (kept.unfilled empty).run q plain n
    exact ⟨unfilled.stocked, unlocked_endQuery kept.unlocked query cacheLock pmLock⟩
  · obtain ⟨phase, valid, j, -, halted⟩ := (kept.run empty plain formed (kept.unlocked.free q) serves).1.left ends
    exact ⟨(halted.tended (halted.stopsWell clean le_rfl)).stocked, halted.unlocked kept.unlocked⟩

theorem ReachedWell.kept (plain : PlainRelation rel header records) (reached : ReachedWell rel records w) :
    Kept header records w := by
  induction reached with
  | initial => exact kept_initial
  | query _ formed n serves ends clean ih => exact ih.query plain formed serves ends clean

/-- **Caches are sound under early stops** if the stops are clean: every slot of a registered column in a
used row has been written with what the file says. -/
theorem reachedWell_sound (plain : PlainRelation rel header records) (reached : ReachedWell rel records w)
    {cache : Cache D} (mem : cache ∈ w.caches) {c r : Nat} (hasColumn : cache.hasColumn c = true)
    (hasRow : cache.hasRow r = true) : CellRight rel records cache.type c r (cache.cells c r) :=
  (reached.kept plain).right mem hasColumn hasRow

end

/-- A run whose nodes have all been begun stops cleanly. -/
theorem RowRun.stopsClean_of_begun {D : Type} {run : RowRun D}
    (begun : (run.scan.plan.iterator.strategy.all fun node => decide (node.startRow < run.scan.processed)) = true) :
    run.StopsClean := by
  intro node mem behind
  have := all_eq_true.1 begun node mem
  simp only [decide_eq_true_eq] at this
  omega

/-- Two rows of column 0 have been read. -/
def twoOfThree : World Nat :=
  endQuery (startAndRun threeRows 2 .initial (selectColumn 0 0)).world
    (startAndRun threeRows 2 .initial (selectColumn 0 0)).scan

theorem reachedWell_sound_twoOfThree :
    ∃ cache ∈ twoOfThree.caches, cache.hasColumn 0 = true ∧ cache.hasRow 1 = true ∧
      CellRight threeRows threeRecords cache.type 0 1 (cache.cells 0 1) := by
  have reached : ReachedWell threeRows threeRecords twoOfThree :=
    .query .initial (proper_selectColumn (by decide) 0).toFormed 2 nofun (by decide +kernel)
      (RowRun.stopsClean_of_begun (by decide +kernel))
  have first : (twoOfThree.caches[0]?.map fun cache => (cache.hasColumn 0, cache.hasRow 1)) = some (true, true) := by
    decide +kernel
  obtain ⟨cache, here, has⟩ := Option.map_eq_some_iff.1 first
  obtain ⟨hasColumn, hasRow⟩ := Prod.mk.inj has
  have mem := mem_of_getElem? here
  exact ⟨cache, mem, hasColumn, hasRow, reachedWell_sound plain_threeRows reached mem hasColumn hasRow⟩

/-- `SELECT` column 0 with `LIMIT 0`, and then `SELECT` column 1. -/
def afterLimitZero : World Nat :=
  let first := startAndRun threeRows 0 .initial (selectColumn 0 0)
  let second := startAndRun threeRows 4 (endQuery first.world first.scan) (selectColumn 1 0)
  endQuery second.world second.scan

/-- The cache that the first query has created for column 0 gets column 1, and rows; column 0 has never
been written. -/
theorem not_sound_afterLimitZero :
    Reached threeRows afterLimitZero ∧ ∃ cache ∈ afterLimitZero.caches, cache.type = .data ∧
      cache.hasColumn 0 = true ∧ cache.hasRow 0 = true ∧ cache.cells 0 0 = .unwritten := by
  refine ⟨.query (.query .initial (selectColumn 0 0) 0 (by decide +kernel)) (selectColumn 1 0) 4 (by decide +kernel), ?_⟩
  have first : (afterLimitZero.caches[0]?.map fun cache =>
      (cache.type, cache.hasColumn 0, cache.hasRow 0, decide (cache.cells 0 0 = .unwritten))) =
        some (.data, true, true, true) := by
    decide +kernel
  obtain ⟨cache, here, has⟩ := Option.map_eq_some_iff.1 first
  simp only [Prod.mk.injEq, decide_eq_true_eq] at has
  exact ⟨cache, mem_of_getElem? here, has⟩

section

variable {D : Type} {rel : Relation D} {header : List Byte} {records : List (PlainRecord rel.fmt rel.natts)}
  {w : World D} {q : Query D}

/-- Nothing is missing before the last node, so that all caches have a buffer for their rows. -/
theorem Tended.fits (tended : Tended header records w)
    (missing : MissingInLastOnly (w.task q).info w.phase.rows w.caches) : w.phase.Fits (w.task q) := by
  intro j c t inside i cache mark here
  obtain ⟨cache', maxRows, here', isMax, enough⟩ :=
    buildMatrix_fits tended.shaped.packed missing j inside mark
  obtain rfl : cache' = cache := Option.some.inj (here'.symm.trans here)
  rw [isMax, Option.getD_some]
  change w.phase.row (j + 1) - cache'.startRow ≤ maxRows at enough
  have rising := (tended.valid q).row_lt (Nat.lt_add_one j) inside
  omega

/-- The lines are given in order, if the caches have room. -/
theorem Kept.answers (kept : Kept header records w) (plain : PlainRelation rel header records)
    (accepts : AcceptsAll rel records) (proper : q.Proper rel.natts) (n : Nat)
    (serves : rel.headerLine = true → w.ServesOn q records.length n)
    (fits : records ≠ [] → w.phase.Fits (w.task q)) :
    (startAndRun rel n w q).reachesEnd = true ∧
      (startAndRun rel n w q).tuples = q.answer rel.input (records.take n) := by
  by_cases empty : records = []
  · obtain ⟨tuples, ending, -⟩ := (kept.unfilled empty).run q plain n
    rw [tuples, empty, RowRun.reachesEnd, ending, take_nil]
    refine ⟨?_, rfl⟩
    cases n <;> rfl
  · have going := kept.underway empty plain proper.toFormed (kept.unlocked.free q) serves False (.inr (fits empty))
    obtain ⟨ends, tuples⟩ := going.run (n := n) goesOn_true (kept.proper proper.toFormed) plain
      (Nat.le_of_eq (Nat.zero_add _))
    change RunEnds header records _ _ _ 0 n (startAndRun rel n w q) at ends
    change TuplesRight records _ 0 (startAndRun rel n w q) at tuples
    have answer := tuples proper
    rw [drop_zero, Nat.sub_zero] at answer
    rcases ends with ⟨-, tight⟩ | ⟨ending, processed, underway⟩ | ⟨ending, few, processed, -⟩ | ⟨-, -, -, rejects⟩
    · exact absurd tight id
    · refine ⟨by rw [RowRun.reachesEnd, ending], (answer (by rw [ending]; nofun)).2.trans ?_⟩
      rw [processed, Nat.zero_add]
      rfl
    · refine ⟨by rw [RowRun.reachesEnd, ending], (answer (by rw [ending]; nofun)).2.trans ?_⟩
      rw [processed, take_length, take_of_length_le (by omega)]
      rfl
    · obtain ⟨record, here, c, mem, rejected⟩ := rejects
      exact absurd (accepts record (mem_of_getElem? here) c (proper.inside c mem)) rejected

/-- **The lines behind the header are given in order**, from the state that clean stops leave. -/
theorem reachedWell_answers (plain : PlainRelation rel header records) (accepts : AcceptsAll rel records)
    (reached : ReachedWell rel records w) (proper : q.Proper rel.natts) (n : Nat)
    (serves : rel.headerLine = true → w.ServesOn q records.length n)
    (missing : MissingInLastOnly (w.task q).info w.phase.rows w.caches) :
    (startAndRun rel n w q).reachesEnd = true ∧
      (startAndRun rel n w q).tuples = q.answer rel.input (records.take n) := by
  have kept := reached.kept plain
  exact kept.answers plain accepts proper n serves fun nonempty => (kept.tended nonempty).fits missing

end

/-- The three rows behind the header line `a,b,c`. -/
def headedRows : Relation Nat :=
  { threeRows with
    file := [97, 44, 98, 44, 99, 10] ++ threeRows.file
    headerLine := true }

def headedRecords : List (PlainRecord headedRows.fmt headedRows.natts) := threeRecords

theorem plain_headedRows : PlainRelation headedRows [97, 44, 98, 44, 99, 10] headedRecords where
  file := by decide
  noHeader := nofun
  header _ := ⟨[97, 44, 98, 44, 99], rfl, by decide, by decide⟩
  transcoding := rfl

theorem reachedWell_answers_headedRows :
    (startAndRun headedRows 2 .initial (selectColumn 0 0)).reachesEnd = true ∧
      (startAndRun headedRows 2 .initial (selectColumn 0 0)).tuples =
        (selectColumn 0 0).answer headedRows.input (headedRecords.take 2) :=
  reachedWell_answers plain_headedRows (fun _ _ _ _ => ⟨_, rfl⟩) .initial
    (show (selectColumn 0 0).Proper headedRows.natts from proper_selectColumn (by decide) 0) 2
    (fun _ served => by
      obtain ⟨i, ⟨cache, here, -⟩, -⟩ := served.2.1 0 (by decide)
      cases here)
    (fun k early => by
      have : k + 1 < 1 := early
      omega)

/-- The first row of column 0 has been read behind the header. -/
def headedOne : World Nat :=
  endQuery (startAndRun headedRows 1 .initial (selectColumn 0 0)).world
    (startAndRun headedRows 1 .initial (selectColumn 0 0)).scan

/-- When column 0 is read to the end, four rows are given: the first one comes from the cache, and the
reader then goes back to the line behind the header. -/
theorem not_answers_headedOne :
    Reached headedRows headedOne ∧ (startAndRun headedRows 5 headedOne (selectColumn 0 0)).reachesEnd = true ∧
      (startAndRun headedRows 5 headedOne (selectColumn 0 0)).tuples ≠
        (selectColumn 0 0).answer headedRows.input headedRecords := by
  refine ⟨.query .initial (selectColumn 0 0) 1 (by decide +kernel), by decide +kernel, fun same => ?_⟩
  have four : (startAndRun headedRows 5 headedOne (selectColumn 0 0)).tuples.length = 4 := by decide +kernel
  rw [same] at four
  exact absurd four (by decide)

end PostgresRaw
