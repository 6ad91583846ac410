import PostgresRaw.Session.Stopped

/-!
# Sessions with errors

A query that ends with an error gets no clean-up: the locks of its columns stay, and the used rows of
the caches are not set.  The rows that its last node has written are lost, which does no harm; but a
cache that has been created for this node, or for one behind it, stays without rows and is taken for
one in use when a later query adds a column to it.

`ReachedWithErrors` are the worlds of sessions without such caches, and without quals over columns
whose locks have been left behind.  Their caches hold what the file says, and their queries give the
lines in order (`reachedWithErrors_sound`).
-/

namespace PostgresRaw

open List

section

variable {D : Type} {rel : Relation D} {header : List Byte} {records : List (PlainRecord rel.fmt rel.natts)}
  {w : World D} {q : Query D}

/-- Neither the current node nor one behind it writes a cache that begins with it. -/
def RowRun.AbortsClean (run : RowRun D) : Prop :=
  ∀ node ∈ run.scan.plan.iterator.strategy, run.scan.plan.curStrategy.startRow ≤ node.startRow →
    ∀ {i : Nat} {cache : Cache D}, node.writesTo i = true → run.world.caches[i]? = some cache →
      cache.startRow ≠ node.startRow

section

variable {task : Task D} {phase : Phase D} {frame : Frame} {valid : phase.Valid rel records task} {j : Nat}

/-- The slots that have been written since the ends were set do not count. -/
theorem Progress.forget {caches : List (Cache D)} {e pos : Nat} (progress : Progress valid caches e pos) (le : e ≤ pos) :
    Progress valid caches e e :=
  ⟨progress.shape, progress.executed, progress.old,
    fun mark node less => progress.new mark node (lt_of_lt_of_le less le), progress.used⟩

/-- **What an aborted scan leaves is tended**, if no cache is registered from the current node on. -/
theorem Halted.tended_aborted {run : RowRun D} (halted : Halted header frame valid j run.world run.scan)
    (clean : run.AbortsClean) : Tended header records run.world := by
  -- The rows before `e` count.
  obtain ⟨e, first, last, before, progress⟩ : ∃ e, phase.row j ≤ e ∧ e ≤ phase.row (j + 1) ∧
      e ≤ run.scan.processed ∧ Progress valid run.world.caches e e := by
    rcases halted.caches with ⟨progress, -⟩ | ⟨ends, progress⟩
    · exact ⟨phase.row j, le_rfl, le_trans halted.first halted.last, halted.first,
        progress.forget halted.first⟩
    · exact ⟨run.scan.processed, halted.first, halted.last, le_rfl, progress⟩
  have current : run.scan.plan.curStrategy.startRow ≤ e := by
    rw [halted.current, show (phase.node rel.byValue task j).startRow = phase.row j from strategyNode_startRow ..]
    exact first
  have zero := valid.row_le (Nat.zero_le j) (le_of_lt halted.inside)
  have bound := valid.row_le (show j + 1 ≤ phase.count from halted.inside) le_rfl
  exact progress.tended (halted.stopsWell clean current) (by omega) (by omega) (by have := halted.seen; omega) halted.known halted.eol

end

/-! ### Sessions -/

variable (rel records) in
/-- **The worlds of sessions whose stops and aborts are clean.** -/
inductive ReachedWithErrors : World D → Prop where
  | initial : ReachedWithErrors .initial
  | query {w : World D} (reached : ReachedWithErrors w) {q : Query D} (formed : q.Formed rel.natts)
      (free : w.Free q) (n : Nat) (serves : rel.headerLine = true → w.ServesOn q records.length n)
      (ends : (startAndRun rel n w q).reachesEnd = true)
      (clean : (startAndRun rel n w q).StopsClean) :
      ReachedWithErrors (endQuery (startAndRun rel n w q).world (startAndRun rel n w q).scan)
  | abort {w : World D} (reached : ReachedWithErrors w) {q : Query D} (formed : q.Formed rel.natts)
      (free : w.Free q) (n : Nat) (serves : rel.headerLine = true → w.ServesOn q records.length n) {e : ScanError}
      (fails : (startAndRun rel n w q).ending = some (.error e)) (clean : (startAndRun rel n w q).AbortsClean) : ReachedWithErrors (startAndRun rel n w q).world

section

variable (stocked : Stocked header records w) (plain : PlainRelation rel header records) (formed : q.Formed rel.natts)
  (free : w.Free q) {n : Nat} (serves : rel.headerLine = true → w.ServesOn q records.length n)

include stocked plain formed free serves

/-- A query that is stopped. -/
theorem Stocked.query (ends : (startAndRun rel n w q).reachesEnd = true) (clean : (startAndRun rel n w q).StopsClean) :
    Stocked header records (endQuery (startAndRun rel n w q).world (startAndRun rel n w q).scan) := by
  by_cases empty : records = []
  · obtain ⟨-, -, -, -, -, unfilled⟩ := (stocked.unfilled empty).run q plain n
    exact unfilled.stocked
  · obtain ⟨phase, valid, j, -, halted⟩ := (stocked.run empty plain formed free serves).1.left ends
    exact (halted.tended (halted.stopsWell clean le_rfl)).stocked

/-- A query that is aborted. -/
theorem Stocked.abort {e : ScanError}
    (fails : (startAndRun rel n w q).ending = some (.error e)) (clean : (startAndRun rel n w q).AbortsClean) :
    Stocked header records (startAndRun rel n w q).world := by
  by_cases empty : records = []
  · obtain ⟨-, ending, -⟩ := (stocked.unfilled empty).run q plain n
    rw [fails] at ending
    cases n <;> cases ending
  · rcases (stocked.run empty plain formed free serves).1 with ⟨ending, -⟩ | ⟨ending, -⟩ | ⟨ending, -⟩ | ⟨-, -, left, -⟩
    · rw [fails] at ending
      cases ending
    · rw [fails] at ending
      cases ending
    · rw [fails] at ending
      cases ending
    · obtain ⟨phase, valid, j, -, halted⟩ := left
      exact (halted.tended_aborted clean).stocked

end

theorem ReachedWithErrors.stocked (plain : PlainRelation rel header records)
    (reached : ReachedWithErrors rel records w) : Stocked header records w := by
  induction reached with
  | initial => exact stocked_initial
  | query _ formed free n serves ends clean ih => exact ih.query plain formed free serves ends clean
  | abort _ formed free n serves fails clean ih => exact ih.abort plain formed free serves fails clean

/-- **Caches are sound after errors** if the aborts are clean: every slot of a registered column in a used
row has been written with what the file says, and a query that gets to the end of the data gives the
lines in order. -/
theorem reachedWithErrors_sound (plain : PlainRelation rel header records)
    (reached : ReachedWithErrors rel records w) :
    (∀ cache ∈ w.caches, ∀ {c r}, cache.hasColumn c = true → cache.hasRow r = true →
        CellRight rel records cache.type c r (cache.cells c r)) ∧
      ∀ {q : Query D} {n : Nat}, q.Proper rel.natts → w.Free q →
        (rel.headerLine = true → w.ServesOn q records.length n) → (startAndRun rel n w q).ending = some .done →
        (startAndRun rel n w q).tuples = q.answer rel.input records := by
  have stocked := reached.stocked plain
  constructor
  · intro cache mem c r hasColumn hasRow
    exact stocked.right mem hasColumn hasRow
  · intro q n proper free serves ending
    by_cases empty : records = []
    · obtain ⟨tuples, -⟩ := (stocked.unfilled empty).run q plain n
      rw [tuples, empty]
      rfl
    · obtain ⟨ends, tuples⟩ := stocked.run empty plain proper.toFormed free serves
      obtain ⟨-, answer⟩ := tuples proper (by rw [ending]; nofun)
      rw [answer, ends.processed_of_done ending, drop_zero, Nat.sub_zero, take_length]
      rfl

end

/-! ### A rejected field -/

/-- The three rows with an input function that rejects `7`. -/
def rejectingRows : Relation Nat :=
  { threeRows with input := fun _ bytes => if bytes = [55] then none else some bytes.length }

def rejectingRecords : List (PlainRecord rejectingRows.fmt rejectingRows.natts) := threeRecords

theorem plain_rejectingRows : PlainRelation rejectingRows [] rejectingRecords where
  file := by decide
  noHeader _ := rfl
  header := nofun
  transcoding := rfl

theorem RowRun.abortsClean_of_all {D : Type} {run : RowRun D}
    (all : (run.scan.plan.iterator.strategy.all fun node => (List.range run.world.caches.length).all fun i =>
      !node.writesTo i || run.world.caches[i]?.all fun cache => cache.startRow != node.startRow) = true) :
    run.AbortsClean := by
  intro node mem _ i cache writes here
  have inside := (List.getElem?_eq_some_iff.1 here).1
  have clean := List.all_eq_true.1 (List.all_eq_true.1 all node mem) i (List.mem_range.2 inside)
  rw [writes, here] at clean
  exact bne_iff_ne.1 clean

/-- Column 0 is read up to the second row, and then again up to the third one, which is rejected. -/
def abortedLater : World Nat :=
  let first := startAndRun rejectingRows 2 .initial (selectColumn 0 0)
  (startAndRun rejectingRows 3 (endQuery first.world first.scan) (selectColumn 0 0)).world

theorem reachedWithErrors_sound_abortedLater :
    (∀ cache ∈ abortedLater.caches, ∀ {c r}, cache.hasColumn c = true → cache.hasRow r = true →
        CellRight rejectingRows rejectingRecords cache.type c r (cache.cells c r)) ∧
      (startAndRun rejectingRows 4 abortedLater (selectColumn 1 0)).tuples =
        (selectColumn 1 0).answer rejectingRows.input rejectingRecords := by
  have proper : ∀ {col}, col < 3 → (selectColumn col 0).Proper rejectingRows.natts := fun less =>
    proper_selectColumn less 0
  have reached : ReachedWithErrors rejectingRows rejectingRecords abortedLater := by
    refine .abort (.query .initial (proper (by decide)).toFormed (.inl rfl) 2 nofun (by decide +kernel)
      (RowRun.stopsClean_of_begun (by decide +kernel))) (proper (by decide)).toFormed (.inl rfl) 3 nofun
      (e := .rejectedInput) ?_ ?_
    · decide +kernel
    · refine RowRun.abortsClean_of_all ?_
      decide +kernel
  have result := reachedWithErrors_sound plain_rejectingRows reached
  refine ⟨result.1, result.2 (proper (by decide)) (.inl rfl) nofun ?_⟩
  decide +kernel

/-- Column 0 is read up to the third row, which is rejected; then column 1 is read. -/
def afterAbort : World Nat :=
  let first := startAndRun rejectingRows 3 .initial (selectColumn 0 0)
  let second := startAndRun rejectingRows 4 first.world (selectColumn 1 0)
  endQuery second.world second.scan

/-- The cache that the aborted query has created for column 0 gets column 1, and three rows; the last row
of column 0 has never been written, and is given by a query. -/
theorem not_sound_afterAbort :
    (startAndRun rejectingRows 3 .initial (selectColumn 0 0)).ending = some (.error .rejectedInput) ∧
      (∃ cache ∈ afterAbort.caches, cache.type = .data ∧ cache.hasColumn 0 = true ∧ cache.hasRow 2 = true ∧
        cache.cells 0 2 = .unwritten) ∧
      (startAndRun rejectingRows 4 afterAbort (selectColumn 0 0)).ending = some .done ∧
      ∃ tuple, (startAndRun rejectingRows 4 afterAbort (selectColumn 0 0)).tuples[2]? = some tuple ∧
        tuple 0 = .garbage := by
  refine ⟨by decide +kernel, ?_, by decide +kernel, ?_⟩
  · have first : (afterAbort.caches[0]?.map fun cache =>
        (cache.type, cache.hasColumn 0, cache.hasRow 2, decide (cache.cells 0 2 = .unwritten))) =
          some (.data, true, true, true) := by
      decide +kernel
    obtain ⟨cache, here, has⟩ := Option.map_eq_some_iff.1 first
    simp only [Prod.mk.injEq, decide_eq_true_eq] at has
    exact ⟨cache, mem_of_getElem? here, has⟩
  · have last : ((startAndRun rejectingRows 4 afterAbort (selectColumn 0 0)).tuples[2]?.map fun tuple => tuple 0) =
        some .garbage := by
      decide +kernel
    exact Option.map_eq_some_iff.1 last

end PostgresRaw
