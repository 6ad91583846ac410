import PostgresRaw.Scan.Locks
import PostgresRaw.Scan.Update

/-!
# Rescans

`NoDBScanStateReInit`.  If the EOL cache ends at the current row and there is more in the file, it
returns without a restart; otherwise the scan starts again at row 0 with a new strategy, and
with the locks that it gets after having released those of all its columns.
-/

namespace PostgresRaw

section

variable {D : Type} (rel : Relation D)

/-- The scan goes on at the current row. -/
def Scan.resume (s : Scan D) : Scan D :=
  { s with
    execPlan := noDBGetExecPlan s.query s.plan.curStrategy
    plan := { s.plan with readFile := noDBGetReadFile s.plan.nEOL } }

/-- The reading state at the start of the file.  `line_buf` and `eol_type` stay as they are. -/
def RawInput.rewind (s : RawInput) : RawInput :=
  { s with pos := 0, rawBuf := [], readHeader := false, tupleStored := 0, tupleRead := 0 }

/-- Start again at row 0. -/
def restart (w : World D) (s : Scan D) : World D × Scan D :=
  let q := s.query
  let (writeData, cacheLock) := renewLocks w.cacheLock q.readAll s.writeDataCols
  let (writePositions, pmLock) := renewLocks w.pmLock q.readAll s.writePositionCols
  let (it, caches) := firstStrategy rel.byValue (q.info writeData writePositions) w.caches
  -- The EOL cache is extended for the node that has just been given up.
  let eol := extendEol w.eol 0 s.plan.curStrategy.nrows
  ({ w with caches := caches, eolCache := some eol, cacheLock := cacheLock, pmLock := pmLock },
    { s with
      writeDataCols := writeData
      writePositionCols := writePositions
      plan := noDBPlanStateInit it eol.usedRows
      execPlan := noDBGetExecPlan q it.current
      processed := 0
      input := { s.input.rewind with eolCache := eol } })

/-- `NoDBScanStateReInit`; `none` if the search for the end of the header leaves its buffer. -/
def noDBScanStateReInit (w : World D) (s : Scan D) : Option (World D × Scan D) :=
  let input := seekToRow rel.headerLine s.processed (s.reader w)
  let w := finalizeNode w s
  if input.eolCache.usedRows ≤ input.tupleRead then
    match noDBTryReFillRawBuf (rel.source w) input with
    | none => none
    | some (false, input) =>
      let (w, s) := storeReader w s input
      some (w, s.resume)
    | some (true, input) =>
      let (w, s) := storeReader w s input
      some (restart rel w s)
  else
    let (w, s) := storeReader w s input
    some (restart rel w s)

variable {rel} in
/-- **What a rescan can do**: go on, if the file has more behind the known lengths, or start again. -/
theorem noDBScanStateReInit_cases {w w' : World D} {s s' : Scan D}
    (again : noDBScanStateReInit rel w s = some (w', s')) :
    ∃ input, (noDBTryReFillRawBuf (rel.source w) (seekToRow rel.headerLine s.processed (s.reader w)) = some (false, input) ∧
        w' = (storeReader (finalizeNode w s) s input).1 ∧ s' = (storeReader (finalizeNode w s) s input).2.resume) ∨
      (w', s') = restart rel (storeReader (finalizeNode w s) s input).1 (storeReader (finalizeNode w s) s input).2 := by
  unfold noDBScanStateReInit at again
  simp only at again
  split at again
  · split at again
    · cases again
    · next input more =>
      cases again
      exact ⟨input, .inl ⟨more, rfl, rfl⟩⟩
    · cases again
      exact ⟨_, .inr rfl⟩
  · cases again
    exact ⟨_, .inr rfl⟩

end

end PostgresRaw
