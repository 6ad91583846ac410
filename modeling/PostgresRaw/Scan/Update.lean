import PostgresRaw.Scan.Exec

/-!
# Strategy updates

`NoDBUpdateStrategy` in parts: the counters are lowered, and if the node is done the ends of its
caches are set, the file position is moved, and the next node is taken, unless the file has
ended.
-/

namespace PostgresRaw

section

variable {D : Type} (rel : Relation D) (w : World D) (s : Scan D)

/-- The counters after the rows ahead have been read. -/
def Scan.countDown : Scan D :=
  let nEOL := if 0 < s.plan.nEOL then s.plan.nEOL - s.plan.tuplesToRead else s.plan.nEOL
  let nRows := if 0 < s.plan.nRows then s.plan.nRows - s.plan.tuplesToRead else s.plan.nRows
  { s with
    plan := { s.plan with
      nEOL := nEOL
      nRows := nRows
      readFile := if nEOL = 0 then noDBGetReadFile nEOL else s.plan.readFile } }

/-- The rest of the node is ahead. -/
def Scan.restOfNode : Scan D :=
  { s with plan := { s.plan with nMin := s.plan.nRows, tuplesToRead := s.plan.nRows } }

/-- The scan at the end of the data. -/
def Scan.atEnd : Scan D :=
  { s with execPlan := .plan, plan := { s.plan with readFile := noDBGetReadFile s.plan.nEOL } }

/-- Set the ends of the caches that the node has written. -/
def finalizeNode : World D := { w with caches := noDBFinalizeStrategy s.plan.curStrategy s.processed w.caches }

/-- Look for the end of the data, unless lengths of lines are known. -/
def lookAhead (input : RawInput) : Option (Bool × RawInput) :=
  if input.eolCache.usedRows ≤ input.tupleRead then noDBTryReFillRawBuf (rel.source w) input
  else some (false, input)

/-- The end of a node. -/
def endNode : Option (World D × Scan D) :=
  (lookAhead rel w (seekToRow rel.headerLine s.processed (s.reader w))).map fun (ended, input) =>
    let (w, s) := storeReader (finalizeNode w s) s input
    if ended then (w, s.atEnd) else nextStrategy rel w s

theorem noDBUpdateStrategy_eq : noDBUpdateStrategy rel w s =
      if s.countDown.plan.nRows = 0 then endNode rel w s.countDown else some (w, s.countDown.restOfNode) := by
  change (if s.countDown.plan.nRows = 0 then _ else _) = _
  by_cases last : s.countDown.plan.nRows = 0
  · rw [if_pos last, if_pos last]
    unfold endNode lookAhead
    change (if (seekToRow rel.headerLine s.countDown.processed (s.countDown.reader w)).eolCache.usedRows ≤
      (seekToRow rel.headerLine s.countDown.processed (s.countDown.reader w)).tupleRead then _ else _) = _
    split
    · split <;> next result =>
        rw [show noDBTryReFillRawBuf (rel.source w)
          (seekToRow rel.headerLine s.countDown.processed (s.countDown.reader w)) = _ from result]
        rfl
    · rfl
  · rw [if_neg last, if_neg last]
    rfl

variable {rel w s}

/-- **What an update can do.** -/
theorem noDBUpdateStrategy_cases {w' : World D} {s' : Scan D}
    (updated : noDBUpdateStrategy rel w s = some (w', s')) :
    (s.countDown.plan.nRows ≠ 0 ∧ w' = w ∧ s' = s.countDown.restOfNode) ∨
      (s.countDown.plan.nRows = 0 ∧ ∃ ended input,
        lookAhead rel w (seekToRow rel.headerLine s.processed (s.reader w)) = some (ended, input) ∧
        let ws := storeReader (finalizeNode w s) s.countDown input
        (w', s') = if ended = true then (ws.1, ws.2.atEnd) else nextStrategy rel ws.1 ws.2) := by
  rw [noDBUpdateStrategy_eq] at updated
  split at updated
  · next last =>
    obtain ⟨⟨ended, input⟩, looked, result⟩ := Option.map_eq_some_iff.1 updated
    exact .inr ⟨last, ended, input, looked, result.symm⟩
  · next more =>
    cases updated
    exact .inl ⟨more, rfl, rfl⟩

end

end PostgresRaw
