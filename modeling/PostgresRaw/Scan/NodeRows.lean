import PostgresRaw.Scan.Cursor
import PostgresRaw.Scan.Rescan
import PostgresRaw.Scan.SelfJoin

/-!
# The rows of a node

A scan counts rows in four ways: `nRows` is what is left of the node, `nEOL` what is left of the known lengths,
`nMin` counts down to the next strategy update, and `tuplesToRead` remembers where it began.  They are lowered in
units of their own, and not at the same time.  `InNode` says how they fit together, and with that the row counter
is always within the node (`Scanned.inNode_or_atEnd`).

There is one way out of a node: the update behind its last row finds the end of the file and leaves the
counters at 0.  The scan then is `AtEnd`, and stays there.  What carries this is that the test is made only
when no lengths are left (`InNode.lengths`): the scan goes on without lengths, and without lengths there is
nothing to read at the end of the file.  A rescan comes to the same test, and starts again.
-/

namespace PostgresRaw

open List

section

variable {D : Type} {rel : Relation D} {w w' : World D} {s s' : Scan D}

/-! ### Runs of one scan -/

/-- **The states of a scan**: it is started in any world, gives rows, reports the end, and is started again, in any
order.  In between other scans may change caches and locks. -/
inductive Scanned (rel : Relation D) : World D → Scan D → Prop where
  | start (w : World D) (q : Query D) : Scanned rel (noDBScanStateInit rel w q).1 (noDBScanStateInit rel w q).2
  | row {w w' : World D} {s s' : Scan D} {result : StepResult D} (before : Scanned rel w s)
      (step : execNoDBPlan rel w s = (result, w', s')) (goes : ¬ result.IsFailure) : Scanned rel w' s'
  | rescan {w w' : World D} {s s' : Scan D} (before : Scanned rel w s)
      (again : noDBScanStateReInit rel w s = some (w', s')) : Scanned rel w' s'
  | others {w : World D} {s : Scan D} (before : Scanned rel w s) (caches : List (Cache D)) (cacheLock pmLock : Nat → Bool) :
      Scanned rel { w with caches := caches, cacheLock := cacheLock, pmLock := pmLock } s

/-! ### The counters -/

/-- **Within a node**: the counters tell the row. -/
structure InNode (w : World D) (s : Scan D) : Prop where
  onNode : s.plan.iterator.OnNode
  ahead : 0 < s.plan.nMin
  within : s.plan.nMin ≤ s.plan.tuplesToRead
  left : s.plan.tuplesToRead ≤ s.plan.nRows
  rows : s.plan.nRows ≤ s.plan.curStrategy.nrows
  place : (s.processed : Int) + s.plan.nMin + s.plan.nRows =
    s.plan.curStrategy.startRow + s.plan.curStrategy.nrows + s.plan.tuplesToRead
  /-- lengths that are left are those behind the last update, and they are used -/
  lengths : 0 < s.plan.nEOL → s.plan.readFile = .fromFileWithEOL ∧
    (w.eol.usedRows : Int) + s.plan.tuplesToRead = s.plan.nEOL + s.processed + s.plan.nMin

/-- **At the end of the file**, without anything to read. -/
structure AtEnd (rel : Relation D) (w : World D) (s : Scan D) : Prop where
  plan : s.execPlan = .plan
  readFile : s.plan.readFile = .fromFile
  buffer : s.input.rawBuf = []
  behind : rel.file.length ≤ s.input.pos
  /-- there is nothing to seek -/
  place : s.input.tupleRead = s.processed ∨ w.eol.usedRows < s.processed

theorem rowsAhead_bounds {n : Strategy} (positive : 0 < n.nrows) (nEOL : Int) :
    0 < rowsAhead n nEOL ∧ rowsAhead n nEOL ≤ n.nrows := by
  unfold rowsAhead
  split
  · split <;> omega
  · omega

/-- A node that is entered at its first row. -/
theorem InNode.enter (ahead : s.plan.iterator.Ahead s.processed)
    (inside : s.plan.iterator.cur < s.plan.iterator.strategy.length) (nRows : s.plan.nRows = s.plan.curStrategy.nrows)
    (nMin : s.plan.nMin = rowsAhead s.plan.curStrategy s.plan.nEOL) (tuples : s.plan.tuplesToRead = s.plan.nMin)
    (lengths : 0 < s.plan.nEOL → s.plan.readFile = .fromFileWithEOL ∧
      (w.eol.usedRows : Int) = s.plan.nEOL + s.processed) : InNode w s := by
  obtain ⟨start, positive, -⟩ := ahead.next_node inside
  have bounds := rowsAhead_bounds positive s.plan.nEOL
  have here : s.plan.curStrategy.startRow = s.processed := start
  have atMost : s.plan.nMin ≤ s.plan.curStrategy.nrows := nMin ▸ bounds.2
  refine ⟨⟨⟨_, ahead⟩, inside⟩, nMin ▸ bounds.1, tuples.ge, ?_, nRows.le, ?_, fun known => ?_⟩
  · omega
  · omega
  · obtain ⟨withEOL, used⟩ := lengths known
    exact ⟨withEOL, by omega⟩

/-- The row counter is within the node. -/
theorem InNode.bounds (inNode : InNode w s) : s.plan.curStrategy.startRow ≤ s.processed ∧
      s.processed < s.plan.curStrategy.startRow + s.plan.curStrategy.nrows := by
  obtain ⟨-, ahead, within, left, rows, place, -⟩ := inNode
  omega

/-- Only the counters and the number of known lengths matter. -/
theorem InNode.of_same (inNode : InNode w s) (plan : s'.plan = s.plan) (processed : s'.processed = s.processed)
    (used : 0 < s.plan.nEOL → w'.eol.usedRows = w.eol.usedRows) : InNode w' s' := by
  obtain ⟨onNode, ahead, within, left, rows, place, lengths⟩ := inNode
  rw [← plan] at onNode ahead within left rows place lengths used
  rw [← processed] at place lengths
  refine ⟨onNode, ahead, within, left, rows, place, fun known => ?_⟩
  rw [used known]
  exact lengths known

/-! ### The place in the file -/

/-- Behind a seek the scan is at the row, unless the row is not among the known lengths. -/
theorem seekToRow_place (headerLine : Bool) (row : Nat) (input : RawInput) :
    (seekToRow headerLine row input).tupleRead = row ∨ input.eolCache.usedRows < row := by
  unfold seekToRow
  split
  · exact .inl rfl
  · next still =>
    by_cases here : input.tupleRead = row
    · exact .inl here
    · exact .inr (Nat.lt_of_not_le fun known => still ⟨here, known⟩)

variable {input input' : RawInput} {src : Source}

theorem seekToRow_of_place {headerLine : Bool} {row : Nat}
    (place : input.tupleRead = row ∨ input.eolCache.usedRows < row) : seekToRow headerLine row input = input := by
  unfold seekToRow
  rw [if_neg]
  rintro ⟨other, known⟩
  rcases place with here | behind
  · exact other here
  · exact absurd known (not_le.2 behind)

theorem fread_of_le {pos : Nat} (n : Nat) (behind : src.file.length ≤ pos) : src.fread pos n = [] := by
  rw [Source.fread, drop_eq_nil_of_le behind, take_nil]

theorem le_of_fread {pos : Nat} (none : src.fread pos rawBufSize = []) : src.file.length ≤ pos := by
  rw [Source.fread, take_eq_nil_iff] at none
  exact drop_eq_nil_iff.1 (none.resolve_left (by decide))

/-- Behind the end of the file there is nothing to load. -/
theorem noDBCopyLoadRawBuf_of_le (behind : src.file.length ≤ input.pos) :
    noDBCopyLoadRawBuf src input = some (false, input) := by
  unfold noDBCopyLoadRawBuf noDBCopyGetData
  simp only [fread_of_le _ behind]
  split
  · next no =>
    split at no
    · cases no
    · cases no
  · next loaded =>
    split at loaded
    · cases loaded
      simp
    · cases loaded
      simp

theorem noDBCopyGetData_of_some {data : List Byte} (got : noDBCopyGetData src rawBufSize input = some (data, input')) :
    input'.rawBuf = input.rawBuf ∧ input'.tupleRead = input.tupleRead ∧ (data = [] → src.file.length ≤ input'.pos) := by
  unfold noDBCopyGetData at got
  split at got
  · simp only at got
    split at got
    · next none =>
      cases got
      exact ⟨rfl, rfl, fun _ => le_of_fread none⟩
    · split at got
      · cases got
      · cases got
        exact ⟨rfl, rfl, fun none => Nat.le_add_right_of_le (le_of_fread none)⟩
  · cases got
    exact ⟨rfl, rfl, fun none => Nat.le_add_right_of_le (le_of_fread none)⟩

/-- **What it means to be at the end**: the buffer is empty, and the file position is behind the file. -/
theorem noDBTryReFillRawBuf_ended (ended : noDBTryReFillRawBuf src input = some (true, input')) :
    input'.rawBuf = [] ∧ src.file.length ≤ input'.pos ∧ input'.tupleRead = input.tupleRead := by
  unfold noDBTryReFillRawBuf at ended
  split at ended
  · next empty =>
    obtain ⟨⟨loaded, after⟩, load, result⟩ := Option.map_eq_some_iff.1 ended
    obtain ⟨isEnd, rfl⟩ := Prod.mk.inj result
    unfold noDBCopyLoadRawBuf at load
    rw [empty, length_nil, Nat.sub_zero] at load
    split at load
    · cases load
    · next data read got =>
      cases load
      obtain ⟨same, place, behind⟩ := noDBCopyGetData_of_some got
      have none : data = [] := by
        rw [empty] at same
        simpa [same] using isEnd
      exact ⟨by rw [same, empty, none]; rfl, behind none, place⟩
  · cases ended

/-- The answer that the file has ended. -/
theorem lookAhead_ended (ended : lookAhead rel w input = some (true, input')) :
    input.eolCache.usedRows ≤ input.tupleRead ∧ input'.rawBuf = [] ∧ rel.file.length ≤ input'.pos ∧
      input'.tupleRead = input.tupleRead := by
  unfold lookAhead at ended
  split at ended
  · next unknown => exact ⟨unknown, noDBTryReFillRawBuf_ended ended⟩
  · cases ended

/-! ### Row steps -/

theorem countDown_nRows (some : 0 < s.plan.nRows) : s.countDown.plan.nRows = s.plan.nRows - s.plan.tuplesToRead :=
  if_pos some

/-- Lengths that are left have been there before. -/
theorem countDown_known (known : 0 < s.countDown.plan.nEOL) :
    0 < s.plan.nEOL ∧ s.countDown.plan.nEOL = s.plan.nEOL - s.plan.tuplesToRead ∧
      s.countDown.plan.readFile = s.plan.readFile := by
  have before : 0 < s.plan.nEOL := by
    by_contra none
    have same : s.countDown.plan.nEOL = s.plan.nEOL := if_neg none
    exact none (same ▸ known)
  exact ⟨before, if_pos before, if_neg (Int.ne_of_gt known)⟩

section

variable (inNode : InNode w s)
include inNode

section

variable (due : s.plan.nMin - 1 = 0)

include due

/-- The lengths that are left behind the rows ahead. -/
theorem InNode.stillKnown
    (known : 0 < s.counted.countDown.plan.nEOL) : s.counted.countDown.plan.readFile = .fromFileWithEOL ∧
      (w.eol.usedRows : Int) = s.counted.countDown.plan.nEOL + (s.processed + 1 : Nat) := by
  obtain ⟨before, nEOL, readFile⟩ := countDown_known known
  obtain ⟨withEOL, used⟩ := inNode.lengths before
  refine ⟨readFile.trans withEOL, ?_⟩
  change s.counted.countDown.plan.nEOL = s.plan.nEOL - s.plan.tuplesToRead at nEOL
  rw [nEOL]
  push_cast
  omega

/-- The rows that are left of the node behind the rows ahead. -/
theorem InNode.rowsLeft :
    0 ≤ s.counted.countDown.plan.nRows ∧ ((s.processed + 1 : Nat) : Int) + s.counted.countDown.plan.nRows =
      s.plan.curStrategy.startRow + s.plan.curStrategy.nrows ∧
        s.counted.countDown.plan.nRows ≤ s.plan.curStrategy.nrows := by
  obtain ⟨-, ahead, within, left, rows, place, -⟩ := inNode
  have nRows : s.counted.countDown.plan.nRows = s.plan.nRows - s.plan.tuplesToRead :=
    countDown_nRows (s := s.counted) (show 0 < s.plan.nRows by omega)
  rw [nRows]
  push_cast
  omega

/-- The rest of the node. -/
theorem InNode.restOfNode (more : s.counted.countDown.plan.nRows ≠ 0) : InNode w s.counted.countDown.restOfNode := by
  obtain ⟨positive, next, rows⟩ := inNode.rowsLeft due
  refine ⟨inNode.onNode, ?_, Int.le_refl _, Int.le_refl _, rows, ?_, fun known => ?_⟩
  · change 0 < s.counted.countDown.plan.nRows
    omega
  · change ((s.processed + 1 : Nat) : Int) + s.counted.countDown.plan.nRows + s.counted.countDown.plan.nRows =
      s.plan.curStrategy.startRow + s.plan.curStrategy.nrows + s.counted.countDown.plan.nRows
    omega
  · obtain ⟨withEOL, used⟩ := inNode.stillKnown due known
    refine ⟨withEOL, ?_⟩
    change (w.eol.usedRows : Int) + s.counted.countDown.plan.nRows =
      s.counted.countDown.plan.nEOL + (s.processed + 1 : Nat) + s.counted.countDown.plan.nRows
    omega

/-- **The end of the file is found without lengths only**, since with lengths left it is not looked for. -/
theorem InNode.atEnd
    (looked : lookAhead rel w (seekToRow rel.headerLine (s.processed + 1) (s.counted.reader w)) = some (true, input)) :
    let ws := storeReader (finalizeNode w s.counted) s.counted.countDown input
    AtEnd rel ws.1 ws.2.atEnd := by
  obtain ⟨unknown, buffer, behind, tupleRead⟩ := lookAhead_ended looked
  have placed := seekToRow_place rel.headerLine (s.processed + 1) (s.counted.reader w)
  have used : w.eol.usedRows =
      (seekToRow rel.headerLine (s.processed + 1) (s.counted.reader w)).eolCache.usedRows :=
    (sameRows_seekToRow rel.headerLine (s.processed + 1) (s.counted.reader w)).usedRows.symm
  have usedRows : input.eolCache.usedRows = w.eol.usedRows := by
    rw [used]
    exact (sameRows_lookAhead looked).usedRows
  have place : input.tupleRead = s.processed + 1 ∨ w.eol.usedRows < s.processed + 1 := placed.imp_left tupleRead.trans
  refine ⟨rfl, if_neg fun known => ?_, buffer, behind, ?_⟩
  · obtain ⟨-, left⟩ := inNode.stillKnown due known
    rw [← used, ← tupleRead] at unknown
    push_cast at left
    change 0 < s.counted.countDown.plan.nEOL at known
    omega
  · change input.tupleRead = s.processed + 1 ∨ input.eolCache.usedRows < s.processed + 1
    rwa [usedRows]

/-- The next node. -/
theorem InNode.nextStrategy
    (last : s.counted.countDown.plan.nRows = 0) (used : input.eolCache.usedRows = w.eol.usedRows) :
    let ws := storeReader (finalizeNode w s.counted) s.counted.countDown input
    let next := nextStrategy rel ws.1 ws.2
    InNode next.1 next.2 := by
  intro ws next
  obtain ⟨-, behind, -⟩ := inNode.rowsLeft due
  obtain ⟨⟨row, ahead⟩, inside⟩ := inNode.onNode
  obtain ⟨start, -, aheadNext⟩ := ahead.next_node inside
  have here : row + s.plan.iterator.current.nrows = s.processed + 1 := by
    rw [← start]
    change s.plan.curStrategy.startRow + s.plan.curStrategy.nrows = s.processed + 1
    omega
  rw [here] at aheadNext
  obtain ⟨aheadNew, insideNew⟩ := aheadNext.get rel.byValue ws.1.caches
  refine InNode.enter aheadNew insideNew rfl rfl rfl fun known => ?_
  obtain ⟨withEOL, left⟩ := inNode.stillKnown due known
  refine ⟨withEOL, ?_⟩
  rw [← used] at left
  exact (congrArg Int.ofNat (extendEol_usedRows ..)).trans left

/-- The update behind the last of the rows ahead. -/
theorem InNode.update
    (updated : noDBUpdateStrategy rel w s.counted = some (w', s')) : InNode w' s' ∨ AtEnd rel w' s' := by
  obtain ⟨more, rfl, rfl⟩ | ⟨last, ended, input, looked, result⟩ := noDBUpdateStrategy_cases updated
  · exact .inl (inNode.restOfNode due more)
  · cases ended with
    | true =>
      cases result
      exact .inr (inNode.atEnd due looked)
    | false =>
      cases result
      exact .inl (inNode.nextStrategy due last
        ((sameRows_seekToRow ..).trans (sameRows_lookAhead looked)).usedRows)

end

/-- The end of a row. -/
theorem InNode.advance {pass : Bool} {result : StepResult D}
    (row : advance rel w s pass = (result, w', s')) (goes : ¬ result.IsFailure) : InNode w' s' ∨ AtEnd rel w' s' := by
  rcases advance_cases rel w s pass with ⟨more, ends⟩ | ⟨-, -, ends⟩ | ⟨due, w₁, s₁, updated, ends⟩
  · cases ends.symm.trans row
    obtain ⟨onNode, ahead, within, left, rows, place, lengths⟩ := inNode
    refine .inl ⟨onNode, ?_, ?_, left, rows, ?_, fun known => ?_⟩
    · change 0 < s.plan.nMin - 1
      omega
    · change s.plan.nMin - 1 ≤ s.plan.tuplesToRead
      omega
    · change ((s.processed + 1 : Nat) : Int) + (s.plan.nMin - 1) + s.plan.nRows =
        s.plan.curStrategy.startRow + s.plan.curStrategy.nrows + s.plan.tuplesToRead
      push_cast
      omega
    · obtain ⟨withEOL, used⟩ := lengths known
      refine ⟨withEOL, ?_⟩
      change (w.eol.usedRows : Int) + s.plan.tuplesToRead = s.plan.nEOL + ((s.processed + 1 : Nat) : Int) + (s.plan.nMin - 1)
      push_cast
      omega
  · cases ends.symm.trans row
    exact absurd trivial goes
  · cases ends.symm.trans row
    exact inNode.update due updated

/-- Reading a line counts no row, and with lengths left it leaves the EOL cache. -/
theorem InNode.readLine {result : ReadResult} (read : readLine rel w s = (result, w', s')) :
    InNode w' s' := by
  have rows := readLine_rows read
  have plan : s'.plan = s.plan ∧ s'.processed = s.processed := by
    cases read
    exact ⟨rfl, rfl⟩
  refine inNode.of_same plan.1 plan.2 fun known => ?_
  rcases rows with ⟨-, same⟩ | ⟨plain, -⟩
  · exact same.usedRows
  · rw [(inNode.lengths known).1] at plain
    cases plain

/-- **A row step within a node.** -/
theorem InNode.step {result : StepResult D} (step : execNoDBPlan rel w s = (result, w', s'))
    (goes : ¬ result.IsFailure) : InNode w' s' ∨ AtEnd rel w' s' := by
  have outcome := execNoDBPlan_outcome rel w s
  rw [step] at outcome
  generalize final : (result, w', s') = out at outcome
  cases outcome with
  | outside =>
    cases final
    exact absurd trivial goes
  | cached _ values pass =>
    have now : InNode w { s with values := values } := inNode.of_same rfl rfl fun _ => rfl
    exact now.advance final.symm goes
  | ended _ read =>
    cases final
    exact .inl (inNode.readLine read)
  | failed _ _ failure =>
    cases final
    exact absurd failure goes
  | unwritten =>
    cases final
    exact absurd trivial goes
  | @row w₁ s₁ _ read row pass caches _ =>
    have now : InNode { w₁ with caches := caches } (s₁.setRowState row) :=
      (inNode.readLine read).of_same rfl rfl fun _ => rfl
    exact now.advance final.symm goes

end

/-- At the end of the file there is no line. -/
theorem noDBCopyReadLineText_ended (empty : input.rawBuf = []) (behind : src.file.length ≤ input.pos) :
    noDBCopyReadLineText src input = (.done, input) := by
  unfold noDBCopyReadLineText
  rw [readLoop, refill, if_pos (.inl empty), noDBCopyLoadRawBuf_of_le behind]
  simp only [Option.map_some, empty]

theorem noDBGetNextTupleFromFile_ended {src : Source} {input : RawInput} (row : Nat) (empty : input.rawBuf = [])
    (behind : src.file.length ≤ input.pos) :
    noDBGetNextTupleFromFile src row input = (.done, { input with lineBuf := [] }) := by
  have text : noDBCopyReadLineText src { input with lineBuf := [] } = (.done, { input with lineBuf := [] }) :=
    noDBCopyReadLineText_ended empty behind
  unfold noDBGetNextTupleFromFile
  rw [text]

theorem AtEnd.readLine (ended : AtEnd rel w s) :
    ∃ w₁ s₁, PostgresRaw.readLine rel w s = (.done, w₁, s₁) ∧ AtEnd rel w₁ s₁ := by
  have read := @noDBGetNextTupleFromFile_ended (rel.source w) (s.reader w) s.processed ended.buffer
    ended.behind
  refine ⟨(storeReader w s { s.reader w with lineBuf := [] }).1, (storeReader w s { s.reader w with lineBuf := [] }).2, ?_,
    ended.plan, ended.readFile, ended.buffer, ended.behind, ended.place⟩
  unfold PostgresRaw.readLine
  rw [ended.readFile]
  simp only [read]

/-- A row step at the end of the file gives nothing. -/
theorem AtEnd.step (ended : AtEnd rel w s) : ∃ w₁ s₁, execNoDBPlan rel w s = (.done, w₁, s₁) ∧ AtEnd rel w₁ s₁ := by
  obtain ⟨w₁, s₁, read, still⟩ := ended.readLine
  refine ⟨w₁, s₁, ?_, still⟩
  unfold execNoDBPlan
  rw [ended.plan]
  simp only [noDBExecPlan, read]

/-! ### Starting again -/

theorem ahead_firstStrategy (byValue : Nat → Bool) (q : QueryInfo) (caches : List (Cache D)) :
    (firstStrategy byValue q caches).1.Ahead 0 ∧
      (firstStrategy byValue q caches).1.cur < (firstStrategy byValue q caches).1.strategy.length :=
  (ahead_noDBScanStrategyIterator byValue q caches).get byValue _

theorem readFile_of_known {nEOL : Int} (known : 0 < nEOL) : noDBGetReadFile nEOL = .fromFileWithEOL := if_pos known

theorem inNode_noDBScanStateInit (rel : Relation D) (w : World D) (q : Query D) :
    InNode (noDBScanStateInit rel w q).1 (noDBScanStateInit rel w q).2 := by
  obtain ⟨ahead, inside⟩ := ahead_firstStrategy rel.byValue
    (q.info (unlockedCols w.cacheLock q.readAll) (unlockedCols w.pmLock q.readAll)) w.caches
  exact .enter ahead inside rfl rfl rfl fun known => ⟨readFile_of_known known, (Int.add_zero _).symm⟩

theorem inNode_restart (rel : Relation D) (w : World D) (s : Scan D) :
    InNode (restart rel w s).1 (restart rel w s).2 := by
  obtain ⟨ahead, inside⟩ := ahead_firstStrategy rel.byValue
    (s.query.info (renewLocks w.cacheLock s.query.readAll s.writeDataCols).1
      (renewLocks w.pmLock s.query.readAll s.writePositionCols).1) w.caches
  exact .enter ahead inside rfl rfl rfl fun known => ⟨readFile_of_known known, (Int.add_zero _).symm⟩

theorem InNode.rescan (inNode : InNode w s) (again : noDBScanStateReInit rel w s = some (w', s')) : InNode w' s' := by
  obtain ⟨input, ⟨more, rfl, rfl⟩ | result⟩ := noDBScanStateReInit_cases again
  · have used : input.eolCache.usedRows = w.eol.usedRows :=
      ((sameRows_seekToRow ..).trans (sameRows_noDBTryReFillRawBuf more)).usedRows
    obtain ⟨onNode, ahead, within, left, rows, place, lengths⟩ := inNode
    refine ⟨onNode, ahead, within, left, rows, place, fun known => ⟨readFile_of_known known, ?_⟩⟩
    change (input.eolCache.usedRows : Int) + s.plan.tuplesToRead = s.plan.nEOL + s.processed + s.plan.nMin
    rw [used]
    exact (lengths known).2
  · cases result
    exact inNode_restart rel ..

/-- At the end of the file a rescan starts again: nothing is sought, and the test has the same answer. -/
theorem AtEnd.rescan (ended : AtEnd rel w s) (again : noDBScanStateReInit rel w s = some (w', s')) : InNode w' s' := by
  obtain ⟨input, ⟨more, -⟩ | result⟩ := noDBScanStateReInit_cases again
  · rw [seekToRow_of_place ended.place] at more
    unfold noDBTryReFillRawBuf at more
    rw [if_pos (show (s.reader w).rawBuf = [] from ended.buffer), noDBCopyLoadRawBuf_of_le ended.behind] at more
    simp at more
  · cases result
    exact inNode_restart rel ..

/-! ### Whole runs -/

/-- **A scan is within its node, or at the end of the file.** -/
theorem Scanned.inNode_or_atEnd (scanned : Scanned rel w s) : InNode w s ∨ AtEnd rel w s := by
  induction scanned with
  | start w q => exact .inl (inNode_noDBScanStateInit rel w q)
  | row before step goes ih =>
    rcases ih with inNode | ended
    · exact inNode.step step goes
    · obtain ⟨w₁, s₁, done, still⟩ := ended.step
      cases done.symm.trans step
      exact .inr still
  | rescan before again ih =>
    rcases ih with inNode | ended
    · exact .inl (inNode.rescan again)
    · exact .inl (ended.rescan again)
  | others before caches cacheLock pmLock ih =>
    rcases ih with inNode | ended
    · exact .inl (inNode.of_same rfl rfl fun _ => rfl)
    · exact .inr ⟨ended.plan, ended.readFile, ended.buffer, ended.behind, ended.place⟩

/-- **The row counter stays in the current node.**  Each row that an executor function returns, at any time of a scan,
is one of the node in force, and the strategy update is still ahead. -/
theorem Scanned.row_in_node (scanned : Scanned rel w s) {values : Nat → Value D} {pass : Bool}
    (step : execNoDBPlan rel w s = (.tuple values pass, w', s')) :
    s.plan.curStrategy.startRow ≤ s.processed ∧
      s.processed < s.plan.curStrategy.startRow + s.plan.curStrategy.nrows ∧ 0 < s.plan.nMin := by
  rcases scanned.inNode_or_atEnd with inNode | ended
  · exact ⟨inNode.bounds.1, inNode.bounds.2, inNode.ahead⟩
  · obtain ⟨w₁, s₁, done, -⟩ := ended.step
    cases done.symm.trans step

end

/-- The second row of a relation without caches. -/
theorem Scanned.row_in_node_second :
    let s := (startAndRun threeRows 1 .initial (selectColumn 0 0)).scan
    s.plan.curStrategy.startRow ≤ s.processed ∧
      s.processed < s.plan.curStrategy.startRow + s.plan.curStrategy.nrows ∧ 0 < s.plan.nMin := by
  have going : (startAndRun threeRows 2 .initial (selectColumn 0 0)).ending = none := by
    have ends : (startAndRun threeRows 2 .initial (selectColumn 0 0)).ending.isNone = true := by decide +kernel
    exact Option.isNone_iff_eq_none.1 ends
  obtain ⟨_, _, w₁, s₁, first, going₁⟩ := exists_tuple_of_going going
  obtain ⟨_, _, w₂, s₂, second, -⟩ := exists_tuple_of_going going₁
  have now : (startAndRun threeRows 1 .initial (selectColumn 0 0)).scan = s₁ := by
    change (runRows threeRows 1 _ _).scan = s₁
    rw [runRows_of_tuple first]
    rfl
  rw [now]
  exact Scanned.row_in_node (.row (.start .initial (selectColumn 0 0)) first id) second

end PostgresRaw
