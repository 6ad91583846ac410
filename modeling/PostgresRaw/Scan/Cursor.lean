import PostgresRaw.Scan.Kept
import PostgresRaw.Strategy.Tiling

/-!
# The cursor of a scan

The part of a scan that the file position depends on: the reading state, the row counter and the
counters of the plan.  Of a strategy node it needs to know only whether it is served from caches
alone and how many rows it has, so that the nodes of a `Cursor` come in any order.

`startAndRun_cursor` says that a scan moves its file position as a cursor does, whatever it plans.
-/

namespace PostgresRaw

/-! ### The position of a scan -/

/-- What the file position depends on of a strategy node. -/
structure NodeShape where
  cacheOnly : Bool
  nrows : Nat
  positive : 0 < nrows

/-- `rowsAhead` of a node. -/
def NodeShape.rowsAhead (n : NodeShape) (nEOL : Int) : Int :=
  if n.cacheOnly = false ∧ 0 < nEOL then
    if nEOL < n.nrows then nEOL else n.nrows
  else n.nrows

/-- What the file position depends on of a scan: the reading state with the EOL cache (and an empty
`line_buf`), the row counter, and the counters of `NoDBPlanState_t`. -/
structure Cursor where
  input : RawInput
  processed : Nat
  cacheOnly : Bool
  readFile : ReadFile
  tuplesToRead : Int
  nRows : Int
  nEOL : Int
  nMin : Int

/-- How a row ends: within its node, with the start of the next node, or at the end of the data. -/
inductive RowEnd where
  | inside
  | entered
  | ended
deriving DecidableEq

/-- Look for the end of the data, unless lengths of lines are known. -/
def RawInput.lookAhead (src : Source) (input : RawInput) : Option (Bool × RawInput) :=
  if input.eolCache.usedRows ≤ input.tupleRead then noDBTryReFillRawBuf src input else some (false, input)

namespace Cursor

/-- A scan that starts with the node `n`. -/
def start (n : NodeShape) (eol : EolCache) : Cursor where
  input := .fresh eol
  processed := 0
  cacheOnly := n.cacheOnly
  readFile := noDBGetReadFile eol.usedRows
  tuplesToRead := n.rowsAhead eol.usedRows
  nRows := n.nrows
  nEOL := eol.usedRows
  nMin := n.rowsAhead eol.usedRows

/-- The counters after the rows ahead have been read. -/
def countDown (c : Cursor) : Cursor :=
  let nEOL := if 0 < c.nEOL then c.nEOL - c.tuplesToRead else c.nEOL
  let nRows := if 0 < c.nRows then c.nRows - c.tuplesToRead else c.nRows
  { c with
    nEOL := nEOL
    nRows := nRows
    readFile := if nEOL = 0 then noDBGetReadFile nEOL else c.readFile }

/-- Go on to the node `n`. -/
def enter (n : NodeShape) (c : Cursor) : Cursor :=
  { c with
    input := { c.input with eolCache := extendEol c.input.eolCache c.processed n.nrows }
    cacheOnly := n.cacheOnly
    tuplesToRead := n.rowsAhead c.nEOL
    nRows := n.nrows
    nMin := n.rowsAhead c.nEOL }

/-- The end of a node, with `n` as the next one. -/
def endNode (src : Source) (n : NodeShape) (c : Cursor) : Option (RowEnd × Cursor) :=
  ((seekToRow src.headerLine c.processed c.input).lookAhead src).map fun (ended, input) =>
    if ended = true then
      (.ended, { c with input := input, cacheOnly := false, readFile := noDBGetReadFile c.nEOL })
    else (.entered, enter n { c with input := input })

/-- The rest of the node is ahead. -/
def restOfNode (c : Cursor) : Cursor := { c with nMin := c.nRows, tuplesToRead := c.nRows }

/-- `NoDBUpdateStrategy`. -/
def update (src : Source) (n : NodeShape) (c : Cursor) : Option (RowEnd × Cursor) :=
  if c.countDown.nRows = 0 then c.countDown.endNode src n else some (.inside, c.countDown.restOfNode)

/-- Count the row. -/
def counted (c : Cursor) : Cursor := { c with processed := c.processed + 1, nMin := c.nMin - 1 }

/-- The end of every executor function. -/
def advance (src : Source) (n : NodeShape) (c : Cursor) : Option (RowEnd × Cursor) :=
  if c.counted.nMin = 0 then c.counted.update src n else some (.inside, c.counted)

/-- `plan->readFile(cstate)`. -/
def read (src : Source) (c : Cursor) : ReadResult × RawInput :=
  match c.readFile with
  | .fromFile => noDBGetNextTupleFromFile src c.processed c.input
  | .fromFileWithEOL => noDBGetNextTupleFromFileWithEOL src c.processed c.input

/-- One row; if its node ends, the next one is `n`. -/
def row (src : Source) (n : NodeShape) (c : Cursor) : Option (RowEnd × Cursor) :=
  if c.cacheOnly = true then c.advance src n
  else
    match c.read src with
    | (.line, input) => advance src n { c with input := { input with lineBuf := [] } }
    | _ => none

/-- What `NoDBCopyReadLineText`, or `NoDBCopyReadLineTextWithEOL`, puts into `line_buf`. -/
def placed (src : Source) (c : Cursor) : ReadResult × List Byte :=
  let (result, input) :=
    match c.readFile with
    | .fromFile => noDBCopyReadLineText src { c.input with lineBuf := [] }
    | .fromFileWithEOL => noDBCopyReadLineTextWithEOL src c.processed { c.input with lineBuf := [] }
  (result, input.lineBuf)

/-- The states of a scan with nodes in any order, where every node that has been left met the
condition `C` at its start.  The flag says that the state is the start of a node. -/
inductive Reaches (src : Source) (eol : EolCache) (C : Cursor → Prop) : (atStart : Bool) → Cursor → Prop where
  | start (n : NodeShape) : Reaches src eol C true (.start n eol)
  | row {atStart : Bool} {c c' : Cursor} {how : RowEnd} (n : NodeShape) (before : Reaches src eol C atStart c)
      (meets : atStart = true → C c) (step : c.row src n = some (how, c')) :
      Reaches src eol C (decide (how = .entered)) c'

end Cursor

/-! ### Scans as cursors -/

section

variable {D : Type}

/-- What the file position depends on of a node that has rows. -/
def Strategy.shape (n : Strategy) (positive : 0 < n.nrows) : NodeShape := ⟨noDBReadFromCacheOnly n, n.nrows, positive⟩

/-- The cursor of a scan. -/
def Scan.cursor (w : World D) (s : Scan D) : Cursor where
  input := { s.reader w with lineBuf := [] }
  processed := s.processed
  cacheOnly := s.execPlan.isCacheOnly
  readFile := s.plan.readFile
  tuplesToRead := s.plan.tuplesToRead
  nRows := s.plan.nRows
  nEOL := s.plan.nEOL
  nMin := s.plan.nMin

theorem isCacheOnly_noDBGetExecPlan (q : Query D) (n : Strategy) :
    (noDBGetExecPlan q n).isCacheOnly = noDBReadFromCacheOnly n := by
  unfold noDBGetExecPlan
  cases noDBReadFromCacheOnly n <;> simp only [if_true, if_false, Bool.true_eq_false] <;> split <;> rfl

/-- The iterator is on a node. -/
def StrategyIterator.OnNode (it : StrategyIterator) : Prop := (∃ row, it.Ahead row) ∧ it.cur < it.strategy.length

theorem StrategyIterator.OnNode.positive {it : StrategyIterator} (node : it.OnNode) : 0 < it.current.nrows := by
  obtain ⟨⟨row, ahead⟩, inside⟩ := node
  exact (ahead.next_node inside).2.1

theorem StrategyIterator.OnNode.next {it : StrategyIterator} (node : it.OnNode) (byValue : Nat → Bool)
    (caches : List (Cache D)) :
    (noDBScanStrategyIteratorGet byValue (noDBScanStrategyIteratorNext it) caches).1.OnNode := by
  obtain ⟨⟨row, ahead⟩, inside⟩ := node
  obtain ⟨ahead', inside'⟩ := (ahead.next_node inside).2.2.get byValue caches
  exact ⟨⟨_, ahead'⟩, inside'⟩

variable {rel : Relation D} {w w' : World D} {s s' : Scan D}

/-- **A scan starts as a cursor does.** -/
theorem noDBScanStateInit_cursor (rel : Relation D) (w : World D) (q : Query D) :
    let init := noDBScanStateInit rel w q
    init.2.plan.iterator.OnNode ∧ ∃ n, init.2.cursor init.1 = .start n init.1.eol := by
  intro init
  have node : init.2.plan.iterator.OnNode := by
    obtain ⟨ahead, inside⟩ := (ahead_noDBScanStrategyIterator rel.byValue
      (q.info (unlockedCols w.cacheLock q.readAll) (unlockedCols w.pmLock q.readAll)) w.caches).get rel.byValue
      (noDBScanStrategyIterator rel.byValue
        (q.info (unlockedCols w.cacheLock q.readAll) (unlockedCols w.pmLock q.readAll)) w.caches).2
    exact ⟨⟨_, ahead⟩, inside⟩
  refine ⟨node, init.2.plan.iterator.current.shape node.positive, ?_⟩
  have cacheOnly : init.2.execPlan.isCacheOnly = noDBReadFromCacheOnly init.2.plan.iterator.current :=
    isCacheOnly_noDBGetExecPlan _ _
  unfold Scan.cursor Cursor.start
  rw [cacheOnly]
  rfl

/-- The functions that move the reader do not look at `line_buf`. -/
theorem RawInput.lookAhead_seekToRow (src : Source) (headerLine : Bool) (processed : Nat) (s : RawInput) :
    (seekToRow headerLine processed { s with lineBuf := [] }).lookAhead src =
      ((seekToRow headerLine processed s).lookAhead src).map fun (ended, input) =>
        (ended, { input with lineBuf := [] }) := by
  have seek : seekToRow headerLine processed { s with lineBuf := [] } =
      { seekToRow headerLine processed s with lineBuf := [] } := by
    unfold seekToRow
    split <;> rfl
  rw [seek]
  generalize seekToRow headerLine processed s = s
  unfold RawInput.lookAhead noDBTryReFillRawBuf noDBCopyLoadRawBuf noDBCopyGetData
  simp only
  split_ifs
  · rfl
  · cases (src.fread s.pos (rawBufSize - s.rawBuf.length)).findIdx? (· = newline) <;> rfl
  · rfl
  · rfl
  · rfl

section

variable (node : s.plan.iterator.OnNode)
include node

/-- The next node is one of the cursor. -/
theorem nextStrategy_cursor : (nextStrategy rel w s).2.plan.iterator.OnNode ∧
      ∃ n, (nextStrategy rel w s).2.cursor (nextStrategy rel w s).1 = (s.cursor w).enter n := by
  have next := node.next rel.byValue w.caches
  refine ⟨next, (nextStrategy rel w s).2.plan.iterator.current.shape next.positive, ?_⟩
  have cacheOnly : (nextStrategy rel w s).2.execPlan.isCacheOnly =
      noDBReadFromCacheOnly (nextStrategy rel w s).2.plan.iterator.current := isCacheOnly_noDBGetExecPlan _ _
  unfold Scan.cursor Cursor.enter
  rw [cacheOnly]
  rfl

/-- The end of a node is one of the cursor. -/
theorem endNode_cursor (ended : endNode rel w s = some (w', s')) :
    s'.plan.iterator.OnNode ∧ ∃ n how, (s.cursor w).endNode (rel.source w) n = some (how, s'.cursor w') := by
  obtain ⟨⟨atEnd, input⟩, looked, result⟩ := Option.map_eq_some_iff.1 ended
  have moved := RawInput.lookAhead_seekToRow (rel.source w) rel.headerLine s.processed (s.reader w)
  have looked' : (seekToRow rel.headerLine s.processed (s.reader w)).lookAhead (rel.source w) = some (atEnd, input) :=
    looked
  rw [looked', Option.map_some] at moved
  have ends : ∀ n, (s.cursor w).endNode (rel.source w) n = some (if atEnd = true then
      (.ended, { s.cursor w with
        input := { input with lineBuf := [] }, cacheOnly := false, readFile := noDBGetReadFile s.plan.nEOL })
      else (.entered, Cursor.enter n { s.cursor w with input := { input with lineBuf := [] } })) := by
    intro n
    exact (congrArg _ moved).trans rfl
  cases atEnd with
  | true =>
    cases result
    exact ⟨node, s.plan.iterator.current.shape node.positive, .ended, ends _⟩
  | false =>
    obtain ⟨next, n, entered⟩ := @nextStrategy_cursor D rel (storeReader (finalizeNode w s) s input).1
      (storeReader (finalizeNode w s) s input).2 node
    have same : nextStrategy rel (storeReader (finalizeNode w s) s input).1
      (storeReader (finalizeNode w s) s input).2 = (w', s') := result
    rw [same] at next entered
    refine ⟨next, n, .entered, (ends n).trans ?_⟩
    rw [entered]
    rfl

/-- A strategy update is one of the cursor. -/
theorem noDBUpdateStrategy_cursor (updated : noDBUpdateStrategy rel w s = some (w', s')) : s'.plan.iterator.OnNode ∧
      ∃ n how, (s.cursor w).update (rel.source w) n = some (how, s'.cursor w') := by
  rw [noDBUpdateStrategy_eq] at updated
  split at updated
  · next last =>
    obtain ⟨next, n, how, ends⟩ := endNode_cursor (s := s.countDown) node updated
    refine ⟨next, n, how, ?_⟩
    rw [Cursor.update, if_pos (show (s.cursor w).countDown.nRows = 0 from last)]
    exact ends
  · next more =>
    cases updated
    refine ⟨node, s.plan.iterator.current.shape node.positive, .inside, ?_⟩
    rw [Cursor.update, if_neg (show ¬ (s.cursor w).countDown.nRows = 0 from more)]
    rfl

/-- The end of a row is one of the cursor. -/
theorem advance_cursor {pass pass' : Bool} {values : Nat → Value D}
    (advanced : advance rel w s pass = (.tuple values pass', w', s')) : s'.plan.iterator.OnNode ∧
      ∃ n how, (s.cursor w).advance (rel.source w) n = some (how, s'.cursor w') := by
  rcases advance_cases rel w s pass with ⟨more, result⟩ | ⟨-, -, result⟩ | ⟨last, w₁, s₁, updated, result⟩
  · rw [result] at advanced
    cases advanced
    refine ⟨node, s.plan.iterator.current.shape node.positive, .inside, ?_⟩
    rw [Cursor.advance, if_neg (show ¬ (s.cursor w).counted.nMin = 0 from more)]
    rfl
  · rw [result] at advanced
    cases advanced
  · rw [result] at advanced
    cases advanced
    obtain ⟨next, n, how, step⟩ := noDBUpdateStrategy_cursor (s := s.counted) node updated
    refine ⟨next, n, how, ?_⟩
    rw [Cursor.advance, if_pos (show (s.cursor w).counted.nMin = 0 from last)]
    exact step

end

/-- Reading a line is one of the cursor. -/
theorem readLine_cursor (read : readLine rel w s = (.line, w', s')) :
    rel.source w' = rel.source w ∧ s'.plan = s.plan ∧ ∃ input, (s.cursor w).read (rel.source w) = (.line, input) ∧
        s'.cursor w' = { s.cursor w with input := { input with lineBuf := [] } } := by
  cases mode : s.plan.readFile with
  | fromFile =>
    simp only [readLine, mode] at read
    generalize out : noDBGetNextTupleFromFile (rel.source w) s.processed (s.reader w) = call at read
    obtain ⟨result, input⟩ := call
    cases read
    refine ⟨rfl, rfl, input, ?_, rfl⟩
    rw [Cursor.read, show (s.cursor w).readFile = .fromFile from mode]
    exact out
  | fromFileWithEOL =>
    simp only [readLine, mode] at read
    generalize out : noDBGetNextTupleFromFileWithEOL (rel.source w) s.processed (s.reader w) = call at read
    obtain ⟨result, input⟩ := call
    cases read
    refine ⟨rfl, rfl, input, ?_, rfl⟩
    rw [Cursor.read, show (s.cursor w).readFile = .fromFileWithEOL from mode]
    exact out

/-- **A row step that delivers a tuple is one of the cursor.** -/
theorem execNoDBPlan_cursor (node : s.plan.iterator.OnNode) {pass : Bool} {values : Nat → Value D}
    (step : execNoDBPlan rel w s = (.tuple values pass, w', s')) : s'.plan.iterator.OnNode ∧
      ∃ n how, (s.cursor w).row (rel.source w) n = some (how, s'.cursor w') := by
  have outcome := execNoDBPlan_outcome rel w s
  generalize result : execNoDBPlan rel w s = out at outcome
  rw [step] at result
  cases outcome with
  | outside => cases result
  | cached cacheOnly values' pass' =>
    obtain ⟨next, n, how, advanced⟩ := advance_cursor (s := { s with values := values' }) node result.symm
    refine ⟨next, n, how, ?_⟩
    rw [Cursor.row, if_pos (show (s.cursor w).cacheOnly = true from cacheOnly)]
    exact advanced
  | ended => cases result
  | failed _ _ failure =>
    cases result
    exact absurd failure id
  | unwritten => cases result
  | @row w₁ s₁ file read r pass' caches _ =>
    obtain ⟨source, plan, input, delivered, cursor⟩ := readLine_cursor read
    rw [← plan] at node
    obtain ⟨next, n, how, advanced⟩ :=
      advance_cursor (w := { w₁ with caches := caches }) (s := s₁.setRowState r) node result.symm
    refine ⟨next, n, how, ?_⟩
    rw [show (s₁.setRowState r).cursor { w₁ with caches := caches } = s₁.cursor w₁ from rfl,
      show rel.source { w₁ with caches := caches } = rel.source w₁ from rfl, source, cursor] at advanced
    rw [Cursor.row, if_neg (show ¬ (s.cursor w).cacheOnly = true from by simp [Scan.cursor, file]), delivered]
    exact advanced

/-- **The states of a run are states of the cursor.** -/
theorem runRows_cursor (node : s.plan.iterator.OnNode) {src : Source} (source : rel.source w = src) {eol : EolCache}
    {atStart : Bool} (reaches : Cursor.Reaches src eol (fun _ => True) atStart (s.cursor w)) (n : Nat) :
    (runRows rel n w s).ending = none →
      ∃ atStart, Cursor.Reaches src eol (fun _ => True) atStart ((runRows rel n w s).scan.cursor (runRows rel n w s).world) := by
  induction n generalizing w s atStart with
  | zero => exact fun _ => ⟨_, reaches⟩
  | succ n ih =>
    unfold runRows
    split
    · next values pass w' s' result =>
      obtain ⟨node', next, how, step⟩ := execNoDBPlan_cursor node result
      have flag : w'.transcodingDisabled = w.transcodingDisabled := by
        have kept := (worldKept_transcodingDisabled rel w.transcodingDisabled).execNoDBPlan (s := s) rfl
        rwa [result] at kept
      have source' : rel.source w' = src := by
        rw [← source, Relation.source, Relation.source, flag]
      exact ih node' source' (.row next reaches (fun _ => trivial) (source ▸ step))
    · exact nofun

/-- **A scan moves its file position as a cursor does**, whatever nodes it plans. -/
theorem startAndRun_cursor (rel : Relation D) (n : Nat) (w : World D) (q : Query D)
    (goesOn : (startAndRun rel n w q).ending = none) :
    ∃ atStart, Cursor.Reaches (rel.source w) (noDBScanStateInit rel w q).1.eol (fun _ => True) atStart
      ((startAndRun rel n w q).scan.cursor (startAndRun rel n w q).world) := by
  obtain ⟨node, first, start⟩ := noDBScanStateInit_cursor rel w q
  have reaches : Cursor.Reaches (rel.source w) (noDBScanStateInit rel w q).1.eol (fun _ => True) true
      ((noDBScanStateInit rel w q).2.cursor (noDBScanStateInit rel w q).1) := by
    rw [start]
    exact .start first
  have source : rel.source (noDBScanStateInit rel w q).1 = rel.source w := rfl
  exact runRows_cursor node source reaches n goesOn

end

theorem startAndRun_cursor_threeRows :
    ∃ atStart, Cursor.Reaches (threeRows.source .initial) (noDBScanStateInit threeRows .initial (selectColumn 0 0)).1.eol
      (fun _ => True) atStart ((startAndRun threeRows 2 .initial (selectColumn 0 0)).scan.cursor
        (startAndRun threeRows 2 .initial (selectColumn 0 0)).world) :=
  startAndRun_cursor _ _ _ _ (by decide +kernel)

end PostgresRaw
