import PostgresRaw.Scan.State

/-!
# Executing a strategy

The four executor functions of `NoDBExecutor.c`, which produce one row each, and the strategy
updates of `NoDBScan.c` between them.

A step ends with a tuple, with the end of the data, with an error (`ereport(ERROR)`, which
unwinds out of the executor and leaves the world as it is), or with a `fault`: an access outside
the memory that has been allocated, after which nothing can be said.
-/

namespace PostgresRaw

/-- The errors that a step can raise. -/
inductive ScanError where
  | read (e : ReadError)
  | csv (e : CsvError)
  | rejectedInput
deriving DecidableEq, Repr

/-- Why a step produces no values. -/
inductive Failure where
  | error (e : ScanError)
  | fault
deriving DecidableEq, Repr

/-- The lists of a node that are used before, or after, the qual. -/
structure Access where
  withCache : List ColumnsPerCache
  withPM : List ColumnsPerCache
  viaPM : List ReadViaPM
  withFile : List Nat
  convert : List Nat

def Strategy.preFilter (n : Strategy) : Access where
  withCache := n.readPreFilterWithCache
  withPM := n.readPreFilterWithPM
  viaPM := n.readPreFilterViaPM
  withFile := n.readPreFilterWithFile
  convert := n.convertPreFilter

def Strategy.postFilter (n : Strategy) : Access where
  withCache := n.readPostFilterWithCache
  withPM := n.readPostFilterWithPM
  viaPM := n.readPostFilterViaPM
  withFile := n.readPostFilterWithFile
  convert := n.convertPostFilter

/-- What the executor functions work on: `values` with `nulls`, `attributes` and `line_buf`. -/
structure RowState (D : Type) where
  values : Nat → Value D
  attributes : Nat → PMPair
  lineBuf : List Byte

section

variable {D : Type}

/-! ### Reading the columns of a row -/

/-- The loop over `readFilterWithCache`. -/
def readCaches (caches : List (Cache D)) (row : Nat) (entries : List ColumnsPerCache)
    (values : Nat → Value D) : Option (Nat → Value D) :=
  entries.foldlM
    (fun values entry => do
      noDBCacheGetDatumVector (← caches[entry.cache]?) values entry.cols row)
    values

/-- The loop over `readFilterWithPM`. -/
def readPositions (rel : Relation D) (caches : List (Cache D)) (row : Nat)
    (entries : List ColumnsPerCache) (attributes : Nat → PMPair) : Option (Nat → PMPair) :=
  entries.foldlM
    (fun attributes entry => do
      noDBCacheGetPMPairVector rel.junkSlot (← caches[entry.cache]?) attributes entry.cols row)
    attributes

/-- Parse the line and convert the columns `convert`. -/
def parseLine (rel : Relation D) (lastfield : Nat) (convert : List Nat) (r : RowState D) :
    Except Failure (RowState D) :=
  match noDBCopyReadAttributesCSV rel.fmt rel.natts lastfield r.lineBuf r.attributes with
  | .error e => .error (.error (.csv e))
  | .ok fields =>
    match noDBGetValues rel.input fields.fieldStrings convert r.values with
    | none => .error (.error .rejectedInput)
    | some values => .ok { r with values := values, attributes := fields.attributes }

/-- Convert the columns `convert` at their known positions. -/
def convertPositions (rel : Relation D) (convert : List Nat) (r : RowState D) :
    Except Failure (RowState D) :=
  match noDBGetValuesWithPM rel.input r.attributes convert r.lineBuf r.values with
  | none => .error (.error .rejectedInput)
  | some (lineBuf, values) => .ok { r with values := values, lineBuf := lineBuf }

/-- The part of an executor function that reads columns: from data caches, from positional maps,
from there along the line, and from the file.  `fileConvert` are the columns that are converted
if the line is parsed. -/
def fetch (rel : Relation D) (caches : List (Cache D)) (lastfield row : Nat) (a : Access)
    (fileConvert : List Nat) (r : RowState D) : Except Failure (RowState D) :=
  match readCaches caches row a.withCache r.values,
      readPositions rel caches row a.withPM r.attributes with
  | some values, some attributes =>
    let attributes := a.viaPM.foldl
      (fun attributes via => noDBGetNextTupleViaPM rel.fmt r.lineBuf via attributes) attributes
    if a.withFile ≠ [] then
      parseLine rel lastfield fileConvert { r with values := values, attributes := attributes }
    else convertPositions rel a.convert { r with values := values, attributes := attributes }
  | _, _ => .error .fault

/-! ### Writing the caches -/

/-- A loop over a list of caches to write. -/
def writeEntries (set : Cache D → List Nat → Option (Cache D)) (entries : List ColumnsPerCache)
    (caches : List (Cache D)) : Option (List (Cache D)) :=
  entries.foldlM
    (fun caches entry => do
      let cache ← set (← caches[entry.cache]?) entry.cols
      pure (caches.set entry.cache cache))
    caches

/-- The loops that cache data and positions. -/
def writeCaches (n : Strategy) (row : Nat) (values : Nat → Value D) (attributes : Nat → PMPair)
    (caches : List (Cache D)) : Option (List (Cache D)) := do
  let caches ← writeEntries (fun cache cols => noDBCacheSetDatumVector cache values cols row)
    n.writeToCacheByValue caches
  let caches ← writeEntries (fun cache cols => noDBCacheSetDatumRefVector cache values cols row)
    n.writeToCacheByRef caches
  writeEntries (fun cache cols => noDBCacheSetPMPairVector cache attributes cols row) n.writeToPM
    caches

/-! ### Updating the strategy -/

/-- `NoDBFinalizeStrategy`: the caches written by the current node now claim all rows up to the
current one. -/
def noDBFinalizeStrategy (n : Strategy) (processed : Nat) (caches : List (Cache D)) :
    List (Cache D) :=
  (n.writeToCacheByRef ++ n.writeToCacheByValue ++ n.writeToPM).foldl
    (fun caches entry =>
      caches.modify entry.cache fun cache =>
        noDBCacheSetUsedRows cache (processed - cache.startRow))
    caches

/-- `NoDBComputeBytesToSeek`. -/
def noDBComputeBytesToSeek (eol : EolCache) (firstTuple lastTuple : Nat) : Int :=
  ((List.range' firstTuple (lastTuple - firstTuple)).map eol.lengths).sum

/-- `fseek(.., bytes, SEEK_CUR)`, which fails before the start of the file. -/
def fseekCur (pos : Nat) (bytes : Int) : Nat :=
  if 0 ≤ (pos : Int) + bytes then ((pos : Int) + bytes).toNat else pos

/-- Move the file position to the row `processed` if rows have been served from caches only.
The `Assert(false)` of the other case is not compiled in. -/
def seekToRow (headerLine : Bool) (processed : Nat) (s : RawInput) : RawInput :=
  if s.tupleRead ≠ processed ∧ processed ≤ s.eolCache.usedRows then
    let bytes := noDBComputeBytesToSeek s.eolCache s.tupleRead processed
    let bytes :=
      if headerLine ∧ s.readHeader ∨ headerLine ∧ 0 < s.eolCache.headerSize then
        bytes + s.eolCache.headerSize
      else bytes
    { s with pos := fseekCur s.pos bytes, rawBuf := [], tupleStored := 0, tupleRead := processed }
  else s

/-- The EOL cache of the world, which a scan has set up. -/
def World.eol (w : World D) : EolCache := w.eolCache.getD (noDBInitEOLCache none 0)

/-- The reading state of a scan with the EOL cache of the world. -/
def Scan.reader (s : Scan D) (w : World D) : RawInput := { s.input with eolCache := w.eol }

/-- Store a reading state. -/
def storeReader (w : World D) (s : Scan D) (input : RawInput) : World D × Scan D :=
  ({ w with eolCache := some input.eolCache }, { s with input := input })

/-- The end of `NoDBUpdateStrategy` and of `NoDBScanStateReInit`: the EOL cache is extended if
the new node needs it. -/
def extendEol (eol : EolCache) (processed nrows : Nat) : EolCache :=
  -- The difference is unsigned: it is not small if more rows are used than allocated.
  if eol.usedRows ≤ eol.maxRows ∧ eol.maxRows - eol.usedRows < nrows then
    eol.setMaxRows (processed + nrows)
  else eol

@[simp] theorem extendEol_usedRows (eol : EolCache) (processed nrows : Nat) :
    (extendEol eol processed nrows).usedRows = eol.usedRows := by
  unfold extendEol
  split <;> rfl

/-- The part of `NoDBUpdateStrategy` that goes on to the next node. -/
def nextStrategy (rel : Relation D) (w : World D) (s : Scan D) : World D × Scan D :=
  let (it, caches) :=
    noDBScanStrategyIteratorGet rel.byValue (noDBScanStrategyIteratorNext s.plan.iterator) w.caches
  let n := it.current
  ({ w with caches := caches, eolCache := some (extendEol w.eol s.processed n.nrows) },
    { s with
      execPlan := noDBGetExecPlan s.query n
      plan := { s.plan with
        iterator := it
        nRows := n.nrows
        nMin := rowsAhead n s.plan.nEOL
        tuplesToRead := rowsAhead n s.plan.nEOL } })

/-- `NoDBUpdateStrategy`; `none` if the search for the end of the header leaves its buffer. -/
def noDBUpdateStrategy (rel : Relation D) (w : World D) (s : Scan D) :
    Option (World D × Scan D) :=
  let nEOL := if 0 < s.plan.nEOL then s.plan.nEOL - s.plan.tuplesToRead else s.plan.nEOL
  let nRows := if 0 < s.plan.nRows then s.plan.nRows - s.plan.tuplesToRead else s.plan.nRows
  let readFile := if nEOL = 0 then noDBGetReadFile nEOL else s.plan.readFile
  let s := { s with plan := { s.plan with nEOL := nEOL, nRows := nRows, readFile := readFile } }
  if nRows = 0 then
    let w := { w with caches := noDBFinalizeStrategy s.plan.curStrategy s.processed w.caches }
    let input := seekToRow rel.headerLine s.processed (s.reader w)
    if input.eolCache.usedRows ≤ input.tupleRead then
      match noDBTryReFillRawBuf (rel.source w) input with
      | none => none
      | some (true, input) =>
        let (w, s) := storeReader w s input
        some (w, { s with
          execPlan := .plan
          plan := { s.plan with readFile := noDBGetReadFile s.plan.nEOL } })
      | some (false, input) =>
        let (w, s) := storeReader w s input
        some (nextStrategy rel w s)
    else
      let (w, s) := storeReader w s input
      some (nextStrategy rel w s)
  else some (w, { s with plan := { s.plan with nMin := nRows, tuplesToRead := nRows } })

/-! ### The executor functions -/

/-- What one call of an executor function gives: the tuple with the `pass` flag, the end of the
data, an error, or an access outside the allocated memory. -/
inductive StepResult (D : Type) where
  | tuple (values : Nat → Value D) (pass : Bool)
  | done
  | error (e : ScanError)
  | fault

instance decidableEqDone : (result : Option (StepResult D)) → Decidable (result = some .done)
  | some .done => isTrue rfl
  | none => isFalse nofun
  | some (.tuple ..) => isFalse nofun
  | some (.error _) => isFalse nofun
  | some .fault => isFalse nofun

instance decidableEqError (e : ScanError) : (result : Option (StepResult D)) → Decidable (result = some (.error e))
  | some (.error e') => decidable_of_iff (e' = e) ⟨fun same => same ▸ rfl, fun same => StepResult.error.inj (Option.some.inj same)⟩
  | none => isFalse nofun
  | some (.tuple ..) => isFalse nofun
  | some .done => isFalse nofun
  | some .fault => isFalse nofun

/-- The end of every executor function: count the row and update the strategy if it was the
last one ahead. -/
def advance (rel : Relation D) (w : World D) (s : Scan D) (pass : Bool) :
    StepResult D × World D × Scan D :=
  let s := { s with processed := s.processed + 1, plan := { s.plan with nMin := s.plan.nMin - 1 } }
  if s.plan.nMin = 0 then
    match noDBUpdateStrategy rel w s with
    | none => (.fault, w, s)
    | some (w, s) => (.tuple s.values pass, w, s)
  else (.tuple s.values pass, w, s)

/-- `plan->readFile(cstate)`. -/
def readLine (rel : Relation D) (w : World D) (s : Scan D) : ReadResult × World D × Scan D :=
  let (result, input) :=
    match s.plan.readFile with
    | .fromFile => noDBGetNextTupleFromFile (rel.source w) s.processed (s.reader w)
    | .fromFileWithEOL => noDBGetNextTupleFromFileWithEOL (rel.source w) s.processed (s.reader w)
  (result, storeReader w s input)

/-- The values and positions of the scan, and the line just read. -/
def Scan.rowState (s : Scan D) : RowState D := ⟨s.values, s.attributes, s.input.lineBuf⟩

/-- Put the values and positions of a row back. -/
def Scan.setRowState (s : Scan D) (r : RowState D) : Scan D :=
  { s with
    values := r.values
    attributes := r.attributes
    input := { s.input with lineBuf := r.lineBuf } }

/-- `ExecQual`; without a qual every row passes. -/
def execQual (q : Query D) (values : Nat → Value D) : Bool := q.qual.elim true fun qual => qual values

/-- Write the caches and count the row. -/
def finishRow (rel : Relation D) (w : World D) (s : Scan D) (pass : Bool) :
    StepResult D × World D × Scan D :=
  match writeCaches s.plan.curStrategy s.processed s.values s.attributes w.caches with
  | none => (.fault, w, s)
  | some caches => advance rel { w with caches := caches } s pass

/-- An error of the line reader as the result of a step. -/
def readFailure : ReadError → StepResult D
  | .undefined => .fault
  | e => .error (.read e)

/-- A failure as the result of a step. -/
def Failure.result : Failure → StepResult D
  | .error e => .error e
  | .fault => .fault

/-- `NoDBExecPlan`. -/
def noDBExecPlan (rel : Relation D) (w : World D) (s : Scan D) :
    StepResult D × World D × Scan D :=
  match readLine rel w s with
  | (.done, w, s) => (.done, w, s)
  | (.error e, w, s) => (readFailure e, w, s)
  | (.line, w, s) =>
    let a := s.plan.curStrategy.postFilter
    match fetch rel w.caches s.lastfield s.processed a a.convert s.rowState with
    | .error e => (e.result, w, s)
    | .ok r => finishRow rel w (s.setRowState r) true

/-- `NoDBExecPlanWithFilters`. -/
def noDBExecPlanWithFilters (rel : Relation D) (w : World D) (s : Scan D) :
    StepResult D × World D × Scan D :=
  match readLine rel w s with
  | (.done, w, s) => (.done, w, s)
  | (.error e, w, s) => (readFailure e, w, s)
  | (.line, w, s) =>
    let pre := s.plan.curStrategy.preFilter
    match fetch rel w.caches s.lastfield s.processed pre pre.convert s.rowState with
    | .error e => (e.result, w, s)
    | .ok r =>
      if execQual s.query r.values then
        let post := s.plan.curStrategy.postFilter
        match fetch rel w.caches s.lastfield s.processed post post.withFile r with
        | .error e => (e.result, w, s)
        | .ok r => finishRow rel w (s.setRowState r) true
      else finishRow rel w (s.setRowState r) false

/-- `NoDBExecPlanCacheOnly`. -/
def noDBExecPlanCacheOnly (rel : Relation D) (w : World D) (s : Scan D) :
    StepResult D × World D × Scan D :=
  match readCaches w.caches s.processed s.plan.curStrategy.readPostFilterWithCache s.values with
  | none => (.fault, w, s)
  | some values => advance rel w { s with values := values } true

/-- `NoDBExecPlanWithFiltersCacheOnly`. -/
def noDBExecPlanWithFiltersCacheOnly (rel : Relation D) (w : World D) (s : Scan D) :
    StepResult D × World D × Scan D :=
  match readCaches w.caches s.processed s.plan.curStrategy.readPreFilterWithCache s.values with
  | none => (.fault, w, s)
  | some values =>
    if execQual s.query values then
      match readCaches w.caches s.processed s.plan.curStrategy.readPostFilterWithCache values with
      | none => (.fault, w, s)
      | some values => advance rel w { s with values := values } true
    else advance rel w { s with values := values } false

/-- `cstate->execNoDBPlan(cstate, &pass)`. -/
def execNoDBPlan (rel : Relation D) (w : World D) (s : Scan D) : StepResult D × World D × Scan D :=
  match s.execPlan with
  | .plan => noDBExecPlan rel w s
  | .withFilters => noDBExecPlanWithFilters rel w s
  | .cacheOnly => noDBExecPlanCacheOnly rel w s
  | .withFiltersCacheOnly => noDBExecPlanWithFiltersCacheOnly rel w s

end

end PostgresRaw
