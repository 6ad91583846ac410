import PostgresRaw.Reader.LineText
import PostgresRaw.Strategy.Nodes

/-!
# The state of a scan

A scan (`NoDBScanState_t` with its `NoDBPlanState_t`) and what outlives it: the caches of the
relation, its EOL cache, the write locks and the flag that switches the encoding conversion off.
`noDBScanStateInit` starts a scan; it takes the locks of all columns that are free, plans, and
so already changes the caches.
-/

namespace PostgresRaw

/-- What is fixed for a relation: the CSV options, the columns with their type-input functions,
the file, and what uninitialised memory happens to hold. -/
structure Relation (D : Type) where
  fmt : CsvFormat
  natts : Nat
  /-- `attbyval` -/
  byValue : Nat → Bool
  input : InputFunctions D
  file : List Byte
  headerLine : Bool
  encoding : Encoding
  needTranscoding : Bool
  /-- without transcoding the file is in the encoding of the database, never a client-only one -/
  serverEncoding : needTranscoding = false → encoding.embedsAscii = false
  /-- `pg_client_to_server` -/
  clientToServer : List Byte → List Byte
  /-- slots of positional maps that nothing has written -/
  junkSlot : Nat → Nat → PMPair
  /-- the `attributes` array as `palloc` returns it -/
  junkAttribute : Nat → PMPair

/-- What a query asks of its scan: `readAllAtts`, what `getQueryFilterAttributes` finds, the
qual, and `getQueryLimit()`. -/
structure Query (D : Type) where
  readAll : List Nat
  filterAtts : List Nat
  qual : Option ((Nat → Value D) → Bool)
  limit : Nat

section

variable {D : Type}

/-- `readFilterAtts`, which is empty without a qual. -/
def Query.filter (q : Query D) : List Nat := if q.qual.isSome then q.filterAtts else []

/-- `readRestAtts`. -/
def Query.rest (q : Query D) : List Nat :=
  if q.qual.isSome then q.readAll.filter (fun c => decide (c ∉ q.filterAtts)) else q.readAll

/-- What outlives a scan: `NoDBCaches`, the EOL cache (`none` before the first scan), the write
locks, and `disable_need_transcoding`. -/
structure World (D : Type) where
  caches : List (Cache D)
  eolCache : Option EolCache
  cacheLock : Nat → Bool
  pmLock : Nat → Bool
  transcodingDisabled : Bool

/-- Before the first scan of the relation. -/
def World.initial : World D where
  caches := []
  eolCache := none
  cacheLock := fun _ => false
  pmLock := fun _ => false
  transcodingDisabled := false

/-- The function that `plan->readFile` points to. -/
inductive ReadFile where
  | fromFile
  | fromFileWithEOL
deriving DecidableEq, Repr

/-- The function that `cstate->execNoDBPlan` points to. -/
inductive ExecPlan where
  | plan
  | withFilters
  | cacheOnly
  | withFiltersCacheOnly
deriving DecidableEq, Repr

/-- `NoDBPlanState_t`; the counters are `long int`. -/
structure PlanState where
  iterator : StrategyIterator
  readFile : ReadFile
  tuplesToRead : Int
  nRows : Int
  nEOL : Int
  nMin : Int

/-- `plan->curStrategy`. -/
def PlanState.curStrategy (p : PlanState) : Strategy := p.iterator.current

/-- `NoDBScanState_t`.  The EOL cache inside `input` is not used: the functions that read the
file are given the one of the world. -/
structure Scan (D : Type) where
  query : Query D
  lastfield : Nat
  writeDataCols : List Nat
  writePositionCols : List Nat
  plan : PlanState
  execPlan : ExecPlan
  processed : Nat
  values : Nat → Value D
  attributes : Nat → PMPair
  input : RawInput

/-! ### Locks -/

/-- `NoDBAggressiveCachePolicy` and `NoDBAggressivePMPolicy`: the columns without a lock. -/
def unlockedCols (lock : Nat → Bool) (cols : List Nat) : List Nat :=
  cols.filter fun c => !lock c

/-- The locks after the policy has run, which takes those of all columns it returns. -/
def takeLocks (lock : Nat → Bool) (cols : List Nat) : Nat → Bool :=
  fun c => lock c || decide (c ∈ cols)

/-- `NoDBExecReleaseCacheLocks` and `NoDBExecReleasePMLocks`. -/
def releaseLocks (lock : Nat → Bool) (cols : List Nat) : Nat → Bool :=
  fun c => lock c && decide (c ∉ cols)

/-! ### Choosing functions -/

/-- `NoDBReadFromCacheOnly`. -/
def noDBReadFromCacheOnly (n : Strategy) : Bool :=
  (n.readPostFilterWithPM = [] && n.readPreFilterWithPM = [] && n.readPreFilterWithFile = []) &&
    (n.readPostFilterWithPM = [] && n.readPostFilterViaPM.isEmpty && n.readPostFilterWithFile = []) &&
    (n.readPostFilterWithCache ≠ [] || n.readPreFilterWithCache ≠ [])

/-- `NoDBGetExecPlan`. -/
def noDBGetExecPlan (q : Query D) (n : Strategy) : ExecPlan :=
  if noDBReadFromCacheOnly n = false then
    if q.qual.isSome ∧ q.filter ≠ [] then .withFilters else .plan
  else if q.qual.isSome ∧ q.filter ≠ [] then .withFiltersCacheOnly else .cacheOnly

/-- `NoDBGetReadFile`. -/
def noDBGetReadFile (nEOL : Int) : ReadFile := if 0 < nEOL then .fromFileWithEOL else .fromFile

/-- The number of rows until the next call of `NoDBUpdateStrategy`: those of the node, but no
more than the EOL cache knows if the file is read. -/
def rowsAhead (n : Strategy) (nEOL : Int) : Int :=
  if noDBReadFromCacheOnly n = false ∧ 0 < nEOL then
    if nEOL < n.nrows then nEOL else n.nrows
  else n.nrows

/-! ### The EOL cache -/

/-- `NoDBInitEOLCache`. -/
def noDBInitEOLCache (eolCache : Option EolCache) (rows : Nat) : EolCache :=
  match eolCache with
  | some eol => eol
  | none => { lengths := fun _ => 0, usedRows := 0, maxRows := rows, headerSize := 0 }

/-- `NoDBCacheSetMaxRows` on the EOL cache, which is always allocated. -/
def EolCache.setMaxRows (eol : EolCache) (maxRows : Nat) : EolCache :=
  { eol with maxRows := if maxRows ≤ eol.maxRows then eol.maxRows else maxRows }

/-! ### Starting a scan -/

/-- The relation as the reading functions see it: `convertToServerEncoding` does nothing once
the conversion is switched off. -/
def Relation.source (rel : Relation D) (w : World D) : Source where
  file := rel.file
  headerLine := rel.headerLine
  encoding := rel.encoding
  convert := if rel.needTranscoding && !w.transcodingDisabled then rel.clientToServer else id

/-- The column sets of a query and of the locks it got. -/
def Query.info (q : Query D) (writeData writePositions : List Nat) : QueryInfo where
  limit := q.limit
  filter := q.filter
  rest := q.rest
  writeData := writeData
  writePositions := writePositions

/-- `NoDBScanStrategyIterator` followed by `NoDBScanStrategyIteratorGet`. -/
def firstStrategy (byValue : Nat → Bool) (q : QueryInfo) (caches : List (Cache D)) :
    StrategyIterator × List (Cache D) :=
  let (it, caches) := noDBScanStrategyIterator byValue q caches
  noDBScanStrategyIteratorGet byValue it caches

/-- `NoDBPlanStateInit`, given the used rows of the EOL cache. -/
def noDBPlanStateInit (it : StrategyIterator) (eolUsed : Nat) : PlanState where
  iterator := it
  readFile := noDBGetReadFile eolUsed
  nEOL := eolUsed
  nRows := it.current.nrows
  nMin := rowsAhead it.current eolUsed
  tuplesToRead := rowsAhead it.current eolUsed

/-- `NoDBScanStateInit`. -/
def noDBScanStateInit (rel : Relation D) (w : World D) (q : Query D) : World D × Scan D :=
  let writeData := unlockedCols w.cacheLock q.readAll
  let writePositions := unlockedCols w.pmLock q.readAll
  let (it, caches) := firstStrategy rel.byValue (q.info writeData writePositions) w.caches
  let eol := noDBInitEOLCache w.eolCache it.current.nrows
  ({ w with
      caches := caches
      eolCache := some eol
      cacheLock := takeLocks w.cacheLock writeData
      pmLock := takeLocks w.pmLock writePositions },
    { query := q
      lastfield := q.readAll.getLast?.getD 0
      writeDataCols := writeData
      writePositionCols := writePositions
      plan := noDBPlanStateInit it eol.usedRows
      execPlan := noDBGetExecPlan q it.current
      processed := 0
      values := fun _ => .null
      attributes := Function.update rel.junkAttribute 0 { rel.junkAttribute 0 with pointer := 0 }
      input := .fresh eol })

end

end PostgresRaw
