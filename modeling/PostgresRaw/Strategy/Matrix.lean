import Mathlib.Data.List.Sort
import PostgresRaw.Cache

/-!
# Planning which cache serves which rows

`BuildMatrix` of `NoDBScanStrategy.c`.  The rows at which caches begin or end cut the file into
nodes; for each node and each column of the query the matrix says whether the column is read
from a cache (`hit`), will be written to one (`add`), or neither (`miss`), separately for data
and for positions.

`NoDBCaches` is a list with the newest cache first.  The model keeps the caches in the order of
creation, and a pointer to a cache is its index; the helpers of the source that collect caches
by prepending to a list walk `NoDBCaches` from the newest, so their results are in the order of
creation.  Caches of other relations are left out: every loop of the source skips them.

Planning has side effects: it registers columns in caches, creates caches and allocates
buffers, for all nodes at once and before a single row is read.
-/

namespace PostgresRaw

/-- `Type_t` with the cache pointer that goes with it. -/
inductive Mark where
  | unknown
  | hit (cache : Nat)
  | miss
  | add (cache : Nat)
deriving DecidableEq, Repr

def Mark.isHit : Mark → Bool
  | .hit _ => true
  | _ => false

def Mark.isAdd : Mark → Bool
  | .add _ => true
  | _ => false

/-- `closestPMCache`, `closestColumn` and `distance` of a node. -/
structure Closest where
  cache : Nat
  column : Nat
  distance : Int
deriving DecidableEq, Repr

/-- `Node_t`; `mark .data` is `dataHit` with `dataCache`, `mark .positions` is `pmHit` with
`pmCache` (or, for a hit, `closestPMCache`). -/
structure Node where
  mark : CacheType → Mark
  closest : Option Closest

/-- The matrix of nodes, by node index and column. -/
abbrev Matrix := Nat → Nat → Node

/-- The matrix at the start of `BuildMatrix`. -/
def Matrix.initial : Matrix := fun _ _ => ⟨fun _ => .unknown, none⟩

/-- Set the marks of the columns `cols` in the nodes `lo .. lo + n`. -/
def Matrix.setMark (m : Matrix) (t : CacheType) (lo n : Nat) (cols : List Nat) (v : Mark) :
    Matrix :=
  fun i c =>
    if lo ≤ i ∧ i ≤ lo + n ∧ c ∈ cols then { m i c with mark := Function.update (m i c).mark t v }
    else m i c

/-- Set the closest position of the columns `cols` in the node `i`. -/
def Matrix.setClosest (m : Matrix) (i : Nat) (cols : List Nat) (closest : Nat → Closest) : Matrix :=
  fun i' c => if i' = i ∧ c ∈ cols then { m i' c with closest := some (closest c) } else m i' c

/-- `NoDBColListArenaAddUnique`. -/
def addUnique (l : List Nat) (c : Nat) : List Nat := if c ∈ l then l else c :: l

/-- `NoDBQueryInfo_t`, with the column vectors that its bitmaps are made from. -/
structure QueryInfo where
  limit : Nat
  filter : List Nat
  rest : List Nat
  writeData : List Nat
  writePositions : List Nat

/-- `queryInfo.readCols`. -/
def QueryInfo.readCols (q : QueryInfo) : List Nat := (q.filter ++ q.rest).foldl addUnique []

/-- `queryInfo.cols`: all columns of the query, sorted. -/
def QueryInfo.cols (q : QueryInfo) : List Nat :=
  ((q.filter ++ q.rest ++ q.writeData ++ q.writePositions).foldl addUnique []).insertionSort (· ≤ ·)

/-- The columns to write: those set in `writeDataBitmap` or `writePositionsBitmap`. -/
def QueryInfo.write (q : QueryInfo) : CacheType → List Nat
  | .data => q.writeData
  | .positions => q.writePositions

/-- The size of a slot: `sizeof(NoDBDatum_t)` or `sizeof(NoDBPMPair_t)`. -/
def columnSize : CacheType → Nat
  | .data => 16
  | .positions => 4

/-- `NODB_DATA_CACHE_DEFAULT_SIZE` and `NODB_POS_CACHE_DEFAULT_SIZE`. -/
def defaultRowSize : CacheType → Nat
  | .data => 256
  | .positions => 64

/-- `NODB_CACHE_DEFAULT_ROWS`. -/
def defaultRows : Nat := 10000

section

variable {D : Type}

/-! ### Choosing caches -/

/-- The caches with a property, oldest first. -/
def selectCaches (caches : List (Cache D)) (p : Cache D → Bool) : List Nat :=
  (List.range caches.length).filter fun i => caches[i]?.any p

/-- The choice loops of the source: the first candidate with the largest positive score. -/
def bestBy (score : Nat → Nat) (candidates : List Nat) : Option Nat :=
  (candidates.foldl
    (fun (best, bestN) i => if bestN < score i then (some i, score i) else (best, bestN))
    ((none, 0) : Option Nat × Nat)).1

/-- The columns of `cols` that the cache has. -/
def cacheCols (caches : List (Cache D)) (i : Nat) (cols : List Nat) : List Nat :=
  cols.filter fun c => caches[i]?.any (·.hasColumn c)

/-- `GetCachesWithRow`. -/
def getCachesWithRow (caches : List (Cache D)) (t : CacheType) (row : Nat) : List Nat :=
  selectCaches caches fun cache => cache.type = t && cache.hasRow row

/-- `GetBestCacheHit`: the cache with the column that has most columns of the query. -/
def getBestCacheHit (caches : List (Cache D)) (candidates : List Nat) (hitCol : Nat)
    (readCols : List Nat) : Option Nat :=
  bestBy (fun i => if caches[i]?.any (·.hasColumn hitCol) then 1 + (cacheCols caches i readCols).length
    else 0) candidates

/-- `CacheContainsSubset`. -/
def cacheContainsSubset (cache : Cache D) (cols : List Nat) : Bool :=
  cache.cols.all fun c => decide (c ∈ cols)

/-- `CacheStartsBelow`. -/
def cacheStartsBelow (caches : List (Cache D)) (t : CacheType) (cols : List Nat) (row : Nat) : Bool :=
  caches.any fun cache => cache.type = t && row ≤ cache.startRow && cols.any cache.hasColumn

/-- `GetCachesCanGrow`. -/
def getCachesCanGrow (caches : List (Cache D)) (t : CacheType) (col row : Nat) (cols : List Nat) :
    List Nat :=
  if row = 0 then []
  else
    selectCaches caches fun cache =>
      cache.type = t && cache.canGrow row && cache.hasColumn col && cacheContainsSubset cache cols &&
        !cacheStartsBelow caches t cols cache.endRow

/-- `GetBestCacheToGrow`. -/
def getBestCacheToGrow (caches : List (Cache D)) (candidates cols : List Nat) : Option Nat :=
  bestBy (fun i => (cacheCols caches i cols).length) candidates

/-- `GetCachesFreeColumns`. -/
def getCachesFreeColumns (caches : List (Cache D)) (t : CacheType) (limit row size : Nat) :
    List Nat :=
  selectCaches caches fun cache =>
    cache.type = t && cache.startRow = row && size ≤ cache.rowFree &&
      (limit = 0 || cache.endRow ≤ limit)

/-- `GetBestCacheToAddColumn`. -/
def getBestCacheToAddColumn (caches : List (Cache D)) (candidates : List Nat) : Option Nat :=
  bestBy (fun i => caches[i]?.elim 0 (·.rowFree)) candidates

/-! ### Hits -/

/-- The test that both passes make before they handle a cell. -/
def unsettled (q : QueryInfo) (m : Matrix) (t : CacheType) (rowIdx col : Nat) : Bool :=
  (m rowIdx col).mark t = .unknown &&
    (t = .data || !((m rowIdx col).mark .data).isHit || decide (col ∈ q.writePositions))

/-- Mark a hit.  The loop of the source over the following rows has no effect: the list of
columns is used up in its first iteration. -/
def markHit (m : Matrix) (t : CacheType) (rowIdx : Nat) (cols : List Nat) (cache : Nat) : Matrix :=
  let m := m.setMark t rowIdx 0 cols (.hit cache)
  match t with
  | .data => m
  | .positions => m.setClosest rowIdx cols fun c => ⟨cache, c, 0⟩

/-- The first pass on one cell and one type of cache. -/
def hitCell (q : QueryInfo) (caches : List (Cache D)) (row rowIdx col : Nat) (t : CacheType)
    (m : Matrix) : Matrix :=
  if unsettled q m t rowIdx col then
    match getBestCacheHit caches (getCachesWithRow caches t row) col q.readCols with
    | none => m
    | some i => markHit m t rowIdx (col :: cacheCols caches i q.readCols) i
  else m

/-- The first pass: mark cache hits. -/
def markHits (q : QueryInfo) (rows : List Nat) (caches : List (Cache D)) : Matrix :=
  (List.range (rows.length - 1)).foldl
    (fun m rowIdx =>
      q.cols.foldl
        (fun m col =>
          hitCell q caches (rows.getD rowIdx 0) rowIdx col .positions
            (hitCell q caches (rows.getD rowIdx 0) rowIdx col .data m))
        m)
    Matrix.initial

/-! ### Misses -/

/-- The state of the second pass. -/
structure Planning (D : Type) where
  caches : List (Cache D)
  matrix : Matrix

/-- `growDataCandidates` or `growPMCandidates` of a node: the write set minus the hits. -/
def growCandidates (q : QueryInfo) (m : Matrix) (t : CacheType) (rowIdx : Nat) : List Nat :=
  q.cols.filter fun c => decide (c ∈ q.write t) && !((m rowIdx c).mark t).isHit

/-- Grow a cache down to the node and mark its columns. -/
def growCache (p : Planning D) (t : CacheType) (row rowIdx : Nat) (candidates : List Nat)
    (i : Nat) : Planning D where
  caches := p.caches.modify i fun cache => noDBCacheGrow cache row
  matrix := p.matrix.setMark t rowIdx 0 (cacheCols p.caches i candidates) (.add i)

/-- Add a column to a cache and mark it in the node and in the nodes below that the cache has
rows of. -/
def addColumn (p : Planning D) (t : CacheType) (rows : List Nat) (rowIdx col i : Nat) :
    Planning D where
  caches := p.caches.modify i fun cache => (noDBCacheAddColumn cache col (columnSize t)).2
  matrix :=
    let below := (rows.drop (rowIdx + 1)).takeWhile fun r => p.caches[i]?.any (·.hasRow r)
    p.matrix.setMark t rowIdx below.length [col] (.add i)

/-- Create a cache for a column. -/
def newCache (p : Planning D) (t : CacheType) (row rowIdx col : Nat) : Planning D where
  caches := p.caches ++
    [(noDBCacheAddColumn (noDBCacheInit t row (defaultRowSize t)) col (columnSize t)).2]
  matrix := p.matrix.setMark t rowIdx 0 [col] (.add p.caches.length)

/-- The second pass on one cell and one type of cache. -/
def missCell (q : QueryInfo) (rows : List Nat) (rowIdx : Nat) (candidates : List Nat) (col : Nat)
    (t : CacheType) (p : Planning D) : Planning D :=
  let row := rows.getD rowIdx 0
  if unsettled q p.matrix t rowIdx col then
    if col ∈ q.write t then
      match getBestCacheToGrow p.caches (getCachesCanGrow p.caches t col row candidates) candidates with
      | some i => growCache p t row rowIdx candidates i
      | none =>
        match getBestCacheToAddColumn p.caches
            (getCachesFreeColumns p.caches t q.limit row (columnSize t)) with
        | some i => addColumn p t rows rowIdx col i
        | none => newCache p t row rowIdx col
    else { p with matrix := p.matrix.setMark t rowIdx 0 [col] .miss }
  else p

/-- The second pass on one node. -/
def missRow (q : QueryInfo) (rows : List Nat) (p : Planning D) (rowIdx : Nat) : Planning D :=
  let dataCandidates := growCandidates q p.matrix .data rowIdx
  let pmCandidates := growCandidates q p.matrix .positions rowIdx
  q.cols.foldl
    (fun p col =>
      missCell q rows rowIdx pmCandidates col .positions
        (missCell q rows rowIdx dataCandidates col .data p))
    p

/-- The second pass: handle cache misses. -/
def handleMisses (q : QueryInfo) (rows : List Nat) (p : Planning D) : Planning D :=
  (List.range (rows.length - 1)).foldl (missRow q rows) p

/-! ### The closest known position -/

/-- The columns that the positional maps hold for a row, apart from those about to be written;
newest cache first. -/
def knownPositions (caches : List (Cache D)) (row : Nat) (excludeCols : List Nat) :
    List (Nat × Nat) :=
  (getCachesWithRow caches .positions row).reverse.flatMap fun i =>
    (((caches[i]?.elim [] (·.cols)).filter fun c => decide (c ∉ excludeCols)).map fun c => (i, c))

/-- The first known position at the smallest distance. -/
def closestPosition (known : List (Nat × Nat)) (col : Nat) : Option Closest :=
  known.foldl
    (fun best (i, c) =>
      let d := (col : Int) - c
      match best with
      | none => some ⟨i, c, d⟩
      | some b => if d.natAbs < b.distance.natAbs then some ⟨i, c, d⟩ else some b)
    none

/-- The third pass on one node. -/
def closestRow (q : QueryInfo) (rows : List Nat) (caches : List (Cache D)) (m : Matrix)
    (rowIdx : Nat) : Matrix :=
  let excludeCols := q.cols.filter fun c => ((m rowIdx c).mark .positions).isAdd
  let known := knownPositions caches (rows.getD rowIdx 0) excludeCols
  fun i c =>
    if i = rowIdx ∧ c ∈ q.cols ∧ ((m i c).mark .positions).isHit = false then
      match closestPosition known c with
      | none => m i c
      | some closest => { m i c with closest := some closest }
    else m i c

/-- `GrowToLastRow`. -/
def growToLastRow (q : QueryInfo) (m : Matrix) (lastRowIdx lastRow : Nat)
    (caches : List (Cache D)) : List (Cache D) :=
  let grow (caches : List (Cache D)) : Mark → List (Cache D)
    | .add i => caches.modify i fun cache => noDBCacheGrow cache lastRow
    | _ => caches
  q.cols.foldl
    (fun caches c => grow (grow caches ((m lastRowIdx c).mark .data)) ((m lastRowIdx c).mark .positions))
    caches

/-- `BuildMatrix`. -/
def buildMatrix (q : QueryInfo) (rows : List Nat) (caches : List (Cache D)) : Planning D :=
  let p := handleMisses q rows ⟨caches, markHits q rows caches⟩
  let m := (List.range (rows.length - 1)).foldl (closestRow q rows p.caches) p.matrix
  ⟨growToLastRow q m (rows.length - 2) (rows.getD (rows.length - 1) 0 - 1) p.caches, m⟩

end

end PostgresRaw
