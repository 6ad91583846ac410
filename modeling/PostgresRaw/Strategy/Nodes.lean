import PostgresRaw.Csv.Scanners
import PostgresRaw.Strategy.Matrix

/-!
# From the matrix to strategy nodes

`FillRow`, `BuildStrategy` and the strategy iterator.  A strategy node says, for a range of
rows, which columns to copy from data caches, which positions to copy from positional maps and
how to reach further positions from them, which columns to parse and convert, and which caches
to write.  With filter columns the lists are split into those used before and after the qual.
-/

namespace PostgresRaw

/-- `NoDBColumnsPerCache_t`. -/
structure ColumnsPerCache where
  cache : Nat
  cols : List Nat
deriving DecidableEq, Repr

/-- `AddColToMap`: new keys go to the end of the map, columns to the head of their list. -/
def addColToMap (map : List ColumnsPerCache) (cache col : Nat) : List ColumnsPerCache :=
  match map with
  | [] => [⟨cache, [col]⟩]
  | entry :: rest =>
    if entry.cache = cache then { entry with cols := col :: entry.cols } :: rest
    else entry :: addColToMap rest cache col

/-- `AddUniqueColToMap`, and whether the column was new. -/
def addUniqueColToMap (map : List ColumnsPerCache) (cache col : Nat) :
    Bool × List ColumnsPerCache :=
  if map.any fun entry => entry.cache = cache && decide (col ∈ entry.cols) then (false, map)
  else (true, addColToMap map cache col)

/-- `FillRowReply_t`; `nreadViaPM` is the length of `readViaPM`. -/
structure FillRowReply where
  mapDataHit : List ColumnsPerCache := []
  mapDataAddByValue : List ColumnsPerCache := []
  mapDataAddByRef : List ColumnsPerCache := []
  convert : List Nat := []
  collectFromFile : List Nat := []
  mapPositionsAdd : List ColumnsPerCache := []
  mapReadFromPM : List ColumnsPerCache := []
  readViaPM : List ReadViaPM := []

/-- The columns that a call of `FillRow` reads and writes: the three bitmaps. -/
structure RowRequest where
  read : List Nat
  writeData : List Nat
  writePositions : List Nat

/-- The first branch of the column loops of `FillRow`: a column to read is copied from the data
cache, or converted. -/
def fillRead (request : RowRequest) (node : Nat → Node) (acc : FillRowReply × List Nat) (col : Nat) :
    FillRowReply × List Nat :=
  if col ∈ request.read then
    match (node col).mark .data with
    | .hit i => ({ acc.1 with mapDataHit := addColToMap acc.1.mapDataHit i col }, acc.2)
    | _ => ({ acc.1 with convert := addUnique acc.1.convert col }, addUnique acc.2 col)
  else acc

/-- The second branch: a column to add to a data cache is converted. -/
def fillWriteData (byValue : Nat → Bool) (request : RowRequest) (node : Nat → Node)
    (acc : FillRowReply × List Nat) (col : Nat) : FillRowReply × List Nat :=
  match decide (col ∈ request.writeData), (node col).mark .data with
  | true, .add i =>
    let r := { acc.1 with convert := addUnique acc.1.convert col }
    (if byValue col then { r with mapDataAddByValue := addColToMap r.mapDataAddByValue i col }
      else { r with mapDataAddByRef := addColToMap r.mapDataAddByRef i col },
     addUnique acc.2 col)
  | _, _ => acc

/-- The third branch: a column to add to a positional map. -/
def fillWritePositions (request : RowRequest) (node : Nat → Node) (acc : FillRowReply × List Nat)
    (col : Nat) : FillRowReply × List Nat :=
  match decide (col ∈ request.writePositions), (node col).mark .positions with
  | true, .add i =>
    ({ acc.1 with mapPositionsAdd := addColToMap acc.1.mapPositionsAdd i col }, addUnique acc.2 col)
  | _, _ => acc

/-- One iteration of the column loops of `FillRow`.  The two loops of the source differ in
the list that collects the columns whose position is needed: `collectFromFile` without
positional maps, `collectFromPMIdx` with them. -/
def fillColumn (byValue : Nat → Bool) (request : RowRequest) (node : Nat → Node)
    (acc : FillRowReply × List Nat) (col : Nat) : FillRowReply × List Nat :=
  let acc := fillRead request node acc col
  let acc := fillWriteData byValue request node acc col
  fillWritePositions request node acc col

/-- `ColDistance_t`; `backwardDistance` is negative in the source. -/
structure ColDistance where
  forward : Nat := 0
  backward : Nat := 0
  cache : Option Nat := none

/-- Step 1 of `FillRow` for one column: widen the range around its closest column.  If a node
has a closest position for any of its columns, it has one for all of them. -/
def widen (node : Nat → Node) (distances : Nat → ColDistance) (col : Nat) : Nat → ColDistance :=
  match (node col).closest with
  | none => distances
  | some closest =>
    let d := distances closest.column
    let d :=
      if 0 ≤ closest.distance then
        if d.cache = none ∨ d.forward < closest.distance.toNat then
          { d with cache := some closest.cache, forward := closest.distance.toNat }
        else d
      else if d.backward < closest.distance.natAbs then
        { d with cache := some closest.cache, backward := closest.distance.natAbs }
      else d
    Function.update distances closest.column d

/-- Step 2 of `FillRow` for one column: read the anchor, unless it is read already. -/
def readAnchor (node : Nat → Node) (distances : Nat → ColDistance) (r : FillRowReply) (col : Nat) :
    FillRowReply :=
  match (node col).closest with
  | none => r
  | some closest =>
    match distances closest.column with
    | ⟨forward, backward, some cache⟩ =>
      match addUniqueColToMap r.mapReadFromPM cache closest.column with
      | (true, map) =>
        { r with
          mapReadFromPM := map
          readViaPM := r.readViaPM ++ [⟨closest.column, forward, backward⟩] }
      | (false, _) => r
    | _ => r

/-- `FillRow`. -/
def fillRow (byValue : Nat → Bool) (cols : List Nat) (request : RowRequest) (node : Nat → Node) :
    FillRowReply :=
  let pmAvailable := cols.any fun c => (node c).closest.isSome
  let (r, collect) := cols.foldl (fillColumn byValue request node) ({}, [])
  if pmAvailable then
    let distances := collect.foldl (widen node) fun _ => {}
    collect.foldl (readAnchor node distances) r
  else { r with collectFromFile := collect }

/-- `NoDBScanStrategy_t`. -/
structure Strategy where
  startRow : Nat
  nrows : Nat
  readPreFilterWithCache : List ColumnsPerCache := []
  readPreFilterWithPM : List ColumnsPerCache := []
  readPreFilterViaPM : List ReadViaPM := []
  readPreFilterWithFile : List Nat := []
  convertPreFilter : List Nat := []
  readPostFilterWithCache : List ColumnsPerCache := []
  readPostFilterWithPM : List ColumnsPerCache := []
  readPostFilterViaPM : List ReadViaPM := []
  readPostFilterWithFile : List Nat := []
  convertPostFilter : List Nat := []
  writeToCacheByValue : List ColumnsPerCache := []
  writeToCacheByRef : List ColumnsPerCache := []
  writeToPM : List ColumnsPerCache := []
deriving Inhabited

/-- The strategy node that `BuildStrategy` makes of one row of the matrix. -/
def strategyNode (byValue : Nat → Bool) (q : QueryInfo) (startRow nrows : Nat)
    (node : Nat → Node) : Strategy :=
  -- `NoDBBitmapIsAllClear(readFilterBitmap)`: there are no pre-filters in the request.
  if q.filter = [] then
    let r := fillRow byValue q.cols ⟨q.rest, q.writeData, q.writePositions⟩ node
    { startRow, nrows
      readPostFilterWithCache := r.mapDataHit
      readPostFilterWithFile := r.collectFromFile
      convertPostFilter := r.convert
      writeToCacheByValue := r.mapDataAddByValue
      writeToCacheByRef := r.mapDataAddByRef
      writeToPM := r.mapPositionsAdd
      readPostFilterWithPM := r.mapReadFromPM
      readPostFilterViaPM := r.readViaPM }
  else
    let r := fillRow byValue q.cols ⟨q.filter, q.writeData, q.writePositions⟩ node
    let readRest := q.rest.filter fun c => decide (c ∉ q.filter) && decide (c ∉ r.convert)
    let r' := fillRow byValue q.cols ⟨readRest, [], []⟩ node
    { startRow, nrows
      readPreFilterWithCache := r.mapDataHit
      readPreFilterWithFile := r.collectFromFile
      convertPreFilter := r.convert
      writeToCacheByValue := r.mapDataAddByValue
      writeToCacheByRef := r.mapDataAddByRef
      writeToPM := r.mapPositionsAdd
      readPreFilterWithPM := r.mapReadFromPM
      readPreFilterViaPM := r.readViaPM
      readPostFilterWithCache := r'.mapDataHit
      readPostFilterWithFile := r'.collectFromFile
      convertPostFilter := r'.convert
      readPostFilterWithPM := r'.mapReadFromPM
      readPostFilterViaPM := r'.readViaPM }

@[simp] theorem strategyNode_startRow (byValue : Nat → Bool) (q : QueryInfo) (startRow nrows : Nat)
    (node : Nat → Node) : (strategyNode byValue q startRow nrows node).startRow = startRow := by
  unfold strategyNode
  split <;> rfl

@[simp] theorem strategyNode_nrows (byValue : Nat → Bool) (q : QueryInfo) (startRow nrows : Nat)
    (node : Nat → Node) : (strategyNode byValue q startRow nrows node).nrows = nrows := by
  unfold strategyNode
  split <;> rfl

/-- `NoDBScanStrategyIterator_t`; `len` is the length of `strategy`. -/
structure StrategyIterator where
  queryInfo : QueryInfo
  strategy : List Strategy
  cur : Nat

section

variable {D : Type}

/-- `BuildStrategy` for the rows `rows`. -/
def buildStrategy (byValue : Nat → Bool) (q : QueryInfo) (rows : List Nat)
    (caches : List (Cache D)) : List Strategy × List (Cache D) :=
  let p := buildMatrix q rows caches
  ((List.range (rows.length - 1)).map fun rowIdx =>
      strategyNode byValue q (rows.getD rowIdx 0)
        (rows.getD (rowIdx + 1) 0 - rows.getD rowIdx 0) (p.matrix rowIdx),
    p.caches)

/-- `NoDBRowListArenaAddSortUnique`. -/
def addSortUnique (row : Nat) : List Nat → List Nat
  | [] => [row]
  | r :: rest =>
    if row < r then row :: r :: rest else if row = r then r :: rest else r :: addSortUnique row rest

/-- `GetInterestingRows`: where caches in use begin or end, and row 0; empty if there are none. -/
def getInterestingRows (caches : List (Cache D)) : List Nat :=
  let rows := caches.reverse.foldl
    (fun rows cache =>
      if 0 < cache.usedRows then addSortUnique cache.endRow (addSortUnique cache.startRow rows)
      else rows)
    []
  if rows = [] then [] else addSortUnique 0 rows

/-- `NoDBScanStrategyIterator`. -/
def noDBScanStrategyIterator (byValue : Nat → Bool) (q : QueryInfo) (caches : List (Cache D)) :
    StrategyIterator × List (Cache D) :=
  match getInterestingRows caches with
  | [] => (⟨q, [], 0⟩, caches)
  | rows =>
    let (strategy, caches) := buildStrategy byValue q rows caches
    (⟨q, strategy, 0⟩, caches)

/-- `NoDBScanStrategyIteratorNext`. -/
def noDBScanStrategyIteratorNext (it : StrategyIterator) : StrategyIterator :=
  { it with cur := it.cur + 1 }

/-- The first row of the unknown area behind the nodes of the iterator. -/
def StrategyIterator.nextRow (it : StrategyIterator) : Nat :=
  it.strategy.getLast?.elim 0 fun node => node.startRow + node.nrows

/-- The node that `it->strategy[it->cur]` is. -/
def StrategyIterator.current (it : StrategyIterator) : Strategy := it.strategy.getD it.cur default

/-- `NoDBScanStrategyIteratorGet`: behind the last node a new one is planned.  The node that is
returned is `current` of the new iterator. -/
def noDBScanStrategyIteratorGet (byValue : Nat → Bool) (it : StrategyIterator)
    (caches : List (Cache D)) : StrategyIterator × List (Cache D) :=
  if it.cur = it.strategy.length then
    let row := it.nextRow
    let (strategy, caches) := buildStrategy byValue it.queryInfo [row, row + defaultRows] caches
    (⟨it.queryInfo, strategy, 0⟩, caches)
  else (it, caches)

end

end PostgresRaw
