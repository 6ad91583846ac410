import PostgresRaw.Csv.Values

/-!
# Caches

A cache (`NoDBCache.c`) is a buffer of rows of fixed size, from `startRow` on.  A row has one
slot for each registered column; slots are handed out of a partition list and never moved.  A
data cache holds a datum with its null flag in each slot, a positions cache holds a
`(pointer, width)` pair.

A cache *claims* the rows `startRow .. startRow + usedRows - 1` of all its registered columns.
Nothing in this file relates claims to what has been written: `noDBCacheAddColumn` registers a
column for all claimed rows at once, and `noDBCacheSetUsedRows` takes any number.  Whether the
claims are true is a property of the scans.

Slots are addressed by column and row here, not by byte offset; `offset` is kept as the source
computes it.  An access outside the allocated rows is `none`.
-/

namespace PostgresRaw

/-- `NoDBCacheType_t`. -/
inductive CacheType where
  | data
  | positions
deriving DecidableEq, Repr

/-- `NoDBRowPartition_t`: a part of the row layout. -/
structure RowPartition where
  size : Nat
  used : Bool
deriving DecidableEq, Repr

/-- The contents of a slot. -/
inductive Cell (D : Type) where
  | unwritten
  | datum (v : Value D)
  | pair (p : PMPair)
deriving DecidableEq, Repr

/-- A slot read as a datum with its null flag. -/
def Cell.value {D : Type} : Cell D → Value D
  | .datum v => v
  | _ => .garbage

/-- A slot read as a pair; `junk` is what the memory holds if nothing has been stored. -/
def Cell.pairOr {D : Type} (junk : PMPair) : Cell D → PMPair
  | .pair p => p
  | _ => junk

/-- `NoDBCache_t`.  `maxRows` is `nRows`, or `none` while `buf` is `NULL`; `offset` and `map`
are `none` where the source has `-1`. -/
structure Cache (D : Type) where
  type : CacheType
  startRow : Nat
  usedRows : Nat
  maxRows : Option Nat
  rowSize : Nat
  rowFree : Nat
  cols : List Nat
  offset : Nat → Option Nat
  map : Nat → Option Nat
  list : List RowPartition
  cells : Nat → Nat → Cell D

section

variable {D : Type}

/-- `NoDBCacheInit`. -/
def noDBCacheInit (type : CacheType) (startRow rowSize : Nat) : Cache D where
  type := type
  startRow := startRow
  usedRows := 0
  maxRows := none
  rowSize := rowSize
  rowFree := rowSize
  cols := []
  offset := fun _ => none
  map := fun _ => none
  list := [⟨rowSize, false⟩]
  cells := fun _ _ => .unwritten

/-- `FindFirstPartitionFit` and `SplitPartition`: the offset of the first free part that is
large enough, and the list with this part used, split unless it fits exactly. -/
def fitPartition (size : Nat) : List RowPartition → Option (Nat × List RowPartition)
  | [] => none
  | p :: rest =>
    if size ≤ p.size ∧ p.used = false then
      some (0, if p.size = size then ⟨size, true⟩ :: rest
        else ⟨size, true⟩ :: ⟨p.size - size, false⟩ :: rest)
    else (fitPartition size rest).map fun (offset, rest) => (p.size + offset, p :: rest)

/-- `NoDBCacheHasColumn`. -/
def Cache.hasColumn (cache : Cache D) (col : Nat) : Bool := (cache.map col).isSome

/-- `NoDBCacheAddColumn`: whether the column was added, and the cache. -/
def noDBCacheAddColumn (cache : Cache D) (col size : Nat) : Bool × Cache D :=
  if cache.rowFree < size then (false, cache)
  else if cache.hasColumn col then (false, cache)
  else
    match fitPartition size cache.list with
    | none => (false, cache)
    | some (offset, list) =>
      (true, { cache with
        list := list
        cols := cache.cols ++ [col]
        offset := Function.update cache.offset col (some offset)
        map := Function.update cache.map col (some (cache.cols.length + 1))
        rowFree := cache.rowFree - size })

/-- `NoDBCacheHasRow`. -/
def Cache.hasRow (cache : Cache D) (row : Nat) : Bool :=
  cache.startRow ≤ row && row < cache.startRow + cache.usedRows

/-- `NoDBCacheCanGrow`. -/
def Cache.canGrow (cache : Cache D) (row : Nat) : Bool := cache.startRow ≤ row

/-- `NoDBCacheGetBegin(cache) + NoDBCacheGetUsedRows(cache)`. -/
def Cache.endRow (cache : Cache D) : Nat := cache.startRow + cache.usedRows

/-- `NoDBCacheSetMaxRows`: allocate, or extend. -/
def noDBCacheSetMaxRows (cache : Cache D) (maxRows : Nat) : Cache D :=
  { cache with
    maxRows :=
      match cache.maxRows with
      | none => some maxRows
      | some rows => if maxRows ≤ rows then some rows else some maxRows }

/-- `NoDBCacheGrow`. -/
def noDBCacheGrow (cache : Cache D) (row : Nat) : Cache D :=
  noDBCacheSetMaxRows cache (row - cache.startRow + 1)

/-- `NoDBCacheSetUsedRows`. -/
def noDBCacheSetUsedRows (cache : Cache D) (usedRows : Nat) : Cache D :=
  { cache with usedRows := usedRows }

/-- The row lies in the allocated buffer. -/
def Cache.hasBuffer (cache : Cache D) (row : Nat) : Bool :=
  cache.startRow ≤ row && row < cache.startRow + cache.maxRows.getD 0

/-! ### Access to slots -/

/-- Store into the slots of the columns `cols` of a row. -/
def Cache.setCells (cache : Cache D) (cols : List Nat) (row : Nat) (cell : Nat → Cell D) :
    Option (Cache D) :=
  if cols = [] ∨ cache.hasBuffer row then
    some { cache with
      cells := fun c r => if r = row ∧ c ∈ cols then cell c else cache.cells c r }
  else none

/-- `NoDBCacheSetDatumVector`. -/
def noDBCacheSetDatumVector (cache : Cache D) (values : Nat → Value D) (cols : List Nat)
    (row : Nat) : Option (Cache D) :=
  cache.setCells cols row fun c => .datum (values c)

/-- What `NoDBCacheSetDatumRefVector` stores: a copy of what the pointer refers to, or NULL for
a `NULL` pointer. -/
def refDatum : Value D → Value D
  | .garbage => .garbage
  | .null => .null
  | .datum d => .datum d

/-- `NoDBCacheSetDatumRefVector`. -/
def noDBCacheSetDatumRefVector (cache : Cache D) (values : Nat → Value D) (cols : List Nat)
    (row : Nat) : Option (Cache D) :=
  cache.setCells cols row fun c => .datum (refDatum (values c))

/-- `NoDBCacheSetPMPairVector`. -/
def noDBCacheSetPMPairVector (cache : Cache D) (pairs : Nat → PMPair) (cols : List Nat)
    (row : Nat) : Option (Cache D) :=
  cache.setCells cols row fun c => .pair (pairs c)

/-- Load the slots of the columns `cols` of a row into a vector. -/
def Cache.getCells {α : Type} (cache : Cache D) (cols : List Nat) (row : Nat)
    (load : Nat → Cell D → α) (vector : Nat → α) : Option (Nat → α) :=
  if cols = [] ∨ cache.hasBuffer row then
    some fun c => if c ∈ cols then load c (cache.cells c row) else vector c
  else none

/-- `NoDBCacheGetDatumVector`. -/
def noDBCacheGetDatumVector (cache : Cache D) (values : Nat → Value D) (cols : List Nat)
    (row : Nat) : Option (Nat → Value D) :=
  cache.getCells cols row (fun _ cell => cell.value) values

/-- `NoDBCacheGetPMPairVector`; `junk` is what the slots hold that nothing has written. -/
def noDBCacheGetPMPairVector (junk : Nat → Nat → PMPair) (cache : Cache D)
    (pairs : Nat → PMPair) (cols : List Nat) (row : Nat) : Option (Nat → PMPair) :=
  cache.getCells cols row (fun c cell => cell.pairOr (junk c row)) pairs

@[simp] theorem refDatum_eq (v : Value D) : refDatum v = v := by
  cases v <;> rfl

/-! ### The row layout

Columns are only ever added here, so the used parts come first and at most one free part is
left, of size `rowFree`.  Then a column that is not there yet and fits by `rowFree` is always
added: the result of `NoDBCacheAddColumn`, which its callers ignore, is `1`. -/

/-- The layout of a cache that columns have only been added to. -/
structure Cache.Packed (cache : Cache D) : Prop where
  map_isSome : ∀ c, cache.hasColumn c = true ↔ c ∈ cache.cols
  parts : ∃ sizes : List Nat, cache.list =
    sizes.map (⟨·, true⟩) ++ if cache.rowFree = 0 then [] else [⟨cache.rowFree, false⟩]

theorem packed_noDBCacheInit (type : CacheType) (startRow : Nat) {rowSize : Nat}
    (positive : 0 < rowSize) : (noDBCacheInit type startRow rowSize : Cache D).Packed where
  map_isSome := by simp [noDBCacheInit, Cache.hasColumn]
  parts := ⟨[], by simp [noDBCacheInit, Nat.ne_of_gt positive]⟩

/-- The used parts are passed over. -/
theorem fitPartition_used (size : Nat) (sizes : List Nat) (rest : List RowPartition) :
    fitPartition size (sizes.map (⟨·, true⟩) ++ rest) = (fitPartition size rest).map fun (offset, rest) =>
        (sizes.sum + offset, sizes.map (⟨·, true⟩) ++ rest) := by
  induction sizes with
  | nil => simp
  | cons n sizes ih =>
    simp only [List.map_cons, List.cons_append, fitPartition, ih]
    simp only [Bool.true_eq_false, and_false, if_false, Option.map_map, List.sum_cons]
    congr 1
    funext p
    simp [add_assoc]

/-- Adding a column to a cache: what the callers of `NoDBCacheAddColumn` rely on. -/
structure AddedColumn (cache cache' : Cache D) (col : Nat) : Prop where
  type : cache'.type = cache.type
  startRow : cache'.startRow = cache.startRow
  usedRows : cache'.usedRows = cache.usedRows
  maxRows : cache'.maxRows = cache.maxRows
  cols : cache'.cols = cache.cols ++ [col]
  cells : cache'.cells = cache.cells
  packed : cache'.Packed

theorem noDBCacheAddColumn_of_fits {cache : Cache D} {col size : Nat} (packed : cache.Packed)
    (absent : col ∉ cache.cols) (fits : size ≤ cache.rowFree) (positive : 0 < size) :
    ∃ cache', noDBCacheAddColumn cache col size = (true, cache') ∧ AddedColumn cache cache' col := by
  obtain ⟨sizes, list⟩ := packed.parts
  have notThere : ¬ cache.hasColumn col = true := fun there => absent ((packed.map_isSome col).1 there)
  rw [if_neg (by omega)] at list
  let parts : List RowPartition := sizes.map (⟨·, true⟩) ++ (if cache.rowFree = size then [⟨size, true⟩]
    else [⟨size, true⟩, ⟨cache.rowFree - size, false⟩])
  have fit : fitPartition size cache.list = some (sizes.sum, parts) := by
    rw [list, fitPartition_used]
    simp only [fitPartition, fits, and_self, if_true, Option.map_some, add_zero, parts]
  refine ⟨{ cache with
      list := parts
      cols := cache.cols ++ [col]
      offset := Function.update cache.offset col (some sizes.sum)
      map := Function.update cache.map col (some (cache.cols.length + 1))
      rowFree := cache.rowFree - size },
    by simp only [noDBCacheAddColumn, if_neg (not_lt.2 fits), if_neg notThere, fit],
    rfl, rfl, rfl, rfl, rfl, rfl, ?_, sizes ++ [size], ?_⟩
  · intro c
    by_cases same : c = col
    · subst same; simp [Cache.hasColumn]
    · have := packed.map_isSome c
      simp only [Cache.hasColumn] at this ⊢
      simp [this, same]
  · by_cases exact : cache.rowFree = size
    · simp [parts, exact]
    · simp [parts, exact, show cache.rowFree - size ≠ 0 by omega]

end

end PostgresRaw
