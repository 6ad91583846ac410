import PostgresRaw.Cache.Layout
import PostgresRaw.Library.Memory

/-!
# The buffer of a cache

The cells of a cache in the flat buffer that the source allocates.  The address of a cell is put together from
the row number, the start offset that is stored when the cache is created, and the offset of the column:
`row * rowSize - startOffset + offset[col]`, in 64-bit arithmetic, where both products may have wrapped around.
`cellAddress_eq` says what this is: the rows from `startRow` on lie one behind the other.  So cells do not
overlap, as the slots of a row do not (`cells_apart`), and every access is to the cells it names only.

A value that is passed by reference is copied to an object of its own, and the cell gets the pointer.
-/

namespace PostgresRaw

open Option List Memory

/-! ### Datums and objects -/

/-- `Datum`: a number, or the pointer to an object. -/
inductive Datum where
  | word (n : Nat)
  | pointer (object : Nat)
deriving DecidableEq, Repr

/-- `PointerGetDatum(NULL)`. -/
def nullPointer : Datum := .word 0

/-- What is stored in a cell, member by member. -/
inductive Member where
  | datum (d : Datum)
  | null (b : Bool)
  | pair (p : PMPair)
deriving DecidableEq, Repr

/-- The objects that pointers lead to; an allocation puts one at the end. -/
abbrev Heap := List (List Byte)

/-- `datumGetSize` for a type that is passed by reference; `varsizeAny` is `VARSIZE_ANY`. -/
def datumGetSize (varsizeAny : List Byte → Nat) (typLen : Int) (object : List Byte) : Option Nat :=
  if 0 < typLen then some typLen.toNat
  else if typLen = -1 then some (varsizeAny object)
  else if typLen = -2 then some ((cString object).length + 1)
  else none

/-- The bytes of a datum that is passed by reference. -/
def datumBytes (varsizeAny : List Byte → Nat) (heap : Heap) (typLen : Int) : Datum → Option (List Byte)
  | .word _ => none
  | .pointer object => do
      let bytes ← heap[object]?
      let size ← datumGetSize varsizeAny typLen bytes
      if size ≤ bytes.length then some (bytes.take size) else none

/-! ### The buffer -/

/-- `NoDBCache_t` with its buffer, once one is allocated. -/
structure CacheBuffer where
  layout : RowLayout
  startRow : Nat
  startOffset : Nat
  nRows : Nat
  buf : List (MemByte Member)

namespace CacheBuffer

/-- `row * cache->rowSize - cache->startOffset`. -/
def rowPosition (cache : CacheBuffer) (row : Nat) : Nat :=
  (row * cache.layout.rowSize % 2 ^ 64 + (2 ^ 64 - cache.startOffset)) % 2 ^ 64

/-- Where a cell begins in the buffer; `none` is in front of it. -/
def cellAddress (cache : CacheBuffer) (col row : Nat) : Option Nat :=
  if 0 ≤ (cache.rowPosition row : Int) + cache.layout.offset col then
    some ((cache.rowPosition row : Int) + cache.layout.offset col).toNat
  else none

/-- Store the two members of a `NoDBDatum_t`. -/
def putDatum (buf : List (MemByte Member)) (pos : Nat) (datum : Datum) (null : Bool) : Option (List (MemByte Member)) := do
  let buf ← store buf pos 8 (.datum datum)
  store buf (pos + 8) 1 (.null null)

/-- `NoDBCacheSetDatumVector`. -/
def noDBCacheSetDatumVector (cache : CacheBuffer) (datumVector : Nat → Datum) (null : Nat → Bool) (cols : List Nat)
    (row : Nat) : Option CacheBuffer := do
  let buf ← cols.foldlM (fun buf col => do
    let pos ← cache.cellAddress col row
    putDatum buf pos (datumVector col) (null col)) cache.buf
  some { cache with buf := buf }

/-- One round of `NoDBCacheSetDatumRefVector`. -/
def putDatumRef (varsizeAny : List Byte → Nat) (heap : Heap) (buf : List (MemByte Member)) (pos : Nat) (datum : Datum)
    (attlen : Int) : Option (Heap × List (MemByte Member)) :=
  if datum = nullPointer then do
    let buf ← putDatum buf pos nullPointer true
    some (heap, buf)
  else do
    let bytes ← datumBytes varsizeAny heap attlen datum
    let buf ← putDatum buf pos (.pointer heap.length) false
    some (heap ++ [bytes], buf)

/-- `NoDBCacheSetDatumRefVector`.  The vector `null` is not read. -/
def noDBCacheSetDatumRefVector (varsizeAny : List Byte → Nat) (heap : Heap) (cache : CacheBuffer)
    (datumVector : Nat → Datum) (_null : Nat → Bool) (attlen : Nat → Int) (cols : List Nat) (row : Nat) :
    Option (Heap × CacheBuffer) := do
  let (heap, buf) ← cols.foldlM (fun (heap, buf) col => do
    let pos ← cache.cellAddress col row
    putDatumRef varsizeAny heap buf pos (datumVector col) (attlen col)) (heap, cache.buf)
  some (heap, { cache with buf := buf })

/-- `NoDBCacheSetPMPairVector`. -/
def noDBCacheSetPMPairVector (cache : CacheBuffer) (pairVector : Nat → PMPair) (cols : List Nat) (row : Nat) :
    Option CacheBuffer := do
  let buf ← cols.foldlM (fun buf col => do
    let pos ← cache.cellAddress col row
    store buf pos 4 (.pair (pairVector col))) cache.buf
  some { cache with buf := buf }

/-- A load that must be inside the buffer; the result is `none` if the bytes are not those of one value. -/
def loadInside (buf : List (MemByte Member)) (pos n : Nat) : Option (Option Member) :=
  if pos + n ≤ buf.length then some (load buf pos n) else none

/-- `NoDBCacheGetDatumVector`: the two vectors, where an entry is `none` if the cell does not hold such a value. -/
def noDBCacheGetDatumVector (cache : CacheBuffer) (datumVector : Nat → Option Member) (null : Nat → Option Member)
    (cols : List Nat) (row : Nat) : Option ((Nat → Option Member) × (Nat → Option Member)) :=
  cols.foldlM (fun (datumVector, null) col => do
    let pos ← cache.cellAddress col row
    let datum ← loadInside cache.buf pos 8
    let flag ← loadInside cache.buf (pos + 8) 1
    some (Function.update datumVector col datum, Function.update null col flag)) (datumVector, null)

/-- `NoDBCacheGetPMPairVector`. -/
def noDBCacheGetPMPairVector (cache : CacheBuffer) (pairVector : Nat → Option Member) (cols : List Nat) (row : Nat) :
    Option (Nat → Option Member) :=
  cols.foldlM (fun pairVector col => do
    let pos ← cache.cellAddress col row
    let pair ← loadInside cache.buf pos 4
    some (Function.update pairVector col pair)) pairVector

/-- `NoDBCacheSetMaxRows` and `NoDBCacheGrow`, with the sizes in 64-bit arithmetic.  `NoDBRealloc` keeps what fits. -/
def noDBCacheGrow (cache : CacheBuffer) (row : Nat) : CacheBuffer :=
  let maxRows := (row + (2 ^ 64 - cache.startRow) + 1) % 2 ^ 64
  if maxRows ≤ cache.nRows then cache
  else
    let size := maxRows * cache.layout.rowSize % 2 ^ 64
    { cache with
      nRows := maxRows
      buf := cache.buf.take size ++ List.replicate (size - cache.buf.length) .unset }

/-! ### Addresses -/

/-- **A cache that satisfies the row layout invariant**, with cells of `cell` bytes and its buffer. -/
structure Sound (cache : CacheBuffer) (cell : Nat) : Prop where
  startRow : cache.startRow < 2 ^ 64
  startOffset : cache.startOffset = cache.layout.rowSize * cache.startRow % 2 ^ 64
  buf : cache.buf.length = cache.nRows * cache.layout.rowSize
  exists_buf : cache.nRows * cache.layout.rowSize < 2 ^ 64
  inside : ∀ c, cache.layout.noDBCacheHasColumn c = true →
    0 ≤ cache.layout.offset c ∧ cache.layout.offset c + cell ≤ cache.layout.rowSize
  apart : ∀ c d, cache.layout.noDBCacheHasColumn c = true → cache.layout.noDBCacheHasColumn d = true → c ≠ d →
    cache.layout.offset c + cell ≤ cache.layout.offset d ∨ cache.layout.offset d + cell ≤ cache.layout.offset c

/-- The row is one of those that the buffer has. -/
def HasRow (cache : CacheBuffer) (row : Nat) : Prop := cache.startRow ≤ row ∧ row < cache.startRow + cache.nRows

/-- Where a cell begins, without the arithmetic of the machine. -/
def cellStart (cache : CacheBuffer) (col row : Nat) : Nat :=
  (row - cache.startRow) * cache.layout.rowSize + (cache.layout.offset col).toNat

section

variable {cache : CacheBuffer} {cell : Nat}

/-- A row ends where the next one begins, at the latest. -/
theorem row_le {n i j : Nat} (less : i < j) : i * n + n ≤ j * n := by
  calc i * n + n = (i + 1) * n := (Nat.succ_mul i n).symm
    _ ≤ j * n := Nat.mul_le_mul_right n less

variable {row c r pos : Nat} {buf : List (MemByte Member)} {b : CacheBuffer} {model : Cache Datum} {cols : List Nat}

/-- The products may have wrapped around, their difference is right. -/
theorem Sound.rowPosition (sound : cache.Sound cell) (has : cache.HasRow row) :
    cache.rowPosition row = (row - cache.startRow) * cache.layout.rowSize := by
  have begin : (row - cache.startRow) * cache.layout.rowSize + cache.startRow * cache.layout.rowSize =
      row * cache.layout.rowSize := by
    rw [← Nat.add_mul, Nat.sub_add_cancel has.1]
  have small : (row - cache.startRow) * cache.layout.rowSize ≤ cache.nRows * cache.layout.rowSize :=
    Nat.mul_le_mul_right _ (by have := has.2; omega)
  have bound := sound.exists_buf
  rw [CacheBuffer.rowPosition, sound.startOffset, Nat.mul_comm cache.layout.rowSize]
  generalize (row - cache.startRow) * cache.layout.rowSize = k at *
  generalize cache.startRow * cache.layout.rowSize = b at *
  generalize row * cache.layout.rowSize = a at *
  omega

/-- **Where a cell is.** -/
theorem Sound.cellAddress (sound : cache.Sound cell) {col : Nat} (has : cache.HasRow row)
    (registered : cache.layout.noDBCacheHasColumn col = true) :
    cache.cellAddress col row = some (cache.cellStart col row) := by
  have offset := (sound.inside col registered).1
  rw [CacheBuffer.cellAddress, sound.rowPosition has, if_pos (by omega), cellStart]
  congr 1
  omega

theorem Sound.cellStart_le (sound : cache.Sound cell) {col : Nat} (has : cache.HasRow row)
    (registered : cache.layout.noDBCacheHasColumn col = true) :
    cache.cellStart col row + cell ≤ cache.nRows * cache.layout.rowSize := by
  have inside := sound.inside col registered
  have row := @row_le cache.layout.rowSize (row - cache.startRow) cache.nRows (by have := has.1; have := has.2; omega)
  rw [cellStart]
  omega

/-- **Cells do not overlap.** -/
theorem Sound.cells_apart (sound : cache.Sound cell) {d : Nat} (hasRow : cache.HasRow row) (hasR : cache.HasRow r)
    (hc : cache.layout.noDBCacheHasColumn c = true) (hd : cache.layout.noDBCacheHasColumn d = true)
    (different : row = r → c ≠ d) :
    cache.cellStart c row + cell ≤ cache.cellStart d r ∨ cache.cellStart d r + cell ≤ cache.cellStart c row := by
  have insideC := sound.inside c hc
  have insideD := sound.inside d hd
  have := hasRow.1
  have := hasR.1
  rw [cellStart, cellStart]
  rcases lt_trichotomy row r with before | same | behind
  · have := @row_le cache.layout.rowSize (row - cache.startRow) (r - cache.startRow) (by omega)
    omega
  · subst same
    have := sound.apart c d hc hd (different rfl)
    omega
  · have := @row_le cache.layout.rowSize (r - cache.startRow) (row - cache.startRow) (by omega)
    omega

/-! ### Stores -/

/-- Storing a datum with its null flag. -/
theorem putDatum_spec (fits : pos + 16 ≤ buf.length) (d : Datum) (b : Bool) :
    ∃ buf', putDatum buf pos d b = some buf' ∧ SameOutside pos (pos + 16) buf buf' ∧
      load buf' pos 8 = some (.datum d) ∧ load buf' (pos + 8) 1 = some (.null b) := by
  obtain ⟨mid, first, same, pieces⟩ := store_of_fits (show pos + 8 ≤ buf.length by omega) (Member.datum d)
  obtain ⟨last, second, same', pieces'⟩ :=
    store_of_fits (show pos + 8 + 1 ≤ mid.length by rw [same.length]; omega) (Member.null b)
  refine ⟨last, ?_, (same.widen le_rfl (by omega)).trans (same'.widen (by omega) (by omega)), ?_,
    load_of_pieces (by omega) pieces'⟩
  · rw [putDatum, first]
    exact second
  · rw [load_congr (by omega) (same'.inside (.inl le_rfl))]
    exact load_of_pieces (by omega) pieces

/-- A cell reads as a datum with its null flag. -/
def ReadsDatum (datum : Nat → Datum) (null : Nat → Bool) (buf : List (MemByte Member)) (pos c : Nat) : Prop :=
  load buf pos 8 = some (.datum (datum c)) ∧ load buf (pos + 8) 1 = some (.null (null c))

/-- Such a cell depends on its bytes only. -/
theorem loads_congr {buf' : List (MemByte Member)} (same : SameInside pos (pos + 16) buf buf') :
    load buf' pos 8 = load buf pos 8 ∧ load buf' (pos + 8) 1 = load buf (pos + 8) 1 :=
  ⟨load_congr (by omega) fun k ge less => same k ge (by omega),
    load_congr (by omega) fun k ge less => same k (by omega) (by omega)⟩

theorem cellLoop_datum (datum : Nat → Datum) (null : Nat → Bool) :
    CellLoop id 16 (fun buf pos c => putDatum buf pos (datum c) (null c)) (ReadsDatum datum null) (fun _ _ => True)
      fun _ _ => True where
  refl _ := trivial
  trans _ _ := trivial
  ready _ _ := trivial
  put {buf pos c} fits _ := by
    obtain ⟨buf', stored, same, reads⟩ := putDatum_spec fits (datum c) (null c)
    exact ⟨buf', stored, same, reads, trivial⟩
  keeps {buf buf' pos c} reads _ same := by
    obtain ⟨first, second⟩ := loads_congr same
    exact ⟨first.trans reads.1, second.trans reads.2⟩

/-- A cell reads as a pair. -/
def ReadsPair (pair : Nat → PMPair) (buf : List (MemByte Member)) (pos c : Nat) : Prop :=
  load buf pos 4 = some (.pair (pair c))

theorem cellLoop_pair (pair : Nat → PMPair) :
    CellLoop id 4 (fun buf pos c => store buf pos 4 (Member.pair (pair c))) (ReadsPair pair) (fun _ _ => True)
      fun _ _ => True where
  refl _ := trivial
  trans _ _ := trivial
  ready _ _ := trivial
  put {buf pos c} fits _ := by
    obtain ⟨buf', stored, same, pieces⟩ := store_of_fits fits (Member.pair (pair c))
    exact ⟨buf', stored, same, load_of_pieces (by omega) pieces, trivial⟩
  keeps {buf buf' pos c} reads _ same := (load_congr (by omega) same).trans reads

/-- The copy of a datum that is passed by reference: NULL, or an object with the same bytes. -/
def Copies (varsizeAny : List Byte → Nat) (heap heap' : Heap) (attlen : Int) (d d' : Datum) : Prop :=
  d = nullPointer ∧ d' = nullPointer ∨
    d ≠ nullPointer ∧ ∃ object bytes, d' = .pointer object ∧ heap'[object]? = some bytes ∧
      datumBytes varsizeAny heap attlen d = some bytes

/-- Objects stay where they are. -/
theorem datumBytes_of_isPrefix {varsizeAny : List Byte → Nat} {heap heap' : Heap} (extended : heap <+: heap') {attlen : Int}
    {d : Datum} {bytes : List Byte} (read : datumBytes varsizeAny heap attlen d = some bytes) :
    datumBytes varsizeAny heap' attlen d = some bytes := by
  cases d with
  | word n => cases read
  | pointer object =>
    rw [datumBytes] at read ⊢
    obtain ⟨source, here, rest⟩ := bind_eq_some_iff.1 read
    obtain ⟨more, rfl⟩ := extended
    rw [List.getElem?_append_left (List.getElem?_eq_some_iff.1 here).1, here]
    exact rest

/-- A cell reads as the copy of a datum. -/
def ReadsCopy (varsizeAny : List Byte → Nat) (heap : Heap) (attlen : Nat → Int) (datum : Nat → Datum)
    (s : Heap × List (MemByte Member)) (pos c : Nat) : Prop :=
  ∃ d, load s.2 pos 8 = some (.datum d) ∧ load s.2 (pos + 8) 1 = some (.null (decide (datum c = nullPointer))) ∧
    Copies varsizeAny heap s.1 (attlen c) (datum c) d

/-- The datum is NULL or leads to an object that has all its bytes. -/
def ValidRef (varsizeAny : List Byte → Nat) (heap : Heap) (attlen : Int) (d : Datum) : Prop :=
  d = nullPointer ∨ ∃ bytes, datumBytes varsizeAny heap attlen d = some bytes

theorem Copies.of_isPrefix {varsizeAny : List Byte → Nat} {heap after after' : Heap} {attlen : Int} {d d' : Datum}
    (copies : Copies varsizeAny heap after attlen d d') (extended : after <+: after') :
    Copies varsizeAny heap after' attlen d d' := by
  rcases copies with null | ⟨some, object, bytes, isPointer, here, read⟩
  · exact .inl null
  · obtain ⟨more, rfl⟩ := extended
    refine .inr ⟨some, object, bytes, isPointer, ?_, read⟩
    rw [List.getElem?_append_left (List.getElem?_eq_some_iff.1 here).1, here]

theorem cellLoop_ref (varsizeAny : List Byte → Nat) (heap : Heap) (attlen : Nat → Int) (datum : Nat → Datum) :
    CellLoop Prod.snd 16 (fun s pos c => putDatumRef varsizeAny s.1 s.2 pos (datum c) (attlen c))
      (ReadsCopy varsizeAny heap attlen datum) (fun s t => s.1 <+: t.1)
      (fun s c => heap <+: s.1 ∧ ValidRef varsizeAny heap (attlen c) (datum c)) where
  refl s := prefix_refl s.1
  trans := List.IsPrefix.trans
  ready ready after := ⟨ready.1.trans after, ready.2⟩
  put {s pos c} fits ready := by
    obtain ⟨extended, valid⟩ := ready
    by_cases null : datum c = nullPointer
    · obtain ⟨buf, stored, same, first, second⟩ := putDatum_spec fits nullPointer true
      refine ⟨(s.1, buf), by rw [putDatumRef, if_pos null, stored]; rfl, same, ?_, prefix_refl _⟩
      exact ⟨nullPointer, first, by rw [decide_eq_true null]; exact second, .inl ⟨null, rfl⟩⟩
    · obtain ⟨bytes, read⟩ := valid.resolve_left null
      obtain ⟨buf, stored, same, first, second⟩ := putDatum_spec fits (.pointer s.1.length) false
      refine ⟨(s.1 ++ [bytes], buf), ?_, same, ?_, prefix_append ..⟩
      · rw [putDatumRef, if_neg null, datumBytes_of_isPrefix extended read, bind_eq_bind, bind_some, stored]
        rfl
      · refine ⟨.pointer s.1.length, first, by rw [decide_eq_false null]; exact second,
          .inr ⟨null, s.1.length, bytes, rfl, ?_, read⟩⟩
        rw [getElem?_append_right (Nat.le_refl _), Nat.sub_self]
        rfl
  keeps {s s' pos c} reads after same := by
    obtain ⟨d, first, second, copies⟩ := reads
    obtain ⟨first', second'⟩ := loads_congr same
    exact ⟨d, first'.trans first, second'.trans second, copies.of_isPrefix after⟩

/-! ### What is kept -/

/-- The bytes of a cell. -/
def cellBytes (cache : CacheBuffer) (cell col row : Nat) : Option (List (MemByte Member)) :=
  (cache.cellAddress col row).map fun pos => (cache.buf.drop pos).take cell

/-- **What a store into the cells of `cols` leaves**: the layout, the size of the buffer, and all bytes outside
these cells, which are inside the buffer. -/
structure Stored (cache after : CacheBuffer) (cell : Nat) (cols : List Nat) (row : Nat) : Prop where
  same : after = { cache with buf := after.buf }
  length : after.buf.length = cache.buf.length
  inside : ∀ c ∈ cols, ∃ pos, cache.cellAddress c row = some pos ∧ pos + cell ≤ cache.nRows * cache.layout.rowSize
  outside : ∀ k, (∀ c ∈ cols, ∀ pos, cache.cellAddress c row = some pos → k < pos ∨ pos + cell ≤ k) →
    after.buf[k]? = cache.buf[k]?

/-- A cache later on: rows may have been added. -/
structure Later (cache later : CacheBuffer) : Prop where
  layout : later.layout = cache.layout
  startRow : later.startRow = cache.startRow
  startOffset : later.startOffset = cache.startOffset
  nRows : cache.nRows ≤ later.nRows
  length : cache.buf.length ≤ later.buf.length
  buf : ∀ k < cache.buf.length, later.buf[k]? = cache.buf[k]?

/-- The rows can be asked for: they do not lie in front of the cache, and a buffer for them can exist. -/
def CanHold (cache : CacheBuffer) (row : Nat) : Prop :=
  cache.startRow ≤ row ∧ (row - cache.startRow + 1) * cache.layout.rowSize < 2 ^ 64

/-- `NoDBCacheGrow` keeps what is there. -/
theorem Sound.noDBCacheGrow (sound : cache.Sound cell) (canHold : cache.CanHold row) :
    (cache.noDBCacheGrow row).Sound cell ∧ cache.Later (cache.noDBCacheGrow row) := by
  have start := sound.startRow
  have rows : (row + (2 ^ 64 - cache.startRow) + 1) % 2 ^ 64 ≤ row - cache.startRow + 1 := by
    have := canHold.1
    omega
  rw [CacheBuffer.noDBCacheGrow]
  generalize (row + (2 ^ 64 - cache.startRow) + 1) % 2 ^ 64 = maxRows at rows ⊢
  have size : maxRows * cache.layout.rowSize < 2 ^ 64 :=
    lt_of_le_of_lt (Nat.mul_le_mul_right _ rows) canHold.2
  dsimp only
  rw [Nat.mod_eq_of_lt size]
  split
  · exact ⟨sound, rfl, rfl, rfl, le_rfl, le_rfl, fun _ _ => rfl⟩
  · next more =>
    have longer : cache.buf.length ≤ maxRows * cache.layout.rowSize := by
      rw [sound.buf]
      exact Nat.mul_le_mul_right _ (by omega)
    rw [take_of_length_le longer]
    refine ⟨⟨start, sound.startOffset, ?_, size, sound.inside, sound.apart⟩, rfl, rfl, rfl, by dsimp only; omega,
      by rw [length_append]; exact Nat.le_add_right .., fun k less => getElem?_append_left less⟩
    rw [length_append, length_replicate]
    exact Nat.add_sub_cancel' longer

theorem Later.trans {a c : CacheBuffer} (first : a.Later b) (second : b.Later c) : a.Later c where
  layout := second.layout.trans first.layout
  startRow := second.startRow.trans first.startRow
  startOffset := second.startOffset.trans first.startOffset
  nRows := Nat.le_trans first.nRows second.nRows
  length := Nat.le_trans first.length second.length
  buf k less := (second.buf k (Nat.lt_of_lt_of_le less first.length)).trans (first.buf k less)

/-- Any number of calls of `NoDBCacheGrow`. -/
theorem Sound.foldl_noDBCacheGrow (sound : cache.Sound cell) {grows : List Nat} (canHold : ∀ row ∈ grows, cache.CanHold row) :
    (grows.foldl CacheBuffer.noDBCacheGrow cache).Sound cell ∧ cache.Later (grows.foldl CacheBuffer.noDBCacheGrow cache) := by
  induction grows generalizing cache with
  | nil => exact ⟨sound, rfl, rfl, rfl, le_rfl, le_rfl, fun _ _ => rfl⟩
  | cons row grows ih =>
    rw [forall_mem_cons] at canHold
    obtain ⟨sound', later⟩ := sound.noDBCacheGrow canHold.1
    have rest : ∀ r ∈ grows, (cache.noDBCacheGrow row).CanHold r := by
      intro r mem
      rw [CanHold, later.startRow, later.layout]
      exact canHold.2 r mem
    obtain ⟨sound'', later'⟩ := ih sound' rest
    exact ⟨sound'', later.trans later'⟩

theorem Later.cellAddress {later : CacheBuffer} (after : cache.Later later) (c r : Nat) :
    later.cellAddress c r = cache.cellAddress c r := by
  rw [CacheBuffer.cellAddress, CacheBuffer.cellAddress, CacheBuffer.rowPosition, CacheBuffer.rowPosition, after.layout,
    after.startOffset]

/-- A cell whose bytes are the same reads the same. -/
theorem cellBytes_congr {cache' : CacheBuffer} (here : cache.cellAddress c r = some pos)
    (here' : cache'.cellAddress c r = some pos) (same : SameInside pos (pos + cell) cache.buf cache'.buf) :
    cache'.cellBytes cell c r = cache.cellBytes cell c r := by
  rw [cellBytes, cellBytes, here, here', map_some, map_some]
  congr 1
  apply ext_getElem?
  intro i
  rw [getElem?_take, getElem?_take, getElem?_drop, getElem?_drop]
  split
  · exact same (pos + i) (by omega) (by omega)
  · rfl

/-- The cells of the cache are the same later on. -/
theorem Sound.sameInside_later (sound : cache.Sound cell) {later : CacheBuffer} (after : cache.Later later)
    (has : cache.HasRow r) (registered : cache.layout.noDBCacheHasColumn c = true) :
    SameInside (cache.cellStart c r) (cache.cellStart c r + cell) cache.buf later.buf := by
  intro k _ less
  refine after.buf k ?_
  have := sound.cellStart_le has registered
  rw [sound.buf]
  omega

/-! ### The three functions -/

section

variable {cols : List Nat} {row : Nat}

/-- The stores of a loop over the cells of `cols`. -/
theorem Sound.stored (sound : cache.Sound cell) (registered : ∀ c ∈ cols, cache.layout.noDBCacheHasColumn c = true)
    (has : cache.HasRow row) {buf : List (MemByte Member)} (length : buf.length = cache.buf.length)
    (outside : ∀ k, (∀ c ∈ cols, k < cache.cellStart c row ∨ cache.cellStart c row + cell ≤ k) → buf[k]? = cache.buf[k]?) :
    cache.Stored { cache with buf := buf } cell cols row where
  same := rfl
  length := length
  inside c mem := ⟨_, sound.cellAddress has (registered c mem), sound.cellStart_le has (registered c mem)⟩
  outside k out := outside k fun c mem => out c mem _ (sound.cellAddress has (registered c mem))

variable {after : CacheBuffer} {grows : List Nat}

/-- **The frame**: after the store and later on, every other cell is what it was. -/
theorem Stored.cellBytes {later : CacheBuffer} (stored : cache.Stored after cell cols row) (sound : cache.Sound cell)
    (registered : ∀ c ∈ cols, cache.layout.noDBCacheHasColumn c = true) (has : cache.HasRow row)
    (grown : after.Later later) {c r : Nat} (hasR : cache.HasRow r)
    (isColumn : cache.layout.noDBCacheHasColumn c = true) (other : r = row → c ∉ cols) :
    later.cellBytes cell c r = cache.cellBytes cell c r := by
  have here := sound.cellAddress hasR isColumn
  have same : after.cellAddress c r = cache.cellAddress c r := by rw [stored.same]; rfl
  refine cellBytes_congr here (by rw [grown.cellAddress, same, here]) fun k ge less => ?_
  have inside := sound.cellStart_le hasR isColumn
  rw [grown.buf k (by rw [stored.length, sound.buf]; omega)]
  refine stored.outside k fun d mem pos at_pos => ?_
  cases (sound.cellAddress has (registered d mem)).symm.trans at_pos
  have := sound.cells_apart has hasR (registered d mem) isColumn fun same equal => other same.symm (equal ▸ mem)
  omega

/-- The loop of the source, with the addresses of the cells. -/
theorem Sound.foldlM_cellAddress {σ : Type} (sound : cache.Sound cell)
    (registered : ∀ c ∈ cols, cache.layout.noDBCacheHasColumn c = true) (has : cache.HasRow row)
    (put : σ → Nat → Nat → Option σ) (s : σ) :
    cols.foldlM (fun s c => (cache.cellAddress c row).bind fun pos => put s pos c) s =
      cols.foldlM (fun s c => put s (cache.cellStart c row) c) s := by
  induction cols generalizing s with
  | nil => rfl
  | cons c cols ih =>
    rw [forall_mem_cons] at registered
    rw [foldlM_cons, foldlM_cons, sound.cellAddress has registered.1, bind_some]
    congr 1
    funext s
    exact ih registered.2 s

/-- What the cells of `cols` are after a loop, and all others. -/
theorem Sound.loop {σ : Type} {mem : σ → List (MemByte Member)} {put : σ → Nat → Nat → Option σ}
    {Reads : σ → Nat → Nat → Prop} {After : σ → σ → Prop} {Ready : σ → Nat → Prop} (sound : cache.Sound cell)
    (rule : CellLoop mem cell put Reads After Ready)
    (registered : ∀ c ∈ cols, cache.layout.noDBCacheHasColumn c = true) (has : cache.HasRow row) {s : σ}
    (begins : mem s = cache.buf) (ready : ∀ c ∈ cols, Ready s c) :
    ∃ s', cols.foldlM (fun s c => (cache.cellAddress c row).bind fun pos => put s pos c) s = some s' ∧ After s s' ∧
      (∀ c ∈ cols, Reads s' (cache.cellStart c row) c) ∧ cache.Stored { cache with buf := mem s' } cell cols row := by
  have fits : ∀ c ∈ cols, cache.cellStart c row + cell ≤ (mem s).length := fun c isCol => by
    rw [begins, sound.buf]
    exact sound.cellStart_le has (registered c isCol)
  have apart : ∀ c ∈ cols, ∀ d ∈ cols, c ≠ d →
      cache.cellStart c row + cell ≤ cache.cellStart d row ∨ cache.cellStart d row + cell ≤ cache.cellStart c row :=
    fun c memc d memd different => sound.cells_apart has has (registered c memc) (registered d memd) fun _ => different
  obtain ⟨s', run, done⟩ := rule.loop fits ready apart
  refine ⟨s', (sound.foldlM_cellAddress registered has put s).trans run, done.after, done.reads,
    sound.stored registered has ?_ ?_⟩
  · rw [done.length, begins]
  · intro k out
    rw [done.outside k out, begins]

/-- `NoDBCacheGetDatumVector` reads the listed cells. -/
theorem getDatumVector_eq {datum flag : Nat → Option Member}
    (cells : ∀ c ∈ cols, ∃ pos, cache.cellAddress c row = some pos ∧ pos + 16 ≤ cache.buf.length ∧
      load cache.buf pos 8 = datum c ∧ load cache.buf (pos + 8) 1 = flag c) (values nulls : Nat → Option Member) :
    cache.noDBCacheGetDatumVector values nulls cols row =
      some (fun c => if c ∈ cols then datum c else values c, fun c => if c ∈ cols then flag c else nulls c) := by
  induction cols generalizing values nulls with
  | nil => simp [noDBCacheGetDatumVector]
  | cons c cols ih =>
    rw [forall_mem_cons] at cells
    obtain ⟨⟨pos, here, fits, first, second⟩, rest⟩ := cells
    have step : cache.noDBCacheGetDatumVector values nulls (c :: cols) row =
        cache.noDBCacheGetDatumVector (Function.update values c (datum c)) (Function.update nulls c (flag c)) cols row := by
      rw [noDBCacheGetDatumVector, foldlM_cons]
      simp only [here, loadInside, if_pos (show pos + 8 ≤ cache.buf.length by omega),
        if_pos (show pos + 8 + 1 ≤ cache.buf.length by omega), first, second, bind_eq_bind, bind_some]
      rfl
    rw [step, ih rest, Lists.ite_mem_update, Lists.ite_mem_update]

/-- `NoDBCacheGetPMPairVector` reads the listed cells. -/
theorem getPMPairVector_eq {pair : Nat → Option Member}
    (cells : ∀ c ∈ cols, ∃ pos, cache.cellAddress c row = some pos ∧ pos + 4 ≤ cache.buf.length ∧
      load cache.buf pos 4 = pair c) (pairs : Nat → Option Member) :
    cache.noDBCacheGetPMPairVector pairs cols row = some (fun c => if c ∈ cols then pair c else pairs c) := by
  induction cols generalizing pairs with
  | nil => simp [noDBCacheGetPMPairVector]
  | cons c cols ih =>
    rw [forall_mem_cons] at cells
    obtain ⟨⟨pos, here, fits, first⟩, rest⟩ := cells
    have step : cache.noDBCacheGetPMPairVector pairs (c :: cols) row =
        cache.noDBCacheGetPMPairVector (Function.update pairs c (pair c)) cols row := by
      rw [noDBCacheGetPMPairVector, foldlM_cons]
      simp only [here, loadInside, if_pos fits, first, bind_eq_bind, bind_some]
      rfl
    rw [step, ih rest, Lists.ite_mem_update]

/-- **Only the listed cells change**, and later calls of `NoDBCacheGrow` keep all cells. -/
structure Independent (cache after : CacheBuffer) (cell : Nat) (cols : List Nat) (row : Nat) (grows : List Nat) : Prop where
  stored : cache.Stored after cell cols row
  sound : (grows.foldl CacheBuffer.noDBCacheGrow after).Sound cell
  others : ∀ c r, cache.layout.noDBCacheHasColumn c = true → cache.HasRow r → (r = row → c ∉ cols) →
    (grows.foldl CacheBuffer.noDBCacheGrow after).cellBytes cell c r = cache.cellBytes cell c r

/-- The cells that have been stored, later on. -/
theorem Sound.independent (sound : cache.Sound cell) (stored : cache.Stored after cell cols row)
    (registered : ∀ c ∈ cols, cache.layout.noDBCacheHasColumn c = true) (has : cache.HasRow row)
    (canHold : ∀ r ∈ grows, cache.CanHold r) : Independent cache after cell cols row grows ∧
      ∀ c ∈ cols, (grows.foldl CacheBuffer.noDBCacheGrow after).cellAddress c row = some (cache.cellStart c row) ∧
        cache.cellStart c row + cell ≤ (grows.foldl CacheBuffer.noDBCacheGrow after).buf.length ∧
        SameInside (cache.cellStart c row) (cache.cellStart c row + cell) after.buf
          (grows.foldl CacheBuffer.noDBCacheGrow after).buf := by
  obtain ⟨buf, rfl⟩ : ∃ buf, after = { cache with buf := buf } := ⟨after.buf, stored.same⟩
  have sound' : ({ cache with buf := buf } : CacheBuffer).Sound cell :=
    ⟨sound.startRow, sound.startOffset, stored.length.trans sound.buf, sound.exists_buf, sound.inside, sound.apart⟩
  obtain ⟨grown, later⟩ := sound'.foldl_noDBCacheGrow canHold
  refine ⟨⟨stored, grown, fun c r isColumn hasR other =>
    stored.cellBytes sound registered has later hasR isColumn other⟩, fun c mem => ⟨?_, ?_, ?_⟩⟩
  · rw [later.cellAddress]
    exact sound'.cellAddress has (registered c mem)
  · refine le_trans ?_ later.length
    rw [sound'.buf]
    exact sound.cellStart_le has (registered c mem)
  · exact sound'.sameInside_later later has (registered c mem)

/-- Reading data cells back later on. -/
theorem Sound.getDatumVector (sound : cache.Sound 16) (stored : cache.Stored after 16 cols row)
    (registered : ∀ c ∈ cols, cache.layout.noDBCacheHasColumn c = true) (has : cache.HasRow row)
    (canHold : ∀ r ∈ grows, cache.CanHold r) (values nulls : Nat → Option Member) :
    ∃ r, (grows.foldl CacheBuffer.noDBCacheGrow after).noDBCacheGetDatumVector values nulls cols row = some r ∧
      ∀ c ∈ cols, r.1 c = load after.buf (cache.cellStart c row) 8 ∧ r.2 c = load after.buf (cache.cellStart c row + 8) 1 := by
  have cells := (sound.independent stored registered has canHold).2
  refine ⟨_, getDatumVector_eq (fun c mem => ?_) values nulls, fun c mem => ⟨if_pos mem, if_pos mem⟩⟩
  obtain ⟨here, fits, same⟩ := cells c mem
  obtain ⟨first, second⟩ := loads_congr same
  exact ⟨_, here, fits, first, second⟩

/-- Reading positions back later on. -/
theorem Sound.getPMPairVector (sound : cache.Sound 4) (stored : cache.Stored after 4 cols row)
    (registered : ∀ c ∈ cols, cache.layout.noDBCacheHasColumn c = true) (has : cache.HasRow row)
    (canHold : ∀ r ∈ grows, cache.CanHold r) (pairs : Nat → Option Member) :
    ∃ r, (grows.foldl CacheBuffer.noDBCacheGrow after).noDBCacheGetPMPairVector pairs cols row = some r ∧
      ∀ c ∈ cols, r c = load after.buf (cache.cellStart c row) 4 := by
  have cells := (sound.independent stored registered has canHold).2
  refine ⟨_, getPMPairVector_eq (fun c mem => ?_) pairs, fun c mem => if_pos mem⟩
  obtain ⟨here, fits, same⟩ := cells c mem
  exact ⟨_, here, fits, load_congr (by omega) same⟩

end

/-- `NoDBCacheInit` and the first call of `NoDBCacheSetMaxRows`. -/
def allocate (l : RowLayout) (startRow nRows : Nat) : CacheBuffer where
  layout := l
  startRow := startRow
  startOffset := l.rowSize * startRow % 2 ^ 64
  nRows := nRows
  buf := List.replicate (nRows * l.rowSize) .unset

/-- The row layout invariant is what the buffer needs, if all columns have the size of a cell. -/
theorem sound_allocate {l : RowLayout} {added : List (Nat × Nat)} (inv : RowLayout.RowInvariant l added)
    (sizes : ∀ c ∈ added, c.2 = cell) {startRow nRows : Nat} (small : startRow < 2 ^ 64)
    (exists_buf : nRows * l.rowSize < 2 ^ 64) : (allocate l startRow nRows).Sound cell := by
  have entry : ∀ c, l.noDBCacheHasColumn c = true → (c, cell) ∈ added := by
    intro c there
    rw [inv.present, ← inv.columns] at there
    obtain ⟨e, mem, rfl⟩ := mem_map.1 there
    rw [← sizes e mem]
    exact mem
  exact ⟨small, rfl, length_replicate, exists_buf, fun c there => inv.inside (c, cell) (entry c there),
    fun c d hc hd different => inv.disjoint (c, cell) (entry c hc) (d, cell) (entry d hd) different⟩

/-- A data cache with two columns and two rows. -/
def twoRows : CacheBuffer := allocate (RowLayout.addCalls 32 [(3, 16), (1, 16)]).1 5 2

end

end CacheBuffer

end PostgresRaw
