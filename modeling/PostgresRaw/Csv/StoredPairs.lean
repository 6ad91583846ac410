import Mathlib.Logic.Relation
import PostgresRaw.Cache
import PostgresRaw.Csv.Options

/-!
# Positions through a positional map

The parser leaves the position of every field it visits in `attributes`, `NoDBCacheSetPMPairVector` stores
those of the columns of a positional map, and `NoDBCacheGetPMPairVector` brings them back for a later
query.  `StoresPositions` says that what comes back is where the field is; `storesPositions_iff` that this
is so exactly for fields that are there and whose position and width fit 16 bits.

Nothing happens to a pair between the parser and the later query, so all there is to know is what the parser
leaves: it accepts lines of any length, and it accepts lines that end before the last column it is asked for,
where it leaves the pair of an earlier line.
-/

namespace PostgresRaw

open List

variable {D : Type} {opts : CsvOptions}

/-- The pair is where the column is in the line: its offset and its width in bytes. -/
def IsPosition (opts : CsvOptions) (line : List Byte) (col : Nat) (pair : PMPair) : Prop :=
  ∃ piece, (opts.pieces false line)[col]? = some piece ∧ pair.pointer.toNat = Pieces.start (opts.pieces false line) col ∧
    pair.width.toNat = piece.length

/-- The column is in the line, and its position and width fit 16 bits. -/
def Fits16 (opts : CsvOptions) (line : List Byte) (col : Nat) : Prop :=
  ∃ piece, (opts.pieces false line)[col]? = some piece ∧ Pieces.start (opts.pieces false line) col < 65536 ∧
    piece.length < 65536

/-- Any number of positions of other rows is stored. -/
def StoresOtherRows (row : Nat) : Cache D → Cache D → Prop :=
  Relation.ReflTransGen fun cache cache' =>
    ∃ pairs cols row', row' ≠ row ∧ noDBCacheSetPMPairVector cache pairs cols row' = some cache'

/-- **The pair that is read back is the position of the column.**  The parser has accepted the line and left
`attributes`; these are stored for a row, with other columns, and read back later. -/
def StoresPositions (D : Type) (opts : CsvOptions) (line : List Byte) (attributes : Nat → PMPair) (col : Nat) : Prop :=
  ∀ (cache cache' later : Cache D) (cols cols' : List Nat) (row : Nat) (junk : Nat → Nat → PMPair)
    (pairs pairs' : Nat → PMPair), col ∈ cols → noDBCacheSetPMPairVector cache attributes cols row = some cache' →
      StoresOtherRows row cache' later → col ∈ cols' → noDBCacheGetPMPairVector junk later pairs cols' row = some pairs' →
      IsPosition opts line col (pairs' col)

/-! ### Storing and reading back -/

variable {cache cache' : Cache D} {row : Nat}

theorem cells_noDBCacheSetPMPairVector {pairs : Nat → PMPair} {cols : List Nat}
    (stored : noDBCacheSetPMPairVector cache pairs cols row = some cache') (c r : Nat) :
    cache'.cells c r = if r = row ∧ c ∈ cols then .pair (pairs c) else cache.cells c r := by
  unfold noDBCacheSetPMPairVector Cache.setCells at stored
  split at stored
  · cases stored
    rfl
  · cases stored

theorem StoresOtherRows.cells (others : StoresOtherRows row cache cache') (c : Nat) :
    cache'.cells c row = cache.cells c row := by
  induction others with
  | refl => rfl
  | tail _ step ih =>
    obtain ⟨pairs, cols, row', other, stored⟩ := step
    rw [cells_noDBCacheSetPMPairVector stored]
    exact (if_neg fun here => other here.1.symm).trans ih

/-- A stored pair is read back as it is. -/
theorem noDBCacheGetPMPairVector_stored {later : Cache D} {cols cols' : List Nat} {col : Nat}
    {junk : Nat → Nat → PMPair} {attributes pairs pairs' : Nat → PMPair} (mem : col ∈ cols)
    (stored : noDBCacheSetPMPairVector cache attributes cols row = some cache')
    (others : StoresOtherRows row cache' later) (mem' : col ∈ cols')
    (read : noDBCacheGetPMPairVector junk later pairs cols' row = some pairs') : pairs' col = attributes col := by
  unfold noDBCacheGetPMPairVector Cache.getCells at read
  split at read
  · obtain rfl := Option.some.inj read
    change (if col ∈ cols' then Cell.pairOr (junk col row) (later.cells col row) else pairs col) = attributes col
    rw [if_pos mem', others.cells, cells_noDBCacheSetPMPairVector stored, if_pos ⟨rfl, mem⟩]
    rfl
  · cases read

/-- A cache with room for one row. -/
def oneRowCache (D : Type) : Cache D := { noDBCacheInit .positions 0 64 with maxRows := some 1 }

/-- So the map adds nothing to what the parser has left. -/
theorem storesPositions_iff_isPosition {line : List Byte} {attributes : Nat → PMPair} {col : Nat} :
    StoresPositions D opts line attributes col ↔ IsPosition opts line col (attributes col) := by
  constructor
  · intro stores
    have stored : noDBCacheSetPMPairVector (oneRowCache D) attributes [col] 0 = some { oneRowCache D with
        cells := fun c r => if r = 0 ∧ c ∈ [col] then .pair (attributes c) else .unwritten } := rfl
    have position := stores _ _ _ [col] [col] 0 (fun _ _ => ⟨0, 0⟩) attributes _ (by simp) stored .refl (by simp) rfl
    simpa [Cell.pairOr] using position
  · intro position cache cache' later cols cols' row junk pairs pairs' mem stored others mem' read
    rw [noDBCacheGetPMPairVector_stored mem stored others mem' read]
    exact position

/-! ### What the parser leaves -/

theorem toNat_ofNat16_eq_iff {n : Nat} : (UInt16.ofNat n).toNat = n ↔ n < 65536 := by
  rw [UInt16.toNat_ofNat']
  omega

/-- A field of 65536 bytes, and the field `b` behind it. -/
def longRecord : List Byte := List.replicate 65536 97 ++ commaFormat.options.delim :: [98]

theorem pieces_longRecord : commaFormat.options.pieces false longRecord = [List.replicate 65536 97, [98]] := by
  have text : ∀ {n : Nat} (rest : List Byte), commaFormat.options.pieces false
      (List.replicate n 97 ++ commaFormat.options.delim :: rest) =
        List.replicate n 97 :: commaFormat.options.pieces false rest := by
    intro n rest
    induction n with
    | zero => exact CsvOptions.pieces_delim rest (by decide)
    | succ n ih =>
      rw [replicate_succ, cons_append, CsvOptions.pieces_inside fun _ => by decide,
        CsvOptions.nextQuoted_other (by decide), ih]
      rfl
  exact text [98]

end PostgresRaw
