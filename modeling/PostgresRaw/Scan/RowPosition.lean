import PostgresRaw.Reader.PlainFile
import PostgresRaw.Reader.Position
import PostgresRaw.Scan.Cursor

/-!
# File position and row counter

A scan counts the rows it has delivered (`processed`) and the lines it has read (`tupleRead`).
Nodes that are served from caches only move the first counter, and `NoDBUpdateStrategy` catches up
with a seek at their end.  The seek is relative to the position of `copy_file`, which is behind the
bytes that have been read ahead into `raw_buf`, and the buffer is thrown away.  It therefore ends
at the right line only if the buffer was empty, and it is not made at all if the EOL cache does
not know all rows that were skipped.

`Cursor.placed_line` says that the next line is the one of the row counter in every run in which no
node of caches only starts with bytes in the buffer or goes beyond the EOL cache.
-/

namespace PostgresRaw

open List

/-- The seek at the end of a node of caches only starts from the right place and is made: no bytes
have been read ahead, and the EOL cache has the lengths of all rows of the node. -/
def Cursor.CanSkip (c : Cursor) : Prop :=
  c.cacheOnly = true →
    c.input.rawBuf = [] ∧ (c.processed : Int) + c.nRows ≤ c.input.eolCache.usedRows

/-- The EOL cache holds the true lengths of the first lines, which then fit a `short int`. -/
structure TrueLengths (src : Source) (eol : EolCache) : Prop where
  known : eol.usedRows ≤ (readableLines src.encoding src.file).lines.length
  lengths : ∀ r raw, r < eol.usedRows → (readableLines src.encoding src.file).lines[r]? = some raw →
    eol.lengths r = raw.length ∧ raw.length ≤ 32767

/-! ### Places in the file -/

section Places

/-- The lines `p`, .., `known - 1`. -/
def ReadableLines.slice (readable : ReadableLines) (p known : Nat) : List (List Byte) :=
  (readable.lines.drop p).take (known - p)

variable {readable : ReadableLines} {p known : Nat}

theorem ReadableLines.slice_length (le : known ≤ readable.lines.length) :
    (readable.slice p known).length = known - p := by
  rw [ReadableLines.slice, length_take, length_drop]
  omega

theorem ReadableLines.slice_cons (before : p < known) {raw : List Byte} (line : readable.lines[p]? = some raw) :
    readable.slice p known = raw :: readable.slice (p + 1) known := by
  obtain ⟨inside, rfl⟩ := List.getElem?_eq_some_iff.1 line
  rw [ReadableLines.slice, drop_eq_getElem_cons inside, show known - p = known - (p + 1) + 1 by omega]
  rfl

theorem ReadableLines.slice_append (le : p ≤ known) :
    (readable.slice p known).flatten ++ readable.from known = readable.from p := by
  have split : readable.lines.drop p = readable.slice p known ++ readable.lines.drop known := drop_split _ le
  rw [ReadableLines.from, ReadableLines.from, split, flatten_append, append_assoc]

theorem ReadableLines.getElem?_slice {k : Nat} {raw : List Byte} (line : (readable.slice p known)[k]? = some raw) :
    p + k < known ∧ readable.lines[p + k]? = some raw := by
  have less : k < known - p := by
    have := (List.getElem?_eq_some_iff.1 line).1
    rw [ReadableLines.slice, length_take] at this
    omega
  rw [ReadableLines.slice, getElem?_take_of_lt less, getElem?_drop] at line
  exact ⟨by omega, line⟩

end Places

section Position

variable {src : Source} {eol : EolCache}

variable (src eol) in
/-- The reader is at line `p`, and goes on by length. -/
structure AtByLength (s : RawInput) (p : Nat) : Prop where
  inside : p ≤ eol.usedRows
  batch : BatchInv src s p ((readableLines src.encoding src.file).slice p eol.usedRows)
    ((readableLines src.encoding src.file).from eol.usedRows)
  tupleRead : s.tupleRead = p
  style : s.eolType = .unknown

variable (src) in
/-- The reader is at line `p`, and looks for the ends of lines. -/
structure AtPlain (s : RawInput) (p : Nat) : Prop where
  unread : s.unread src = (readableLines src.encoding src.file).from p
  tupleRead : s.tupleRead = p
  used : s.eolCache.usedRows = p
  style : s.eolType = .unknown ∨ 0 < p ∧ s.eolType = (readableLines src.encoding src.file).eolType

variable (src eol) in
/-- The reader is at line `p`: by length as long as the EOL cache that the scan found has lengths. -/
def AtLine (s : RawInput) (p : Nat) : Prop :=
  p < eol.usedRows ∧ AtByLength src eol s p ∨ eol.usedRows ≤ p ∧ AtPlain src s p

variable {p : Nat} {s : RawInput} {raw : List Byte} {c c' : Cursor} {n : NodeShape} {how : RowEnd}

theorem AtLine.tupleRead (line : AtLine src eol s p) : s.tupleRead = p := by
  rcases line with ⟨-, byLength⟩ | ⟨-, plain⟩
  · exact byLength.tupleRead
  · exact plain.tupleRead

/-- The position depends on the EOL cache only through lengths and used rows. -/
theorem AtLine.congr (line : AtLine src eol s p) {eolCache : EolCache} (lengths : eolCache.lengths = s.eolCache.lengths)
    (used : eolCache.usedRows = s.eolCache.usedRows) : AtLine src eol { s with eolCache := eolCache } p := by
  rcases line with ⟨before, byLength⟩ | ⟨behind, plain⟩
  · refine .inl ⟨before, byLength.inside, ⟨byLength.batch.passed, ?_, byLength.batch.stored, byLength.batch.buffered,
      byLength.batch.file⟩, byLength.tupleRead, byLength.style⟩
    have recorded := byLength.batch.recorded
    refine ⟨fun k raw here => ?_, recorded.short, recorded.positive, used.trans recorded.used⟩
    exact (congrFun lengths _).trans (recorded.holds k raw here)
  · exact .inr ⟨behind, plain.unread, plain.tupleRead, used.trans plain.used, plain.style⟩

theorem TrueLengths.fresh (lengths : TrueLengths src eol) (noHeader : src.headerLine = false) :
    AtLine src eol (.fresh eol) 0 := by
  have whole := readableLines_from_zero src.encoding src.file
  rcases Nat.eq_zero_or_pos eol.usedRows with zero | positive
  · exact .inr ⟨zero.le, whole.symm, rfl, zero, .inl rfl⟩
  · refine .inl ⟨positive, positive.le, ⟨.inl noHeader, ⟨fun k raw here => ?_, fun raw mem => ?_, fun raw mem => ?_, ?_⟩,
      Nat.zero_le _, rfl, ?_⟩, rfl, rfl⟩
    · obtain ⟨less, line⟩ := ReadableLines.getElem?_slice here
      exact (lengths.lengths _ raw less line).1
    · obtain ⟨k, inside, rfl⟩ := mem_iff_getElem.1 mem
      obtain ⟨less, line⟩ := ReadableLines.getElem?_slice (getElem?_eq_getElem inside)
      exact (lengths.lengths _ _ less line).2
    · exact readableLinesFrom_positive (mem_of_mem_drop (mem_of_mem_take mem))
    · rw [ReadableLines.slice_length lengths.known]
      exact (zero_add _).symm
    · exact whole.symm.trans (ReadableLines.slice_append (Nat.zero_le _)).symm

/-! ### What moves the reader -/

/-- A known line is read by its length. -/
theorem AtByLength.line (line : AtByLength src eol s p) (before : p < eol.usedRows)
    (here : (readableLines src.encoding src.file).lines[p]? = some raw) :
    ∃ s', noDBCopyReadLineTextWithEOL src p { s with lineBuf := [] } = (.line, s') ∧ s'.lineBuf = raw ∧
      AtByLength src eol { s' with lineBuf := [], tupleRead := s'.tupleRead + 1 } (p + 1) := by
  have batch := line.batch
  rw [ReadableLines.slice_cons before here] at batch
  obtain ⟨s', call, batch', lineBuf, -, style, -, tupleRead⟩ :=
    noDBCopyReadLineTextWithEOL_line (s := { s with lineBuf := [] })
      ⟨batch.passed, batch.recorded, batch.stored, batch.buffered, batch.file⟩
  refine ⟨s', call, lineBuf, before, ?_, ?_, style.trans line.style⟩
  · exact ⟨batch'.passed, batch'.recorded, batch'.stored, batch'.buffered, batch'.file⟩
  · exact congrArg (· + 1) (tupleRead.trans line.tupleRead)

/-- Behind the known lines the reader looks for the ends of lines. -/
theorem AtByLength.plain (line : AtByLength src eol s eol.usedRows) : AtPlain src s eol.usedRows := by
  have batch := line.batch
  rw [ReadableLines.slice, Nat.sub_self, take_zero] at batch
  refine ⟨?_, line.tupleRead, batch.recorded.used, .inl line.style⟩
  rw [RawInput.unread, batch.buffered, batch.file]
  simp

/-- The next line is found by looking for its end. -/
theorem AtPlain.line (line : AtPlain src s p) (noHeader : src.headerLine = false)
    (apart : (readableLines src.encoding src.file).Apart)
    (here : (readableLines src.encoding src.file).lines[p]? = some raw) :
    (noDBCopyReadLineText src { s with lineBuf := [] }).1 = .line ∧
      (noDBCopyReadLineText src { s with lineBuf := [] }).2.lineBuf = raw ∧
      ∃ s', noDBGetNextTupleFromFile src p s = (.line, s') ∧ AtPlain src { s' with lineBuf := [] } (p + 1) := by
  obtain ⟨l, scans⟩ :=
    readableLines_scansAt_of_style apart (List.getElem?_eq_some_iff.1 here).1 line.style
  have scan := scans.scan
  rw [← line.unread] at scan
  have reads := noDBCopyReadLineText_reads (s := { s with lineBuf := [] }) (.inl noHeader)
  rw [show ({ s with lineBuf := [] } : RawInput).unread src = s.unread src from rfl, scan] at reads
  obtain ⟨s', call, delivers⟩ := noDBGetNextTupleFromFile_line (.inl noHeader) scan p scans.result
  refine ⟨reads.result.trans scans.result, ?_, s', call, ?_⟩
  · rw [reads.lineBuf (by simp [scans.result])]
    exact Option.some.inj (scans.line.symm.trans here)
  · refine ⟨delivers.unread.trans scans.rest, ?_, ?_, .inr ⟨Nat.succ_pos p, delivers.eolType.trans scans.eolType⟩⟩
    · exact delivers.tupleRead.trans (congrArg (· + 1) line.tupleRead)
    · exact congrArg EolCache.usedRows delivers.eolCache

/-- The bytes that the seek skips are those of the lines between. -/
theorem noDBComputeBytesToSeek_eq {cache : EolCache} {i : Nat} {raws : List (List Byte)}
    (holds : HoldsLengths cache i raws) {k : Nat} (le : k ≤ raws.length) :
    noDBComputeBytesToSeek cache i (i + k) = ((raws.take k).flatten.length : Nat) := by
  rw [noDBComputeBytesToSeek, Nat.add_sub_cancel_left]
  induction k generalizing i raws with
  | zero => rfl
  | succ k ih =>
    cases raws with
    | nil => cases le
    | cons raw raws =>
      have first : cache.lengths i = raw.length := by simpa using holds 0 raw rfl
      rw [range'_succ, map_cons, sum_cons, ih holds.tail (Nat.le_of_succ_le_succ le), first]
      simp

theorem Recorded.drop {cache : EolCache} {i : Nat} {raws : List (List Byte)} (recorded : Recorded cache i raws)
    {k : Nat} (le : k ≤ raws.length) : Recorded cache (i + k) (raws.drop k) := by
  refine ⟨recorded.holds.drop k, fun raw mem => recorded.short raw (mem_of_mem_drop mem),
    fun raw mem => recorded.positive raw (mem_of_mem_drop mem), ?_⟩
  rw [recorded.used, length_drop]
  omega

/-- **The seek catches up with the row counter** if nothing has been read ahead. -/
theorem AtByLength.seek {t : Nat} (line : AtByLength src eol s t) (noHeader : src.headerLine = false)
    (unbuffered : s.tupleStored = 0) (skipped : t < p) (known : p ≤ eol.usedRows) (lengths : TrueLengths src eol) :
    AtByLength src eol (seekToRow src.headerLine p s) p := by
  have batch := line.batch
  have count := ReadableLines.slice_length (p := t) lengths.known
  have used : s.eolCache.usedRows = eol.usedRows := by
    rw [batch.recorded.used, count]
    omega
  obtain ⟨k, rfl⟩ : ∃ k, p = t + k := ⟨p - t, by omega⟩
  have inside : k ≤ ((readableLines src.encoding src.file).slice t eol.usedRows).length := by omega
  have later : (readableLines src.encoding src.file).slice (t + k) eol.usedRows =
      ((readableLines src.encoding src.file).slice t eol.usedRows).drop k := by
    rw [ReadableLines.slice, ReadableLines.slice, drop_take, drop_drop, Nat.sub_sub]
  have bytes := noDBComputeBytesToSeek_eq batch.recorded.holds inside
  have moves : s.tupleRead ≠ t + k ∧ t + k ≤ s.eolCache.usedRows := by
    rw [line.tupleRead, used]
    omega
  rw [seekToRow, if_pos moves]
  refine ⟨known, ⟨.inl noHeader, ?_, Nat.zero_le _, rfl, ?_⟩, rfl, line.style⟩
  · rw [later]
    exact batch.recorded.drop inside
  · have file := batch.file
    rw [unbuffered, drop_zero,
      ← take_append_drop k ((readableLines src.encoding src.file).slice t eol.usedRows), flatten_append,
      append_assoc] at file
    have target : fseekCur s.pos (noDBComputeBytesToSeek s.eolCache t (t + k)) = s.pos +
        ((((readableLines src.encoding src.file).slice t eol.usedRows).take k).flatten).length := by
      rw [bytes, fseekCur, if_pos (by omega)]
      omega
    simp only [noHeader, line.tupleRead, Bool.false_eq_true, false_and, or_self, if_false, target]
    rw [← drop_drop, file, drop_left, later, drop_zero]

/-- Looking ahead changes nothing where lengths are known. -/
theorem AtByLength.lookAhead (line : AtByLength src eol s p) (before : p < eol.usedRows) (lengths : TrueLengths src eol) :
    s.lookAhead src = some (false, s) := by
  have used := line.batch.recorded.used
  rw [ReadableLines.slice_length lengths.known] at used
  rw [RawInput.lookAhead, if_neg]
  rw [line.tupleRead, used]
  omega

/-- Looking ahead fills an empty buffer, and finds bytes if there is a line left. -/
theorem AtPlain.lookAhead (line : AtPlain src s p) (noHeader : src.headerLine = false)
    (inside : p < (readableLines src.encoding src.file).lines.length) :
    ∃ s', s.lookAhead src = some (false, s') ∧ AtPlain src s' p := by
  have bytes : (readableLines src.encoding src.file).from p ≠ [] := by
    have here := getElem?_eq_getElem inside
    have positive := readableLinesFrom_positive (mem_of_getElem? here)
    rw [ReadableLines.from_eq_append here]
    exact fun empty => by simp [append_eq_nil_iff.1 empty |>.1] at positive
  have behind : s.eolCache.usedRows ≤ s.tupleRead := by rw [line.used, line.tupleRead]
  rw [RawInput.lookAhead, if_pos behind, noDBTryReFillRawBuf]
  by_cases empty : s.rawBuf = []
  · have unread := line.unread
    rw [RawInput.unread, empty, nil_append] at unread
    generalize data : src.fread s.pos (rawBufSize - s.rawBuf.length) = read
    have some_read : read ≠ [] := by
      rw [← data, Source.fread, unread, empty]
      simp [rawBufSize, bytes]
    refine ⟨{ s with pos := s.pos + read.length, rawBuf := read }, ?_, ?_, line.tupleRead, line.used, line.style⟩
    · rw [if_pos empty, noDBCopyLoadRawBuf_eq (.inl noHeader), data]
      simp [empty, some_read]
    · rw [RawInput.unread, ← unread]
      simp only
      rw [← data, fread_append_drop]
  · exact ⟨s, by rw [if_neg empty], line⟩

/-! ### Nodes -/

variable (src eol) in
/-- At the start of a node. -/
structure AtStart (c : Cursor) : Prop where
  line : AtLine src eol c.input c.processed
  nEOL : c.nEOL = max ((eol.usedRows : Int) - c.processed) 0
  readFile : c.readFile = noDBGetReadFile c.nEOL
  positive : 0 < c.nRows
  ahead : c.tuplesToRead =
    if c.cacheOnly = false ∧ 0 < c.nEOL then if c.nEOL < c.nRows then c.nEOL else c.nRows else c.nRows
  nMin : c.nMin = c.tuplesToRead

variable (eol) in
/-- The counters in a node that reads the file: the rows ahead are those of the node, but no more
than the EOL cache has lengths for if it has any. -/
structure FileCounters (c : Cursor) : Prop where
  cacheOnly : c.cacheOnly = false
  readFile : c.readFile = noDBGetReadFile c.nEOL
  ahead : 0 < c.nMin ∧ c.nMin ≤ c.tuplesToRead ∧ c.tuplesToRead ≤ c.nRows
  known :
    (0 < c.nEOL ∧ c.nEOL - (c.tuplesToRead - c.nMin) = eol.usedRows - c.processed ∧ c.tuplesToRead ≤ c.nEOL ∧
        (c.tuplesToRead = c.nRows ∨ c.tuplesToRead = c.nEOL)) ∨
      (c.nEOL = 0 ∧ eol.usedRows ≤ c.processed ∧ c.tuplesToRead = c.nRows)

variable (src eol) in
/-- In a node that reads the file. -/
structure InFile (c : Cursor) : Prop where
  counters : FileCounters eol c
  line : AtLine src eol c.input c.processed

variable (src eol) in
/-- In a node of caches only: the reader has stayed behind, at a line of known length and with an
empty buffer. -/
structure InCache (c : Cursor) : Prop where
  cacheOnly : c.cacheOnly = true
  line : AtByLength src eol c.input c.input.tupleRead
  unbuffered : c.input.tupleStored = 0
  behind : c.input.tupleRead ≤ c.processed
  readFile : c.readFile = .fromFileWithEOL
  ahead : 0 < c.nMin ∧ c.nMin ≤ c.tuplesToRead ∧ c.tuplesToRead = c.nRows
  counters : 0 < c.nEOL ∧ c.nEOL - (c.tuplesToRead - c.nMin) = eol.usedRows - c.processed ∧ c.tuplesToRead ≤ c.nEOL

theorem TrueLengths.atStart (lengths : TrueLengths src eol) (noHeader : src.headerLine = false) (n : NodeShape) :
    AtStart src eol (.start n eol) where
  line := lengths.fresh noHeader
  nEOL := by simp [Cursor.start]
  readFile := rfl
  positive := Int.natCast_pos.2 n.positive
  ahead := rfl
  nMin := rfl

/-- A buffer that is empty holds no lines. -/
theorem AtByLength.stored_eq_zero (line : AtByLength src eol s p) (empty : s.rawBuf = []) : s.tupleStored = 0 := by
  by_contra stored
  have buffered := line.batch.buffered
  have inside := line.batch.stored
  have positive := line.batch.recorded.positive
  generalize (readableLines src.encoding src.file).slice p eol.usedRows = raws at buffered inside positive
  cases raws with
  | nil => exact stored (Nat.le_zero.1 inside)
  | cons raw raws =>
    obtain ⟨k, more⟩ : ∃ k, s.tupleStored = k + 1 := ⟨s.tupleStored - 1, by omega⟩
    rw [empty, more, take_succ_cons, flatten_cons] at buffered
    have := positive raw (by simp)
    simp [(append_eq_nil_iff.1 buffered.symm).1] at this

/-- The first row of a node. -/
theorem AtStart.inNode (start : AtStart src eol c) (lengths : TrueLengths src eol) (skips : c.CanSkip) :
    InFile src eol c ∨ InCache src eol c := by
  obtain ⟨line, nEOL, readFile, positive, ahead, nMin⟩ := start
  cases kind : c.cacheOnly with
  | false =>
    refine .inl ⟨⟨kind, readFile, ?_, ?_⟩, line⟩
    · rw [kind] at ahead
      split at ahead
      · split at ahead <;> omega
      · omega
    · rw [kind] at ahead
      by_cases known : 0 < c.nEOL
      · rw [if_pos ⟨rfl, known⟩] at ahead
        refine .inl ⟨known, by omega, ?_, ?_⟩
        · split at ahead <;> omega
        · split at ahead <;> omega
      · rw [if_neg fun both => known both.2] at ahead
        exact .inr ⟨by omega, by omega, ahead⟩
  | true =>
    obtain ⟨empty, known⟩ := skips kind
    rw [kind, if_neg (by simp)] at ahead
    rcases line with ⟨before, byLength⟩ | ⟨-, plain⟩
    · have used := byLength.batch.recorded.used
      rw [ReadableLines.slice_length lengths.known] at used
      refine .inr ⟨kind, byLength.tupleRead ▸ byLength, byLength.stored_eq_zero empty, byLength.tupleRead.le, ?_,
        by omega, by omega⟩
      rw [readFile, noDBGetReadFile, if_pos (by omega)]
    · have := plain.used
      omega

/-- Behind the last row that the EOL cache has, the reader is as good as the plain one. -/
theorem AtByLength.atLine {s : RawInput} {row : Nat} (there : AtByLength src eol s row) (le : row ≤ eol.usedRows) :
    AtLine src eol s row := by
  rcases lt_or_eq_of_le le with before | rfl
  · exact .inl ⟨before, there⟩
  · exact .inr ⟨le_rfl, there.plain⟩

/-- **The end of a node**, if the seek has brought the reader to the row counter and there is a line
left. -/
theorem endNode_atStart (lengths : TrueLengths src eol) (noHeader : src.headerLine = false)
    (line : AtLine src eol (seekToRow src.headerLine c.processed c.input) c.processed)
    (inside : c.processed < (readableLines src.encoding src.file).lines.length)
    (nEOL : c.nEOL = max ((eol.usedRows : Int) - c.processed) 0) (readFile : c.readFile = noDBGetReadFile c.nEOL)
    (n : NodeShape) : ∃ c', c.endNode src n = some (.entered, c') ∧ AtStart src eol c' := by
  obtain ⟨input, looked, there⟩ : ∃ input, (seekToRow src.headerLine c.processed c.input).lookAhead src =
      some (false, input) ∧ AtLine src eol input c.processed := by
    rcases line with ⟨before, byLength⟩ | ⟨behind, plain⟩
    · exact ⟨_, byLength.lookAhead before lengths, .inl ⟨before, byLength⟩⟩
    · obtain ⟨input, looked, there⟩ := plain.lookAhead noHeader inside
      exact ⟨input, looked, .inr ⟨behind, there⟩⟩
  refine ⟨Cursor.enter n { c with input := input }, by simp [Cursor.endNode, looked], ?_, nEOL, readFile,
    Int.natCast_pos.2 n.positive, rfl, rfl⟩
  refine there.congr ?_ ?_
  · unfold extendEol
    split <;> rfl
  · unfold extendEol
    split <;> rfl

@[simp] theorem Cursor.counted_nMin (c : Cursor) : c.counted.nMin = c.nMin - 1 := rfl

/-- **The counters once the rows ahead have been delivered**: those of the EOL cache are the rows it
has behind the row counter. -/
theorem Cursor.countDown_eq {c : Cursor} (positive : 0 < c.nRows) (readFile : c.readFile = noDBGetReadFile c.nEOL)
    (last : c.nMin - 1 = 0) (known : (0 < c.nEOL ∧ c.nEOL - (c.tuplesToRead - c.nMin) = eol.usedRows - c.processed ∧
        c.tuplesToRead ≤ c.nEOL) ∨ (c.nEOL = 0 ∧ eol.usedRows ≤ c.processed)) :
    c.counted.countDown.nRows = c.nRows - c.tuplesToRead ∧
      c.counted.countDown.nEOL = max ((eol.usedRows : Int) - (c.processed + 1 : Nat)) 0 ∧
      c.counted.countDown.readFile = noDBGetReadFile c.counted.countDown.nEOL := by
  have nEOL : c.counted.countDown.nEOL = max ((eol.usedRows : Int) - (c.processed + 1 : Nat)) 0 := by
    change (if 0 < c.nEOL then c.nEOL - c.tuplesToRead else c.nEOL) = _
    split <;> omega
  refine ⟨if_pos positive, nEOL, ?_⟩
  by_cases zero : c.counted.countDown.nEOL = 0
  · exact if_pos zero
  · have kept : c.counted.countDown.readFile = c.readFile := if_neg zero
    rw [kept, readFile, noDBGetReadFile, noDBGetReadFile, if_pos (by omega), if_pos (by omega)]

section

variable (lengths : TrueLengths src eol) (noHeader : src.headerLine = false)
  (inside : c.processed + 1 < (readableLines src.encoding src.file).lines.length)
  (step : c.advance src n = some (how, c'))

include lengths noHeader inside step

/-- A row of a node that reads the file, once its line has been read. -/
theorem FileCounters.advance (counters : FileCounters eol c) (line : AtLine src eol c.input (c.processed + 1)) :
    how = .inside ∧ InFile src eol c' ∨ how = .entered ∧ AtStart src eol c' := by
  obtain ⟨cacheOnly, readFile, ahead, known⟩ := counters
  unfold Cursor.advance at step
  split at step
  · next last =>
    obtain ⟨nRows, nEOL, readFile'⟩ := @Cursor.countDown_eq eol c (by omega) readFile last (by omega)
    unfold Cursor.update at step
    split at step
    · have stays : seekToRow src.headerLine (c.processed + 1) c.input = c.input := by
        rw [seekToRow, if_neg fun moves => moves.1 line.tupleRead]
      obtain ⟨c'', entered, start⟩ := endNode_atStart lengths noHeader
        (show AtLine src eol (seekToRow src.headerLine (c.processed + 1) c.input) (c.processed + 1) by rwa [stays])
        inside nEOL readFile' n
      cases entered.symm.trans step
      exact .inr ⟨rfl, start⟩
    · -- The rows of known length end within the node.
      next goesOn =>
        cases step
        rw [Cursor.counted_nMin] at last
        refine .inl ⟨rfl, ⟨cacheOnly, readFile', ?_, .inr ?_⟩, line⟩
        · change 0 < c.counted.countDown.nRows ∧ c.counted.countDown.nRows ≤ c.counted.countDown.nRows ∧
            c.counted.countDown.nRows ≤ c.counted.countDown.nRows
          omega
        · change c.counted.countDown.nEOL = 0 ∧ eol.usedRows ≤ c.processed + 1 ∧
            c.counted.countDown.nRows = c.counted.countDown.nRows
          omega
  · next more =>
    cases step
    rw [Cursor.counted_nMin] at more
    refine .inl ⟨rfl, ⟨cacheOnly, readFile, ?_, ?_⟩, line⟩
    · change 0 < c.nMin - 1 ∧ c.nMin - 1 ≤ c.tuplesToRead ∧ c.tuplesToRead ≤ c.nRows
      omega
    · change (0 < c.nEOL ∧ c.nEOL - (c.tuplesToRead - (c.nMin - 1)) = eol.usedRows - ((c.processed + 1 : Nat) : Int) ∧
        c.tuplesToRead ≤ c.nEOL ∧ (c.tuplesToRead = c.nRows ∨ c.tuplesToRead = c.nEOL)) ∨
          (c.nEOL = 0 ∧ eol.usedRows ≤ c.processed + 1 ∧ c.tuplesToRead = c.nRows)
      omega

/-- A row of a node of caches only. -/
theorem InCache.advance (cache : InCache src eol c) :
    how = .inside ∧ InCache src eol c' ∨ how = .entered ∧ AtStart src eol c' := by
  obtain ⟨cacheOnly, line, unbuffered, behind, readFile, ahead, counters⟩ := cache
  have byLength : c.readFile = noDBGetReadFile c.nEOL := by
    rw [readFile, noDBGetReadFile, if_pos counters.1]
  unfold Cursor.advance at step
  split at step
  · next last =>
    obtain ⟨nRows, nEOL, readFile'⟩ := @Cursor.countDown_eq eol c (by omega) byLength last (by omega)
    rw [Cursor.counted_nMin] at last
    rw [Cursor.update, if_pos (by omega)] at step
    have there : AtByLength src eol (seekToRow src.headerLine (c.processed + 1) c.input) (c.processed + 1) :=
      line.seek noHeader unbuffered (by omega) (by omega) lengths
    obtain ⟨c'', entered, start⟩ := endNode_atStart lengths noHeader (there.atLine (by omega)) inside nEOL readFile' n
    cases entered.symm.trans step
    exact .inr ⟨rfl, start⟩
  · next more =>
    cases step
    rw [Cursor.counted_nMin] at more
    refine .inl ⟨rfl, cacheOnly, line, unbuffered, Nat.le_succ_of_le behind, readFile, ?_, ?_⟩
    · change 0 < c.nMin - 1 ∧ c.nMin - 1 ≤ c.tuplesToRead ∧ c.tuplesToRead = c.nRows
      omega
    · change 0 < c.nEOL ∧ c.nEOL - (c.tuplesToRead - (c.nMin - 1)) = eol.usedRows - ((c.processed + 1 : Nat) : Int) ∧
        c.tuplesToRead ≤ c.nEOL
      omega

end

/-! ### Runs -/

/-- In a node that reads the file, the next line is the one of the row counter. -/
theorem InFile.line_read (file : InFile src eol c) (noHeader : src.headerLine = false)
    (apart : (readableLines src.encoding src.file).Apart)
    (here : (readableLines src.encoding src.file).lines[c.processed]? = some raw) : c.placed src = (.line, raw) ∧
      ∃ input, c.read src = (.line, input) ∧ AtLine src eol { input with lineBuf := [] } (c.processed + 1) := by
  obtain ⟨counters, line⟩ := file
  have ahead := counters.ahead
  have known := counters.known
  unfold Cursor.placed Cursor.read
  rw [counters.readFile, noDBGetReadFile]
  rcases line with ⟨before, byLength⟩ | ⟨behind, plain⟩
  · rw [if_pos (by omega)]
    obtain ⟨s', call, lineBuf, there⟩ := byLength.line before here
    refine ⟨by simp only [call, lineBuf], { s' with
      lineBuf := src.convert (stripTerminator s'.lineBuf), tupleRead := s'.tupleRead + 1 },
      by simp only [noDBGetNextTupleFromFileWithEOL, call], there.atLine before⟩
  · rw [if_neg (by omega)]
    obtain ⟨result, lineBuf, s', call, there⟩ := plain.line noHeader apart here
    refine ⟨?_, s', call, .inr ⟨by omega, there⟩⟩
    simp only
    rw [← result, ← lineBuf]

/-- Every row is counted. -/
theorem Cursor.row_processed (step : c.row src n = some (how, c')) : c'.processed = c.processed + 1 := by
  have advances : ∀ {c c' : Cursor}, c.advance src n = some (how, c') → c'.processed = c.processed + 1 := by
    intro c c' step
    unfold Cursor.advance at step
    split at step
    · unfold Cursor.update at step
      split at step
      · obtain ⟨⟨ended, input⟩, -, result⟩ := Option.map_eq_some_iff.1 step
        cases ended <;> cases result <;> rfl
      · cases step
        rfl
    · cases step
      rfl
  unfold Cursor.row at step
  split at step
  · exact advances step
  · split at step
    · have counted := advances step
      exact counted
    · cases step

/-- **The position follows the row counter** in every state that is reached, as long as there are
lines. -/
theorem Cursor.Reaches.atLine {atStart : Bool} (reaches : Reaches src eol CanSkip atStart c)
    (lengths : TrueLengths src eol) (noHeader : src.headerLine = false)
    (apart : (readableLines src.encoding src.file).Apart)
    (inside : c.processed < (readableLines src.encoding src.file).lines.length) : (atStart = true → AtStart src eol c) ∧
      (atStart = false → InFile src eol c ∨ InCache src eol c) := by
  induction reaches with
  | start n => exact ⟨fun _ => lengths.atStart noHeader n, fun isFalse => by cases isFalse⟩
  | @row atStart c c' how n before skips step ih =>
    rw [Cursor.row_processed step] at inside
    obtain ⟨first, later⟩ := ih (by omega)
    have inNode : InFile src eol c ∨ InCache src eol c := by
      cases atStart with
      | false => exact later rfl
      | true => exact (first rfl).inNode lengths (skips rfl)
    have next : how = .inside ∧ (InFile src eol c' ∨ InCache src eol c') ∨ how = .entered ∧ AtStart src eol c' := by
      rcases inNode with file | cache
      · obtain ⟨-, input, read, there⟩ := file.line_read noHeader apart (getElem?_eq_getElem (by omega))
        have counters := file.counters
        rw [Cursor.row, if_neg (by simp [counters.cacheOnly]), read] at step
        exact (FileCounters.advance (c := { c with input := { input with lineBuf := [] } }) lengths noHeader inside step
          ⟨counters.cacheOnly, counters.readFile, counters.ahead, counters.known⟩ there).imp_left (.imp_right .inl)
      · unfold Cursor.row at step
        rw [if_pos cache.cacheOnly] at step
        exact (InCache.advance lengths noHeader inside step cache).imp_left (.imp_right .inr)
    rcases next with ⟨rfl, inNode⟩ | ⟨rfl, start⟩
    · exact ⟨fun isTrue => (by cases isTrue), fun _ => inNode⟩
    · exact ⟨fun _ => start, fun isFalse => by cases isFalse⟩

/-- **The next line is the one of the row counter** wherever a node that reads the file is executed,
if the nodes of caches only before it could be skipped. -/
theorem Cursor.placed_line (lengths : TrueLengths src eol) (noHeader : src.headerLine = false)
    (apart : (readableLines src.encoding src.file).Apart) {atStart : Bool} {c : Cursor}
    (reaches : Reaches src eol CanSkip atStart c) (file : c.cacheOnly = false) {raw : List Byte}
    (here : (readableLines src.encoding src.file).lines[c.processed]? = some raw) :
    c.placed src = (.line, raw) := by
  obtain ⟨first, later⟩ :=
    reaches.atLine lengths noHeader apart (List.getElem?_eq_some_iff.1 here).1
  have inNode : InFile src eol c ∨ InCache src eol c := by
    cases atStart with
    | false => exact later rfl
    | true => exact (first rfl).inNode lengths fun cache => absurd (file.symm.trans cache) nofun
  rcases inNode with inFile | inCache
  · exact (inFile.line_read noHeader apart here).1
  · exact absurd (file.symm.trans inCache.cacheOnly) nofun

end Position

/-! ### Four lines -/

/-- The lines `a`, `b`, `c` and `d`. -/
def fourLines : Source where
  file := [97, 10, 98, 10, 99, 10, 100, 10]
  headerLine := false
  encoding := plainEncoding
  convert := id

/-- The EOL cache with the lengths of all four lines. -/
def fourLengths : EolCache := ⟨fun _ => 2, 4, 4, 0⟩

theorem trueLengths_fourLines : TrueLengths fourLines fourLengths where
  known := by decide
  lengths r raw _ line := by
    have mem : raw ∈ (readableLines plainEncoding fourLines.file).lines := mem_of_getElem? line
    have all : ∀ raw ∈ (readableLines plainEncoding fourLines.file).lines, raw.length = 2 := by decide
    rw [all raw mem]
    exact ⟨rfl, by decide⟩

/-- The state after a row. -/
def Cursor.after (src : Source) (n : NodeShape) (c : Cursor) : Cursor := ((c.row src n).map (·.2)).getD c

theorem Cursor.row_eq_after {src : Source} {n : NodeShape} {c : Cursor} (how : RowEnd)
    (ends : (c.row src n).map (·.1) = some how) : c.row src n = some (how, c.after src n) := by
  obtain ⟨⟨how', c'⟩, step, rfl⟩ := Option.map_eq_some_iff.1 ends
  rw [Cursor.after, step]
  rfl

/-- A row from the file, and one from caches. -/
def fromFile : NodeShape := ⟨false, 1, Nat.one_pos⟩

def fromCaches : NodeShape := ⟨true, 1, Nat.one_pos⟩

/-- The first row from caches, the second from the file. -/
def skipFirst : Cursor := (Cursor.start fromCaches fourLengths).after fourLines fromFile

/-- The second line is read as the second row. -/
theorem Cursor.placed_line_skipFirst : skipFirst.placed fourLines = (.line, [98, 10]) :=
  Cursor.placed_line trueLengths_fourLines rfl (fun _ => by decide)
    (.row fromFile (.start fromCaches) (fun _ _ => ⟨rfl, by decide⟩) (Cursor.row_eq_after .entered (by decide)))
    (by decide) (by decide)

/-- A row from the file, one from caches, then the file again. -/
def fileCachesFile : Cursor :=
  ((Cursor.start fromFile fourLengths).after fourLines fromCaches).after fourLines fromFile

/-- **Behind a row from caches the wrong line is read** if lines have been read ahead. -/
theorem Cursor.not_placed_line :
    TrueLengths fourLines fourLengths ∧ fourLines.headerLine = false ∧
      (readableLines fourLines.encoding fourLines.file).Apart ∧
      Reaches fourLines fourLengths (fun _ => True) true fileCachesFile ∧ fileCachesFile.cacheOnly = false ∧
      (readableLines fourLines.encoding fourLines.file).lines[fileCachesFile.processed]? = some [99, 10] ∧
      fileCachesFile.placed fourLines ≠ (.line, [99, 10]) :=
  ⟨trueLengths_fourLines, rfl, fun _ => by decide,
    .row fromFile (.row fromCaches (.start fromFile) (fun _ => trivial) (Cursor.row_eq_after .entered (by decide)))
      (fun _ => trivial) (Cursor.row_eq_after .entered (by decide)),
    by decide, by decide, by decide⟩

end PostgresRaw
