import PostgresRaw.Basic

/-!
# Reading a line: `NoDBCopyReadLineText` and the raw buffer

The plain reader of `NoDBExecutor.c`.  It looks for the end of the next line byte by byte,
keeps just enough CSV state to know whether it is inside quotes, recognises the end-of-copy
marker `\.` alone on a line, and refills `raw_buf` whenever it runs out of bytes or of
look-ahead.

One iteration of the loop is `readStep`, a function of the byte, the bytes behind it that are
in the buffer, and `hit_eof`.  It either asks for more data, which undoes the fetch, or says
how many bytes the iteration consumes.  `readLineText` is the loop with its refills.

`raw_buf` is represented by the bytes from `raw_buf_index` to `raw_buf_len`; the source never
reads in front of them again.  Bytes between `raw_buf_index` and `raw_buf_ptr`, which the loop
has already approved for the line, are counted as part of `line_buf`, where `REFILL_LINEBUF`
puts them in the end.
-/

namespace PostgresRaw

/-- `RAW_BUF_SIZE`. -/
def rawBufSize : Nat := 32768

/-- `cstate->eol_type`. -/
inductive EolType where
  | unknown
  | nl
  | cr
  | crnl
deriving DecidableEq, Repr

/-- The errors of the reading functions.  `undefined` stands for reads outside the buffer. -/
inductive ReadError where
  | unquotedCarriageReturn
  | unquotedNewline
  | markerMismatch
  | invalidStringEnlargement
  | undefined
deriving DecidableEq, Repr

/-- What the reader knows of the client encoding: whether a multibyte character may contain
ASCII bytes, and `pg_encoding_mblen`, which is between one and four for every encoding. -/
structure Encoding where
  embedsAscii : Bool
  mblen : Byte → Nat
  mblen_pos : ∀ c, 1 ≤ mblen c
  mblen_le : ∀ c, mblen c ≤ 4

/-- A single-byte encoding, or one whose multibyte characters contain no ASCII bytes. -/
def plainEncoding : Encoding where
  embedsAscii := false
  mblen := fun _ => 1
  mblen_pos := fun _ => Nat.le_refl 1
  mblen_le := fun _ => by decide

/-- `IS_HIGHBIT_SET`. -/
def isHighbitSet (c : Byte) : Bool := 128 ≤ c

/-- The local CSV variables of the loop. -/
structure QuoteState where
  inQuote : Bool
  lastWasEsc : Bool
  firstCharInLine : Bool
deriving DecidableEq, Repr

/-- Their initial values. -/
def QuoteState.start : QuoteState := ⟨false, false, true⟩

/-- The quote and escape bookkeeping for one byte.  The escape byte equals the quote byte, and
`escapec` is then `'\0'`, so that inside quotes a `'\0'` plays the part of the escape. -/
def QuoteState.next (q : QuoteState) (c : Byte) : QuoteState :=
  let lastWasEsc := if q.inQuote ∧ c = nulByte then !q.lastWasEsc else q.lastWasEsc
  let inQuote := if c = defaultQuote ∧ lastWasEsc = false then !q.inQuote else q.inQuote
  { q with
    inQuote := inQuote
    lastWasEsc := if c ≠ nulByte then false else lastWasEsc }

/-- What one iteration of the loop decides; the numbers count the bytes up to the new
`raw_buf_ptr`. -/
inductive ReadStep where
  /-- undo the fetch and load more data -/
  | needData
  /-- the bytes belong to the line -/
  | advance (n : Nat)
  /-- the bytes end the line and fix the line-end style -/
  | endOfLine (n : Nat) (eol : EolType)
  /-- the data ends within a character: `result = true` -/
  | endOfFile (n : Nat)
  /-- the end-of-copy marker, which is discarded: `result = true` -/
  | endOfCopy (n : Nat)
  | error (e : ReadError)
deriving DecidableEq, Repr

/-- The byte `raw_buf_ptr` points at; behind the data there is a `'\0'`. -/
def peek (bytes : List Byte) : Byte := bytes.headD nulByte

/-- The multibyte part of an iteration, below the label `not_end_of_copy`. -/
def multibyteStep (enc : Encoding) (c : Byte) (rest : List Byte) (hitEof : Bool) : ReadStep :=
  if enc.embedsAscii ∧ isHighbitSet c then
    if rest.length ≤ enc.mblen c - 1 then
      if hitEof then
        if enc.mblen c - 1 = 0 then .endOfFile 1 else .endOfFile (1 + rest.length)
      else .needData
    else .advance (enc.mblen c)
  else .advance 1

/-- The check for the end of the line behind `\.`; `rest` starts at the byte to be checked and
`consumed` counts the bytes before it. -/
def markerEnd (eol : EolType) (consumed : Nat) (rest : List Byte) (hitEof : Bool)
    (notEndOfCopy : ReadStep) : ReadStep :=
  if rest = [] ∧ hitEof = false then .needData
  else
    let c2 := peek rest
    if c2 ≠ carriageReturn ∧ c2 ≠ newline then notEndOfCopy
    else if (eol = .nl ∧ c2 ≠ newline) ∨ (eol = .crnl ∧ c2 ≠ newline) ∨
        (eol = .cr ∧ c2 ≠ carriageReturn) then .error .markerMismatch
    else .endOfCopy (consumed + 1)

/-- The part of an iteration for a backslash that is the first byte of its line. -/
def backslashStep (eol : EolType) (rest : List Byte) (hitEof : Bool) (notEndOfCopy : ReadStep) :
    ReadStep :=
  match rest with
  | [] => if hitEof then .endOfFile 1 else .needData
  | c2 :: rest =>
    if c2 = 46 then
      if eol = .crnl then
        if rest = [] ∧ hitEof = false then .needData
        else if peek rest ≠ carriageReturn then notEndOfCopy
        else markerEnd eol 3 rest.tail hitEof notEndOfCopy
      else markerEnd eol 2 rest hitEof notEndOfCopy
    else notEndOfCopy

/-- An iteration behind the forced fetch of the byte after a backslash or a carriage return. -/
def decideStep (enc : Encoding) (eol : EolType) (q : QuoteState) (c : Byte) (rest : List Byte)
    (hitEof : Bool) : ReadStep :=
  if c = carriageReturn ∧ (q.next c).inQuote = false then
    match eol with
    | .unknown => if peek rest = newline then .endOfLine 2 .crnl else .endOfLine 1 .cr
    | .crnl => if peek rest = newline then .endOfLine 2 .crnl else .error .unquotedCarriageReturn
    | .nl => .error .unquotedCarriageReturn
    | .cr => .endOfLine 1 .cr
  else if c = newline ∧ (q.next c).inQuote = false then
    match eol with
    | .cr | .crnl => .error .unquotedNewline
    | .unknown | .nl => .endOfLine 1 .nl
  else if c = backslash ∧ q.firstCharInLine then
    backslashStep eol rest hitEof (multibyteStep enc c rest hitEof)
  else multibyteStep enc c rest hitEof

/-- One iteration of the loop on the byte `c`, with the bytes `rest` behind it in the buffer.
An iteration that needs data starts again from the same CSV state: re-executing the state
change for a backslash or a byte with the high bit set changes nothing. -/
def readStep (enc : Encoding) (eol : EolType) (q : QuoteState) (c : Byte) (rest : List Byte)
    (hitEof : Bool) : ReadStep :=
  if (c = backslash ∨ c = carriageReturn) ∧ rest = [] ∧ hitEof = false then .needData
  else decideStep enc eol q c rest hitEof

/-! ### The buffer and the file -/

/-- The EOL cache of a relation (`NoDBEOLCacheWorld.c`): one `short int` per row, the length of
the row's line with its terminator, and the size of the header. -/
structure EolCache where
  lengths : Nat → Int
  usedRows : Nat
  maxRows : Nat
  headerSize : Nat

/-- Storing an `int` in a `short int`. -/
def toShort (n : Int) : Int := n.bmod 65536

/-- `NoDBCacheSetShortInt` on the EOL cache. -/
def EolCache.setShortInt (eol : EolCache) (row : Nat) (value : Int) : EolCache :=
  { eol with lengths := Function.update eol.lengths row (toShort value) }

/-- What stays the same during a scan: the file, the `HEADER` option, the client encoding, and
what `convertToServerEncoding` makes of a line. -/
structure Source where
  file : List Byte
  headerLine : Bool
  encoding : Encoding
  convert : List Byte → List Byte

/-- The part of the scan state that the reading functions use. -/
structure RawInput where
  /-- the position of `copy_file` -/
  pos : Nat
  /-- `raw_buf` from `raw_buf_index` to `raw_buf_len` -/
  rawBuf : List Byte
  lineBuf : List Byte
  eolType : EolType
  readHeader : Bool
  tupleStored : Nat
  tupleRead : Nat
  eolCache : EolCache

/-- The state at the start of a scan, as `GetScanState` clears it, with the EOL cache that earlier
scans left. -/
def RawInput.fresh (eolCache : EolCache) : RawInput where
  pos := 0
  rawBuf := []
  lineBuf := []
  eolType := .unknown
  readHeader := false
  tupleStored := 0
  tupleRead := 0
  eolCache := eolCache

/-- `fread(.., 1, n, copy_file)`: the next `n` bytes, or fewer at the end of the file. -/
def Source.fread (src : Source) (pos n : Nat) : List Byte := (src.file.drop pos).take n

/-- `NoDBCopyGetData`.  The first call of a scan with a header looks for the end of the header
in what it reads, seeks behind it from the start of the file, and reads again.  `none` is a
header without a line end in the bytes read, where the search leaves the buffer. -/
def noDBCopyGetData (src : Source) (maxread : Nat) (s : RawInput) :
    Option (List Byte × RawInput) :=
  if src.headerLine ∧ s.readHeader = false then
    let temp := src.fread s.pos maxread
    if temp = [] then some ([], s)
    else
      match temp.findIdx? (· = newline) with
      | none => none
      | some i =>
        let data := src.fread (i + 1) maxread
        some (data, { s with
          pos := i + 1 + data.length
          readHeader := true
          eolCache := { s.eolCache with headerSize := i + 1 } })
  else
    let data := src.fread s.pos maxread
    some (data, { s with pos := s.pos + data.length })

/-- `NoDBCopyLoadRawBuf`: whether at least one byte was obtained, and the new state. -/
def noDBCopyLoadRawBuf (src : Source) (s : RawInput) : Option (Bool × RawInput) :=
  match noDBCopyGetData src (rawBufSize - s.rawBuf.length) s with
  | none => none
  | some (data, s) => some (data ≠ [], { s with rawBuf := s.rawBuf ++ data })

/-- What a reading function reports: a line in `line_buf`, the end of the data, or an error. -/
inductive ReadResult where
  | line
  | done
  | error (e : ReadError)
deriving DecidableEq, Repr

/-- Approve the next `n` bytes of the buffer for the line. -/
def RawInput.consume (s : RawInput) (n : Nat) : RawInput :=
  { s with lineBuf := s.lineBuf ++ s.rawBuf.take n, rawBuf := s.rawBuf.drop n }

/-- The refill at the top of an iteration: the new `hit_eof` and the new state. -/
def refill (src : Source) (needData hitEof : Bool) (s : RawInput) : Option (Bool × RawInput) :=
  if s.rawBuf = [] ∨ needData then
    (noDBCopyLoadRawBuf src s).map (fun (loaded, s) => (hitEof || !loaded, s))
  else some (hitEof, s)

/-- The loop of `NoDBCopyReadLineText`.  Running out of fuel is reported as `undefined`;
`noDBCopyReadLineText` gives the loop more than it can use. -/
def readLoop (src : Source) :
    (fuel : Nat) → (needData hitEof : Bool) → QuoteState → RawInput → ReadResult × RawInput
  | 0, _, _, _, s => (.error .undefined, s)
  | fuel + 1, needData, hitEof, q, s =>
    match refill src needData hitEof s with
    | none => (.error .undefined, s)
    | some (hitEof, s) =>
      match s.rawBuf with
      | [] => (.done, s)
      | c :: rest =>
        match readStep src.encoding s.eolType q c rest hitEof with
        | .needData => readLoop src fuel true hitEof q s
        | .advance n =>
          readLoop src fuel false hitEof { q.next c with firstCharInLine := false }
            (s.consume n)
        | .endOfLine n eol => (.line, { s.consume n with eolType := eol })
        | .endOfFile n => (.done, s.consume n)
        | .endOfCopy n => (.done, { s with rawBuf := s.rawBuf.drop n })
        | .error e => (.error e, s)

/-- `NoDBCopyReadLineText`. -/
def noDBCopyReadLineText (src : Source) (s : RawInput) : ReadResult × RawInput :=
  readLoop src (3 * (s.rawBuf.length + src.file.length) + 4) false false .start s

/-- `NoDBTryReFillRawBuf`: whether the data is at its end. -/
def noDBTryReFillRawBuf (src : Source) (s : RawInput) : Option (Bool × RawInput) :=
  if s.rawBuf = [] then
    (noDBCopyLoadRawBuf src s).map (fun (loaded, s) => (s.rawBuf = [] ∨ loaded = false, s))
  else some (false, s)

/-- `NoDBGetNextTupleFromFile` for row `processed`: read a line, strip its terminator by
`eol_type`, and record its length in the EOL cache. -/
def noDBGetNextTupleFromFile (src : Source) (processed : Nat) (s : RawInput) :
    ReadResult × RawInput :=
  match noDBCopyReadLineText src { s with lineBuf := [] } with
  | (.line, s) =>
    let terminator := if s.eolType = .crnl then 2 else 1
    let content := s.lineBuf.take (s.lineBuf.length - terminator)
    let eolCache := s.eolCache.setShortInt processed (content.length + terminator)
    (.line, { s with
      lineBuf := src.convert content
      eolCache := { eolCache with usedRows := processed + 1 }
      tupleRead := s.tupleRead + 1 })
  | (result, s) => (result, s)

/-! ### Reading with known line lengths -/

/-- The loop of `NoDBComputeBytesToRead` over the next `rows` rows: the bytes and the number of
rows that fit into `availableBytes`. -/
def bytesToReadLoop (eol : EolCache) (availableBytes : Int) :
    (rows i : Nat) → (result : Int) → (tuplesRead : Nat) → Int × Nat
  | 0, _, result, tuplesRead => (result, tuplesRead)
  | rows + 1, i, result, tuplesRead =>
    if result + eol.lengths i > availableBytes then (result, tuplesRead)
    else bytesToReadLoop eol availableBytes rows (i + 1) (result + eol.lengths i) (tuplesRead + 1)

/-- `NoDBComputeBytesToRead`. -/
def noDBComputeBytesToRead (eol : EolCache) (currentTuple : Nat) (availableBytes : Int) :
    Int × Nat :=
  bytesToReadLoop eol availableBytes (eol.usedRows - currentTuple) currentTuple 0 0

/-- `fread` with a count of type `int`: a negative one is converted to a huge unsigned one. -/
def Source.freadInt (src : Source) (pos : Nat) (n : Int) : List Byte :=
  if n < 0 then src.file.drop pos else src.fread pos n.toNat

/-- The `n` bytes from the start of the buffer; bytes behind the data are taken as `'\0'`, which
is true of the first of them. -/
def rawBytes (rawBuf : List Byte) (n : Nat) : List Byte :=
  (rawBuf ++ List.replicate n nulByte).take n

/-- The first half of `NoDBCopyReadLineTextWithEOL`, for an empty buffer: skip the header and
read as many whole lines as fit.  The flag says that there is nothing left to read. -/
def readBatch (src : Source) (processed : Nat) (s : RawInput) : Bool × RawInput :=
  let s :=
    if src.headerLine ∧ s.readHeader = false then
      { s with pos := s.pos + (src.fread s.pos s.eolCache.headerSize).length, readHeader := true }
    else s
  let (toRead, stored) := noDBComputeBytesToRead s.eolCache processed rawBufSize
  if toRead = 0 then (true, s)
  else
    let data := src.freadInt s.pos toRead
    (false, { s with pos := s.pos + data.length, rawBuf := data, tupleStored := stored })

/-- `NoDBCopyReadLineTextWithEOL`. -/
def noDBCopyReadLineTextWithEOL (src : Source) (processed : Nat) (s : RawInput) :
    ReadResult × RawInput :=
  let (exhausted, s) := if s.tupleStored = 0 then readBatch src processed s else (false, s)
  if exhausted then (.done, s)
  else
    let offset := s.eolCache.lengths processed
    let s := { s with tupleStored := s.tupleStored - 1 }
    if offset < 0 then (.error .invalidStringEnlargement, s)
    else
      (.line, { s with
        lineBuf := s.lineBuf ++ rawBytes s.rawBuf offset.toNat
        rawBuf := s.rawBuf.drop offset.toNat })

/-- The terminator test of `NoDBGetNextTupleFromFileWithEOL`.  The third branch repeats the
condition of the first and is never taken. -/
def stripTerminator (lineBuf : List Byte) : List Byte :=
  if lineBuf.getLast? = some newline then lineBuf.dropLast
  else if lineBuf.getLast? = some carriageReturn then lineBuf.dropLast
  else if lineBuf.getLast? = some newline ∧ lineBuf.dropLast.getLast? = some carriageReturn then
    lineBuf.dropLast.dropLast
  else lineBuf

/-- `NoDBGetNextTupleFromFileWithEOL` for row `processed`. -/
def noDBGetNextTupleFromFileWithEOL (src : Source) (processed : Nat) (s : RawInput) :
    ReadResult × RawInput :=
  match noDBCopyReadLineTextWithEOL src processed { s with lineBuf := [] } with
  | (.line, s) =>
    (.line, { s with
      lineBuf := src.convert (stripTerminator s.lineBuf)
      tupleRead := s.tupleRead + 1 })
  | (result, s) => (result, s)

end PostgresRaw
