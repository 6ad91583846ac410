import PostgresRaw.Reader.LineText

/-!
# Reading through a buffer of any size

`NoDBCopyReadLineText` once more, with what it takes from outside as parameters: the quote and the escape
of the scan state (`Dialect`), and the size of `raw_buf`.  Here the loop is written with the CSV state as
the source has it: a look-ahead that fails behind the state change starts the iteration again with the state
already changed.  `Dialect.scanLine` is the loop without a buffer, where every iteration sees all bytes up to
the end of the data.

`Dialect.readLoop_reads` says that the two read the same.  Two properties of one iteration carry it.  An
iteration that does not ask for more data does not depend on the bytes behind the buffer, because every
look-ahead is guarded (`decideStep_stable`).  And an iteration that asks for data changes nothing that
its repetition would not change (`Dialect.next_next`), which holds if neither the quote nor the escape is a
byte at which the loop looks ahead behind the state change (`Dialect.Steady`).
-/

namespace PostgresRaw

open List

/-! ### The loop -/

/-- `quote` and `escape` of the scan state. -/
structure Dialect where
  quote : Byte
  escape : Byte

namespace Dialect

/-- `escapec`: an escape that is also the quote gets no treatment of its own. -/
def escapec (d : Dialect) : Byte := if d.quote = d.escape then nulByte else d.escape

/-- The quote and escape bookkeeping for one byte. -/
def next (d : Dialect) (q : QuoteState) (c : Byte) : QuoteState :=
  let lastWasEsc := if q.inQuote ∧ c = d.escapec then !q.lastWasEsc else q.lastWasEsc
  let inQuote := if c = d.quote ∧ lastWasEsc = false then !q.inQuote else q.inQuote
  { q with
    inQuote := inQuote
    lastWasEsc := if c ≠ d.escapec then false else lastWasEsc }

/-- An iteration behind the forced fetch of the byte after a backslash or a carriage return. -/
def decideStep (d : Dialect) (enc : Encoding) (eol : EolType) (q : QuoteState) (c : Byte) (rest : List Byte)
    (hitEof : Bool) : ReadStep :=
  if c = carriageReturn ∧ (d.next q c).inQuote = false then
    match eol with
    | .unknown => if peek rest = newline then .endOfLine 2 .crnl else .endOfLine 1 .cr
    | .crnl => if peek rest = newline then .endOfLine 2 .crnl else .error .unquotedCarriageReturn
    | .nl => .error .unquotedCarriageReturn
    | .cr => .endOfLine 1 .cr
  else if c = newline ∧ (d.next q c).inQuote = false then
    match eol with
    | .cr | .crnl => .error .unquotedNewline
    | .unknown | .nl => .endOfLine 1 .nl
  else if c = backslash ∧ q.firstCharInLine then
    backslashStep eol rest hitEof (multibyteStep enc c rest hitEof)
  else multibyteStep enc c rest hitEof

/-- `NoDBCopyLoadRawBuf` with a buffer of `size` bytes. -/
def loadRawBuf (size : Nat) (src : Source) (s : RawInput) : Option (Bool × RawInput) :=
  match noDBCopyGetData src (size - s.rawBuf.length) s with
  | none => none
  | some (data, s) => some (data ≠ [], { s with rawBuf := s.rawBuf ++ data })

/-- The refill at the top of an iteration. -/
def refill (size : Nat) (src : Source) (needData hitEof : Bool) (s : RawInput) : Option (Bool × RawInput) :=
  if s.rawBuf = [] ∨ needData then
    (loadRawBuf size src s).map (fun (loaded, s) => (hitEof || !loaded, s))
  else some (hitEof, s)

/-- The loop of `NoDBCopyReadLineText`.  The forced fetch comes before the CSV state changes; the other
look-aheads come behind it and keep the new state. -/
def readLoop (d : Dialect) (size : Nat) (src : Source) :
    (fuel : Nat) → (needData hitEof : Bool) → QuoteState → RawInput → ReadResult × RawInput
  | 0, _, _, _, s => (.error .undefined, s)
  | fuel + 1, needData, hitEof, q, s =>
    match refill size src needData hitEof s with
    | none => (.error .undefined, s)
    | some (hitEof, s) =>
      match s.rawBuf with
      | [] => (.done, s)
      | c :: rest =>
        if (c = backslash ∨ c = carriageReturn) ∧ rest = [] ∧ hitEof = false then
          readLoop d size src fuel true hitEof q s
        else
          match d.decideStep src.encoding s.eolType q c rest hitEof with
          | .needData => readLoop d size src fuel true hitEof (d.next q c) s
          | .advance n =>
            readLoop d size src fuel false hitEof { d.next q c with firstCharInLine := false } (s.consume n)
          | .endOfLine n eol => (.line, { s.consume n with eolType := eol })
          | .endOfFile n => (.done, s.consume n)
          | .endOfCopy n => (.done, { s with rawBuf := s.rawBuf.drop n })
          | .error e => (.error e, s)

/-- `NoDBCopyReadLineText`. -/
def noDBCopyReadLineText (d : Dialect) (size : Nat) (src : Source) (s : RawInput) : ReadResult × RawInput :=
  d.readLoop size src (3 * (s.rawBuf.length + src.file.length) + 4) false false .start s

/-- The quote of the scans, which is its own escape. -/
def standard : Dialect := ⟨defaultQuote, defaultQuote⟩

end Dialect

/-! ### One iteration -/

section Step

variable {enc : Encoding} {eol : EolType} {q : QuoteState} {c : Byte} {rest : List Byte}

/-- A byte without the high bit is never the start of a multibyte character. -/
theorem multibyteStep_ascii (ascii : isHighbitSet c = false) (hitEof : Bool) :
    multibyteStep enc c rest hitEof = .advance 1 := by
  simp [multibyteStep, ascii]

theorem multibyteStep_stable (settled : multibyteStep enc c rest false ≠ .needData) (more : List Byte) (hitEof : Bool) :
    multibyteStep enc c (rest ++ more) hitEof = multibyteStep enc c rest false := by
  unfold multibyteStep at settled ⊢
  by_cases multibyte : enc.embedsAscii = true ∧ isHighbitSet c = true
  · by_cases short : rest.length ≤ enc.mblen c - 1
    · simp [multibyte, short] at settled
    · have long : ¬ (rest ++ more).length ≤ enc.mblen c - 1 := by
        rw [length_append]; omega
      simp only [if_pos multibyte, if_neg short, if_neg long]
  · simp only [if_neg multibyte]

variable {otherwise : ReadStep}

theorem markerEnd_stable {consumed : Nat} (settled : markerEnd eol consumed rest false otherwise ≠ .needData)
    (more : List Byte) (hitEof : Bool) : markerEnd eol consumed (rest ++ more) hitEof otherwise =
      markerEnd eol consumed rest false otherwise := by
  cases rest with
  | nil => simp [markerEnd] at settled
  | cons c2 rest => simp [markerEnd, peek]

theorem backslashStep_stable (settled : backslashStep eol rest false otherwise ≠ .needData) (more : List Byte)
    (hitEof : Bool) : backslashStep eol (rest ++ more) hitEof otherwise = backslashStep eol rest false otherwise := by
  cases rest with
  | nil => simp [backslashStep] at settled
  | cons c2 rest =>
    by_cases dot : c2 = 46
    · subst dot
      by_cases crnl : eol = .crnl
      · subst crnl
        cases rest with
        | nil => simp [backslashStep] at settled
        | cons c3 rest =>
          by_cases cr : c3 = carriageReturn
          · subst cr
            exact markerEnd_stable settled more hitEof
          · simp [backslashStep, peek, cr]
      · simp only [backslashStep, if_true, if_neg crnl, cons_append] at settled ⊢
        exact markerEnd_stable settled more hitEof
    · simp [backslashStep, dot]

/-- The next byte is in the buffer when the iteration wants to look at it. -/
def LooksAhead (c : Byte) (rest : List Byte) : Prop :=
  c = backslash ∨ c = carriageReturn → rest ≠ []

theorem peek_append (next : rest ≠ []) (more : List Byte) : peek (rest ++ more) = peek rest := by
  cases rest with
  | nil => exact absurd rfl next
  | cons d rest => rfl

/-- The bytes that end a line in each style. -/
def EolType.terminator : EolType → List Byte
  | .unknown => []
  | .nl => [newline]
  | .cr => [carriageReturn]
  | .crnl => [carriageReturn, newline]

theorem terminator_ne_nil (known : eol ≠ .unknown) : eol.terminator ≠ [] := by
  cases eol with
  | unknown => exact absurd rfl known
  | nl => exact cons_ne_nil _ _
  | cr => exact cons_ne_nil _ _
  | crnl => exact cons_ne_nil _ _

/-- The bytes of the character that starts with `c`, as far as the reader looks at characters. -/
def Encoding.charLength (enc : Encoding) (c : Byte) : Nat :=
  if enc.embedsAscii ∧ isHighbitSet c then enc.mblen c else 1

/-- **What one iteration can do.**  It never consumes more than the buffer holds; it asks for
data only when fewer than five bytes are left and the end of the file has not been seen; it
ends a line only at a terminator of the style found so far. -/
def StepOk (eol : EolType) (q : QuoteState) (c : Byte) (rest : List Byte) (hitEof : Bool) :
    ReadStep → Prop
  | .needData => hitEof = false ∧ rest.length ≤ 3
  | .advance n => 1 ≤ n ∧ n ≤ rest.length + 1
  | .endOfLine n e =>
    (c :: rest).take n = e.terminator ∧ n = e.terminator.length ∧ e ≠ .unknown ∧
      (eol = .unknown ∨ e = eol)
  | .endOfFile n => n ≤ rest.length + 1 ∧ hitEof = true
  | .endOfCopy n => q.firstCharInLine = true ∧ n ≤ rest.length + 1
  | .error _ => True

theorem multibyteStep_ok (hitEof : Bool) : StepOk eol q c rest hitEof (multibyteStep enc c rest hitEof) := by
  have := enc.mblen_pos c
  have := enc.mblen_le c
  unfold multibyteStep
  split
  · split
    · split
      · split
        · exact ⟨by omega, ‹_›⟩
        · exact ⟨by omega, ‹_›⟩
      · rename_i notEof
        exact ⟨by simpa using notEof, by omega⟩
    · exact ⟨by omega, by omega⟩
  · exact ⟨Nat.le_refl 1, by omega⟩

theorem markerEnd_ok {consumed : Nat} {tail : List Byte} {hitEof : Bool} (first : q.firstCharInLine = true)
    (position : consumed + tail.length = rest.length + 1) (few : consumed ≤ 3)
    (ok : StepOk eol q c rest hitEof otherwise) :
    StepOk eol q c rest hitEof (markerEnd eol consumed tail hitEof otherwise) := by
  cases tail with
  | nil =>
    cases hitEof with
    | false =>
      simp only [length_nil] at position
      exact ⟨rfl, by omega⟩
    | true => simpa [markerEnd, peek, nulByte, carriageReturn, newline] using ok
  | cons c3 tail =>
    simp only [length_cons] at position
    simp only [markerEnd, reduceCtorEq, false_and, if_false]
    split
    · exact ok
    · split
      · trivial
      · exact ⟨first, by omega⟩

theorem backslashStep_ok {hitEof : Bool} (first : q.firstCharInLine = true) (ok : StepOk eol q c rest hitEof otherwise) :
    StepOk eol q c rest hitEof (backslashStep eol rest hitEof otherwise) := by
  cases rest with
  | nil => cases hitEof <;> simp [backslashStep, StepOk]
  | cons c2 rest =>
    by_cases dot : c2 = 46
    · subst dot
      by_cases crnl : eol = .crnl
      · subst crnl
        cases rest with
        | nil =>
          cases hitEof with
          | false => simp [backslashStep, StepOk]
          | true => simpa [backslashStep, peek, nulByte, carriageReturn] using ok
        | cons c3 rest =>
          by_cases cr : c3 = carriageReturn
          · subst cr
            simp only [backslashStep, if_true, reduceCtorEq, false_and, if_false, peek,
              headD_cons, ne_eq, not_true_eq_false, tail_cons]
            exact markerEnd_ok first (by simp only [length_cons]; omega) (by omega) ok
          · simpa [backslashStep, peek, cr] using ok
      · simp only [backslashStep, if_true, if_neg crnl]
        exact markerEnd_ok first (by simp only [length_cons]; omega) (by omega) ok
    · simpa [backslashStep, dot] using ok

namespace Dialect

variable {d : Dialect}

/-- **A settled iteration looks at nothing behind the buffer.** -/
theorem decideStep_stable (ahead : LooksAhead c rest)
    (settled : d.decideStep enc eol q c rest false ≠ .needData) (more : List Byte) (hitEof : Bool) :
    d.decideStep enc eol q c (rest ++ more) hitEof = d.decideStep enc eol q c rest false := by
  unfold decideStep at settled ⊢
  by_cases isReturn : c = carriageReturn ∧ (d.next q c).inQuote = false
  · rw [if_pos isReturn, if_pos isReturn, peek_append (ahead (.inr isReturn.1))]
  · rw [if_neg isReturn] at settled ⊢
    rw [if_neg isReturn]
    by_cases isNewline : c = newline ∧ (d.next q c).inQuote = false
    · rw [if_pos isNewline, if_pos isNewline]
    · rw [if_neg isNewline] at settled ⊢
      rw [if_neg isNewline]
      by_cases marker : c = backslash ∧ q.firstCharInLine = true
      · rw [if_pos marker] at settled ⊢
        rw [if_pos marker]
        have ascii : isHighbitSet c = false := by rw [marker.1]; decide
        rw [multibyteStep_ascii ascii] at settled ⊢
        rw [multibyteStep_ascii ascii]
        exact backslashStep_stable settled more hitEof
      · rw [if_neg marker] at settled ⊢
        rw [if_neg marker]
        exact multibyteStep_stable settled more hitEof

/-- Every iteration is one of `StepOk`. -/
theorem decideStep_ok (hitEof : Bool) : StepOk eol q c rest hitEof (d.decideStep enc eol q c rest hitEof) := by
  unfold decideStep
  split
  · rename_i isReturn
    obtain ⟨rfl, -⟩ := isReturn
    have crnl : peek rest = newline →
        (carriageReturn :: rest).take 2 = EolType.terminator .crnl := by
      intro next
      cases rest with
      | nil => simp [peek, nulByte, newline] at next
      | cons d rest => simpa [EolType.terminator, peek] using next
    cases eol with
    | unknown =>
      dsimp only
      split
      · exact ⟨crnl ‹_›, rfl, by simp, .inl rfl⟩
      · exact ⟨rfl, rfl, by simp, .inl rfl⟩
    | nl => trivial
    | cr => exact ⟨rfl, rfl, by simp, .inr rfl⟩
    | crnl =>
      dsimp only
      split
      · exact ⟨crnl ‹_›, rfl, by simp, .inr rfl⟩
      · trivial
  · split
    · rename_i isNewline
      obtain ⟨rfl, -⟩ := isNewline
      cases eol with
      | unknown => exact ⟨rfl, rfl, by simp, .inl rfl⟩
      | nl => exact ⟨rfl, rfl, by simp, .inr rfl⟩
      | cr => trivial
      | crnl => trivial
    · split
      · exact backslashStep_ok (by simp_all) (multibyteStep_ok hitEof)
      · exact multibyteStep_ok hitEof

/-- An iteration asks for data behind the state change only at a backslash that starts the line, or at the
first byte of a multibyte character. -/
theorem needData_cases {hitEof : Bool} (asks : d.decideStep enc eol q c rest hitEof = .needData) :
    (c = backslash ∧ q.firstCharInLine = true) ∨ (enc.embedsAscii = true ∧ isHighbitSet c = true) := by
  have multibyte : multibyteStep enc c rest hitEof = .needData → enc.embedsAscii = true ∧ isHighbitSet c = true := by
    intro asks
    by_contra single
    rw [multibyteStep, if_neg single] at asks
    cases asks
  unfold decideStep at asks
  split at asks
  · cases eol <;> dsimp only at asks <;> (try split at asks) <;> cases asks
  · split at asks
    · cases eol <;> cases asks
    · split at asks
      · next marker => exact .inl marker
      · exact .inr (multibyte asks)

/-- Neither the quote nor the escape is looked ahead at behind the state change.  An escape that is a
backslash does no harm, because it is looked at like that at the start of a line only, outside of quotes. -/
def Steady (d : Dialect) (enc : Encoding) : Prop :=
  d.quote ≠ backslash ∧
    (enc.embedsAscii = true → isHighbitSet d.quote = false ∧ isHighbitSet d.escape = false)

theorem isHighbitSet_escapec (ascii : isHighbitSet d.escape = false) : isHighbitSet d.escapec = false := by
  unfold escapec
  split
  · decide
  · exact ascii

/-- Only quotes change whether bytes are inside quotes. -/
theorem next_inQuote (d : Dialect) (q : QuoteState) (notQuote : c ≠ d.quote) : (d.next q c).inQuote = q.inQuote := by
  simp only [next]
  rw [if_neg fun both => notQuote both.1]

/-- **The state change of an iteration that asks for data can be repeated.** -/
theorem next_next (steady : d.Steady enc) (outside : q.firstCharInLine = true → q.inQuote = false) {hitEof : Bool}
    (asks : d.decideStep enc eol q c rest hitEof = .needData) : d.next (d.next q c) c = d.next q c := by
  rcases needData_cases asks with ⟨rfl, first⟩ | ⟨embeds, high⟩
  · have notQuote : backslash ≠ d.quote := Ne.symm steady.1
    obtain ⟨inQuote, lastWasEsc, firstCharInLine⟩ := q
    obtain rfl : inQuote = false := outside first
    by_cases escape : backslash = d.escapec
    · simp [next, notQuote, ← escape]
    · simp [next, notQuote, escape]
  · obtain ⟨quote, escape⟩ := steady.2 embeds
    have notQuote : c ≠ d.quote := fun same => by rw [same, quote] at high; cases high
    have notEscape : c ≠ d.escapec := fun same => by
      rw [same, isHighbitSet_escapec escape] at high
      cases high
    simp [next, notQuote, notEscape]

/-- States that the next byte makes equal. -/
theorem decideStep_congr {q' : QuoteState} (same : d.next q' c = d.next q c)
    (first : q'.firstCharInLine = q.firstCharInLine) (hitEof : Bool) :
    d.decideStep enc eol q' c rest hitEof = d.decideStep enc eol q c rest hitEof := by
  unfold decideStep
  rw [same, first]

end Dialect

end Step

/-! ### The loop without a buffer -/

/-- What reading one line from the unread bytes comes to: the report, the bytes put into
`line_buf` (with the terminator), the bytes left unread, and the line-end style. -/
structure LineScan where
  result : ReadResult
  line : List Byte
  rest : List Byte
  eolType : EolType
deriving DecidableEq

/-- A byte that the line starts with. -/
def LineScan.cons (c : Byte) (l : LineScan) : LineScan := { l with line := c :: l.line }

/-- A line with its terminator has been taken off the bytes. -/
abbrev LineScan.Delivered (l : LineScan) (eol : EolType) (bytes : List Byte) : Prop :=
  ∃ content, l.line = content ++ l.eolType.terminator ∧ bytes = l.line ++ l.rest ∧ l.eolType ≠ .unknown ∧
    (eol = .unknown ∨ l.eolType = eol)

/-- The loop of `NoDBCopyReadLineText` on all bytes up to the end of the data.  `skip` counts
the bytes of a multibyte character that are still to be passed. -/
def Dialect.scanLine (d : Dialect) (enc : Encoding) (eol : EolType) : (skip : Nat) → QuoteState → List Byte → LineScan
  | _, _, [] => ⟨.done, [], [], eol⟩
  | skip + 1, q, c :: rest => (d.scanLine enc eol skip q rest).cons c
  | 0, q, c :: rest =>
    match d.decideStep enc eol q c rest true with
    | .needData => ⟨.error .undefined, [], c :: rest, eol⟩
    | .advance n => (d.scanLine enc eol (n - 1) { d.next q c with firstCharInLine := false } rest).cons c
    | .endOfLine n e => ⟨.line, (c :: rest).take n, (c :: rest).drop n, e⟩
    | .endOfFile n => ⟨.done, (c :: rest).take n, (c :: rest).drop n, eol⟩
    | .endOfCopy n => ⟨.done, [], (c :: rest).drop n, eol⟩
    | .error e => ⟨.error e, [], c :: rest, eol⟩

namespace Dialect

variable {d : Dialect} {enc : Encoding} {eol : EolType}

/-- Passing the rest of a multibyte character. -/
theorem scanLine_skip (d : Dialect) (enc : Encoding) (eol : EolType) (q : QuoteState) {skip : Nat}
    {bytes : List Byte} (inside : skip ≤ bytes.length) : d.scanLine enc eol skip q bytes =
      { d.scanLine enc eol 0 q (bytes.drop skip) with
        line := bytes.take skip ++ (d.scanLine enc eol 0 q (bytes.drop skip)).line } := by
  induction skip generalizing bytes with
  | zero => simp
  | succ skip ih =>
    cases bytes with
    | nil => simp at inside
    | cons c rest =>
      rw [scanLine, ih (by simpa using inside)]
      rfl

/-- States that the first byte makes equal read the same line. -/
theorem scanLine_congr {q q' : QuoteState} {c : Byte} {rest : List Byte} (same : d.next q' c = d.next q c)
    (first : q'.firstCharInLine = q.firstCharInLine) :
    d.scanLine enc eol 0 q' (c :: rest) = d.scanLine enc eol 0 q (c :: rest) := by
  simp only [scanLine, decideStep_congr same first, same]

/-- A delivered line is its content and a terminator of the style found so far, and what is
not in the line stays unread. -/
theorem scanLine_line {skip : Nat} {q : QuoteState} {bytes : List Byte}
    (delivered : (d.scanLine enc eol skip q bytes).result = .line) :
    (d.scanLine enc eol skip q bytes).Delivered eol bytes := by
  induction bytes generalizing skip q with
  | nil => cases skip <;> simp [scanLine] at delivered
  | cons c rest ih =>
    cases skip with
    | succ skip =>
      obtain ⟨content, line, split, known, style⟩ := @ih skip q delivered
      exact ⟨c :: content, by simp [scanLine, LineScan.cons, line],
        by simp only [scanLine, LineScan.cons, cons_append]; rw [← split], known, style⟩
    | zero =>
      have step := @decideStep_ok enc eol q c rest d true
      cases decided : d.decideStep enc eol q c rest true with
      | needData => simp [scanLine, decided] at delivered
      | advance n =>
        simp only [scanLine, decided] at delivered ⊢
        obtain ⟨content, line, split, known, style⟩ := ih delivered
        exact ⟨c :: content, by simp [LineScan.cons, line],
          by simp only [LineScan.cons, cons_append]; rw [← split], known, style⟩
      | endOfLine n e =>
        rw [decided] at step
        obtain ⟨terminator, -, known, style⟩ := step
        simp only [scanLine, decided]
        exact ⟨[], by simpa using terminator, by rw [take_append_drop], known, style⟩
      | endOfFile n => simp [scanLine, decided] at delivered
      | endOfCopy n => simp [scanLine, decided] at delivered
      | error e => simp [scanLine, decided] at delivered

end Dialect

/-! ### Filling the buffer -/

/-- The bytes that a scan has not read yet. -/
def RawInput.unread (src : Source) (s : RawInput) : List Byte :=
  s.rawBuf ++ src.file.drop s.pos

/-- The header, if there is one, has been passed. -/
def RawInput.HeaderPassed (src : Source) (s : RawInput) : Prop :=
  src.headerLine = false ∨ s.readHeader = true

/-- What the loop leaves alone. -/
structure SameBut (s s' : RawInput) : Prop where
  readHeader : s'.readHeader = s.readHeader
  tupleStored : s'.tupleStored = s.tupleStored
  tupleRead : s'.tupleRead = s.tupleRead
  eolCache : s'.eolCache = s.eolCache

theorem SameBut.refl (s : RawInput) : SameBut s s := ⟨rfl, rfl, rfl, rfl⟩

variable {s s' : RawInput} {src : Source} {hitEof needData : Bool} {size : Nat}

theorem SameBut.trans {s'' : RawInput} (h : SameBut s s') (h' : SameBut s' s'') : SameBut s s'' :=
  ⟨h'.readHeader.trans h.readHeader, h'.tupleStored.trans h.tupleStored,
    h'.tupleRead.trans h.tupleRead, h'.eolCache.trans h.eolCache⟩

theorem fread_append_drop (src : Source) (pos n : Nat) :
    src.fread pos n ++ src.file.drop (pos + (src.fread pos n).length) = src.file.drop pos := by
  rw [← drop_drop]
  simp only [Source.fread, length_take]
  rcases Nat.le_total n (src.file.drop pos).length with le | ge
  · rw [min_eq_left le, take_append_drop]
  · rw [min_eq_right ge, take_of_length_le ge, drop_length, append_nil]

/-- What is known at the top of an iteration: the end of the file has been seen only if nothing
is left in the file, and more data is asked for only with a nearly empty buffer. -/
structure LoopInv (src : Source) (needData hitEof : Bool) (s : RawInput) : Prop where
  passed : s.HeaderPassed src
  atEof : hitEof = true → src.file.drop s.pos = []
  room : needData = true → hitEof = false ∧ s.rawBuf.length ≤ 4

/-- The buffered loop, started in `s`, does what `l` says. -/
structure Reads (src : Source) (s : RawInput) (l : LineScan) (out : ReadResult × RawInput) :
    Prop where
  result : out.1 = l.result
  lineBuf : (∀ e, l.result ≠ .error e) → out.2.lineBuf = s.lineBuf ++ l.line
  unread : (∀ e, l.result ≠ .error e) → out.2.unread src = l.rest
  eolType : (∀ e, l.result ≠ .error e) → out.2.eolType = l.eolType
  frame : SameBut s out.2

theorem RawInput.HeaderPassed.not_waiting (passed : s.HeaderPassed src) :
    ¬ (src.headerLine = true ∧ s.readHeader = false) := by
  rintro ⟨header, unread⟩
  rcases passed with none | read
  · rw [none] at header
    cases header
  · rw [read] at unread
    cases unread

theorem noDBCopyGetData_passed (passed : s.HeaderPassed src) (n : Nat) :
    noDBCopyGetData src n s = some (src.fread s.pos n, { s with pos := s.pos + (src.fread s.pos n).length }) := by
  rw [noDBCopyGetData, if_neg passed.not_waiting]

/-- Reading from the file leaves the buffer and the line alone. -/
theorem noDBCopyGetData_keeps {n : Nat} {t : RawInput} {data : List Byte}
    (got : noDBCopyGetData src n s = some (data, t)) :
    data ⊆ src.file ∧ t.rawBuf = s.rawBuf ∧ t.lineBuf = s.lineBuf ∧ t.eolType = s.eolType := by
  have fread : ∀ pos, src.fread pos n ⊆ src.file := fun pos =>
    ((take_sublist _ _).trans (drop_sublist _ _)).subset
  unfold noDBCopyGetData at got
  split at got
  · dsimp only at got
    split at got
    · cases got
      exact ⟨nil_subset _, rfl, rfl, rfl⟩
    · split at got
      · cases got
      · cases got
        exact ⟨fread _, rfl, rfl, rfl⟩
  · cases got
    exact ⟨fread _, rfl, rfl, rfl⟩

/-- A refill adds bytes of the file to the buffer. -/
theorem Dialect.refill_adds {hitEof' : Bool} (refilled : refill size src needData hitEof s = some (hitEof', s')) :
    ∃ data, s'.rawBuf = s.rawBuf ++ data ∧ data ⊆ src.file ∧ s'.lineBuf = s.lineBuf ∧ s'.eolType = s.eolType := by
  unfold refill loadRawBuf at refilled
  split at refilled
  · cases got : noDBCopyGetData src (size - s.rawBuf.length) s with
    | none => simp [got] at refilled
    | some out =>
      obtain ⟨data, t⟩ := out
      obtain ⟨fromFile, rawBuf, lineBuf, eolType⟩ := noDBCopyGetData_keeps got
      simp only [got, Option.map_some, Option.some.injEq, Prod.mk.injEq] at refilled
      obtain ⟨-, rfl⟩ := refilled
      exact ⟨data, by rw [← rawBuf], fromFile, lineBuf, eolType⟩
  · cases refilled
    exact ⟨[], (append_nil _).symm, nil_subset _, rfl, rfl⟩

/-- Behind the header a refill moves bytes from the file to the buffer. -/
theorem Dialect.refill_unread {hitEof' : Bool} (passed : s.HeaderPassed src)
    (refilled : refill size src needData hitEof s = some (hitEof', s')) :
    s'.unread src = s.unread src ∧ s'.HeaderPassed src := by
  unfold refill loadRawBuf at refilled
  rw [noDBCopyGetData_passed passed] at refilled
  split at refilled
  · simp only [Option.map_some, Option.some.injEq, Prod.mk.injEq] at refilled
    obtain ⟨-, rfl⟩ := refilled
    refine ⟨?_, passed⟩
    simp only [RawInput.unread]
    rw [append_assoc, fread_append_drop]
  · cases refilled
    exact ⟨rfl, passed⟩

/-- **What is read is in the line or still unread**, for every dialect. -/
theorem Dialect.readLoop_unread {d : Dialect} {size : Nat} {src : Source} {fuel : Nat} {needData hitEof : Bool}
    {q : QuoteState} {s s' : RawInput} (passed : s.HeaderPassed src)
    (line : d.readLoop size src fuel needData hitEof q s = (.line, s')) :
    s'.lineBuf ++ s'.unread src = s.lineBuf ++ s.unread src := by
  have consume : ∀ (t : RawInput) (n : Nat), (t.consume n).lineBuf ++ (t.consume n).unread src = t.lineBuf ++ t.unread src := by
    intro t n
    simp only [RawInput.consume, RawInput.unread]
    rw [append_assoc, ← append_assoc (t.rawBuf.take n), take_append_drop]
  induction fuel generalizing needData hitEof q s with
  | zero => cases line
  | succ fuel ih =>
    rw [readLoop] at line
    cases refilled : refill size src needData hitEof s with
    | none => simp [refilled] at line
    | some out =>
      obtain ⟨hitEof, t⟩ := out
      obtain ⟨unread, passed'⟩ := refill_unread passed refilled
      obtain ⟨-, -, -, lineBuf, -⟩ := refill_adds refilled
      rw [← lineBuf, ← unread]
      simp only [refilled] at line
      cases buffer : t.rawBuf with
      | nil => simp [buffer] at line
      | cons c rest =>
        simp only [buffer] at line
        split at line
        · exact ih passed' line
        · cases decided : d.decideStep src.encoding t.eolType q c rest hitEof with
          | needData =>
            simp only [decided] at line
            exact ih passed' line
          | advance n =>
            simp only [decided] at line
            exact (ih (s := t.consume n) passed' line).trans (consume t n)
          | endOfLine n e =>
            simp only [decided] at line
            obtain ⟨-, rfl⟩ := Prod.mk.inj line
            exact consume t n
          | endOfFile n => simp [decided] at line
          | endOfCopy n => simp [decided] at line
          | error e => simp [decided] at line

/-- How much the loop may still have to do: every iteration reads a byte, or takes bytes from the file, or
finds the end of it, or asks for one of these. -/
def effort (src : Source) (needData hitEof : Bool) (s : RawInput) : Nat :=
  2 * (s.unread src).length + (src.file.drop s.pos).length + (if hitEof then 0 else 1) + (if needData then 0 else 1)

/-- What a refill does: it keeps the unread bytes, and takes bytes from the file or finds that there are
none. -/
structure Refilled (src : Source) (needData hitEof : Bool) (s : RawInput) (hitEof' : Bool) (s' : RawInput) : Prop where
  unread : s'.unread src = s.unread src
  lineBuf : s'.lineBuf = s.lineBuf
  eolType : s'.eolType = s.eolType
  frame : SameBut s s'
  passed : s'.HeaderPassed src
  atEof : hitEof' = true → src.file.drop s'.pos = []
  exhausted : s'.rawBuf = [] → s.unread src = []
  progress : (s' = s ∧ hitEof' = hitEof ∧ needData = false) ∨
    (src.file.drop s.pos = [] ∧ s'.pos = s.pos ∧ hitEof' = true) ∨
    ((src.file.drop s'.pos).length < (src.file.drop s.pos).length ∧ hitEof' = hitEof)

/-- **The refill makes progress**, if the buffer is longer than what can be left in it. -/
theorem Dialect.refill_spec (big : 4 < size) (inv : LoopInv src needData hitEof s) :
    ∃ hitEof' s', Dialect.refill size src needData hitEof s = some (hitEof', s') ∧
      Refilled src needData hitEof s hitEof' s' := by
  by_cases load : s.rawBuf = [] ∨ needData = true
  · have space : 0 < size - s.rawBuf.length := by
      rcases load with empty | asked
      · rw [empty, length_nil]
        omega
      · have := (inv.room asked).2
        omega
    generalize dataEq : src.fread s.pos (size - s.rawBuf.length) = data
    have split := fread_append_drop src s.pos (size - s.rawBuf.length)
    rw [dataEq] at split
    have isEmpty : data = [] ↔ src.file.drop s.pos = [] := by
      rw [← dataEq, Source.fread, take_eq_nil_iff]
      constructor
      · rintro (zero | empty)
        · omega
        · exact empty
      · exact .inr
    let loaded : RawInput := { s with pos := s.pos + data.length, rawBuf := s.rawBuf ++ data }
    refine ⟨hitEof || !decide (data ≠ []), loaded, by
        rw [Dialect.refill, if_pos load, Dialect.loadRawBuf, noDBCopyGetData_passed inv.passed, dataEq]; rfl, ?_⟩
    refine ⟨?_, rfl, rfl, ⟨rfl, rfl, rfl, rfl⟩, inv.passed, ?_, ?_, ?_⟩
    · simp only [RawInput.unread, loaded]
      rw [append_assoc, split]
    · intro eof
      have none : data = [] := by
        simp only [Bool.or_eq_true, Bool.not_eq_true', decide_eq_false_iff_not, not_not] at eof
        exact eof.elim (fun seen => isEmpty.mpr (inv.atEof seen)) id
      simpa [loaded, none] using isEmpty.mp none
    · intro empty
      simp only [loaded, append_eq_nil_iff] at empty
      rw [RawInput.unread, empty.1, isEmpty.mp empty.2, append_nil]
    · by_cases empty : data = []
      · exact .inr (.inl ⟨isEmpty.mp empty, by simp [loaded, empty], by simp [empty]⟩)
      · refine .inr (.inr ⟨?_, by simp [empty]⟩)
        have length := congrArg List.length split
        rw [length_append] at length
        have := length_pos_iff.mpr empty
        simp only [loaded]
        omega
  · have notAsked : needData = false := by
      cases needData with
      | false => rfl
      | true => exact absurd (.inr rfl) load
    exact ⟨hitEof, s, by rw [Dialect.refill, if_neg load], rfl, rfl, rfl, .refl s, inv.passed, inv.atEof,
      fun empty => absurd (.inl empty) load, .inl ⟨rfl, rfl, notAsked⟩⟩

namespace Refilled

variable {src : Source} {needData hitEof hitEof' : Bool} {s s' : RawInput}

section

variable (filled : Refilled src needData hitEof s hitEof' s')
include filled

/-- The file does not get longer, and its end stays seen. -/
theorem le :
    (src.file.drop s'.pos).length ≤ (src.file.drop s.pos).length ∧
      (if hitEof' = true then 0 else 1) ≤ (if hitEof = true then 0 else 1) := by
  rcases filled.progress with ⟨same, sameEof, -⟩ | ⟨-, same, seen⟩ | ⟨less, sameEof⟩
  · rw [same, sameEof]
    exact ⟨le_rfl, le_rfl⟩
  · rw [same, seen]
    exact ⟨le_rfl, by simp⟩
  · rw [sameEof]
    exact ⟨le_of_lt less, le_rfl⟩

/-- Asking for more data behind a refill. -/
theorem again (notEof : hitEof' = false)
    (few : s'.rawBuf.length ≤ 4) :
    LoopInv src true hitEof' s' ∧ effort src true hitEof' s' < effort src needData hitEof s := by
  refine ⟨⟨filled.passed, filled.atEof, fun _ => ⟨notEof, few⟩⟩, ?_⟩
  rw [effort, effort, filled.unread]
  simp only [if_true]
  rcases filled.progress with ⟨same, sameEof, notAsked⟩ | ⟨-, -, seen⟩ | ⟨less, sameEof⟩
  · rw [same, sameEof, notAsked]
    simp
  · rw [seen] at notEof
    cases notEof
  · rw [sameEof]
    omega

/-- Reading bytes behind a refill. -/
theorem consume {n : Nat} (positive : 1 ≤ n)
    (inside : n ≤ s'.rawBuf.length) :
    LoopInv src false hitEof' (s'.consume n) ∧ (s'.consume n).unread src = (s.unread src).drop n ∧
      effort src false hitEof' (s'.consume n) < effort src needData hitEof s := by
  have unread : (s'.consume n).unread src = (s.unread src).drop n := by
    rw [← filled.unread, RawInput.unread, RawInput.unread, drop_append_of_le_length inside]
    rfl
  refine ⟨⟨filled.passed, filled.atEof, fun asked => by cases asked⟩, unread, ?_⟩
  obtain ⟨file, eof⟩ := filled.le
  have length : s'.rawBuf.length ≤ (s.unread src).length := by
    rw [← filled.unread, RawInput.unread, length_append]
    omega
  rw [effort, effort, unread, length_drop, show (s'.consume n).pos = s'.pos from rfl]
  simp only [Bool.false_eq_true, if_false]
  omega

/-- What is read behind the refill is read. -/
theorem reads {l : LineScan} {out : ReadResult × RawInput}
    (reads : Reads src s' l out) : Reads src s l out :=
  ⟨reads.result, fun ok => by rw [reads.lineBuf ok, filled.lineBuf], reads.unread, reads.eolType,
    filled.frame.trans reads.frame⟩

end

end Refilled

/-! ### Buffering does not show -/

namespace Dialect

variable {d : Dialect} {src : Source}

variable {s : RawInput} {hitEof needData : Bool} {q q' : QuoteState}

/-- Reading a character and then what `l` says. -/
theorem reads_advance {n : Nat} {c : Byte} {bytes : List Byte} {l : LineScan} {out : ReadResult × RawInput}
    (unread : s.unread src = c :: bytes) (positive : 1 ≤ n) (inside : n ≤ s.rawBuf.length)
    (reads : Reads src (s.consume n) l out) :
    Reads src s { l with line := c :: (bytes.take (n - 1) ++ l.line) } out := by
  refine ⟨reads.result, fun ok => ?_, reads.unread, reads.eolType, ⟨reads.frame.1, reads.frame.2, reads.frame.3, reads.frame.4⟩⟩
  have taken : s.rawBuf.take n = c :: bytes.take (n - 1) := by
    obtain ⟨m, rfl⟩ : ∃ m, n = m + 1 := ⟨n - 1, by omega⟩
    rw [Nat.add_sub_cancel, ← take_succ_cons, ← unread, RawInput.unread, take_append_of_le_length inside]
  rw [reads.lineBuf ok, RawInput.consume, taken, append_assoc]
  rfl

/-- **Buffering does not change what is read.**  Every iteration either asks for data, and the
refill then makes progress, or is the iteration that sees all unread bytes. -/
theorem readLoop_reads {size : Nat} (big : 4 < size) (steady : d.Steady src.encoding) {fuel : Nat}
    (outside : q.firstCharInLine = true → q.inQuote = false) (inv : LoopInv src needData hitEof s)
    (enough : effort src needData hitEof s < fuel) : Reads src s (d.scanLine src.encoding s.eolType 0 q (s.unread src))
      (d.readLoop size src fuel needData hitEof q s) := by
  induction fuel generalizing needData hitEof q s with
  | zero => omega
  | succ fuel ih =>
    obtain ⟨hitEof', s', refilled, filled⟩ := refill_spec big inv
    simp only [readLoop, refilled]
    cases buffer : s'.rawBuf with
    | nil =>
      have none := filled.exhausted buffer
      rw [none]
      exact ⟨rfl, fun _ => by simp [filled.lineBuf, scanLine], fun _ => by rw [filled.unread, none]; rfl,
        fun _ => filled.eolType, filled.frame⟩
    | cons c rest =>
      generalize fileRest : src.file.drop s'.pos = left
      have bytes : s.unread src = c :: (rest ++ left) := by
        rw [← filled.unread, RawInput.unread, buffer, fileRest, cons_append]
      -- An iteration that asks for data is repeated from a state that reads the same.
      have repeated : ∀ {q' : QuoteState}, d.next q' c = d.next q c → q'.firstCharInLine = q.firstCharInLine →
          (q'.firstCharInLine = true → q'.inQuote = false) → hitEof' = false → rest.length ≤ 3 →
          Reads src s (d.scanLine src.encoding s.eolType 0 q (s.unread src))
            (d.readLoop size src fuel true hitEof' q' s') := by
        intro q' same first outside' notEof few
        obtain ⟨inv', less⟩ := filled.again notEof (by rw [buffer, length_cons]; omega)
        have reads := filled.reads (ih outside' inv' (by omega))
        rwa [filled.unread, filled.eolType, bytes, scanLine_congr same first, ← bytes] at reads
      by_cases fetch : (c = backslash ∨ c = carriageReturn) ∧ rest = [] ∧ hitEof' = false
      · simp only [if_pos fetch]
        exact repeated rfl rfl outside fetch.2.2 (by rw [fetch.2.1]; simp)
      · simp only [if_neg fetch]
        have step := @decideStep_ok src.encoding s'.eolType q c rest d hitEof'
        -- A settled iteration is the one that sees all unread bytes.
        have seesAll : d.decideStep src.encoding s'.eolType q c rest hitEof' ≠ .needData →
            d.decideStep src.encoding s.eolType q c (rest ++ left) true =
              d.decideStep src.encoding s'.eolType q c rest hitEof' := by
          intro settled
          rw [← filled.eolType]
          cases eof : hitEof' with
          | false =>
            rw [eof] at settled fetch
            exact decideStep_stable (fun special empty => fetch ⟨special, empty, rfl⟩) settled left true
          | true => rw [← fileRest, filled.atEof eof, append_nil]
        rw [bytes]
        cases decided : d.decideStep src.encoding s'.eolType q c rest hitEof' with
        | needData =>
          rw [decided] at step
          rw [← bytes]
          refine repeated (next_next steady outside decided) rfl (fun first => ?_) step.1 step.2
          rcases needData_cases decided with ⟨rfl, -⟩ | ⟨embeds, high⟩
          · exact (d.next_inQuote q (Ne.symm steady.1)).trans (outside first)
          · refine (d.next_inQuote q fun same => ?_).trans (outside first)
            rw [same, (steady.2 embeds).1] at high
            cases high
        | advance n =>
          rw [decided] at step
          obtain ⟨positive, inside⟩ := step
          have inside' : n ≤ s'.rawBuf.length := by rw [buffer, length_cons]; exact inside
          obtain ⟨inv', unread, less⟩ := filled.consume positive inside'
          have reads := ih (q := { d.next q c with firstCharInLine := false }) (fun no => by cases no) inv' (by omega)
          rw [scanLine, seesAll (by simp [decided]), decided]
          simp only
          rw [scanLine_skip d src.encoding s.eolType _
            (show n - 1 ≤ (rest ++ left).length by rw [length_append]; omega)]
          rw [unread, bytes, show (s'.consume n).eolType = s.eolType from filled.eolType] at reads
          obtain ⟨m, rfl⟩ : ∃ m, n = m + 1 := ⟨n - 1, by omega⟩
          exact filled.reads (reads_advance (filled.unread.trans bytes) positive inside' reads)
        | endOfLine n e =>
          rw [decided] at step
          obtain ⟨terminator, length, -, -⟩ := step
          have inside : n ≤ (c :: rest).length := by
            have := congrArg List.length terminator
            rw [length_take] at this
            omega
          rw [scanLine, seesAll (by simp [decided]), decided]
          simp only
          rw [← cons_append, take_append_of_le_length inside, drop_append_of_le_length inside]
          exact ⟨rfl, fun _ => by rw [← filled.lineBuf, ← buffer]; rfl,
            fun _ => by rw [← buffer, ← fileRest]; rfl, fun _ => rfl,
            ⟨filled.frame.1, filled.frame.2, filled.frame.3, filled.frame.4⟩⟩
        | endOfFile n =>
          rw [decided] at step
          obtain ⟨inside, -⟩ := step
          rw [scanLine, seesAll (by simp [decided]), decided]
          simp only
          rw [← cons_append, take_append_of_le_length inside, drop_append_of_le_length inside]
          exact ⟨rfl, fun _ => by rw [← filled.lineBuf, ← buffer]; rfl,
            fun _ => by rw [← buffer, ← fileRest]; rfl, fun _ => filled.eolType,
            ⟨filled.frame.1, filled.frame.2, filled.frame.3, filled.frame.4⟩⟩
        | endOfCopy n =>
          rw [decided] at step
          obtain ⟨-, inside⟩ := step
          rw [scanLine, seesAll (by simp [decided]), decided]
          simp only
          rw [← cons_append, drop_append_of_le_length inside]
          exact ⟨rfl, fun _ => by simp [filled.lineBuf], fun _ => by rw [← fileRest]; rfl,
            fun _ => filled.eolType, ⟨filled.frame.1, filled.frame.2, filled.frame.3, filled.frame.4⟩⟩
        | error e =>
          rw [scanLine, seesAll (by simp [decided]), decided]
          exact ⟨rfl, fun ok => absurd rfl (ok e), fun ok => absurd rfl (ok e), fun ok => absurd rfl (ok e),
            filled.frame⟩

/-- **The reader reads the lines of the file**, whatever the size of its buffer. -/
theorem noDBCopyReadLineText_reads {size : Nat} (big : 4 < size) (steady : d.Steady src.encoding) {s : RawInput}
    (passed : s.HeaderPassed src) :
    Reads src s (d.scanLine src.encoding s.eolType 0 .start (s.unread src)) (d.noDBCopyReadLineText size src s) := by
  refine readLoop_reads big steady (fun _ => rfl) ⟨passed, (fun no => by cases no), (fun no => by cases no)⟩ ?_
  simp only [effort, RawInput.unread, length_append, length_drop, Bool.false_eq_true, if_false]
  omega

/-! ### The reader of the scans -/

theorem steady_standard (enc : Encoding) : standard.Steady enc := ⟨by decide, fun _ => ⟨rfl, rfl⟩⟩

theorem decideStep_standard (enc : Encoding) (eol : EolType) (q : QuoteState) (c : Byte) (rest : List Byte) (hitEof : Bool) :
    PostgresRaw.decideStep enc eol q c rest hitEof = standard.decideStep enc eol q c rest hitEof := rfl

/-- States that the next byte in the buffer makes equal. -/
def Alike (rawBuf : List Byte) (q q' : QuoteState) : Prop :=
  q' = q ∨ ∃ c rest, rawBuf = c :: rest ∧ q'.next c = q.next c ∧ q'.firstCharInLine = q.firstCharInLine

theorem Alike.append {rawBuf : List Byte} (alike : Alike rawBuf q q') (data : List Byte) :
    Alike (rawBuf ++ data) q q' := by
  refine alike.imp id ?_
  rintro ⟨c, rest, rfl, same⟩
  exact ⟨c, rest ++ data, rfl, same⟩

theorem Alike.head {c : Byte} {rest : List Byte} (alike : Alike (c :: rest) q q') :
    q'.next c = q.next c ∧ q'.firstCharInLine = q.firstCharInLine := by
  rcases alike with rfl | ⟨c', rest', same, equal⟩
  · exact ⟨rfl, rfl⟩
  · obtain ⟨rfl, rfl⟩ := List.cons.inj same
    exact equal

/-- A refill adds to the buffer. -/
theorem rawBuf_refill {hitEof' : Bool} {s' : RawInput}
    (refilled : PostgresRaw.refill src needData hitEof s = some (hitEof', s')) :
    ∃ data, s'.rawBuf = s.rawBuf ++ data := by
  have refilled' : refill rawBufSize src needData hitEof s = some (hitEof', s') := refilled
  obtain ⟨data, kept, -⟩ := refill_adds refilled'
  exact ⟨data, kept⟩

/-- The loop as the rest of the development has it, where an iteration that asks for data starts again
from the state it had. -/
theorem readLoop_standard {fuel : Nat} (outside : q.firstCharInLine = true → q.inQuote = false)
    (alike : Alike s.rawBuf q q') :
    standard.readLoop rawBufSize src fuel needData hitEof q' s = PostgresRaw.readLoop src fuel needData hitEof q s := by
  induction fuel generalizing needData hitEof q q' s with
  | zero => rfl
  | succ fuel ih =>
    rw [readLoop, PostgresRaw.readLoop, show refill rawBufSize src needData hitEof s =
      PostgresRaw.refill src needData hitEof s from rfl]
    cases refilled : PostgresRaw.refill src needData hitEof s with
    | none => rfl
    | some out =>
      obtain ⟨hitEof', s'⟩ := out
      obtain ⟨data, buffer⟩ := rawBuf_refill refilled
      have alike := alike.append data
      rw [← buffer] at alike
      simp only
      cases bytes : s'.rawBuf with
      | nil => rfl
      | cons c rest =>
        have head := alike
        rw [bytes] at head
        obtain ⟨same, first⟩ := head.head
        have decide : standard.decideStep src.encoding s'.eolType q' c rest hitEof' =
            standard.decideStep src.encoding s'.eolType q c rest hitEof' :=
          decideStep_congr (show standard.next q' c = standard.next q c from same) first hitEof'
        simp only [readStep]
        by_cases fetch : (c = backslash ∨ c = carriageReturn) ∧ rest = [] ∧ hitEof' = false
        · simp only [if_pos fetch]
          exact ih outside alike
        · simp only [if_neg fetch, decide, decideStep_standard]
          cases decided : standard.decideStep src.encoding s'.eolType q c rest hitEof' with
          | needData =>
            refine ih outside (.inr ⟨c, rest, bytes, ?_, first⟩)
            exact (congrArg (standard.next · c) same).trans (next_next (steady_standard _) outside decided)
          | advance n =>
            refine ih (fun no => by cases no) (.inl ?_)
            exact congrArg (fun q : QuoteState => { q with firstCharInLine := false }) same
          | endOfLine n e => rfl
          | endOfFile n => rfl
          | endOfCopy n => rfl
          | error e => rfl

/-- The reader of the scans is this one with their quote and `RAW_BUF_SIZE`. -/
theorem noDBCopyReadLineText_standard (src : Source) (s : RawInput) :
    standard.noDBCopyReadLineText rawBufSize src s = PostgresRaw.noDBCopyReadLineText src s :=
  readLoop_standard (fun _ => rfl) (.inl rfl)

end Dialect

end PostgresRaw
