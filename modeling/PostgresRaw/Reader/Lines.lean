import PostgresRaw.Reader.Buffered

/-!
# The lines of a file

What the plain reader delivers does not depend on how the file falls into buffers.
`scanLine` is the same loop without a buffer: every iteration sees all bytes up to the end of
the data.  `noDBCopyReadLineText_reads` says that the buffered loop finds the same line and leaves
the same bytes unread; it is the general fact about buffers for the quote of the scans.
-/

namespace PostgresRaw

/-- Only quotes change whether bytes are inside quotes. -/
theorem QuoteState.next_inQuote (q : QuoteState) {c : Byte} (notQuote : c ≠ defaultQuote) :
    (q.next c).inQuote = q.inQuote := by
  simp only [QuoteState.next]
  rw [if_neg fun both => notQuote both.1]

/-- Every iteration is one of `StepOk`. -/
theorem readStep_ok {enc : Encoding} {eol : EolType} {q : QuoteState} {c : Byte} {rest : List Byte} (hitEof : Bool) :
    StepOk eol q c rest hitEof (readStep enc eol q c rest hitEof) := by
  unfold readStep
  split
  · rename_i fetch
    obtain ⟨-, rfl, rfl⟩ := fetch
    exact ⟨rfl, by simp⟩
  · exact Dialect.decideStep_ok (d := .standard) hitEof

/-! ### The loop without a buffer -/

/-- The loop of `NoDBCopyReadLineText` on all bytes up to the end of the data.  `skip` counts
the bytes of a multibyte character that are still to be passed. -/
def scanLine (enc : Encoding) (eol : EolType) : (skip : Nat) → QuoteState → List Byte → LineScan
  | _, _, [] => ⟨.done, [], [], eol⟩
  | skip + 1, q, c :: rest => (scanLine enc eol skip q rest).cons c
  | 0, q, c :: rest =>
    match readStep enc eol q c rest true with
    | .needData => ⟨.error .undefined, [], c :: rest, eol⟩
    | .advance n =>
      (scanLine enc eol (n - 1) { q.next c with firstCharInLine := false } rest).cons c
    | .endOfLine n e => ⟨.line, (c :: rest).take n, (c :: rest).drop n, e⟩
    | .endOfFile n => ⟨.done, (c :: rest).take n, (c :: rest).drop n, eol⟩
    | .endOfCopy n => ⟨.done, [], (c :: rest).drop n, eol⟩
    | .error e => ⟨.error e, [], c :: rest, eol⟩

theorem scanLine_standard (enc : Encoding) (eol : EolType) (skip : Nat) (q : QuoteState) (bytes : List Byte) :
    Dialect.standard.scanLine enc eol skip q bytes = scanLine enc eol skip q bytes := by
  induction bytes generalizing skip q with
  | nil => cases skip <;> rfl
  | cons c rest ih =>
    cases skip with
    | succ skip => exact congrArg (LineScan.cons c) (ih skip q)
    | zero =>
      have step : readStep enc eol q c rest true = Dialect.standard.decideStep enc eol q c rest true :=
        if_neg (by simp)
      rw [scanLine, Dialect.scanLine, step]
      cases Dialect.standard.decideStep enc eol q c rest true with
      | advance n => exact congrArg (LineScan.cons c) (ih _ _)
      | needData => rfl
      | endOfLine n e => rfl
      | endOfFile n => rfl
      | endOfCopy n => rfl
      | error e => rfl

variable {s : RawInput} {src : Source}

/-- Loading the buffer moves bytes from the file to the buffer and reports whether there were
any. -/
theorem noDBCopyLoadRawBuf_eq (passed : s.HeaderPassed src) :
    noDBCopyLoadRawBuf src s = some
      (decide (src.fread s.pos (rawBufSize - s.rawBuf.length) ≠ []),
        { s with
          pos := s.pos + (src.fread s.pos (rawBufSize - s.rawBuf.length)).length
          rawBuf := s.rawBuf ++ src.fread s.pos (rawBufSize - s.rawBuf.length) }) := by
  rw [noDBCopyLoadRawBuf, noDBCopyGetData_passed passed]

/-- **The plain reader reads the lines of the file.** -/
theorem noDBCopyReadLineText_reads {src : Source} {s : RawInput} (passed : s.HeaderPassed src) :
    Reads src s (scanLine src.encoding s.eolType 0 .start (s.unread src)) (noDBCopyReadLineText src s) := by
  rw [← scanLine_standard, ← Dialect.noDBCopyReadLineText_standard]
  exact Dialect.noDBCopyReadLineText_reads (by decide) (Dialect.steady_standard _) passed

/-! ### What a line looks like -/

theorem scanLine_line {enc : Encoding} {eol : EolType} {skip : Nat} {q : QuoteState}
    {bytes : List Byte} (delivered : (scanLine enc eol skip q bytes).result = .line) :
    (scanLine enc eol skip q bytes).Delivered eol bytes := by
  rw [← scanLine_standard] at delivered ⊢
  exact Dialect.scanLine_line delivered

/-- At the end of the data the style is the one found before. -/
theorem scanLine_done {enc : Encoding} {eol : EolType} {skip : Nat} {q : QuoteState}
    {bytes : List Byte} (done : (scanLine enc eol skip q bytes).result = .done) :
    (scanLine enc eol skip q bytes).eolType = eol := by
  induction bytes generalizing skip q with
  | nil => cases skip <;> rfl
  | cons c rest ih =>
    cases skip with
    | succ skip => exact @ih skip q done
    | zero =>
      cases decided : readStep enc eol q c rest true with
      | advance n => simp only [scanLine, decided] at done ⊢; exact ih done
      | needData => simp only [scanLine, decided]
      | endOfLine n e => simp [scanLine, decided] at done
      | endOfFile n => simp only [scanLine, decided]
      | endOfCopy n => simp only [scanLine, decided]
      | error e => simp only [scanLine, decided]

/-! ### `NoDBGetNextTupleFromFile` -/

/-- A line without its terminator. -/
def LineScan.content (l : LineScan) : List Byte :=
  l.line.take (l.line.length - l.eolType.terminator.length)

/-- What a call for row `i` that delivers the line `l` does to the state. -/
structure DeliversLine (src : Source) (s : RawInput) (i : Nat) (l : LineScan) (s' : RawInput) :
    Prop where
  lineBuf : s'.lineBuf = src.convert l.content
  unread : s'.unread src = l.rest
  eolType : s'.eolType = l.eolType
  readHeader : s'.readHeader = s.readHeader
  tupleStored : s'.tupleStored = s.tupleStored
  tupleRead : s'.tupleRead = s.tupleRead + 1
  eolCache : s'.eolCache = { s.eolCache.setShortInt i l.line.length with usedRows := i + 1 }

section

variable {l : LineScan} (passed : s.HeaderPassed src)
  (scan : scanLine src.encoding s.eolType 0 .start (s.unread src) = l)

include passed scan

/-- What a call reads. -/
theorem reads_next :
    Reads src { s with lineBuf := [] } l (noDBCopyReadLineText src { s with lineBuf := [] }) :=
  scan ▸ noDBCopyReadLineText_reads (s := { s with lineBuf := [] }) passed

/-- A call on a state with a line left delivers that line. -/
theorem noDBGetNextTupleFromFile_line (i : Nat) (delivered : l.result = .line) :
    ∃ s', noDBGetNextTupleFromFile src i s = (.line, s') ∧ DeliversLine src s i l s' := by
  have reads := reads_next passed scan
  obtain ⟨content, line, -, known, -⟩ := scanLine_line (scan ▸ delivered)
  rw [scan] at line known
  have ok : ∀ e, l.result ≠ .error e := by simp [delivered]
  generalize out : noDBCopyReadLineText src { s with lineBuf := [] } = result at reads
  obtain ⟨result, s₁⟩ := result
  obtain rfl : result = .line := reads.result.trans delivered
  have lineBuf : s₁.lineBuf = l.line := by simpa using reads.lineBuf ok
  have style : s₁.eolType = l.eolType := reads.eolType ok
  have terminator : (if s₁.eolType = .crnl then 2 else 1) = l.eolType.terminator.length := by
    rw [style]
    cases h : l.eolType with
    | unknown => exact absurd h known
    | nl => rfl
    | cr => rfl
    | crnl => rfl
  refine ⟨_, by rw [noDBGetNextTupleFromFile, out], ?_⟩
  have length : (l.line.take (l.line.length - l.eolType.terminator.length)).length +
      l.eolType.terminator.length = l.line.length := by
    rw [line]; simp
  exact {
    lineBuf := by simp only [terminator, lineBuf]; rfl
    unread := reads.unread ok
    eolType := style
    readHeader := reads.frame.readHeader
    tupleStored := reads.frame.tupleStored
    tupleRead := by simp only; rw [reads.frame.tupleRead]
    eolCache := by
      simp only [terminator, lineBuf]
      rw [reads.frame.eolCache, ← length]
      simp }

/-- A call on a state without a further line reports the end of the data. -/
theorem noDBGetNextTupleFromFile_done (i : Nat) (done : l.result = .done) :
    ∃ s', noDBGetNextTupleFromFile src i s = (.done, s') ∧ s'.lineBuf = l.line ∧
      s'.unread src = l.rest ∧ s'.eolType = l.eolType ∧ SameBut s s' := by
  have reads := reads_next passed scan
  have ok : ∀ e, l.result ≠ .error e := by simp [done]
  generalize out : noDBCopyReadLineText src { s with lineBuf := [] } = result at reads
  obtain ⟨result, s₁⟩ := result
  obtain rfl : result = .done := reads.result.trans done
  exact ⟨s₁, by rw [noDBGetNextTupleFromFile, out], by simpa using reads.lineBuf ok, reads.unread ok, reads.eolType ok,
    ⟨reads.frame.1, reads.frame.2, reads.frame.3, reads.frame.4⟩⟩

end

end PostgresRaw
