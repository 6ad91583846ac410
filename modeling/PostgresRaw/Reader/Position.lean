import PostgresRaw.Reader.EolReread

/-!
# Lines by number

The lines of a file with their terminators, as one pass of the plain reader over the whole file
finds them (`readableLines`), and what is read from the middle of the file.

A scan that has taken its first rows from elsewhere starts the plain reader at a later line,
without a line-end style.  `scanLine_unknown` says that it reads the same line as the pass over
the whole file, except that a carriage return followed by a newline is one terminator to it, even
where the pass has found out that lines end in carriage returns.
-/

namespace PostgresRaw

open List

/-! ### The lines of a file -/

/-- The lines that the plain reader delivers before the data ends or an error is raised, the
line-end style, and the bytes behind these lines. -/
structure ReadableLines where
  lines : List (List Byte)
  eolType : EolType
  tail : List Byte

/-- Split the unread bytes into lines, at most `fuel` of them. -/
def readableLinesFrom (enc : Encoding) : (fuel : Nat) → EolType → List Byte → ReadableLines
  | 0, eol, bytes => ⟨[], eol, bytes⟩
  | fuel + 1, eol, bytes =>
    let l := scanLine enc eol 0 .start bytes
    if l.result = .line then
      let rest := readableLinesFrom enc fuel l.eolType l.rest
      { rest with lines := l.line :: rest.lines }
    else ⟨[], eol, bytes⟩

/-- The lines of a file; there are not more than it has bytes. -/
def readableLines (enc : Encoding) (file : List Byte) : ReadableLines :=
  readableLinesFrom enc file.length .unknown file

/-- The bytes from line `p` on. -/
def ReadableLines.from (readable : ReadableLines) (p : Nat) : List Byte :=
  (readable.lines.drop p).flatten ++ readable.tail

theorem readableLinesFrom_from_zero (enc : Encoding) (fuel : Nat) (eol : EolType) (bytes : List Byte) :
    (readableLinesFrom enc fuel eol bytes).from 0 = bytes := by
  induction fuel generalizing eol bytes with
  | zero => rfl
  | succ fuel ih =>
    simp only [readableLinesFrom]
    split
    · next delivered =>
      obtain ⟨-, -, split, -⟩ := scanLine_line delivered
      have rest := ih (scanLine enc eol 0 .start bytes).eolType (scanLine enc eol 0 .start bytes).rest
      rw [ReadableLines.from, drop_zero] at rest ⊢
      rw [flatten_cons, append_assoc, rest, ← split]
    · rfl

variable {eol : EolType} {enc : Encoding} {p : Nat} {file : List Byte}

/-- Once a style has been found, it stays. -/
theorem readableLinesFrom_eolType (enc : Encoding) (known : eol ≠ .unknown) (fuel : Nat) (bytes : List Byte) :
    (readableLinesFrom enc fuel eol bytes).eolType = eol := by
  induction fuel generalizing eol bytes with
  | zero => rfl
  | succ fuel ih =>
    simp only [readableLinesFrom]
    split
    · next delivered =>
      obtain ⟨-, -, -, known', style⟩ := scanLine_line delivered
      rcases style with unknown | same
      · exact absurd unknown known
      · exact (ih known' _).trans same
    · rfl

/-- The reader finds line `p` at the start of the bytes from `p` on: with the style `eol` at the
first line, with the one of the file at the others. -/
structure ReadableLines.ScansAt (readable : ReadableLines) (enc : Encoding) (eol : EolType) (p : Nat)
    (l : LineScan) : Prop where
  scan : scanLine enc eol 0 .start (readable.from p) = l
  result : l.result = .line
  line : readable.lines[p]? = some l.line
  rest : l.rest = readable.from (p + 1)
  eolType : l.eolType = readable.eolType

theorem readableLinesFrom_scansAt {fuel : Nat} {bytes : List Byte}
    (inside : p < (readableLinesFrom enc fuel eol bytes).lines.length) :
    ∃ l, (readableLinesFrom enc fuel eol bytes).ScansAt enc
      (if p = 0 then eol else (readableLinesFrom enc fuel eol bytes).eolType) p l := by
  induction fuel generalizing eol bytes p with
  | zero => cases inside
  | succ fuel ih =>
    have whole := readableLinesFrom_from_zero enc (fuel + 1) eol bytes
    simp only [readableLinesFrom] at inside whole ⊢
    split at inside
    · next delivered =>
      rw [if_pos delivered] at whole ⊢
      obtain ⟨-, -, -, known, -⟩ := scanLine_line delivered
      have style := readableLinesFrom_eolType enc known fuel (scanLine enc eol 0 .start bytes).rest
      have rest := readableLinesFrom_from_zero enc fuel (scanLine enc eol 0 .start bytes).eolType
        (scanLine enc eol 0 .start bytes).rest
      cases p with
      | zero =>
        exact ⟨scanLine enc eol 0 .start bytes, by rw [whole]; rfl, delivered, rfl, rest.symm, style.symm⟩
      | succ p =>
        obtain ⟨l, scans⟩ := ih (by simpa using inside)
        refine ⟨l, ?_, scans.result, scans.line, scans.rest, scans.eolType⟩
        have scan := scans.scan
        rw [style, ite_self] at scan
        rw [if_neg (Nat.succ_ne_zero p), style]
        exact scan
    · cases inside

/-- **Line `p` by number.** -/
theorem readableLines_scansAt (inside : p < (readableLines enc file).lines.length) :
    ∃ l, (readableLines enc file).ScansAt enc
      (if p = 0 then .unknown else (readableLines enc file).eolType) p l :=
  readableLinesFrom_scansAt inside

theorem readableLines_from_zero (enc : Encoding) (file : List Byte) : (readableLines enc file).from 0 = file :=
  readableLinesFrom_from_zero enc file.length .unknown file

/-- The bytes of line `p` are followed by those from the next line on. -/
theorem ReadableLines.from_eq_append {readable : ReadableLines} {raw : List Byte} (line : readable.lines[p]? = some raw) :
    readable.from p = raw ++ readable.from (p + 1) := by
  obtain ⟨inside, rfl⟩ := List.getElem?_eq_some_iff.1 line
  rw [ReadableLines.from, ReadableLines.from, drop_eq_getElem_cons inside, flatten_cons, append_assoc]

/-- Lines are not empty. -/
theorem readableLinesFrom_positive {fuel : Nat} {bytes raw : List Byte}
    (mem : raw ∈ (readableLinesFrom enc fuel eol bytes).lines) : 0 < raw.length := by
  obtain ⟨p, inside, rfl⟩ := mem_iff_getElem.1 mem
  obtain ⟨l, scans⟩ := readableLinesFrom_scansAt inside
  obtain ⟨content, line, -, known, -⟩ := scanLine_line (scans.scan ▸ scans.result)
  rw [scans.scan] at line known
  have same : (readableLinesFrom enc fuel eol bytes).lines[p] = l.line := by
    simpa [getElem?_eq_getElem inside] using scans.line
  rw [same, line, length_append]
  have := length_pos_iff.2 (terminator_ne_nil known)
  omega

/-! ### Reading without a style -/

section

variable {enc : Encoding} {eol : EolType} {q : QuoteState} {c : Byte} {rest : List Byte}

/-- Once the end of the file has been seen, an iteration does not ask for more data. -/
theorem readStep_atEof : readStep enc eol q c rest true = decideStep enc eol q c rest true := by
  simp [readStep]

/-- Without a style, an iteration ends the line where it does with one, unless what follows a
carriage return makes a longer terminator of it. -/
theorem readStep_unknown_endOfLine (inLine : ¬ (c = backslash ∧ q.firstCharInLine = true)) {n : Nat} {e : EolType}
    (ends : readStep enc eol q c rest true = .endOfLine n e) (apart : e = .cr → rest.head? ≠ some newline) :
    readStep enc .unknown q c rest true = .endOfLine n e := by
  simp only [readStep_atEof, decideStep, if_neg inLine] at ends ⊢
  by_cases isReturn : c = carriageReturn ∧ (q.next c).inQuote = false
  · rw [if_pos isReturn] at ends ⊢
    cases eol with
    | unknown => exact ends
    | nl => cases ends
    | cr =>
      cases ends
      have next : peek rest ≠ newline := by
        cases rest with
        | nil => decide
        | cons b rest => simpa [peek] using apart rfl
      simp only [if_neg next]
    | crnl =>
      simp only at ends
      split at ends
      · next follows => simpa only [if_pos follows] using ends
      · cases ends
  · rw [if_neg isReturn] at ends ⊢
    by_cases isNewline : c = newline ∧ (q.next c).inQuote = false
    · rw [if_pos isNewline] at ends ⊢
      cases eol with
      | unknown => exact ends
      | nl => exact ends
      | cr => cases ends
      | crnl => cases ends
    · rw [if_neg isNewline] at ends ⊢
      exact ends

/-- An iteration goes on within the line where it does with a style. -/
theorem readStep_unknown_advance (inLine : ¬ (c = backslash ∧ q.firstCharInLine = true)) {n : Nat}
    (advances : readStep enc eol q c rest true = .advance n) : readStep enc .unknown q c rest true = .advance n := by
  simp only [readStep_atEof, decideStep, if_neg inLine] at advances ⊢
  by_cases isReturn : c = carriageReturn ∧ (q.next c).inQuote = false
  · rw [if_pos isReturn] at advances
    cases eol with
    | unknown => simp only at advances; split at advances <;> cases advances
    | nl => cases advances
    | cr => cases advances
    | crnl => simp only at advances; split at advances <;> cases advances
  · rw [if_neg isReturn] at advances ⊢
    by_cases isNewline : c = newline ∧ (q.next c).inQuote = false
    · rw [if_pos isNewline] at advances
      cases eol <;> cases advances
    · rw [if_neg isNewline] at advances ⊢
      exact advances

variable (enc eol) in
/-- A line is delivered, and its terminator is not the start of a longer one. -/
structure DeliveredApart (skip : Nat) (q : QuoteState) (bytes : List Byte) : Prop where
  delivered : (scanLine enc eol skip q bytes).result = .line
  apart : (scanLine enc eol skip q bytes).eolType = .cr →
    (scanLine enc eol skip q bytes).rest.head? ≠ some newline

/-- One iteration of the scan without a style, given the ones that follow. -/
theorem scanLine_unknown_step (inLine : ¬ (c = backslash ∧ q.firstCharInLine = true))
    (line : DeliveredApart enc eol 0 q (c :: rest))
    (later : ∀ skip, DeliveredApart enc eol skip { q.next c with firstCharInLine := false } rest →
      scanLine enc .unknown skip { q.next c with firstCharInLine := false } rest =
        scanLine enc eol skip { q.next c with firstCharInLine := false } rest) :
    scanLine enc .unknown 0 q (c :: rest) = scanLine enc eol 0 q (c :: rest) := by
  obtain ⟨delivered, apart⟩ := line
  cases decided : readStep enc eol q c rest true with
  | advance n =>
    simp only [scanLine, decided] at delivered apart
    simp only [scanLine, decided, readStep_unknown_advance inLine decided]
    exact congrArg (LineScan.cons c) (later _ ⟨delivered, apart⟩)
  | endOfLine n e =>
    have step := @readStep_ok enc eol q c rest true
    rw [decided] at step
    obtain ⟨-, length, -⟩ := step
    simp only [scanLine, decided] at apart
    have follows : e = .cr → rest.head? ≠ some newline := by
      rintro rfl
      rw [show n = 1 from length] at apart
      exact apart rfl
    simp only [scanLine, decided, readStep_unknown_endOfLine inLine decided follows]
  | needData => simp [scanLine, decided] at delivered
  | endOfFile n => simp [scanLine, decided] at delivered
  | endOfCopy n => simp [scanLine, decided] at delivered
  | error e => simp [scanLine, decided] at delivered

/-- Behind the first byte of a line the scan needs no style. -/
theorem scanLine_unknown_inside {skip : Nat} {bytes : List Byte} (inLine : q.firstCharInLine = false)
    (line : DeliveredApart enc eol skip q bytes) :
    scanLine enc .unknown skip q bytes = scanLine enc eol skip q bytes := by
  induction bytes generalizing skip q with
  | nil => cases skip <;> cases line.delivered
  | cons c rest ih =>
    cases skip with
    | succ skip => exact congrArg (LineScan.cons c) (ih inLine ⟨line.delivered, line.apart⟩)
    | zero => exact scanLine_unknown_step (by simp [inLine]) line fun skip line => ih rfl line

/-- Where lines end in carriage return and newline, a line that starts with `\.` and a lone byte of
a terminator is not delivered. -/
theorem not_delivered_marker (lone : peek rest = newline ∨ peek rest = carriageReturn ∧ peek rest.tail ≠ newline) :
    (scanLine enc .crnl 0 ⟨false, false, false⟩ (46 :: rest)).result ≠ .line := by
  have dot : readStep enc .crnl ⟨false, false, false⟩ 46 rest true = .advance 1 := by
    simp [readStep, decideStep, multibyteStep, carriageReturn, newline, backslash, isHighbitSet]
  cases rest with
  | nil => simp [peek, nulByte, newline, carriageReturn] at lone
  | cons b rest =>
    simp only [scanLine, dot, LineScan.cons, Nat.sub_self]
    change (scanLine enc .crnl 0 ⟨false, false, false⟩ (b :: rest)).result ≠ .line
    rcases lone with isNewline | ⟨isReturn, apart⟩
    · obtain rfl : b = newline := isNewline
      have fails : readStep enc .crnl ⟨false, false, false⟩ newline rest true = .error .unquotedNewline := rfl
      simp [scanLine, fails]
    · obtain rfl : b = carriageReturn := isReturn
      have fails : readStep enc .crnl ⟨false, false, false⟩ carriageReturn rest true =
          .error .unquotedCarriageReturn := by
        rw [readStep_atEof]
        exact if_neg apart
      simp [scanLine, fails]

/-- The first iteration of a line that starts with a backslash. -/
theorem readStep_backslash :
    readStep enc eol .start backslash rest true = backslashStep eol rest true (.advance 1) := by
  have plain : multibyteStep enc backslash rest true = .advance 1 := multibyteStep_ascii (by decide) true
  rw [readStep_atEof, ← plain]
  rfl

/-- The check for the marker fails at a byte that ends no line, whatever the style. -/
theorem markerEnd_other (other : peek rest ≠ carriageReturn ∧ peek rest ≠ newline) (eol : EolType)
    (consumed : Nat) (otherwise : ReadStep) : markerEnd eol consumed rest true otherwise = otherwise := by
  simp only [markerEnd, Bool.true_eq_false, and_false, if_false, if_pos other]

/-- At a byte that may end a line it finds the marker or raises an error. -/
theorem markerEnd_terminator (terminator : ¬ (peek rest ≠ carriageReturn ∧ peek rest ≠ newline))
    (consumed : Nat) (otherwise : ReadStep) : (∃ n, markerEnd eol consumed rest true otherwise = .endOfCopy n) ∨
      ∃ e, markerEnd eol consumed rest true otherwise = .error e := by
  simp only [markerEnd, Bool.true_eq_false, and_false, if_false, if_neg terminator]
  split
  · exact .inr ⟨_, rfl⟩
  · exact .inl ⟨_, rfl⟩

/-- A line that is delivered does not start with `\.` and a byte of a terminator. -/
theorem peek_of_delivered (delivered : (scanLine enc eol 0 .start (backslash :: 46 :: rest)).result = .line) :
    peek rest ≠ carriageReturn ∧ peek rest ≠ newline := by
  by_contra marker
  have stops : ∀ {step}, backslashStep eol (46 :: rest) true (.advance 1) = step →
      ¬ ((∃ n, step = .endOfCopy n) ∨ ∃ e, step = .error e) := by
    rintro step first (⟨n, rfl⟩ | ⟨e, rfl⟩) <;> simp [scanLine, readStep_backslash, first] at delivered
  by_cases crnl : eol = .crnl
  · subst crnl
    have goesOn : backslashStep .crnl (46 :: rest) true (.advance 1) = .advance 1 →
        ¬ (peek rest = newline ∨ peek rest = carriageReturn ∧ peek rest.tail ≠ newline) := by
      intro first lone
      simp only [scanLine, readStep_backslash, first] at delivered
      exact not_delivered_marker lone delivered
    by_cases isReturn : peek rest = carriageReturn
    · by_cases other : peek rest.tail ≠ carriageReturn ∧ peek rest.tail ≠ newline
      · refine goesOn ?_ (.inr ⟨isReturn, other.2⟩)
        simp [backslashStep, isReturn, markerEnd_other other]
      · refine stops ?_ (@markerEnd_terminator .crnl rest.tail other 3 (.advance 1))
        simp [backslashStep, isReturn]
    · have isNewline : peek rest = newline := by
        by_contra different
        exact marker ⟨isReturn, different⟩
      refine goesOn ?_ (.inl isNewline)
      simp [backslashStep, isReturn]
  · refine stops ?_ (@markerEnd_terminator eol rest marker 2 (.advance 1))
    simp [backslashStep, crnl]

/-- A line that starts with a backslash and is delivered goes on behind it, with or without a
style. -/
theorem readStep_unknown_backslash (delivered : (scanLine enc eol 0 .start (backslash :: rest)).result = .line) :
    readStep enc eol .start backslash rest true = .advance 1 ∧
      readStep enc .unknown .start backslash rest true = .advance 1 := by
  rw [readStep_backslash, readStep_backslash]
  cases rest with
  | nil => simp [scanLine, readStep_backslash, backslashStep] at delivered
  | cons b rest =>
    by_cases dot : b = 46
    · subst dot
      have other := peek_of_delivered delivered
      have goesOn : ∀ eol, backslashStep eol (46 :: rest) true (.advance 1) = .advance 1 := by
        intro eol
        by_cases crnl : eol = .crnl
        · simp [backslashStep, crnl, other.1]
        · simp [backslashStep, crnl, markerEnd_other other]
      exact ⟨goesOn eol, goesOn .unknown⟩
    · simp [backslashStep, dot]

/-- **The reader needs no style to find a line**, except where a newline follows a carriage return
that ends the line on its own. -/
theorem scanLine_unknown {bytes : List Byte} (line : DeliveredApart enc eol 0 .start bytes) :
    scanLine enc .unknown 0 .start bytes = scanLine enc eol 0 .start bytes := by
  cases bytes with
  | nil => cases line.delivered
  | cons c rest =>
    by_cases first : c = backslash
    · subst first
      obtain ⟨goesOn, goesOn'⟩ := readStep_unknown_backslash line.delivered
      obtain ⟨delivered, apart⟩ := line
      simp only [scanLine, goesOn] at delivered apart
      simp only [scanLine, goesOn, goesOn']
      exact congrArg (LineScan.cons backslash) (scanLine_unknown_inside rfl ⟨delivered, apart⟩)
    · exact scanLine_unknown_step (fun both => first both.1) line
        fun skip line => scanLine_unknown_inside rfl line

end

/-! ### Reading in the middle of a file -/

/-- The bytes behind the last line do not start with a newline where lines end in carriage
returns. -/
def ReadableLines.Apart (readable : ReadableLines) : Prop :=
  readable.eolType = .cr → readable.tail.head? ≠ some newline

/-- Where lines end in carriage returns, no line starts with a newline. -/
theorem readableLines_head (apart : (readableLines enc file).Apart) (style : (readableLines enc file).eolType = .cr)
    (positive : 0 < p) : ((readableLines enc file).from p).head? ≠ some newline := by
  by_cases inside : p < (readableLines enc file).lines.length
  · obtain ⟨l, scans⟩ := readableLines_scansAt inside
    have scan := scans.scan
    rw [if_neg (by omega), style] at scan
    intro starts
    obtain ⟨rest, here⟩ : ∃ rest, (readableLines enc file).from p = newline :: rest := by
      cases bytes : (readableLines enc file).from p with
      | nil => rw [bytes] at starts; cases starts
      | cons b rest => rw [bytes] at starts; cases starts; exact ⟨rest, rfl⟩
    have fails : readStep enc .cr .start newline rest true = .error .unquotedNewline := rfl
    have result := scans.result
    rw [← scan, here] at result
    simp [scanLine, fails] at result
  · rw [ReadableLines.from, drop_eq_nil_of_le (by omega)]
    exact apart style

/-- **Line `p` is found with the style of the file or without one.** -/
theorem readableLines_scansAt_of_style (apart : (readableLines enc file).Apart)
    (inside : p < (readableLines enc file).lines.length)
    (style : eol = .unknown ∨ 0 < p ∧ eol = (readableLines enc file).eolType) :
    ∃ l, (readableLines enc file).ScansAt enc eol p l := by
  obtain ⟨l, scans⟩ := readableLines_scansAt inside
  rcases Nat.eq_zero_or_pos p with rfl | positive
  · obtain rfl : eol = .unknown := style.resolve_right fun known => absurd known.1 (lt_irrefl 0)
    exact ⟨l, scans⟩
  · rw [if_neg (by omega)] at scans
    rcases style with rfl | ⟨-, rfl⟩
    · refine ⟨l, { scans with scan := ?_ }⟩
      rw [scanLine_unknown ⟨scans.scan ▸ scans.result, ?_⟩]
      · exact scans.scan
      · rw [scans.scan, scans.rest, scans.eolType]
        exact fun style => readableLines_head apart style (Nat.succ_pos p)
    · exact ⟨l, scans⟩

end PostgresRaw
