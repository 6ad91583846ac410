import PostgresRaw.Reader.LastLine

/-!
# Passing the header

With `HEADER` the first `NoDBCopyGetData` of a scan looks for the end of the header by itself: it loads
one buffer, searches it for a line feed, and reads again from behind that.  The first line of the file
ends where `NoDBCopyReadLineText` says; `SkipsFirstLine` says that the two agree, and
`skipsFirstLine_iff` when they do.

What is load-bearing is a description of the first line without the reader (`HeaderIsLine`): the first
line feed must be in the first buffer, and the line must end there, so it may not be inside quotes and no
other line end may stand in front of it.  The search knows none of this, and it has no end of its own:
without a line feed in the buffer it goes on behind the bytes that were read.
-/

namespace PostgresRaw

open List

/-- Where the first line of the file ends, if it is read like any other line. -/
def Source.firstLineEnd (src : Source) : Nat :=
  src.file.length - ((noDBCopyReadLineText { src with headerLine := false } (.fresh .fresh)).2.unread src).length

/-- The first `NoDBCopyGetData` of a scan looks at nothing but the bytes it has read, and reads on from
behind the first line. -/
def SkipsFirstLine (src : Source) : Prop :=
  ∀ eolCache, ∃ data s, noDBCopyGetData src rawBufSize (.fresh eolCache) = some (data, s) ∧
    data = src.fread src.firstLineEnd rawBufSize ∧ s.pos = src.firstLineEnd + data.length

/-- **The header is a line up to the first line feed.**  The file is empty, or the first line feed is
in the first buffer and ends the first line, alone or together with the carriage return before it.  The
last byte of the file is the end of the first line also if it is inside quotes or a character. -/
def HeaderIsLine (enc : Encoding) (file : List Byte) : Prop :=
  file = [] ∨ ∃ header rest, file = header ++ newline :: rest ∧ newline ∉ header ∧ header.length < rawBufSize ∧
    (IsLine enc header ∨
      (∃ text, header = text ++ [carriageReturn] ∧ IsLine enc text ∧ text ≠ endOfCopyMarker) ∨
      (rest = [] ∧ (walk enc 0 .start file).isSome = true))

section

variable {enc : Encoding} {q : QuoteState} {c : Byte} {rest : List Byte}

/-! ### Reading without a style -/

theorem markerEnd_unknown_ne_error {consumed : Nat} {hitEof : Bool} {otherwise : ReadStep} {e : ReadError}
    (other : otherwise ≠ .error e) : markerEnd .unknown consumed rest hitEof otherwise ≠ .error e := by
  unfold markerEnd
  split
  · nofun
  · simp only [reduceCtorEq, false_and, or_self, if_false]
    split
    · exact other
    · nofun

/-- Before a style has been found there is nothing to contradict it. -/
theorem readStep_unknown_ne_error {hitEof : Bool} (e : ReadError) :
    readStep enc .unknown q c rest hitEof ≠ .error e := by
  have multibyte : multibyteStep enc c rest hitEof ≠ .error e := by
    unfold multibyteStep
    split_ifs <;> exact fun no => by cases no
  unfold readStep decideStep
  split
  · nofun
  · split
    · simp only
      split <;> nofun
    · split
      · nofun
      · split
        · unfold backslashStep
          split
          · split <;> nofun
          · split
            · simp only [reduceCtorEq, if_false]
              exact markerEnd_unknown_ne_error multibyte
            · exact multibyte
        · exact multibyte

theorem scanLine_unknown_ne_error {skip : Nat} {bytes : List Byte} (e : ReadError) :
    (scanLine enc .unknown skip q bytes).result ≠ .error e := by
  induction bytes generalizing skip q with
  | nil => cases skip <;> nofun
  | cons c rest ih =>
    cases skip with
    | succ skip => exact @ih q skip
    | zero =>
      have ok := @readStep_ok enc .unknown q c rest true
      cases step : readStep enc .unknown q c rest true with
      | needData =>
        rw [step] at ok
        cases ok.1
      | advance n =>
        simp only [scanLine, step]
        exact ih
      | endOfLine n e => simp [scanLine, step]
      | endOfFile n => simp [scanLine, step]
      | endOfCopy n => simp [scanLine, step]
      | error e' => exact absurd step (readStep_unknown_ne_error e')

/-- Behind a marker alone on the first line the reader stops. -/
theorem scanLine_unknown_marker (isBreak : isBreak c = true) :
    scanLine enc .unknown 0 .start (endOfCopyMarker ++ c :: rest) = ⟨.done, [], rest, .unknown⟩ := by
  have terminates : ¬ (c ≠ carriageReturn ∧ c ≠ newline) := by
    rintro ⟨notReturn, notNewline⟩
    rcases isBreak_iff.1 isBreak with same | same
    · exact notReturn same
    · exact notNewline same
  have step : readStep enc .unknown .start backslash (46 :: c :: rest) true = .endOfCopy 3 := by
    simp [readStep, decideStep, backslashStep, markerEnd, peek, QuoteState.start, backslash, carriageReturn, newline]
      at terminates ⊢
    exact fun notReturn notNewline => absurd (terminates notReturn) notNewline
  change scanLine enc .unknown 0 .start (backslash :: 46 :: c :: rest) = _
  rw [scanLine, step]
  rfl

theorem isLine_endOfCopyMarker (enc : Encoding) : IsLine enc endOfCopyMarker := by
  refine ⟨⟨false, false, false⟩, ?_, rfl⟩
  rw [endOfCopyMarker, walk_of_goesOn (by decide), charLength_backslash, walk_of_goesOn (by decide),
    show enc.charLength 46 = 1 from if_neg fun both => absurd both.2 (by decide)]
  rfl

end

/-! ### The first line -/

theorem Source.firstLineEnd_eq (src : Source) :
    src.firstLineEnd = src.file.length - (scanLine src.encoding .unknown 0 .start src.file).rest.length := by
  have reads := @noDBCopyReadLineText_reads { src with headerLine := false } (.fresh .fresh) (.inl rfl)
  have unread := reads.unread fun e => scanLine_unknown_ne_error e
  rw [Source.firstLineEnd]
  exact congrArg (fun rest : List Byte => src.file.length - rest.length) unread

variable {src : Source}

/-- **The first line ends at the first line feed**, if the header is a line up to there. -/
theorem HeaderIsLine.firstLineEnd {header rest : List Byte} (file : src.file = header ++ newline :: rest)
    (isLine : IsLine src.encoding header ∨
      (∃ text, header = text ++ [carriageReturn] ∧ IsLine src.encoding text ∧ text ≠ endOfCopyMarker) ∨
      (rest = [] ∧ (walk src.encoding 0 .start src.file).isSome = true)) : src.firstLineEnd = header.length + 1 := by
  have ends : (scanLine src.encoding .unknown 0 .start src.file).rest = rest → src.firstLineEnd = header.length + 1 := by
    intro same
    rw [src.firstLineEnd_eq, same, file, length_append, length_cons]
    omega
  refine ends ?_
  rcases isLine with isLine | ⟨text, rfl, isLine, other⟩ | ⟨rfl, walked⟩
  · by_cases marker : header = endOfCopyMarker
    · rw [file, marker, scanLine_unknown_marker (by decide)]
    · rw [file]
      exact congrArg LineScan.rest (isLine.scanLine (show EolType.nl ≠ .unknown from nofun) (.inl rfl) marker nofun)
  · rw [file, append_assoc]
    exact congrArg LineScan.rest (isLine.scanLine (show EolType.crnl ≠ .unknown from nofun) (.inl rfl) other nofun)
  · rw [scanLine_last walked fun _ => ⟨rfl, rfl⟩]

/-- And only then. -/
theorem headerIsLine_of_firstLineEnd {header rest : List Byte} (file : src.file = header ++ newline :: rest)
    (ends : src.firstLineEnd = header.length + 1) : IsLine src.encoding header ∨
      (∃ text, header = text ++ [carriageReturn] ∧ IsLine src.encoding text ∧ text ≠ endOfCopyMarker) ∨
      (rest = [] ∧ (walk src.encoding 0 .start src.file).isSome = true) := by
  rw [src.firstLineEnd_eq] at ends
  generalize scan : scanLine src.encoding .unknown 0 .start src.file = l at ends
  have length : src.file.length = header.length + 1 + rest.length := by
    rw [file, length_append, length_cons]
    omega
  cases result : l.result with
  | error e => exact absurd (scan ▸ result) (scanLine_unknown_ne_error e)
  | line =>
    obtain ⟨-, split, known⟩ := content_append_terminator scan result
    obtain ⟨text, q, line, walked, closed⟩ := walk_of_line (scan ▸ result)
    rw [scan] at line
    have whole : l.line = header ++ [newline] := by
      have same : l.line ++ l.rest = (header ++ [newline]) ++ rest := by
        rw [← split, file, append_assoc]
        rfl
      refine (append_inj same ?_).1
      have := congrArg List.length split
      rw [length_append] at this
      rw [length_append, length_singleton]
      omega
    rw [whole] at line
    cases style : l.eolType with
    | unknown => exact absurd style known
    | nl =>
      rw [style] at line
      obtain rfl := append_cancel_right line
      exact .inl ⟨q, walked, closed⟩
    | cr =>
      rw [style] at line
      exact absurd (append_inj_right' line rfl) (by decide)
    | crnl =>
      have line : header ++ [newline] = (text ++ [carriageReturn]) ++ [newline] := by
        rw [line, style, append_assoc]
        rfl
      obtain rfl := append_cancel_right line
      refine .inr (.inl ⟨text, rfl, ⟨q, walked, closed⟩, ?_⟩)
      rintro rfl
      rw [file, append_assoc, singleton_append, scanLine_unknown_marker (by decide)] at scan
      rw [← scan] at result
      cases result
  | done =>
    rcases walk_of_done (scan ▸ result) (fun _ => rfl) with ⟨-, walked⟩ | ⟨-, marked⟩
    · rw [scanLine_last walked fun _ => ⟨rfl, rfl⟩] at scan
      rw [← scan, length_nil] at ends
      exact .inr (.inr ⟨length_eq_zero_iff.1 (by omega), walked⟩)
    · simp only [Unmarked, not_forall] at marked
      obtain ⟨b, tail, same, isBreak⟩ := marked
      have same : src.file = endOfCopyMarker ++ b :: tail := same
      rw [same, scanLine_unknown_marker (by simpa using isBreak)] at scan
      rw [← scan, same] at ends
      have few : header.length = endOfCopyMarker.length := by
        simp only [length_append, length_cons, endOfCopyMarker, length_nil] at ends ⊢
        omega
      obtain rfl := (append_inj (file.symm.trans same) few).1
      exact .inl (isLine_endOfCopyMarker _)

/-! ### The search for the end of the header -/

/-- The state behind the header. -/
def RawInput.behindHeader (s : RawInput) (size : Nat) : RawInput :=
  { s with pos := size, readHeader := true, eolCache := { s.eolCache with headerSize := size } }

/-- The search finds the first line feed of the buffer, and the reader goes on behind it. -/
theorem noDBCopyGetData_behindHeader (isHeader : src.headerLine = true) {s : RawInput} (unread : s.readHeader = false)
    {n i : Nat} (found : (src.fread s.pos n).findIdx? (· = newline) = some i) :
    noDBCopyGetData src n s = noDBCopyGetData src n (s.behindHeader (i + 1)) := by
  have notEmpty : src.fread s.pos n ≠ [] := by
    intro empty
    rw [empty] at found
    cases found
  have passed : ¬ (src.headerLine = true ∧ (s.behindHeader (i + 1)).readHeader = false) := by
    simp [RawInput.behindHeader]
  rw [noDBCopyGetData, if_pos ⟨isHeader, unread⟩, noDBCopyGetData, if_neg passed]
  simp only [if_neg notEmpty, found]
  rfl

/-- The loop depends on its state through the refill only. -/
theorem readLoop_congr {fuel : Nat} {needData hitEof : Bool} {q : QuoteState} {s s' : RawInput}
    (same : refill src needData hitEof s = refill src needData hitEof s')
    (loads : refill src needData hitEof s' ≠ none) :
    readLoop src (fuel + 1) needData hitEof q s = readLoop src (fuel + 1) needData hitEof q s' := by
  rw [readLoop, readLoop, same]
  cases loaded : refill src needData hitEof s' with
  | none => exact absurd loaded loads
  | some result => rfl

/-- Where the search finds nothing, no line is read. -/
theorem noDBCopyReadLineText_unfound (isHeader : src.headerLine = true) {s : RawInput} (unread : s.readHeader = false)
    (empty : s.rawBuf = []) (unfound : (src.fread s.pos rawBufSize).findIdx? (· = newline) = none) :
    (noDBCopyReadLineText src s).1 ≠ .line := by
  have data : noDBCopyGetData src rawBufSize s = none ∨ noDBCopyGetData src rawBufSize s = some ([], s) := by
    rw [noDBCopyGetData, if_pos ⟨isHeader, unread⟩]
    simp only [unfound]
    split
    · exact .inr rfl
    · exact .inl rfl
  have load : noDBCopyLoadRawBuf src s = none ∨ noDBCopyLoadRawBuf src s = some (false, s) := by
    rw [noDBCopyLoadRawBuf, empty, length_nil, Nat.sub_zero]
    rcases data with data | data
    · exact .inl (by rw [data])
    · exact .inr (by simp [data])
  rw [noDBCopyReadLineText, readLoop, refill, if_pos (.inl empty)]
  rcases load with load | load <;> simp [load, empty]

section

variable {s : RawInput} {i : Nat} (isHeader : src.headerLine = true) (unread : s.readHeader = false)
  (empty : s.rawBuf = []) (found : (src.fread s.pos rawBufSize).findIdx? (· = newline) = some i)

include isHeader unread empty found

theorem noDBCopyReadLineText_behindHeader :
    noDBCopyReadLineText src s = noDBCopyReadLineText src (s.behindHeader (i + 1)) := by
  have load : noDBCopyLoadRawBuf src s = noDBCopyLoadRawBuf src (s.behindHeader (i + 1)) := by
    unfold noDBCopyLoadRawBuf
    rw [show (s.behindHeader (i + 1)).rawBuf = s.rawBuf from rfl, empty, length_nil, Nat.sub_zero,
      noDBCopyGetData_behindHeader isHeader unread found]
  have refilled : refill src false false s = refill src false false (s.behindHeader (i + 1)) := by
    unfold refill
    rw [if_pos (.inl empty), if_pos (.inl empty), load]
  have loads : refill src false false (s.behindHeader (i + 1)) ≠ none := by
    unfold refill
    rw [if_pos (.inl empty), noDBCopyLoadRawBuf_eq (.inr rfl)]
    simp
  unfold noDBCopyReadLineText
  rw [readLoop_congr refilled loads]
  rfl

theorem noDBGetNextTupleFromFile_behindHeader (row : Nat) :
    noDBGetNextTupleFromFile src row s = noDBGetNextTupleFromFile src row (s.behindHeader (i + 1)) := by
  unfold noDBGetNextTupleFromFile
  rw [noDBCopyReadLineText_behindHeader (s := { s with lineBuf := [] }) isHeader unread empty found]
  rfl

end

/-- The first line feed of a list. -/
theorem findIdx?_newline {bytes : List Byte} {i : Nat} :
    bytes.findIdx? (· = newline) = some i ↔ ∃ before rest, bytes = before ++ newline :: rest ∧ newline ∉ before ∧
      before.length = i := by
  constructor
  · intro found
    obtain ⟨inside, here, before⟩ := findIdx?_eq_some_iff_getElem.1 found
    have here : bytes[i] = newline := by simpa using here
    refine ⟨bytes.take i, bytes.drop (i + 1), ?_, ?_, length_take_of_le inside.le⟩
    · rw [← here, ← drop_eq_getElem_cons inside, take_append_drop]
    · intro mem
      obtain ⟨j, less, same⟩ := mem_take_iff_getElem.1 mem
      exact before j (by omega) (by simpa using same)
  · rintro ⟨before, rest, rfl, none, rfl⟩
    have unfound : before.findIdx? (fun b => decide (b = newline)) = Option.none :=
      findIdx?_eq_none_iff.2 fun b mem => decide_eq_false fun eq => none (eq ▸ mem)
    rw [findIdx?_append, unfound]
    simp [findIdx?_cons]

/-- What the search finds in the first buffer is the first line feed of the file. -/
theorem findIdx?_fread {n i : Nat} :
    (src.fread 0 n).findIdx? (· = newline) = some i ↔ ∃ header rest, src.file = header ++ newline :: rest ∧
      newline ∉ header ∧ header.length = i ∧ header.length < n := by
  rw [Source.fread, drop_zero, findIdx?_newline]
  constructor
  · rintro ⟨header, rest, split, none, length⟩
    refine ⟨header, rest ++ src.file.drop n, ?_, none, length, ?_⟩
    · rw [← cons_append, ← append_assoc, ← split, take_append_drop]
    · have := congrArg List.length split
      rw [length_take, length_append, length_cons] at this
      omega
  · rintro ⟨header, rest, split, none, length, small⟩
    refine ⟨header, rest.take (n - header.length - 1), ?_, none, length⟩
    rw [split, take_append, take_of_length_le small.le]
    obtain ⟨m, more⟩ : ∃ m, n - header.length = m + 1 := ⟨n - header.length - 1, by omega⟩
    rw [more, take_succ_cons, Nat.add_sub_cancel]

/-- **The header is skipped as a line exactly if it is one up to the first line feed**, and that is in
the first buffer. -/
theorem skipsFirstLine_iff (isHeader : src.headerLine = true) :
    SkipsFirstLine src ↔ HeaderIsLine src.encoding src.file := by
  have getData : ∀ {s : RawInput} {size : Nat}, noDBCopyGetData src rawBufSize (s.behindHeader size) =
      some (src.fread size rawBufSize, { s.behindHeader size with pos := size + (src.fread size rawBufSize).length }) :=
    if_neg (by simp [RawInput.behindHeader])
  constructor
  · intro skips
    obtain ⟨data, s, call, -, pos⟩ := skips .fresh
    by_cases empty : src.file = []
    · exact .inl empty
    · cases found : (src.fread 0 rawBufSize).findIdx? (· = newline) with
      | none =>
        have some : src.fread 0 rawBufSize ≠ [] := by
          simpa [Source.fread, rawBufSize] using empty
        rw [noDBCopyGetData, if_pos ⟨isHeader, rfl⟩] at call
        simp only [RawInput.fresh, if_neg some, found] at call
        cases call
      | some i =>
        rw [noDBCopyGetData_behindHeader isHeader rfl found] at call
        obtain ⟨rfl, rfl⟩ := Prod.mk.inj (Option.some.inj (getData.symm.trans call))
        obtain ⟨header, rest, split, first, rfl, small⟩ := findIdx?_fread.1 found
        refine .inr ⟨header, rest, split, first, small, headerIsLine_of_firstLineEnd split ?_⟩
        simp only at pos
        omega
  · rintro (empty | ⟨header, rest, split, first, small, isLine⟩) eolCache
    · have ends : src.firstLineEnd = 0 := by rw [src.firstLineEnd_eq, empty]; rfl
      have none : ∀ pos n, src.fread pos n = [] := fun pos n => by rw [Source.fread, empty, drop_nil, take_nil]
      refine ⟨[], .fresh eolCache, ?_, (none _ _).symm, by rw [ends]; rfl⟩
      rw [noDBCopyGetData, if_pos ⟨isHeader, rfl⟩]
      exact if_pos (none _ _)
    · have found := findIdx?_fread.2 ⟨header, rest, split, first, rfl, small⟩
      rw [HeaderIsLine.firstLineEnd split isLine]
      exact ⟨_, _, (noDBCopyGetData_behindHeader isHeader rfl found).trans getData, rfl, rfl⟩

/-- The file `a` and then a line `b`. -/
theorem skipsFirstLine_twoLines : SkipsFirstLine ⟨[97, 10, 98, 10], true, plainEncoding, id⟩ :=
  (skipsFirstLine_iff rfl).2 (.inr ⟨[97], [98, 10], rfl, by decide, by decide, .inl ⟨⟨false, false, false⟩, rfl, rfl⟩⟩)

/-- The search leaves the bytes of the file `a`, and stops inside the first line of `"\n"\n`. -/
theorem not_skipsFirstLine :
    ¬ SkipsFirstLine ⟨[97], true, plainEncoding, id⟩ ∧
      ¬ SkipsFirstLine ⟨[34, 10, 34, 10, 98, 10], true, plainEncoding, id⟩ := by
  refine ⟨fun skips => ?_, fun skips => ?_⟩
  · obtain ⟨data, s, call, -⟩ := skips .fresh
    cases call
  · obtain ⟨data, s, call, -, pos⟩ := skips .fresh
    obtain ⟨rfl, rfl⟩ := Prod.mk.inj (Option.some.inj call)
    exact absurd pos (by decide)

end PostgresRaw
