import PostgresRaw.Reader.Header

/-!
# Files of plain lines

Where the reader stands in a file whose lines end in a newline and contain no byte that means
anything to it.  `ReaderAt` relates the buffer, the file position and the EOL cache to the next
row; both ways of reading a line, the relative seek past rows that were served from caches, and
the look-ahead at the end of a node keep it.

A header breaks the relative seek: the reader is then behind the header without knowing it.  So
the seek of a file with a header is only good for finding the end of the file.
-/

namespace PostgresRaw

open List

/-- A file of clean lines behind an optional header line. -/
structure Layout (src : Source) (header : List Byte) (contents : List (List Byte)) : Prop where
  file : src.file = header ++ (contents.map (· ++ [newline])).flatten
  noHeader : src.headerLine = false → header = []
  header : src.headerLine = true → ∃ h, header = h ++ [newline] ∧ newline ∉ h ∧ header.length < 32768
  clean : ∀ content ∈ contents, ∀ b ∈ content,
    b ≠ defaultQuote ∧ b ≠ backslash ∧ b ≠ carriageReturn ∧ b ≠ newline
  short : ∀ content ∈ contents, content.length < 32767
  /-- a file that needs no transcoding is in a server encoding -/
  ascii : src.encoding.embedsAscii = false
  convert : src.convert = id

/-! ### One line -/

/-- A clean line ends at its newline. -/
theorem scanLine_clean {enc : Encoding} (ascii : enc.embedsAscii = false) {eol : EolType}
    (style : eol = .unknown ∨ eol = .nl) {content : List Byte}
    (clean : ∀ b ∈ content, b ≠ defaultQuote ∧ b ≠ backslash ∧ b ≠ carriageReturn ∧ b ≠ newline)
    (rest : List Byte) {q : QuoteState} (outside : q.inQuote = false) :
    scanLine enc eol 0 q (content ++ newline :: rest) = ⟨.line, content ++ [newline], rest, .nl⟩ := by
  induction content generalizing q with
  | nil =>
    have inQuote : (q.next newline).inQuote = false := (q.next_inQuote (by decide)).trans outside
    have step : readStep enc eol q newline rest true = .endOfLine 1 .nl := by
      unfold readStep decideStep
      rw [if_neg (by simp), if_neg fun h => absurd h.1 (by decide), if_pos ⟨rfl, inQuote⟩]
      rcases style with rfl | rfl <;> rfl
    rw [nil_append, scanLine, step]
    simp
  | cons c content ih =>
    obtain ⟨notQuote, notBackslash, notReturn, notNewline⟩ := clean c (by simp)
    have inQuote : (q.next c).inQuote = false := (q.next_inQuote notQuote).trans outside
    have step : readStep enc eol q c (content ++ newline :: rest) true = .advance 1 := by
      unfold readStep decideStep multibyteStep
      rw [if_neg (by simp), if_neg fun h => notReturn h.1, if_neg fun h => notNewline h.1,
        if_neg fun h => notBackslash h.1, if_neg (by simp [ascii])]
    rw [cons_append, scanLine, step]
    simp only [Nat.sub_self]
    rw [ih (fun b mem => clean b (mem_cons_of_mem _ mem))
      (q := { q.next c with firstCharInLine := false }) inQuote]
    rfl

/-! ### Where the reader stands -/

section

variable {src : Source} {header : List Byte} {contents : List (List Byte)}

/-- The lines with their terminators. -/
def rawLines (contents : List (List Byte)) : List (List Byte) := contents.map (· ++ [newline])

@[simp] theorem rawLines_length (contents : List (List Byte)) : (rawLines contents).length = contents.length := by
  simp [rawLines]

variable {content : List Byte} {t known : Nat} {s : RawInput}

theorem rawLines_getElem? {contents : List (List Byte)} {r : Nat} (here : contents[r]? = some content) :
    (rawLines contents)[r]? = some (content ++ [newline]) := by
  simp [rawLines, here]

theorem drop_rawLines (here : contents[t]? = some content) :
    (rawLines contents).drop t = (content ++ [newline]) :: (rawLines contents).drop (t + 1) := by
  have inside := (List.getElem?_eq_some_iff.1 here).1
  rw [drop_eq_getElem_cons (by rw [rawLines_length]; exact inside)]
  congr 1
  exact Option.some.inj ((List.getElem?_eq_getElem _).symm.trans (rawLines_getElem? here))

/-- What is left of the file at row `t` is empty only at its end. -/
theorem flatten_drop_eq_nil : ((rawLines contents).drop t).flatten = [] ↔ contents.length ≤ t := by
  rw [flatten_eq_nil_iff]
  constructor
  · intro empty
    by_contra inside
    have mem : (contents.getD t [] ++ [newline]) ∈ (rawLines contents).drop t := by
      rw [rawLines, ← map_drop]
      refine mem_map.2 ⟨contents.getD t [], ?_, rfl⟩
      refine mem_of_getElem? (i := 0) ?_
      rw [getElem?_drop, add_zero, getElem?_eq_getElem (by omega),
        getD_eq_getElem?_getD, getElem?_eq_getElem (by omega)]
      rfl
    simpa using empty _ mem
  · intro behind line mem
    rw [drop_eq_nil_of_le (by rw [rawLines_length]; exact behind)] at mem
    simp at mem

variable (src header contents) in
/-- The EOL cache is right about the rows that it has, and about those read before row `t`. -/
structure EolRight (eol : EolCache) (known t : Nat) : Prop where
  known_le : known ≤ eol.usedRows
  used_le : eol.usedRows ≤ contents.length
  lengths : ∀ r content, r < max eol.usedRows t → contents[r]? = some content →
    eol.lengths r = content.length + 1
  headerSize : src.headerLine = true → 0 < eol.usedRows → eol.headerSize = header.length

variable (src header contents) in
/-- The reader is at row `t`, with the lengths of `known` rows known to the scan: before the
header, behind it, or, if it has been moved there by a seek, at the end of the file. -/
structure ReaderAt (known : Nat) (s : RawInput) (t : Nat) : Prop where
  tupleRead : s.tupleRead = t
  inside : t ≤ contents.length
  style : s.eolType = .unknown ∨ s.eolType = .nl
  eol : EolRight src header contents s.eolCache known t
  size : src.headerLine = true → s.readHeader = true → s.eolCache.headerSize = header.length
  place : (src.headerLine = true ∧ s.readHeader = false ∧ s.pos = 0 ∧ s.rawBuf = [] ∧
      s.tupleStored = 0 ∧ t = 0) ∨
    (s.HeaderPassed src ∧ s.unread src = ((rawLines contents).drop t).flatten ∧
      (t < known → t + s.tupleStored ≤ s.eolCache.usedRows ∧
        s.rawBuf = (((rawLines contents).drop t).take s.tupleStored).flatten)) ∨
    (s.rawBuf = [] ∧ src.file.drop s.pos = [] ∧ t = contents.length)

/-! ### Passing the header -/

section

variable (layout : Layout src header contents)

include layout

/-- The search finds the end of the header. -/
theorem Layout.findIdx?_header (isHeader : src.headerLine = true) :
    (src.fread 0 rawBufSize).findIdx? (· = newline) = some (header.length - 1) := by
  obtain ⟨h, rfl, clean, small⟩ := layout.header isHeader
  rw [length_append, length_singleton] at small ⊢
  refine findIdx?_fread.2 ⟨h, (rawLines contents).flatten, ?_, clean, rfl, by rw [rawBufSize]; omega⟩
  rw [layout.file, append_assoc]
  rfl

/-- The first call of a scan with a header goes on behind it. -/
theorem Layout.noDBGetNextTupleFromFile_header (isHeader : src.headerLine = true)
    (unread : s.readHeader = false) (start : s.pos = 0) (empty : s.rawBuf = []) (i : Nat) :
    noDBGetNextTupleFromFile src i s = noDBGetNextTupleFromFile src i (s.behindHeader header.length) := by
  obtain ⟨h, split, -⟩ := layout.header isHeader
  have length : header.length - 1 + 1 = header.length := by
    rw [split, length_append, length_singleton, Nat.add_sub_cancel]
  have found := layout.findIdx?_header isHeader
  rw [← start] at found
  rw [noDBGetNextTupleFromFile_behindHeader isHeader unread empty found, length]

/-- And so does the reader that knows the lengths. -/
theorem Layout.noDBGetNextTupleFromFileWithEOL_header
    (isHeader : src.headerLine = true) (unread : s.readHeader = false) (start : s.pos = 0) (stored : s.tupleStored = 0)
    (size : s.eolCache.headerSize = header.length) (i : Nat) : noDBGetNextTupleFromFileWithEOL src i s =
      noDBGetNextTupleFromFileWithEOL src i (s.behindHeader header.length) := by
  have skipped : (src.fread 0 header.length).length = header.length := by
    rw [Source.fread, drop_zero, layout.file, take_left]
  obtain ⟨pos, rawBuf, lineBuf, eolType, readHeader, tupleStored, tupleRead, ⟨lengths, used, max, size'⟩⟩ := s
  subst unread start stored size
  have batch : ∀ lineBuf, readBatch src i ⟨0, rawBuf, lineBuf, eolType, false, 0, tupleRead,
        ⟨lengths, used, max, header.length⟩⟩ =
      readBatch src i ⟨header.length, rawBuf, lineBuf, eolType, true, 0, tupleRead,
        ⟨lengths, used, max, header.length⟩⟩ := by
    intro lineBuf
    simp [readBatch, isHeader, skipped]
  simp only [noDBGetNextTupleFromFileWithEOL, noDBCopyReadLineTextWithEOL, RawInput.behindHeader, batch, if_true]

/-! ### Reading -/

theorem Layout.drop_header :
    src.file.drop header.length = (rawLines contents).flatten := by
  rw [layout.file, drop_left]
  rfl

/-- A reader before the header may as well be behind it. -/
theorem ReaderAt.behindHeader (reader : ReaderAt src header contents known s 0)
    (stored : s.tupleStored = 0) (empty : s.rawBuf = []) :
    ReaderAt src header contents known (s.behindHeader header.length) 0 where
  tupleRead := reader.tupleRead
  inside := reader.inside
  style := reader.style
  eol := ⟨reader.eol.known_le, reader.eol.used_le, reader.eol.lengths, fun _ _ => rfl⟩
  size _ _ := rfl
  place := by
    refine .inr (.inl ⟨.inr rfl, ?_, fun _ => ⟨?_, ?_⟩⟩)
    · rw [RawInput.unread, show (s.behindHeader header.length).rawBuf = [] from empty, nil_append]
      exact layout.drop_header
    · rw [show (s.behindHeader header.length).tupleStored = 0 from stored]
      exact Nat.zero_le _
    · rw [show (s.behindHeader header.length).tupleStored = 0 from stored]
      exact empty

/-- A reader with a line ahead is behind the header, or may as well be. -/
theorem ReaderAt.passed (reader : ReaderAt src header contents known s t)
    (inside : t < contents.length) : ∃ s', ReaderAt src header contents known s' t ∧ s'.HeaderPassed src ∧
      s'.unread src = ((rawLines contents).drop t).flatten ∧ (t < known → t + s'.tupleStored ≤ s'.eolCache.usedRows ∧
        s'.rawBuf = (((rawLines contents).drop t).take s'.tupleStored).flatten) ∧
      s'.eolCache.usedRows = s.eolCache.usedRows ∧
      noDBGetNextTupleFromFile src t s = noDBGetNextTupleFromFile src t s' ∧
      (t < known → noDBGetNextTupleFromFileWithEOL src t s = noDBGetNextTupleFromFileWithEOL src t s') := by
  have known_le := reader.eol.known_le
  rcases reader.place with ⟨isHeader, unread, start, empty, stored, rfl⟩ | ⟨passed, unread, batch⟩ |
    ⟨-, -, ended⟩
  · have behind := reader.behindHeader layout stored empty
    rcases behind.place with ⟨-, unread', -⟩ | ⟨passed', unread', batch'⟩ | ⟨-, -, ended⟩
    · cases unread'
    · exact ⟨_, behind, passed', unread', batch', rfl,
        layout.noDBGetNextTupleFromFile_header isHeader unread start empty 0,
        fun before => layout.noDBGetNextTupleFromFileWithEOL_header isHeader unread start stored
          (reader.eol.headerSize isHeader (by omega)) 0⟩
    · omega
  · exact ⟨s, reader, passed, unread, batch, rfl, rfl, fun _ => rfl⟩
  · omega

end

/-- The lines from `t` on, split at the end of what is known. -/
theorem drop_split {α : Type} (l : List α) {used : Nat} (le : t ≤ used) :
    l.drop t = (l.drop t).take (used - t) ++ l.drop used := by
  conv_lhs => rw [← take_append_drop (used - t) (l.drop t), drop_drop, show t + (used - t) = used by omega]

section

variable (layout : Layout src header contents)
include layout

theorem ReaderAt.batchInv (reader : ReaderAt src header contents known s t)
    (passed : s.HeaderPassed src) (unread : s.unread src = ((rawLines contents).drop t).flatten)
    (batch : t + s.tupleStored ≤ s.eolCache.usedRows ∧
      s.rawBuf = (((rawLines contents).drop t).take s.tupleStored).flatten) :
    BatchInv src s t (((rawLines contents).drop t).take (s.eolCache.usedRows - t))
      ((rawLines contents).drop s.eolCache.usedRows).flatten := by
  have used_le := reader.eol.used_le
  have count : (((rawLines contents).drop t).take (s.eolCache.usedRows - t)).length =
      s.eolCache.usedRows - t := by
    rw [length_take, length_drop, rawLines_length]
    omega
  have isLine : ∀ raw ∈ ((rawLines contents).drop t).take (s.eolCache.usedRows - t),
      ∃ content ∈ contents, raw = content ++ [newline] := by
    intro raw mem
    obtain ⟨content, inside, rfl⟩ := mem_map.1 (mem_of_mem_drop (mem_of_mem_take mem))
    exact ⟨content, inside, rfl⟩
  refine ⟨passed, ⟨fun k raw here => ?_, fun raw mem => ?_, fun raw mem => ?_, by rw [count]; omega⟩,
    by rw [count]; omega, ?_, ?_⟩
  · have less := (List.getElem?_eq_some_iff.1 here).1
    rw [count] at less
    rw [getElem?_take_of_lt less, getElem?_drop, rawLines, getElem?_map] at here
    obtain ⟨content, inside, rfl⟩ := Option.map_eq_some_iff.1 here
    rw [reader.eol.lengths (t + k) content (by omega) inside]
    simp
  · obtain ⟨content, inside, rfl⟩ := isLine raw mem
    have := layout.short content inside
    rw [length_append, length_singleton]
    omega
  · obtain ⟨content, -, rfl⟩ := isLine raw mem
    simp
  · rw [take_take, min_eq_left (by omega)]
    exact batch.2
  · have split : s.rawBuf ++ src.file.drop s.pos = s.rawBuf ++
        ((((rawLines contents).drop t).take (s.eolCache.usedRows - t)).drop s.tupleStored ++
          (rawLines contents).drop s.eolCache.usedRows).flatten := by
      have := unread
      rw [RawInput.unread] at this
      rw [this, batch.2, ← flatten_append]
      congr 1
      conv_lhs => rw [drop_split (rawLines contents) (show t ≤ s.eolCache.usedRows by omega)]
      rw [← append_assoc]
      congr 1
      conv_lhs => rw [← take_append_drop s.tupleStored
        (((rawLines contents).drop t).take (s.eolCache.usedRows - t))]
      rw [take_take, min_eq_left (by omega)]
    rw [append_cancel_left split, flatten_append]

/-- **Reading a known row by its length.** -/
theorem ReaderAt.line_withEOL (reader : ReaderAt src header contents known s t)
    (before : t < known) (here : contents[t]? = some content) :
    ∃ s', noDBGetNextTupleFromFileWithEOL src t s = (.line, s') ∧ s'.lineBuf = content ∧
      ReaderAt src header contents known s' (t + 1) ∧ s'.eolCache.usedRows = s.eolCache.usedRows := by
  have inside := (List.getElem?_eq_some_iff.1 here).1
  obtain ⟨s, reader, passed, unread, batch, used, -, same⟩ := reader.passed layout inside
  rw [same before, ← used]
  have known_le := reader.eol.known_le
  have inv := reader.batchInv layout passed unread (batch before)
  rw [drop_rawLines here, show s.eolCache.usedRows - t = s.eolCache.usedRows - (t + 1) + 1 by omega, take_succ_cons] at inv
  obtain ⟨s', call, inv', lineBuf, eolCache, eolType, readHeader, tupleRead⟩ :=
    noDBGetNextTupleFromFileWithEOL_line (.inl rfl) inv
  have stored := inv'.stored
  rw [List.length_take] at stored
  refine ⟨s', call, by rw [lineBuf, layout.convert]; rfl, ⟨by rw [tupleRead, reader.tupleRead], inside,
    by rw [eolType]; exact reader.style, ?_, by rw [eolCache, readHeader]; exact reader.size,
    .inr (.inl ⟨inv'.passed, ?_, fun _ => ⟨?_, ?_⟩⟩)⟩, by rw [eolCache]⟩
  · rw [eolCache]
    exact ⟨known_le, reader.eol.used_le, fun r content' less => reader.eol.lengths r content' (by omega),
      reader.eol.headerSize⟩
  · rw [RawInput.unread, inv'.buffered, inv'.file, ← List.append_assoc, ← List.flatten_append,
      List.take_append_drop, ← List.flatten_append,
      ← drop_split (rawLines contents) (show t + 1 ≤ s.eolCache.usedRows by omega)]
  · rw [eolCache]
    omega
  · rw [inv'.buffered, List.take_take, min_eq_left (by omega)]

/-- What the plain reader sees at row `t`. -/
theorem Layout.scanLine_eq (style : s.eolType = .unknown ∨ s.eolType = .nl)
    (unread : s.unread src = ((rawLines contents).drop t).flatten) (here : contents[t]? = some content) :
    scanLine src.encoding s.eolType 0 .start (s.unread src) =
      ⟨.line, content ++ [newline], ((rawLines contents).drop (t + 1)).flatten, .nl⟩ := by
  rw [unread, drop_rawLines here, flatten_cons, append_assoc]
  exact scanLine_clean layout.ascii style (layout.clean content (List.mem_of_getElem? here)) _ rfl

/-- **Reading a row with the plain reader**, which records its length. -/
theorem ReaderAt.line (reader : ReaderAt src header contents known s t)
    (behind : known ≤ t) (here : contents[t]? = some content) :
    ∃ s', noDBGetNextTupleFromFile src t s = (.line, s') ∧ s'.lineBuf = content ∧
      ReaderAt src header contents known s' (t + 1) ∧ s'.eolCache.usedRows = t + 1 := by
  have inside := (List.getElem?_eq_some_iff.1 here).1
  obtain ⟨s, reader, passed, unread, -, -, same, -⟩ := reader.passed layout inside
  rw [same]
  have scan := layout.scanLine_eq reader.style unread here
  obtain ⟨s', call, delivers⟩ := noDBGetNextTupleFromFile_line passed scan t rfl
  have line : LineScan.content ⟨.line, content ++ [newline], ((rawLines contents).drop (t + 1)).flatten,
      .nl⟩ = content := by
    simp [LineScan.content, EolType.terminator]
  have size : src.headerLine = true → s'.eolCache.headerSize = header.length := by
    intro isHeader
    rw [delivers.eolCache]
    refine reader.size isHeader ?_
    rcases passed with noHeader | isRead
    · rw [isHeader] at noHeader
      cases noHeader
    · exact isRead
  refine ⟨s', call, by rw [delivers.lineBuf, layout.convert, line]; rfl,
    ⟨by rw [delivers.tupleRead, reader.tupleRead], inside, .inr delivers.eolType, ?_, fun isHeader _ => size isHeader,
      .inr (.inl ⟨?_, delivers.unread, fun less => absurd less (by omega)⟩)⟩, by rw [delivers.eolCache]⟩
  · refine ⟨by rw [delivers.eolCache]; simp only; omega, by rw [delivers.eolCache]; exact inside,
      fun r content' less there => ?_, fun isHeader _ => size isHeader⟩
    · rw [delivers.eolCache] at less ⊢
      simp only [EolCache.setShortInt] at less ⊢
      by_cases same : r = t
      · subst same
        obtain rfl : content = content' := Option.some.inj (here.symm.trans there)
        rw [Function.update_self]
        have short := layout.short content (List.mem_of_getElem? here)
        simp only [List.length_append, List.length_singleton]
        rw [toShort, Int.bmod_eq_of_le (by omega) (by omega)]
        simp
      · rw [Function.update_of_ne same]
        exact reader.eol.lengths r content' (by omega) there
  · rw [RawInput.HeaderPassed, delivers.readHeader]
    exact passed

/-- The plain reader at the end of the file. -/
theorem ReaderAt.done (reader : ReaderAt src header contents known s contents.length) (i : Nat) :
    ∃ s', noDBGetNextTupleFromFile src i s = (.done, s') ∧
      EolRight src header contents s'.eolCache known contents.length ∧ s'.eolCache.usedRows = s.eolCache.usedRows := by
  have atEnd : ((rawLines contents).drop contents.length).flatten = [] :=
    flatten_drop_eq_nil.2 le_rfl
  have unreadEnd : ∀ {s : RawInput}, EolRight src header contents s.eolCache known contents.length →
      s.HeaderPassed src → s.unread src = [] → ∃ s', noDBGetNextTupleFromFile src i s = (.done, s') ∧
        EolRight src header contents s'.eolCache known contents.length ∧
        s'.eolCache.usedRows = s.eolCache.usedRows := by
    intro s right passed unread
    obtain ⟨s', call, -, -, -, frame⟩ := noDBGetNextTupleFromFile_done passed
      (l := ⟨.done, [], [], s.eolType⟩) (by rw [unread]; rfl) i rfl
    exact ⟨s', call, by rw [frame.eolCache]; exact right, by rw [frame.eolCache]⟩
  rcases reader.place with ⟨isHeader, unread, start, empty, stored, zero⟩ | ⟨passed, unread, -⟩ |
    ⟨empty, ended, -⟩
  · rw [zero] at reader
    have behind := reader.behindHeader layout stored empty
    rw [layout.noDBGetNextTupleFromFile_header isHeader unread start empty]
    rcases behind.place with ⟨-, unread', -⟩ | ⟨passed', unread', -⟩ | ⟨empty', ended, -⟩
    · cases unread'
    · rw [← zero] at behind unread'
      exact unreadEnd behind.eol passed' (unread'.trans atEnd)
    · rw [← zero] at behind
      exact unreadEnd behind.eol (.inr rfl) (by rw [RawInput.unread, empty', ended]; rfl)
  · exact unreadEnd reader.eol passed (unread.trans atEnd)
  · -- Nothing can be read, whether or not the header has been passed.
    by_cases passed : s.HeaderPassed src
    · exact unreadEnd reader.eol passed (by rw [RawInput.unread, empty, ended]; rfl)
    · rw [RawInput.HeaderPassed, not_or] at passed
      have load : refill src false false { s with lineBuf := [] } =
          some (true, { s with lineBuf := [] }) := by
        have none : src.fread s.pos (rawBufSize - s.rawBuf.length) = [] := by
          rw [Source.fread, ended, take_nil]
        unfold refill
        rw [if_pos (.inl empty), noDBCopyLoadRawBuf, noDBCopyGetData,
          if_pos ⟨by simpa using passed.1, by simpa using passed.2⟩]
        simp only [none, if_true, Option.map_some, append_nil]
        rfl
      refine ⟨{ s with lineBuf := [] }, ?_, reader.eol, rfl⟩
      unfold noDBGetNextTupleFromFile noDBCopyReadLineText
      rw [readLoop, load]
      simp only [empty]

end

/-- **Looking ahead** behind the known rows finds out whether the file ends here. -/
theorem ReaderAt.tryReFill (reader : ReaderAt src header contents known s t) (behind : known ≤ t)
    (started : src.headerLine = false ∨ 0 < t) :
    ∃ s', noDBTryReFillRawBuf src s = some (decide (t = contents.length), s') ∧
      ReaderAt src header contents known s' t ∧ s'.eolCache = s.eolCache := by
  have inside := reader.inside
  have more : ((rawLines contents).drop t).flatten = [] ↔ t = contents.length :=
    flatten_drop_eq_nil.trans (by omega)
  rcases reader.place with ⟨isHeader, -, -, -, -, zero⟩ | ⟨passed, unread, -⟩ | ⟨empty, ended, atEnd⟩
  · rcases started with noHeader | positive
    · rw [isHeader] at noHeader
      cases noHeader
    · omega
  · by_cases empty : s.rawBuf = []
    · rw [RawInput.unread, empty, nil_append] at unread
      generalize data : src.fread s.pos (rawBufSize - s.rawBuf.length) = bytes
      have nothing : bytes = [] ↔ t = contents.length := by
        rw [← data, Source.fread, unread, empty, take_eq_nil_iff, more]
        simp [rawBufSize]
      refine ⟨{ s with pos := s.pos + bytes.length, rawBuf := bytes }, ?_, ⟨reader.tupleRead, inside,
        reader.style, reader.eol, reader.size, .inr (.inl ⟨passed, ?_, fun less => absurd less (by omega)⟩)⟩, rfl⟩
      · rw [noDBTryReFillRawBuf, if_pos empty, noDBCopyLoadRawBuf_eq passed, data]
        simp only [empty, nil_append, Option.map_some, Option.some.injEq, Prod.mk.injEq, and_true]
        by_cases none : bytes = []
        · simp [none, nothing.1 none]
        · simp [none, mt nothing.2 none]
      · rw [RawInput.unread, ← unread]
        simp only
        rw [← data, fread_append_drop]
    · refine ⟨s, ?_, reader, rfl⟩
      rw [noDBTryReFillRawBuf, if_neg empty, decide_eq_false]
      intro atEnd
      rw [more.2 atEnd, RawInput.unread] at unread
      exact empty (append_eq_nil_iff.1 unread).1
  · refine ⟨s, ?_, reader, rfl⟩
    have none : src.fread s.pos (rawBufSize - s.rawBuf.length) = [] := by
      rw [Source.fread, ended, take_nil]
    have load : noDBCopyLoadRawBuf src s = some (false, s) := by
      rw [noDBCopyLoadRawBuf, noDBCopyGetData]
      by_cases unread : src.headerLine = true ∧ s.readHeader = false
      · rw [if_pos unread]
        simp [none]
      · rw [if_neg unread]
        simp [none]
    rw [noDBTryReFillRawBuf, if_pos empty, load]
    simp [atEnd]

end

end PostgresRaw
