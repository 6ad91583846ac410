import PostgresRaw.Csv.PlainLine
import PostgresRaw.Reader.PlainFile
import PostgresRaw.Scan.Run
import PostgresRaw.Strategy.RowLists

/-!
# Relations over plain files

A relation whose file is made of plain records, behind a header line or not.  `CellRight` says
what a slot of a cache should hold, and `Sound` that the caches claim nothing else; the queries
that are meant by "a column set and a qual" are the proper ones.

The relative seek of `NoDBUpdateStrategy` belongs here as well.  Every seek adds the length of the
header, so a reader that waits while rows are served from caches (`Waiting`) only stands at a row if
there is no header, or nothing left to read (`Waiting.readerAt`).
-/

namespace PostgresRaw

open List

section

variable {D : Type}

/-- A relation over a file of plain records behind an optional header line. -/
structure PlainRelation (rel : Relation D) (header : List Byte)
    (records : List (PlainRecord rel.fmt rel.natts)) : Prop where
  file : rel.file = header ++ (records.map (·.line ++ [newline])).flatten
  noHeader : rel.headerLine = false → header = []
  header : rel.headerLine = true → ∃ h, header = h ++ [newline] ∧ newline ∉ h ∧ header.length < 32768
  transcoding : rel.needTranscoding = false

/-- The lines of the records. -/
def recordLines {fmt : CsvFormat} {natts : Nat} (records : List (PlainRecord fmt natts)) :
    List (List Byte) :=
  records.map (·.line)

@[simp] theorem recordLines_length {fmt : CsvFormat} {natts : Nat}
    (records : List (PlainRecord fmt natts)) : (recordLines records).length = records.length := by
  simp [recordLines]

theorem recordLines_getElem? {fmt : CsvFormat} {natts : Nat} {records : List (PlainRecord fmt natts)}
    {r : Nat} {record : PlainRecord fmt natts} (here : records[r]? = some record) :
    (recordLines records)[r]? = some record.line := by
  simp [recordLines, here]

variable {rel : Relation D} {header : List Byte} {records : List (PlainRecord rel.fmt rel.natts)}

variable (rel) in
/-- The relation as the reading functions see it without transcoding. -/
def Relation.plainSource : Source where
  file := rel.file
  headerLine := rel.headerLine
  encoding := rel.encoding
  convert := id

theorem PlainRelation.source (plain : PlainRelation rel header records) (w : World D) :
    rel.source w = rel.plainSource := by
  simp [Relation.source, Relation.plainSource, plain.transcoding]

theorem PlainRelation.layout (plain : PlainRelation rel header records) :
    Layout rel.plainSource header (recordLines records) where
  file := by
    rw [recordLines, map_map]
    exact plain.file
  noHeader := plain.noHeader
  header := plain.header
  clean := by
    intro content mem b inside
    obtain ⟨record, -, rfl⟩ := mem_map.1 mem
    obtain ⟨notQuote, notBackslash, notReturn, -, notNewline⟩ := record.clean b inside
    exact ⟨notQuote, notBackslash, notReturn, notNewline⟩
  short := by
    intro content mem
    obtain ⟨record, -, rfl⟩ := mem_map.1 mem
    exact record.short
  ascii := rel.serverEncoding plain.transcoding
  convert := rfl

/-! ### What slots should hold -/

variable (rel records) in
/-- The slot holds the value, or the position, of the column in the line. -/
def CellRight (t : CacheType) (c r : Nat) (cell : Cell D) : Prop :=
  ∃ record, records[r]? = some record ∧ c < rel.natts ∧
    match t with
    | .data => record.Accepts rel.input c ∧ cell = .datum (record.value rel.input c)
    | .positions => cell = .pair (record.pair c)

/-- The slot of a column and a row in the cache with the index `i`. -/
def cellAt (caches : List (Cache D)) (i c r : Nat) : Cell D :=
  caches[i]?.elim .unwritten fun cache => cache.cells c r

theorem cellAt_eq {caches : List (Cache D)} {i : Nat} {cache : Cache D}
    (here : caches[i]? = some cache) (c r : Nat) : cellAt caches i c r = cache.cells c r := by
  simp [cellAt, here]

variable (rel records) in
/-- **Soundness of caches**: what they claim has been written, with what the file says. -/
def Sound (caches : List (Cache D)) : Prop :=
  ∀ {t i c r}, (lane caches t).Claims i c r → CellRight rel records t c r (cellAt caches i c r)

/-! ### Queries -/

/-- A query over a set of columns, with filter columns among them. -/
structure Query.Formed (q : Query D) (natts : Nat) : Prop where
  sorted : q.readAll.Pairwise (· < ·)
  inside : ∀ c ∈ q.readAll, c < natts
  filterRead : ∀ c ∈ q.filterAtts, c ∈ q.readAll

/-- A query over a set of columns with a qual that depends on its filter columns only.  A qual
without columns is evaluated once, by a `Result` node above the scan (`create_gating_plan`). -/
structure Query.Proper (q : Query D) (natts : Nat) : Prop extends q.Formed natts where
  filtered : q.qual.isSome → q.filterAtts ≠ []
  pure : ∀ qual, q.qual = some qual → ∀ {v v'}, (∀ c ∈ q.filterAtts, v c = v' c) → qual v = qual v'

namespace Query

variable {q : Query D} {natts : Nat}

variable {c : Nat}

theorem Formed.le_lastfield (formed : q.Formed natts) (mem : c ∈ q.readAll) : c ≤ q.readAll.getLast?.getD 0 := by
  have sorted := formed.sorted
  generalize q.readAll = cols at mem sorted
  induction cols generalizing c with
  | nil => simp at mem
  | cons x l ih =>
    obtain ⟨first, rest⟩ := pairwise_cons.1 sorted
    cases l with
    | nil =>
      obtain rfl : c = x := by simpa using mem
      simp
    | cons y l =>
      rw [getLast?_cons_cons]
      rcases mem_cons.1 mem with rfl | later
      · exact le_trans (le_of_lt (first y (by simp))) (ih (c := y) (by simp) rest)
      · exact ih later rest

theorem mem_rest (mem : c ∈ q.rest) : c ∈ q.readAll := by
  unfold rest at mem
  split at mem
  · exact mem_of_mem_filter mem
  · exact mem

theorem Formed.mem_filter (formed : q.Formed natts) (mem : c ∈ q.filter) : c ∈ q.readAll := by
  unfold Query.filter at mem
  split at mem
  · exact formed.filterRead c mem
  · simp at mem

/-- The columns that are read are the filter columns and the rest. -/
theorem mem_filter_or_rest (mem : c ∈ q.readAll) : c ∈ q.filter ∨ c ∈ q.rest := by
  unfold Query.filter rest
  by_cases qual : q.qual.isSome = true
  · by_cases isFilter : c ∈ q.filterAtts
    · exact .inl (by simpa [qual] using isFilter)
    · exact .inr (by simpa [qual] using ⟨mem, isFilter⟩)
  · exact .inr (by simpa [qual] using mem)

theorem rest_of_filter_nil (none : q.filter = []) : q.rest = q.readAll := by
  unfold rest
  by_cases qual : q.qual.isSome = true
  · rw [Query.filter, if_pos qual] at none
    rw [if_pos qual, none]
    exact filter_eq_self.2 fun c _ => by simp
  · rw [if_neg qual]

/-- The columns of a query with write sets among them. -/
theorem Formed.mem_cols (formed : q.Formed natts) {writeData writePositions : List Nat}
    (data : ∀ c ∈ writeData, c ∈ q.readAll) (positions : ∀ c ∈ writePositions, c ∈ q.readAll) :
    c ∈ (q.info writeData writePositions).cols ↔ c ∈ q.readAll := by
  rw [QueryInfo.cols, mem_insertionSort, mem_foldl_addUnique]
  simp only [not_mem_nil, false_or, mem_append, Query.info]
  constructor
  · rintro (((isFilter | isRest) | isData) | isPosition)
    · exact formed.mem_filter isFilter
    · exact mem_rest isRest
    · exact data c isData
    · exact positions c isPosition
  · intro mem
    exact .inl (.inl (mem_filter_or_rest mem))

end Query

/-! ### Seeking -/

/-- The lengths in the EOL cache add up to what the lines take. -/
theorem noDBComputeBytesToSeek_of_right {src : Source} {contents : List (List Byte)} {eol : EolCache}
    {known t t' p : Nat} (right : EolRight src header contents eol known t') (inside : p ≤ eol.usedRows) :
    noDBComputeBytesToSeek eol t p = ((((rawLines contents).drop t).take (p - t)).flatten.length : Nat) := by
  have used := right.used_le
  have same : (List.range' t (p - t)).map eol.lengths =
      (((rawLines contents).drop t).take (p - t)).map fun raw => (raw.length : Int) := by
    refine ext_getElem? fun k => ?_
    by_cases less : k < p - t
    · have here : t + k < contents.length := by omega
      rw [getElem?_map, getElem?_map, getElem?_take_of_lt less, getElem?_drop,
        rawLines_getElem? (getElem?_eq_getElem here), getElem?_range' less]
      simp only [Option.map_some, Option.some.injEq, Nat.one_mul]
      rw [right.lengths (t + k) _ (by omega) (getElem?_eq_getElem here)]
      simp
    · rw [getElem?_eq_none (by simpa using less), getElem?_eq_none (by
        rw [length_map, length_take]
        omega)]
  rw [noDBComputeBytesToSeek, same, length_flatten]
  induction ((rawLines contents).drop t).take (p - t) with
  | nil => rfl
  | cons raw rest ih => simp [ih]

/-- What the seek does if it is made. -/
theorem seekToRow_eq {headerLine : Bool} {p n : Nat} {s : RawInput} (moved : s.tupleRead ≠ p)
    (inside : p ≤ s.eolCache.usedRows)
    (bytes : noDBComputeBytesToSeek s.eolCache s.tupleRead p = (n : Int)) :
    seekToRow headerLine p s =
      { s with
        pos := s.pos + (n + if headerLine ∧ s.readHeader ∨ headerLine ∧ 0 < s.eolCache.headerSize then
          s.eolCache.headerSize else 0)
        rawBuf := []
        tupleStored := 0
        tupleRead := p } := by
  rw [seekToRow, if_pos ⟨moved, inside⟩, bytes]
  simp only [fseekCur, RawInput.mk.injEq, and_true]
  split
  · rw [if_pos (by omega)]
    omega
  · rw [if_pos (by omega)]
    omega

/-- The bytes of the rows before `t`. -/
def bytesBefore (contents : List (List Byte)) (t : Nat) : Nat := ((rawLines contents).take t).flatten.length

/-- The rest of the lines begins behind those before. -/
theorem Layout.drop_bytesBefore {src : Source} {contents : List (List Byte)} (layout : Layout src header contents)
    (t : Nat) : src.file.drop (header.length + bytesBefore contents t) = ((rawLines contents).drop t).flatten := by
  have split : (rawLines contents).flatten =
      ((rawLines contents).take t).flatten ++ ((rawLines contents).drop t).flatten := by
    rw [← flatten_append, take_append_drop]
  rw [← drop_drop, layout.drop_header, split, bytesBefore, drop_left]

variable (header) in
/-- **A reader that waits** while the rows before `t` are served from caches.  With a header it stands
somewhere behind them, once it has been moved. -/
structure Waiting (src : Source) (contents : List (List Byte)) (known : Nat) (s : RawInput) (t : Nat) : Prop where
  tupleRead : s.tupleRead = t
  inside : t ≤ contents.length
  style : s.eolType = .unknown ∨ s.eolType = .nl
  eol : EolRight src header contents s.eolCache known t
  unread : s.readHeader = false
  empty : s.rawBuf = []
  stored : s.tupleStored = 0
  place : src.headerLine = false ∨ t = 0 → s.pos = bytesBefore contents t
  behind : 0 < t → header.length + bytesBefore contents t ≤ s.pos

namespace Waiting

variable {src : Source} {contents : List (List Byte)} {known t p : Nat} {s : RawInput}

/-- At the start of a scan. -/
theorem fresh {eol : EolCache} (right : EolRight src header contents eol known 0) :
    Waiting header src contents known (.fresh eol) 0 :=
  ⟨rfl, Nat.zero_le _, .inl rfl, right, rfl, rfl, rfl, fun _ => rfl, fun positive => absurd positive (lt_irrefl 0)⟩

/-- It can be used without a header, before the header, and at the end of the file. -/
theorem readerAt (layout : Layout src header contents) (waiting : Waiting header src contents known s t)
    (ok : src.headerLine = false ∨ t = 0 ∨ t = contents.length) : ReaderAt src header contents known s t := by
  refine ⟨waiting.tupleRead, waiting.inside, waiting.style, waiting.eol, fun _ read => ?_, ?_⟩
  · rw [waiting.unread] at read
    cases read
  by_cases isHeader : src.headerLine = true
  · by_cases start : t = 0
    · subst start
      exact .inl ⟨isHeader, waiting.unread, waiting.place (.inr rfl), waiting.empty, waiting.stored, rfl⟩
    · have ended : t = contents.length := (ok.resolve_left (by simp [isHeader])).resolve_left start
      refine .inr (.inr ⟨waiting.empty, drop_eq_nil_of_le ?_, ended⟩)
      have behind := waiting.behind (Nat.pos_of_ne_zero start)
      have rest := congrArg List.length (layout.drop_bytesBefore t)
      rw [flatten_drop_eq_nil.2 (le_of_eq ended.symm), length_drop, length_nil] at rest
      omega
  · have noHeader : src.headerLine = false := by simpa using isHeader
    refine .inr (.inl ⟨.inl noHeader, ?_, fun less => ?_⟩)
    · have rest := layout.drop_bytesBefore t
      rw [layout.noHeader noHeader, length_nil, zero_add, ← waiting.place (.inl noHeader)] at rest
      rw [RawInput.unread, waiting.empty, nil_append]
      exact rest
    · have := waiting.eol.known_le
      rw [waiting.stored, waiting.empty]
      exact ⟨by omega, by simp⟩

/-- **Seeking past rows that were served from caches.** -/
theorem seek (layout : Layout src header contents) (waiting : Waiting header src contents known s t)
    (le : t ≤ p) (inside : p ≤ s.eolCache.usedRows) :
    Waiting header src contents known (seekToRow src.headerLine p s) p ∧
      (seekToRow src.headerLine p s).eolCache = s.eolCache := by
  have isRead := waiting.tupleRead
  by_cases same : t = p
  · subst same
    rw [seekToRow, if_neg fun moved => moved.1 isRead]
    exact ⟨waiting, rfl⟩
  have used := waiting.eol.used_le
  have right : EolRight src header contents s.eolCache known p :=
    ⟨waiting.eol.known_le, used, fun r content less here => waiting.eol.lengths r content (by omega) here,
      waiting.eol.headerSize⟩
  have bytes := noDBComputeBytesToSeek_of_right (t := t) waiting.eol inside
  have sum : bytesBefore contents p =
      bytesBefore contents t + (((rawLines contents).drop t).take (p - t)).flatten.length := by
    rw [bytesBefore, bytesBefore, ← length_append, ← flatten_append, ← take_add, show t + (p - t) = p by omega]
  rw [seekToRow_eq (by omega) inside (by rw [isRead]; exact bytes)]
  refine ⟨⟨rfl, by omega, waiting.style, right, waiting.unread, rfl, rfl, fun ok => ?_, fun _ => ?_⟩, rfl⟩
  · have noHeader : src.headerLine = false := ok.resolve_right (by omega)
    have place := waiting.place (.inl noHeader)
    simp only [noHeader, Bool.false_eq_true, false_and, or_self, if_false, add_zero]
    omega
  · simp only
    by_cases isHeader : src.headerLine = true
    · obtain ⟨h, split, -⟩ := layout.header isHeader
      have size : s.eolCache.headerSize = header.length := waiting.eol.headerSize isHeader (by omega)
      have positive : 0 < header.length := by rw [split]; simp
      rw [if_pos (.inr ⟨isHeader, by omega⟩), size]
      by_cases start : t = 0
      · subst start
        have place := waiting.place (.inr rfl)
        omega
      · have behind := waiting.behind (Nat.pos_of_ne_zero start)
        omega
    · have noHeader : src.headerLine = false := by simpa using isHeader
      have place := waiting.place (.inl noHeader)
      rw [layout.noHeader noHeader, length_nil]
      omega

end Waiting

/-! ### What does not move the reader -/

section

variable {src : Source} {contents : List (List Byte)} {known t : Nat}

/-- More rows are allocated, and nothing else changes. -/
theorem EolRight.extend {eol : EolCache} (right : EolRight src header contents eol known t)
    (processed nrows : Nat) : EolRight src header contents (extendEol eol processed nrows) known t := by
  unfold extendEol
  split
  · exact ⟨right.known_le, right.used_le, right.lengths, right.headerSize⟩
  · exact right

variable {s : RawInput}

theorem ReaderAt.extend (reader : ReaderAt src header contents known s t) (processed nrows : Nat) :
    ReaderAt src header contents known { s with eolCache := extendEol s.eolCache processed nrows } t := by
  refine ⟨reader.tupleRead, reader.inside, reader.style, reader.eol.extend processed nrows, fun isHeader read => ?_, ?_⟩
  · have size := reader.size isHeader read
    simp only [extendEol]
    split <;> exact size
  · simp only [extendEol_usedRows]
    exact reader.place

/-- The reader does not look at the line that it has given out. -/
theorem ReaderAt.setLineBuf (reader : ReaderAt src header contents known s t) (lineBuf : List Byte) :
    ReaderAt src header contents known { s with lineBuf := lineBuf } t :=
  ⟨reader.tupleRead, reader.inside, reader.style, reader.eol, reader.size, reader.place⟩

theorem Waiting.extend (waiting : Waiting header src contents known s t) (processed nrows : Nat) :
    Waiting header src contents known { s with eolCache := extendEol s.eolCache processed nrows } t :=
  ⟨waiting.tupleRead, waiting.inside, waiting.style, waiting.eol.extend processed nrows, waiting.unread,
    waiting.empty, waiting.stored, waiting.place, waiting.behind⟩

end

end

end PostgresRaw
