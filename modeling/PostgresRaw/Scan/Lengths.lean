import PostgresRaw.Reader.Header
import PostgresRaw.Scan.RowPosition

/-!
# Line lengths through the EOL cache

Every line that `NoDBGetNextTupleFromFile` delivers leaves its length in a `short int` of the EOL cache.
`NoDBComputeBytesToSeek` and `NoDBComputeBytesToRead` add these up to move through the file without
looking for line ends.  `LengthsSurvive` says that all three are right, and `lengthsSurvive_iff` that they
are exactly if no line is longer than a `short int` can say.

A run of the reader stores the lengths of the lines of the file in order (`readRows_of_le`); everything
else follows from the lengths read back being the lengths stored, which is arithmetic of `toShort`.
-/

namespace PostgresRaw

open List

/-! ### A run of the reader -/

/-- Call `NoDBGetNextTupleFromFile` for the rows from `i` on, `n` times: the lines with their terminators,
as `NoDBCopyReadLineText` leaves them in `line_buf`, and the state then.  `none` if there are fewer. -/
def readRows (src : Source) : (n i : Nat) → RawInput → Option (List (List Byte) × RawInput)
  | 0, _, s => some ([], s)
  | n + 1, i, s =>
    match noDBGetNextTupleFromFile src i s with
    | (.line, s') =>
      (readRows src n (i + 1) s').map fun out =>
        ((noDBCopyReadLineText src { s with lineBuf := [] }).2.lineBuf :: out.1, out.2)
    | _ => none

/-- The bytes in front of the reader: the unread ones, or those behind the header if it is still to be
passed and its end is found. -/
def RawInput.ahead (src : Source) (s : RawInput) : List Byte :=
  if src.headerLine ∧ s.readHeader = false then
    match (src.fread s.pos rawBufSize).findIdx? (· = newline) with
    | none => []
    | some i => src.file.drop (i + 1)
  else s.unread src

/-- The lines in front of the reader, with their terminators. -/
def RawInput.linesAhead (src : Source) (s : RawInput) : List (List Byte) :=
  (readableLinesFrom src.encoding (s.ahead src).length s.eolType (s.ahead src)).lines

/-! ### What the lengths are for -/

/-- The first `k` lines are the longest run that fits into a number of bytes. -/
structure IsLongestRun (raws : List (List Byte)) (bytes k : Nat) : Prop where
  inside : k ≤ raws.length
  fits : (raws.take k).flatten.length ≤ bytes
  longest : ∀ m ≤ raws.length, (raws.take m).flatten.length ≤ bytes → m ≤ k

/-- **The lengths of the lines survive the EOL cache**: those of single lines, the bytes of any range of
them, and the bytes of the lines that fit a buffer; there are none only if no line is left. -/
structure LengthsSurvive (eol : EolCache) (i : Nat) (raws : List (List Byte)) : Prop where
  holds : HoldsLengths eol i raws
  seek : ∀ a b, a ≤ b → b ≤ raws.length →
    noDBComputeBytesToSeek eol (i + a) (i + b) = (((raws.drop a).take (b - a)).flatten.length : Nat)
  read : ∀ a ≤ raws.length, ∀ availableBytes : Nat, ∃ k, IsLongestRun (raws.drop a) availableBytes k ∧
    noDBComputeBytesToRead eol (i + a) availableBytes = ((((raws.drop a).take k).flatten.length : Int), k)
  nonempty : ∀ a ≤ raws.length, (noDBComputeBytesToRead eol (i + a) rawBufSize).1 = 0 → a = raws.length

theorem noDBComputeBytesToRead_eq {eol : EolCache} {i : Nat} {raws : List (List Byte)} (holds : HoldsLengths eol i raws)
    (used : eol.usedRows = i + raws.length) (availableBytes : Nat) : ∃ k, IsLongestRun raws availableBytes k ∧
      noDBComputeBytesToRead eol i availableBytes = (((raws.take k).flatten.length : Int), k) := by
  obtain ⟨k, inside, loop, fits, longest⟩ :=
    bytesToReadLoop_eq holds (show (0 : Int) ≤ availableBytes by omega) 0
  refine ⟨k, ⟨inside, by omega, fun m le less => longest m le (by omega)⟩, ?_⟩
  rw [noDBComputeBytesToRead, used, Nat.add_sub_cancel_left, loop, Nat.zero_add, Int.zero_add]

/-- Recorded lines are all that the batch reader needs. -/
theorem Recorded.lengthsSurvive {eol : EolCache} {i : Nat} {raws : List (List Byte)} (recorded : Recorded eol i raws) :
    LengthsSurvive eol i raws where
  holds := recorded.holds
  seek a b le inside := by
    rw [show i + b = i + a + (b - a) by omega]
    exact noDBComputeBytesToSeek_eq (recorded.drop (by omega)).holds (by rw [length_drop]; omega)
  read a inside availableBytes :=
    noDBComputeBytesToRead_eq (recorded.drop inside).holds (recorded.drop inside).used availableBytes
  nonempty a inside zero := by
    obtain ⟨k, run, batch⟩ := noDBComputeBytesToRead_eq (recorded.drop inside).holds (recorded.drop inside).used rawBufSize
    rw [batch] at zero
    by_contra left
    obtain ⟨raw, rest, same⟩ := exists_cons_of_length_pos (l := raws.drop a) (by rw [length_drop]; omega)
    have mem : raw ∈ raws := mem_of_mem_drop (same ▸ mem_cons_self)
    have short := recorded.short raw mem
    have positive := recorded.positive raw mem
    rw [same] at run zero
    -- One line always fits, so the batch has a line, and it has a byte.
    obtain ⟨m, rfl⟩ : ∃ m, k = m + 1 := by
      refine ⟨k - 1, ?_⟩
      have := run.longest 1 (by simp) (by simp [rawBufSize]; omega)
      omega
    rw [take_succ_cons, flatten_cons, length_append] at zero
    omega

/-! ### What a run stores -/

/-- A run has stored the lengths of the lines `raws` for the rows from `i` on. -/
structure StoresLengths (eol eol' : EolCache) (i : Nat) (raws : List (List Byte)) : Prop where
  before : ∀ j < i, eol'.lengths j = eol.lengths j
  lengths : ∀ (k : Nat) raw, raws[k]? = some raw → eol'.lengths (i + k) = toShort raw.length
  used : raws ≠ [] → eol'.usedRows = i + raws.length

theorem StoresLengths.cons {eol eol' eol'' : EolCache} {i : Nat} {raw : List Byte} {raws : List (List Byte)}
    (first : eol' = { eol.setShortInt i raw.length with usedRows := i + 1 }) (others : StoresLengths eol' eol'' (i + 1) raws)
    (end_ : raws = [] → eol'' = eol') : StoresLengths eol eol'' i (raw :: raws) where
  before j less := by
    rw [others.before j (by omega), first]
    simp [EolCache.setShortInt, ne_of_lt less]
  lengths k raw' here := by
    cases k with
    | zero =>
      obtain rfl : raw = raw' := by simpa using here
      rw [add_zero, others.before i (Nat.lt_add_one i), first]
      simp [EolCache.setShortInt]
    | succ k =>
      rw [show i + (k + 1) = i + 1 + k by omega]
      exact others.lengths k raw' (by simpa using here)
  used _ := by
    by_cases last : raws = []
    · rw [end_ last, first, last]
      rfl
    · rw [others.used last, length_cons]
      omega

section

variable {src : Source} {n i fuel : Nat} {s : RawInput}

/-- A call delivers a line exactly if there is one. -/
theorem noDBGetNextTupleFromFile_result (passed : s.HeaderPassed src) (i : Nat) :
    (noDBGetNextTupleFromFile src i s).1 = (scanLine src.encoding s.eolType 0 .start (s.unread src)).result := by
  have reads := noDBCopyReadLineText_reads (s := { s with lineBuf := [] }) passed
  rw [show ({ s with lineBuf := [] } : RawInput).unread src = s.unread src from rfl] at reads
  rw [← reads.result, noDBGetNextTupleFromFile]
  split
  · next call => rw [call]
  · next call => rw [call]

/-- **A run delivers the lines in front of the reader and stores their lengths.** -/
theorem readRows_of_le (passed : s.HeaderPassed src) (enough : (s.unread src).length ≤ fuel)
    (le : n ≤ (readableLinesFrom src.encoding fuel s.eolType (s.unread src)).lines.length) : ∃ s', readRows src n i s =
        some ((readableLinesFrom src.encoding fuel s.eolType (s.unread src)).lines.take n, s') ∧ (n = 0 → s' = s) ∧
      StoresLengths s.eolCache s'.eolCache i
        ((readableLinesFrom src.encoding fuel s.eolType (s.unread src)).lines.take n) := by
  induction n generalizing i s fuel with
  | zero => exact ⟨s, rfl, fun _ => rfl, fun _ _ => rfl, by simp, by simp⟩
  | succ n ih =>
    cases fuel with
    | zero => cases le
    | succ fuel =>
      generalize scan : scanLine src.encoding s.eolType 0 .start (s.unread src) = l at le
      rw [readableLinesFrom, scan] at le ⊢
      by_cases delivered : l.result = .line
      · simp only [if_pos delivered, length_cons, Nat.add_le_add_iff_right] at le ⊢
        obtain ⟨line, split, known⟩ := content_append_terminator scan delivered
        obtain ⟨s', call, delivers⟩ := noDBGetNextTupleFromFile_line passed scan i delivered
        have reads := noDBCopyReadLineText_reads (s := { s with lineBuf := [] }) passed
        rw [show ({ s with lineBuf := [] } : RawInput).unread src = s.unread src from rfl, scan] at reads
        have lineBuf := reads.lineBuf (by simp [delivered])
        have fewer : (s'.unread src).length ≤ fuel := by
          have positive := length_pos_iff.2 (terminator_ne_nil known)
          have length := congrArg List.length split
          rw [line, length_append, length_append] at length
          rw [delivers.unread]
          omega
        rw [← delivers.eolType, ← delivers.unread] at le ⊢
        obtain ⟨t, others, stays, stores⟩ := ih (i := i + 1) (s := s')
          (by rw [RawInput.HeaderPassed, delivers.readHeader]; exact passed) fewer le
        refine ⟨t, ?_, (fun no => absurd no (Nat.succ_ne_zero n)), ?_⟩
        · rw [readRows, call]
          simp only [others, Option.map_some, lineBuf, nil_append, take_succ_cons]
        · rw [take_succ_cons]
          refine stores.cons delivers.eolCache fun none => ?_
          rcases take_eq_nil_iff.1 none with zero | none
          · rw [stays zero]
          · rw [none] at le
            rw [stays (Nat.le_zero.1 le)]
      · rw [if_neg delivered] at le
        cases le

/-- And it delivers no others. -/
theorem readRows_of_lt (passed : s.HeaderPassed src) (enough : (s.unread src).length ≤ fuel)
    (more : (readableLinesFrom src.encoding fuel s.eolType (s.unread src)).lines.length < n) :
    readRows src n i s = none := by
  induction n generalizing i s fuel with
  | zero => cases more
  | succ n ih =>
    have result := noDBGetNextTupleFromFile_result passed i
    generalize scan : scanLine src.encoding s.eolType 0 .start (s.unread src) = l at result
    rw [readRows]
    split
    · next s' call =>
      rw [call] at result
      obtain ⟨line, split, known⟩ := content_append_terminator scan result.symm
      have positive := length_pos_iff.2 (terminator_ne_nil known)
      have length := congrArg List.length split
      rw [line, length_append, length_append] at length
      obtain ⟨t, call', delivers⟩ := noDBGetNextTupleFromFile_line passed scan i result.symm
      obtain rfl : s' = t := congrArg Prod.snd (call.symm.trans call')
      obtain ⟨fuel, rfl⟩ : ∃ k, fuel = k + 1 := ⟨fuel - 1, by omega⟩
      rw [readableLinesFrom, scan] at more
      simp only [if_pos result.symm, length_cons, Nat.add_lt_add_iff_right] at more
      rw [← delivers.eolType, ← delivers.unread] at more
      rw [ih (by rw [RawInput.HeaderPassed, delivers.readHeader]; exact passed)
        (by rw [delivers.unread]; omega) more]
      rfl
    · rfl

/-! ### The header -/

theorem RawInput.ahead_of_passed (passed : s.HeaderPassed src) : s.ahead src = s.unread src := by
  exact if_neg passed.not_waiting

/-- A reader in front of the header reads as one behind it, or nothing. -/
theorem readRows_header (isHeader : src.headerLine = true) (unread : s.readHeader = false) (empty : s.rawBuf = []) :
    (s.ahead src = [] ∧ ∀ n i, readRows src (n + 1) i s = none) ∨
      ∃ size, s.ahead src = (s.behindHeader size).unread src ∧
        ∀ n i, readRows src (n + 1) i s = readRows src (n + 1) i (s.behindHeader size) := by
  cases found : (src.fread s.pos rawBufSize).findIdx? (· = newline) with
  | none =>
    refine .inl ⟨?_, fun n i => ?_⟩
    · rw [RawInput.ahead, if_pos ⟨isHeader, unread⟩, found]
    · have notLine := noDBCopyReadLineText_unfound (s := { s with lineBuf := [] }) isHeader unread empty found
      rw [readRows, noDBGetNextTupleFromFile]
      generalize noDBCopyReadLineText src { s with lineBuf := [] } = out at notLine
      obtain ⟨result, t⟩ := out
      cases result with
      | line => exact absurd rfl notLine
      | done => rfl
      | error e => rfl
  | some size =>
    refine .inr ⟨size + 1, ?_, fun n i => ?_⟩
    · rw [RawInput.ahead, if_pos ⟨isHeader, unread⟩, found, RawInput.unread,
        show (s.behindHeader (size + 1)).rawBuf = [] from empty, nil_append]
      rfl
    · have raw := noDBCopyReadLineText_behindHeader (s := { s with lineBuf := [] }) isHeader unread empty found
      rw [readRows, readRows, noDBGetNextTupleFromFile_behindHeader isHeader unread empty found, raw]
      rfl

/-! ### Exactly the short lines -/

theorem toShort_eq_iff {n : Nat} : toShort n = n ↔ n ≤ 32767 := by
  rw [toShort]
  constructor
  · intro same
    have := Int.bmod_lt (x := (n : Int)) (m := 65536) (by decide)
    omega
  · exact toShort_of_le

/-- Behind the header. -/
theorem lengthsSurvive_iff_of_passed (passed : s.HeaderPassed src) (i : Nat) :
    (∀ n raws s', readRows src (n + 1) i s = some (raws, s') → LengthsSurvive s'.eolCache i raws) ↔
      ∀ raw ∈ (readableLinesFrom src.encoding (s.unread src).length s.eolType (s.unread src)).lines, raw.length ≤ 32767 := by
  constructor
  · intro survive raw mem
    obtain ⟨k, inside, rfl⟩ := mem_iff_getElem.1 mem
    obtain ⟨s', run, -, stores⟩ := readRows_of_le (i := i) passed le_rfl (Nat.succ_le_of_lt inside)
    have here := (getElem?_take_of_lt (Nat.lt_add_one k)).trans (getElem?_eq_getElem inside)
    have stored := stores.lengths k _ here
    rw [(survive k _ s' run).holds k _ here] at stored
    exact toShort_eq_iff.1 stored.symm
  · intro short n raws s' run
    by_cases le : n + 1 ≤ (readableLinesFrom src.encoding (s.unread src).length s.eolType (s.unread src)).lines.length
    · obtain ⟨t, run', -, stores⟩ := readRows_of_le (i := i) passed le_rfl le
      obtain ⟨rfl, rfl⟩ := Prod.mk.inj (Option.some.inj (run'.symm.trans run))
      refine Recorded.lengthsSurvive ⟨fun k raw here => ?_, fun raw mem => short raw (mem_of_mem_take mem),
        fun raw mem => readableLinesFrom_positive (mem_of_mem_take mem), stores.used ?_⟩
      · rw [stores.lengths k raw here]
        exact toShort_of_le (short raw (mem_of_mem_take (mem_of_getElem? here)))
      · refine ne_nil_of_length_pos ?_
        rw [length_take]
        omega
    · rw [readRows_of_lt passed le_rfl (Nat.lt_of_not_le le)] at run
      cases run

/-- **The lengths survive exactly if every line fits a `short int`**, for any run of the reader on the
lines in front of it.  The buffer is empty as long as the header has not been passed. -/
theorem lengthsSurvive_iff (waiting : s.HeaderPassed src ∨ s.rawBuf = []) (i : Nat) :
    (∀ n raws s', readRows src (n + 1) i s = some (raws, s') → LengthsSurvive s'.eolCache i raws) ↔
      ∀ raw ∈ s.linesAhead src, raw.length ≤ 32767 := by
  by_cases isPassed : s.HeaderPassed src
  · rw [RawInput.linesAhead, RawInput.ahead_of_passed isPassed]
    exact lengthsSurvive_iff_of_passed isPassed i
  · rw [RawInput.HeaderPassed, not_or, Bool.not_eq_false, Bool.not_eq_true] at isPassed
    have empty := waiting.resolve_left fun isPassed' => isPassed'.elim (fun none => by simp [none] at isPassed)
      (fun read => by simp [read] at isPassed)
    rcases readRows_header isPassed.1 isPassed.2 empty with ⟨none, stops⟩ | ⟨size, ahead, runs⟩
    · refine ⟨fun _ raw mem => ?_, fun _ n raws s' run => ?_⟩
      · rw [RawInput.linesAhead, none] at mem
        cases mem
      · rw [stops] at run
        cases run
    · rw [RawInput.linesAhead, ahead]
      simp only [runs]
      exact lengthsSurvive_iff_of_passed (.inr rfl) i

end

/-- The file `h\na\nbb\n`, with a header. -/
def headerFile : Source := ⟨[104, 10, 97, 10, 98, 98, 10], true, plainEncoding, id⟩

theorem lengthsSurvive_headerFile :
    ∃ s', readRows headerFile 2 0 (.fresh .fresh) = some ([[97, 10], [98, 98, 10]], s') ∧
      LengthsSurvive s'.eolCache 0 [[97, 10], [98, 98, 10]] := by
  have short : ∀ raw ∈ (RawInput.fresh .fresh).linesAhead headerFile, raw.length ≤ 32767 := by decide
  exact ⟨_, rfl, (lengthsSurvive_iff (.inr rfl) 0).2 short 1 _ _ rfl⟩

/-- A line of 32768 bytes with its terminator. -/
def longLine : Source := ⟨List.replicate 32767 97 ++ [newline], false, plainEncoding, id⟩

/-- Its length is not read back. -/
theorem not_lengthsSurvive_longLine :
    ¬ ∀ n raws s', readRows longLine (n + 1) 0 (.fresh .fresh) = some (raws, s') →
      LengthsSurvive s'.eolCache 0 raws := by
  rw [lengthsSurvive_iff_of_passed (.inl rfl) 0]
  intro short
  have scan : scanLine plainEncoding .unknown 0 .start longLine.file = ⟨.line, longLine.file, [], .nl⟩ :=
    scanLine_clean rfl (.inl rfl) (fun b mem => by rw [eq_of_mem_replicate mem]; decide) [] rfl
  have length : longLine.file.length = 32767 + 1 := by
    rw [longLine, length_append, length_replicate, length_singleton]
  have mem : longLine.file ∈ (readableLinesFrom plainEncoding longLine.file.length .unknown longLine.file).lines := by
    rw [length, readableLinesFrom, scan]
    exact mem_cons_self
  have := short _ mem
  omega

end PostgresRaw
