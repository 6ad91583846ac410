import Mathlib.Algebra.BigOperators.Group.List.Basic
import PostgresRaw.Reader.Lines

/-!
# Reading a file twice

The first scan of a file finds the lines byte by byte and records their lengths in the EOL
cache; later scans read whole batches of lines by these lengths.  `RereadsAlike` says that
the two passes leave the same bytes in `line_buf` call by call and report the end of the data
after the same number of lines.

`rereadsAlike_iff` is the exact condition.  The second pass strips one byte from every line,
because the branch for CRNL repeats the condition of an earlier one, and it never delivers
bytes behind the last terminator.  So the two passes agree exactly for files without CRNL
lines whose data ends with a terminator (or with the end-of-copy marker).
-/

namespace PostgresRaw

open List

/-! ### The lines of a file -/

/-- A file as the plain reader splits it: the lines without their terminators, the line-end
style, and the bytes that the last call leaves in `line_buf` when it reports the end. -/
structure FileLines where
  contents : List (List Byte)
  eolType : EolType
  leftover : List Byte
deriving DecidableEq

/-- Split the unread bytes into lines; `none` is an error of the reader. -/
def fileLinesFrom (enc : Encoding) : (fuel : Nat) → EolType → List Byte → Option FileLines
  | 0, _, _ => none
  | fuel + 1, eol, bytes =>
    let l := scanLine enc eol 0 .start bytes
    match l.result with
    | .error _ => none
    | .done => some ⟨[], l.eolType, l.line⟩
    | .line =>
      (fileLinesFrom enc fuel l.eolType l.rest).map fun rest =>
        { rest with contents := l.content :: rest.contents }

/-- The lines of a file. -/
def fileLines (enc : Encoding) (file : List Byte) : Option FileLines :=
  fileLinesFrom enc (file.length + 1) .unknown file

/-! ### Passes over a file -/

/-- A pass over a file: what `line_buf` holds after each call that delivers a line, after the
call that reports the end of the data, and the state then. -/
structure Pass where
  delivered : List (List Byte)
  last : List Byte
  final : RawInput

/-- Call a reading function for row `i`, `i + 1`, .. until it reports the end of the data.
`none` is an error, or more calls than `fuel`. -/
def pass (next : Nat → RawInput → ReadResult × RawInput) :
    (fuel i : Nat) → RawInput → Option Pass
  | 0, _, _ => none
  | fuel + 1, i, s =>
    match next i s with
    | (.error _, _) => none
    | (.done, s) => some ⟨[], s.lineBuf, s⟩
    | (.line, s) =>
      (pass next fuel (i + 1) s).map fun rest =>
        { rest with delivered := s.lineBuf :: rest.delivered }

/-- An EOL cache that no scan has used yet. -/
def EolCache.fresh : EolCache := ⟨fun _ => 0, 0, 0, 0⟩

/-- The pass that fills the EOL cache. -/
def firstPass (src : Source) : Option Pass :=
  pass (noDBGetNextTupleFromFile src) (src.file.length + 1) 0 (.fresh .fresh)

/-- The pass that uses it. -/
def secondPass (src : Source) (first : Pass) : Option Pass :=
  pass (noDBGetNextTupleFromFileWithEOL src) (src.file.length + 1) 0
    (.fresh first.final.eolCache)

/-- The two passes agree call by call, whatever the conversion to the server encoding is. -/
def RereadsAlike (enc : Encoding) (file : List Byte) : Prop :=
  ∀ convert : List Byte → List Byte, ∃ first second,
    firstPass ⟨file, false, enc, convert⟩ = some first ∧
      secondPass ⟨file, false, enc, convert⟩ first = some second ∧
      second.delivered = first.delivered ∧ second.last = first.last

/-! ### The first pass -/

/-- The lines with their terminators. -/
def FileLines.raws (fl : FileLines) : List (List Byte) :=
  fl.contents.map (· ++ fl.eolType.terminator)

variable {enc : Encoding} {eol : EolType} {fl : FileLines} {bytes raw : List Byte} {fuel i : Nat} {s : RawInput}
  {src : Source} {raws : List (List Byte)} {t : Byte}

/-- The next line, and the lines after it. -/
theorem fileLinesFrom_cases (split : fileLinesFrom enc (fuel + 1) eol bytes = some fl) :
    ∃ l, scanLine enc eol 0 .start bytes = l ∧ ((l.result = .done ∧ fl = ⟨[], l.eolType, l.line⟩) ∨
        (l.result = .line ∧ ∃ rest, fileLinesFrom enc fuel l.eolType l.rest = some rest ∧
          fl = { rest with contents := l.content :: rest.contents })) := by
  generalize scan : scanLine enc eol 0 .start bytes = l
  cases result : l.result with
  | error e => simp [fileLinesFrom, scan, result] at split
  | done =>
    simp only [fileLinesFrom, scan, result, Option.some.injEq] at split
    exact ⟨l, rfl, .inl ⟨result, split.symm⟩⟩
  | line =>
    simp only [fileLinesFrom, scan, result, Option.map_eq_some_iff] at split
    obtain ⟨rest, inner, rfl⟩ := split
    exact ⟨l, rfl, .inr ⟨result, rest, inner, rfl⟩⟩

/-- Once a style has been found, all lines have it. -/
theorem fileLinesFrom_eolType (known : eol ≠ .unknown) (split : fileLinesFrom enc fuel eol bytes = some fl) :
    fl.eolType = eol := by
  induction fuel generalizing eol bytes fl with
  | zero => cases split
  | succ fuel ih =>
    obtain ⟨l, rfl, ⟨result, rfl⟩ | ⟨result, rest, inner, rfl⟩⟩ := fileLinesFrom_cases split
    · exact scanLine_done result
    · obtain ⟨-, -, -, known', style⟩ := scanLine_line result
      rcases style with unknown | same
      · exact absurd unknown known
      · exact (ih known' inner).trans same

/-- A delivered line is its content and the terminator. -/
theorem content_append_terminator {l : LineScan} (scan : scanLine enc eol 0 .start bytes = l)
    (delivered : l.result = .line) : l.line = l.content ++ l.eolType.terminator ∧ bytes = l.line ++ l.rest ∧
      l.eolType ≠ .unknown := by
  obtain ⟨content, line, split, known, -⟩ := scanLine_line (scan ▸ delivered)
  rw [scan] at line split known
  refine ⟨?_, split, known⟩
  rw [LineScan.content, line]
  simp

/-- The unread bytes are the lines with their terminators and something that holds no line. -/
theorem fileLinesFrom_split (split : fileLinesFrom enc fuel eol bytes = some fl) :
    ∃ tail, bytes = fl.raws.flatten ++ tail := by
  induction fuel generalizing eol bytes fl with
  | zero => cases split
  | succ fuel ih =>
    obtain ⟨l, scan, ⟨result, rfl⟩ | ⟨result, rest, inner, rfl⟩⟩ := fileLinesFrom_cases split
    · exact ⟨bytes, rfl⟩
    · obtain ⟨line, whole, known⟩ := content_append_terminator scan result
      obtain ⟨tail, others⟩ := ih inner
      have style := fileLinesFrom_eolType known inner
      refine ⟨tail, ?_⟩
      rw [whole, others, line]
      simp [FileLines.raws, style]

/-- **The first pass delivers the lines of the file and records their lengths.** -/
theorem pass_first (passed : s.HeaderPassed src)
    (split : fileLinesFrom src.encoding fuel s.eolType (s.unread src) = some fl) :
    ∃ p, pass (noDBGetNextTupleFromFile src) fuel i s = some p ∧
      p.delivered = fl.contents.map src.convert ∧ p.last = fl.leftover ∧
      (∀ j, j < i → p.final.eolCache.lengths j = s.eolCache.lengths j) ∧ (∀ (k : Nat) raw, fl.raws[k]? = some raw →
        p.final.eolCache.lengths (i + k) = toShort raw.length) ∧
      (s.eolCache.usedRows = i → p.final.eolCache.usedRows = i + fl.contents.length) := by
  induction fuel generalizing i s fl with
  | zero => cases split
  | succ fuel ih =>
    obtain ⟨l, scan, ⟨result, rfl⟩ | ⟨result, rest, inner, rfl⟩⟩ := fileLinesFrom_cases split
    · obtain ⟨s', call, lineBuf, -, -, frame⟩ := noDBGetNextTupleFromFile_done passed scan i result
      refine ⟨⟨[], s'.lineBuf, s'⟩, by simp only [pass, call], rfl, lineBuf, ?_, ?_, ?_⟩
      · intro j _; rw [frame.eolCache]
      · intro k raw here; simp [FileLines.raws] at here
      · intro used; rw [frame.eolCache, used]; rfl
    · obtain ⟨line, -, known⟩ := content_append_terminator scan result
      obtain ⟨s', call, delivers⟩ := noDBGetNextTupleFromFile_line passed scan i result
      have style := fileLinesFrom_eolType known inner
      rw [← delivers.eolType, ← delivers.unread] at inner
      have passed' : s'.HeaderPassed src := by
        rw [RawInput.HeaderPassed, delivers.readHeader]; exact passed
      obtain ⟨p, later, delivered, last, before, lengths, used⟩ := ih (i := i + 1) passed' inner
      refine ⟨{ p with delivered := s'.lineBuf :: p.delivered }, by simp only [pass, call, later, Option.map_some],
        ?_, last, ?_, ?_, ?_⟩
      · simp [delivered, delivers.lineBuf]
      · intro j less
        rw [before j (by omega), delivers.eolCache]
        simp [EolCache.setShortInt, ne_of_lt less]
      · intro k raw here
        cases k with
        | zero =>
          have raw_eq : raw = l.line := by
            simp [FileLines.raws, style] at here
            rw [← here, line]
          rw [add_zero, before i (Nat.lt_add_one i), delivers.eolCache, raw_eq]
          simp [EolCache.setShortInt]
        | succ k =>
          rw [show i + (k + 1) = i + 1 + k by omega]
          exact lengths k raw (by simpa [FileLines.raws] using here)
      · intro _
        rw [used (by rw [delivers.eolCache])]
        simp only [length_cons]
        omega

/-! ### Reading by known lengths -/

/-- The EOL cache holds the lengths of the lines `raws`, which start at row `i`. -/
def HoldsLengths (eol : EolCache) (i : Nat) (raws : List (List Byte)) : Prop :=
  ∀ (k : Nat) raw, raws[k]? = some raw → eol.lengths (i + k) = raw.length

theorem HoldsLengths.tail {eol : EolCache} (holds : HoldsLengths eol i (raw :: raws)) :
    HoldsLengths eol (i + 1) raws := by
  intro k raw' here
  rw [show i + 1 + k = i + (k + 1) by omega]
  exact holds (k + 1) raw' (by simpa using here)

theorem HoldsLengths.drop {eol : EolCache} (holds : HoldsLengths eol i raws) (k : Nat) :
    HoldsLengths eol (i + k) (raws.drop k) := by
  intro j raw here
  rw [getElem?_drop] at here
  rw [add_assoc]
  exact holds (k + j) raw here

/-- **The batch is the longest run of whole lines** that fits. -/
theorem bytesToReadLoop_eq {eol : EolCache} {availableBytes : Int} (holds : HoldsLengths eol i raws) {result : Int}
    (fits : result ≤ availableBytes) (tuplesRead : Nat) : ∃ k, k ≤ raws.length ∧
      bytesToReadLoop eol availableBytes raws.length i result tuplesRead =
        (result + ((raws.take k).flatten.length : Nat), tuplesRead + k) ∧
      result + ((raws.take k).flatten.length : Nat) ≤ availableBytes ∧
      ∀ m ≤ raws.length, result + ((raws.take m).flatten.length : Nat) ≤ availableBytes → m ≤ k := by
  induction raws generalizing i result tuplesRead with
  | nil => exact ⟨0, Nat.le_refl 0, by simp [bytesToReadLoop], by simpa using fits, fun m le _ => le⟩
  | cons raw raws ih =>
    have first : eol.lengths i = raw.length := by simpa using holds 0 raw rfl
    have longer : ∀ (m : Nat), result + (((raw :: raws).take (m + 1)).flatten.length : Nat) =
        result + raw.length + ((raws.take m).flatten.length : Nat) := fun m => by
      rw [take_succ_cons, flatten_cons, length_append]
      omega
    by_cases full : result + eol.lengths i > availableBytes
    · refine ⟨0, by simp, by simp [bytesToReadLoop, full], by simpa using fits, fun m _ less => ?_⟩
      cases m with
      | zero => exact Nat.le_refl 0
      | succ m =>
        rw [longer] at less
        omega
    · obtain ⟨k, inside, loop, less, longest⟩ := ih holds.tail
        (show result + eol.lengths i ≤ availableBytes by omega) (tuplesRead + 1)
      rw [first] at loop less longest
      refine ⟨k + 1, by simpa using inside, ?_, by rw [longer]; exact less, fun m le fits => ?_⟩
      · rw [length_cons, bytesToReadLoop, if_neg full, first, loop, longer, Nat.add_assoc, Nat.add_comm 1 k]
      · cases m with
        | zero => exact Nat.zero_le _
        | succ m =>
          rw [longer] at fits
          exact Nat.succ_le_succ (longest m (by simpa using le) fits)

/-- Lines that the batch reader can handle: their lengths are recorded, fit a `short int`, and
are positive, as every line has a terminator. -/
structure Recorded (eol : EolCache) (i : Nat) (raws : List (List Byte)) : Prop where
  holds : HoldsLengths eol i raws
  short : ∀ raw ∈ raws, raw.length ≤ 32767
  positive : ∀ raw ∈ raws, 0 < raw.length
  used : eol.usedRows = i + raws.length

theorem Recorded.tail {eol : EolCache} (recorded : Recorded eol i (raw :: raws)) : Recorded eol (i + 1) raws :=
  ⟨recorded.holds.tail, fun r mem => recorded.short r (mem_cons_of_mem _ mem),
    fun r mem => recorded.positive r (mem_cons_of_mem _ mem), by rw [recorded.used, length_cons]; omega⟩

/-- Before row `i`, with the lines `raws` and then `tail` to come: the buffer holds the first
`tupleStored` of them and the file position is behind these. -/
structure BatchInv (src : Source) (s : RawInput) (i : Nat) (raws : List (List Byte))
    (tail : List Byte) : Prop where
  passed : s.HeaderPassed src
  recorded : Recorded s.eolCache i raws
  stored : s.tupleStored ≤ raws.length
  buffered : s.rawBuf = (raws.take s.tupleStored).flatten
  file : src.file.drop s.pos = (raws.drop s.tupleStored).flatten ++ tail

/-- With an empty buffer and lines to come, a batch of at least one line is read. -/
theorem readBatch_eq {tail : List Byte} (inv : BatchInv src s i (raw :: raws) tail) (empty : s.tupleStored = 0) :
    ∃ s', readBatch src i s = (false, s') ∧ BatchInv src s' i (raw :: raws) tail ∧
      0 < s'.tupleStored ∧ s'.lineBuf = s.lineBuf ∧ s'.eolCache = s.eolCache ∧
      s'.eolType = s.eolType ∧ s'.readHeader = s.readHeader ∧ s'.tupleRead = s.tupleRead := by
  have noHeader := inv.passed.not_waiting
  obtain ⟨k, inside, loop, -, longest⟩ :=
    bytesToReadLoop_eq inv.recorded.holds (show (0 : Int) ≤ rawBufSize by decide) 0
  have positive : 0 < k := by
    refine longest 1 (by simp) ?_
    have := inv.recorded.short raw (by simp)
    simp only [take_succ_cons, take_zero, flatten_cons, flatten_nil, append_nil, rawBufSize]
    omega
  generalize batch : ((raw :: raws).take k).flatten = data at loop
  have dataPositive : 0 < data.length := by
    obtain ⟨m, rfl⟩ : ∃ m, k = m + 1 := ⟨k - 1, by omega⟩
    have := inv.recorded.positive raw (by simp)
    rw [← batch, take_succ_cons, flatten_cons, length_append]
    omega
  have file : src.file.drop s.pos = data ++ (((raw :: raws).drop k).flatten ++ tail) := by
    rw [inv.file, empty, drop_zero, ← batch, ← append_assoc, ← flatten_append, take_append_drop]
  have bytes : src.freadInt s.pos (0 + (data.length : Int)) = data := by
    rw [Source.freadInt, if_neg (by omega), Source.fread, file]
    simp
  have amount : noDBComputeBytesToRead s.eolCache i rawBufSize = (0 + (data.length : Int), 0 + k) := by
    rw [noDBComputeBytesToRead, inv.recorded.used, Nat.add_sub_cancel_left]
    exact loop
  let s' : RawInput := { s with pos := s.pos + data.length, rawBuf := data, tupleStored := 0 + k }
  refine ⟨s', ?_, ?_, by simp only [s']; omega, rfl, rfl, rfl, rfl, rfl⟩
  · have notZero : ¬ (0 + (data.length : Int) = 0) := by omega
    simp only [readBatch, if_neg noHeader, amount, if_neg notZero, bytes, s']
  · refine ⟨inv.passed, inv.recorded, by simpa [s'] using inside, by simp [s', batch], ?_⟩
    simp only [s', zero_add]
    rw [← drop_drop, file, drop_left]

/-- **A call for a known line delivers it.** -/
theorem noDBCopyReadLineTextWithEOL_line {tail : List Byte} (inv : BatchInv src s i (raw :: raws) tail) :
    ∃ s', noDBCopyReadLineTextWithEOL src i s = (.line, s') ∧ BatchInv src s' (i + 1) raws tail ∧
      s'.lineBuf = s.lineBuf ++ raw ∧ s'.eolCache = s.eolCache ∧ s'.eolType = s.eolType ∧
      s'.readHeader = s.readHeader ∧ s'.tupleRead = s.tupleRead := by
  -- After the first half the buffer starts with the line, whether or not it was filled now.
  obtain ⟨s₁, filled, inv₁, positive, lineBuf, eolCache, eolType, readHeader, tupleRead⟩ :
      ∃ s₁, (if s.tupleStored = 0 then readBatch src i s else (false, s)) = (false, s₁) ∧
        BatchInv src s₁ i (raw :: raws) tail ∧ 0 < s₁.tupleStored ∧ s₁.lineBuf = s.lineBuf ∧
        s₁.eolCache = s.eolCache ∧ s₁.eolType = s.eolType ∧ s₁.readHeader = s.readHeader ∧
        s₁.tupleRead = s.tupleRead := by
    by_cases empty : s.tupleStored = 0
    · rw [if_pos empty]
      exact readBatch_eq inv empty
    · rw [if_neg empty]
      exact ⟨s, rfl, inv, by omega, rfl, rfl, rfl, rfl, rfl⟩
  obtain ⟨m, stored⟩ : ∃ m, s₁.tupleStored = m + 1 := ⟨s₁.tupleStored - 1, by omega⟩
  have length : s₁.eolCache.lengths i = raw.length := by
    simpa using inv₁.recorded.holds 0 raw rfl
  have buffered : s₁.rawBuf = raw ++ (raws.take m).flatten := by
    rw [inv₁.buffered, stored]; simp
  have notNegative : ¬ ((raw.length : Int) < 0) := by omega
  let s' : RawInput := { s₁ with
    tupleStored := m
    lineBuf := s₁.lineBuf ++ raw
    rawBuf := (raws.take m).flatten }
  refine ⟨s', ?_, ?_, by simp [s', lineBuf], eolCache, eolType, readHeader, tupleRead⟩
  · have taken : rawBytes (raw ++ (raws.take m).flatten) raw.length = raw := by
      rw [rawBytes, append_assoc, take_left]
    simp only [noDBCopyReadLineTextWithEOL, filled, Bool.false_eq_true, if_false, length,
      if_neg notNegative, Int.toNat_natCast, buffered, taken, drop_left, stored, Nat.add_sub_cancel, s']
  · have inside := inv₁.stored
    rw [stored] at inside
    refine ⟨inv₁.passed, inv₁.recorded.tail, by simpa [s'] using inside, rfl, ?_⟩
    have := inv₁.file
    rw [stored] at this
    simpa [s'] using this

/-- Behind the last known line a call reports the end of the data. -/
theorem noDBCopyReadLineTextWithEOL_done {tail : List Byte} (inv : BatchInv src s i [] tail) :
    noDBCopyReadLineTextWithEOL src i s = (.done, s) := by
  have noHeader := inv.passed.not_waiting
  have empty : s.tupleStored = 0 := by simpa using inv.stored
  have amount : noDBComputeBytesToRead s.eolCache i rawBufSize = (0, 0) := by
    rw [noDBComputeBytesToRead, inv.recorded.used]
    simp [bytesToReadLoop]
  simp [noDBCopyReadLineTextWithEOL, empty, readBatch, noHeader, amount]

/-- A terminator of one byte is stripped. -/
theorem stripTerminator_append (terminates : t = newline ∨ t = carriageReturn) (content : List Byte) :
    stripTerminator (content ++ [t]) = content := by
  rcases terminates with rfl | rfl <;> simp [stripTerminator]

/-- At most one byte is ever stripped. -/
theorem le_length_stripTerminator (lineBuf : List Byte) : lineBuf.length - 1 ≤ (stripTerminator lineBuf).length := by
  unfold stripTerminator
  split_ifs with nl cr both
  · simp
  · simp
  · exact absurd both.1 nl
  · exact Nat.sub_le _ _

/-- **A call by length delivers a known line without its terminator.** -/
theorem noDBGetNextTupleFromFileWithEOL_line {content : List Byte} {tail : List Byte}
    (terminates : t = newline ∨ t = carriageReturn) (inv : BatchInv src s i ((content ++ [t]) :: raws) tail) :
    ∃ s', noDBGetNextTupleFromFileWithEOL src i s = (.line, s') ∧
      BatchInv src s' (i + 1) raws tail ∧ s'.lineBuf = src.convert content ∧
      s'.eolCache = s.eolCache ∧ s'.eolType = s.eolType ∧ s'.readHeader = s.readHeader ∧
      s'.tupleRead = s.tupleRead + 1 := by
  obtain ⟨s', call, inv', lineBuf, eolCache, eolType, readHeader, tupleRead⟩ :=
    noDBCopyReadLineTextWithEOL_line (s := { s with lineBuf := [] })
      ⟨inv.passed, inv.recorded, inv.stored, inv.buffered, inv.file⟩
  have stripped : stripTerminator s'.lineBuf = content := by
    rw [lineBuf, nil_append, stripTerminator_append terminates]
  refine ⟨{ s' with lineBuf := src.convert content, tupleRead := s'.tupleRead + 1 }, ?_,
    ⟨inv'.passed, inv'.recorded, inv'.stored, inv'.buffered, inv'.file⟩, rfl, eolCache, eolType,
    readHeader, congrArg (· + 1) tupleRead⟩
  simp only [noDBGetNextTupleFromFileWithEOL, call, stripped]

theorem noDBGetNextTupleFromFileWithEOL_done {tail : List Byte} (inv : BatchInv src s i [] tail) :
    noDBGetNextTupleFromFileWithEOL src i s = (.done, { s with lineBuf := [] }) := by
  have call := noDBCopyReadLineTextWithEOL_done (s := { s with lineBuf := [] })
    ⟨inv.passed, inv.recorded, inv.stored, inv.buffered, inv.file⟩
  simp only [noDBGetNextTupleFromFileWithEOL, call]

/-! ### The second pass -/

/-- **The second pass delivers the recorded lines**, if each ends in one terminator byte. -/
theorem pass_second {contents : List (List Byte)} {tail : List Byte} (terminates : t = newline ∨ t = carriageReturn)
    (inv : BatchInv src s i (contents.map (· ++ [t])) tail) (enough : contents.length < fuel) :
    ∃ p, pass (noDBGetNextTupleFromFileWithEOL src) fuel i s = some p ∧
      p.delivered = contents.map src.convert ∧ p.last = [] := by
  induction contents generalizing fuel i s with
  | nil =>
    obtain ⟨fuel, rfl⟩ : ∃ f, fuel = f + 1 := ⟨fuel - 1, by simp at enough; omega⟩
    exact ⟨⟨[], [], { s with lineBuf := [] }⟩,
      by simp only [pass, noDBGetNextTupleFromFileWithEOL_done inv], rfl, rfl⟩
  | cons content contents ih =>
    obtain ⟨fuel, rfl⟩ : ∃ f, fuel = f + 1 := ⟨fuel - 1, by simp at enough; omega⟩
    obtain ⟨s', call, inv', lineBuf, -⟩ := noDBGetNextTupleFromFileWithEOL_line terminates inv
    obtain ⟨p, later, delivered, last⟩ := ih inv' (by simpa using enough)
    refine ⟨{ p with delivered := s'.lineBuf :: p.delivered }, ?_, ?_, last⟩
    · simp only [pass, call, later, Option.map_some]
    · simp [delivered, lineBuf]

/-- Filling the buffer touches neither `line_buf` nor the EOL cache. -/
theorem readBatch_frame (src : Source) (i : Nat) (s : RawInput) :
    (readBatch src i s).2.lineBuf = s.lineBuf ∧ (readBatch src i s).2.eolCache = s.eolCache := by
  unfold readBatch
  dsimp only
  split_ifs <;> exact ⟨rfl, rfl⟩

/-- What a call by length can do: report the end with an empty `line_buf`, or deliver a line
whose length differs from the recorded one by at most the one byte stripped. -/
theorem noDBGetNextTupleFromFileWithEOL_cases (src : Source) (i : Nat) (s : RawInput) :
    (∃ s', noDBGetNextTupleFromFileWithEOL src i s = (.done, s') ∧ s'.lineBuf = []) ∨
    (∃ s' e, noDBGetNextTupleFromFileWithEOL src i s = (.error e, s')) ∨
    (∃ s' line, noDBGetNextTupleFromFileWithEOL src i s = (.line, s') ∧
      s'.lineBuf = src.convert line ∧ 0 ≤ s.eolCache.lengths i ∧ s.eolCache.lengths i ≤ line.length + 1) := by
  obtain ⟨exhausted, s₁, filled, lineBuf, eolCache⟩ :
      ∃ exhausted s₁, (if s.tupleStored = 0 then readBatch src i { s with lineBuf := [] }
          else (false, { s with lineBuf := [] })) = (exhausted, s₁) ∧ s₁.lineBuf = [] ∧
        s₁.eolCache = s.eolCache := by
    by_cases empty : s.tupleStored = 0
    · rw [if_pos empty]
      exact ⟨_, _, rfl, readBatch_frame src i _⟩
    · rw [if_neg empty]
      exact ⟨_, _, rfl, rfl, rfl⟩
  unfold noDBGetNextTupleFromFileWithEOL noDBCopyReadLineTextWithEOL
  simp only [filled, eolCache, lineBuf, nil_append]
  by_cases ended : exhausted = true
  · simp only [if_pos ended]
    exact .inl ⟨s₁, rfl, lineBuf⟩
  · simp only [if_neg ended]
    by_cases negative : s.eolCache.lengths i < 0
    · simp only [if_pos negative]
      exact .inr (.inl ⟨_, _, rfl⟩)
    · simp only [if_neg negative]
      refine .inr (.inr ⟨_, _, rfl, rfl, by omega, ?_⟩)
      have stripped := le_length_stripTerminator (rawBytes s₁.rawBuf (s.eolCache.lengths i).toNat)
      have length : (rawBytes s₁.rawBuf (s.eolCache.lengths i).toNat).length =
          (s.eolCache.lengths i).toNat := by simp [rawBytes]
      omega

/-- The call that ends the second pass leaves `line_buf` empty. -/
theorem last_of_pass_second {p : Pass} (second : pass (noDBGetNextTupleFromFileWithEOL src) fuel i s = some p) :
    p.last = [] := by
  induction fuel generalizing i s p with
  | zero => cases second
  | succ fuel ih =>
    rcases noDBGetNextTupleFromFileWithEOL_cases src i s with
      ⟨s', call, empty⟩ | ⟨s', e, call⟩ | ⟨s', line, call, -⟩
    · simp only [pass, call, Option.some.injEq] at second
      rw [← second]
      exact empty
    · simp only [pass, call] at second
      cases second
    · simp only [pass, call, Option.map_eq_some_iff] at second
      obtain ⟨rest, later, rfl⟩ := second
      exact (ih later : rest.last = [])

/-! ### When the passes agree -/

/-- A file with a line has a line-end style. -/
theorem fileLinesFrom_known (split : fileLinesFrom enc fuel eol bytes = some fl) (nonempty : fl.contents ≠ []) :
    fl.eolType ≠ .unknown := by
  cases fuel with
  | zero => cases split
  | succ fuel =>
    obtain ⟨l, scan, ⟨result, rfl⟩ | ⟨result, rest, inner, rfl⟩⟩ := fileLinesFrom_cases split
    · exact absurd rfl nonempty
    · obtain ⟨-, -, known⟩ := content_append_terminator scan result
      rw [show ({ rest with contents := l.content :: rest.contents } : FileLines).eolType =
        rest.eolType from rfl, fileLinesFrom_eolType known inner]
      exact known

/-- The first pass over a whole file, with what it leaves in the EOL cache. -/
theorem firstPass_eq {src : Source} {fl : FileLines} (noHeader : src.headerLine = false)
    (split : fileLines src.encoding src.file = some fl) :
    ∃ p, firstPass src = some p ∧ p.delivered = fl.contents.map src.convert ∧ p.last = fl.leftover ∧
      (∀ (k : Nat) raw, fl.raws[k]? = some raw → p.final.eolCache.lengths k = toShort raw.length) ∧
      p.final.eolCache.usedRows = fl.contents.length := by
  obtain ⟨p, run, delivered, last, -, lengths, used⟩ :=
    pass_first (i := 0) (s := .fresh .fresh) (.inl noHeader) split
  refine ⟨p, run, delivered, last, fun k raw here => ?_, ?_⟩
  · simpa using lengths k raw here
  · simpa using used rfl

theorem toShort_of_le {n : Nat} (fits : n ≤ 32767) : toShort n = n := by
  rw [toShort, Int.bmod_def]
  omega

/-- The second pass over a file whose lines end in one byte. -/
theorem secondPass_eq {first : Pass} (noHeader : src.headerLine = false)
    (split : fileLines src.encoding src.file = some fl) (short : ∀ content ∈ fl.contents, content.length < 32767)
    (ran : firstPass src = some first) (terminates : t = newline ∨ t = carriageReturn)
    (single : fl.raws = fl.contents.map (· ++ [t])) : ∃ second, secondPass src first = some second ∧
      second.delivered = fl.contents.map src.convert ∧ second.last = [] := by
  obtain ⟨p, run, -, -, lengths, used⟩ := firstPass_eq noHeader split
  obtain rfl : p = first := by rw [run] at ran; exact Option.some.inj ran
  obtain ⟨tail, file⟩ := fileLinesFrom_split split
  have fits : ∀ raw ∈ fl.raws, 0 < raw.length ∧ raw.length ≤ 32767 := by
    intro raw mem
    rw [single, mem_map] at mem
    obtain ⟨content, mem, rfl⟩ := mem
    have := short content mem
    simp
    omega
  have recorded : Recorded p.final.eolCache 0 fl.raws := by
    refine ⟨fun k raw here => ?_, fun raw mem => (fits raw mem).2, fun raw mem => (fits raw mem).1, ?_⟩
    · rw [zero_add, lengths k raw here, toShort_of_le (fits raw (mem_of_getElem? here)).2]
    · rw [used, FileLines.raws, length_map, zero_add]
  have inv : BatchInv src (.fresh p.final.eolCache) 0 (fl.contents.map (· ++ [t])) tail := by
    rw [← single]
    exact ⟨.inl noHeader, recorded, Nat.zero_le _, rfl, file⟩
  have enough : fl.contents.length < src.file.length + 1 := by
    have bytes := congrArg List.length file
    rw [single, length_append, length_flatten, map_map] at bytes
    have := length_le_sum_of_one_le (fl.contents.map (List.length ∘ (· ++ [t])))
      (by simp)
    rw [length_map] at this
    omega
  exact pass_second terminates inv enough

/-- With CRNL lines the first call of the second pass does not deliver the first line: one byte
of the terminator is left, or, for a line of 32766 bytes, the recorded length is negative. -/
theorem secondPass_crnl {first second : Pass} {content : List Byte} {contents : List (List Byte)}
    (noHeader : src.headerLine = false) (identity : src.convert = id)
    (split : fileLines src.encoding src.file = some fl) (short : ∀ content ∈ fl.contents, content.length < 32767)
    (crnl : fl.eolType = .crnl) (lines : fl.contents = content :: contents) (ran : firstPass src = some first)
    (reran : secondPass src first = some second) : second.delivered ≠ fl.contents.map src.convert := by
  intro same
  obtain ⟨p, run, -, -, lengths, -⟩ := firstPass_eq noHeader split
  obtain rfl : p = first := by rw [run] at ran; exact Option.some.inj ran
  have recorded : p.final.eolCache.lengths 0 = toShort ((content.length + 2 : Nat) : Int) := by
    rw [lengths 0 (content ++ [carriageReturn, newline])
      (by simp [FileLines.raws, lines, crnl, EolType.terminator])]
    simp
  have fits := short content (by simp [lines])
  simp only [lines, identity, map_id_fun, id_eq] at same
  rw [secondPass] at reran
  rcases noDBGetNextTupleFromFileWithEOL_cases src 0 (.fresh p.final.eolCache) with
    ⟨s', call, -⟩ | ⟨s', e, call⟩ | ⟨s', line, call, lineBuf, positive, length⟩
  · simp only [pass, call, Option.some.injEq] at reran
    rw [← reran] at same
    cases same
  · simp only [pass, call] at reran
    cases reran
  · simp only [pass, call, Option.map_eq_some_iff] at reran
    obtain ⟨rest, -, rfl⟩ := reran
    obtain ⟨delivered, -⟩ := List.cons.inj same
    rw [lineBuf, identity, id_eq] at delivered
    change 0 ≤ p.final.eolCache.lengths 0 at positive
    change p.final.eolCache.lengths 0 ≤ _ at length
    rw [recorded] at positive length
    rw [delivered] at length
    by_cases wraps : content.length = 32766
    · rw [wraps] at positive
      exact absurd positive (by decide)
    · rw [toShort_of_le (by omega)] at length
      omega

/-- **The second pass repeats the first exactly if no line ends in CRNL and the data ends with a
terminator** (or with the end-of-copy marker, which leaves nothing in `line_buf` either). -/
theorem rereadsAlike_iff {enc : Encoding} {file : List Byte} {fl : FileLines}
    (split : fileLines enc file = some fl)
    (short : ∀ content ∈ fl.contents, content.length < 32767) :
    RereadsAlike enc file ↔
      (fl.eolType = .crnl → fl.contents = []) ∧ fl.leftover = [] := by
  constructor
  · intro alike
    obtain ⟨first, second, ran, reran, delivered, last⟩ := alike id
    obtain ⟨p, run, delivered₁, last₁, -⟩ :=
      @firstPass_eq ⟨file, false, enc, id⟩ fl rfl split
    obtain rfl : p = first := by rw [run] at ran; exact Option.some.inj ran
    refine ⟨fun crnl => ?_, ?_⟩
    · cases lines : fl.contents with
      | nil => rfl
      | cons content contents =>
        exact absurd (delivered.trans delivered₁)
          (secondPass_crnl rfl rfl split short crnl lines ran reran)
    · rw [← last₁, ← last]
      exact last_of_pass_second reran
  · rintro ⟨notCrnl, noLeftover⟩ convert
    obtain ⟨first, ran, delivered, last, -⟩ :=
      @firstPass_eq ⟨file, false, enc, convert⟩ fl rfl split
    obtain ⟨t, terminates, single⟩ :
        ∃ t, (t = newline ∨ t = carriageReturn) ∧ fl.raws = fl.contents.map (· ++ [t]) := by
      by_cases empty : fl.contents = []
      · exact ⟨newline, .inl rfl, by simp [FileLines.raws, empty]⟩
      · cases style : fl.eolType with
        | unknown => exact absurd style (fileLinesFrom_known split empty)
        | nl => exact ⟨newline, .inl rfl, by simp [FileLines.raws, style, EolType.terminator]⟩
        | cr =>
          exact ⟨carriageReturn, .inr rfl, by simp [FileLines.raws, style, EolType.terminator]⟩
        | crnl => exact absurd (notCrnl style) empty
    obtain ⟨second, reran, redelivered, relast⟩ :=
      secondPass_eq rfl split short ran terminates single
    exact ⟨first, second, ran, reran, redelivered.trans delivered.symm,
      by rw [relast, last, noLeftover]⟩

/-- Two lines ended by NL. -/
theorem rereadsAlike_twoLines : RereadsAlike plainEncoding [97, 10, 98, 10] :=
  (rereadsAlike_iff (show fileLines plainEncoding [97, 10, 98, 10] = some ⟨[[97], [98]], .nl, []⟩ by decide)
    (by decide)).2 (by decide)

/-- The file `a\r\n`: the second pass leaves `a\r` in `line_buf`. -/
theorem not_rereadsAlike_crnl : ¬ RereadsAlike plainEncoding [97, 13, 10] := by
  intro alike
  obtain ⟨first, second, ran, reran, delivered, -⟩ := alike id
  have first_eq : (firstPass ⟨[97, 13, 10], false, plainEncoding, id⟩).map (·.delivered) = some [[97]] := by
    decide
  have second_eq : ((firstPass ⟨[97, 13, 10], false, plainEncoding, id⟩).bind
      (secondPass ⟨[97, 13, 10], false, plainEncoding, id⟩)).map (·.delivered) = some [[97, 13]] := by
    decide
  simp only [ran, Option.map_some, Option.bind_some, reran, Option.some.injEq] at first_eq second_eq
  rw [first_eq, second_eq] at delivered
  exact absurd delivered (by decide)

end PostgresRaw
