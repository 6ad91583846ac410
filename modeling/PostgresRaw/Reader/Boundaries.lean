import Mathlib.Data.List.Perm.Subperm
import PostgresRaw.Reader.EolReread

/-!
# Buffer boundaries

Successive calls of `NoDBCopyReadLineText` on one file, with buffers of different sizes.  `BuffersAlike`
says that a dialect is read the same through every buffer as through one that holds the whole file, and that
the lines are the file cut into pieces from its start.  `buffersAlike_iff` says for which dialects that is so.

It is so if the loop without a buffer describes the loop (`calls_eq_scans`).  The exceptions are the quotes and
escapes at which the loop looks ahead behind the change of the CSV state: if the look-ahead fails there, the
change is made a second time, and a quote that has been seen twice opens nothing.
-/

namespace PostgresRaw

open List

namespace Dialect

/-! ### Successive calls -/

/-- How a sequence of calls ends: with the data, and the bytes in `line_buf` then, or with an error. -/
inductive Ending where
  | done (lineBuf : List Byte)
  | error (e : ReadError)
deriving DecidableEq

/-- At most `n` calls, up to the first that delivers no line: `line_buf` after each, and how they end. -/
def calls (d : Dialect) (size : Nat) (src : Source) : (n : Nat) → RawInput → List (List Byte) × Option Ending
  | 0, _ => ([], none)
  | n + 1, s =>
    match d.noDBCopyReadLineText size src { s with lineBuf := [] } with
    | (.line, s) => (s.lineBuf :: (calls d size src n s).1, (calls d size src n s).2)
    | (.done, s) => ([], some (.done s.lineBuf))
    | (.error e, _) => ([], some (.error e))

/-- A scan without a header. -/
def plainSource (enc : Encoding) (file : List Byte) : Source := ⟨file, false, enc, id⟩

/-- **The size of the buffer does not show**: the calls on any file deliver what they deliver with a buffer
that holds all of it, and the lines they deliver are a prefix of the file. -/
def BuffersAlike (d : Dialect) (enc : Encoding) : Prop :=
  ∀ (file : List Byte) (size whole n : Nat), 8 ≤ size → 8 ≤ whole → file.length ≤ whole →
    d.calls size (plainSource enc file) n (.fresh .fresh) = d.calls whole (plainSource enc file) n (.fresh .fresh) ∧
      (d.calls size (plainSource enc file) n (.fresh .fresh)).1.flatten <+: file

/-! ### Calls without a buffer -/

/-- The calls on all bytes up to the end of the data. -/
def scans (d : Dialect) (enc : Encoding) : (n : Nat) → EolType → List Byte → List (List Byte) × Option Ending
  | 0, _, _ => ([], none)
  | n + 1, eol, bytes =>
    let l := d.scanLine enc eol 0 .start bytes
    match l.result with
    | .line => (l.line :: (scans d enc n l.eolType l.rest).1, (scans d enc n l.eolType l.rest).2)
    | .done => ([], some (.done l.line))
    | .error e => ([], some (.error e))

variable {d : Dialect}

/-- **A steady dialect is read through any buffer as without one.** -/
theorem calls_eq_scans {size : Nat} (big : 4 < size) {src : Source} (steady : d.Steady src.encoding) {s : RawInput}
    (passed : s.HeaderPassed src) (n : Nat) :
    d.calls size src n s = d.scans src.encoding n s.eolType (s.unread src) := by
  induction n generalizing s with
  | zero => rfl
  | succ n ih =>
    have reads := noDBCopyReadLineText_reads (d := d) big steady (s := { s with lineBuf := [] }) passed
    rw [show ({ s with lineBuf := [] } : RawInput).unread src = s.unread src from rfl] at reads
    rw [calls, scans]
    generalize d.scanLine src.encoding s.eolType 0 .start (s.unread src) = l at reads ⊢
    generalize d.noDBCopyReadLineText size src { s with lineBuf := [] } = out at reads ⊢
    obtain ⟨result, s'⟩ := out
    obtain rfl : result = l.result := reads.result
    cases result : l.result with
    | line =>
      have ok : ∀ e, l.result ≠ .error e := by simp [result]
      have passed' : s'.HeaderPassed src := by
        rw [RawInput.HeaderPassed, reads.frame.readHeader]
        exact passed
      simp only
      rw [ih passed', reads.eolType ok, reads.unread ok, reads.lineBuf ok]
      rfl
    | done =>
      have lineBuf : s'.lineBuf = l.line := reads.lineBuf (by simp [result])
      simp only [lineBuf]
    | error e => rfl

/-- The lines are the data from its start. -/
theorem scans_isPrefix (d : Dialect) (enc : Encoding) (n : Nat) (eol : EolType) (bytes : List Byte) :
    (d.scans enc n eol bytes).1.flatten <+: bytes := by
  induction n generalizing eol bytes with
  | zero => exact nil_prefix
  | succ n ih =>
    rw [scans]
    cases result : (d.scanLine enc eol 0 .start bytes).result with
    | line =>
      obtain ⟨-, -, split, -⟩ := scanLine_line result
      obtain ⟨tail, whole⟩ := ih (d.scanLine enc eol 0 .start bytes).eolType (d.scanLine enc eol 0 .start bytes).rest
      refine ⟨tail, ?_⟩
      simp only
      rw [flatten_cons, append_assoc, whole, ← split]
    | done => exact nil_prefix
    | error e => exact nil_prefix

variable {enc : Encoding} {c : Byte} {file : List Byte}

theorem Steady.buffersAlike (steady : d.Steady enc) : d.BuffersAlike enc := by
  intro file size whole n big bigWhole _
  have alike : ∀ {size}, 8 ≤ size → d.calls size (plainSource enc file) n (.fresh .fresh) =
      d.scans enc n .unknown file := fun big =>
    @calls_eq_scans d _ (by omega) (plainSource enc file) steady (.fresh .fresh) (.inl rfl) n
  rw [alike big, alike bigWhole]
  exact ⟨rfl, scans_isPrefix d enc n .unknown file⟩

/-! ### Where a boundary shows -/

/-- What the loop depends on: the line-end style, the buffer, and the file behind it. -/
structure Sees (src : Source) (eol : EolType) (buf ahead : List Byte) (s : RawInput) : Prop where
  eolType : s.eolType = eol
  rawBuf : s.rawBuf = buf
  ahead : src.file.drop s.pos = ahead

/-- **The loop ends** within `k` iterations, with the given result and in a state that meets `after`. -/
def Ends (d : Dialect) (size : Nat) (enc : Encoding) (file : List Byte) (k : Nat) (needData hitEof : Bool)
    (q : QuoteState) (eol : EolType) (buf ahead : List Byte) (r : ReadResult) (after : RawInput → Prop) : Prop :=
  ∀ ⦃fuel : Nat⦄ ⦃s : RawInput⦄, k ≤ fuel → Sees (plainSource enc file) eol buf ahead s →
    (d.readLoop size (plainSource enc file) fuel needData hitEof q s).1 = r ∧
      after (d.readLoop size (plainSource enc file) fuel needData hitEof q s).2

section Ends

variable {size : Nat} {enc : Encoding} {file : List Byte} {k n : Nat} {needData hitEof : Bool} {q : QuoteState}
  {eol : EolType} {c : Byte} {buf rest ahead left : List Byte} {r : ReadResult} {after : RawInput → Prop}

theorem Ends.loads (more : ahead ≠ []) (room : buf.length < size) (short : buf = [] ∨ needData = true)
    (rest : d.Ends size enc file (k + 1) false hitEof q eol (buf ++ ahead.take (size - buf.length))
      (ahead.drop (size - buf.length)) r after) :
    d.Ends size enc file (k + 1) needData hitEof q eol buf ahead r after := by
  rintro fuel s enough ⟨rfl, rfl, rfl⟩
  obtain ⟨fuel, rfl⟩ : ∃ m, fuel = m + 1 := ⟨fuel - 1, by omega⟩
  set data := ((plainSource enc file).file.drop s.pos).take (size - s.rawBuf.length) with dataEq
  have nonempty : data ≠ [] := by
    rw [dataEq, ne_eq, take_eq_nil_iff]
    rintro (no | no)
    · omega
    · exact more no
  let s' : RawInput := { s with pos := s.pos + data.length, rawBuf := s.rawBuf ++ data }
  have filled : refill size (plainSource enc file) needData hitEof s = some (hitEof, s') := by
    rw [refill, if_pos short, loadRawBuf, noDBCopyGetData_passed (.inl rfl)]
    have fread : (plainSource enc file).fread s.pos (size - s.rawBuf.length) = data := rfl
    simp [fread, nonempty, s']
  have kept : refill size (plainSource enc file) false hitEof s' = some (hitEof, s') := by
    rw [refill, if_neg (by simp [s', nonempty])]
  have same : d.readLoop size (plainSource enc file) (fuel + 1) needData hitEof q s =
      d.readLoop size (plainSource enc file) (fuel + 1) false hitEof q s' := by
    rw [readLoop, readLoop, filled, kept]
  rw [same]
  refine rest enough ⟨rfl, rfl, ?_⟩
  rw [show s'.pos = s.pos + data.length from rfl, ← drop_drop, dataEq, length_take]
  rcases Nat.le_total (size - s.rawBuf.length) ((plainSource enc file).file.drop s.pos).length with le | le
  · rw [min_eq_left le]
  · rw [min_eq_right le, drop_length, drop_eq_nil_of_le le]

/-- For a result alone. -/
theorem Ends.result (ends : d.Ends size enc file n needData hitEof q eol buf ahead r after) (le : n ≤ k) :
    d.Ends size enc file k needData hitEof q eol buf ahead r (fun _ => True) :=
  fun _ _ enough sees => ⟨(ends (le.trans enough) sees).1, trivial⟩

/-- The first load of a scan: it fills the buffer or takes the whole file. -/
theorem Ends.start (split : file = buf ++ ahead) (nonempty : buf ≠ []) (fits : buf.length = size ∨ ahead = [] ∧ buf.length ≤ size)
    (rest : d.Ends size enc file (k + 1) false hitEof q eol buf ahead r after) :
    d.Ends size enc file (k + 1) false hitEof q eol [] file r after := by
  have positive : 0 < buf.length := length_pos_iff.2 nonempty
  have taken : file.take size = buf ∧ file.drop size = ahead := by
    rcases fits with exact_ | ⟨rfl, le⟩
    · rw [split, ← exact_]
      exact ⟨take_left, drop_left⟩
    · rw [split, append_nil]
      exact ⟨take_of_length_le le, drop_of_length_le le⟩
  refine .loads (by rw [split]; simp [nonempty]) (by rw [length_nil]; omega) (.inl rfl) ?_
  rw [length_nil, Nat.sub_zero, taken.1, taken.2]
  exact rest

/-- The iteration for a byte in the buffer. -/
theorem readLoop_byte {fuel : Nat} {s : RawInput} (rawBuf : s.rawBuf = c :: rest) (looks : LooksAhead c rest) :
    d.readLoop size (plainSource enc file) (fuel + 1) false hitEof q s =
      match d.decideStep enc s.eolType q c rest hitEof with
      | .needData => d.readLoop size (plainSource enc file) fuel true hitEof (d.next q c) s
      | .advance n =>
        d.readLoop size (plainSource enc file) fuel false hitEof { d.next q c with firstCharInLine := false } (s.consume n)
      | .endOfLine n eol => (.line, { s.consume n with eolType := eol })
      | .endOfFile n => (.done, s.consume n)
      | .endOfCopy n => (.done, { s with rawBuf := s.rawBuf.drop n })
      | .error e => (.error e, s) := by
  rw [readLoop, refill, if_neg (by simp [rawBuf])]
  simp only [rawBuf]
  rw [if_neg fun forced => looks forced.1 forced.2.1]
  rfl

theorem Ends.asks (asked : d.decideStep enc eol q c rest hitEof = .needData) (looks : LooksAhead c rest)
    (again : d.Ends size enc file k true hitEof (d.next q c) eol (c :: rest) ahead r after) :
    d.Ends size enc file (k + 1) false hitEof q eol (c :: rest) ahead r after := by
  rintro fuel s enough ⟨rfl, rawBuf, rfl⟩
  obtain ⟨fuel, rfl⟩ : ∃ m, fuel = m + 1 := ⟨fuel - 1, by omega⟩
  rw [readLoop_byte rawBuf looks, asked]
  exact again (by omega) ⟨rfl, rawBuf, rfl⟩

theorem Ends.advances (decided : d.decideStep enc eol q c rest hitEof = .advance n) (looks : LooksAhead c rest)
    (dropped : (c :: rest).drop n = left)
    (next : d.Ends size enc file k false hitEof { d.next q c with firstCharInLine := false } eol left ahead r after) :
    d.Ends size enc file (k + 1) false hitEof q eol (c :: rest) ahead r after := by
  rintro fuel s enough ⟨rfl, rawBuf, rfl⟩
  obtain ⟨fuel, rfl⟩ : ∃ m, fuel = m + 1 := ⟨fuel - 1, by omega⟩
  rw [readLoop_byte rawBuf looks, decided]
  refine next (by omega) ⟨rfl, ?_, rfl⟩
  rw [← dropped, ← rawBuf]
  rfl

theorem Ends.endsLine {e : EolType} (decided : d.decideStep enc eol q c rest hitEof = .endOfLine n e)
    (looks : LooksAhead c rest) (dropped : (c :: rest).drop n = left) :
    d.Ends size enc file 1 false hitEof q eol (c :: rest) ahead .line (Sees (plainSource enc file) e left ahead) := by
  rintro fuel s enough ⟨rfl, rawBuf, rfl⟩
  obtain ⟨fuel, rfl⟩ : ∃ m, fuel = m + 1 := ⟨fuel - 1, by omega⟩
  rw [readLoop_byte rawBuf looks, decided]
  refine ⟨rfl, rfl, ?_, rfl⟩
  rw [← dropped, ← rawBuf]
  rfl

theorem Ends.done : d.Ends size enc file 1 false hitEof q eol [] [] .done (fun _ => True) := by
  rintro fuel s enough ⟨rfl, rawBuf, nothing⟩
  obtain ⟨fuel, rfl⟩ : ∃ m, fuel = m + 1 := ⟨fuel - 1, by omega⟩
  refine ⟨?_, trivial⟩
  have fread : (plainSource enc file).fread s.pos size = [] := by rw [Source.fread, nothing, take_nil]
  rw [readLoop, refill, if_pos (.inl rawBuf), loadRawBuf, noDBCopyGetData_passed (.inl rfl)]
  simp [rawBuf, fread]

section

variable (ascii : isHighbitSet c = false) (inside : c = carriageReturn ∨ c = newline → (d.next q c).inQuote = true)
  (noMarker : c = backslash → q.firstCharInLine = false)

include ascii inside noMarker

/-- A byte that belongs to the line. -/
theorem decideStep_plain (hitEof : Bool) :
    d.decideStep enc eol q c rest hitEof = .advance 1 := by
  have notCr : ¬ (c = carriageReturn ∧ (d.next q c).inQuote = false) := fun ⟨cr, outside⟩ => by
    rw [inside (.inl cr)] at outside; cases outside
  have notNl : ¬ (c = newline ∧ (d.next q c).inQuote = false) := fun ⟨nl, outside⟩ => by
    rw [inside (.inr nl)] at outside; cases outside
  have notFirst : ¬ (c = backslash ∧ q.firstCharInLine = true) := fun ⟨slash, first⟩ => by
    rw [noMarker slash] at first; cases first
  unfold decideStep
  rw [if_neg notCr, if_neg notNl, if_neg notFirst, multibyteStep_ascii ascii]

theorem Ends.plain (looks : LooksAhead c rest)
    (next : d.Ends size enc file k false hitEof { d.next q c with firstCharInLine := false } eol rest ahead r after) :
    d.Ends size enc file (k + 1) false hitEof q eol (c :: rest) ahead r after :=
  .advances (decideStep_plain ascii inside noMarker hitEof) looks rfl next

end

/-- A newline outside quotes ends a line, unless the lines end otherwise. -/
theorem Ends.newline (outside : (d.next q PostgresRaw.newline).inQuote = false) (style : eol = .unknown ∨ eol = .nl) :
    d.Ends size enc file 1 false hitEof q eol (PostgresRaw.newline :: rest) ahead .line
      (Sees (plainSource enc file) .nl rest ahead) := by
  refine Ends.endsLine (n := 1) ?_ (by rintro (no | no) <;> cases no) rfl
  unfold decideStep
  rw [if_neg (by rintro ⟨no, -⟩; cases no), if_pos ⟨rfl, outside⟩]
  rcases style with rfl | rfl <;> rfl

end Ends

/-! ### Filling up to the boundary -/

/-- A byte that means nothing to the loop. -/
structure Filler (d : Dialect) (f : Byte) : Prop where
  notNul : f ≠ nulByte
  ascii : isHighbitSet f = false
  notCr : f ≠ carriageReturn
  notNl : f ≠ newline
  notBackslash : f ≠ backslash
  notQuote : f ≠ d.quote
  notEscapec : f ≠ d.escapec

/-- There is one, also if one more byte is to be avoided. -/
theorem exists_filler (d : Dialect) (avoid : Byte) : ∃ f, d.Filler f ∧ f ≠ avoid := by
  have free : ∃ f ∈ ([97, 98, 99, 100] : List Byte), f ∉ [d.quote, d.escapec, avoid] := by
    by_contra taken
    push Not at taken
    have nodup : ([97, 98, 99, 100] : List Byte).Nodup := by decide
    exact absurd (nodup.subperm taken).length_le (by simp)
  obtain ⟨f, letter, other⟩ := free
  simp only [mem_cons, not_mem_nil, or_false, not_or] at other
  have plain : ∀ f ∈ ([97, 98, 99, 100] : List Byte),
      f ≠ nulByte ∧ isHighbitSet f = false ∧ f ≠ carriageReturn ∧ f ≠ newline ∧ f ≠ backslash := by decide +kernel
  obtain ⟨notNul, ascii, notCr, notNl, notBackslash⟩ := plain f letter
  exact ⟨f, ⟨notNul, ascii, notCr, notNl, notBackslash, other.1, other.2.1⟩, other.2.2⟩

namespace Filler

variable {f : Byte} (filler : d.Filler f)
include filler

theorem next_eq {q : QuoteState} (plain : q.lastWasEsc = false) : d.next q f = q := by
  obtain ⟨inQuote, lastWasEsc, first⟩ := q
  obtain rfl : lastWasEsc = false := plain
  simp [next, filler.notQuote, filler.notEscapec]

theorem looksAhead (rest : List Byte) : LooksAhead f rest := fun no =>
  absurd no (by simp [filler.notBackslash, filler.notCr])

variable {size : Nat} {enc : Encoding} {file : List Byte} {k : Nat} {hitEof : Bool} {q : QuoteState}
  {eol : EolType} {rest ahead : List Byte} {r : ReadResult} {after : RawInput → Prop}

theorem ends_cons (next : d.Ends size enc file k false hitEof { d.next q f with firstCharInLine := false } eol rest ahead r after) :
    d.Ends size enc file (k + 1) false hitEof q eol (f :: rest) ahead r after :=
  .plain filler.ascii (fun no => absurd no (by simp [filler.notCr, filler.notNl]))
    (fun no => absurd no filler.notBackslash) (filler.looksAhead rest) next

theorem ends_replicate (n : Nat) (plain : q.lastWasEsc = false)
    (next : d.Ends size enc file k false hitEof { q with firstCharInLine := false } eol rest ahead r after) :
    d.Ends size enc file (k + (n + 1)) false hitEof q eol (List.replicate (n + 1) f ++ rest) ahead r after := by
  induction n generalizing q with
  | zero =>
    refine filler.ends_cons ?_
    rw [filler.next_eq plain]
    exact next
  | succ n ih =>
    refine filler.ends_cons ?_
    rw [filler.next_eq plain]
    exact ih (q := { q with firstCharInLine := false }) plain next

end Filler

/-! ### Counting the lines -/

section Calls

variable {size : Nat} {enc : Encoding} {file : List Byte} {k : Nat} {eol : EolType} {buf ahead : List Byte}
  {after : RawInput → Prop} {s : RawInput}

section

variable (enough : k ≤ 3 * file.length + 4) (sees : Sees (plainSource enc file) eol buf ahead s)

include enough sees

/-- What a call does. -/
theorem Ends.call {r : ReadResult} (ends : d.Ends size enc file k false false .start eol buf ahead r after) :
    ∃ s', d.noDBCopyReadLineText size (plainSource enc file) { s with lineBuf := [] } = (r, s') ∧ after s' := by
  have fuel : k ≤ 3 * (s.rawBuf.length + (plainSource enc file).file.length) + 4 :=
    enough.trans (by simp only [plainSource]; omega)
  obtain ⟨result, then_⟩ := ends (s := { s with lineBuf := [] }) fuel ⟨sees.eolType, sees.rawBuf, sees.ahead⟩
  exact ⟨_, Prod.ext result rfl, then_⟩

theorem length_calls_line (ends : d.Ends size enc file k false false .start eol buf ahead .line after) (n : Nat) :
    ∃ s', after s' ∧ (d.calls size (plainSource enc file) (n + 1) s).1.length =
      (d.calls size (plainSource enc file) n s').1.length + 1 := by
  obtain ⟨s', line, then_⟩ := Ends.call enough sees ends
  refine ⟨s', then_, ?_⟩
  rw [calls, line]
  rfl

theorem length_calls_done (ends : d.Ends size enc file k false false .start eol buf ahead .done after) (n : Nat) :
    (d.calls size (plainSource enc file) (n + 1) s).1.length = 0 := by
  obtain ⟨s', done, -⟩ := Ends.call enough sees ends
  rw [calls, done]
  rfl

end

theorem sees_fresh (enc : Encoding) (file : List Byte) :
    Sees (plainSource enc file) .unknown [] file (.fresh .fresh) := ⟨rfl, rfl, rfl⟩

end Calls

/-! ### The three exceptions -/

theorem quote_ne_escapec (notNul : d.quote ≠ nulByte) : d.quote ≠ d.escapec := by
  unfold escapec
  split
  · exact notNul
  · assumption

/-- Outside quotes a quote opens. -/
theorem next_opens (notEscapec : d.quote ≠ d.escapec) (first : Bool) :
    d.next ⟨false, false, first⟩ d.quote = ⟨true, false, first⟩ := by
  simp [next, notEscapec]

/-- Inside quotes a quote that is not escaped closes. -/
theorem next_closes (notEscapec : d.quote ≠ d.escapec) (first : Bool) :
    d.next ⟨true, false, first⟩ d.quote = ⟨false, false, first⟩ := by
  simp [next, notEscapec]

/-- Outside quotes other bytes change nothing. -/
theorem next_outside (notQuote : c ≠ d.quote) (first : Bool) :
    d.next ⟨false, false, first⟩ c = ⟨false, false, first⟩ := by
  simp [next, notQuote]

section

variable {size : Nat} {enc : Encoding} {file : List Byte} {k : Nat} {eol : EolType} {rest ahead : List Byte}

theorem decideStep_marker {q : QuoteState} (first : q.firstCharInLine = true) (hitEof : Bool) :
    d.decideStep enc eol q backslash rest hitEof = backslashStep eol rest hitEof (.advance 1) := by
  unfold decideStep
  rw [if_neg (by rintro ⟨no, -⟩; cases no), if_neg (by rintro ⟨no, -⟩; cases no), if_pos ⟨rfl, first⟩,
    multibyteStep_ascii (by decide)]

/-- A newline inside quotes, and the end of the data. -/
theorem Ends.newline_done {q : QuoteState} (notQuote : PostgresRaw.newline ≠ d.quote) (inside : q.inQuote = true) :
    d.Ends size enc file 2 false false q eol [PostgresRaw.newline] [] .done (fun _ => True) :=
  .plain (by decide) (fun _ => (d.next_inQuote q notQuote).trans inside) (fun no => by cases no) (by rintro (no | no) <;> cases no) .done

end

/-- The lines of a sequence of calls that reads the same through every buffer. -/
theorem BuffersAlike.length_eq (alike : d.BuffersAlike enc) {whole : Nat} (big : 8 ≤ whole)
    (holds : file.length ≤ whole) (n : Nat) : (d.calls 8 (plainSource enc file) n (.fresh .fresh)).1.length =
      (d.calls whole (plainSource enc file) n (.fresh .fresh)).1.length :=
  congrArg (fun out => out.1.length) (alike file 8 whole n (Nat.le_refl 8) big holds).1

/-- A plain line in the buffer. -/
theorem Filler.ends_line {f : Byte} (filler : d.Filler f) {size : Nat} (notQuote : newline ≠ d.quote) (n : Nat)
    (rest ahead : List Byte) :
    d.Ends size enc file (1 + (n + 1)) false false .start .unknown (List.replicate (n + 1) f ++ newline :: rest) ahead .line
      (Sees (plainSource enc file) .nl rest ahead) :=
  filler.ends_replicate n rfl (.newline (d.next_inQuote _ notQuote) (.inl rfl))

section Backslash

variable (backslashQuote : d.quote = backslash)
include backslashQuote

theorem notEscapec_backslash : d.quote ≠ d.escapec := quote_ne_escapec (by rw [backslashQuote]; decide)

theorem ascii_ne_backslash {c : Byte} (other : c ≠ backslash) : c ≠ d.quote := by rw [backslashQuote]; exact other

variable {f : Byte} (filler : d.Filler f) {size : Nat} {enc : Encoding} {file : List Byte}
include filler

omit backslashQuote in
theorem decideStep_noMarker {q : QuoteState} (first : q.firstCharInLine = true) :
    d.decideStep enc .nl q backslash [46, f, newline] false = .advance 1 := by
  rw [decideStep_marker first]
  simp [backslashStep, markerEnd, peek, filler.notCr, filler.notNl]

/-- A backslash and a dot at the end of the buffer: the quote is seen twice, and the line is delivered. -/
theorem ends_marker_boundary (big : 4 ≤ size) : d.Ends size enc file 5 false false .start .nl [backslash, 46] [f, newline] .line
    (Sees (plainSource enc file) .nl [] []) := by
  have notEscapec := notEscapec_backslash backslashQuote
  have opens := next_opens notEscapec true
  have closes := next_closes notEscapec true
  rw [backslashQuote] at opens closes
  refine .asks ((decideStep_marker rfl false).trans rfl) (fun _ => cons_ne_nil _ _) ?_
  rw [show QuoteState.start = ⟨false, false, true⟩ from rfl, opens]
  refine .loads (cons_ne_nil _ _) (show 2 < size by omega) (.inr rfl) ?_
  rw [take_of_length_le (show 2 ≤ size - 2 by omega), drop_of_length_le (show 2 ≤ size - 2 by omega)]
  refine .advances (decideStep_noMarker filler rfl) (fun _ => cons_ne_nil _ _) (drop_one : _ = [46, f, newline]) ?_
  rw [closes]
  refine .plain (by decide) (by rintro (no | no) <;> cases no) (fun no => by cases no) (by rintro (no | no) <;> cases no) ?_
  rw [next_outside (ascii_ne_backslash backslashQuote (by decide))]
  refine filler.ends_replicate 0 rfl ?_
  exact .newline (d.next_inQuote _ (ascii_ne_backslash backslashQuote (by decide))) (.inr rfl)

/-- With all of the line in the buffer the quote opens, and the data ends inside quotes. -/
theorem ends_marker_whole : d.Ends size enc file 5 false false .start .nl [backslash, 46, f, newline] [] .done
    (fun _ => True) := by
  have opens := next_opens (notEscapec_backslash backslashQuote) true
  rw [backslashQuote] at opens
  refine .advances (decideStep_noMarker filler rfl) (fun _ => cons_ne_nil _ _) (drop_one : _ = [46, f, newline]) ?_
  rw [show QuoteState.start = ⟨false, false, true⟩ from rfl, opens]
  refine .plain (by decide) (by rintro (no | no) <;> cases no) (fun no => by cases no) (by rintro (no | no) <;> cases no) ?_
  refine filler.ends_cons ?_
  exact .newline_done (ascii_ne_backslash backslashQuote (by decide))
    ((d.next_inQuote _ filler.notQuote).trans (d.next_inQuote _ (ascii_ne_backslash backslashQuote (by decide))))

/-- The line in front of the boundary: it leaves a backslash and a dot in the buffer. -/
theorem ends_before_marker {n : Nat} (fits : n + 4 = size)
    (split : file = List.replicate (n + 1) f ++ newline :: [backslash, 46] ++ [f, newline]) :
    d.Ends size enc file (1 + (n + 1)) false false .start .unknown [] file .line
      (Sees (plainSource enc file) .nl [backslash, 46] [f, newline]) := by
  refine .start (k := 1 + n) split (by simp) (.inl ?_)
    (filler.ends_line (ascii_ne_backslash backslashQuote (by decide)) n _ _)
  rw [length_append, length_replicate, ← fits]
  rfl

end Backslash

/-- **A backslash as quote**, in front of a dot at the end of the buffer: `aaaaa\n\.a\n`. -/
theorem not_buffersAlike_backslash (backslashQuote : d.quote = backslash) (enc : Encoding) : ¬ d.BuffersAlike enc := by
  intro alike
  obtain ⟨f, filler, -⟩ := exists_filler d 0
  obtain ⟨file, split⟩ : ∃ file, file = List.replicate 5 f ++ newline :: [backslash, 46] ++ [f, newline] := ⟨_, rfl⟩
  have length_eq : file.length = 10 := by rw [split]; rfl
  have small : (d.calls 8 (plainSource enc file) 2 (.fresh .fresh)).1.length = 2 := by
    obtain ⟨s, sees, length⟩ := length_calls_line (by omega) (sees_fresh enc file)
      (ends_before_marker backslashQuote filler (show 4 + 4 = 8 from rfl) split) 1
    obtain ⟨s', -, length'⟩ := length_calls_line (by omega) sees (ends_marker_boundary backslashQuote filler (show 4 ≤ 8 by decide)) 0
    rw [length, length']
    rfl
  have whole : (d.calls 10 (plainSource enc file) 2 (.fresh .fresh)).1.length = 1 := by
    have loaded : d.Ends 10 enc file 6 false false .start .unknown [] file .line
        (Sees (plainSource enc file) .nl [backslash, 46, f, newline] []) :=
      .start (split.trans (append_nil _).symm) (cons_ne_nil _ _) (.inr ⟨rfl, Nat.le_refl 10⟩)
        (filler.ends_line (ascii_ne_backslash backslashQuote (by decide)) 4 _ _)
    obtain ⟨s, sees, length⟩ := length_calls_line (by omega) (sees_fresh enc file) loaded 1
    rw [length, length_calls_done (by omega) sees (ends_marker_whole backslashQuote filler) 0]
  have same := alike.length_eq (show 8 ≤ 10 by decide) length_eq.le 2
  omega

/-- A byte with the high bit set ends nothing. -/
theorem decideStep_high {eol : EolType} {q : QuoteState} {rest : List Byte} {hitEof : Bool}
    (high : isHighbitSet c = true) : d.decideStep enc eol q c rest hitEof = multibyteStep enc c rest hitEof := by
  have ne : ∀ {b : Byte}, isHighbitSet b = false → c ≠ b := fun ascii same => by rw [same, ascii] at high; cases high
  have notCr : c ≠ carriageReturn := ne (by decide)
  have notNl : c ≠ newline := ne (by decide)
  have notBackslash : c ≠ backslash := ne (by decide)
  unfold decideStep
  rw [if_neg fun no => notCr no.1, if_neg fun no => notNl no.1, if_neg fun no => notBackslash no.1]

theorem looksAhead_high (high : isHighbitSet c = true) (rest : List Byte) : LooksAhead c rest := by
  rintro (rfl | rfl) <;> cases high

section

variable {size : Nat} {enc : Encoding} {file : List Byte} {k : Nat} {eol : EolType} {q : QuoteState} {c : Byte}
  {buf rest ahead left : List Byte} {r : ReadResult} {after : RawInput → Prop}

/-- A multibyte character in the buffer. -/
theorem Ends.character (embeds : enc.embedsAscii = true) (high : isHighbitSet c = true) (inside : enc.mblen c ≤ rest.length)
    (dropped : (c :: rest).drop (enc.mblen c) = left)
    (next : d.Ends size enc file k false false { d.next q c with firstCharInLine := false } eol left ahead r after) :
    d.Ends size enc file (k + 1) false false q eol (c :: rest) ahead r after := by
  refine .advances ?_ (looksAhead_high high rest) dropped next
  have positive := enc.mblen_pos c
  rw [decideStep_high high, multibyteStep, if_pos ⟨embeds, high⟩, if_neg (by omega)]

/-- A multibyte character that begins with the last byte of the buffer: the byte changes the state twice. -/
theorem Ends.character_boundary (embeds : enc.embedsAscii = true) (high : isHighbitSet c = true) (room : ahead.length < size)
    (inside : enc.mblen c ≤ ahead.length) (dropped : (c :: ahead).drop (enc.mblen c) = left)
    (next : d.Ends size enc file k false false { d.next (d.next q c) c with firstCharInLine := false } eol left [] r after) :
    d.Ends size enc file (k + 2) false false q eol [c] ahead r after := by
  have positive := enc.mblen_pos c
  refine .asks ?_ (looksAhead_high high []) ?_
  · rw [decideStep_high high, multibyteStep, if_pos ⟨embeds, high⟩, if_pos (by simp)]
    rfl
  · have fits : ahead.length ≤ size - 1 := by omega
    refine .loads (length_pos_iff.1 (by omega)) (by rw [length_singleton]; omega) (.inr rfl) ?_
    rw [length_singleton, take_of_length_le fits, drop_of_length_le fits]
    exact .character embeds high inside dropped next

end

/-- A character in front of fillers takes some of them with it. -/
theorem drop_character {m n : Nat} (positive : 1 ≤ m) (le : m ≤ n + 1) (c f : Byte) (tail : List Byte) :
    (c :: (List.replicate n f ++ tail)).drop m = List.replicate (n + 1 - m) f ++ tail := by
  obtain ⟨j, rfl⟩ : ∃ j, m = j + 1 := ⟨m - 1, by omega⟩
  have inside : j ≤ (List.replicate n f).length := by rw [length_replicate]; omega
  rw [drop_succ_cons, drop_append_of_le_length inside, drop_replicate, Nat.add_sub_add_right]

section HighQuote

variable {enc : Encoding} (embeds : enc.embedsAscii = true) (high : isHighbitSet d.quote = true)
include high

theorem ascii_ne_highQuote {c : Byte} (ascii : isHighbitSet c = false) : c ≠ d.quote := fun same => by
  rw [same, high] at ascii
  cases ascii

theorem notEscapec_highQuote : d.quote ≠ d.escapec := quote_ne_escapec (Ne.symm (ascii_ne_highQuote high (by decide)))

variable {f : Byte} (filler : d.Filler f) {file : List Byte}
include embeds filler

/-- A quote with the high bit set as the last byte of the buffer is seen twice, and the line is delivered. -/
theorem ends_highQuote_boundary {size n : Nat} (big : 8 ≤ size) (fits : n + 2 = size)
    (split : file = List.replicate (n + 1) f ++ [d.quote] ++ (List.replicate 4 f ++ [newline])) :
    d.Ends size enc file (n + 15) false false .start .unknown [] file .line (Sees (plainSource enc file) .nl [] []) := by
  have notEscapec := notEscapec_highQuote high
  have short := enc.mblen_le d.quote
  obtain ⟨m, behind⟩ : ∃ m, 4 + 1 - enc.mblen d.quote = m + 1 := ⟨4 - enc.mblen d.quote, by omega⟩
  have dropped := drop_character (n := 4) (enc.mblen_pos d.quote) (by omega) d.quote f [newline]
  rw [behind] at dropped
  have ends : d.Ends size enc file (1 + (m + 1) + 2 + (n + 1)) false false .start .unknown [] file .line
      (Sees (plainSource enc file) .nl [] []) := by
    refine .start (k := 1 + (m + 1) + 2 + n) split (by simp) (.inl (by simp; omega)) ?_
    refine filler.ends_replicate n rfl ?_
    refine .character_boundary embeds high (by simp; omega) (short.trans (by simp)) dropped ?_
    rw [show QuoteState.start = ⟨false, false, true⟩ from rfl, next_opens notEscapec, next_closes notEscapec]
    exact filler.ends_replicate m rfl (.newline (d.next_inQuote _ (ascii_ne_highQuote high (by decide))) (.inl rfl))
  exact fun fuel s enough sees => ends (by have := enc.mblen_pos d.quote; omega) sees

/-- With all of the line in the buffer it opens, and the data ends inside quotes. -/
theorem ends_highQuote_whole (split : file = List.replicate 7 f ++ [d.quote] ++ (List.replicate 4 f ++ [newline])) :
    d.Ends 13 enc file 15 false false .start .unknown [] file .done (fun _ => True) := by
  have short := enc.mblen_le d.quote
  obtain ⟨m, behind⟩ : ∃ m, 4 + 1 - enc.mblen d.quote = m + 1 := ⟨4 - enc.mblen d.quote, by omega⟩
  have dropped := drop_character (n := 4) (enc.mblen_pos d.quote) (by omega) d.quote f [newline]
  rw [behind] at dropped
  have ends : d.Ends 13 enc file (2 + (m + 1) + 1 + 7) false false .start .unknown [] file .done (fun _ => True) := by
    refine .start (split.trans (append_nil _).symm) (cons_ne_nil _ _) (.inr ⟨rfl, Nat.le_refl 13⟩) ?_
    rw [append_assoc]
    refine filler.ends_replicate 6 rfl ?_
    refine .character embeds high (short.trans (by simp)) dropped ?_
    rw [show QuoteState.start = ⟨false, false, true⟩ from rfl, next_opens (notEscapec_highQuote high)]
    exact filler.ends_replicate m rfl (.newline_done (ascii_ne_highQuote high (by decide)) rfl)
  exact ends.result (by have := enc.mblen_pos d.quote; omega)

end HighQuote

/-- **A quote with the high bit set**, as the last byte of the buffer: `aaaaaaa"aaaa\n`. -/
theorem not_buffersAlike_highQuote (embeds : enc.embedsAscii = true) (high : isHighbitSet d.quote = true) :
    ¬ d.BuffersAlike enc := by
  intro alike
  obtain ⟨f, filler, -⟩ := exists_filler d 0
  obtain ⟨file, split⟩ : ∃ file, file = List.replicate 7 f ++ [d.quote] ++ (List.replicate 4 f ++ [newline]) := ⟨_, rfl⟩
  have length_eq : file.length = 13 := by rw [split]; rfl
  obtain ⟨s, -, small⟩ := length_calls_line (by omega) (sees_fresh enc file)
    (ends_highQuote_boundary embeds high filler (Nat.le_refl 8) rfl split) 0
  have whole := length_calls_done (by omega) (sees_fresh enc file) (ends_highQuote_whole embeds high filler split) 0
  have same := alike.length_eq (show 8 ≤ 13 by decide) length_eq.le 1
  rw [small, whole] at same
  exact absurd same (Nat.succ_ne_zero _)

/-- A closing quote and the newline behind it.  A quote that is itself a line end ends the line. -/
theorem Ends.closing {size : Nat} {t : Byte} (notEscapec : d.quote ≠ d.escapec) (ascii : isHighbitSet d.quote = false)
    (notBackslash : d.quote ≠ backslash) (newlineBehind : d.quote ≠ PostgresRaw.newline → t = PostgresRaw.newline) :
    d.Ends size enc file 2 false false ⟨true, false, false⟩ .unknown [d.quote, t] [] .line (fun _ => True) := by
  have outside : (d.next ⟨true, false, false⟩ d.quote).inQuote = false := by rw [next_closes notEscapec]
  by_cases nl : d.quote = PostgresRaw.newline
  · rw [nl] at outside ⊢
    exact (Ends.newline outside (.inl rfl)).result (by decide)
  · obtain rfl := newlineBehind nl
    by_cases cr : d.quote = carriageReturn
    · rw [cr] at outside ⊢
      have decided : d.decideStep enc .unknown ⟨true, false, false⟩ carriageReturn [PostgresRaw.newline] false =
          .endOfLine 2 .crnl := by
        unfold decideStep
        rw [if_pos ⟨rfl, outside⟩]
        rfl
      exact (Ends.endsLine decided (fun _ => cons_ne_nil _ _) rfl).result (by decide)
    · refine .plain ascii (fun no => absurd no (by simp [nl, cr])) (fun no => absurd no notBackslash) (fun _ => cons_ne_nil _ _) ?_
      rw [next_closes notEscapec]
      exact (Ends.newline (d.next_inQuote _ (Ne.symm nl)) (.inl rfl)).result (Nat.le_refl 1)

/-- **An escape with the high bit set**, as the last byte of the buffer: `"aaaaaa` and the escape, the rest of its
character, a quote and a newline. -/
theorem not_buffersAlike_highEscape (embeds : enc.embedsAscii = true) (high : isHighbitSet d.escape = true)
    (ascii : isHighbitSet d.quote = false) (notBackslash : d.quote ≠ backslash) : ¬ d.BuffersAlike enc := by
  intro alike
  obtain ⟨f, filler, -⟩ := exists_filler d 0
  have quoteNotEscape : d.quote ≠ d.escape := fun same => by rw [same, high] at ascii; cases ascii
  have escapec : d.escapec = d.escape := by rw [Dialect.escapec, if_neg quoteNotEscape]
  have notEscapec : d.quote ≠ d.escapec := by rw [escapec]; exact quoteNotEscape
  have escapes : ∀ l, d.next ⟨true, l, false⟩ d.escape = ⟨true, !l, false⟩ := fun l => by
    simp [next, escapec, Ne.symm quoteNotEscape]
  have escaped : d.next ⟨true, true, false⟩ d.quote = ⟨true, false, false⟩ := by
    simp [next, notEscapec]
  have short := enc.mblen_le d.escape
  have positive := enc.mblen_pos d.escape
  -- what follows the quote ends no line that is inside quotes, and ends it outside
  obtain ⟨t, tAscii, tNotQuote, tNotCr, tNotBackslash, newlineBehind⟩ : ∃ t : Byte, isHighbitSet t = false ∧ t ≠ d.quote ∧
      t ≠ carriageReturn ∧ t ≠ backslash ∧ (d.quote ≠ newline → t = newline) := by
    by_cases nl : d.quote = newline
    · exact ⟨f, filler.ascii, filler.notQuote, filler.notCr, filler.notBackslash, fun no => absurd nl no⟩
    · exact ⟨newline, by decide, Ne.symm nl, by decide, by decide, fun _ => rfl⟩
  obtain ⟨m, mblen⟩ : ∃ m, enc.mblen d.escape = m + 1 := ⟨enc.mblen d.escape - 1, by omega⟩
  have dropped := drop_character (n := m) positive (by omega) d.escape f [d.quote, t]
  rw [mblen, Nat.sub_self, replicate_zero, nil_append] at dropped
  obtain ⟨file, split⟩ : ∃ file, file = (d.quote :: List.replicate 6 f) ++ d.escape :: (List.replicate m f ++ [d.quote, t]) :=
    ⟨_, rfl⟩
  have length_eq : file.length = m + 10 := by rw [split]; simp
  have opened : ∀ {size k : Nat} {rest ahead : List Byte} {r : ReadResult} {after : RawInput → Prop},
      d.Ends size enc file k false false ⟨true, false, false⟩ .unknown rest ahead r after →
      d.Ends size enc file (k + 6 + 1) false false .start .unknown (d.quote :: List.replicate 6 f ++ rest) ahead r after := by
    intro size k rest ahead r after next
    refine .plain ascii (fun _ => ?_) (fun no => absurd no notBackslash) (fun _ => cons_ne_nil _ _) ?_
    · rw [show QuoteState.start = ⟨false, false, true⟩ from rfl, next_opens notEscapec]
    · rw [show QuoteState.start = ⟨false, false, true⟩ from rfl, next_opens notEscapec]
      exact filler.ends_replicate 5 rfl next
  have small : (d.calls 8 (plainSource enc file) 1 (.fresh .fresh)).1.length = 1 := by
    have ends : d.Ends 8 enc file (2 + 2 + 6 + 1) false false .start .unknown [] file .line (fun _ => True) := by
      refine .start (show file = d.quote :: List.replicate 6 f ++ [d.escape] ++ (List.replicate m f ++ [d.quote, t]) from split)
        (cons_ne_nil _ _) (.inl rfl) (opened ?_)
      refine .character_boundary embeds high (by simp; omega) (by simp; omega) (mblen ▸ dropped) ?_
      rw [escapes, escapes]
      exact .closing notEscapec ascii notBackslash newlineBehind
    obtain ⟨s, -, length⟩ := length_calls_line (by omega) (sees_fresh enc file) ends 0
    rw [length]
    rfl
  have whole : (d.calls (m + 10) (plainSource enc file) 1 (.fresh .fresh)).1.length = 0 := by
    have ends : d.Ends (m + 10) enc file (1 + 1 + 1 + 1 + 6 + 1) false false .start .unknown [] file .done (fun _ => True) := by
      refine .start (split.trans (append_nil _).symm) (cons_ne_nil _ _) (.inr ⟨rfl, by simp⟩) (opened ?_)
      refine .character embeds high (by simp; omega) (mblen ▸ dropped) ?_
      rw [escapes]
      refine .plain ascii (fun _ => by rw [Bool.not_false, escaped]) (fun no => absurd no notBackslash) (fun _ => cons_ne_nil _ _) ?_
      rw [Bool.not_false, escaped]
      exact .plain tAscii (fun _ => d.next_inQuote _ tNotQuote) (fun no => absurd no tNotBackslash)
        (fun no => absurd no (by simp [tNotBackslash, tNotCr])) .done
    exact length_calls_done (by omega) (sees_fresh enc file) ends 0
  have same := alike.length_eq (show 8 ≤ m + 10 by omega) length_eq.le 1
  omega

/-- **Which dialects are read the same through every buffer**: those whose quote is not a backslash, and, in encodings
whose multibyte characters may contain ASCII bytes, whose quote and escape do not have the high bit set. -/
theorem buffersAlike_iff (d : Dialect) (enc : Encoding) : d.BuffersAlike enc ↔
    d.quote ≠ backslash ∧ (enc.embedsAscii = true → isHighbitSet d.quote = false ∧ isHighbitSet d.escape = false) := by
  constructor
  · intro alike
    have notBackslash : d.quote ≠ backslash := fun same => not_buffersAlike_backslash same enc alike
    refine ⟨notBackslash, fun embeds => ?_⟩
    have quote : isHighbitSet d.quote = false := by
      by_contra high
      exact not_buffersAlike_highQuote embeds (eq_true_of_ne_false high) alike
    refine ⟨quote, ?_⟩
    by_contra high
    exact not_buffersAlike_highEscape embeds (eq_true_of_ne_false high) quote notBackslash alike
  · exact Steady.buffersAlike

/-- The file `aaaaa\n\.x\n` with a backslash as quote. -/
theorem not_buffersAlike : ¬ BuffersAlike ⟨backslash, backslash⟩ plainEncoding := by
  intro alike
  have same := (alike [97, 97, 97, 97, 97, 10, 92, 46, 120, 10] 8 10 2 (by decide) (by decide) (by decide)).1
  exact absurd same (by decide)

end Dialect

end PostgresRaw
