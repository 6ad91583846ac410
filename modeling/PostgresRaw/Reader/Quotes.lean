import PostgresRaw.Csv.Options
import PostgresRaw.Reader.Boundaries

/-!
# The reader and the parser agree on quotes

Two functions follow the quotes of a file.  `NoDBCopyReadLineText` toggles a flag to know which line ends are
inside quotes; `NoDBCopyReadAttributesCSV` parses the line it delivers with two nested loops.  If they disagreed,
the parser would meet the end of a line inside quotes, which it reports, or a line end outside of them.

`CsvOptions.AgreeOnQuotes` says that they agree, on every line the reader delivers from any state.  The two are compared
through the parity of the quotes: `CsvOptions.LinesUp` is what a delivered line has (`readLoop_linesUp`, an induction over
the loop), and what the parser needs (`readAttributes_ne_unterminated`, `readInQuote_at`).  `agreeOnQuotes_iff` says for
which quotes that is so.

Between the two stands the conversion to the server encoding.  Of it only what the source assumes is used: "These four
characters, and the CSV escape and quote characters, are assumed the same in frontend and backend encodings"
(`CsvOptions.KeepsMarks`).
-/

namespace PostgresRaw

open List

/-! ### Characters -/

namespace Encoding

/-- The first bytes of the characters; bytes inside a multibyte character mean nothing to the reader. -/
def visible (enc : Encoding) : (skip : Nat) → List Byte → List Byte
  | _, [] => []
  | skip + 1, _ :: bytes => visible enc skip bytes
  | 0, c :: bytes => c :: visible enc (enc.charLength c - 1) bytes

theorem visible_skip (enc : Encoding) (inside bytes : List Byte) :
    enc.visible inside.length (inside ++ bytes) = enc.visible 0 bytes := by
  induction inside with
  | nil => rfl
  | cons c inside ih => exact ih

theorem visible_character {enc : Encoding} {c : Byte} {rest : List Byte} (le : enc.charLength c ≤ rest.length + 1)
    (bytes : List Byte) : enc.visible 0 ((c :: rest).take (enc.charLength c) ++ bytes) = c :: enc.visible 0 bytes := by
  obtain ⟨m, length⟩ : ∃ m, enc.charLength c = m + 1 := by
    refine ⟨enc.charLength c - 1, ?_⟩
    have := enc.mblen_pos c
    unfold charLength
    split <;> omega
  have taken : (rest.take m).length = m := by rw [length_take]; omega
  rw [length, take_succ_cons, cons_append, visible, length, Nat.add_sub_cancel]
  nth_rewrite 1 [← taken]
  rw [visible_skip]

/-- An ASCII byte is a character. -/
theorem visible_ascii {enc : Encoding} {bytes : List Byte} (ascii : ∀ c ∈ bytes, isHighbitSet c = false) (rest : List Byte) :
    enc.visible 0 (bytes ++ rest) = bytes ++ enc.visible 0 rest := by
  induction bytes with
  | nil => rfl
  | cons c bytes ih =>
    have single : enc.charLength c = 1 := by
      rw [charLength, if_neg]
      rw [ascii c mem_cons_self]
      exact fun no => Bool.false_ne_true no.2
    rw [cons_append, visible, single, ih fun d mem => ascii d (mem_cons_of_mem c mem)]
    rfl

theorem visible_subset (enc : Encoding) (skip : Nat) (bytes : List Byte) : enc.visible skip bytes ⊆ bytes := by
  induction bytes generalizing skip with
  | nil => exact List.Subset.refl _
  | cons c bytes ih =>
    cases skip with
    | zero => exact cons_subset_cons c (ih _)
    | succ skip => exact fun d mem => mem_cons_of_mem c (ih skip mem)

end Encoding

/-- Neither does the iteration go on, nor does it end a line. -/
def ReadStep.Breaks : ReadStep → Prop
  | .advance _ | .endOfLine _ _ => False
  | _ => True

namespace CsvOptions

variable {opts : CsvOptions}

/-- The reader's part of the options. -/
def dialect (opts : CsvOptions) : Dialect := ⟨opts.quote, opts.escape⟩

/-! ### What a delivered line has -/

/-- **The line ends are inside quotes and the end is not**, for bytes that begin inside quotes or not. -/
structure LinesUp (opts : CsvOptions) (inQuote : Bool) (bytes : List Byte) : Prop where
  closed : bytes.foldl opts.nextQuoted inQuote = false
  quoted : ∀ pre c post, bytes = pre ++ c :: post → c = newline ∨ c = carriageReturn →
    pre.foldl opts.nextQuoted inQuote = true

theorem LinesUp.nil : opts.LinesUp false [] where
  closed := rfl
  quoted pre c post no := absurd no (by simp)

theorem LinesUp.cons {inQuote : Bool} {c : Byte} {bytes : List Byte} (rest : opts.LinesUp (opts.nextQuoted inQuote c) bytes)
    (inside : c = newline ∨ c = carriageReturn → inQuote = true) : opts.LinesUp inQuote (c :: bytes) where
  closed := rest.closed
  quoted pre c' post split lineEnd := by
    cases pre with
    | nil =>
      obtain ⟨rfl, -⟩ := List.cons.inj split
      exact inside lineEnd
    | cons d pre =>
      obtain ⟨rfl, tail⟩ := List.cons.inj split
      exact rest.quoted pre c' post tail lineEnd

/-- The bytes that both sides look at. -/
def isMark (opts : CsvOptions) (c : Byte) : Bool := c = opts.quote || c = newline || c = carriageReturn

theorem isMark_lineEnd {c : Byte} (lineEnd : c = newline ∨ c = carriageReturn) : opts.isMark c = true := by
  rcases lineEnd with rfl | rfl <;> simp [isMark]

theorem foldl_filter_marks (inQuote : Bool) (bytes : List Byte) :
    (bytes.filter opts.isMark).foldl opts.nextQuoted inQuote = bytes.foldl opts.nextQuoted inQuote := by
  induction bytes generalizing inQuote with
  | nil => rfl
  | cons c bytes ih =>
    by_cases mark : opts.isMark c = true
    · rw [filter_cons_of_pos mark, foldl_cons, foldl_cons, ih]
    · have other : c ≠ opts.quote := fun quote => mark (by simp [isMark, quote])
      rw [filter_cons_of_neg mark, foldl_cons, nextQuoted_other other, ih]

/-- Only the marks count. -/
theorem LinesUp.of_marks {inQuote : Bool} {bytes bytes' : List Byte} (linesUp : opts.LinesUp inQuote bytes)
    (marks : bytes'.filter opts.isMark = bytes.filter opts.isMark) : opts.LinesUp inQuote bytes' where
  closed := by
    rw [← foldl_filter_marks, marks, foldl_filter_marks]
    exact linesUp.closed
  quoted pre c post split lineEnd := by
    rw [split, filter_append, filter_cons_of_pos (isMark_lineEnd lineEnd)] at marks
    obtain ⟨pre', tail, rfl, front, back⟩ := filter_eq_append_iff.1 marks.symm
    obtain ⟨between, post', rfl, others, -, -⟩ := filter_eq_cons_iff.1 back
    have here := linesUp.quoted (pre' ++ between) c post' (by simp) lineEnd
    rw [← foldl_filter_marks, filter_append, front, filter_eq_nil_iff.2 others, append_nil, foldl_filter_marks] at here
    exact here

/-! ### The reader -/

section Reader

variable {src : Source} {enc : Encoding} {eol : EolType} {q : QuoteState} {c : Byte} {rest : List Byte} {hitEof : Bool}

/-- Without `'\0'` in the data the reader's flag is the parity of the quotes. -/
theorem next_dialect (same : opts.escape = opts.quote) (notNul : c ≠ nulByte) (plain : q.lastWasEsc = false) :
    opts.dialect.next q c = { q with inQuote := opts.nextQuoted q.inQuote c } := by
  have escapec : opts.dialect.escapec = nulByte := if_pos same.symm
  obtain ⟨inQuote, lastWasEsc, first⟩ := q
  obtain rfl : lastWasEsc = false := plain
  simp only [Dialect.next, escapec, notNul, and_false, if_false, ne_eq, not_false_eq_true, if_true, and_true]
  rfl

theorem multibyteStep_cases (enc : Encoding) (c : Byte) (rest : List Byte) (hitEof : Bool) :
    multibyteStep enc c rest hitEof = .advance (enc.charLength c) ∨ (multibyteStep enc c rest hitEof).Breaks := by
  unfold multibyteStep Encoding.charLength
  split
  · split
    · right
      split
      · split <;> trivial
      · trivial
    · exact .inl rfl
  · exact .inl rfl

theorem markerEnd_cases (eol : EolType) (consumed : Nat) (rest : List Byte) (hitEof : Bool) (otherwise : ReadStep) :
    markerEnd eol consumed rest hitEof otherwise = otherwise ∨ (markerEnd eol consumed rest hitEof otherwise).Breaks := by
  unfold markerEnd
  split
  · exact .inr trivial
  · dsimp only
    split
    · exact .inl rfl
    · split <;> exact .inr trivial

theorem backslashStep_cases (eol : EolType) (rest : List Byte) (hitEof : Bool) (otherwise : ReadStep) :
    backslashStep eol rest hitEof otherwise = otherwise ∨ (backslashStep eol rest hitEof otherwise).Breaks := by
  cases rest with
  | nil => cases hitEof <;> exact .inr trivial
  | cons c2 rest =>
    simp only [backslashStep]
    split
    · split
      · split
        · exact .inr trivial
        · split
          · exact .inl rfl
          · exact markerEnd_cases ..
      · exact markerEnd_cases ..
    · exact .inl rfl

/-- Outside quotes a line end ends the line.  Any other byte, if the iteration goes on, is taken with its character. -/
theorem decideStep_cases (d : Dialect) (enc : Encoding) (eol : EolType) (q : QuoteState) (c : Byte) (rest : List Byte)
    (hitEof : Bool) : ((c = newline ∨ c = carriageReturn) ∧ (d.next q c).inQuote = false ∧
        ∀ n, d.decideStep enc eol q c rest hitEof ≠ .advance n) ∨
      (c = newline ∨ c = carriageReturn → (d.next q c).inQuote = true) ∧
        (d.decideStep enc eol q c rest hitEof = .advance (enc.charLength c) ∨
          (d.decideStep enc eol q c rest hitEof).Breaks) := by
  unfold Dialect.decideStep
  split
  · next cr =>
    refine .inl ⟨.inr cr.1, cr.2, fun n => ?_⟩
    cases eol <;> dsimp only <;> (try split) <;> intro no <;> cases no
  · next notCr =>
    split
    · next nl => exact .inl ⟨.inl nl.1, nl.2, fun n no => by cases eol <;> cases no⟩
    · next notNl =>
      refine .inr ⟨?_, ?_⟩
      · rintro (rfl | rfl)
        · exact eq_true_of_ne_false fun outside => notNl ⟨rfl, outside⟩
        · exact eq_true_of_ne_false fun outside => notCr ⟨rfl, outside⟩
      · split
        · rcases backslashStep_cases eol rest hitEof (multibyteStep enc c rest hitEof) with same | breaks
          · rw [same]
            exact multibyteStep_cases ..
          · exact .inr breaks
        · exact multibyteStep_cases ..

/-- An iteration that goes on takes one character, and no line end outside quotes. -/
theorem decideStep_advance {d : Dialect} {n : Nat} (decided : d.decideStep enc eol q c rest hitEof = .advance n) :
    n = enc.charLength c ∧ (c = newline ∨ c = carriageReturn → (d.next q c).inQuote = true) := by
  rcases decideStep_cases d enc eol q c rest hitEof with ⟨-, -, ends⟩ | ⟨inside, goesOn | breaks⟩
  · exact absurd decided (ends n)
  · exact ⟨ReadStep.advance.inj (decided.symm.trans goesOn), inside⟩
  · rw [decided] at breaks
    exact absurd breaks id

/-- An iteration that ends a line is outside quotes. -/
theorem decideStep_endOfLine {d : Dialect} {n : Nat} {e : EolType}
    (decided : d.decideStep enc eol q c rest hitEof = .endOfLine n e) :
    (c = newline ∨ c = carriageReturn) ∧ (d.next q c).inQuote = false := by
  rcases decideStep_cases d enc eol q c rest hitEof with ⟨lineEnd, outside, -⟩ | ⟨-, goesOn | breaks⟩
  · exact ⟨lineEnd, outside⟩
  · cases decided.symm.trans goesOn
  · rw [decided] at breaks
    exact absurd breaks id

/-- **The reader delivers lines that line up.**  The loop may start again with the state it has already changed; but then
the byte is not a quote, and the change is none. -/
theorem readLoop_linesUp (same : opts.escape = opts.quote) (steady : opts.dialect.Steady src.encoding)
    (notNl : opts.quote ≠ newline) (notCr : opts.quote ≠ carriageReturn) {size fuel : Nat} {needData : Bool} {s s' : RawInput}
    (plain : q.lastWasEsc = false) (nulFree : nulByte ∉ s.rawBuf) (fileNulFree : nulByte ∉ src.file)
    (line : opts.dialect.readLoop size src fuel needData hitEof q s = (.line, s')) :
    ∃ content, s'.lineBuf = s.lineBuf ++ content ++ s'.eolType.terminator ∧ s'.eolType ≠ .unknown ∧
      opts.LinesUp q.inQuote (src.encoding.visible 0 content) := by
  induction fuel generalizing needData hitEof q s with
  | zero => cases line
  | succ fuel ih =>
    rw [Dialect.readLoop] at line
    cases refilled : Dialect.refill size src needData hitEof s with
    | none => simp [refilled] at line
    | some out =>
      obtain ⟨hitEof, t⟩ := out
      obtain ⟨data, rawBuf, fromFile, lineBuf, eolType⟩ := Dialect.refill_adds refilled
      have nulFree' : nulByte ∉ t.rawBuf := by
        rw [rawBuf, mem_append, not_or]
        exact ⟨nulFree, fun mem => fileNulFree (fromFile mem)⟩
      simp only [refilled] at line
      cases buffer : t.rawBuf with
      | nil => simp [buffer] at line
      | cons c rest =>
        rw [← lineBuf]
        have notNul : c ≠ nulByte := fun nul => nulFree' (by rw [buffer, nul]; exact mem_cons_self)
        simp only [buffer] at line
        split at line
        · exact ih plain nulFree' line
        · have step := @Dialect.decideStep_ok src.encoding t.eolType q c rest opts.dialect hitEof
          have next := next_dialect same notNul plain
          cases decided : opts.dialect.decideStep src.encoding t.eolType q c rest hitEof with
          | needData =>
            have notQuote : c ≠ opts.quote := by
              rcases Dialect.needData_cases decided with ⟨rfl, -⟩ | ⟨embeds, high⟩
              · exact Ne.symm steady.1
              · intro quote
                rw [quote, show isHighbitSet opts.quote = false from (steady.2 embeds).1] at high
                cases high
            rw [nextQuoted_other notQuote] at next
            simp only [decided, next] at line
            exact ih plain nulFree' line
          | advance n =>
            rw [decided] at step
            obtain ⟨rfl, inside⟩ := decideStep_advance decided
            simp only [decided, next] at line
            obtain ⟨content, lineBuf', known, linesUp⟩ := ih (s := t.consume _)
              (q := ⟨opts.nextQuoted q.inQuote c, q.lastWasEsc, false⟩) plain
              (fun mem => nulFree' (mem_of_mem_drop mem)) line
            refine ⟨(c :: rest).take (src.encoding.charLength c) ++ content, ?_, known, ?_⟩
            · rw [lineBuf', RawInput.consume, buffer]
              simp only [append_assoc]
            · rw [Encoding.visible_character step.2]
              refine linesUp.cons fun lineEnd => ?_
              have notQuote : c ≠ opts.quote := by
                rcases lineEnd with rfl | rfl
                · exact Ne.symm notNl
                · exact Ne.symm notCr
              have := inside lineEnd
              rwa [next, nextQuoted_other notQuote] at this
          | endOfLine n e =>
            rw [decided] at step
            obtain ⟨terminator, -, known, -⟩ := step
            obtain ⟨lineEnd, outside⟩ := decideStep_endOfLine decided
            have notQuote : c ≠ opts.quote := by
              rcases lineEnd with rfl | rfl
              · exact Ne.symm notNl
              · exact Ne.symm notCr
            rw [next, nextQuoted_other notQuote] at outside
            simp only [decided] at line
            obtain ⟨-, rfl⟩ := Prod.mk.inj line
            refine ⟨[], ?_, known, ?_⟩
            · simp only [RawInput.consume, append_nil]
              rw [buffer, terminator]
            · rw [show q.inQuote = false from outside]
              exact .nil
          | endOfFile n => simp [decided] at line
          | endOfCopy n => simp [decided] at line
          | error e => simp [decided] at line

end Reader

/-! ### The parser -/

section Parser

/-- Which bytes of a line the parser reads inside quotes: the branches of `scanField`, field after field. -/
def readInQuote (opts : CsvOptions) : (inQuote : Bool) → List Byte → List Bool
  | _, [] => []
  | false, c :: cur =>
    if c = opts.delim then false :: readInQuote opts false cur
    else if c = opts.quote then false :: readInQuote opts true cur
    else false :: readInQuote opts false cur
  | true, [_] => [true]
  | true, c :: nextc :: cur =>
    if c = opts.escape ∧ (nextc = opts.escape ∨ nextc = opts.quote) then true :: true :: readInQuote opts true cur
    else if c = opts.quote then true :: readInQuote opts false (nextc :: cur)
    else true :: readInQuote opts true (nextc :: cur)

variable {inQuote : Bool} {c : Byte} {cur : List Byte}

/-- One byte on. -/
theorem readInQuote_cons {first : Byte} {reading : Bool} {rest : List Bool} {pre post : List Byte}
    (split : first :: cur = pre ++ c :: post) (here : pre = [] → reading = inQuote)
    (later : ∀ pre', cur = pre' ++ c :: post → rest[pre'.length]? = some (pre'.foldl opts.nextQuoted (opts.nextQuoted inQuote first))) :
    (reading :: rest)[pre.length]? = some (pre.foldl opts.nextQuoted inQuote) := by
  cases pre with
  | nil => rw [length_nil, getElem?_cons_zero, here rfl, foldl_nil]
  | cons d pre =>
    obtain ⟨rfl, tail⟩ := List.cons.inj split
    rw [length_cons, getElem?_cons_succ, foldl_cons]
    exact later pre tail

/-- The parity of the quotes tells where the parser is inside quotes. -/
theorem readInQuote_at (same : opts.escape = opts.quote) (apart : opts.delim ≠ opts.quote) {pre post : List Byte}
    (split : cur = pre ++ c :: post) (notQuote : c ≠ opts.quote) :
    (opts.readInQuote inQuote cur)[pre.length]? = some (pre.foldl opts.nextQuoted inQuote) := by
  fun_induction opts.readInQuote inQuote cur generalizing pre with
  | case1 => simp at split
  | case2 cur ih =>
    refine readInQuote_cons split (fun _ => rfl) fun pre' tail => ?_
    rw [nextQuoted_other apart]
    exact ih tail
  | case3 cur _ ih =>
    refine readInQuote_cons split (fun _ => rfl) fun pre' tail => ?_
    rw [nextQuoted_quote]
    exact ih tail
  | case4 first cur _ other ih =>
    refine readInQuote_cons split (fun _ => rfl) fun pre' tail => ?_
    rw [nextQuoted_other other]
    exact ih tail
  | case5 first => exact readInQuote_cons split (fun _ => rfl) fun pre' tail => absurd tail (by simp)
  | case6 first nextc cur escape ih =>
    -- a doubled quote: neither of the two is the byte in question
    obtain ⟨rfl, rfl⟩ : first = opts.quote ∧ nextc = opts.quote := by
      rw [same, or_self] at escape
      exact escape
    refine readInQuote_cons split (fun _ => rfl) fun pre' tail => ?_
    refine readInQuote_cons tail (fun empty => ?_) fun pre'' tail' => ?_
    · rw [empty] at tail
      exact absurd (List.cons.inj tail).1.symm notQuote
    · rw [nextQuoted_quote, nextQuoted_quote]
      exact ih tail'
  | case7 nextc cur _ ih =>
    refine readInQuote_cons split (fun _ => rfl) fun pre' tail => ?_
    rw [nextQuoted_quote]
    exact ih tail
  | case8 first nextc cur _ other ih =>
    refine readInQuote_cons split (fun _ => rfl) fun pre' tail => ?_
    rw [nextQuoted_other other]
    exact ih tail

/-- All quotes of the line are closed. -/
theorem count_even_iff : cur.count opts.quote % 2 = inQuote.toNat ↔ cur.foldl opts.nextQuoted inQuote = false := by
  induction cur generalizing inQuote with
  | nil => cases inQuote <;> simp
  | cons c cur ih => rw [count_quote_cons, foldl_cons, ih]

/-- **The parser does not end inside quotes** if the quotes of the line are closed. -/
theorem readAttributes_ne_unterminated (same : opts.escape = opts.quote) (apart : opts.delim ≠ opts.quote)
    (closed : cur.foldl opts.nextQuoted false = false) (lastfield remaining fieldno totalLength : Nat) (st : FieldState) :
    opts.readAttributes lastfield remaining fieldno totalLength cur st ≠ .error .unterminatedQuotedField := by
  induction remaining generalizing fieldno totalLength cur st with
  | zero => exact fun no => by cases no
  | succ remaining ih =>
    have even : cur.count opts.quote % 2 = false.toNat := count_even_iff.2 closed
    obtain ⟨f, scanned, scans⟩ := scanField_piece same apart (.inr even)
    simp only [readAttributes, scanned]
    split
    · exact fun no => by cases no
    · split
      · next found =>
        refine ih ?_ _ _ _
        rw [scans.split, found, if_pos rfl, foldl_append, foldl_cons, count_even_iff.1 scans.closes,
          nextQuoted_other apart] at closed
        exact closed
      · exact fun no => by cases no

end Parser

/-! ### Both -/

/-- The next line without its terminator, which `NoDBGetNextTupleFromFile` strips by the style found. -/
def nextContent (opts : CsvOptions) (src : Source) (s : RawInput) : Option (List Byte) :=
  match opts.dialect.noDBCopyReadLineText rawBufSize src { s with lineBuf := [] } with
  | (.line, s) => some (s.lineBuf.take (s.lineBuf.length - if s.eolType = .crnl then 2 else 1))
  | _ => none

/-- What the source assumes of the conversion: quotes and line ends are the same in both encodings. -/
def KeepsMarks (opts : CsvOptions) (src : Source) (content : List Byte) : Prop :=
  (src.convert content).filter opts.isMark = (src.encoding.visible 0 content).filter opts.isMark

/-- **The reader and the parser agree on quotes**: on no line that the reader delivers from data without `'\0'` does the
parser end inside quotes, whatever column it stops at, and it reads every line end in the line inside quotes. -/
def AgreeOnQuotes (opts : CsvOptions) (enc : Encoding) : Prop :=
  ∀ (src : Source) (s : RawInput) (content : List Byte), src.encoding = enc → nulByte ∉ src.file → nulByte ∉ s.rawBuf →
    opts.nextContent src s = some content → opts.KeepsMarks src content →
      (∀ (maxfields lastfield : Nat) (attributes : Nat → PMPair),
        opts.noDBCopyReadAttributesCSV maxfields lastfield (src.convert content) attributes ≠ .error .unterminatedQuotedField) ∧
      ∀ (i : Nat) (c : Byte), (src.convert content)[i]? = some c → c = newline ∨ c = carriageReturn →
        (opts.readInQuote false (src.convert content))[i]? = some true

variable {s : RawInput} {enc : Encoding} {tail : List Byte}

theorem nextContent_eq_some {src : Source} {content : List Byte} : opts.nextContent src s = some content ↔
      ∃ s', opts.dialect.noDBCopyReadLineText rawBufSize src { s with lineBuf := [] } = (.line, s') ∧
        content = s'.lineBuf.take (s'.lineBuf.length - if s'.eolType = .crnl then 2 else 1) := by
  unfold nextContent
  split
  · next s' line =>
    rw [line]
    constructor
    · rintro ⟨⟩
      exact ⟨s', rfl, rfl⟩
    · rintro ⟨t, same, rfl⟩
      obtain ⟨-, rfl⟩ := Prod.mk.inj same
      rfl
  · next other =>
    refine ⟨(fun no => by cases no), ?_⟩
    rintro ⟨s', line, -⟩
    exact absurd line (other s')

theorem take_terminator {eol : EolType} (known : eol ≠ .unknown) (content : List Byte) :
    (content ++ eol.terminator).take ((content ++ eol.terminator).length - if eol = .crnl then 2 else 1) = content := by
  have length : (if eol = .crnl then 2 else 1) = eol.terminator.length := by
    cases eol with
    | unknown => exact absurd rfl known
    | nl => rfl
    | cr => rfl
    | crnl => rfl
  rw [length, length_append, Nat.add_sub_cancel]
  exact take_left

theorem AgreeOnQuotes.of_steady (same : opts.escape = opts.quote) (apart : opts.delim ≠ opts.quote)
    (steady : opts.dialect.Steady enc) (notNl : opts.quote ≠ newline) (notCr : opts.quote ≠ carriageReturn) :
    opts.AgreeOnQuotes enc := by
  rintro src s content rfl fileNulFree nulFree delivered keeps
  obtain ⟨s', line, rfl⟩ := nextContent_eq_some.1 delivered
  obtain ⟨content, lineBuf, known, linesUp⟩ := readLoop_linesUp (s := { s with lineBuf := [] }) same steady notNl notCr rfl
    nulFree fileNulFree line
  rw [nil_append] at lineBuf
  rw [lineBuf, take_terminator known] at keeps ⊢
  have converted := linesUp.of_marks keeps
  refine ⟨fun maxfields lastfield attributes => ?_, fun i c here lineEnd => ?_⟩
  · unfold noDBCopyReadAttributesCSV
    split
    · split <;> exact fun no => by cases no
    · exact readAttributes_ne_unterminated same apart converted.closed _ _ _ _ _
  · obtain ⟨less, here⟩ := List.getElem?_eq_some_iff.1 here
    have split : src.convert content = (src.convert content).take i ++ c :: (src.convert content).drop (i + 1) := by
      rw [← here, cons_getElem_drop_succ, take_append_drop]
    have notQuote : c ≠ opts.quote := by
      rcases lineEnd with rfl | rfl
      · exact Ne.symm notNl
      · exact Ne.symm notCr
    have at_ : (opts.readInQuote false _)[_]? = some _ := readInQuote_at same apart split notQuote
    rw [length_take, min_eq_left less.le] at at_
    exact at_.trans (congrArg some (converted.quoted _ c _ split lineEnd))

/-! ### Quotes on which they disagree -/

/-- A quoted part that is not closed. -/
theorem scanField_open (same : opts.escape = opts.quote) (noQuote : opts.quote ∉ tail) :
    opts.scanField true tail = .error .unterminatedQuotedField := by
  induction tail with
  | nil => rfl
  | cons c tail ih =>
    have other : c ≠ opts.quote := fun quote => noQuote (by rw [quote]; exact mem_cons_self)
    have rest := ih fun mem => noQuote (mem_cons_of_mem c mem)
    cases tail with
    | nil => rw [scanField, if_neg other]
    | cons d tail =>
      rw [scanField, if_neg fun escape => other (escape.1.trans same), if_neg other, rest]
      rfl

theorem scanField_unterminated (same : opts.escape = opts.quote) (apart : opts.delim ≠ opts.quote) {pre : List Byte}
    (plain : ∀ c ∈ pre, c ≠ opts.delim ∧ c ≠ opts.quote) (noQuote : opts.quote ∉ tail) :
    opts.scanField false (pre ++ opts.quote :: tail) = .error .unterminatedQuotedField := by
  induction pre with
  | nil =>
    rw [nil_append, scanField, if_neg (Ne.symm apart), if_pos rfl, scanField_open same noQuote]
    rfl
  | cons c pre ih =>
    obtain ⟨notDelim, notQuote⟩ := plain c mem_cons_self
    rw [cons_append, scanField, if_neg notDelim, if_neg notQuote, ih fun d mem => plain d (mem_cons_of_mem c mem)]
    rfl

/-- A line that ends inside quotes is not what the two agree on. -/
theorem not_agreeOnQuotes_of_open (same : opts.escape = opts.quote) (apart : opts.delim ≠ opts.quote) {file : List Byte}
    {pre : List Byte} (fileNulFree : nulByte ∉ file) (nulFree : nulByte ∉ s.rawBuf)
    (delivered : opts.nextContent (Dialect.plainSource enc file) s = some (pre ++ opts.quote :: tail))
    (marks : (enc.visible 0 (pre ++ opts.quote :: tail)).filter opts.isMark = (pre ++ opts.quote :: tail).filter opts.isMark)
    (plain : ∀ c ∈ pre, c ≠ opts.delim ∧ c ≠ opts.quote) (noQuote : opts.quote ∉ tail) : ¬ opts.AgreeOnQuotes enc := by
  intro agree
  have ends := (agree (Dialect.plainSource enc file) s _ rfl fileNulFree nulFree delivered marks.symm).1 1 0 (fun _ => ⟨0, 0⟩)
  refine ends ?_
  rw [noDBCopyReadAttributesCSV, if_neg (by decide), readAttributes,
    show opts.scanField false ((Dialect.plainSource enc file).convert (pre ++ opts.quote :: tail)) = _ from
      scanField_unterminated same apart plain noQuote]

/-- What the loop delivers, from what it leaves unread. -/
theorem nextContent_of_ends {file : List Byte} {k : Nat} {eol e : EolType} {buf ahead buf' ahead' : List Byte}
    {content : List Byte} (ends : opts.dialect.Ends rawBufSize enc file k false false .start eol buf ahead .line
      (Dialect.Sees (Dialect.plainSource enc file) e buf' ahead')) (enough : k ≤ 3 * file.length + 4)
    (sees : Dialect.Sees (Dialect.plainSource enc file) eol buf ahead s) (known : e ≠ .unknown)
    (split : content ++ e.terminator ++ (buf' ++ ahead') = buf ++ ahead) :
    opts.nextContent (Dialect.plainSource enc file) s = some content := by
  obtain ⟨s', run, after⟩ := Dialect.Ends.call enough sees ends
  have conserved : s'.lineBuf ++ (s'.rawBuf ++ file.drop s'.pos) = s.rawBuf ++ file.drop s.pos :=
    @Dialect.readLoop_unread _ _ (Dialect.plainSource enc file) _ _ _ _ { s with lineBuf := [] } _ (.inl rfl) run
  rw [after.rawBuf, show file.drop s'.pos = ahead' from after.ahead, sees.rawBuf, show file.drop s.pos = ahead from sees.ahead,
    ← split] at conserved
  refine nextContent_eq_some.2 ⟨s', run, ?_⟩
  rw [append_cancel_right conserved, after.eolType, take_terminator known]

section

variable (same : opts.escape = opts.quote) (apart : opts.delim ≠ opts.quote) (enc : Encoding)
include same apart

/-- **A line end as quote**: the line of two is a quoted part that its terminator closes. -/
theorem not_agreeOnQuotes_lineEnd (lineEnd : opts.quote = newline ∨ opts.quote = carriageReturn) :
    ¬ opts.AgreeOnQuotes enc := by
  obtain ⟨f, filler, -⟩ := Dialect.exists_filler opts.dialect 0
  obtain ⟨notNul, ascii, notBackslash⟩ :
      opts.quote ≠ nulByte ∧ isHighbitSet opts.quote = false ∧ opts.quote ≠ backslash := by
    rcases lineEnd with quote | quote <;> rw [quote] <;> decide
  have notEscapec : opts.dialect.quote ≠ opts.dialect.escapec := Dialect.quote_ne_escapec notNul
  have opens : opts.dialect.next .start opts.quote = ⟨true, false, true⟩ := Dialect.next_opens notEscapec true
  have closes : opts.dialect.next ⟨true, false, false⟩ opts.quote = ⟨false, false, false⟩ := Dialect.next_closes notEscapec false
  obtain ⟨e, terminator, known, decided⟩ : ∃ e, e.terminator = [opts.quote] ∧ e ≠ .unknown ∧
      opts.dialect.decideStep enc .unknown ⟨true, false, false⟩ opts.quote [f] false = .endOfLine 1 e := by
    unfold Dialect.decideStep
    rw [closes]
    rcases lineEnd with quote | quote <;> rw [quote]
    · exact ⟨.nl, rfl, by decide, by rw [if_neg (by decide), if_pos ⟨rfl, rfl⟩]⟩
    · exact ⟨.cr, rfl, by decide, by rw [if_pos ⟨rfl, rfl⟩]; exact if_neg filler.notNl⟩
  obtain ⟨file, split⟩ : ∃ file, file = [opts.quote, opts.quote, f] := ⟨_, rfl⟩
  have ends : opts.dialect.Ends rawBufSize enc file 2 false false .start .unknown [] file .line
      (Dialect.Sees (Dialect.plainSource enc file) e [f] []) := by
    refine .start (show file = [opts.quote, opts.quote, f] ++ [] from split) (cons_ne_nil _ _)
      (.inr ⟨rfl, show 3 ≤ rawBufSize by decide⟩) ?_
    refine .plain ascii (fun _ => by rw [opens]) (fun no => absurd no notBackslash) (fun _ => cons_ne_nil _ _) ?_
    rw [opens]
    exact .endsLine decided (fun _ => cons_ne_nil _ _) rfl
  have delivered : opts.nextContent (Dialect.plainSource enc file) (.fresh .fresh) = some ([] ++ opts.quote :: []) :=
    nextContent_of_ends ends (by rw [split]; exact Nat.le_add_left _ _) (Dialect.sees_fresh enc _) known
      (by rw [terminator, split]; rfl)
  refine not_agreeOnQuotes_of_open same apart ?_ not_mem_nil delivered ?_ (fun c no => absurd no not_mem_nil) not_mem_nil
  · rw [split]
    simp [Ne.symm notNul, Ne.symm filler.notNul]
  · rw [nil_append, ← append_nil [opts.quote], Encoding.visible_ascii (by simpa using ascii)]
    rfl

/-- **A backslash as quote** that the reader sees twice. -/
theorem not_agreeOnQuotes_backslash (quote : opts.quote = backslash) : ¬ opts.AgreeOnQuotes enc := by
  obtain ⟨f, filler, -⟩ := Dialect.exists_filler opts.dialect 0
  obtain ⟨n, fits⟩ : ∃ n, n + 4 = rawBufSize := ⟨32764, rfl⟩
  obtain ⟨file, split⟩ : ∃ file, file = List.replicate (n + 1) f ++ newline :: [backslash, 46] ++ [f, newline] := ⟨_, rfl⟩
  have length_eq : file.length = n + 6 := by rw [split]; simp
  have first : opts.dialect.Ends rawBufSize enc file _ _ _ _ _ _ _ _ _ := Dialect.ends_before_marker quote filler fits split
  have second : opts.dialect.Ends rawBufSize enc file _ _ _ _ _ _ _ _ _ :=
    Dialect.ends_marker_boundary quote filler (by decide)
  obtain ⟨s, sees, -⟩ := Dialect.length_calls_line (by omega) (Dialect.sees_fresh enc file) first 0
  have delivered : opts.nextContent (Dialect.plainSource enc file) s = some ([] ++ backslash :: [46, f]) :=
    nextContent_of_ends second (by omega) sees (by decide) rfl
  have ascii : ∀ c ∈ [backslash, 46, f], isHighbitSet c = false := by
    simp only [mem_cons, not_mem_nil, or_false]
    rintro c (rfl | rfl | rfl)
    · decide
    · decide
    · exact filler.ascii
  rw [← quote] at delivered ascii
  refine not_agreeOnQuotes_of_open same apart ?_ ?_ delivered ?_ (fun c no => absurd no not_mem_nil) ?_
  · rw [split]
    simp [Ne.symm filler.notNul, show nulByte ≠ newline by decide, show nulByte ≠ backslash by decide,
      show nulByte ≠ 46 by decide]
  · rw [sees.rawBuf]
    decide
  · rw [nil_append, ← append_nil (opts.quote :: _), Encoding.visible_ascii ascii]
    rfl
  · simp only [mem_cons, not_mem_nil, or_false, not_or]
    exact ⟨by rw [quote]; decide, Ne.symm filler.notQuote⟩

/-- **A quote with the high bit set** that the reader sees twice. -/
theorem not_agreeOnQuotes_highQuote {enc : Encoding} (embeds : enc.embedsAscii = true)
    (high : isHighbitSet opts.quote = true) : ¬ opts.AgreeOnQuotes enc := by
  obtain ⟨f, filler, notDelim⟩ := Dialect.exists_filler opts.dialect opts.delim
  obtain ⟨n, fits⟩ : ∃ n, n + 2 = rawBufSize := ⟨32766, rfl⟩
  obtain ⟨file, split⟩ :
      ∃ file, file = List.replicate (n + 1) f ++ [opts.quote] ++ (List.replicate 4 f ++ [newline]) := ⟨_, rfl⟩
  have length_eq : file.length = n + 7 := by rw [split]; simp
  have ends : opts.dialect.Ends rawBufSize enc file _ _ _ _ _ _ _ _ _ :=
    Dialect.ends_highQuote_boundary embeds high filler (by decide) fits split
  have delivered : opts.nextContent (Dialect.plainSource enc file) (.fresh .fresh) =
      some (List.replicate (n + 1) f ++ opts.quote :: List.replicate 4 f) :=
    nextContent_of_ends ends (by omega) (Dialect.sees_fresh enc file) (by decide) (by rw [split]; simp [EolType.terminator])
  have fillers : ∀ n, ∀ c ∈ List.replicate n f, c = f := fun n c mem => (mem_replicate.1 mem).2
  have noMark : opts.isMark f = false := by
    simp only [isMark, filler.notNl, filler.notCr, decide_false, Bool.or_false, decide_eq_false_iff_not]
    exact filler.notQuote
  have noMarks : ∀ {bytes : List Byte}, bytes ⊆ List.replicate 4 f → bytes.filter opts.isMark = [] := fun sub =>
    filter_eq_nil_iff.2 fun c mem => by rw [fillers 4 c (sub mem), noMark]; exact Bool.false_ne_true
  have notNul : opts.quote ≠ nulByte := Ne.symm (Dialect.ascii_ne_highQuote (d := opts.dialect) high (by decide))
  refine not_agreeOnQuotes_of_open same apart ?_ not_mem_nil delivered ?_ ?_ ?_
  · rw [split]
    simp [Ne.symm filler.notNul, Ne.symm notNul, show nulByte ≠ newline by decide]
  · rw [Encoding.visible_ascii fun c mem => by rw [fillers _ c mem]; exact filler.ascii, filter_append, filter_append,
      Encoding.visible]
    simp only [filter_cons]
    rw [noMarks (Encoding.visible_subset enc _ _), noMarks (List.Subset.refl _)]
  · intro c mem
    rw [fillers _ c mem]
    exact ⟨notDelim, filler.notQuote⟩
  · exact fun mem => filler.notQuote (fillers 4 _ mem).symm

end

end CsvOptions

end PostgresRaw
