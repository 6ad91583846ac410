import PostgresRaw.Csv.Attributes
import PostgresRaw.Library.Pieces

/-!
# The parser for any delimiter, quote and null marker

`NoDBCopyReadAttributesCSV` takes its delimiter, quote, escape and null marker from the scan state.  The
scans of a relation all have the quote as quote and escape and the empty null marker, and the rest of the
development has them fixed (`CsvFormat`); here the parser is the same code with the four as parameters
(`noDBCopyReadAttributesCSV_eq_options`).

`pieces` is the meaning of a line, said without the parser: the line is split at the delimiters outside of
quotes, where the quotes are simply counted.  That is what the nested loops come to if quote and escape
are the same: `finds_scanField` follows them byte by byte.  `noDBCopyReadAttributesCSV_pieces` is the
specification of the parser: positions, texts and NULLs of the pieces, whatever column it stops at.
-/

namespace PostgresRaw

open List

/-- `delim`, `quote`, `escape` and `null_print` of the scan state. -/
structure CsvOptions where
  delim : Byte
  quote : Byte
  escape : Byte
  nullPrint : List Byte

namespace CsvOptions

variable (opts : CsvOptions)

/-! ### The parser -/

/-- The inner loops for one field, as in `scanField`. -/
def scanField : (inQuote : Bool) → List Byte → Except CsvError FieldScan
  | false, [] => .ok ⟨[], [], false, false, []⟩
  | false, c :: cur =>
    if c = opts.delim then .ok ⟨[], [], true, false, cur⟩
    else if c = opts.quote then (scanField true cur).map (·.openQuote c)
    else (scanField false cur).map (·.copy c)
  | true, [] => .error .unterminatedQuotedField
  | true, [c] =>
    if c = opts.quote then (scanField false []).map (·.closeQuote c)
    else .error .unterminatedQuotedField
  | true, c :: nextc :: cur =>
    if c = opts.escape ∧ (nextc = opts.escape ∨ nextc = opts.quote) then
      (scanField true cur).map (·.escaped c nextc)
    else if c = opts.quote then (scanField false (nextc :: cur)).map (·.closeQuote c)
    else (scanField true (nextc :: cur)).map (·.copy c)

/-- The test against the null marker. -/
def fieldString (f : FieldScan) : FieldString :=
  if f.sawQuote = false ∧ f.raw = opts.nullPrint then .null else .text f.out

/-- The bookkeeping after `endfield`. -/
def record (st : FieldState) (fieldno totalLength : Nat) (f : FieldScan) : FieldState :=
  let next : UInt16 := UInt16.ofNat (totalLength + 1)
  let here := st.attributes fieldno
  { attributes :=
      Function.update
        (Function.update st.attributes (fieldno + 1)
          { st.attributes (fieldno + 1) with pointer := next })
        fieldno { here with width := next - here.pointer - 1 }
    fieldStrings := Function.update st.fieldStrings fieldno (opts.fieldString f) }

/-- The outer loop. -/
def readAttributes (lastfield : Nat) :
    (remaining fieldno totalLength : Nat) → List Byte → FieldState → Except CsvError FieldState
  | 0, _, _, _, _ => .error .extraData
  | remaining + 1, fieldno, totalLength, cur, st =>
    match opts.scanField false cur with
    | .error e => .error e
    | .ok f =>
      let totalLength := totalLength + f.raw.length
      let st := opts.record st fieldno totalLength f
      if fieldno = lastfield then .ok st
      else if f.foundDelim then
        readAttributes lastfield remaining (fieldno + 1) (totalLength + 1) f.rest st
      else .ok st

/-- `NoDBCopyReadAttributesCSV` on the line in `line_buf`. -/
def noDBCopyReadAttributesCSV (maxfields lastfield : Nat) (line : List Byte) (attributes : Nat → PMPair) :
    Except CsvError FieldState :=
  if maxfields = 0 then
    if line.length ≠ 0 then .error .extraData else .ok ⟨attributes, fun _ => .stale⟩
  else opts.readAttributes lastfield maxfields 0 0 line ⟨attributes, fun _ => .stale⟩

end CsvOptions

/-- The options of the scans. -/
def CsvFormat.options (fmt : CsvFormat) : CsvOptions := ⟨fmt.delim, fmt.quote, fmt.escape, fmt.nullPrint⟩

theorem scanField_eq_options (fmt : CsvFormat) (inQuote : Bool) (cur : List Byte) :
    scanField fmt inQuote cur = fmt.options.scanField inQuote cur := by
  fun_induction scanField fmt inQuote cur with
  | case1 => rfl
  | case2 cur => exact (if_pos rfl).symm
  | case3 cur notDelim ih =>
    rw [ih]
    exact ((if_neg notDelim).trans (if_pos rfl)).symm
  | case4 c cur notDelim notQuote ih =>
    rw [ih]
    exact ((if_neg notDelim).trans (if_neg notQuote)).symm
  | case5 => rfl
  | case6 ih =>
    rw [ih]
    exact (if_pos rfl).symm
  | case7 c notQuote => exact (if_neg notQuote).symm
  | case8 c nextc cur escape ih =>
    rw [ih]
    exact (if_pos escape).symm
  | case9 nextc cur noEscape ih =>
    rw [ih]
    exact ((if_neg noEscape).trans (if_pos rfl)).symm
  | case10 c nextc cur noEscape notQuote ih =>
    rw [ih]
    exact ((if_neg noEscape).trans (if_neg notQuote)).symm

theorem readAttributes_eq_options (fmt : CsvFormat) (lastfield remaining fieldno totalLength : Nat)
    (cur : List Byte) (st : FieldState) : readAttributes fmt lastfield remaining fieldno totalLength cur st =
      fmt.options.readAttributes lastfield remaining fieldno totalLength cur st := by
  induction remaining generalizing fieldno totalLength cur st with
  | zero => rfl
  | succ remaining ih =>
    rw [readAttributes, CsvOptions.readAttributes, scanField_eq_options]
    cases fmt.options.scanField false cur with
    | error e => rfl
    | ok f =>
      simp only [ih]
      rfl

/-- The parser of the scans is this one with their options. -/
theorem noDBCopyReadAttributesCSV_eq_options (fmt : CsvFormat) (maxfields lastfield : Nat) (line : List Byte)
    (attributes : Nat → PMPair) : noDBCopyReadAttributesCSV fmt maxfields lastfield line attributes =
      fmt.options.noDBCopyReadAttributesCSV maxfields lastfield line attributes := by
  rw [noDBCopyReadAttributesCSV, CsvOptions.noDBCopyReadAttributesCSV, readAttributes_eq_options]

namespace CsvOptions

variable (opts : CsvOptions)

/-! ### What a line means -/

/-- Whether the bytes behind `c` are quoted. -/
def nextQuoted (inQuote : Bool) (c : Byte) : Bool := if c = opts.quote then !inQuote else inQuote

/-- **The pieces of a line**: it is split at the delimiters outside of quotes. -/
def pieces (inQuote : Bool) (line : List Byte) : List (List Byte) :=
  Pieces.split opts.nextQuoted (fun inQuote c => !inQuote && c = opts.delim) inQuote line

/-- A piece without its quotes; two in a row inside of quotes are one that stays. -/
def unquote : (inQuote : Bool) → List Byte → List Byte
  | _, [] => []
  | false, c :: piece => if c = opts.quote then unquote true piece else c :: unquote false piece
  | true, [c] => if c = opts.quote then [] else [c]
  | true, c :: d :: piece =>
    if c = opts.quote then
      if d = opts.quote then c :: unquote true piece else unquote false (d :: piece)
    else c :: unquote true (d :: piece)

/-- The string of a piece: NULL for the null marker without quotes. -/
def pieceString (piece : List Byte) : FieldString :=
  if opts.quote ∉ piece ∧ piece = opts.nullPrint then .null else .text (opts.unquote false piece)

/-- No quoted part is left open in the first piece: it ends at a delimiter, or all quotes of the line are
closed. -/
def Closed (inQuote : Bool) (line : List Byte) : Prop :=
  1 < (opts.pieces inQuote line).length ∨ line.count opts.quote % 2 = inQuote.toNat

section

variable {opts : CsvOptions} {inQuote : Bool} {c : Byte} {cur : List Byte}

theorem pieces_delim (cur : List Byte) (apart : opts.delim ≠ opts.quote) :
    opts.pieces false (opts.delim :: cur) = [] :: opts.pieces false cur := by
  rw [pieces, Pieces.split_of_cut (by simp), nextQuoted, if_neg apart]
  rfl

theorem pieces_inside (inside : inQuote = false → c ≠ opts.delim) (cur : List Byte) :
    opts.pieces inQuote (c :: cur) = (opts.pieces (opts.nextQuoted inQuote c) cur).modifyHead (c :: ·) := by
  refine Pieces.split_of_uncut ?_ cur
  cases inQuote with
  | true => rfl
  | false => simpa using inside rfl

theorem exists_pieces_eq_cons (opts : CsvOptions) (inQuote : Bool) (line : List Byte) :
    ∃ piece others, opts.pieces inQuote line = piece :: others :=
  Pieces.exists_split_eq_cons inQuote line

theorem nextQuoted_quote (inQuote : Bool) : opts.nextQuoted inQuote opts.quote = !inQuote := if_pos rfl

theorem nextQuoted_other (other : c ≠ opts.quote) (inQuote : Bool) : opts.nextQuoted inQuote c = inQuote := if_neg other

/-- The quotes that are still to come, and whether the bytes are quoted. -/
theorem count_quote_cons (inQuote : Bool) (c : Byte) (line : List Byte) :
    (c :: line).count opts.quote % 2 = inQuote.toNat ↔ line.count opts.quote % 2 = (opts.nextQuoted inQuote c).toNat := by
  by_cases quote : c = opts.quote
  · subst quote
    rw [count_cons_self, nextQuoted_quote]
    cases inQuote
    · rw [Bool.toNat_false, Bool.not_false, Bool.toNat_true]
      omega
    · rw [Bool.toNat_true, Bool.not_true, Bool.toNat_false]
      omega
  · rw [count_cons_of_ne quote, nextQuoted_other quote]

/-- Reading a byte of the piece leaves what is open open. -/
theorem closed_cons (inside : inQuote = false → c ≠ opts.delim) :
    opts.Closed inQuote (c :: cur) ↔ opts.Closed (opts.nextQuoted inQuote c) cur := by
  rw [Closed, Closed, pieces_inside inside, length_modifyHead, count_quote_cons]

theorem not_closed_nil : ¬ opts.Closed true [] := by
  rintro (more | odd)
  · exact absurd more (by simp [pieces, Pieces.split])
  · simp at odd

/-- What the inner loops make of the first piece. -/
structure ScansPiece (opts : CsvOptions) (inQuote : Bool) (cur : List Byte) (f : FieldScan) : Prop where
  split : cur = f.raw ++ if f.foundDelim then opts.delim :: f.rest else []
  pieces : opts.pieces inQuote cur = f.raw :: (if f.foundDelim then opts.pieces false f.rest else [])
  out : f.out = opts.unquote inQuote f.raw
  sawQuote : inQuote = false → (f.sawQuote = false ↔ opts.quote ∉ f.raw)
  closes : f.raw.count opts.quote % 2 = inQuote.toNat

theorem unquote_close {raw : List Byte} (single : raw.head? ≠ some opts.quote) :
    opts.unquote true (opts.quote :: raw) = opts.unquote false raw := by
  cases raw with
  | nil => simp [unquote]
  | cons d raw =>
    have other : d ≠ opts.quote := fun same => single (by rw [same]; rfl)
    change (if opts.quote = opts.quote then if d = opts.quote then _ else opts.unquote false (d :: raw) else _) = _
    rw [if_pos rfl, if_neg other]

theorem unquote_other (other : c ≠ opts.quote) (raw : List Byte) :
    opts.unquote true (c :: raw) = c :: opts.unquote true raw := by
  cases raw with
  | nil => simp [unquote, other]
  | cons d raw => rw [unquote, if_neg other]

/-- The inner loops find the first piece if no quoted part is left open in it, and only then. -/
def Finds (opts : CsvOptions) (inQuote : Bool) (cur : List Byte) (r : Except CsvError FieldScan) : Prop :=
  (opts.Closed inQuote cur ↔ ∃ f, r = .ok f) ∧ ∀ f, r = .ok f → opts.ScansPiece inQuote cur f

theorem exists_map_eq_ok {r : Except CsvError FieldScan} {g : FieldScan → FieldScan} :
    (∃ f, r = .ok f) ↔ ∃ f, r.map g = .ok f := by
  cases r <;> simp [Except.map]

/-- A byte in front of a piece. -/
theorem Finds.cons {next : Bool} {r : Except CsvError FieldScan} {g : FieldScan → FieldScan}
    (finds : opts.Finds next cur r) (quoted : opts.nextQuoted inQuote c = next) (inside : inQuote = false → c ≠ opts.delim)
    (frame : ∀ f, (g f).raw = c :: f.raw ∧ (g f).foundDelim = f.foundDelim ∧ (g f).rest = f.rest)
    (field : ∀ f, opts.ScansPiece next cur f → (g f).out = opts.unquote inQuote (c :: f.raw) ∧
      (inQuote = false → ((g f).sawQuote = false ↔ opts.quote ∉ c :: f.raw))) :
    opts.Finds inQuote (c :: cur) (r.map g) := by
  subst quoted
  refine ⟨(closed_cons inside).trans (finds.1.trans exists_map_eq_ok), fun h mapped => ?_⟩
  obtain ⟨f, inner, rfl⟩ := map_eq_ok mapped
  have scans := finds.2 f inner
  obtain ⟨raw, found, rest⟩ := frame f
  obtain ⟨out, sawQuote⟩ := field f scans
  rw [← raw] at out sawQuote
  refine ⟨?_, ?_, out, sawQuote, ?_⟩
  · rw [raw, found, rest, cons_append, ← scans.split]
  · rw [pieces_inside inside, scans.pieces, raw, found, rest]
    rfl
  · rw [raw, count_quote_cons]
    exact scans.closes

/-- **The inner loops find the first piece.** -/
theorem finds_scanField (same : opts.escape = opts.quote) (apart : opts.delim ≠ opts.quote) :
    opts.Finds inQuote cur (opts.scanField inQuote cur) := by
  have quoted : ∀ {c : Byte}, true = false → c ≠ opts.delim := fun no => by cases no
  fun_induction opts.scanField inQuote cur with
  | case1 =>
    refine ⟨iff_of_true (.inr rfl) ⟨_, rfl⟩, fun f scanned => ?_⟩
    cases scanned
    exact ⟨rfl, rfl, rfl, fun _ => by simp, rfl⟩
  | case2 cur =>
    refine ⟨iff_of_true (.inl ?_) ⟨_, rfl⟩, fun f scanned => ?_⟩
    · obtain ⟨piece, others, rest⟩ := exists_pieces_eq_cons opts false cur
      rw [pieces_delim cur apart, rest]
      simp
    · cases scanned
      exact ⟨rfl, pieces_delim cur apart, rfl, fun _ => by simp, rfl⟩
  | case3 cur notDelim ih =>
    refine ih.cons (nextQuoted_quote false) (fun _ => notDelim) (fun _ => ⟨rfl, rfl, rfl⟩) fun f scans =>
      ⟨?_, fun _ => by simp [FieldScan.openQuote]⟩
    rw [unquote, if_pos rfl]
    exact scans.out
  | case4 c cur notDelim notQuote ih =>
    refine ih.cons (nextQuoted_other notQuote false) (fun _ => notDelim) (fun _ => ⟨rfl, rfl, rfl⟩) fun f scans =>
      ⟨?_, fun _ => ?_⟩
    · rw [unquote, if_neg notQuote, ← scans.out]
      rfl
    · change f.sawQuote = false ↔ _
      rw [scans.sawQuote rfl, mem_cons, not_or]
      exact ⟨fun none => ⟨Ne.symm notQuote, none⟩, And.right⟩
  | case5 => exact ⟨iff_of_false not_closed_nil (by rintro ⟨_, no⟩; cases no), fun f no => by cases no⟩
  | case6 ih =>
    refine ih.cons (nextQuoted_quote true) quoted (fun _ => ⟨rfl, rfl, rfl⟩) fun f scans => ⟨?_, fun no => by cases no⟩
    have empty : f.raw = [] := (append_eq_nil_iff.1 scans.split.symm).1
    rw [unquote_close (by rw [empty]; simp)]
    exact scans.out
  | case7 c notQuote =>
    refine ⟨iff_of_false (fun closed => ?_) (by rintro ⟨_, no⟩; cases no), fun f no => by cases no⟩
    have tail := (closed_cons quoted).1 closed
    rw [nextQuoted_other notQuote] at tail
    exact not_closed_nil tail
  | case8 c nextc cur escape ih =>
    -- A doubled quote: the count is what it was.
    obtain ⟨rfl, rfl⟩ : c = opts.quote ∧ nextc = opts.quote := by
      rw [same, or_self] at escape
      exact escape
    refine ⟨?_, fun h mapped => ?_⟩
    · rw [closed_cons quoted, nextQuoted_quote, closed_cons fun _ => Ne.symm apart, nextQuoted_quote]
      exact ih.1.trans exists_map_eq_ok
    · obtain ⟨f, inner, rfl⟩ := map_eq_ok mapped
      have scans := ih.2 f inner
      refine ⟨congrArg (fun tail => opts.quote :: opts.quote :: tail) scans.split, ?_, ?_, (fun no => by cases no), ?_⟩
      · rw [pieces_inside quoted, nextQuoted_quote, pieces_inside fun _ => Ne.symm apart, nextQuoted_quote]
        change ((opts.pieces true cur).modifyHead _).modifyHead _ = _
        rw [scans.pieces]
        rfl
      · change opts.quote :: f.out = opts.unquote true (opts.quote :: opts.quote :: f.raw)
        rw [unquote, if_pos rfl, if_pos rfl, scans.out]
      · change (opts.quote :: opts.quote :: f.raw).count opts.quote % 2 = _
        rw [count_quote_cons, count_quote_cons, nextQuoted_quote, nextQuoted_quote, Bool.not_not]
        exact scans.closes
  | case9 nextc cur noEscape ih =>
    refine ih.cons (nextQuoted_quote true) quoted (fun _ => ⟨rfl, rfl, rfl⟩) fun f scans => ⟨?_, fun no => by cases no⟩
    rw [unquote_close]
    · exact scans.out
    · intro head
      obtain ⟨tail, raw⟩ := head?_eq_some_iff.1 head
      have split := scans.split
      rw [raw] at split
      exact noEscape ⟨same.symm, .inr (List.cons.inj split).1⟩
  | case10 c nextc cur noEscape notQuote ih =>
    refine ih.cons (nextQuoted_other notQuote true) quoted (fun _ => ⟨rfl, rfl, rfl⟩) fun f scans =>
      ⟨?_, fun no => by cases no⟩
    rw [unquote_other notQuote, ← scans.out]
    rfl

theorem scanField_piece (same : opts.escape = opts.quote) (apart : opts.delim ≠ opts.quote)
    (closed : opts.Closed inQuote cur) : ∃ f, opts.scanField inQuote cur = .ok f ∧ opts.ScansPiece inQuote cur f := by
  obtain ⟨f, scanned⟩ := (finds_scanField same apart).1.1 closed
  exact ⟨f, scanned, (finds_scanField same apart).2 f scanned⟩

/-! ### The outer loop -/

/-- No quoted part is left open up to the column `lastfield`. -/
def ClosedUpTo (opts : CsvOptions) (lastfield : Nat) (line : List Byte) : Prop :=
  ∀ k ≤ lastfield, ∀ piece, (opts.pieces false line)[k]? = some piece → piece.count opts.quote % 2 = 0

theorem ClosedUpTo.closed {lastfield : Nat} {line : List Byte} (closed : opts.ClosedUpTo lastfield line) :
    opts.Closed false line := by
  obtain ⟨piece, others, split⟩ := exists_pieces_eq_cons opts false line
  cases others with
  | nil =>
    refine .inr ?_
    rw [Pieces.eq_of_split_eq_singleton split]
    exact closed 0 (Nat.zero_le _) piece (by rw [split]; rfl)
  | cons _ _ => exact .inl (by rw [split]; simp)

theorem ScansPiece.fieldString {f : FieldScan} (scans : opts.ScansPiece false cur f) :
    opts.fieldString f = opts.pieceString f.raw := by
  rw [CsvOptions.fieldString, pieceString, scans.out]
  exact if_congr (and_congr_left' (scans.sawQuote rfl)) rfl rfl

/-- What recording a field leaves in its column, and that no other column but the next changes. -/
theorem record_here {st : FieldState} {fieldno totalLength : Nat}
    (start : (st.attributes fieldno).pointer = UInt16.ofNat totalLength) (f : FieldScan) :
    let st' := opts.record st fieldno (totalLength + f.raw.length) f
    st'.attributes fieldno = ⟨UInt16.ofNat totalLength, UInt16.ofNat f.raw.length⟩ ∧
      st'.fieldStrings fieldno = opts.fieldString f ∧
      (st'.attributes (fieldno + 1)).pointer = UInt16.ofNat (totalLength + f.raw.length + 1) ∧
      ∀ col < fieldno, st'.attributes col = st.attributes col ∧ st'.fieldStrings col = st.fieldStrings col := by
  refine ⟨?_, by simp [record], by simp [record], fun col before => ?_⟩
  · simp only [record, Function.update_self, start, ofNat_pointer_sub]
  · have notHere : col ≠ fieldno := by omega
    have notNext : col ≠ fieldno + 1 := by omega
    exact ⟨by simp [record, notHere, notNext], by simp [record, notHere]⟩

section

variable (same : opts.escape = opts.quote) (apart : opts.delim ≠ opts.quote)
  {lastfield remaining fieldno totalLength : Nat} (le : fieldno ≤ lastfield)

include same apart le

/-- **The outer loop records the pieces** up to the column it stops at. -/
theorem readAttributes_pieces {st : FieldState}
    (room : lastfield < fieldno + remaining) (start : (st.attributes fieldno).pointer = UInt16.ofNat totalLength)
    (closed : opts.ClosedUpTo (lastfield - fieldno) cur) :
    ∃ st', opts.readAttributes lastfield remaining fieldno totalLength cur st = .ok st' ∧
      (∀ col < fieldno, st'.attributes col = st.attributes col ∧ st'.fieldStrings col = st.fieldStrings col) ∧
      ∀ k ≤ lastfield - fieldno, ∀ piece, (opts.pieces false cur)[k]? = some piece → st'.attributes (fieldno + k) =
            ⟨UInt16.ofNat (totalLength + Pieces.start (opts.pieces false cur) k), UInt16.ofNat piece.length⟩ ∧
          st'.fieldStrings (fieldno + k) = opts.pieceString piece := by
  induction remaining generalizing fieldno totalLength cur st with
  | zero => omega
  | succ remaining ih =>
    obtain ⟨f, scanned, scans⟩ := scanField_piece same apart closed.closed
    obtain ⟨here, string, next, before⟩ := @record_here opts _ _ _ start f
    rw [scans.fieldString] at string
    rw [readAttributes, scanned, scans.pieces]
    -- The first piece, once the loop is known to leave its column alone.
    have first : ∀ {st' : FieldState} {others : List (List Byte)},
        st'.attributes fieldno = ⟨UInt16.ofNat totalLength, UInt16.ofNat f.raw.length⟩ →
        st'.fieldStrings fieldno = opts.pieceString f.raw → ∀ piece, (f.raw :: others)[0]? = some piece →
        st'.attributes (fieldno + 0) = ⟨UInt16.ofNat (totalLength + Pieces.start (f.raw :: others) 0),
          UInt16.ofNat piece.length⟩ ∧ st'.fieldStrings (fieldno + 0) = opts.pieceString piece := by
      rintro st' others pair string piece isFirst
      obtain rfl : f.raw = piece := by simpa using isFirst
      exact ⟨pair, string⟩
    by_cases last : fieldno = lastfield
    · refine ⟨_, by simp only [if_pos last], before, fun k le piece piece_eq => ?_⟩
      obtain rfl : k = 0 := by omega
      exact first here string piece piece_eq
    · cases found : f.foundDelim with
      | false =>
        refine ⟨_, by simp only [if_neg last, found, Bool.false_eq_true, if_false], before, fun k _ piece piece_eq => ?_⟩
        cases k with
        | zero => exact first here string piece piece_eq
        | succ k => simp at piece_eq
      | true =>
        have closed' : opts.ClosedUpTo (lastfield - (fieldno + 1)) f.rest := by
          intro k le piece piece_eq
          refine closed (k + 1) (by omega) piece ?_
          rw [scans.pieces, found, if_pos rfl]
          exact piece_eq
        obtain ⟨st', run, frame, later⟩ := ih (by omega) (by omega) next closed'
        obtain ⟨pair, string'⟩ := frame fieldno (Nat.lt_add_one _)
        refine ⟨st', by simp only [if_neg last, found, if_true, run], fun col less => ?_, fun k le piece piece_eq => ?_⟩
        · obtain ⟨pair, string⟩ := frame col (by omega)
          exact ⟨pair.trans (before col less).1, string.trans (before col less).2⟩
        · cases k with
          | zero => exact first (pair.trans here) (string'.trans string) piece piece_eq
          | succ k =>
            obtain ⟨pair, string⟩ := later k (by omega) piece piece_eq
            rw [show fieldno + (k + 1) = fieldno + 1 + k by omega, pair, string, if_pos rfl, Pieces.start_cons_succ]
            refine ⟨?_, rfl⟩
            congr 2
            omega

/-- The outer loop goes on only as long as no quoted part is left open. -/
theorem closedUpTo_of_readAttributes
    {st st' : FieldState} (accepted : opts.readAttributes lastfield remaining fieldno totalLength cur st = .ok st') :
    opts.ClosedUpTo (lastfield - fieldno) cur := by
  induction remaining generalizing fieldno totalLength cur st with
  | zero => cases accepted
  | succ remaining ih =>
    rw [readAttributes] at accepted
    cases scanned : opts.scanField false cur with
    | error e => simp [scanned] at accepted
    | ok f =>
      have scans := (finds_scanField same apart).2 f scanned
      intro k inside piece here
      rw [scans.pieces] at here
      cases k with
      | zero =>
        obtain rfl : f.raw = piece := by simpa using here
        exact scans.closes
      | succ k =>
        cases found : f.foundDelim with
        | false => simp [found] at here
        | true =>
          simp only [scanned, found, if_true] at accepted
          rw [if_neg (by omega)] at accepted
          rw [found, if_pos rfl, getElem?_cons_succ] at here
          exact ih (by omega) accepted k (by omega) piece here

end

/-- What the parser records of a line of any length: the positions are stored in 16 bits. -/
theorem noDBCopyReadAttributesCSV_recorded (same : opts.escape = opts.quote) (apart : opts.delim ≠ opts.quote)
    {line : List Byte} {attributes : Nat → PMPair} (start : (attributes 0).pointer = 0) {nfields lastfield : Nat}
    (inside : lastfield < nfields) (closed : opts.ClosedUpTo lastfield line) :
    ∃ st, opts.noDBCopyReadAttributesCSV nfields lastfield line attributes = .ok st ∧
      ∀ k ≤ lastfield, ∀ piece, (opts.pieces false line)[k]? = some piece →
        st.attributes k = ⟨UInt16.ofNat (Pieces.start (opts.pieces false line) k), UInt16.ofNat piece.length⟩ ∧
          st.fieldStrings k = opts.pieceString piece := by
  obtain ⟨st, run, -, recorded⟩ := readAttributes_pieces same apart (Nat.zero_le lastfield)
    (by rw [zero_add]; exact inside)
    (show ((⟨attributes, fun _ => .stale⟩ : FieldState).attributes 0).pointer = UInt16.ofNat 0 from start) closed
  refine ⟨st, by rw [noDBCopyReadAttributesCSV, if_neg (by omega), run], fun k le piece here => ?_⟩
  have := recorded k le piece here
  rwa [zero_add, zero_add] at this

end

end CsvOptions

end PostgresRaw
