import PostgresRaw.Basic

/-!
# Splitting a line: `NoDBCopyReadAttributesCSV`

The CSV parser of `NoDBExecutor.c`.  It walks over `line_buf` once, writes the
de-quoted text of each field to `attribute_buf`, and records for each field where
its raw bytes start and how many they are, which is what the positional maps store.

`scanField` is the pair of inner loops (outside and inside quotes) for one field,
`readAttributes` the outer loop.  The outer loop stops after `lastfield`, the last
column the query needs, and so never looks at the rest of the line.

`csvFields` lists the fields that the outer loop visits.  All later reasoning about
the parser goes through it: `noDBCopyReadAttributesCSV_eq` says that the parser is
that list recorded field by field, and `recordAll_field` what is then recorded.
-/

namespace PostgresRaw

open List

/-- The two `ereport(ERROR, ..)` calls of the parser. -/
inductive CsvError where
  | extraData
  | unterminatedQuotedField
deriving DecidableEq, Repr

/-- What one run of the inner loops leaves: the bytes written through `output_ptr`, the
raw bytes from `start_ptr` to `end_ptr`, the two flags, and what `cur_ptr` points at. -/
structure FieldScan where
  out : List Byte
  raw : List Byte
  foundDelim : Bool
  sawQuote : Bool
  rest : List Byte
deriving DecidableEq, Repr

namespace FieldScan

/-- A byte that belongs to the field and is copied to the output. -/
def copy (c : Byte) (f : FieldScan) : FieldScan := { f with out := c :: f.out, raw := c :: f.raw }

/-- A quote that opens a quoted part. -/
def openQuote (c : Byte) (f : FieldScan) : FieldScan :=
  { f with raw := c :: f.raw, sawQuote := true }

/-- A quote that closes a quoted part. -/
def closeQuote (c : Byte) (f : FieldScan) : FieldScan := { f with raw := c :: f.raw }

/-- An escape byte and the byte it protects, of which only the second is copied. -/
def escaped (c nextc : Byte) (f : FieldScan) : FieldScan :=
  { f with out := nextc :: f.out, raw := c :: nextc :: f.raw }

end FieldScan

/-- The inner loops for one field, `inQuote` saying which of the two is running.  The
escape test comes before the quote test, as in the source, because the two bytes are
the same by default. -/
def scanField (fmt : CsvFormat) : (inQuote : Bool) → List Byte → Except CsvError FieldScan
  | false, [] => .ok ⟨[], [], false, false, []⟩
  | false, c :: cur =>
    if c = fmt.delim then .ok ⟨[], [], true, false, cur⟩
    else if c = fmt.quote then (scanField fmt true cur).map (·.openQuote c)
    else (scanField fmt false cur).map (·.copy c)
  | true, [] => .error .unterminatedQuotedField
  | true, [c] =>
    if c = fmt.quote then (scanField fmt false []).map (·.closeQuote c)
    else .error .unterminatedQuotedField
  | true, c :: nextc :: cur =>
    if c = fmt.escape ∧ (nextc = fmt.escape ∨ nextc = fmt.quote) then
      (scanField fmt true cur).map (·.escaped c nextc)
    else if c = fmt.quote then (scanField fmt false (nextc :: cur)).map (·.closeQuote c)
    else (scanField fmt true (nextc :: cur)).map (·.copy c)

/-- What `cstate->field_strings[i]` points at.  An entry that the current line did not set
still points into `attribute_buf`, which the current line has overwritten: nothing is
known about the text there. -/
inductive FieldString where
  | stale
  | null
  | text (out : List Byte)
deriving DecidableEq, Repr

/-- The test against the null marker: only a field without quotes can be NULL. -/
def FieldScan.fieldString (fmt : CsvFormat) (f : FieldScan) : FieldString :=
  if f.sawQuote = false ∧ f.raw = fmt.nullPrint then .null else .text f.out

/-- The two arrays of the scan state that parsing a line fills. -/
structure FieldState where
  attributes : Nat → PMPair
  fieldStrings : Nat → FieldString

/-- The bookkeeping after `endfield`: `totalLength` already includes the field's own
bytes, and the width is computed from the two pointers. -/
def FieldState.record (fmt : CsvFormat) (st : FieldState) (fieldno totalLength : Nat)
    (f : FieldScan) : FieldState :=
  let next : UInt16 := UInt16.ofNat (totalLength + 1)
  let here := st.attributes fieldno
  { attributes :=
      Function.update
        (Function.update st.attributes (fieldno + 1)
          { st.attributes (fieldno + 1) with pointer := next })
        fieldno { here with width := next - here.pointer - 1 }
    fieldStrings := Function.update st.fieldStrings fieldno (f.fieldString fmt) }

/-- The outer loop.  `remaining` is `maxfields - fieldno`, so that its zero is the test
`fieldno >= maxfields`. -/
def readAttributes (fmt : CsvFormat) (lastfield : Nat) :
    (remaining fieldno totalLength : Nat) → List Byte → FieldState → Except CsvError FieldState
  | 0, _, _, _, _ => .error .extraData
  | remaining + 1, fieldno, totalLength, cur, st =>
    match scanField fmt false cur with
    | .error e => .error e
    | .ok f =>
      let totalLength := totalLength + f.raw.length
      let st := st.record fmt fieldno totalLength f
      if fieldno = lastfield then .ok st
      else if f.foundDelim then
        readAttributes fmt lastfield remaining (fieldno + 1) (totalLength + 1) f.rest st
      else .ok st

/-- `NoDBCopyReadAttributesCSV` on the line in `line_buf`. -/
def noDBCopyReadAttributesCSV (fmt : CsvFormat) (maxfields lastfield : Nat) (line : List Byte)
    (attributes : Nat → PMPair) : Except CsvError FieldState :=
  if maxfields = 0 then
    if line.length ≠ 0 then .error .extraData else .ok ⟨attributes, fun _ => .stale⟩
  else readAttributes fmt lastfield maxfields 0 0 line ⟨attributes, fun _ => .stale⟩

/-! ### One field -/

/-- The branches of `scanField` that end without an error, one constructor for each.
The close of a quoted part is the branch where the next byte is not another quote. -/
inductive Scans (fmt : CsvFormat) : Bool → List Byte → FieldScan → Prop where
  | endOfLine : Scans fmt false [] ⟨[], [], false, false, []⟩
  | delim (cur : List Byte) : Scans fmt false (fmt.delim :: cur) ⟨[], [], true, false, cur⟩
  | openQuote {cur f} : Scans fmt true cur f →
      Scans fmt false (defaultQuote :: cur) (f.openQuote defaultQuote)
  | copy {c cur f} : c ≠ fmt.delim → c ≠ defaultQuote → Scans fmt false cur f →
      Scans fmt false (c :: cur) (f.copy c)
  | escaped {cur f} : Scans fmt true cur f →
      Scans fmt true (defaultQuote :: defaultQuote :: cur) (f.escaped defaultQuote defaultQuote)
  | closeQuote {cur f} : Scans fmt false cur f →
      Scans fmt true (defaultQuote :: cur) (f.closeQuote defaultQuote)
  | quotedCopy {c cur f} : c ≠ defaultQuote → Scans fmt true cur f →
      Scans fmt true (c :: cur) (f.copy c)

theorem map_eq_ok {ε α β : Type} {x : Except ε α} {g : α → β} {b : β}
    (mapped : x.map g = .ok b) : ∃ a, x = .ok a ∧ g a = b := by
  cases x with
  | error e => cases mapped
  | ok a => exact ⟨a, rfl, Except.ok.inj mapped⟩

variable {fmt : CsvFormat} {cur : List Byte}

/-- **What the inner loops can do.**  Every later fact about one field is an induction
over `Scans`. -/
theorem scans_of_scanField {inQuote : Bool} {f : FieldScan} (scanned : scanField fmt inQuote cur = .ok f) :
    Scans fmt inQuote cur f := by
  fun_induction scanField fmt inQuote cur generalizing f with
  | case1 => cases scanned; exact .endOfLine
  | case2 cur => cases scanned; exact .delim cur
  | case3 cur _ ih =>
    obtain ⟨f, inner, rfl⟩ := map_eq_ok scanned
    exact .openQuote (ih inner)
  | case4 c cur notDelim notQuote ih =>
    obtain ⟨f, inner, rfl⟩ := map_eq_ok scanned
    exact .copy notDelim notQuote (ih inner)
  | case5 => cases scanned
  | case6 ih =>
    obtain ⟨f, inner, rfl⟩ := map_eq_ok scanned
    exact .closeQuote (ih inner)
  | case7 => cases scanned
  | case8 c nextc cur escape ih =>
    obtain ⟨f, inner, rfl⟩ := map_eq_ok scanned
    obtain ⟨rfl, rfl | rfl⟩ := escape <;> exact .escaped (ih inner)
  | case9 nextc cur _ ih =>
    obtain ⟨f, inner, rfl⟩ := map_eq_ok scanned
    exact .closeQuote (ih inner)
  | case10 c nextc cur _ notQuote ih =>
    obtain ⟨f, inner, rfl⟩ := map_eq_ok scanned
    exact .quotedCopy notQuote (ih inner)

namespace Scans

variable {fmt : CsvFormat} {inQuote : Bool} {cur : List Byte} {f : FieldScan}

/-- The scanned bytes are the raw field, followed by the delimiter that ended it or by
nothing. -/
theorem split (scan : Scans fmt inQuote cur f) :
    cur = f.raw ++ (if f.foundDelim then fmt.delim :: f.rest else []) := by
  induction scan with
  | endOfLine => rfl
  | delim cur => rfl
  | openQuote _ ih => rw [ih]; rfl
  | copy _ _ _ ih => rw [ih]; rfl
  | escaped _ ih => rw [ih]; rfl
  | closeQuote _ ih => rw [ih]; rfl
  | quotedCopy _ _ ih => rw [ih]; rfl

theorem split_delim (scan : Scans fmt inQuote cur f) (found : f.foundDelim = true) :
    cur = f.raw ++ fmt.delim :: f.rest := by
  have line := scan.split
  rwa [found, if_pos rfl] at line

/-- Outside quotes, the flag records whether the raw field has a quote. -/
theorem sawQuote_eq_false_iff (scan : Scans fmt inQuote cur f) (outside : inQuote = false) :
    f.sawQuote = false ↔ defaultQuote ∉ f.raw := by
  induction scan with
  | endOfLine => simp
  | delim cur => simp
  | openQuote _ _ => simp [FieldScan.openQuote]
  | copy _ notQuote _ ih => simp [FieldScan.copy, ih rfl, Ne.symm notQuote]
  | escaped _ _ => cases outside
  | closeQuote _ _ => cases outside
  | quotedCopy _ _ _ => cases outside

end Scans

/-! ### The fields of a line -/

/-- The fields that the outer loop visits, in order. -/
def csvFields (fmt : CsvFormat) (lastfield : Nat) :
    (remaining fieldno : Nat) → List Byte → Except CsvError (List FieldScan)
  | 0, _, _ => .error .extraData
  | remaining + 1, fieldno, cur =>
    match scanField fmt false cur with
    | .error e => .error e
    | .ok f =>
      if fieldno = lastfield then .ok [f]
      else if f.foundDelim then
        (csvFields fmt lastfield remaining (fieldno + 1) f.rest).map (f :: ·)
      else .ok [f]

/-- The bookkeeping of the outer loop for a list of fields. -/
def FieldState.recordAll (fmt : CsvFormat) :
    (fieldno totalLength : Nat) → List FieldScan → FieldState → FieldState
  | _, _, [], st => st
  | fieldno, totalLength, f :: fields, st =>
    recordAll fmt (fieldno + 1) (totalLength + f.raw.length + 1) fields
      (st.record fmt fieldno (totalLength + f.raw.length) f)

/-- The outer loop records the fields it visits, one after the other. -/
theorem readAttributes_eq (fmt : CsvFormat) (lastfield remaining fieldno totalLength : Nat)
    (cur : List Byte) (st : FieldState) :
    readAttributes fmt lastfield remaining fieldno totalLength cur st =
      (csvFields fmt lastfield remaining fieldno cur).map
        (fun fields => st.recordAll fmt fieldno totalLength fields) := by
  induction remaining generalizing fieldno totalLength cur st with
  | zero => rfl
  | succ remaining ih =>
    simp only [readAttributes, csvFields]
    cases scanField fmt false cur with
    | error e => rfl
    | ok f =>
      by_cases last : fieldno = lastfield
      · simp [last, Except.map, FieldState.recordAll]
      · cases found : f.foundDelim with
        | false => simp [last, found, Except.map, FieldState.recordAll]
        | true =>
          simp only [last, found, if_false, if_true, ih]
          cases csvFields fmt lastfield remaining (fieldno + 1) f.rest <;> rfl

/-- `noDBCopyReadAttributesCSV` records the fields of the line from a clean state. -/
theorem noDBCopyReadAttributesCSV_eq (fmt : CsvFormat) {maxfields : Nat} (positive : 0 < maxfields)
    (lastfield : Nat) (line : List Byte) (attributes : Nat → PMPair) :
    noDBCopyReadAttributesCSV fmt maxfields lastfield line attributes =
      (csvFields fmt lastfield maxfields 0 line).map
        (fun fields => FieldState.recordAll fmt 0 0 fields ⟨attributes, fun _ => .stale⟩) := by
  rw [noDBCopyReadAttributesCSV, if_neg (Nat.pos_iff_ne_zero.mp positive), readAttributes_eq]

/-- A line that starts with the fields `fields`, each but the last ended by a delimiter. -/
inductive Fields (fmt : CsvFormat) : List Byte → List FieldScan → Prop where
  | last {cur f} : Scans fmt false cur f → Fields fmt cur [f]
  | cons {cur f fields} : Scans fmt false cur f → f.foundDelim = true →
      Fields fmt f.rest fields → Fields fmt cur (f :: fields)

theorem fields_of_csvFields {lastfield remaining fieldno : Nat} {fields : List FieldScan}
    (parsed : csvFields fmt lastfield remaining fieldno cur = .ok fields) : Fields fmt cur fields := by
  induction remaining generalizing fieldno cur fields with
  | zero => cases parsed
  | succ remaining ih =>
    simp only [csvFields] at parsed
    cases scanned : scanField fmt false cur with
    | error e => simp [scanned] at parsed
    | ok f =>
      have scan := scans_of_scanField scanned
      simp only [scanned] at parsed
      split at parsed
      · cases parsed; exact .last scan
      · split at parsed
        · obtain ⟨others, inner, rfl⟩ := map_eq_ok parsed
          exact .cons scan ‹_› (ih inner)
        · cases parsed; exact .last scan

/-- Where field `k` of the line starts. -/
def fieldStart (fields : List FieldScan) (k : Nat) : Nat :=
  ((fields.take k).map (fun f => f.raw.length + 1)).sum

@[simp] theorem fieldStart_zero (fields : List FieldScan) : fieldStart fields 0 = 0 := by
  simp [fieldStart]

@[simp] theorem fieldStart_cons_succ (f : FieldScan) (fields : List FieldScan) (k : Nat) :
    fieldStart (f :: fields) (k + 1) = f.raw.length + 1 + fieldStart fields k := by
  simp [fieldStart]

theorem fieldStart_succ {fields : List FieldScan} {k : Nat} {f : FieldScan}
    (here : fields[k]? = some f) :
    fieldStart fields (k + 1) = fieldStart fields k + f.raw.length + 1 := by
  rw [fieldStart, take_add_one, here, Option.toList_some, map_append, sum_append, map_singleton, sum_singleton]
  exact (Nat.add_assoc _ _ _).symm

/-- From the start of a field on, the line holds that field and the later ones. -/
theorem Fields.drop {fields : List FieldScan} (split : Fields fmt cur fields) {k : Nat} (inside : k < fields.length) :
    Fields fmt (cur.drop (fieldStart fields k)) (fields.drop k) := by
  induction split generalizing k with
  | @last cur f scan =>
    obtain rfl : k = 0 := by simpa using inside
    simpa using .last scan
  | @cons cur f fields scan found rest ih =>
    cases k with
    | zero => simpa using .cons scan found rest
    | succ k =>
      have skipped : cur.drop (f.raw.length + 1) = f.rest := by
        rw [scan.split_delim found, drop_append, drop_of_length_le (by omega), nil_append]
        simp
      rw [fieldStart_cons_succ, ← drop_drop, skipped]
      exact ih (by simpa using inside)

theorem Fields.drop_fieldStart {fields : List FieldScan} (split : Fields fmt cur fields) {k : Nat} {f : FieldScan}
    (here : fields[k]? = some f) : Scans fmt false (cur.drop (fieldStart fields k)) f := by
  obtain ⟨inside, rfl⟩ := List.getElem?_eq_some_iff.1 here
  have rest := split.drop inside
  rw [drop_eq_getElem_cons inside] at rest
  generalize fields.drop (k + 1) = others at rest
  cases rest <;> assumption

/-! ### What the parser records -/

/-- The width computed from two wrapped pointers is the wrapped width. -/
theorem ofNat_pointer_sub (start len : Nat) :
    UInt16.ofNat (start + len + 1) - UInt16.ofNat start - 1 = UInt16.ofNat len := by
  apply UInt16.toNat_inj.mp
  simp only [UInt16.toNat_sub, UInt16.toNat_ofNat', UInt16.toNat_one]
  omega

/-- Recording later fields leaves the earlier columns alone. -/
theorem recordAll_of_lt (fmt : CsvFormat) {fieldno col : Nat} (before : col < fieldno)
    (totalLength : Nat) (fields : List FieldScan) (st : FieldState) :
    (st.recordAll fmt fieldno totalLength fields).attributes col = st.attributes col ∧
      (st.recordAll fmt fieldno totalLength fields).fieldStrings col = st.fieldStrings col := by
  induction fields generalizing fieldno totalLength st with
  | nil => exact ⟨rfl, rfl⟩
  | cons f fields ih =>
    have before' : col < fieldno + 1 := by omega
    obtain ⟨pairs, strings⟩ := ih before' (totalLength + f.raw.length + 1)
      (st.record fmt fieldno (totalLength + f.raw.length) f)
    rw [FieldState.recordAll, pairs, strings]
    have notHere : col ≠ fieldno := by omega
    have notNext : col ≠ fieldno + 1 := by omega
    exact ⟨by simp [FieldState.record, notHere, notNext], by simp [FieldState.record, notHere]⟩

/-- **What one line leaves behind.**  The outer loop records the text of every field it visits under its column, and
the exact pair, if it starts from a state whose first pointer is right. -/
theorem recordAll_field (fmt : CsvFormat) {fieldno totalLength : Nat} {fields : List FieldScan} {st : FieldState}
    {k : Nat} {f : FieldScan} (here : fields[k]? = some f) :
    (st.recordAll fmt fieldno totalLength fields).fieldStrings (fieldno + k) = f.fieldString fmt ∧
      ((st.attributes fieldno).pointer = UInt16.ofNat totalLength →
        (st.recordAll fmt fieldno totalLength fields).attributes (fieldno + k) =
          ⟨UInt16.ofNat (totalLength + fieldStart fields k), UInt16.ofNat f.raw.length⟩) := by
  induction fields generalizing fieldno totalLength st k with
  | nil => simp at here
  | cons g fields ih =>
    cases k with
    | zero =>
      simp only [getElem?_cons_zero, Option.some.injEq] at here
      subst here
      obtain ⟨pairs, strings⟩ := recordAll_of_lt fmt (Nat.lt_add_one fieldno) (totalLength + g.raw.length + 1) fields
        (st.record fmt fieldno (totalLength + g.raw.length) g)
      have width := ofNat_pointer_sub totalLength g.raw.length
      simp only [FieldState.recordAll, Nat.add_zero, pairs, strings, fieldStart_zero]
      refine ⟨by simp [FieldState.record], fun start => ?_⟩
      simp only [FieldState.record, Function.update_self, start, width]
    | succ k =>
      have next : ((st.record fmt fieldno (totalLength + g.raw.length) g).attributes
          (fieldno + 1)).pointer = UInt16.ofNat (totalLength + g.raw.length + 1) := by
        simp [FieldState.record]
      have column : fieldno + (k + 1) = fieldno + 1 + k := by omega
      rw [FieldState.recordAll, column, fieldStart_cons_succ]
      refine ⟨(ih (by simpa using here)).1, fun _ => ((ih (by simpa using here)).2 next).trans ?_⟩
      congr 2
      omega

end PostgresRaw
