import PostgresRaw.Csv.Attributes
import PostgresRaw.Library.Lists

/-!
# From field text to values: the two access paths

`NoDBGetValues` converts the texts that the CSV parser left in `field_strings`;
`NoDBGetValuesWithPM` converts the raw bytes that a positional pair points at, after
writing a `'\0'` behind them in `line_buf`.  Both hand a C string to the type-input
function of the column or set the column to NULL, and the question is when they do the
same.

They do not always: the parser removes quotes and takes an empty field for NULL, while
the positional path keeps quotes and takes the two bytes `\N` for NULL.
`noDBGetValuesWithPM_eq_iff` is the exact condition on the raw field.
-/

namespace PostgresRaw

open List

/-- An entry of `cstate->values` with its entry of `cstate->nulls`.  `garbage` stands for
a datum read from memory that nothing has written. -/
inductive Value (D : Type) where
  | garbage
  | null
  | datum (d : D)
deriving DecidableEq, Repr

/-- The type-input functions of the columns (`cstate->fcinfo`); `none` is an error. -/
abbrev InputFunctions (D : Type) := Nat → List Byte → Option D

/-- `FunctionCallInvoke` on a field text, or NULL. -/
def inputValue {D : Type} (input : InputFunctions D) (i : Nat) : FieldString → Option (Value D)
  | .stale => some .garbage
  | .null => some .null
  | .text string => (input i string).map .datum

/-- The C string behind `field_strings[i]`. -/
def FieldString.string : FieldString → FieldString
  | .text out => .text (cString out)
  | other => other

/-- `NoDBGetValues`; `none` is an error raised by a type-input function. -/
def noDBGetValues {D : Type} (input : InputFunctions D) (fieldStrings : Nat → FieldString) :
    (cols : List Nat) → (values : Nat → Value D) → Option (Nat → Value D)
  | [], values => some values
  | i :: cols, values =>
    match inputValue input i (fieldStrings i).string with
    | none => none
    | some v => noDBGetValues input fieldStrings cols (Function.update values i v)

/-- `string[bytesToRead] = '\0'` for the field that `pair` describes. -/
def terminateField (lineBuf : List Byte) (pair : PMPair) : List Byte :=
  lineBuf.set (pair.pointer.toNat + pair.width.toNat) nulByte

/-- The text at `line_buf.data + pair.pointer`, which is NULL if it is the two bytes `\N`. -/
def positionString (lineBuf : List Byte) (pair : PMPair) : FieldString :=
  let string := cString (lineBuf.drop pair.pointer.toNat)
  if string = [backslash, 78] then .null else .text string

/-- `NoDBGetValuesWithPM`: `line_buf` and the values after the loop. -/
def noDBGetValuesWithPM {D : Type} (input : InputFunctions D) (attributes : Nat → PMPair) :
    (cols : List Nat) → (lineBuf : List Byte) → (values : Nat → Value D) →
      Option (List Byte × (Nat → Value D))
  | [], lineBuf, values => some (lineBuf, values)
  | i :: cols, lineBuf, values =>
    let lineBuf := terminateField lineBuf (attributes i)
    match inputValue input i (positionString lineBuf (attributes i)) with
    | none => none
    | some v => noDBGetValuesWithPM input attributes cols lineBuf (Function.update values i v)

/-! ### C strings of a field, before and after de-quoting -/

@[simp] theorem cString_nil : cString [] = [] := rfl

theorem cString_cons (c : Byte) (bytes : List Byte) :
    cString (c :: bytes) = if c = nulByte then [] else c :: cString bytes := by
  by_cases h : c = nulByte <;> simp [cString, h]

@[simp] theorem cString_quote_cons (bytes : List Byte) :
    cString (defaultQuote :: bytes) = defaultQuote :: cString bytes := by
  rw [cString_cons, if_neg (by decide)]

/-- A `'\0'` ends the C string that it follows. -/
theorem cString_append_nul (bytes rest : List Byte) : cString (bytes ++ nulByte :: rest) = cString bytes := by
  induction bytes with
  | nil => simp [cString_cons]
  | cons c bytes ih => simp only [cons_append, cString_cons, ih]

namespace Scans

variable {fmt : CsvFormat} {inQuote : Bool} {cur : List Byte} {f : FieldScan}

/-- De-quoting never makes the C string longer. -/
theorem cString_out_length_le (scan : Scans fmt inQuote cur f) : (cString f.out).length ≤ (cString f.raw).length := by
  induction scan with
  | endOfLine => simp
  | delim cur => simp
  | openQuote _ ih => simp only [FieldScan.openQuote, cString_quote_cons, length_cons]; omega
  | @copy c _ _ _ _ _ ih =>
    by_cases h : c = nulByte <;> simp [FieldScan.copy, cString_cons, h, ih]
  | escaped _ ih =>
    simp only [FieldScan.escaped, cString_quote_cons, length_cons]; omega
  | closeQuote _ ih =>
    simp only [FieldScan.closeQuote, cString_quote_cons, length_cons]; omega
  | @quotedCopy c _ _ _ _ ih =>
    by_cases h : c = nulByte <;> simp [FieldScan.copy, cString_cons, h, ih]

/-- The C string is the raw one unless there is a quote before the first `'\0'`; a quote is removed. -/
theorem cString_out_eq_iff (scan : Scans fmt inQuote cur f) (outside : inQuote = false) :
    cString f.out = cString f.raw ↔ defaultQuote ∉ cString f.raw := by
  induction scan with
  | endOfLine => simp
  | delim cur => simp
  | openQuote inner _ =>
    have shorter := inner.cString_out_length_le
    refine iff_of_false (fun same => ?_) (by simp [FieldScan.openQuote])
    have := congrArg length same
    simp only [FieldScan.openQuote, cString_quote_cons, length_cons] at this
    omega
  | @copy c _ f _ notQuote _ ih =>
    by_cases h : c = nulByte <;> simp [FieldScan.copy, cString_cons, h, Ne.symm notQuote, ih rfl]
  | escaped _ _ => cases outside
  | closeQuote _ _ => cases outside
  | quotedCopy _ _ _ => cases outside

end Scans

/-! ### One field on either path -/

/-- What the positional path makes of a raw field. -/
def rawString (raw : List Byte) : FieldString :=
  if cString raw = [backslash, 78] then .null else .text (cString raw)

/-- The raw fields that both paths treat alike: not empty, and as a C string neither the
two bytes `\N` nor one with a quote in it. -/
def PathIndependent (raw : List Byte) : Prop :=
  raw ≠ [] ∧ cString raw ≠ [backslash, 78] ∧ defaultQuote ∉ cString raw

instance (raw : List Byte) : Decidable (PathIndependent raw) :=
  inferInstanceAs (Decidable (_ ∧ _ ∧ _))

variable {f : FieldScan} {fields : List FieldScan} {i : Nat} {lineBuf : List Byte} {attributes : Nat → PMPair}

/-- **One field, both decoders.**  The de-quoting decoder and the raw one give the same
text exactly for the fields of `PathIndependent`. -/
theorem fieldString_eq_rawString_iff {fmt : CsvFormat} {cur : List Byte} (scan : Scans fmt false cur f) :
    (f.fieldString fmt).string = rawString f.raw ↔ PathIndependent f.raw := by
  by_cases empty : f.raw = []
  · have noQuote : f.sawQuote = false := (scan.sawQuote_eq_false_iff rfl).mpr (by simp [empty])
    simp [PathIndependent, FieldScan.fieldString, FieldString.string, rawString, empty, noQuote]
  · have text : (f.fieldString fmt).string = .text (cString f.out) := by
      simp [FieldScan.fieldString, FieldString.string, empty]
    rw [text, rawString]
    by_cases marker : cString f.raw = [backslash, 78]
    · simp [PathIndependent, marker]
    · rw [if_neg marker, FieldString.text.injEq]
      exact (scan.cString_out_eq_iff rfl).trans ⟨fun unquoted => ⟨empty, marker, unquoted⟩, fun h => h.2.2⟩

/-! ### The conversion loops -/

/-- `NoDBGetValues` sets the columns it is given and no other. -/
theorem noDBGetValues_eq {D : Type} {input : InputFunctions D} {fieldStrings : Nat → FieldString}
    {converted : Nat → Value D} {cols : List Nat}
    (converts : ∀ i ∈ cols, inputValue input i (fieldStrings i).string = some (converted i)) (values : Nat → Value D) :
    noDBGetValues input fieldStrings cols values =
      some (fun c => if c ∈ cols then converted c else values c) := by
  induction cols generalizing values with
  | nil => simp [noDBGetValues]
  | cons i cols ih =>
    rw [noDBGetValues, converts i (by simp)]
    simp only
    rw [ih (fun j mem => converts j (mem_cons_of_mem _ mem)), Lists.ite_mem_update]

/-- `attributes[i]` holds the exact position and width of field `i` of the line. -/
def HoldsRawField (fields : List FieldScan) (attributes : Nat → PMPair) (i : Nat) : Prop :=
  ∃ f, fields[i]? = some f ∧ (attributes i).pointer.toNat = fieldStart fields i ∧
    (attributes i).width.toNat = f.raw.length

/-- `line_buf` still holds every field of the line it was filled with, whatever the
conversion has written between the fields. -/
def FieldsIntact (fields : List FieldScan) (lineBuf : List Byte) : Prop :=
  ∀ k f, fields[k]? = some f → (lineBuf.drop (fieldStart fields k)).take f.raw.length = f.raw

theorem Fields.intact {fmt : CsvFormat} {line : List Byte} (split : Fields fmt line fields) :
    FieldsIntact fields line := by
  intro k f here
  rw [(split.drop_fieldStart here).split, take_left]

/-- A later field starts behind the byte that follows an earlier one. -/
theorem fieldStart_lt {k : Nat} (here : fields[i]? = some f) (before : i < k) :
    fieldStart fields i + f.raw.length < fieldStart fields k := by
  induction fields generalizing i k with
  | nil => simp at here
  | cons g fields ih =>
    obtain ⟨k, rfl⟩ : ∃ k', k = k' + 1 := ⟨k - 1, by omega⟩
    cases i with
    | zero =>
      simp only [getElem?_cons_zero, Option.some.injEq] at here
      simp only [here, fieldStart_zero, fieldStart_cons_succ]
      omega
    | succ i =>
      have := ih (i := i) (k := k) (by simpa using here) (by omega)
      simp only [fieldStart_cons_succ]
      omega

/-- Terminating a field writes behind it, and so into no field. -/
theorem FieldsIntact.terminateField (intact : FieldsIntact fields lineBuf) (exact : HoldsRawField fields attributes i) :
    FieldsIntact fields (terminateField lineBuf (attributes i)) := by
  obtain ⟨g, there, pointer, width⟩ := exact
  intro k f here
  rw [PostgresRaw.terminateField, pointer, width]
  rcases lt_trichotomy i k with before | same | after
  · have outside := fieldStart_lt there before
    rw [drop_set_of_lt outside]
    exact intact k f here
  · subst same
    obtain rfl : g = f := Option.some.inj (there.symm.trans here)
    rw [drop_set, if_neg (by omega), Nat.add_sub_cancel_left, take_set_of_le le_rfl]
    exact intact i g here
  · have outside := fieldStart_lt here after
    rw [drop_set, if_neg (by omega), take_set_of_le (by omega)]
    exact intact k f here

/-- The text that the positional path sees in a terminated field. -/
theorem positionString_terminateField (intact : FieldsIntact fields lineBuf) (here : fields[i]? = some f)
    (exact : HoldsRawField fields attributes i) :
    positionString (terminateField lineBuf (attributes i)) (attributes i) = rawString f.raw := by
  obtain ⟨g, there, pointer, width⟩ := exact
  obtain rfl : g = f := Option.some.inj (there.symm.trans here)
  have field := intact i g here
  have text : cString ((terminateField lineBuf (attributes i)).drop
      (attributes i).pointer.toNat) = cString g.raw := by
    rw [terminateField, pointer, width, drop_set, if_neg (by omega), Nat.add_sub_cancel_left]
    generalize lineBuf.drop (fieldStart fields i) = rest at field
    have split : rest = g.raw ++ rest.drop g.raw.length := by
      conv_lhs => rw [← take_append_drop g.raw.length rest, field]
    rw [split]
    cases rest.drop g.raw.length with
    | nil => rw [append_nil, set_eq_of_length_le le_rfl]
    | cons next tail =>
      rw [set_append_right _ _ le_rfl, Nat.sub_self, set_cons_zero, cString_append_nul]
  rw [positionString, rawString]
  simp only [text]

/-- `NoDBGetValuesWithPM` sets the columns it is given and no other, and leaves the fields
of the line intact. -/
theorem noDBGetValuesWithPM_eq {D : Type} {input : InputFunctions D} {converted : Nat → Value D} {cols : List Nat}
    (exact : ∀ i ∈ cols, HoldsRawField fields attributes i) (converts : ∀ i ∈ cols, ∀ f, fields[i]? = some f →
      inputValue input i (rawString f.raw) = some (converted i)) (intact : FieldsIntact fields lineBuf)
    (values : Nat → Value D) : ∃ lineBuf', noDBGetValuesWithPM input attributes cols lineBuf values =
        some (lineBuf', fun c => if c ∈ cols then converted c else values c) ∧
      FieldsIntact fields lineBuf' := by
  induction cols generalizing lineBuf values with
  | nil => exact ⟨lineBuf, by simp [noDBGetValuesWithPM], intact⟩
  | cons i cols ih =>
    have exactHere := exact i (by simp)
    obtain ⟨f, here, -⟩ := exactHere
    have string := positionString_terminateField intact here (exact i (by simp))
    obtain ⟨lineBuf', rest, intact'⟩ := ih
      (fun j mem => exact j (mem_cons_of_mem _ mem))
      (fun j mem => converts j (mem_cons_of_mem _ mem))
      (intact.terminateField (exact i (by simp))) (Function.update values i (converted i))
    refine ⟨lineBuf', ?_, intact'⟩
    rw [noDBGetValuesWithPM, string, converts i (by simp) f here]
    simp only
    rw [rest, Lists.ite_mem_update]

/-! ### The two paths compared -/

/-- Input functions that return what they are handed, so that it can be compared. -/
def handed : InputFunctions (List Byte) := fun _ string => some string

/-- The value that `handed` makes of a field text. -/
def FieldString.handedValue : FieldString → Value (List Byte)
  | .stale => .garbage
  | .null => .null
  | .text string => .datum string

theorem inputValue_handed (i : Nat) (string : FieldString) : inputValue handed i string = some string.handedValue := by
  cases string <;> rfl

theorem FieldString.handedValue_inj {string string' : FieldString} :
    string.handedValue = string'.handedValue ↔ string = string' := by
  cases string <;> cases string' <;> simp [FieldString.handedValue]

/-- **When the access path does not matter.**  For a line that the parser accepts and any
columns whose positional pairs are exact, the positional path hands the input function of a
column the text that the parser's path hands it (or makes it NULL when that path does)
exactly when the raw field is one of `PathIndependent`. -/
theorem noDBGetValuesWithPM_agrees_iff {fmt : CsvFormat} {maxfields lastfield : Nat}
    {line : List Byte} {attributes₀ : Nat → PMPair} {st : FieldState} {fields : List FieldScan}
    (accepted : noDBCopyReadAttributesCSV fmt maxfields lastfield line attributes₀ = .ok st)
    (split : csvFields fmt lastfield maxfields 0 line = .ok fields)
    {cols : List Nat} {attributes : Nat → PMPair}
    (exact : ∀ i ∈ cols, HoldsRawField fields attributes i)
    {c : Nat} (mem : c ∈ cols) {f : FieldScan} (here : fields[c]? = some f)
    (values : Nat → Value (List Byte)) :
    (noDBGetValuesWithPM handed attributes cols line values).map (fun result => result.2 c) =
        (noDBGetValues handed st.fieldStrings cols values).map (fun values => values c) ↔
      PathIndependent f.raw := by
  have lineFields := fields_of_csvFields split
  -- A line with a field has been parsed by the outer loop, not by the zero-column case.
  have positive : 0 < maxfields := by
    rcases Nat.eq_zero_or_pos maxfields with rfl | positive
    · cases split
    · exact positive
  have strings : st.fieldStrings c = f.fieldString fmt := by
    rw [noDBCopyReadAttributesCSV_eq fmt positive, split] at accepted
    cases accepted
    simpa using (@recordAll_field fmt 0 0 fields ⟨attributes₀, fun _ => .stale⟩ c f here).1
  let raw : Nat → Value (List Byte) := fun i =>
    match fields[i]? with
    | some g => (rawString g.raw).handedValue
    | none => .garbage
  have converts : ∀ i ∈ cols, ∀ g, fields[i]? = some g →
      inputValue handed i (rawString g.raw) = some (raw i) :=
    fun i _ g there => by simp [raw, there, inputValue_handed]
  obtain ⟨lineBuf', positional, -⟩ :=
    noDBGetValuesWithPM_eq exact converts lineFields.intact values
  rw [positional, noDBGetValues_eq (fun i _ => inputValue_handed i _) values]
  simp only [Option.map_some, mem, if_true, Option.some.injEq, raw, here, strings]
  rw [FieldString.handedValue_inj, eq_comm]
  exact fieldString_eq_rawString_iff (lineFields.drop_fieldStart here)

/-- The theorem at the line `a,b`, both columns read through their pairs. -/
theorem noDBGetValuesWithPM_agrees_plain :
    PathIndependent [98] ∧
      (noDBGetValuesWithPM handed (fun i => ⟨if i = 0 then 0 else 2, 1⟩) [0, 1] [97, 44, 98]
          (fun _ => .null)).map (fun result => result.2 1) = some (.datum [98]) := by
  have accepted :
      noDBCopyReadAttributesCSV commaFormat 2 1 [97, 44, 98] (fun _ => ⟨0, 0⟩) = .ok _ := rfl
  have split : csvFields commaFormat 1 2 0 [97, 44, 98] =
      .ok [⟨[97], [97], true, false, [98]⟩, ⟨[98], [98], false, false, []⟩] := rfl
  have exact : ∀ i ∈ ([0, 1] : List Nat), HoldsRawField
      [⟨[97], [97], true, false, [98]⟩, ⟨[98], [98], false, false, []⟩]
      (fun i => ⟨if i = 0 then 0 else 2, 1⟩) i := by
    simp [HoldsRawField, fieldStart]
  have agrees := (noDBGetValuesWithPM_agrees_iff accepted split exact
    (by decide : 1 ∈ [0, 1]) rfl (fun _ => .null)).mpr (by decide)
  exact ⟨by decide, by rw [agrees]; rfl⟩

/-- An empty field of `a,,c` is NULL for the parser and the empty text for the positional
path, although the pair recorded by the parser itself is used. -/
theorem noDBGetValuesWithPM_emptyField :
    ∃ st, noDBCopyReadAttributesCSV commaFormat 3 2 [97, 44, 44, 99] (fun _ => ⟨0, 0⟩) = .ok st ∧
      (noDBGetValuesWithPM handed st.attributes [1] [97, 44, 44, 99]
        (fun _ => .null)).map (fun result => result.2 1) = some (.datum []) ∧
      (noDBGetValues handed st.fieldStrings [1] (fun _ => .null)).map
        (fun values => values 1) = some .null :=
  ⟨_, rfl, by decide, by decide⟩

end PostgresRaw
