import Mathlib.Data.List.TakeWhile
import PostgresRaw.Csv.Navigation
import PostgresRaw.Csv.Values

/-!
# Plain lines

A plain line is made of nonempty fields without quotes, backslashes or line ends.  On such lines
everything that the previous modules put conditions on agrees: the parser finds the fields, both
access paths convert them alike, and navigation from any column finds the positions of all
others.  `viaPM_right` is the form in which the executor uses the last fact: navigation sets
the pairs it is asked for and breaks none that is right already.
-/

namespace PostgresRaw

open Option List

/-- A line with its fields, of which there are `natts`. -/
structure PlainRecord (fmt : CsvFormat) (natts : Nat) where
  fields : List (List Byte)
  count : fields.length = natts
  nonempty : ∀ f ∈ fields, f ≠ []
  undivided : ∀ f ∈ fields, fmt.delim ∉ f
  clean : ∀ b ∈ [fmt.delim].intercalate fields,
    b ≠ defaultQuote ∧ b ≠ backslash ∧ b ≠ carriageReturn ∧ b ≠ nulByte ∧ b ≠ newline
  /-- with its terminator the line has less than `2 ^ 15` bytes -/
  short : ([fmt.delim].intercalate fields).length < 32767

namespace PlainRecord

variable {fmt : CsvFormat} {natts : Nat}

/-- The line without its terminator. -/
def line (record : PlainRecord fmt natts) : List Byte := [fmt.delim].intercalate record.fields

end PlainRecord

/-! ### Parsing -/

/-- What the parser sees of the fields of a plain line. -/
def plainScans (fmt : CsvFormat) : List (List Byte) → List FieldScan
  | [] => []
  | [f] => [⟨f, f, false, false, []⟩]
  | f :: g :: fields =>
    ⟨f, f, true, false, [fmt.delim].intercalate (g :: fields)⟩ :: plainScans fmt (g :: fields)

section

variable {fmt : CsvFormat}

variable {f : List Byte}

theorem scanField_plain (undivided : fmt.delim ∉ f) (unquoted : defaultQuote ∉ f) (rest : List Byte) :
    scanField fmt false (f ++ fmt.delim :: rest) = .ok ⟨f, f, true, false, rest⟩ := by
  induction f with
  | nil => simp [scanField]
  | cons c f ih =>
    rw [mem_cons, not_or] at undivided unquoted
    rw [cons_append, scanField, if_neg (Ne.symm undivided.1), CsvFormat.quote_eq,
      if_neg (Ne.symm unquoted.1), ih undivided.2 unquoted.2]
    rfl

theorem scanField_plain_last (undivided : fmt.delim ∉ f) (unquoted : defaultQuote ∉ f) :
    scanField fmt false f = .ok ⟨f, f, false, false, []⟩ := by
  induction f with
  | nil => rfl
  | cons c f ih =>
    rw [mem_cons, not_or] at undivided unquoted
    rw [scanField, if_neg (Ne.symm undivided.1), CsvFormat.quote_eq,
      if_neg (Ne.symm unquoted.1), ih undivided.2 unquoted.2]
    rfl

@[simp] theorem plainScans_length (fields : List (List Byte)) : (plainScans fmt fields).length = fields.length := by
  fun_induction plainScans fmt fields with
  | case1 => rfl
  | case2 => rfl
  | case3 f g fields ih => simp [ih]

/-- The fields that the parser visits up to `lastfield`. -/
theorem csvFields_plain {fields : List (List Byte)} (some : fields ≠ [])
    (undivided : ∀ f ∈ fields, fmt.delim ∉ f) (unquoted : ∀ f ∈ fields, defaultQuote ∉ f)
    {remaining fieldno lastfield : Nat} (enough : fields.length ≤ remaining) (before : fieldno ≤ lastfield) :
    csvFields fmt lastfield remaining fieldno ([fmt.delim].intercalate fields) =
      .ok ((plainScans fmt fields).take (lastfield - fieldno + 1)) := by
  fun_induction plainScans fmt fields generalizing remaining fieldno with
  | case1 => exact absurd rfl some
  | case2 f =>
    obtain ⟨remaining, rfl⟩ : ∃ n, remaining = n + 1 := ⟨remaining - 1, by simp at enough; omega⟩
    rw [intercalate_singleton, csvFields, scanField_plain_last (undivided f (by simp)) (unquoted f (by simp))]
    simp
  | case3 f g fields ih =>
    obtain ⟨remaining, rfl⟩ : ∃ n, remaining = n + 1 := ⟨remaining - 1, by simp at enough; omega⟩
    rw [intercalate_cons_cons, append_assoc, singleton_append, csvFields,
      scanField_plain (undivided f (by simp)) (unquoted f (by simp))]
    by_cases last : fieldno = lastfield
    · subst last
      simp
    · have rest : csvFields fmt lastfield remaining (fieldno + 1) _ = _ :=
        ih (by simp) (fun f mem => undivided f (mem_cons_of_mem _ mem))
          (fun f mem => unquoted f (mem_cons_of_mem _ mem)) (by simpa using enough) (by omega)
      simp only [if_neg last, if_true, rest]
      rw [show lastfield - fieldno + 1 = lastfield - (fieldno + 1) + 1 + 1 by omega, take_succ_cons]
      rfl

theorem plainScans_getElem? (fmt : CsvFormat) (fields : List (List Byte)) (k : Nat) :
    (plainScans fmt fields)[k]?.map (fun f => (f.raw, f.out, f.sawQuote)) = fields[k]?.map fun f => (f, f, false) := by
  fun_induction plainScans fmt fields generalizing k with
  | case1 => simp
  | case2 f => cases k <;> simp
  | case3 f g fields ih =>
    cases k with
    | zero => simp
    | succ k => simpa using ih k

/-- A field of a plain line. -/
theorem exists_plainScan (fmt : CsvFormat) {fields : List (List Byte)} {k : Nat} (here : fields[k]? = some f) :
    ∃ scan, (plainScans fmt fields)[k]? = some scan ∧ scan.raw = f ∧ scan.out = f ∧ scan.sawQuote = false := by
  have := plainScans_getElem? fmt fields k
  rw [here] at this
  obtain ⟨scan, there, eq⟩ := map_eq_some_iff.1 this
  simp only [Prod.mk.injEq] at eq
  exact ⟨scan, there, eq⟩

end

namespace PlainRecord

variable {fmt : CsvFormat} {natts : Nat} (record : PlainRecord fmt natts)

/-- What the parser sees of the line. -/
def scans : List FieldScan := plainScans fmt record.fields

/-- The pair that describes a column of the line. -/
def pair (c : Nat) : PMPair := rawPair record.scans c

@[simp] theorem scans_length : record.scans.length = natts := by
  rw [scans, plainScans_length, record.count]

theorem mem_line {f : List Byte} (mem : f ∈ record.fields) {b : Byte} (inside : b ∈ f) : b ∈ record.line := by
  rw [line]
  generalize record.fields = fields at mem
  induction fields with
  | nil => simp at mem
  | cons g fields ih =>
    cases fields with
    | nil =>
      rw [intercalate_singleton]
      rcases mem_cons.1 mem with rfl | none
      · exact inside
      · simp at none
    | cons h fields =>
      rw [intercalate_cons_cons]
      rcases mem_cons.1 mem with rfl | later
      · exact mem_append_left _ (mem_append_left _ inside)
      · exact mem_append_right _ (ih later)

theorem unquoted {f : List Byte} (mem : f ∈ record.fields) : defaultQuote ∉ f :=
  fun inside => (record.clean _ (record.mem_line mem inside)).1 rfl

variable {c : Nat} {attributes : Nat → PMPair}

theorem getElem?_fields (inside : c < natts) : ∃ f, record.fields[c]? = some f :=
  ⟨_, getElem?_eq_getElem (by rw [record.count]; exact inside)⟩

theorem csvFields_eq (positive : 0 < natts) (lastfield : Nat) :
    csvFields fmt lastfield natts 0 record.line = .ok (record.scans.take (lastfield + 1)) := by
  have some : record.fields ≠ [] := by
    intro empty
    have := record.count
    rw [empty, length_nil] at this
    omega
  exact csvFields_plain some record.undivided (fun f mem => record.unquoted mem)
    (le_of_eq record.count) (Nat.zero_le _)

theorem split (positive : 0 < natts) : Fields fmt record.line record.scans := by
  have parsed := fields_of_csvFields (record.csvFields_eq positive natts)
  rwa [take_of_length_le (by rw [scans_length]; omega)] at parsed

/-- Positions and widths are small enough for a pair. -/
theorem fieldStart_lt (positive : 0 < natts) (inside : c ≤ natts) :
    fieldStart record.scans c ≤ record.line.length + 1 :=
  (record.split positive).fieldStart_bound (by rw [scans_length]; exact inside)

theorem holdsRawField (inside : c < natts) (right : attributes c = record.pair c) :
    HoldsRawField record.scans attributes c := by
  have positive : 0 < natts := by omega
  obtain ⟨f, here⟩ := record.getElem?_fields inside
  obtain ⟨scan, there, raw, -⟩ := exists_plainScan fmt here
  have start := record.fieldStart_lt positive (show c + 1 ≤ natts by omega)
  have next := @fieldStart_succ record.scans _ _ there
  have short := record.short
  refine ⟨scan, there, ?_, ?_⟩
  · rw [right, pair, rawPair, UInt16.toNat_ofNat']
    exact Nat.mod_eq_of_lt (by change _ < 65536; rw [line] at start; omega)
  · rw [right, pair, rawPair, UInt16.toNat_ofNat']
    have width : ((rawLengths record.scans)[c]?).getD 0 = scan.raw.length := by
      simp [rawLengths, scans, there]
    rw [width]
    exact Nat.mod_eq_of_lt (by change _ < 65536; rw [line] at start; omega)

/-- **Parsing a plain line.** -/
theorem noDBCopyReadAttributesCSV_eq (positive : 0 < natts) (lastfield : Nat) (start : (attributes 0).pointer = 0) :
    ∃ st, noDBCopyReadAttributesCSV fmt natts lastfield record.line attributes = .ok st ∧
      ∀ c, c ≤ lastfield → c < natts →
        st.attributes c = record.pair c ∧ st.fieldStrings c = .text (record.fields.getD c []) := by
  refine ⟨_, by rw [PostgresRaw.noDBCopyReadAttributesCSV_eq fmt positive,
    record.csvFields_eq positive]; rfl, fun c le inside => ?_⟩
  obtain ⟨f, here⟩ := record.getElem?_fields inside
  obtain ⟨scan, there, raw, out, quote⟩ := exists_plainScan fmt here
  have visited : (record.scans.take (lastfield + 1))[c]? = some scan := by
    rw [getElem?_take_of_lt (by omega)]
    exact there
  obtain ⟨strings, pairs⟩ := @recordAll_field fmt 0 0 _ ⟨attributes, fun _ => .stale⟩ c _ visited
  have pairs := pairs start
  rw [zero_add] at pairs strings
  refine ⟨?_, ?_⟩
  · rw [pairs, pair, rawPair, zero_add, fieldStart_take (by omega)]
    simp [rawLengths, scans, there]
  · have nonempty := record.nonempty f (mem_of_getElem? here)
    rw [strings, FieldScan.fieldString, if_neg (by simp [raw, nonempty]), out, getD_eq_getElem?_getD, here]
    rfl

/-! ### Converting -/

variable {D : Type} (input : InputFunctions D)

/-- The input function of the column accepts its field. -/
def Accepts (c : Nat) : Prop := ∃ d, input c (record.fields.getD c []) = some d

/-- The value of a column. -/
def value (c : Nat) : Value D := ((input c (record.fields.getD c [])).map .datum).getD .garbage

variable {input}

theorem inputValue_text (accepts : record.Accepts input c) :
    inputValue input c (.text (record.fields.getD c [])) = some (record.value input c) := by
  obtain ⟨d, accepted⟩ := accepts
  simp only [inputValue, value, accepted, map_some, getD_some]

/-- A field is a C string, and not the two bytes that stand for NULL. -/
theorem rawString_eq (inside : c < natts) : rawString (record.fields.getD c []) = .text (record.fields.getD c []) := by
  obtain ⟨f, here⟩ := record.getElem?_fields inside
  rw [getD_eq_getElem?_getD, here, getD_some]
  have mem := mem_of_getElem? here
  have string : cString f = f := by
    refine takeWhile_eq_self_iff.2 fun b inside' => ?_
    simpa using (record.clean b (record.mem_line mem inside')).2.2.2.1
  rw [rawString, string, if_neg]
  intro null
  have : backslash ∈ f := by rw [null]; simp
  exact (record.clean _ (record.mem_line mem this)).2.1 rfl

theorem string_text (inside : c < natts) :
    (FieldString.text (record.fields.getD c [])).string = .text (record.fields.getD c []) := by
  have raw := record.rawString_eq inside
  rw [rawString] at raw
  split at raw
  · cases raw
  · exact raw

variable (input) in
/-- The conversion of parsed texts either fails at a field, or gives the values. -/
theorem noDBGetValues_cases {fieldStrings : Nat → FieldString} (cols : List Nat)
    (texts : ∀ c ∈ cols, c < natts ∧ fieldStrings c = .text (record.fields.getD c [])) (values : Nat → Value D) :
    (noDBGetValues input fieldStrings cols values = none ∧ ∃ c ∈ cols, ¬ record.Accepts input c) ∨
      noDBGetValues input fieldStrings cols values =
        some (fun c => if c ∈ cols then record.value input c else values c) ∧
      ∀ c ∈ cols, record.Accepts input c := by
  by_cases all : ∀ c ∈ cols, record.Accepts input c
  · refine .inr ⟨noDBGetValues_eq (fun c mem => ?_) values, all⟩
    obtain ⟨inside, text⟩ := texts c mem
    rw [text, record.string_text inside]
    exact record.inputValue_text (all c mem)
  · simp only [not_forall] at all
    obtain ⟨c, mem, rejects⟩ := all
    refine .inl ⟨?_, c, mem, rejects⟩
    induction cols generalizing values with
    | nil => simp at mem
    | cons i cols ih =>
      rw [noDBGetValues]
      split
      · rfl
      · next v accepted =>
        refine ih (fun j mem' => texts j (mem_cons_of_mem _ mem')) _ ?_
        rcases mem_cons.1 mem with rfl | later
        · exfalso
          obtain ⟨inside, text⟩ := texts c (by simp)
          rw [text, record.string_text inside, inputValue] at accepted
          obtain ⟨d, found, -⟩ := map_eq_some_iff.1 accepted
          exact rejects ⟨d, found⟩
        · exact later

variable (input) in
/-- So does the conversion at known positions. -/
theorem noDBGetValuesWithPM_cases (attributes : Nat → PMPair) (cols : List Nat)
    (exact : ∀ c ∈ cols, c < natts ∧ attributes c = record.pair c)
    {lineBuf : List Byte} (intact : FieldsIntact record.scans lineBuf) (values : Nat → Value D) :
    (noDBGetValuesWithPM input attributes cols lineBuf values = none ∧ ∃ c ∈ cols, ¬ record.Accepts input c) ∨
      ∃ lineBuf', noDBGetValuesWithPM input attributes cols lineBuf values =
          some (lineBuf', fun c => if c ∈ cols then record.value input c else values c) ∧
        ∀ c ∈ cols, record.Accepts input c := by
  have holds : ∀ c ∈ cols, HoldsRawField record.scans attributes c := fun c mem =>
    record.holdsRawField (exact c mem).1 (exact c mem).2
  have text : ∀ c ∈ cols, ∀ scan, record.scans[c]? = some scan →
      rawString scan.raw = .text (record.fields.getD c []) := by
    intro c mem scan there
    obtain ⟨f, here⟩ := record.getElem?_fields (exact c mem).1
    obtain ⟨scan', there', raw, -⟩ := exists_plainScan fmt here
    obtain rfl : scan' = scan := Option.some.inj (there'.symm.trans there)
    rw [raw, ← record.rawString_eq (exact c mem).1, getD_eq_getElem?_getD, here]
    rfl
  by_cases all : ∀ c ∈ cols, record.Accepts input c
  · obtain ⟨lineBuf', result, -⟩ := noDBGetValuesWithPM_eq holds
      (fun c mem scan there => by rw [text c mem scan there]; exact record.inputValue_text (all c mem))
      intact values
    exact .inr ⟨lineBuf', result, all⟩
  · simp only [not_forall] at all
    obtain ⟨c, mem, rejects⟩ := all
    refine .inl ⟨?_, c, mem, rejects⟩
    clear exact
    induction cols generalizing lineBuf values with
    | nil => simp at mem
    | cons i cols ih =>
      rw [noDBGetValuesWithPM]
      have holdsHere := holds i (by simp)
      obtain ⟨scan, there, -⟩ := holdsHere
      rw [positionString_terminateField intact there (holds i (by simp)), text i (by simp) scan there]
      split
      · rfl
      · next v accepted =>
        rcases mem_cons.1 mem with rfl | later
        · exfalso
          rw [inputValue] at accepted
          obtain ⟨d, found, -⟩ := map_eq_some_iff.1 accepted
          exact rejects ⟨d, found⟩
        · exact ih (intact.terminateField (holds i (by simp))) _
            (fun j mem' => holds j (mem_cons_of_mem _ mem'))
            (fun j mem' => text j (mem_cons_of_mem _ mem')) later

/-! ### Navigating -/

/-- Without backslashes nothing is stepped over. -/
theorem steppedOver_clean (escape : List Byte → Nat) {bytes : List Byte} (clean : backslash ∉ bytes) :
    steppedOver escape 0 bytes = List.replicate bytes.length false := by
  induction bytes with
  | nil => rfl
  | cons c rest ih =>
    rw [mem_cons, not_or] at clean
    rw [steppedOver, stepOver, if_neg (Ne.symm clean.1), ih clean.2, length_cons, replicate_succ]

theorem not_quoted (p : Nat) : ¬ Quoted record.line p := by
  have none : (record.line.take p).count defaultQuote = 0 :=
    count_eq_zero.2 fun mem => (record.clean _ (mem_of_mem_take mem)).1 rfl
  rw [Quoted, none]
  decide

theorem backslash_notMem : backslash ∉ record.line := fun mem => (record.clean _ mem).2.1 rfl

theorem faithfulForward (first last : Nat) : FaithfulForward fmt record.line first last := by
  intro p _ _ _
  refine iff_of_false (record.not_quoted p) ?_
  rw [SkippedForward, steppedOver_clean _ fun mem => record.backslash_notMem (mem_of_mem_drop mem), getElem?_replicate]
  split <;> simp

theorem faithfulBackward (first stop : Nat) : FaithfulBackward fmt record.line first stop := by
  intro p _ _ _
  refine iff_of_false (record.not_quoted p) ?_
  rw [SkippedBackward, steppedOver_clean _ fun mem =>
    record.backslash_notMem (mem_of_mem_take (mem_reverse.1 mem)), getElem?_replicate]
  split <;> simp

/-- The forward half sets the pairs that it crosses and breaks no other. -/
theorem viaPMForward_right {a n : Nat} (inside : a + (n + 1) < natts) (anchor : attributes a = record.pair a) {j : Nat}
    (bound : j < natts) : (a < j → j ≤ a + (n + 1) →
        viaPMForward fmt record.line a (n + 1) attributes j = record.pair j) ∧ (attributes j = record.pair j →
        viaPMForward fmt record.line a (n + 1) attributes j = record.pair j) := by
  have positive : 0 < natts := by omega
  have split := record.split positive
  have short : record.line.length < 65535 := by
    have := record.short
    rw [line]
    omega
  have inside' : a + (n + 1) < record.scans.length := by rwa [scans_length]
  have crossed := (viaPMForward_agrees_iff short split inside' anchor).2 (record.faithfulForward _ _)
  have ends := (viaPMForward_agrees_iff_boundaries short split inside' anchor).1 crossed
  refine ⟨crossed j, fun right => ?_⟩
  rcases lt_or_ge a j with behind | before
  · rcases lt_or_ge (a + (n + 1)) j with outside | within
    · -- The pointer of the next column is set as well, to where it starts.
      rw [viaPMForward_eq short split inside' anchor, ends, updateWidths_apply, if_neg fun mem => by
        have := mem_range'_1.1 mem; omega]
      obtain ⟨k, rfl⟩ : ∃ k, j = a + 1 + 1 + k := ⟨j - (a + 1 + 1), by omega⟩
      rw [writeUp_width, setPointer_width, right]
      cases here : (Segments.ends (fieldStart record.scans (a + 1)) (rawLengths
          ((record.scans.drop (a + 1)).take (n + 1))))[k]? with
      | none =>
        rw [writeUp_of_le (by
          rw [length_map]
          have := getElem?_eq_none_iff.1 here
          omega), setPointer_of_ne _ _ (by omega), right]
      | some position =>
        have next := (add_one_of_mem_crossed inside' here).2
        rw [@writeUp_pointer _ _ _ (position + 1) _ (by rw [getElem?_map, here]; rfl), next]
        rfl
    · exact crossed j behind within
  · rw [viaPMForward_of_le fmt record.line before, right]

/-- So does the backward half. -/
theorem viaPMBackward_right {a n : Nat} (back : n + 1 ≤ a) (inside : a < natts) (anchor : attributes a = record.pair a)
    (j : Nat) : (a - (n + 1) ≤ j → j < a → viaPMBackward fmt record.line a (n + 1) attributes j = record.pair j) ∧
      (j < a - (n + 1) ∨ a ≤ j → viaPMBackward fmt record.line a (n + 1) attributes j = attributes j) := by
  have short : record.line.length < 65535 := by
    have := record.short
    rw [line]
    omega
  have inside' : a < record.scans.length := by rwa [scans_length]
  have crossed := (viaPMBackward_agrees_iff short (record.split (by omega)) back inside' anchor).2
    (record.faithfulBackward _ _)
  refine ⟨crossed j, ?_⟩
  rintro (before | after)
  · exact viaPMBackward_of_lt fmt record.line (by omega)
  · exact viaPMBackward_of_ge fmt record.line (by omega) back after

/-- Every pair that is right for the line. -/
def Holds (attributes : Nat → PMPair) (c : Nat) : Prop := attributes c = record.pair c

section

variable {via : ReadViaPM} (forward : via.col + via.forward < natts) (backward : via.backward ≤ via.col)
  (anchor : record.Holds attributes via.col)

include forward backward anchor

/-- **Navigation on a plain line** sets the pairs around the anchor and breaks no other. -/
theorem viaPM_right {j : Nat} (bound : j < natts) :
    (via.col - via.backward ≤ j → j ≤ via.col + via.forward →
        record.Holds (noDBGetNextTupleViaPM fmt record.line via attributes) j) ∧ (record.Holds attributes j →
        record.Holds (noDBGetNextTupleViaPM fmt record.line via attributes) j) := by
  obtain ⟨a, f, b⟩ := via
  simp only at forward backward anchor ⊢
  let middle := if 0 < f then viaPMForward fmt record.line a f attributes else attributes
  have result : noDBGetNextTupleViaPM fmt record.line ⟨a, f, b⟩ attributes =
      if 0 < b then viaPMBackward fmt record.line a b middle else middle := rfl
  have keeps : ∀ {j}, j < natts → record.Holds attributes j → record.Holds middle j := by
    intro j bound right
    cases f with
    | zero => exact right
    | succ n => exact (record.viaPMForward_right forward anchor bound).2 right
  have crosses : ∀ {j}, j < natts → a < j → j ≤ a + f → record.Holds middle j := by
    intro j bound behind within
    cases f with
    | zero => omega
    | succ n => exact (record.viaPMForward_right forward anchor bound).1 behind within
  have anchor' := keeps (by omega) anchor
  rw [result]
  cases b with
  | zero =>
    refine ⟨fun above below => ?_, keeps bound⟩
    rcases lt_or_eq_of_le (show a ≤ j by omega) with behind | rfl
    · exact crosses bound behind below
    · exact anchor'
  | succ m =>
    obtain ⟨sets, frame⟩ := record.viaPMBackward_right backward (by omega) anchor' j
    rw [if_pos (Nat.succ_pos m)]
    refine ⟨fun above below => ?_, fun right => ?_⟩
    · rcases lt_trichotomy j a with before | rfl | behind
      · exact sets above before
      · exact (frame (.inr le_rfl)).trans anchor'
      · exact (frame (.inr (le_of_lt behind))).trans (crosses bound behind below)
    · by_cases within : a - (m + 1) ≤ j ∧ j < a
      · exact sets within.1 within.2
      · exact (frame (by omega)).trans (keeps bound right)

/-- The first pointer stays zero. -/
theorem viaPM_pointer_zero (zero : (attributes 0).pointer = 0) :
    (noDBGetNextTupleViaPM fmt record.line via attributes 0).pointer = 0 := by
  by_cases within : via.col - via.backward ≤ 0
  · have right := (record.viaPM_right forward backward anchor (show 0 < natts by omega)).1 within
      (Nat.zero_le _)
    rw [right]
    rfl
  · obtain ⟨a, f, b⟩ := via
    simp only at within
    have frame : ∀ middle : Nat → PMPair, (if 0 < b then viaPMBackward fmt record.line a b middle
        else middle) 0 = middle 0 := by
      intro middle
      cases b with
      | zero => rfl
      | succ n => exact viaPMBackward_of_lt fmt record.line (by omega)
    have result : noDBGetNextTupleViaPM fmt record.line ⟨a, f, b⟩ attributes 0 =
        (if 0 < f then viaPMForward fmt record.line a f attributes else attributes) 0 := frame _
    rw [result]
    split
    · rw [viaPMForward_of_le fmt record.line (Nat.zero_le a)]
      exact zero
    · exact zero

end

/-- A list of navigations from columns whose pairs are right. -/
theorem foldl_viaPM_right {vias : List ReadViaPM}
    (ranges : ∀ via ∈ vias, via.col + via.forward < natts ∧ via.backward ≤ via.col)
    (anchors : ∀ via ∈ vias, record.Holds attributes via.col) :
    let result := vias.foldl (fun attributes via => noDBGetNextTupleViaPM fmt record.line via attributes)
      attributes
    (∀ via ∈ vias, ∀ c, via.col - via.backward ≤ c → c ≤ via.col + via.forward →
        record.Holds result c) ∧
      (∀ c, c < natts → record.Holds attributes c → record.Holds result c) ∧
      ((attributes 0).pointer = 0 → (result 0).pointer = 0) := by
  induction vias generalizing attributes with
  | nil => exact ⟨fun via none => by simp at none, fun _ _ right => right, fun zero => zero⟩
  | cons via vias ih =>
    obtain ⟨forward, backward⟩ := ranges via (by simp)
    have anchor := anchors via (by simp)
    have step : ∀ {c}, c < natts → _ := fun {c} bound =>
      record.viaPM_right forward backward anchor (j := c) bound
    obtain ⟨crossed, kept, zero⟩ := @ih (noDBGetNextTupleViaPM fmt record.line via attributes)
      (fun via' mem => ranges via' (mem_cons_of_mem _ mem))
      (fun via' mem => (step (by
        have := (ranges via' (mem_cons_of_mem _ mem)).1
        omega)).2 (anchors via' (mem_cons_of_mem _ mem)))
    refine ⟨fun via' mem c above below => ?_, fun c bound right => kept c bound ((step bound).2 right),
      fun start => zero (record.viaPM_pointer_zero forward backward anchor start)⟩
    rcases mem_cons.1 mem with rfl | later
    · have bound : c < natts := by omega
      exact kept c bound ((step bound).1 above below)
    · exact crossed via' later c above below

end PlainRecord

end PostgresRaw
