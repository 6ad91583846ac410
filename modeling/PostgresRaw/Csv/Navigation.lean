import PostgresRaw.Csv.Scanners

/-!
# Positional-map navigation against the CSV parser

The parser of `PostgresRaw.Csv.Attributes` splits at delimiters outside quotes and gives a
backslash no meaning; the scanners of `PostgresRaw.Csv.Scanners` split at every delimiter
that no backslash protects.  `noDBGetNextTupleViaPM_agrees_iff` says for which lines,
anchors and distances they agree: those where the delimiter bytes that are crossed are
inside quotes exactly when the navigation steps over them.

Both sides are masks over the same bytes, so the comparison is `Segments.boundaries_eq_ends_iff`
for the forward scan, and the same statement about the reversed line for the backward one.
-/

namespace PostgresRaw

open List

/-! ### The parser as a mask -/

/-- The delimiters that the parser sees. -/
def csvMask (fmt : CsvFormat) (inQuote : Bool) (line : List Byte) : List Bool :=
  visibleDelims fmt.delim line (quotedMask inQuote line)

theorem csvMask_cons (fmt : CsvFormat) (inQuote : Bool) (c : Byte) (rest : List Byte) :
    csvMask fmt inQuote (c :: rest) = (c == fmt.delim && !inQuote) ::
      csvMask fmt (if c = defaultQuote then !inQuote else inQuote) rest := rfl

@[simp] theorem csvMask_length (fmt : CsvFormat) (inQuote : Bool) (line : List Byte) :
    (csvMask fmt inQuote line).length = line.length := by
  simp [csvMask, visibleDelims]

variable {fmt : CsvFormat} {cur : List Byte} {fields : List FieldScan} {k : Nat}

/-- No delimiter of a raw field is visible, and the field leaves the quotes closed. -/
theorem Scans.csvMask_append {inQuote : Bool} {f : FieldScan} (scan : Scans fmt inQuote cur f) (tail : List Byte) :
    csvMask fmt inQuote (f.raw ++ tail) = List.replicate f.raw.length false ++ csvMask fmt false tail := by
  have quoteVisible : (defaultQuote == fmt.delim) = false := by
    simpa using Ne.symm fmt.delim_ne_quote
  induction scan with
  | endOfLine => rfl
  | delim cur => rfl
  | openQuote _ ih =>
    simp [FieldScan.openQuote, csvMask_cons, ih, replicate_succ, quoteVisible]
  | copy notDelim notQuote _ ih =>
    simp [FieldScan.copy, csvMask_cons, ih, replicate_succ, notDelim, notQuote]
  | escaped _ ih =>
    simp [FieldScan.escaped, csvMask_cons, ih, replicate_succ, quoteVisible]
  | closeQuote _ ih => simp [FieldScan.closeQuote, csvMask_cons, ih, replicate_succ]
  | quotedCopy notQuote _ ih =>
    simp [FieldScan.copy, csvMask_cons, ih, replicate_succ, notQuote]

/-- The lengths of raw fields. -/
def rawLengths (fields : List FieldScan) : List Nat := fields.map (fun f => f.raw.length)

/-- **The parser cuts a line into its raw fields.** -/
theorem Fields.csvMask_eq (split : Fields fmt cur fields) : ∃ tail, Segments.Closes tail ∧
      csvMask fmt false cur = Segments.segmentMask (rawLengths fields) ++ tail := by
  induction split with
  | @last cur f scan =>
    cases found : f.foundDelim with
    | false =>
      have line := scan.split
      rw [found] at line
      refine ⟨[], .inl rfl, ?_⟩
      rw [line]
      simpa [rawLengths, Segments.segmentMask, csvMask] using scan.csvMask_append []
    | true =>
      refine ⟨_, .inr ⟨csvMask fmt false f.rest, rfl⟩, ?_⟩
      have notQuote := fmt.delim_ne_quote
      rw [scan.split_delim found, scan.csvMask_append, csvMask_cons]
      simp [rawLengths, Segments.segmentMask, notQuote]
  | @cons cur f fields scan found rest ih =>
    obtain ⟨tail, closes, mask⟩ := ih
    have more : rawLengths fields ≠ [] := by
      cases rest <;> simp [rawLengths]
    have notQuote := fmt.delim_ne_quote
    have shape : Segments.segmentMask (rawLengths (f :: fields)) =
        List.replicate f.raw.length false ++ true :: Segments.segmentMask (rawLengths fields) :=
      Segments.segmentMask_cons f.raw.length more
    refine ⟨tail, closes, ?_⟩
    rw [scan.split_delim found, scan.csvMask_append, csvMask_cons, shape]
    simp [notQuote, mask]

/-- A line that starts with some fields starts with fewer of them. -/
theorem Fields.take (split : Fields fmt cur fields) (n : Nat) : Fields fmt cur (fields.take (n + 1)) := by
  induction split generalizing n with
  | last scan => simpa using .last scan
  | cons scan found _ ih =>
    cases n with
    | zero => simpa using .last scan
    | succ n => simpa using .cons scan found (ih n)

/-! ### When a crossing is faithful -/

/-- Position `p` of the line lies inside quotes: an odd number of quotes precedes it. -/
def Quoted (line : List Byte) (p : Nat) : Prop := (line.take p).count defaultQuote % 2 = 1

/-- A forward scan from `start` steps over position `p`. -/
def SkippedForward (line : List Byte) (start p : Nat) : Prop :=
  (steppedOver escapeForward 0 (line.drop start))[p - start]? = some true

/-- A backward scan over the first `stop` bytes steps over position `p`. -/
def SkippedBackward (line : List Byte) (stop p : Nat) : Prop :=
  (steppedOver escapeBackward 0 (line.take stop).reverse)[stop - 1 - p]? = some true

instance (line : List Byte) (p : Nat) : Decidable (Quoted line p) :=
  inferInstanceAs (Decidable (_ = _))

instance (line : List Byte) (start p : Nat) : Decidable (SkippedForward line start p) :=
  inferInstanceAs (Decidable (_ = _))

instance (line : List Byte) (stop p : Nat) : Decidable (SkippedBackward line stop p) :=
  inferInstanceAs (Decidable (_ = _))

/-- Between `first` and `last`, the delimiters inside quotes are those that a forward scan
from `first` steps over. -/
def FaithfulForward (fmt : CsvFormat) (line : List Byte) (first last : Nat) : Prop :=
  ∀ p, first ≤ p → p ≤ last → (line)[p]? = some fmt.delim →
    (Quoted line p ↔ SkippedForward line first p)

/-- From the byte before `first` up to `stop`, the delimiters inside quotes are those that a
backward scan from `stop` steps over. -/
def FaithfulBackward (fmt : CsvFormat) (line : List Byte) (first stop : Nat) : Prop :=
  ∀ p, first ≤ p + 1 → p < stop → (line)[p]? = some fmt.delim →
    (Quoted line p ↔ SkippedBackward line stop p)

/-- The quote mask counts quotes. -/
theorem quotedMask_getElem? (inQuote : Bool) (line : List Byte) (p : Nat) : (quotedMask inQuote line)[p]? =
      (line)[p]?.map (fun _ => inQuote ^^ decide ((line.take p).count defaultQuote % 2 = 1)) := by
  induction line generalizing inQuote p with
  | nil => simp [quotedMask]
  | cons c rest ih =>
    cases p with
    | zero => simp [quotedMask]
    | succ p =>
      simp only [quotedMask, getElem?_cons_succ, ih, take_succ_cons, count_cons]
      congr 1
      funext _
      by_cases quote : c = defaultQuote
      · simp only [quote, if_true, BEq.rfl]
        rcases Nat.mod_two_eq_zero_or_one ((rest.take p).count defaultQuote) with even | odd
        · simp [even, Nat.add_mod]
        · simp [odd, Nat.add_mod]
      · simp [quote]

/-- What a forward scan from `start` takes for delimiters. -/
abbrev forwardMask (fmt : CsvFormat) (line : List Byte) (start : Nat) : List Bool :=
  visibleDelims fmt.delim (line.drop start) (steppedOver escapeForward 0 (line.drop start))

/-- What a backward scan over the first `stop` bytes takes for delimiters. -/
abbrev backwardMask (fmt : CsvFormat) (line : List Byte) (stop : Nat) : List Bool :=
  visibleDelims fmt.delim (line.take stop).reverse (steppedOver escapeBackward 0 (line.take stop).reverse)

/-- Two masks of visible delimiters agree on their first `n` positions exactly when every
delimiter there is hidden for both or for neither. -/
theorem take_visibleDelims_eq_iff {delim : Byte} {line : List Byte} {hidden₁ hidden₂ : List Bool}
    (length₁ : hidden₁.length = line.length) (length₂ : hidden₂.length = line.length) (n : Nat) :
    (visibleDelims delim line hidden₁).take n = (visibleDelims delim line hidden₂).take n ↔
      ∀ p, p < n → (line)[p]? = some delim → (hidden₁[p]? = some true ↔ hidden₂[p]? = some true) := by
  induction line generalizing hidden₁ hidden₂ n with
  | nil => simp
  | cons c rest ih =>
    obtain ⟨h₁, hidden₁, rfl⟩ := exists_cons_of_length_eq_add_one length₁
    obtain ⟨h₂, hidden₂, rfl⟩ := exists_cons_of_length_eq_add_one length₂
    cases n with
    | zero => simp
    | succ n =>
      have tail := @ih hidden₁ hidden₂ (by simpa using length₁) (by simpa using length₂) n
      simp only [visibleDelims] at tail
      simp only [visibleDelims, zipWith_cons_cons, take_succ_cons, List.cons.injEq, tail]
      constructor
      · rintro ⟨head, others⟩ p inside delimiter
        cases p with
        | zero =>
          obtain rfl : c = delim := by simpa using delimiter
          cases h₁ <;> cases h₂ <;> simp_all
        | succ p => exact others p (by omega) (by simpa using delimiter)
      · intro agree
        refine ⟨?_, fun p inside delimiter => agree (p + 1) (by omega) (by simpa using delimiter)⟩
        by_cases delimiter : c = delim
        · have := agree 0 (by omega) (by simp [delimiter])
          cases h₁ <;> cases h₂ <;> simp_all
        · have notDelim : (c == delim) = false := by simpa using delimiter
          rw [notDelim, Bool.false_and, Bool.false_and]

/-! ### Where the fields of a line start -/

/-- The pair that describes field `j` of a line. -/
def rawPair (fields : List FieldScan) (j : Nat) : PMPair :=
  ⟨UInt16.ofNat (fieldStart fields j), UInt16.ofNat (((rawLengths fields)[j]?).getD 0)⟩

theorem fieldStart_eq_sum (fields : List FieldScan) (k : Nat) :
    fieldStart fields k = (((rawLengths fields).take k).map (· + 1)).sum := by
  simp [fieldStart, rawLengths, map_take, Function.comp_def]

theorem fieldStart_add (fields : List FieldScan) (k i : Nat) :
    fieldStart fields (k + i) = fieldStart fields k + fieldStart (fields.drop k) i := by
  rw [fieldStart, fieldStart, fieldStart, take_add, map_append, sum_append]

theorem fieldStart_add_one {fields : List FieldScan} {k : Nat} (inside : k < fields.length) :
    fieldStart fields (k + 1) = fieldStart fields k + ((rawLengths fields)[k]?).getD 0 + 1 := by
  have here := getElem?_eq_getElem inside
  rw [fieldStart_succ here]
  simp [rawLengths, here]

theorem fieldStart_mono (fields : List FieldScan) {i : Nat} (before : i ≤ k) :
    fieldStart fields i ≤ fieldStart fields k := by
  obtain ⟨d, rfl⟩ := Nat.exists_eq_add_of_le before
  rw [fieldStart_add]
  omega

/-- Every field lies inside the line. -/
theorem Fields.fieldStart_le (split : Fields fmt cur fields) : fieldStart fields fields.length ≤ cur.length + 1 := by
  induction split with
  | @last cur f scan =>
    have length := congrArg List.length scan.split
    rw [length_append] at length
    simp only [length_singleton, fieldStart_cons_succ, fieldStart_zero]
    omega
  | @cons cur f fields scan found _ ih =>
    have length := congrArg List.length (scan.split_delim found)
    rw [length_append, length_cons] at length
    rw [length_cons, fieldStart_cons_succ]
    omega

/-- A raw field has as many closing as opening quotes. -/
theorem Scans.count_quote {inQuote : Bool} {f : FieldScan} (scan : Scans fmt inQuote cur f) :
    f.raw.count defaultQuote % 2 = if inQuote then 1 else 0 := by
  induction scan with
  | endOfLine => rfl
  | delim cur => rfl
  | openQuote _ ih => simp [FieldScan.openQuote] at ih ⊢; omega
  | copy _ notQuote _ ih => simpa [FieldScan.copy, count_cons, notQuote] using ih
  | escaped _ ih => simp [FieldScan.escaped] at ih ⊢; omega
  | closeQuote _ ih => simp [FieldScan.closeQuote] at ih ⊢; omega
  | quotedCopy notQuote _ ih => simpa [FieldScan.copy, count_cons, notQuote] using ih

/-- A field starts outside quotes. -/
theorem Fields.count_quote (split : Fields fmt cur fields) (inside : k < fields.length) :
    (cur.take (fieldStart fields k)).count defaultQuote % 2 = 0 := by
  induction split generalizing k with
  | last scan =>
    obtain rfl : k = 0 := by simpa using inside
    simp
  | @cons cur f fields scan found _ ih =>
    cases k with
    | zero => simp
    | succ k =>
      have even := ih (k := k) (by simpa using inside)
      have field : f.raw.count defaultQuote % 2 = 0 := scan.count_quote
      rw [fieldStart_cons_succ, scan.split_delim found, add_assoc, take_length_add_append,
        add_comm 1, take_succ_cons, count_append, count_cons_of_ne fmt.delim_ne_quote]
      omega

/-- From the start of a field, the quote mask decides `Quoted`. -/
theorem Fields.quotedMask_drop {line : List Byte} (split : Fields fmt line fields) {p : Nat}
    (inside : k < fields.length) (bound : fieldStart fields k + p < line.length) :
    (quotedMask false (line.drop (fieldStart fields k)))[p]? = some true ↔ Quoted line (fieldStart fields k + p) := by
  have even := split.count_quote inside
  have counted : (line.take (fieldStart fields k + p)).count defaultQuote =
      (line.take (fieldStart fields k)).count defaultQuote +
        ((line.drop (fieldStart fields k)).take p).count defaultQuote := by
    rw [take_add, count_append]
  rw [quotedMask_getElem?, getElem?_drop, getElem?_eq_getElem bound, Quoted, counted]
  simp only [Option.map_some, Option.some.injEq, Bool.false_xor, decide_eq_true_eq]
  omega

/-! ### Navigation against the parser -/

section Agreement

variable {fmt : CsvFormat} {line : List Byte} {fields : List FieldScan}

/-- Positions of a line that the parser accepts fit into an `unsigned short`. -/
private theorem toNat_ofNat_of_le {n : Nat} (short : line.length < 65535)
    (bound : n ≤ line.length + 1) : (UInt16.ofNat n).toNat = n := by
  rw [UInt16.toNat_ofNat']
  omega

private theorem ofNat_inj_of_le {m n : Nat} (short : line.length < 65535)
    (boundM : m ≤ line.length + 1) (boundN : n ≤ line.length + 1) (same : UInt16.ofNat m = UInt16.ofNat n) : m = n := by
  rw [← toNat_ofNat_of_le short boundM, ← toNat_ofNat_of_le short boundN, same]

/-- A width is right exactly when the next pointer is. -/
private theorem ofNat_sub_eq_iff {start len : Nat} {next : UInt16} :
    next - UInt16.ofNat start - 1 = UInt16.ofNat len ↔ next = UInt16.ofNat (start + len + 1) := by
  constructor
  · intro width
    have sum : next = UInt16.ofNat len + 1 + UInt16.ofNat start := by
      rw [← width, UInt16.sub_add_cancel, UInt16.sub_add_cancel]
    rw [sum]
    apply UInt16.toNat_inj.mp
    simp only [UInt16.toNat_add, UInt16.toNat_ofNat', UInt16.toNat_one]
    omega
  · rintro rfl
    apply UInt16.toNat_inj.mp
    simp only [UInt16.toNat_sub, UInt16.toNat_ofNat', UInt16.toNat_one]
    omega

/-- Pointers and widths of consecutive columns are right exactly when the pointers are, one
column further. -/
private theorem updateWidths_eq_rawPair_iff {attributes : Nat → PMPair} {cols : List Nat}
    {lo hi : Nat} (mem : ∀ j, lo ≤ j → j < hi → j ∈ cols) (inside : hi ≤ fields.length) (first : lo < hi) :
    (∀ j, lo ≤ j → j < hi → updateWidths attributes cols j = rawPair fields j) ↔
      ∀ j, lo ≤ j → j ≤ hi → (attributes j).pointer = UInt16.ofNat (fieldStart fields j) := by
  have width : ∀ j, j < hi → (attributes j).pointer = UInt16.ofNat (fieldStart fields j) →
      ((attributes (j + 1)).pointer - (attributes j).pointer - 1 =
          UInt16.ofNat (((rawLengths fields)[j]?).getD 0) ↔
        (attributes (j + 1)).pointer = UInt16.ofNat (fieldStart fields (j + 1))) := by
    intro j below pointer
    rw [pointer, ofNat_sub_eq_iff, fieldStart_add_one (by omega)]
  constructor
  · intro agree j above below
    have pair : ∀ k, lo ≤ k → k < hi →
        (attributes k).pointer = UInt16.ofNat (fieldStart fields k) ∧
          (attributes (k + 1)).pointer = UInt16.ofNat (fieldStart fields (k + 1)) := by
      intro k aboveK belowK
      have here := agree k aboveK belowK
      rw [updateWidths_apply, if_pos (mem k aboveK belowK), rawPair, PMPair.mk.injEq] at here
      exact ⟨here.1, (width k belowK here.1).mp here.2⟩
    rcases lt_or_eq_of_le below with inner | last
    · exact (pair j above inner).1
    · obtain ⟨k, rfl⟩ : ∃ k, j = k + 1 := ⟨j - 1, by omega⟩
      exact (pair k (by omega) (by omega)).2
  · intro pointers j above below
    have here := pointers j above (by omega)
    rw [updateWidths_apply, if_pos (mem j above below), rawPair, PMPair.mk.injEq]
    exact ⟨here, (width j below here).mpr (pointers (j + 1) (by omega) below)⟩

variable {n a : Nat} {attributes : Nat → PMPair}

theorem fieldStart_take {i : Nat} (inside : i ≤ n) (fields : List FieldScan) :
    fieldStart (fields.take n) i = fieldStart fields i := by
  rw [fieldStart, fieldStart, take_take, min_eq_left inside]

theorem Fields.fieldStart_bound (split : Fields fmt line fields) {k : Nat}
    (inside : k ≤ fields.length) : fieldStart fields k ≤ line.length + 1 :=
  le_trans (fieldStart_mono fields inside) split.fieldStart_le

/-- A scan that stores the boundaries of its mask, each in the form `place`, stores the ends
of the known pieces exactly when its boundaries are these ends. -/
private theorem stored_ends_iff {start : Nat} {lens : List Nat} (nonempty : lens ≠ [])
    {tail mask : List Bool} (closes : Segments.Closes tail)
    (sameLength : mask.length = (Segments.segmentMask lens ++ tail).length) {pointer : Nat → UInt16} {place : Nat → Nat}
    (stores : ∀ (i position : Nat), (Segments.boundaries lens.length start mask)[i]? = some position →
      pointer i = UInt16.ofNat (place position)) (place_inj : ∀ p q, p ≤ start + mask.length → q ≤ start + mask.length →
      UInt16.ofNat (place p) = UInt16.ofNat (place q) → p = q) :
    (∀ (i position : Nat), (Segments.ends start lens)[i]? = some position → pointer i = UInt16.ofNat (place position)) ↔
      Segments.boundaries lens.length start mask = Segments.ends start lens := by
  constructor
  · intro agree
    refine Segments.boundaries_eq_ends nonempty closes sameLength fun i position found => ?_
    have below : i < lens.length := lt_of_lt_of_le (List.getElem?_eq_some_iff.mp found).1
      (Segments.boundaries_length_le _ _ _)
    obtain ⟨last, here⟩ : ∃ last, (Segments.ends start lens)[i]? = some last :=
      ⟨_, getElem?_eq_getElem (by rw [Segments.ends_length]; exact below)⟩
    have upper := mem_of_getElem? here
    rw [← Segments.boundaries_segmentMask start nonempty closes] at upper
    rw [here, place_inj _ _ (Segments.bounds_of_mem_boundaries (mem_of_getElem? found)).2
      (sameLength ▸ (Segments.bounds_of_mem_boundaries upper).2)
      ((stores i position found).symm.trans (agree i _ here))]
  · intro same i position here
    exact stores i position (same ▸ here)

/-- What the forward half stores: the boundaries of its mask as pointers, and then widths. -/
theorem viaPMForward_eq (short : line.length < 65535) (split : Fields fmt line fields)
    (inside : a + (n + 1) < fields.length) (anchor : attributes a = rawPair fields a) :
    viaPMForward fmt line a (n + 1) attributes = updateWidths
        (writeUp (setPointer attributes (a + 1) (fieldStart fields (a + 1))) (a + 1 + 1)
          ((Segments.boundaries (n + 1) (fieldStart fields (a + 1))
            (forwardMask fmt line (fieldStart fields (a + 1)))).map (· + 1)))
        (List.range' (a + 1) (n + 1)) := by
  have bound : ∀ k, k ≤ fields.length → fieldStart fields k ≤ line.length + 1 :=
    fun k le => split.fieldStart_bound le
  have start : (attributes a).pointer.toNat + (attributes a).width.toNat + 1 =
      fieldStart fields (a + 1) := by
    have next := @fieldStart_add_one fields a (by omega)
    have := bound (a + 1) (by omega)
    rw [anchor, rawPair, toNat_ofNat_of_le short (bound a (by omega)), toNat_ofNat_of_le short (by omega), next]
  have startInside : fieldStart fields (a + 1) ≤ line.length := by
    have := @fieldStart_add_one fields (a + 1) (by omega)
    have := bound (a + 1 + 1) (by omega)
    omega
  simp only [viaPMForward, parseLineForward, start]
  rw [parseForward_eq fmt.delim (by rw [length_drop]; omega)]

/-- The ends of the fields to the right of the anchor are where the next fields start. -/
theorem add_one_of_mem_crossed {a n i position : Nat} (inside : a + (n + 1) < fields.length)
    (here : (Segments.ends (fieldStart fields (a + 1))
      (rawLengths ((fields.drop (a + 1)).take (n + 1))))[i]? = some position) :
    i < n + 1 ∧ position + 1 = fieldStart fields (a + 1 + 1 + i) := by
  have lengths : (rawLengths ((fields.drop (a + 1)).take (n + 1))).length = n + 1 := by
    simp [rawLengths]; omega
  have below := (List.getElem?_eq_some_iff.mp here).1
  rw [Segments.ends_length, lengths] at below
  refine ⟨below, ?_⟩
  rw [Segments.add_one_of_mem_ends here, ← fieldStart_eq_sum, fieldStart_take (by omega), ← fieldStart_add]
  congr 1
  omega

section

variable (short : line.length < 65535) (split : Fields fmt line fields) (inside : a + (n + 1) < fields.length)
  (anchor : attributes a = rawPair fields a)

include short split inside anchor

/-- The forward scan finds the columns to the right of the anchor exactly when it finds the
ends that the parser found. -/
theorem viaPMForward_agrees_iff_boundaries :
    (∀ j, a < j → j ≤ a + (n + 1) →
        viaPMForward fmt line a (n + 1) attributes j = rawPair fields j) ↔
      Segments.boundaries (n + 1) (fieldStart fields (a + 1)) (forwardMask fmt line (fieldStart fields (a + 1))) =
        Segments.ends (fieldStart fields (a + 1)) (rawLengths ((fields.drop (a + 1)).take (n + 1))) := by
  have crossedEnd := fun (i position : Nat) => @add_one_of_mem_crossed fields a n i position inside
  have result := viaPMForward_eq short split inside anchor
  have startInside : fieldStart fields (a + 1) ≤ line.length := by
    have := @fieldStart_add_one fields (a + 1) (by omega)
    have := split.fieldStart_bound (show a + 1 + 1 ≤ fields.length by omega)
    omega
  generalize mask : forwardMask fmt line (fieldStart fields (a + 1)) = scanMask at result ⊢
  generalize stores : writeUp (setPointer attributes (a + 1) (fieldStart fields (a + 1))) (a + 1 + 1)
    ((Segments.boundaries (n + 1) (fieldStart fields (a + 1)) scanMask).map (· + 1)) = stored at result
  have firstPointer : (stored (a + 1)).pointer = UInt16.ofNat (fieldStart fields (a + 1)) := by
    rw [← stores, writeUp_of_lt (Nat.lt_add_one _), setPointer_pointer_self]
  generalize crossed : rawLengths ((fields.drop (a + 1)).take (n + 1)) = lens at crossedEnd ⊢
  have lengths : lens.length = n + 1 := by
    rw [← crossed]; simp [rawLengths]; omega
  obtain ⟨tail, closes, parserMask⟩ := ((split.drop (k := a + 1) (by omega)).take n).csvMask_eq
  rw [crossed] at parserMask
  have nonempty : lens ≠ [] := fun empty => by simp [empty] at lengths
  have sameLength : scanMask.length = line.length - fieldStart fields (a + 1) := by
    rw [← mask]; simp [visibleDelims]
  have found := @stored_ends_iff (fieldStart fields (a + 1)) lens nonempty tail scanMask closes
    (by rw [← parserMask, sameLength]; simp)
    (fun i => (stored (a + 1 + 1 + i)).pointer) (· + 1)
    (fun i position here => by
      rw [← stores]
      exact writeUp_pointer (by rw [← lengths, getElem?_map, here]; rfl))
    (fun p q boundP boundQ same => by
      have := ofNat_inj_of_le short (by omega) (by omega) same
      omega)
  rw [lengths] at found
  have pointers := @updateWidths_eq_rawPair_iff fields stored (List.range' (a + 1) (n + 1)) (a + 1)
    (a + (n + 1) + 1) (fun j above below => mem_range'_1.mpr ⟨above, by omega⟩)
    (by omega) (by omega)
  rw [result, ← found]
  refine Iff.trans ⟨fun agree j above below => agree j above (by omega),
    fun agree j above below => agree j above (by omega)⟩ (pointers.trans ?_)
  constructor
  · intro agree i position here
    obtain ⟨below, next⟩ := crossedEnd i position here
    rw [next]
    exact agree (a + 1 + 1 + i) (by omega) (by omega)
  · intro agree j above below
    rcases Nat.eq_or_lt_of_le above with rfl | later
    · exact firstPointer
    · obtain ⟨i, rfl⟩ : ∃ i, j = a + 1 + 1 + i := ⟨j - (a + 1 + 1), by omega⟩
      have here : (Segments.ends (fieldStart fields (a + 1)) lens)[i]? = some _ :=
        getElem?_eq_getElem (by rw [Segments.ends_length, lengths]; omega)
      rw [agree i _ here, (crossedEnd i _ here).2]

/-- **To the right of the anchor.** -/
theorem viaPMForward_agrees_iff :
    (∀ j, a < j → j ≤ a + (n + 1) →
        viaPMForward fmt line a (n + 1) attributes j = rawPair fields j) ↔
      FaithfulForward fmt line (fieldStart fields (a + 1)) (fieldStart fields (a + (n + 1) + 1) - 1) := by
  have suffix := split.drop (k := a + 1) (by omega)
  obtain ⟨tail, closes, parserMask⟩ := (suffix.take n).csvMask_eq
  rw [viaPMForward_agrees_iff_boundaries short split inside anchor]
  have count : (rawLengths ((fields.drop (a + 1)).take (n + 1))).length = n + 1 := by
    simp [rawLengths]; omega
  have nonempty : rawLengths ((fields.drop (a + 1)).take (n + 1)) ≠ [] :=
    fun empty => by simp [empty] at count
  have last : fieldStart fields (a + (n + 1) + 1) = fieldStart fields (a + 1) +
      ((Segments.segmentMask (rawLengths ((fields.drop (a + 1)).take (n + 1)))).length + 1) := by
    have whole := fieldStart_eq_sum ((fields.drop (a + 1)).take (n + 1)) (n + 1)
    rw [take_of_length_le (le_of_eq count), fieldStart_take le_rfl] at whole
    rw [Segments.segmentMask_length nonempty, ← whole, ← fieldStart_add]
    congr 1
    omega
  have agree := @Segments.boundaries_eq_ends_iff (fieldStart fields (a + 1)) _ nonempty tail
    (forwardMask fmt line (fieldStart fields (a + 1))) closes (by rw [← parserMask]; simp [visibleDelims])
  rw [count, ← parserMask, csvMask, take_visibleDelims_eq_iff (by simp) (by simp)] at agree
  rw [agree]
  constructor
  · intro hidden p first upTo delimiter
    have bound := (List.getElem?_eq_some_iff.mp delimiter).1
    obtain ⟨q, rfl⟩ := Nat.exists_eq_add_of_le first
    have := hidden q (by omega) (by rw [getElem?_drop]; exact delimiter)
    rw [split.quotedMask_drop (by omega) bound] at this
    rw [SkippedForward, Nat.add_sub_cancel_left]
    exact this.symm
  · intro faithful q upTo delimiter
    rw [getElem?_drop] at delimiter
    have bound := (List.getElem?_eq_some_iff.mp delimiter).1
    have := faithful (fieldStart fields (a + 1) + q) (by omega) (by omega) delimiter
    rw [split.quotedMask_drop (by omega) bound, this, SkippedForward, Nat.add_sub_cancel_left]

end

/-- The lengths of the fields before the anchor, the nearest first. -/
def lengthsBefore (fields : List FieldScan) (a : Nat) : List Nat :=
  (rawLengths (fields.take a)).reverse

@[simp] theorem lengthsBefore_length (inside : a ≤ fields.length) : (lengthsBefore fields a).length = a := by
  simp [lengthsBefore, rawLengths, min_eq_left inside]

/-- The `i` fields before the anchor, with a delimiter each, reach back to the start of the
first of them. -/
theorem lengthsBefore_sum {a i : Nat} (inside : a ≤ fields.length) (back : i ≤ a) :
    (((lengthsBefore fields a).take i).map (· + 1)).sum + fieldStart fields (a - i) = fieldStart fields a := by
  have shape : (lengthsBefore fields a).take i =
      ((rawLengths (fields.drop (a - i))).take i).reverse := by
    rw [lengthsBefore, take_reverse]
    congr 1
    simp only [rawLengths, length_map, length_take, min_eq_left inside, ← map_drop, ← map_take, drop_take]
    congr 2
    omega
  rw [shape, map_reverse, sum_reverse, ← fieldStart_eq_sum]
  have := fieldStart_add fields (a - i) i
  rw [Nat.sub_add_cancel back] at this
  omega

/-- Read backwards from the delimiter before the anchor, the parser's delimiters cut the line
into the fields before the anchor. -/
theorem csvMask_reverse_before (split : Fields fmt line fields) (positive : 0 < a) (inside : a < fields.length) :
    visibleDelims fmt.delim (line.take (fieldStart fields a - 1)).reverse
        (quotedMask false (line.take (fieldStart fields a - 1))).reverse =
      Segments.segmentMask (lengthsBefore fields a) := by
  have takeMask : ∀ (n : Nat) (inQuote : Bool) (cur : List Byte),
      csvMask fmt inQuote (cur.take n) = (csvMask fmt inQuote cur).take n := by
    intro n
    induction n with
    | zero => intro inQuote cur; simp [csvMask]
    | succ n ih =>
      intro inQuote cur
      cases cur with
      | nil => simp [csvMask]
      | cons c cur => simp [csvMask_cons, ih]
  obtain ⟨m, rfl⟩ : ∃ m, a = m + 1 := ⟨a - 1, by omega⟩
  obtain ⟨tail, closes, parserMask⟩ := (split.take m).csvMask_eq
  have nonempty : rawLengths (fields.take (m + 1)) ≠ [] := by
    cases fields with
    | nil => simp at inside
    | cons f fields => simp [rawLengths]
  have length := Segments.segmentMask_length nonempty
  have whole : fieldStart fields (m + 1) =
      ((rawLengths (fields.take (m + 1))).map (· + 1)).sum := by
    rw [fieldStart_eq_sum, rawLengths, ← map_take]
    rfl
  have reversed : visibleDelims fmt.delim (line.take (fieldStart fields (m + 1) - 1)).reverse
      (quotedMask false (line.take (fieldStart fields (m + 1) - 1))).reverse =
      (csvMask fmt false (line.take (fieldStart fields (m + 1) - 1))).reverse := by
    rw [csvMask, visibleDelims, visibleDelims, reverse_zipWith (by simp)]
  rw [reversed, takeMask, parserMask, take_left' (by omega), lengthsBefore, Segments.segmentMask_reverse]

section

variable (short : line.length < 65535) (split : Fields fmt line fields) (back : n + 1 ≤ a) (inside : a < fields.length)
  (anchor : attributes a = rawPair fields a)

include short split back inside anchor

/-- The backward scan finds the columns to the left of the anchor exactly when it finds the
ends that the parser found. -/
theorem viaPMBackward_agrees_iff_boundaries :
    (∀ j, a - (n + 1) ≤ j → j < a → viaPMBackward fmt line a (n + 1) attributes j = rawPair fields j) ↔
      Segments.boundaries (n + 1) 0 (backwardMask fmt line (fieldStart fields a - 1)) =
        Segments.ends 0 ((lengthsBefore fields a).take (n + 1)) := by
  have bound : ∀ k, k ≤ fields.length → fieldStart fields k ≤ line.length + 1 :=
    fun k le => split.fieldStart_bound le
  have pointer : (attributes a).pointer.toNat = fieldStart fields a := by
    rw [anchor, rawPair, toNat_ofNat_of_le short (bound a (by omega))]
  have anchorBound := bound a (by omega)
  generalize mask : backwardMask fmt line (fieldStart fields a - 1) = scanMask
  have maskLength : scanMask.length = fieldStart fields a - 1 := by
    rw [← mask]; simp [visibleDelims]; omega
  let stored := writeDown attributes (a - 1)
    ((Segments.boundaries (n + 1) 0 scanMask).map (fieldStart fields a - 1 - ·))
  have result : viaPMBackward fmt line a (n + 1) attributes =
      updateWidths stored (List.range' (a - (n + 1)) (n + 1)).reverse := by
    have atStart : 0 + (line.take (fieldStart fields a - 1)).reverse.length =
        fieldStart fields a - 1 := by
      simp; omega
    simp only [viaPMBackward, parseLineBackward, pointer, stored, ← mask]
    rw [parseBackward_eq fmt.delim atStart]
  generalize crossed : (lengthsBefore fields a).take (n + 1) = lens
  have lengths : lens.length = n + 1 := by
    rw [← crossed, length_take, lengthsBefore_length (by omega)]; omega
  have crossedEnd : ∀ (i position : Nat), (Segments.ends 0 lens)[i]? = some position →
      i < n + 1 ∧ fieldStart fields a - 1 - position = fieldStart fields (a - 1 - i) := by
    intro i position here
    have below := (List.getElem?_eq_some_iff.mp here).1
    rw [Segments.ends_length, lengths] at below
    have ending := Segments.add_one_of_mem_ends here
    rw [← crossed, take_take, min_eq_left (by omega)] at ending
    have := @lengthsBefore_sum fields a (i + 1) (by omega) (by omega)
    rw [show a - (i + 1) = a - 1 - i by omega] at this
    exact ⟨below, by omega⟩
  have nonempty : lens ≠ [] := fun empty => by simp [empty] at lengths
  obtain ⟨tail, closes, parserMask⟩ := Segments.exists_segmentMask_take (lengthsBefore fields a) (n + 1) (crossed ▸ nonempty)
  rw [crossed] at parserMask
  have parserLength := congrArg List.length (csvMask_reverse_before split (by omega) inside)
  have found := @stored_ends_iff 0 lens nonempty tail scanMask closes
    (by rw [← parserMask, ← parserLength, maskLength]; simp [visibleDelims]; omega)
    (fun i => (stored (a - 1 - i)).pointer) (fieldStart fields a - 1 - ·)
    (fun i position here => writeDown_pointer (by rw [← lengths, getElem?_map, here]; rfl)
      (by
        rw [length_map]
        have := Segments.boundaries_length_le (n + 1) 0 scanMask
        omega))
    (fun p q boundP boundQ same => by
      have := ofNat_inj_of_le short (by omega) (by omega) same
      omega)
  rw [lengths] at found
  have pointers := @updateWidths_eq_rawPair_iff fields stored
    (List.range' (a - (n + 1)) (n + 1)).reverse (a - (n + 1)) a
    (fun j above below => mem_reverse.mpr (mem_range'_1.mpr ⟨above, by omega⟩))
    (by omega) (by omega)
  rw [result, pointers, ← found]
  constructor
  · intro agree i position here
    obtain ⟨below, previous⟩ := crossedEnd i position here
    rw [previous]
    exact agree (a - 1 - i) (by omega) (by omega)
  · intro agree j above below
    rcases Nat.eq_or_lt_of_le below with rfl | earlier
    · simp only [stored]
      rw [writeDown_of_gt (by omega), anchor, rawPair]
    · obtain ⟨i, rfl⟩ : ∃ i, j = a - 1 - i := ⟨a - 1 - j, by omega⟩
      obtain ⟨position, here⟩ : ∃ position, (Segments.ends 0 lens)[a - 1 - (a - 1 - i)]? =
          some position :=
        ⟨_, getElem?_eq_getElem (by rw [Segments.ends_length, lengths]; omega)⟩
      have := agree _ position here
      rw [(crossedEnd _ position here).2] at this
      simpa [show a - 1 - (a - 1 - (a - 1 - i)) = a - 1 - i by omega] using this

/-- **To the left of the anchor.** -/
theorem viaPMBackward_agrees_iff :
    (∀ j, a - (n + 1) ≤ j → j < a →
        viaPMBackward fmt line a (n + 1) attributes j = rawPair fields j) ↔
      FaithfulBackward fmt line (fieldStart fields (a - (n + 1))) (fieldStart fields a - 1) := by
  rw [viaPMBackward_agrees_iff_boundaries short split back inside anchor]
  have bound := split.fieldStart_bound (le_of_lt inside)
  have reach := lengthsBefore_sum (le_of_lt inside) back
  generalize crossed : (lengthsBefore fields a).take (n + 1) = lens at reach ⊢
  have lengths : lens.length = n + 1 := by
    rw [← crossed, length_take, lengthsBefore_length (by omega)]; omega
  have nonempty : lens ≠ [] := fun empty => by simp [empty] at lengths
  obtain ⟨tail, closes, parserMask⟩ := Segments.exists_segmentMask_take (lengthsBefore fields a) (n + 1) (crossed ▸ nonempty)
  rw [crossed, ← csvMask_reverse_before split (by omega) inside] at parserMask
  have span := Segments.segmentMask_length nonempty
  have agree := @Segments.boundaries_eq_ends_iff 0 lens nonempty tail (backwardMask fmt line (fieldStart fields a - 1))
    closes (by rw [← parserMask]; simp [visibleDelims])
  rw [lengths, ← parserMask, take_visibleDelims_eq_iff (by simp) (by simp)] at agree
  rw [agree]
  -- Position `p` of the line is position `stop - 1 - p` of the scan.
  set stop := fieldStart fields a - 1
  have stopLength : (line.take stop).length = stop := by
    simp; omega
  have reversed : ∀ p, p < stop →
      (line.take stop).reverse[stop - 1 - p]? = (line)[p]? := by
    intro p below
    rw [getElem?_reverse (by rw [stopLength]; omega), stopLength,
      show stop - 1 - (stop - 1 - p) = p by omega, getElem?_take_of_lt below]
  have quoted : ∀ p, p < stop →
      ((quotedMask false (line.take stop)).reverse[stop - 1 - p]? = some true ↔ Quoted line p) := by
    intro p below
    rw [getElem?_reverse (by rw [quotedMask_length, stopLength]; omega), quotedMask_length,
      stopLength, show stop - 1 - (stop - 1 - p) = p by omega,
      quotedMask_getElem?, getElem?_take_of_lt below, getElem?_eq_getElem (show p < line.length by omega), take_take,
      min_eq_left (le_of_lt below)]
    simp [Quoted]
  constructor
  · intro hidden p first below delimiter
    have := hidden (stop - 1 - p) (by omega)
      (by rw [reversed p below]; exact delimiter)
    rw [quoted p below] at this
    exact this.symm
  · intro faithful r upTo delimiter
    have rBound := (List.getElem?_eq_some_iff.mp delimiter).1
    rw [length_reverse, stopLength] at rBound
    obtain ⟨p, below, rfl⟩ : ∃ p, p < stop ∧ r = stop - 1 - p := ⟨stop - 1 - r, by omega, by omega⟩
    rw [reversed p below] at delimiter
    rw [quoted p below, faithful p (by omega) below delimiter]
    rfl

end

end Agreement

/-- **When navigation agrees with the parser.**  Take a line that the parser accepts, an
anchor column with the pair that the parser recorded for it, and distances that stay within
the recorded columns.  The pairs found by `NoDBGetNextTupleViaPM` are those of the parser
exactly when, among the delimiter bytes that are crossed on either side, those inside quotes
are those that the scan on that side steps over. -/
theorem noDBGetNextTupleViaPM_agrees_iff {fmt : CsvFormat} {maxfields lastfield : Nat}
    {line : List Byte} {attributes₀ attributes : Nat → PMPair} {st : FieldState}
    {fields : List FieldScan} {readViaPM : ReadViaPM}
    (start : (attributes₀ 0).pointer = 0)
    (accepted : noDBCopyReadAttributesCSV fmt maxfields lastfield line attributes₀ = .ok st)
    (split : csvFields fmt lastfield maxfields 0 line = .ok fields)
    (short : line.length < 65535)
    (insideForward : readViaPM.col + readViaPM.forward < fields.length)
    (insideBackward : readViaPM.backward ≤ readViaPM.col)
    (anchor : attributes readViaPM.col = st.attributes readViaPM.col) :
    (∀ j, readViaPM.col - readViaPM.backward ≤ j → j ≤ readViaPM.col + readViaPM.forward →
        noDBGetNextTupleViaPM fmt line readViaPM attributes j = st.attributes j) ↔
      (0 < readViaPM.forward →
        FaithfulForward fmt line (fieldStart fields (readViaPM.col + 1))
          (fieldStart fields (readViaPM.col + readViaPM.forward + 1) - 1)) ∧
      (0 < readViaPM.backward →
        FaithfulBackward fmt line (fieldStart fields (readViaPM.col - readViaPM.backward))
          (fieldStart fields readViaPM.col - 1)) := by
  obtain ⟨a, f, b⟩ := readViaPM
  simp only at insideForward insideBackward anchor ⊢
  have lineFields := fields_of_csvFields split
  have positive : 0 < maxfields := by
    rcases Nat.eq_zero_or_pos maxfields with rfl | positive
    · cases split
    · exact positive
  have recorded : ∀ j, j < fields.length → st.attributes j = rawPair fields j := by
    intro j inside
    rw [noDBCopyReadAttributesCSV_eq fmt positive, split] at accepted
    cases accepted
    have := (@recordAll_field fmt 0 0 fields ⟨attributes₀, fun _ => .stale⟩ j _ (getElem?_eq_getElem inside)).2 start
    simpa [rawPair, rawLengths, inside] using this
  rw [recorded a (by omega)] at anchor
  -- The columns to the right are set by the first half and kept by the second.
  let middle := if 0 < f then viaPMForward fmt line a f attributes else attributes
  have middleAnchor : middle a = rawPair fields a := by
    simp only [middle]
    split
    · rw [viaPMForward_of_le fmt line (Nat.le_refl a), anchor]
    · exact anchor
  have result : noDBGetNextTupleViaPM fmt line ⟨a, f, b⟩ attributes =
      if 0 < b then viaPMBackward fmt line a b middle else middle := rfl
  have right : ∀ j, a ≤ j → noDBGetNextTupleViaPM fmt line ⟨a, f, b⟩ attributes j = middle j := by
    intro j after
    rw [result]
    split
    · exact viaPMBackward_of_ge fmt line ‹_› insideBackward after
    · rfl
  have forward : (∀ j, a < j → j ≤ a + f → middle j = rawPair fields j) ↔
      (0 < f → FaithfulForward fmt line (fieldStart fields (a + 1))
        (fieldStart fields (a + f + 1) - 1)) := by
    cases f with
    | zero => exact ⟨fun _ impossible => absurd impossible (by omega), fun _ j _ _ => by omega⟩
    | succ n =>
      simp only [middle, Nat.succ_pos, if_true, true_imp_iff]
      exact viaPMForward_agrees_iff short lineFields insideForward anchor
  have backward : (∀ j, a - b ≤ j → j < a →
        noDBGetNextTupleViaPM fmt line ⟨a, f, b⟩ attributes j = rawPair fields j) ↔
      (0 < b → FaithfulBackward fmt line (fieldStart fields (a - b))
        (fieldStart fields a - 1)) := by
    cases b with
    | zero => exact ⟨fun _ impossible => absurd impossible (by omega), fun _ j _ _ => by omega⟩
    | succ n =>
      simp only [result, Nat.succ_pos, if_true, true_imp_iff]
      exact viaPMBackward_agrees_iff short lineFields insideBackward (by omega) middleAnchor
  rw [← forward, ← backward]
  constructor
  · intro agree
    refine ⟨fun j above below => ?_, fun j above below => ?_⟩
    · rw [← right j (by omega), agree j (by omega) below, recorded j (by omega)]
    · rw [agree j above (by omega), recorded j (by omega)]
  · rintro ⟨agreeRight, agreeLeft⟩ j above below
    rw [recorded j (by omega)]
    rcases Nat.lt_trichotomy j a with left | same | rightOf
    · exact agreeLeft j above left
    · rw [same, right a (Nat.le_refl a), middleAnchor]
    · rw [right j (by omega), agreeRight j rightOf below]

/-- The theorem at the line `a,b,c`, from the middle column one step to either side. -/
theorem noDBGetNextTupleViaPM_agrees_plain :
    ∃ st, noDBCopyReadAttributesCSV commaFormat 3 2 [97, 44, 98, 44, 99] (fun _ => ⟨0, 0⟩) = .ok st ∧
      ∀ j, 0 ≤ j → j ≤ 2 →
        noDBGetNextTupleViaPM commaFormat [97, 44, 98, 44, 99] ⟨1, 1, 1⟩ (fun _ => ⟨2, 1⟩) j =
          st.attributes j := by
  have split : csvFields commaFormat 2 3 0 [97, 44, 98, 44, 99] =
      .ok [⟨[97], [97], true, false, [98, 44, 99]⟩, ⟨[98], [98], true, false, [99]⟩,
        ⟨[99], [99], false, false, []⟩] := rfl
  have accepted : noDBCopyReadAttributesCSV commaFormat 3 2 [97, 44, 98, 44, 99]
      (fun _ => ⟨0, 0⟩) = .ok _ := rfl
  have agrees := @noDBGetNextTupleViaPM_agrees_iff commaFormat 3 2 _ _ (fun _ => ⟨2, 1⟩) _ _
    ⟨1, 1, 1⟩ rfl accepted split (by decide) (by decide) (by decide) (by decide)
  refine ⟨_, accepted, agrees.mpr ⟨fun _ => ?_, fun _ => ?_⟩⟩
  · intro p first last delimiter
    have : p = 2 ∨ p = 3 ∨ p = 4 ∨ p = 5 := by
      simp [fieldStart] at first last
      omega
    rcases this with rfl | rfl | rfl | rfl <;> revert delimiter <;> decide
  · intro p first below delimiter
    have : p = 0 := by
      simp [fieldStart] at below
      omega
    subst this
    revert delimiter
    decide

/-- From column 0 of `a,"b,c",d` the forward scan takes the comma inside the quotes for a
delimiter, and finds column 2 there. -/
theorem noDBGetNextTupleViaPM_quotedDelimiter :
    ∃ st, noDBCopyReadAttributesCSV commaFormat 3 2 [97, 44, 34, 98, 44, 99, 34, 44, 100]
        (fun _ => ⟨0, 0⟩) = .ok st ∧
      st.attributes 2 = ⟨8, 1⟩ ∧
      noDBGetNextTupleViaPM commaFormat [97, 44, 34, 98, 44, 99, 34, 44, 100] ⟨0, 2, 0⟩
        st.attributes 2 = ⟨5, 2⟩ :=
  ⟨_, rfl, by decide, by decide⟩

end PostgresRaw
