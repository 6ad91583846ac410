import PostgresRaw.Csv.Attributes
import PostgresRaw.Library.Segments

/-!
# Scanning from an anchor: `NoDBGetNextTupleViaPM`

From one column whose position is known, the scan finds the positions of the columns to
its right with `parseLineForward` and of those to its left with `parseLineBackward`.  The
two scanners split at every delimiter byte they look at.  They know nothing of quotes, but
they step over the byte behind a backslash (and further octal or hexadecimal digits), as
the text format, not CSV, asks for.

Each scanner marks the delimiters it sees; `parseForward_eq` and `parseBackward_eq` say
that the pointers it stores are the boundaries of that mask.  What the marks have to do
with the fields of the line is the subject of `PostgresRaw.Csv.Navigation`.
-/

namespace PostgresRaw

open List

/-- `ISOCTAL`. -/
def isOctal (c : Byte) : Bool := 48 ≤ c && c ≤ 55

/-- `isxdigit`. -/
def isHexDigit (c : Byte) : Bool :=
  (48 ≤ c && c ≤ 57) || (65 ≤ c && c ≤ 70) || (97 ≤ c && c ≤ 102)

/-- How far `parseLineForward` moves `cur_ptr` behind a backslash: over one byte, over up to
three octal digits, or over `x` and up to two hexadecimal digits. -/
def escapeForward : List Byte → Nat
  | [] => 0
  | c :: rest =>
    if isOctal c then
      match rest with
      | [] => 1
      | [d] => if isOctal d then 2 else 1
      | d :: e :: _ => if isOctal d then (if isOctal e then 3 else 2) else 1
    else if c = 120 then
      match rest with
      | [] => 1
      | [d] => if isHexDigit d then 2 else 1
      | d :: e :: _ => if isHexDigit d then (if isHexDigit e then 3 else 2) else 1
    else 1

/-- How far `parseLineBackward` moves `cur_ptr` before a backslash.  The test before the
second digit is the wrong way round there (`cur_ptr < line_end_ptr`), so that within the
line at most one digit is stepped over. -/
def escapeBackward : List Byte → Nat
  | [] => 0
  | c :: rest =>
    if isOctal c then
      match rest with
      | [] => 1
      | d :: _ => if isOctal d then 2 else 1
    else if c = 120 then
      match rest with
      | [] => 1
      | d :: _ => if isHexDigit d then 2 else 1
    else 1

/-- How many of the bytes behind `c` the scanner with escape rule `escape` steps over. -/
def stepOver (escape : List Byte → Nat) (c : Byte) (rest : List Byte) : Nat :=
  if c = backslash then escape rest else 0

/-- `attributes[i].pointer = position`. -/
def setPointer (attributes : Nat → PMPair) (i : Nat) (position : Nat) : Nat → PMPair :=
  Function.update attributes i { attributes i with pointer := UInt16.ofNat position }

/-- The loop of `parseLineForward` and the store behind it.  `cur` is the position of
`cur_ptr`, the list holds the bytes from there to the end of the line, and `skip` counts
the bytes that an escape still steps over. -/
def parseForward (delim : Byte) (len : Nat) : (skip cur attributeID howMany : Nat) →
    List Byte → (Nat → PMPair) → Nat → PMPair
  | _, _, attributeID, howMany, [], attributes =>
    -- the last attribute, ended by the end of the line
    if 0 < howMany then setPointer attributes (attributeID + 1) (len + 1) else attributes
  | skip + 1, cur, attributeID, howMany, _ :: rest, attributes =>
    parseForward delim len skip (cur + 1) attributeID howMany rest attributes
  | 0, cur, attributeID, howMany, c :: rest, attributes =>
    if c = delim then
      let attributes := setPointer attributes (attributeID + 1) (cur + 1)
      if howMany - 1 = 0 then attributes
      else parseForward delim len (stepOver escapeForward c rest) (cur + 1) (attributeID + 1)
        (howMany - 1) rest attributes
    else parseForward delim len (stepOver escapeForward c rest) (cur + 1) attributeID howMany
      rest attributes

/-- `parseLineForward` from position `start` of the line.  Its return value, which no caller
uses, is left out. -/
def parseLineForward (fmt : CsvFormat) (lineBuf : List Byte) (attributes : Nat → PMPair)
    (start howMany attributeID : Nat) : Nat → PMPair :=
  parseForward fmt.delim lineBuf.length 0 start attributeID howMany (lineBuf.drop start) attributes

/-- The loop of `parseLineBackward` and the store behind it.  The list holds the bytes from
`cur_ptr` back to the start of the line, so that the position of its head is the length of
its tail. -/
def parseBackward (delim : Byte) : (skip attributeID howMany : Nat) → List Byte →
    (Nat → PMPair) → Nat → PMPair
  | _, attributeID, howMany, [], attributes =>
    -- no delimiter found: the first attribute
    if 0 < howMany then setPointer attributes attributeID 0 else attributes
  | skip + 1, attributeID, howMany, _ :: rest, attributes =>
    parseBackward delim skip attributeID howMany rest attributes
  | 0, attributeID, howMany, c :: rest, attributes =>
    if c = delim then
      let attributes := setPointer attributes attributeID (rest.length + 1)
      if howMany - 1 = 0 then attributes
      else parseBackward delim (stepOver escapeBackward c rest) (attributeID - 1) (howMany - 1)
        rest attributes
    else parseBackward delim (stepOver escapeBackward c rest) attributeID howMany rest attributes

/-- `parseLineBackward` over the first `stop` bytes of the line. -/
def parseLineBackward (fmt : CsvFormat) (lineBuf : List Byte) (attributes : Nat → PMPair)
    (stop howMany attributeID : Nat) : Nat → PMPair :=
  parseBackward fmt.delim 0 attributeID howMany (lineBuf.take stop).reverse attributes

/-- The loops under "Update width". -/
def updateWidths (attributes : Nat → PMPair) : List Nat → Nat → PMPair
  | [] => attributes
  | j :: cols =>
    updateWidths
      (Function.update attributes j
        { attributes j with width := (attributes (j + 1)).pointer - (attributes j).pointer - 1 })
      cols

/-- `NoDBReadViaPM_t`: an anchor column and how many columns to find on either side of it.
The source stores `backward` as a negative number. -/
structure ReadViaPM where
  col : Nat
  forward : Nat
  backward : Nat
deriving DecidableEq, Repr

/-- The first half of `NoDBGetNextTupleViaPM`, taken if `readViaPM.forward > 0`. -/
def viaPMForward (fmt : CsvFormat) (lineBuf : List Byte) (which howMany : Nat)
    (attributes : Nat → PMPair) : Nat → PMPair :=
  let start := (attributes which).pointer.toNat + (attributes which).width.toNat
  let attributes := setPointer attributes (which + 1) (start + 1)
  let attributes := parseLineForward fmt lineBuf attributes (start + 1) howMany (which + 1)
  updateWidths attributes (List.range' (which + 1) howMany)

/-- The second half, taken if `readViaPM.backward < 0`. -/
def viaPMBackward (fmt : CsvFormat) (lineBuf : List Byte) (which howMany : Nat)
    (attributes : Nat → PMPair) : Nat → PMPair :=
  let stop := (attributes which).pointer.toNat - 1
  let attributes := parseLineBackward fmt lineBuf attributes stop howMany (which - 1)
  updateWidths attributes (List.range' (which - howMany) howMany).reverse

/-- `NoDBGetNextTupleViaPM`. -/
def noDBGetNextTupleViaPM (fmt : CsvFormat) (lineBuf : List Byte) (readViaPM : ReadViaPM)
    (attributes : Nat → PMPair) : Nat → PMPair :=
  let attributes :=
    if 0 < readViaPM.forward then
      viaPMForward fmt lineBuf readViaPM.col readViaPM.forward attributes
    else attributes
  if 0 < readViaPM.backward then
    viaPMBackward fmt lineBuf readViaPM.col readViaPM.backward attributes
  else attributes

/-! ### Storing pointers and widths -/

@[simp] theorem setPointer_width (attributes : Nat → PMPair) (i : Nat) (position : Nat) (c : Nat) :
    (setPointer attributes i position c).width = (attributes c).width := by
  by_cases here : c = i
  · subst here; simp [setPointer]
  · simp [setPointer, here]

@[simp] theorem setPointer_pointer_self (attributes : Nat → PMPair) (i : Nat) (position : Nat) :
    (setPointer attributes i position i).pointer = UInt16.ofNat position := by
  simp [setPointer]

variable {c i skip howMany a j : Nat} {attributes : Nat → PMPair} {positions : List Nat} {rest : List Byte}

theorem setPointer_of_ne (attributes : Nat → PMPair) (position : Nat) (other : c ≠ i) :
    setPointer attributes i position c = attributes c := by
  simp [setPointer, other]

/-- Consecutive stores to the columns from `i` upwards. -/
def writeUp (attributes : Nat → PMPair) : Nat → List Nat → Nat → PMPair
  | _, [] => attributes
  | i, position :: positions => writeUp (setPointer attributes i position) (i + 1) positions

/-- Consecutive stores to the columns from `i` downwards. -/
def writeDown (attributes : Nat → PMPair) : Nat → List Nat → Nat → PMPair
  | _, [] => attributes
  | i, position :: positions => writeDown (setPointer attributes i position) (i - 1) positions

theorem writeUp_of_lt (before : c < i) (positions : List Nat) : writeUp attributes i positions c = attributes c := by
  induction positions generalizing attributes i with
  | nil => rfl
  | cons position positions ih =>
    rw [writeUp, ih (by omega), setPointer_of_ne _ _ (by omega)]

theorem writeUp_pointer {attributes : Nat → PMPair} {i k position : Nat} {positions : List Nat}
    (here : positions[k]? = some position) :
    (writeUp attributes i positions (i + k)).pointer = UInt16.ofNat position := by
  induction positions generalizing attributes i k with
  | nil => simp at here
  | cons first positions ih =>
    cases k with
    | zero =>
      simp only [getElem?_cons_zero, Option.some.injEq] at here
      rw [writeUp, add_zero i, writeUp_of_lt (Nat.lt_add_one i), setPointer_pointer_self, here]
    | succ k =>
      rw [writeUp, show i + (k + 1) = i + 1 + k by omega]
      exact ih (by simpa using here)

theorem writeUp_of_le (after : i + positions.length ≤ c) : writeUp attributes i positions c = attributes c := by
  induction positions generalizing attributes i with
  | nil => rfl
  | cons position positions ih =>
    rw [length_cons] at after
    rw [writeUp, ih (by omega), setPointer_of_ne _ _ (by omega)]

@[simp] theorem writeUp_width (attributes : Nat → PMPair) (i : Nat) (positions : List Nat) (c : Nat) :
    (writeUp attributes i positions c).width = (attributes c).width := by
  induction positions generalizing attributes i with
  | nil => rfl
  | cons position positions ih => rw [writeUp, ih, setPointer_width]

theorem writeDown_of_lt (before : c + positions.length ≤ i) : writeDown attributes i positions c = attributes c := by
  induction positions generalizing attributes i with
  | nil => rfl
  | cons position positions ih =>
    rw [length_cons] at before
    rw [writeDown, ih (by omega), setPointer_of_ne _ _ (by omega)]

theorem writeDown_of_gt (after : i < c) (positions : List Nat) : writeDown attributes i positions c = attributes c := by
  induction positions generalizing attributes i with
  | nil => rfl
  | cons position positions ih =>
    rw [writeDown, ih (by omega), setPointer_of_ne _ _ (by omega)]

theorem writeDown_pointer {k position : Nat} (here : positions[k]? = some position) (inside : positions.length ≤ i + 1) :
    (writeDown attributes i positions (i - k)).pointer = UInt16.ofNat position := by
  induction positions generalizing attributes i k with
  | nil => simp at here
  | cons first positions ih =>
    rw [length_cons] at inside
    cases k with
    | zero =>
      simp only [getElem?_cons_zero, Option.some.injEq] at here
      rw [writeDown, Nat.sub_zero]
      cases positions with
      | nil => simp [writeDown, here]
      | cons second positions =>
        rw [length_cons] at inside
        rw [writeDown_of_gt (by omega), setPointer_pointer_self, here]
    | succ k =>
      have tail : positions[k]? = some position := by simpa using here
      rw [writeDown, show i - (k + 1) = i - 1 - k by omega]
      exact ih tail (by omega)

/-- The width loops keep the pointers and compute each width from two of them. -/
theorem updateWidths_apply (attributes : Nat → PMPair) (cols : List Nat) (c : Nat) :
    updateWidths attributes cols c =
      { pointer := (attributes c).pointer
        width := if c ∈ cols then (attributes (c + 1)).pointer - (attributes c).pointer - 1
          else (attributes c).width } := by
  induction cols generalizing attributes with
  | nil => rfl
  | cons j cols ih =>
    have pointers : ∀ d, (Function.update attributes j
        { attributes j with
          width := (attributes (j + 1)).pointer - (attributes j).pointer - 1 } d).pointer =
        (attributes d).pointer := by
      intro d
      by_cases here : d = j
      · subst here; simp
      · simp [here]
    rw [updateWidths, ih, pointers, pointers]
    by_cases later : c ∈ cols
    · simp [later]
    · by_cases here : c = j
      · subst here; simp [later]
      · simp [later, here]

/-! ### The three scanners as masks -/

/-- The delimiter bytes of a line that are not hidden. -/
def visibleDelims (delim : Byte) (line : List Byte) (hidden : List Bool) : List Bool :=
  List.zipWith (fun c h => c == delim && !h) line hidden

/-- The positions that a scanner with escape rule `escape` steps over. -/
def steppedOver (escape : List Byte → Nat) : Nat → List Byte → List Bool
  | _, [] => []
  | skip + 1, _ :: rest => true :: steppedOver escape skip rest
  | 0, c :: rest => false :: steppedOver escape (stepOver escape c rest) rest

/-- The positions inside quotes, a quote byte toggling `inQuote`. -/
def quotedMask : Bool → List Byte → List Bool
  | _, [] => []
  | inQuote, c :: rest =>
    inQuote :: quotedMask (if c = defaultQuote then !inQuote else inQuote) rest

@[simp] theorem steppedOver_length (escape : List Byte → Nat) (skip : Nat) (line : List Byte) :
    (steppedOver escape skip line).length = line.length := by
  induction line generalizing skip with
  | nil => cases skip <;> rfl
  | cons c rest ih => cases skip <;> simp [steppedOver, ih]

@[simp] theorem quotedMask_length (inQuote : Bool) (line : List Byte) :
    (quotedMask inQuote line).length = line.length := by
  induction line generalizing inQuote with
  | nil => rfl
  | cons c rest ih => simp [quotedMask, ih]

section Visible

variable {escape : List Byte → Nat} {delim c : Byte} {rest : List Byte}

@[simp] theorem visibleDelims_nil (hidden : List Bool) : visibleDelims delim [] hidden = [] := rfl

@[simp] theorem visibleDelims_skipped (skip : Nat) :
    visibleDelims delim (c :: rest) (steppedOver escape (skip + 1) (c :: rest)) =
      false :: visibleDelims delim rest (steppedOver escape skip rest) := by
  simp [visibleDelims, steppedOver]

theorem visibleDelims_delim : visibleDelims delim (delim :: rest) (steppedOver escape 0 (delim :: rest)) =
      true :: visibleDelims delim rest (steppedOver escape (stepOver escape delim rest) rest) := by
  simp [visibleDelims, steppedOver]

theorem visibleDelims_other (other : c ≠ delim) : visibleDelims delim (c :: rest) (steppedOver escape 0 (c :: rest)) =
      false :: visibleDelims delim rest (steppedOver escape (stepOver escape c rest) rest) := by
  simp [visibleDelims, steppedOver, other]

end Visible

/-- **The forward scanner stores the boundaries of its mask.** -/
theorem parseForward_eq (delim : Byte) {len cur : Nat} (atEnd : cur + rest.length = len) (attributeID howMany : Nat)
    (attributes : Nat → PMPair) : parseForward delim len skip cur attributeID (howMany + 1) rest attributes =
      writeUp attributes (attributeID + 1) ((Segments.boundaries (howMany + 1) cur
        (visibleDelims delim rest (steppedOver escapeForward skip rest))).map (· + 1)) := by
  induction rest generalizing skip cur attributeID howMany attributes with
  | nil =>
    have : cur = len := by simpa using atEnd
    simp [parseForward, writeUp, this]
  | cons c rest ih =>
    have atEnd' : cur + 1 + rest.length = len := by simp only [length_cons] at atEnd; omega
    cases skip with
    | succ skip =>
      rw [parseForward, ih atEnd', visibleDelims_skipped, Segments.boundaries_succ_false]
    | zero =>
      by_cases split : c = delim
      · subst split
        rw [parseForward, if_pos rfl, visibleDelims_delim, Segments.boundaries_succ_true,
          Nat.add_sub_cancel, map_cons, writeUp]
        cases howMany with
        | zero => simp [writeUp]
        | succ howMany => exact ih atEnd' _ _ _
      · rw [parseForward, if_neg split, ih atEnd', visibleDelims_other split, Segments.boundaries_succ_false]

/-- **The backward scanner stores the boundaries of its mask**, counted from the other end:
a boundary that is `r` bytes from the start of the scan has `length - r` bytes before it. -/
theorem parseBackward_eq (delim : Byte) {r stop : Nat} (atStart : r + rest.length = stop) (attributeID howMany : Nat)
    (attributes : Nat → PMPair) : parseBackward delim skip attributeID (howMany + 1) rest attributes =
      writeDown attributes attributeID ((Segments.boundaries (howMany + 1) r
        (visibleDelims delim rest (steppedOver escapeBackward skip rest))).map (stop - ·)) := by
  induction rest generalizing skip r attributeID howMany attributes with
  | nil =>
    have : r = stop := by simpa using atStart
    simp [parseBackward, writeDown, this]
  | cons c rest ih =>
    have atStart' : r + 1 + rest.length = stop := by
      simp only [length_cons] at atStart; omega
    cases skip with
    | succ skip =>
      rw [parseBackward, ih atStart', visibleDelims_skipped, Segments.boundaries_succ_false]
    | zero =>
      by_cases split : c = delim
      · subst split
        have position : stop - r = rest.length + 1 := by omega
        rw [parseBackward, if_pos rfl, visibleDelims_delim, Segments.boundaries_succ_true,
          Nat.add_sub_cancel, map_cons, writeDown, position]
        cases howMany with
        | zero => simp [writeDown]
        | succ howMany => exact ih atStart' _ _ _
      · rw [parseBackward, if_neg split, ih atStart', visibleDelims_other split, Segments.boundaries_succ_false]

/-- The forward scan does not touch the columns up to `attributeID`. -/
theorem parseForward_of_le (delim : Byte) (len : Nat) {cur attributeID : Nat} (before : c ≤ attributeID) :
    parseForward delim len skip cur attributeID howMany rest attributes c = attributes c := by
  fun_induction parseForward delim len skip cur attributeID howMany rest attributes with
  | case1 => exact setPointer_of_ne _ _ (by omega)
  | case2 => rfl
  | case4 => exact setPointer_of_ne _ _ (by omega)
  | case3 _ _ _ _ _ _ _ ih | case6 _ _ _ _ _ _ _ ih => exact ih before
  | case5 _ _ _ _ _ _ _ ih => exact (ih (by omega)).trans (setPointer_of_ne _ _ (by omega))

/-- The backward scan does not touch the columns above `attributeID`. -/
theorem parseBackward_of_gt (delim : Byte) {attributeID : Nat} (after : attributeID < c) :
    parseBackward delim skip attributeID howMany rest attributes c = attributes c := by
  fun_induction parseBackward delim skip attributeID howMany rest attributes with
  | case1 => exact setPointer_of_ne _ _ (by omega)
  | case2 => rfl
  | case4 => exact setPointer_of_ne _ _ (by omega)
  | case3 _ _ _ _ _ _ ih | case6 _ _ _ _ _ _ ih => exact ih after
  | case5 _ _ _ _ _ _ ih => exact (ih (by omega)).trans (setPointer_of_ne _ _ (by omega))

/-- Navigating to the right leaves the anchor and everything to its left alone. -/
theorem viaPMForward_of_le (fmt : CsvFormat) (line : List Byte) (before : j ≤ a) :
    viaPMForward fmt line a howMany attributes j = attributes j := by
  have outside : j ∉ List.range' (a + 1) howMany := fun mem => by
    have := mem_range'_1.mp mem
    omega
  simp only [viaPMForward, parseLineForward]
  rw [updateWidths_apply, if_neg outside, parseForward_of_le fmt.delim _ (by omega), setPointer_of_ne _ _ (by omega)]

/-- Navigating to the left leaves the anchor and everything to its right alone. -/
theorem viaPMBackward_of_ge (fmt : CsvFormat) (line : List Byte) (positive : 0 < howMany) (inside : howMany ≤ a)
    (after : a ≤ j) : viaPMBackward fmt line a howMany attributes j = attributes j := by
  have outside : j ∉ (List.range' (a - howMany) howMany).reverse := fun mem => by
    have := mem_range'_1.mp (mem_reverse.mp mem)
    omega
  simp only [viaPMBackward, parseLineBackward]
  rw [updateWidths_apply, if_neg outside, parseBackward_of_gt fmt.delim (by omega)]

/-- Nor does it touch the columns to the left of those that it looks for. -/
theorem viaPMBackward_of_lt (fmt : CsvFormat) (line : List Byte) {n : Nat} (before : j + (n + 1) < a) :
    viaPMBackward fmt line a (n + 1) attributes j = attributes j := by
  have outside : j ∉ (List.range' (a - (n + 1)) (n + 1)).reverse := fun mem => by
    have := mem_range'_1.mp (mem_reverse.mp mem)
    omega
  simp only [viaPMBackward, parseLineBackward]
  rw [updateWidths_apply, if_neg outside, parseBackward_eq fmt.delim (zero_add _), writeDown_of_lt]
  have := Segments.boundaries_length_le (n + 1) 0
    (visibleDelims fmt.delim (line.take ((attributes a).pointer.toNat - 1)).reverse
      (steppedOver escapeBackward 0 (line.take ((attributes a).pointer.toNat - 1)).reverse))
  rw [length_map]
  omega

end PostgresRaw
