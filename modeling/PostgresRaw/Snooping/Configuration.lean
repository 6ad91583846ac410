import PostgresRaw.Library.Lists
import PostgresRaw.Library.SlotTable
import PostgresRaw.Snooping.CopyCommand

/-!
# Loading the configuration

`loadEnvironment` reads `snoop.conf` line by line.  A line `key-N = 'value'` sets one field of the slot whose `id` is
`N`; the first line of a number takes a slot that is free, which is one whose `id` is `-1`.  The getters look for the
name of a relation in the slots that are in use.

What is load-bearing: the array of slots is a table of `PostgresRaw.Library.SlotTable`, whose owners are the numbers, so
that a line changes the fields of its own number and of no other (`Loaded.loadLine_entry`).  The number is read by
`atoi`, into an `int`: two numbers that differ by a multiple of `2 ^ 32` are one owner (`not_groupsByNumber_wide`).

The library is that of GNU: `strtol` has 64 bits, `atoi` keeps the lower 32 of them, and `tolower` is that of the C
locale.  Assertions are compiled out.  A write outside an array, or through an entry of `args` that has not been
written, is `none`.
-/

namespace PostgresRaw

open List

/-! ### The configuration in memory -/

/-- `NUMBER_OF_RELATIONS` -/
def numberOfRelations : Nat := 50

/-- An array of `char`. -/
def CharArray (size : Nat) : Type := { bytes : List Byte // bytes.length = size }

instance (size : Nat) : DecidableEq (CharArray size) := inferInstanceAs (DecidableEq (Subtype _))

/-- The string in an array. -/
def CharArray.string {size : Nat} (a : CharArray size) : List Byte := cString a.1

/-- An array of static storage. -/
def CharArray.zero (size : Nat) : CharArray size := ⟨List.replicate size nulByte, length_replicate⟩

/-- An `InputFile` of the source, with the bytes of its arrays. -/
structure FileSlot where
  filename : CharArray maxFilename
  relation : CharArray maxRelationName
  delimiter : CharArray maxDelimiter
  header : Bool
  id : Int

/-- `ConfigurationFile`, without the paths. -/
structure ConfigurationFile where
  files : List FileSlot
  howMany : Nat
  loaded : Bool

/-- `CF` before the first call. -/
def ConfigurationFile.zero : ConfigurationFile where
  files := List.replicate numberOfRelations ⟨.zero _, .zero _, .zero _, false, 0⟩
  howMany := 0
  loaded := false

/-- `strcpy(a, "\0")` -/
def CharArray.clear {size : Nat} (a : CharArray size) : CharArray size :=
  ⟨a.1.set 0 nulByte, length_set.trans a.2⟩

/-- `initialiazeConfiguration` -/
def ConfigurationFile.initialiazeConfiguration (cf : ConfigurationFile) : ConfigurationFile where
  files := cf.files.map fun slot =>
    { slot with filename := slot.filename.clear, relation := slot.relation.clear, delimiter := slot.delimiter.clear, id := -1 }
  howMany := 0
  loaded := false

/-- `searchSlotInConfiguration`; `none` stands for the result `-1`. -/
def ConfigurationFile.searchSlotInConfiguration (cf : ConfigurationFile) (value : Int) : Option (Nat × ConfigurationFile) :=
  match cf.files.findIdx? fun slot => slot.id = value with
  | some i => some (i, cf)
  | none =>
    match cf.files.findIdx? fun slot => slot.id = -1 with
    | some i => some (i, { cf with howMany := cf.howMany + 1 })
    | none => none

/-! ### The value of a line -/

/-- `strncpy` -/
def strncpy (dst src : List Byte) (n : Nat) : List Byte :=
  src.take n ++ List.replicate (n - src.length) nulByte ++ dst.drop n

theorem length_strncpy {dst src : List Byte} {n : Nat} (fits : n ≤ dst.length) : (strncpy dst src n).length = dst.length := by
  simp only [strncpy, length_append, length_take, length_replicate, length_drop]
  omega

variable {i size N : Nat} {b : Byte} {slot : FileSlot} {cf : ConfigurationFile} {keys : Finset Nat} {line : List Byte}

theorem length_set_strncpy {dst src : List Byte} {n : Nat} (length : dst.length = size) (fits : n ≤ size) :
    ((strncpy dst src n).set i nulByte).length = size := by
  rw [length_set, length_strncpy (by omega), length]

/-- The two statements that copy `args[2]` without its first and its last character:
`strncpy(dst, args[2] + 1, size - 1)` and `dst[size - 2] = '\0'`. -/
def CharArray.storeUnquoted {size : Nat} (dst : CharArray size) (arg : List Byte) : Option (CharArray size) :=
  if fits : 2 ≤ arg.length ∧ arg.length - 1 ≤ size then
    some ⟨(strncpy dst.1 (arg.drop 1) (arg.length - 1)).set (arg.length - 2) nulByte, length_set_strncpy dst.2 fits.2⟩
  else none

theorem length_map_cString (f : Byte → Byte) (bytes : List Byte) :
    ((cString bytes).map f ++ bytes.drop (cString bytes).length).length = bytes.length := by
  have := ( takeWhile_prefix (l := bytes) (· ≠ nulByte)).length_le
  rw [length_append, length_map, length_drop, cString]
  omega

/-- The loop that applies `tolower` to the characters of a string. -/
def CharArray.tolower {size : Nat} (a : CharArray size) : CharArray size :=
  ⟨a.string.map downcase ++ a.1.drop a.string.length, (length_map_cString downcase a.1).trans a.2⟩

/-- The keys of `snoop.conf`. -/
inductive ConfKey where
  | filename
  | relation
  | delimiter
  | header
deriving DecidableEq

/-- What a line with the key begins with. -/
def ConfKey.text : ConfKey → List Byte
  | .filename => ascii "filename-"
  | .relation => ascii "relation-"
  | .delimiter => ascii "delimiter-"
  | .header => ascii "header-"

/-- The assignment to the field of a key. -/
def ConfKey.assign (key : ConfKey) (slot : FileSlot) (arg : List Byte) : Option FileSlot :=
  match key with
  | .filename => (slot.filename.storeUnquoted arg).map fun a => { slot with filename := a }
  | .relation => (slot.relation.storeUnquoted arg).map fun a => { slot with relation := a.tolower }
  | .delimiter => (slot.delimiter.storeUnquoted arg).map fun a => { slot with delimiter := a }
  -- `arg2` is an array of this size on the stack
  | .header => ((CharArray.zero (arg.length - 1)).storeUnquoted arg).map fun a => { slot with header := a.string = ascii "True" }

/-! ### The number of a line -/

/-- `isdigit` -/
def isDigit (b : Byte) : Bool := 48 ≤ b && b ≤ 57

/-- `isspace` -/
def isspace (b : Byte) : Bool := b = 32 || (9 ≤ b && b ≤ 13)

/-- The number that digits denote. -/
def digitsValue (digits : List Byte) : Nat := digits.foldl (fun n b => 10 * n + (b.toNat - 48)) 0

/-- `strtol` to the base ten. -/
def strtol (text : List Byte) : Int :=
  match text.dropWhile isspace with
  | [] => 0
  | b :: rest =>
    if b = 45 then max (-2 ^ 63) (-(digitsValue (rest.takeWhile isDigit) : Int))
    else if b = 43 then min (2 ^ 63 - 1) (digitsValue (rest.takeWhile isDigit))
    else min (2 ^ 63 - 1) (digitsValue ((b :: rest).takeWhile isDigit))

/-- `atoi` -/
def atoi (text : List Byte) : Int := toInt (strtol text)

/-! ### Lines -/

/-- The branches of `loadEnvironment` for a line of three tokens. -/
def ConfigurationFile.loadArgs (cf : ConfigurationFile) (arg0 arg1 arg2 : List Byte) : Option ConfigurationFile :=
  match [ConfKey.filename, .relation, .delimiter, .header].find? fun key => key.text.isPrefixOf arg0 && arg1 = ascii "=" with
  | none => some cf
  | some key =>
    let val := atoi (arg0.drop key.text.length)
    match cf.searchSlotInConfiguration val with
    | none => some cf
    | some (pos, cf) => do
        let slot ← cf.files[pos]?
        let slot ← key.assign slot arg2
        some { cf with files := cf.files.set pos { slot with id := val } }

/-- The string that an entry of `args` points to. -/
def Parsed.arg (r : Parsed) (i : Nat) : Option (List Byte) :=
  match r.args[i]? with
  | some (some p) => some (cString (r.line.drop p))
  | _ => none

/-- The body of the loop of `loadEnvironment`. -/
def ConfigurationFile.loadLine (cf : ConfigurationFile) (line : List Byte) : Option ConfigurationFile :=
  let r := parse line
  if ∀ i ∈ r.written, 0 ≤ i ∧ i < maxTokens then
    if r.counter = 3 then do
      let arg0 ← r.arg 0
      let arg1 ← r.arg 1
      let arg2 ← r.arg 2
      cf.loadArgs arg0 arg1 arg2
    else some cf
  else none

/-- **`loadEnvironment`**, for the text of the file. -/
def ConfigurationFile.loadEnvironment (cf : ConfigurationFile) (text : List Byte) : Option ConfigurationFile :=
  ((configurationLines text).foldlM loadLine cf.initialiazeConfiguration).map fun cf => { cf with loaded := true }

/-! ### The getters -/

/-- The loop of the getters. -/
def ConfigurationFile.findRelation (cf : ConfigurationFile) (relation : List Byte) : Option FileSlot :=
  if cf.loaded then cf.files.find? fun slot => slot.id ≠ -1 && slot.relation.string = relation else none

/-- `getInputFilename` -/
def ConfigurationFile.getInputFilename (cf : ConfigurationFile) (relation : List Byte) : Option (List Byte) :=
  (cf.findRelation relation).map fun slot => slot.filename.string

/-- `getDelimiter` -/
def ConfigurationFile.getDelimiter (cf : ConfigurationFile) (relation : List Byte) : Option (List Byte) :=
  (cf.findRelation relation).map fun slot => slot.delimiter.string

/-- `getHeader` -/
def ConfigurationFile.getHeader (cf : ConfigurationFile) (relation : List Byte) : Bool :=
  ((cf.findRelation relation).map fun slot => slot.header).getD false

/-! ### The lines of a configuration -/

/-- The size of the field of a key, if it has one: the value of `header` is only compared. -/
def ConfKey.capacity : ConfKey → Option Nat
  | .filename => some maxFilename
  | .relation => some maxRelationName
  | .delimiter => some maxDelimiter
  | .header => none

/-- **A line `key-N = 'value'`**: `N` is written in digits, and the value has no blank and fits its field. -/
structure ConfEntry where
  key : ConfKey
  digits : List Byte
  value : List Byte
  digits_ne_nil : digits ≠ []
  digits_digit : ∀ b ∈ digits, isDigit b = true
  value_solid : ∀ b ∈ value, IsSolid b
  value_lt : ∀ size ∈ key.capacity, value.length < size

/-- `N` -/
def ConfEntry.number (e : ConfEntry) : Nat := digitsValue e.digits

/-- The value in its quotes. -/
def ConfEntry.quoted (e : ConfEntry) : List Byte := singleQuote :: (e.value ++ [singleQuote])

/-- **A comment**: a line that begins with `#`, of less than sixteen words. -/
structure Comment where
  text : List Byte
  newline_notMem : newline ∉ text
  nul_notMem : nulByte ∉ text
  few : (tokens (ascii "#" ++ text ++ [newline])).length < maxTokens

/-- A line of a configuration. -/
inductive ConfLine where
  | entry (e : ConfEntry)
  | comment (c : Comment)

/-- The bytes of a line in front of its newline. -/
def ConfLine.body : ConfLine → List Byte
  | .entry e => (e.key.text ++ e.digits) ++ (ascii " " ++ (ascii "=" ++ (ascii " " ++ e.quoted)))
  | .comment c => ascii "#" ++ c.text

/-- The text of `snoop.conf`. -/
def confText (lines : List ConfLine) : List Byte := (lines.map fun line => line.body ++ [newline]).flatten

def ConfLine.entry? : ConfLine → Option ConfEntry
  | .entry e => some e
  | .comment _ => none

/-- The lines that are not comments. -/
def entriesOf (lines : List ConfLine) : List ConfEntry := lines.filterMap ConfLine.entry?

/-- The numbers of a configuration. -/
def numbers (entries : List ConfEntry) : List Nat := entries.map ConfEntry.number

/-- The value of the last line for a number and a key; empty if there is none. -/
def valueOf (entries : List ConfEntry) (number : Nat) (key : ConfKey) : List Byte :=
  match (entries.filter fun e => e.number = number && e.key = key).getLast? with
  | some e => e.value
  | none => []

/-- The name of the relation of a number, in lower case. -/
def relationOf (entries : List ConfEntry) (number : Nat) : List Byte := (valueOf entries number .relation).map downcase

/-- Whether the file of a number has a header. -/
def headerOf (entries : List ConfEntry) (number : Nat) : Bool := valueOf entries number .header = ascii "True"

/-- **The fields of a slot are those of a number.** -/
structure FileSlot.Shows (slot : FileSlot) (entries : List ConfEntry) (number : Nat) : Prop where
  filename : slot.filename.string = valueOf entries number .filename
  relation : slot.relation.string = relationOf entries number
  delimiter : slot.delimiter.string = valueOf entries number .delimiter
  header : slot.header = headerOf entries number

/-- **Each number has one slot**, with its own fields, and no other slot is in use. -/
def OwnSlots (entries : List ConfEntry) (cf : ConfigurationFile) : Prop :=
  ∃ slotOf : Nat → Nat,
    (∀ N ∈ numbers entries, ∃ slot, cf.files[slotOf N]? = some slot ∧ slot.id ≠ -1 ∧ slot.Shows entries N) ∧
    (∀ M ∈ numbers entries, ∀ N ∈ numbers entries, slotOf M = slotOf N → M = N) ∧
    ∀ (i : Nat) (slot : FileSlot), cf.files[i]? = some slot → slot.id ≠ -1 → ∃ N ∈ numbers entries, slotOf N = i

/-- A name of a relation that is the name of one number. -/
def UsedOnlyBy (entries : List ConfEntry) (relation : List Byte) (number : Nat) : Prop :=
  number ∈ numbers entries ∧ ∀ N ∈ numbers entries, relationOf entries N = relation ↔ N = number

instance (entries : List ConfEntry) (relation : List Byte) (number : Nat) : Decidable (UsedOnlyBy entries relation number) :=
  inferInstanceAs (Decidable (_ ∧ _))

/-- The getters return the values of a number. -/
def Answers (cf : ConfigurationFile) (relation : List Byte) (entries : List ConfEntry) (number : Nat) : Prop :=
  cf.getInputFilename relation = some (valueOf entries number .filename) ∧
    cf.getDelimiter relation = some (valueOf entries number .delimiter) ∧ cf.getHeader relation = headerOf entries number

/-- The same lines up to the order of lines of different numbers, and to comments. -/
def SameByNumber (lines lines' : List ConfLine) : Prop :=
  ∀ N, ((entriesOf lines).filter fun e => e.number = N) = (entriesOf lines').filter fun e => e.number = N

/-- **The entries of a configuration are grouped by their number.** -/
structure GroupsByNumber (lines : List ConfLine) : Prop where
  /-- After every line, no number's slot has a field of another. -/
  always : ∀ n, ∃ cf, ((configurationLines (confText lines)).take n).foldlM ConfigurationFile.loadLine
    ConfigurationFile.zero.initialiazeConfiguration = some cf ∧ OwnSlots (entriesOf (lines.take n)) cf
  loads : ∃ cf, ConfigurationFile.zero.loadEnvironment (confText lines) = some cf ∧ OwnSlots (entriesOf lines) cf
  /-- The getters return the values of the number whose relation is asked for, whatever the order of the lines. -/
  answers : ∀ (lines' : List ConfLine) (relation : List Byte) (N : Nat), SameByNumber lines lines' →
    UsedOnlyBy (entriesOf lines) relation N → ∃ cf, ConfigurationFile.zero.loadEnvironment (confText lines') = some cf ∧
      Answers cf relation (entriesOf lines) N

/-! ### Storing a value -/

theorem nul_notMem_of_solid {value : List Byte} (solid : ∀ b ∈ value, IsSolid b) : nulByte ∉ value :=
  fun mem => (solid nulByte mem).2 rfl

/-- The bytes that the two statements leave. -/
theorem set_strncpy_quoted (dst value : List Byte) :
    (strncpy dst (value ++ [singleQuote]) (value.length + 1)).set value.length nulByte =
      value ++ nulByte :: dst.drop (value.length + 1) := by
  have whole : (value ++ [singleQuote]).take (value.length + 1) = value ++ [singleQuote] :=
    take_of_length_le (by simp)
  have none : value.length + 1 - (value ++ [singleQuote]).length = 0 := by simp
  rw [strncpy, whole, none, replicate_zero, append_nil, append_assoc, singleton_append,
    set_append_right _ _ le_rfl, Nat.sub_self, set_cons_zero]

/-- **The value is stored without its quotes.** -/
theorem CharArray.exists_storeUnquoted (dst : CharArray size) {value : List Byte} (noNul : nulByte ∉ value)
    (fits : value.length < size) :
    ∃ a, dst.storeUnquoted (singleQuote :: (value ++ [singleQuote])) = some a ∧ a.string = value := by
  have size_eq : (singleQuote :: (value ++ [singleQuote])).length = value.length + 2 := by simp
  refine ⟨_, dif_pos ⟨by omega, by omega⟩, ?_⟩
  simp only [CharArray.string, size_eq, Nat.add_sub_cancel, show value.length + 2 - 1 = value.length + 1 by omega,
    drop_succ_cons, drop_zero, set_strncpy_quoted]
  exact @cString_token [] value _ noNul (by simp)

theorem downcase_ne_nul (some : b ≠ nulByte) : downcase b ≠ nulByte := by
  rw [downcase]
  split
  · next upper =>
    intro nul
    have low := (le_downcase upper).1
    rw [nul] at low
    exact absurd low (by decide)
  · exact some

/-- The loop with `tolower` gives the string in lower case. -/
theorem CharArray.string_tolower (a : CharArray size) : a.tolower.string = a.string.map downcase := by
  have noNul : nulByte ∉ a.string.map downcase := by
    intro mem
    obtain ⟨b, inString, nul⟩ := mem_map.1 mem
    exact downcase_ne_nul (of_decide_eq_true (all_eq_true.1 all_takeWhile b inString)) nul
  have behind : a.1.drop a.string.length = a.1.dropWhile (· ≠ nulByte) := by
    conv_lhs => rw [← @takeWhile_append_dropWhile _ (· ≠ nulByte) a.1]
    exact drop_left
  refine @cString_token [] _ (a.1.drop a.string.length) noNul fun b first => ?_
  rw [behind] at first
  simpa using test_head_dropWhile first

/-! ### Reading a number -/

theorem le_of_isDigit (digit : isDigit b = true) : 48 ≤ b := by
  rw [isDigit, Bool.and_eq_true, decide_eq_true_eq] at digit
  exact digit.1

theorem isspace_of_isDigit (digit : isDigit b = true) : isspace b = false := by
  have low := le_of_isDigit digit
  rw [isspace, Bool.or_eq_false_iff, Bool.and_eq_false_iff, decide_eq_false_iff_not, decide_eq_false_iff_not,
    decide_eq_false_iff_not]
  refine ⟨?_, .inr fun high => ?_⟩
  · rintro rfl
    exact absurd low (by decide)
  · exact absurd (UInt8.le_trans low high) (by decide)

/-- `atoi` reads a number that is an `int`. -/
theorem atoi_digits {digits : List Byte} (some : digits ≠ []) (digit : ∀ b ∈ digits, isDigit b = true)
    (small : digitsValue digits < 2 ^ 31) : atoi digits = digitsValue digits := by
  obtain ⟨b, rest, rfl⟩ := exists_cons_of_ne_nil some
  have first := digit b mem_cons_self
  have low := le_of_isDigit first
  have notMinus : b ≠ 45 := by
    rintro rfl
    exact absurd low (by decide)
  have notPlus : b ≠ 43 := by
    rintro rfl
    exact absurd low (by decide)
  have start : (b :: rest).dropWhile isspace = b :: rest :=
    dropWhile_cons_of_neg (by rw [isspace_of_isDigit first]; decide)
  have whole : (b :: rest).takeWhile isDigit = b :: rest := takeWhile_eq_self_iff.2 digit
  rw [atoi, strtol, start]
  dsimp only
  rw [if_neg notMinus, if_neg notPlus, whole, min_eq_right (by omega), toInt_of_lt small]

/-! ### The values of a number -/

variable {e : ConfEntry} {entries : List ConfEntry}

theorem valueOf_concat_of_ne {key : ConfKey} (other : ¬ (e.number = N ∧ e.key = key)) :
    valueOf (entries ++ [e]) N key = valueOf entries N key := by
  rw [valueOf, valueOf, filter_append, filter_cons_of_neg (by simpa using other), filter_nil, append_nil]

/-- The last line counts. -/
theorem valueOf_concat (entries : List ConfEntry) (e : ConfEntry) :
    valueOf (entries ++ [e]) e.number e.key = e.value := by
  rw [valueOf, filter_append, filter_cons_of_pos (by simp), filter_nil, getLast?_concat]

theorem valueOf_of_notMem (absent : N ∉ numbers entries) (key : ConfKey) : valueOf entries N key = [] := by
  have none : (entries.filter fun e => e.number = N && e.key = key) = [] := by
    refine filter_eq_nil_iff.2 fun e mem isN => absent (mem_map.2 ⟨e, mem, ?_⟩)
    rw [Bool.and_eq_true, decide_eq_true_eq] at isN
    exact isN.1
  rw [valueOf, none]
  rfl

/-- The values of a number are those of its own lines. -/
theorem valueOf_congr {entries' : List ConfEntry}
    (same : (entries.filter fun e => e.number = N) = entries'.filter fun e => e.number = N) :
    valueOf entries N = valueOf entries' N := by
  funext key
  have cut (l : List ConfEntry) : (l.filter fun e => e.number = N && e.key = key) =
      (l.filter fun e => e.number = N).filter fun e => e.key = key := by
    rw [filter_filter]
    exact filter_congr fun e _ => Bool.and_comm ..
  rw [valueOf, valueOf, cut, cut, same]

theorem mem_numbers_iff : N ∈ numbers entries ↔ (entries.filter fun e => e.number = N) ≠ [] := by
  rw [numbers, mem_map, Ne, filter_eq_nil_iff, Classical.not_forall]
  refine exists_congr fun e => ?_
  simp

theorem mem_numbers_concat : N ∈ numbers (entries ++ [e]) ↔ N ∈ numbers entries ∨ N = e.number := by
  rw [numbers, map_append, mem_append, map_singleton, mem_singleton, numbers]

/-! ### One field of a slot -/

/-- A line of another number does not concern a slot. -/
theorem FileSlot.Shows.concat_of_ne (shows : slot.Shows entries N) (other : N ≠ e.number) :
    slot.Shows (entries ++ [e]) N := by
  have same (key : ConfKey) : valueOf (entries ++ [e]) N key = valueOf entries N key :=
    valueOf_concat_of_ne fun ⟨number, _⟩ => other number.symm
  constructor
  · rw [same, shows.filename]
  · rw [relationOf, same, shows.relation, relationOf]
  · rw [same, shows.delimiter]
  · rw [headerOf, same, shows.header, headerOf]

/-- **The assignment of a line** sets the field of its key and leaves the others. -/
theorem ConfEntry.exists_assign (e : ConfEntry) (shows : slot.Shows entries e.number) :
    ∃ slot', e.key.assign slot e.quoted = some slot' ∧ ∀ id, { slot' with id := id : FileSlot }.Shows (entries ++ [e]) e.number := by
  have noNul := nul_notMem_of_solid e.value_solid
  have last := valueOf_concat entries e
  have same {key : ConfKey} (different : e.key ≠ key) :
      valueOf (entries ++ [e]) e.number key = valueOf entries e.number key :=
    valueOf_concat_of_ne fun ⟨_, isKey⟩ => different isKey
  -- what a line leaves as it is, if it has another key
  have filename (different : e.key ≠ .filename) := shows.filename.trans (same different).symm
  have relation (different : e.key ≠ .relation) := shows.relation.trans (congrArg (List.map downcase) (same different).symm)
  have delimiter (different : e.key ≠ .delimiter) := shows.delimiter.trans (same different).symm
  have header (different : e.key ≠ .header) : slot.header = headerOf (entries ++ [e]) e.number := by
    rw [headerOf, same different]
    exact shows.header
  have fits := e.value_lt
  cases isKey : e.key <;> rw [isKey] at last filename relation delimiter header fits
  case filename =>
    obtain ⟨a, stored, string⟩ := slot.filename.exists_storeUnquoted noNul (fits _ rfl)
    refine ⟨{ slot with filename := a }, congrArg (Option.map _) stored, fun id => ?_⟩
    exact ⟨string.trans last.symm, relation (by decide), delimiter (by decide), header (by decide)⟩
  case relation =>
    obtain ⟨a, stored, string⟩ := slot.relation.exists_storeUnquoted noNul (fits _ rfl)
    refine ⟨{ slot with relation := a.tolower }, congrArg (Option.map _) stored, fun id => ?_⟩
    refine ⟨filename (by decide), ?_, delimiter (by decide), header (by decide)⟩
    rw [relationOf, last, ← string]
    exact a.string_tolower
  case delimiter =>
    obtain ⟨a, stored, string⟩ := slot.delimiter.exists_storeUnquoted noNul (fits _ rfl)
    refine ⟨{ slot with delimiter := a }, congrArg (Option.map _) stored, fun id => ?_⟩
    exact ⟨filename (by decide), relation (by decide), string.trans last.symm, header (by decide)⟩
  case header =>
    obtain ⟨a, stored, string⟩ :=
      (CharArray.zero (e.quoted.length - 1)).exists_storeUnquoted noNul (by simp [ConfEntry.quoted])
    refine ⟨{ slot with header := a.string = ascii "True" }, congrArg (Option.map _) stored, fun id => ?_⟩
    refine ⟨filename (by decide), relation (by decide), delimiter (by decide), ?_⟩
    rw [headerOf, last, ← string]

/-! ### The slots as a table -/

/-- The number that a slot is for; `none` if it is free. -/
def FileSlot.owner (slot : FileSlot) : Option Int := if slot.id = -1 then none else some slot.id

theorem FileSlot.owner_eq_some {id : Int} : slot.owner = some id ↔ slot.id = id ∧ id ≠ -1 := by
  rw [FileSlot.owner]
  split
  · next free =>
    refine iff_of_false (by simp) fun ⟨same, used⟩ => used (same.symm.trans free)
  · next used =>
    rw [Option.some.injEq]
    exact ⟨fun same => ⟨same, same ▸ used⟩, And.left⟩

theorem FileSlot.owner_eq_none : slot.owner = none ↔ slot.id = -1 := by
  rw [FileSlot.owner]
  split
  · next free => exact iff_of_true rfl free
  · next used => exact iff_of_false (by simp) used

/-- **`searchSlotInConfiguration` is the search of a table**, for a number that is not the mark of a free slot. -/
theorem ConfigurationFile.searchSlotInConfiguration_eq (cf : ConfigurationFile) {id : Int} (used : id ≠ -1) :
    ∃ howMany, cf.searchSlotInConfiguration id =
      (SlotTable.search FileSlot.owner cf.files id).map fun i => (i, { cf with howMany := howMany }) := by
  have mine : (fun slot : FileSlot => decide (slot.id = id)) = fun slot => decide (slot.owner = some id) := by
    funext slot
    rw [decide_eq_decide, FileSlot.owner_eq_some, and_iff_left used]
  have free : (fun slot : FileSlot => decide (slot.id = -1)) = fun slot => decide (slot.owner = none) := by
    funext slot
    rw [decide_eq_decide, FileSlot.owner_eq_none]
  rw [searchSlotInConfiguration, SlotTable.search, mine, free]
  cases cf.files.findIdx? fun slot => decide (slot.owner = some id) with
  | some i => exact ⟨cf.howMany, rfl⟩
  | none => cases cf.files.findIdx? fun slot => decide (slot.owner = none) with
    | some i => exact ⟨cf.howMany + 1, rfl⟩
    | none => exact ⟨0, rfl⟩

/-- **The configuration after some lines.**  A slot that is in use has the fields of its number; one that is free is
empty. -/
structure Loaded (entries : List ConfEntry) (cf : ConfigurationFile) : Prop where
  size : cf.files.length = numberOfRelations
  distinct : SlotTable.Distinct FileSlot.owner cf.files
  shows : ∀ {id : Int} {slot : FileSlot}, SlotTable.get FileSlot.owner cf.files id = some slot →
    ∃ N ∈ numbers entries, id = N ∧ slot.Shows entries N
  absent : ∀ {id : Int}, SlotTable.get FileSlot.owner cf.files id = none → ∀ N ∈ numbers entries, (N : Int) ≠ id
  empty : ∀ slot ∈ cf.files, slot.owner = none → slot.Shows [] 0

/-- The slot that is found for a number has its fields, or none at all. -/
theorem Loaded.shows_found (loaded : Loaded entries cf) (found : SlotTable.search FileSlot.owner cf.files N = some i) :
    ∃ slot, cf.files[i]? = some slot ∧ slot.Shows entries N := by
  obtain ⟨slot, here, mine | ⟨free, none⟩⟩ := SlotTable.search_eq_some found
  · obtain ⟨M, -, same, shows⟩ := loaded.shows (loaded.distinct.get_eq_some.2 ⟨i, here, mine⟩)
    obtain rfl := Int.natCast_inj.1 same
    exact ⟨slot, here, shows⟩
  · have notMem : N ∉ numbers entries := fun mem => loaded.absent none N mem rfl
    have nothing := valueOf_of_notMem notMem
    obtain ⟨filename, relation, delimiter, header⟩ := loaded.empty slot (mem_of_getElem? here) free
    refine ⟨slot, here, filename.trans (nothing _).symm, ?_, delimiter.trans (nothing _).symm, ?_⟩
    · rw [relation, relationOf, relationOf, nothing]
      rfl
    · rw [header, headerOf, headerOf, nothing]
      rfl

/-- **There is a slot** for every number if there are at most fifty. -/
theorem Loaded.exists_search (loaded : Loaded entries cf) (known : ∀ N ∈ numbers entries, N ∈ keys)
    (few : keys.card ≤ numberOfRelations) (mem : N ∈ keys) :
    ∃ i, SlotTable.search FileSlot.owner cf.files N = some i := by
  refine SlotTable.exists_search ?_
  cases found : SlotTable.get FileSlot.owner cf.files (N : Int) with
  | some slot =>
    obtain ⟨inside, mine⟩ := SlotTable.of_get found
    exact ⟨slot, inside, .inl mine⟩
  | none =>
    have owners : ∀ slot ∈ cf.files, ∀ id, slot.owner = some id → id ∈ keys.image (Nat.cast : Nat → Int) := by
      intro slot inside id mine
      obtain ⟨i, here⟩ := getElem?_of_mem inside
      obtain ⟨M, inNumbers, rfl, -⟩ := loaded.shows (loaded.distinct.get_eq_some.2 ⟨i, here, mine⟩)
      exact Finset.mem_image_of_mem _ (known M inNumbers)
    have card : (keys.image (Nat.cast : Nat → Int)).card ≤ cf.files.length :=
      Finset.card_image_le.trans (few.trans_eq loaded.size.symm)
    obtain ⟨slot, inside, free⟩ := loaded.distinct.exists_free owners (Finset.mem_image_of_mem _ mem) found card
    exact ⟨slot, inside, .inr free⟩

/-- **A store keeps the table**: the slot of the line's number has the fields of its last lines, and those of the
other numbers are as they were. -/
theorem Loaded.set (loaded : Loaded entries cf) (found : SlotTable.search FileSlot.owner cf.files e.number = some i)
    (isNumber : slot.id = e.number) (shows : slot.Shows (entries ++ [e]) e.number) (howMany : Nat) :
    Loaded (entries ++ [e]) { cf with files := cf.files.set i slot, howMany := howMany } := by
  have mine : slot.owner = some (e.number : Int) := FileSlot.owner_eq_some.2 ⟨isNumber, by omega⟩
  have self := SlotTable.get_set_self found mine loaded.distinct
  have others {id : Int} (different : id ≠ e.number) := SlotTable.get_set_of_ne found mine loaded.distinct different
  refine ⟨length_set.trans loaded.size, SlotTable.distinct_set found mine loaded.distinct, ?_, ?_, ?_⟩
  · intro id slot' found'
    by_cases same : id = e.number
    · subst same
      cases self.symm.trans found'
      exact ⟨e.number, mem_numbers_concat.2 (.inr rfl), rfl, shows⟩
    · rw [others same] at found'
      obtain ⟨N, mem, rfl, shows'⟩ := loaded.shows found'
      exact ⟨N, mem_numbers_concat.2 (.inl mem), rfl, shows'.concat_of_ne fun isE => same (by rw [isE])⟩
  · intro id none N mem isN
    have different : id ≠ e.number := by
      rintro rfl
      cases self.symm.trans none
    rw [others different] at none
    rcases mem_numbers_concat.1 mem with old | rfl
    · exact loaded.absent none N old isN
    · exact different isN.symm
  · intro slot' mem free
    rcases mem_or_eq_of_mem_set mem with old | rfl
    · exact loaded.empty slot' old free
    · rw [mine] at free
      cases free

/-! ### One line -/

theorem Tokenised.arg {token : List Byte} (tokenised : Tokenised line) (isToken : (tokens line)[i]? = some token) :
    (parse line).arg i = some token := by
  obtain ⟨p, there, string⟩ := tokenised.args i token isToken
  rw [Parsed.arg, there]
  exact congrArg some string

/-- A line of three tokens. -/
theorem ConfigurationFile.loadLine_three (cf : ConfigurationFile) {arg0 arg1 arg2 : List Byte}
    (tokenised : Tokenised line) (three : tokens line = [arg0, arg1, arg2]) :
    cf.loadLine line = cf.loadArgs arg0 arg1 arg2 := by
  have counter : (parse line).counter = 3 := by rw [tokenised.counter, three]; rfl
  rw [loadLine, if_pos tokenised.inside, if_pos counter, tokenised.arg (by rw [three]; rfl),
    tokenised.arg (by rw [three]; rfl), tokenised.arg (by rw [three]; rfl)]
  rfl

/-- A line of another number of tokens. -/
theorem ConfigurationFile.loadLine_other (cf : ConfigurationFile) (tokenised : Tokenised line)
    (other : (tokens line).length ≠ 3) : cf.loadLine line = some cf := by
  have counter : (parse line).counter ≠ 3 := by rw [tokenised.counter]; omega
  rw [loadLine, if_pos tokenised.inside, if_neg counter]

/-- The key of a line is found by what the line begins with. -/
theorem ConfKey.find_eq (key : ConfKey) (digits : List Byte) : [ConfKey.filename, .relation, .delimiter, .header].find?
      (fun other => other.text.isPrefixOf (key.text ++ digits) && ascii "=" = ascii "=") = some key := by
  cases key <;> rfl

/-- A comment has no key. -/
theorem ConfKey.find_comment (word arg1 : List Byte) : [ConfKey.filename, .relation, .delimiter, .header].find?
      (fun key => key.text.isPrefixOf (ascii "#" ++ word) && arg1 = ascii "=") = none := by
  rfl

theorem isSolid_of_isDigit (digit : isDigit b = true) : IsSolid b := by
  have low := le_of_isDigit digit
  refine ⟨?_, ?_⟩
  · by_contra blank
    rw [Bool.not_eq_false, isBlank, Bool.or_eq_true, Bool.or_eq_true, decide_eq_true_eq, decide_eq_true_eq,
      decide_eq_true_eq] at blank
    rcases blank with (rfl | rfl) | rfl <;> exact absurd low (by decide)
  · rintro rfl
    exact absurd low (by decide)

theorem ConfEntry.name_solid (e : ConfEntry) : ∀ b ∈ e.key.text ++ e.digits, IsSolid b := by
  intro b mem
  rcases mem_append.1 mem with inText | inDigits
  · have solid (key : ConfKey) : ∀ b ∈ key.text, IsSolid b := by cases key <;> decide +kernel
    exact solid e.key b inText
  · exact isSolid_of_isDigit (e.digits_digit b inDigits)

theorem ConfEntry.quoted_solid (e : ConfEntry) : ∀ b ∈ e.quoted, IsSolid b := by
  intro b mem
  rcases mem_cons.1 mem with rfl | inside
  · decide
  · rcases mem_append.1 inside with inValue | last
    · exact e.value_solid b inValue
    · obtain rfl := mem_singleton.1 last
      decide

/-- A solid byte ends neither a line nor a string. -/
theorem IsSolid.clean (solid : IsSolid b) : b ≠ newline ∧ b ≠ nulByte := by
  refine ⟨?_, solid.2⟩
  rintro rfl
  exact absurd solid.1 (by decide)

/-- **A line ends at its newline.** -/
theorem ConfLine.body_clean (line : ConfLine) : ∀ b ∈ line.body, b ≠ newline ∧ b ≠ nulByte := by
  cases line with
  | entry e =>
    intro b mem
    simp only [body, mem_append] at mem
    have blanks : ∀ b ∈ ascii " ", b ≠ newline ∧ b ≠ nulByte := by decide +kernel
    have equals : ∀ b ∈ ascii "=", b ≠ newline ∧ b ≠ nulByte := by decide +kernel
    rcases mem with name | blank | sign | blank | quoted
    · exact (e.name_solid b (mem_append.2 name)).clean
    · exact blanks b blank
    · exact equals b sign
    · exact blanks b blank
    · exact (e.quoted_solid b quoted).clean
  | comment c =>
    intro b mem
    rcases mem_append.1 mem with hash | inText
    · have sign : ∀ b ∈ ascii "#", b ≠ newline ∧ b ≠ nulByte := by decide +kernel
      exact sign b hash
    · exact ⟨fun same => c.newline_notMem (same ▸ inText), fun same => c.nul_notMem (same ▸ inText)⟩

theorem ConfLine.body_ne_nil (line : ConfLine) : line.body ≠ [] := by
  cases line with
  | entry e =>
    intro none
    have blanks := append_eq_nil_iff.1 (append_eq_nil_iff.1 none).2
    exact absurd blanks.1 (by decide)
  | comment c =>
    intro none
    exact absurd (append_eq_nil_iff.1 none).1 (by decide)

/-- The lines that `loadEnvironment` passes on are all lines of the text. -/
theorem configurationLines_confText (lines : List ConfLine) :
    configurationLines (confText lines) = lines.map fun line => line.body ++ [newline] := by
  have clean : ∀ body ∈ lines.map ConfLine.body, newline ∉ body ∧ nulByte ∉ body := by
    intro body mem
    obtain ⟨line, -, rfl⟩ := mem_map.1 mem
    exact ⟨fun inside => (line.body_clean newline inside).1 rfl, fun inside => (line.body_clean nulByte inside).2 rfl⟩
  have cut := readfile_flatten clean
  rw [map_map] at cut
  refine (congrArg (List.filter _) cut).trans (filter_eq_self.2 fun bytes mem => ?_)
  obtain ⟨line, -, rfl⟩ := mem_map.1 mem
  have := length_pos_iff.2 line.body_ne_nil
  rw [decide_eq_true_eq, Function.comp_apply, length_append, length_singleton]
  omega

/-- The tokens of a line `key-N = 'value'`. -/
theorem ConfEntry.tokens_eq (e : ConfEntry) :
    tokens ((ConfLine.entry e).body ++ [newline]) = [e.key.text ++ e.digits, ascii "=", e.quoted] := by
  have name : e.key.text ++ e.digits ≠ [] := fun none => e.digits_ne_nil (append_eq_nil_iff.1 none).2
  have shape : (ConfLine.entry e).body ++ [newline] = (e.key.text ++ e.digits) ++
      (ascii " " ++ (ascii "=" ++ (ascii " " ++ (e.quoted ++ [newline])))) := by
    simp only [ConfLine.body, append_assoc]
  have blank (rest : List Byte) : ∀ b ∈ (ascii " " ++ rest).head?, isBlank b = true := by
    intro b first
    cases Option.some.inj first
    rfl
  rw [shape, tokens_token_append name (fun b mem => (e.name_solid b mem).1) (blank _),
    tokens_blanks_append (by decide +kernel), tokens_token_append (by decide +kernel) (by decide +kernel) (blank _), tokens_blanks_append (by decide +kernel),
    tokens_token_append (by simp [ConfEntry.quoted]) (fun b mem => (e.quoted_solid b mem).1) (by decide +kernel)]
  rfl

/-- **Every line is tokenised.** -/
theorem ConfLine.tokenised (line : ConfLine) : Tokenised (line.body ++ [newline]) := by
  have noNul : nulByte ∉ line.body ++ [newline] := by
    intro mem
    rcases mem_append.1 mem with inside | last
    · exact (line.body_clean nulByte inside).2 rfl
    · exact absurd (mem_singleton.1 last) (by decide)
  have blank : EndsBlank (line.body ++ [newline]) := (endsBlank_append (by decide)).2 (by decide)
  refine tokenised_of_endsBlank noNul (by simp) blank ?_
  cases line with
  | entry e =>
    rw [e.tokens_eq]
    exact show 3 < maxTokens by decide
  | comment c => exact c.few

/-- The first word of a comment begins with `#`. -/
theorem tokens_comment (text : List Byte) : ∃ word rest, tokens (ascii "#" ++ text) = (ascii "#" ++ word) :: rest := by
  have cut : ascii "#" ++ text =
      (ascii "#" ++ text.takeWhile fun b => !isBlank b) ++ text.dropWhile fun b => !isBlank b := by
    rw [append_assoc, takeWhile_append_dropWhile]
  refine ⟨_, _, (congrArg tokens cut).trans (tokens_token_append (cons_ne_nil 35 _) (fun b mem => ?_) fun b first => ?_)⟩
  · rcases mem_append.1 mem with hash | inWord
    · have sign : ∀ b ∈ ascii "#", isBlank b = false := by decide +kernel
      exact sign b hash
    · simpa using all_eq_true.1 all_takeWhile b inWord
  · simpa using test_head_dropWhile first

/-- A comment changes nothing. -/
theorem ConfigurationFile.loadLine_comment (cf : ConfigurationFile) (c : Comment) :
    cf.loadLine ((ConfLine.comment c).body ++ [newline]) = some cf := by
  have tokenised := (ConfLine.comment c).tokenised
  obtain ⟨word, rest, words⟩ := tokens_comment (c.text ++ [newline])
  rw [← append_assoc] at words
  by_cases three : ∃ arg1 arg2, rest = [arg1, arg2]
  · obtain ⟨arg1, arg2, rfl⟩ := three
    rw [cf.loadLine_three tokenised words, loadArgs, ConfKey.find_comment]
  · refine cf.loadLine_other tokenised fun count => three (length_eq_two.1 ?_)
    rw [ConfLine.body, words, length_cons] at count
    omega

/-- **A line of a number** changes its slot. -/
theorem Loaded.exists_loadLine (loaded : Loaded entries cf) (small : e.number < 2 ^ 31)
    (found : SlotTable.search FileSlot.owner cf.files e.number = some i) :
    ∃ cf', cf.loadLine ((ConfLine.entry e).body ++ [newline]) = some cf' ∧ Loaded (entries ++ [e]) cf' := by
  have number : atoi ((e.key.text ++ e.digits).drop e.key.text.length) = e.number := by
    rw [drop_left, atoi_digits e.digits_ne_nil e.digits_digit small]
    rfl
  obtain ⟨slot, here, shows⟩ := loaded.shows_found found
  obtain ⟨slot', assigned, shows'⟩ := e.exists_assign shows
  obtain ⟨howMany, search⟩ := cf.searchSlotInConfiguration_eq (show (e.number : Int) ≠ -1 by omega)
  rw [found] at search
  refine ⟨_, ?_, loaded.set found rfl (shows' e.number) howMany⟩
  rw [cf.loadLine_three (ConfLine.entry e).tokenised e.tokens_eq, ConfigurationFile.loadArgs, ConfKey.find_eq]
  dsimp only
  rw [number, search]
  dsimp only [Option.map_some]
  rw [here, Option.bind_eq_bind, Option.bind_some, assigned]
  rfl

/-! ### All lines -/

/-- A slot of static storage after `initialiazeConfiguration`. -/
def emptySlot : FileSlot := ⟨(CharArray.zero _).clear, (CharArray.zero _).clear, (CharArray.zero _).clear, false, -1⟩

theorem files_initialiazeConfiguration :
    ConfigurationFile.zero.initialiazeConfiguration.files = List.replicate numberOfRelations emptySlot :=
  map_replicate

/-- Before the first line all slots are free. -/
theorem loaded_initialiazeConfiguration : Loaded [] ConfigurationFile.zero.initialiazeConfiguration := by
  have empty : ∀ slot ∈ ConfigurationFile.zero.initialiazeConfiguration.files, slot = emptySlot := by
    rw [files_initialiazeConfiguration]
    exact fun slot => eq_of_mem_replicate
  have free : ∀ slot ∈ ConfigurationFile.zero.initialiazeConfiguration.files, slot.owner = none := by
    intro slot mem
    rw [empty slot mem]
    rfl
  refine ⟨?_, ⟨?_⟩, ?_, ?_, ?_⟩
  · rw [files_initialiazeConfiguration, length_replicate]
  · intro i j s t id here there mine
    rw [free s (mem_of_getElem? here)] at mine
    cases mine
  · intro id slot found
    obtain ⟨mem, mine⟩ := SlotTable.of_get found
    rw [free slot mem] at mine
    cases mine
  · intro id none N mem
    cases mem
  · intro slot mem _
    rw [empty slot mem]
    exact ⟨rfl, rfl, rfl, rfl⟩

/-- The loop of `loadEnvironment`, on the lines of a configuration. -/
def loadLines (lines : List ConfLine) : Option ConfigurationFile :=
  (lines.map fun line => line.body ++ [newline]).foldlM ConfigurationFile.loadLine
    ConfigurationFile.zero.initialiazeConfiguration

theorem entriesOf_concat (lines : List ConfLine) (line : ConfLine) :
    entriesOf (lines ++ [line]) = entriesOf lines ++ (line.entry?).toList := by
  rw [entriesOf, filterMap_append, entriesOf]
  cases line <;> rfl

variable {lines : List ConfLine}

/-- **All lines are loaded** if there are at most fifty numbers and each is an `int`. -/
theorem exists_loadLines (few : keys.card ≤ numberOfRelations)
    (known : ∀ N ∈ numbers (entriesOf lines), N ∈ keys ∧ N < 2 ^ 31) :
    ∃ cf, loadLines lines = some cf ∧ Loaded (entriesOf lines) cf := by
  induction lines using List.reverseRecOn with
  | nil => exact ⟨_, rfl, loaded_initialiazeConfiguration⟩
  | append_singleton lines line ih =>
    rw [entriesOf_concat] at known ⊢
    have before : ∀ N ∈ numbers (entriesOf lines), N ∈ keys ∧ N < 2 ^ 31 := by
      intro N mem
      refine known N ?_
      rw [numbers, map_append]
      exact mem_append_left _ mem
    obtain ⟨cf, ran, loaded⟩ := ih before
    have step : loadLines (lines ++ [line]) = cf.loadLine (line.body ++ [newline]) := by
      rw [loadLines, map_append, foldlM_append, ← loadLines, ran]
      exact bind_pure (cf.loadLine _)
    rw [step]
    cases line with
    | entry e =>
      obtain ⟨inKeys, small⟩ := known e.number (mem_numbers_concat.2 (.inr rfl))
      obtain ⟨i, found⟩ := loaded.exists_search (fun N mem => (before N mem).1) few inKeys
      exact loaded.exists_loadLine small found
    | comment c =>
      refine ⟨cf, cf.loadLine_comment c, ?_⟩
      change Loaded (entriesOf lines ++ []) cf
      rw [append_nil]
      exact loaded

/-! ### What the configuration answers -/

theorem Loaded.ownSlots (loaded : Loaded entries cf) : OwnSlots entries cf := by
  have slots : ∀ N, ∃ i : Nat, N ∈ numbers entries → ∃ slot : FileSlot, cf.files[i]? = some slot ∧ slot.owner = some (N : Int) ∧
      slot.Shows entries N := by
    intro N
    by_cases mem : N ∈ numbers entries
    · cases found : SlotTable.get FileSlot.owner cf.files (N : Int) with
      | none => exact absurd rfl (loaded.absent found N mem)
      | some slot =>
        obtain ⟨i, here, mine⟩ := loaded.distinct.get_eq_some.1 found
        obtain ⟨M, -, same, shows⟩ := loaded.shows found
        obtain rfl := Int.natCast_inj.1 same
        exact ⟨i, fun _ => ⟨slot, here, mine, shows⟩⟩
    · exact ⟨0, fun isNumber => absurd isNumber mem⟩
  choose slotOf isSlot using slots
  refine ⟨slotOf, ?_, ?_, ?_⟩
  · intro N mem
    obtain ⟨slot, here, mine, shows⟩ := isSlot N mem
    obtain ⟨isId, used⟩ := FileSlot.owner_eq_some.1 mine
    exact ⟨slot, here, isId ▸ used, shows⟩
  · intro M memM N memN same
    obtain ⟨slot, here, mine, -⟩ := isSlot M memM
    obtain ⟨slot', there, mine', -⟩ := isSlot N memN
    rw [same, there] at here
    cases here
    exact Int.natCast_inj.1 (Option.some.inj (mine.symm.trans mine'))
  · intro i slot here used
    have mine : slot.owner = some slot.id := FileSlot.owner_eq_some.2 ⟨rfl, used⟩
    obtain ⟨N, mem, isN, -⟩ := loaded.shows (loaded.distinct.get_eq_some.2 ⟨i, here, mine⟩)
    obtain ⟨slot', there, mine', -⟩ := isSlot N mem
    rw [isN] at mine
    exact ⟨N, mem, loaded.distinct.unique there here mine' mine⟩

/-- **The getters find the slot of the number** whose relation is asked for. -/
theorem Loaded.answers (loaded : Loaded entries cf) (isLoaded : cf.loaded = true) {relation : List Byte}
    (only : UsedOnlyBy entries relation N) : Answers cf relation entries N := by
  obtain ⟨isNumber, only⟩ := only
  have found : ∃ slot, cf.findRelation relation = some slot ∧ slot.Shows entries N := by
    rw [ConfigurationFile.findRelation, if_pos isLoaded]
    cases first : cf.files.find? fun slot => slot.id ≠ -1 && slot.relation.string = relation with
    | none =>
      -- the slot of `N` would have been found
      obtain ⟨slotOf, slots, -, -⟩ := loaded.ownSlots
      obtain ⟨slot, here, used, shows⟩ := slots N isNumber
      have name := shows.relation.trans ((only N isNumber).2 rfl)
      have misses := find?_eq_none.1 first slot (mem_of_getElem? here)
      simp [used, name] at misses
    | some slot =>
      have test := find?_some first
      simp only [ne_eq, decide_not, Bool.and_eq_true, Bool.not_eq_eq_eq_not, Bool.not_true, decide_eq_false_iff_not,
        decide_eq_true_eq] at test
      obtain ⟨i, here⟩ := getElem?_of_mem (mem_of_find?_eq_some first)
      have mine : slot.owner = some slot.id := FileSlot.owner_eq_some.2 ⟨rfl, test.1⟩
      obtain ⟨M, isNumber', -, shows⟩ := loaded.shows (loaded.distinct.get_eq_some.2 ⟨i, here, mine⟩)
      obtain rfl := (only M isNumber').1 (shows.relation.symm.trans test.2)
      exact ⟨slot, rfl, shows⟩
  obtain ⟨slot, isSlot, shows⟩ := found
  refine ⟨?_, ?_, ?_⟩
  · rw [ConfigurationFile.getInputFilename, isSlot, Option.map_some, shows.filename]
  · rw [ConfigurationFile.getDelimiter, isSlot, Option.map_some, shows.delimiter]
  · rw [ConfigurationFile.getHeader, isSlot, Option.map_some, Option.getD_some, shows.header]

theorem Loaded.setLoaded (loaded : Loaded entries cf) (isLoaded : Bool) :
    Loaded entries { cf with loaded := isLoaded } := ⟨loaded.size, loaded.distinct, loaded.shows, loaded.absent, loaded.empty⟩

theorem exists_loadEnvironment (few : keys.card ≤ numberOfRelations)
    (known : ∀ N ∈ numbers (entriesOf lines), N ∈ keys ∧ N < 2 ^ 31) :
    ∃ cf, ConfigurationFile.zero.loadEnvironment (confText lines) = some cf ∧ cf.loaded = true ∧ Loaded (entriesOf lines) cf := by
  obtain ⟨cf, ran, loaded⟩ := exists_loadLines few known
  refine ⟨{ cf with loaded := true }, ?_, rfl, loaded.setLoaded true⟩
  rw [ConfigurationFile.loadEnvironment, configurationLines_confText, ← loadLines, ran]
  rfl

/-- The lines of a number tell which numbers there are. -/
theorem SameByNumber.mem_numbers {lines' : List ConfLine} (same : SameByNumber lines lines') :
    N ∈ numbers (entriesOf lines) ↔ N ∈ numbers (entriesOf lines') := by
  rw [mem_numbers_iff, mem_numbers_iff, same N]

/-- **The entries are grouped by their number**, for every configuration with at most fifty numbers, each of which is an
`int`. -/
theorem groupsByNumber (lines : List ConfLine)
    (few : (numbers (entriesOf lines)).toFinset.card ≤ numberOfRelations)
    (small : ∀ N ∈ numbers (entriesOf lines), N < 2 ^ 31) : GroupsByNumber lines := by
  have known : ∀ N ∈ numbers (entriesOf lines), N ∈ (numbers (entriesOf lines)).toFinset ∧ N < 2 ^ 31 :=
    fun N mem => ⟨mem_toFinset.2 mem, small N mem⟩
  refine ⟨fun n => ?_, ?_, fun lines' relation N same only => ?_⟩
  · have before : ∀ N ∈ numbers (entriesOf (lines.take n)), N ∈ (numbers (entriesOf lines)).toFinset ∧ N < 2 ^ 31 :=
      fun N mem => known N ((((take_sublist n lines).filterMap _).map _).subset mem)
    obtain ⟨cf, ran, loaded⟩ := exists_loadLines few before
    refine ⟨cf, ?_, loaded.ownSlots⟩
    rw [configurationLines_confText, ← map_take]
    exact ran
  · obtain ⟨cf, ran, -, loaded⟩ := exists_loadEnvironment few known
    exact ⟨cf, ran, loaded.ownSlots⟩
  · have values (N : Nat) : valueOf (entriesOf lines) N = valueOf (entriesOf lines') N := valueOf_congr (same N)
    have only' : UsedOnlyBy (entriesOf lines') relation N := by
      refine ⟨same.mem_numbers.1 only.1, fun M mem => ?_⟩
      rw [relationOf, ← values, ← relationOf]
      exact only.2 M (same.mem_numbers.2 mem)
    obtain ⟨cf, ran, isLoaded, loaded⟩ := exists_loadEnvironment few fun M mem => known M (same.mem_numbers.2 mem)
    refine ⟨cf, ran, ?_⟩
    rw [Answers, headerOf, values, ← headerOf]
    exact loaded.answers isLoaded only'

/-! ### The files that are configured -/

/-- A value is that of a line with its key, or empty. -/
theorem valueOf_cases (entries : List ConfEntry) (N : Nat) (key : ConfKey) :
    valueOf entries N key = [] ∨ ∃ e : ConfEntry, e.key = key ∧ valueOf entries N key = e.value := by
  rw [valueOf]
  cases last : (entries.filter fun e => e.number = N && e.key = key).getLast? with
  | none => exact .inl rfl
  | some e =>
    have test := (mem_filter.1 (mem_of_getLast? last)).2
    rw [Bool.and_eq_true, decide_eq_true_eq, decide_eq_true_eq] at test
    exact .inr ⟨e, test.2, rfl⟩

theorem valueOf_solid (entries : List ConfEntry) (N : Nat) (key : ConfKey) : ∀ b ∈ valueOf entries N key, IsSolid b := by
  intro b mem
  rcases valueOf_cases entries N key with none | ⟨e, -, same⟩
  · rw [none] at mem
    cases mem
  · rw [same] at mem
    exact e.value_solid b mem

theorem length_valueOf_lt (entries : List ConfEntry) (N : Nat) {key : ConfKey} (capacity : key.capacity = some size)
    (some : 0 < size) : (valueOf entries N key).length < size := by
  rcases valueOf_cases entries N key with none | ⟨e, rfl, same⟩
  · rw [none]
    exact some
  · rw [same]
    exact e.value_lt size capacity

/-- The file of a number. -/
def inputFileOf (entries : List ConfEntry) (N : Nat) : InputFile where
  filename := valueOf entries N .filename
  relation := relationOf entries N
  delimiter := valueOf entries N .delimiter
  header := headerOf entries N
  filename_lt := length_valueOf_lt entries N rfl (by decide)
  relation_lt := by
    rw [relationOf, length_map]
    exact length_valueOf_lt entries N rfl (by decide)
  delimiter_lt := length_valueOf_lt entries N rfl (by decide)
  filename_solid := valueOf_solid entries N .filename
  relation_solid b mem := by
    obtain ⟨c, old, rfl⟩ := mem_map.1 mem
    exact isSolid_downcase (valueOf_solid entries N .relation c old)
  delimiter_solid := valueOf_solid entries N .delimiter
  relation_lower b mem := by
    obtain ⟨c, -, rfl⟩ := mem_map.1 mem
    exact downcase_downcase c

/-- The file `a` of the relation `r`. -/
def fileEntry : ConfEntry where
  key := .filename
  digits := ascii "1"
  value := ascii "a"
  digits_ne_nil := by decide
  digits_digit := by decide +kernel
  value_solid := by decide +kernel
  value_lt := by decide

def relationEntry : ConfEntry where
  key := .relation
  digits := ascii "1"
  value := ascii "r"
  digits_ne_nil := by decide
  digits_digit := by decide +kernel
  value_solid := by decide +kernel
  value_lt := by decide

/-- A number that `atoi` takes for `1`. -/
def wideEntry : ConfEntry where
  key := .filename
  digits := ascii "4294967297"
  value := ascii "b"
  digits_ne_nil := by decide
  digits_digit := by decide +kernel
  value_solid := by decide +kernel
  value_lt := by decide

/-- The lines `filename-1 = 'a'` and `relation-1 = 'r'`. -/
theorem groupsByNumber_one :
    (numbers (entriesOf [.entry fileEntry, .entry relationEntry])).toFinset.card ≤ numberOfRelations ∧
      GroupsByNumber [.entry fileEntry, .entry relationEntry] :=
  ⟨by decide, groupsByNumber _ (by decide) (by decide)⟩

/-- With the line `filename-4294967297 = 'b'` behind them, the file of the relation `r` is `b`. -/
theorem not_groupsByNumber_wide :
    (numbers (entriesOf [.entry fileEntry, .entry relationEntry, .entry wideEntry])).toFinset.card ≤ numberOfRelations ∧
      UsedOnlyBy (entriesOf [.entry fileEntry, .entry relationEntry, .entry wideEntry]) (ascii "r") 1 ∧
      (ConfigurationFile.zero.loadEnvironment (confText [.entry fileEntry, .entry relationEntry, .entry wideEntry])).map
        (·.getInputFilename (ascii "r")) = some (some (ascii "b")) ∧
      ¬ GroupsByNumber [.entry fileEntry, .entry relationEntry, .entry wideEntry] := by
  have only : UsedOnlyBy (entriesOf [.entry fileEntry, .entry relationEntry, .entry wideEntry]) (ascii "r") 1 := by
    decide
  have wrong : (ConfigurationFile.zero.loadEnvironment
      (confText [.entry fileEntry, .entry relationEntry, .entry wideEntry])).map (·.getInputFilename (ascii "r")) =
        some (some (ascii "b")) := by
    decide +kernel
  refine ⟨by decide, only, wrong, fun groups => ?_⟩
  obtain ⟨cf, ran, filename, -, -⟩ := groups.answers _ _ _ (fun _ => rfl) only
  rw [ran, Option.map_some, filename] at wrong
  revert wrong
  decide

end PostgresRaw
