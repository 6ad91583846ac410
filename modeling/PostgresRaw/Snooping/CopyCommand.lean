import PostgresRaw.Snooping.Lexer
import PostgresRaw.Snooping.SnoopConf

/-!
# The COPY command of a configured file

`NoDBScanOperatorInit` writes a `COPY` command from an entry of `snoop.conf` and hands the text to the parser of
PostgreSQL.  `command` is that text; `readCopy` is what the parser makes of it, with the lexical rules of
`PostgresRaw.Snooping.Lexer` and the production `CopyStmt` of `gram.y` for the form `COPY name FROM 'file' WITH (options)`.

The relation, the file name and the delimiter are inserted as they are.  What is load-bearing: the name of a
relation is read back exactly if it is an identifier that needs no quotes, and a text between quotes exactly if
there is no quote in it (`isIdentifier_of_lexFrom`, `clean_of_lexFrom`), because the text that follows begins with a
space and nothing in the configuration has one.
-/

namespace PostgresRaw

open Option List

/-! ### An entry of the configuration -/

/-- `MAX_FILENAME` -/
def maxFilename : Nat := 128

/-- `MAX_RELATION_NAME` -/
def maxRelationName : Nat := 64

/-- The size of `delimiter`. -/
def maxDelimiter : Nat := 5

/-- `MAX_COMMAND_SIZE` -/
def maxCommandSize : Nat := 512

/-- `MAX_OPTION_SIZE` -/
def maxOptionSize : Nat := 50

/-- A byte that can be in a token of `snoop.conf`. -/
def IsSolid (b : Byte) : Prop := isBlank b = false ∧ b ≠ nulByte

instance (b : Byte) : Decidable (IsSolid b) := inferInstanceAs (Decidable (_ ∧ _))

/-- **`InputFile`**: the strings are tokens of `snoop.conf` and fit into their arrays; the name of the relation is in
lower case. -/
structure InputFile where
  filename : List Byte
  relation : List Byte
  delimiter : List Byte
  header : Bool
  filename_lt : filename.length < maxFilename
  relation_lt : relation.length < maxRelationName
  delimiter_lt : delimiter.length < maxDelimiter
  filename_solid : ∀ b ∈ filename, IsSolid b
  relation_solid : ∀ b ∈ relation, IsSolid b
  delimiter_solid : ∀ b ∈ delimiter, IsSolid b
  relation_lower : ∀ b ∈ relation, downcase b = b

/-- What `loadEnvironment` stores of a token: its first and its last character are dropped. -/
def unquoted (token : List Byte) : List Byte := (token.drop 1).take (token.length - 2)

variable {b : Byte} {s t : LexState} {xs ys name delimiter rest text : List Byte} {file : InputFile} {token : Token}
  {more : List Token}

theorem mem_of_mem_unquoted {token : List Byte} (mem : b ∈ unquoted token) : b ∈ token :=
  mem_of_mem_drop (mem_of_mem_take mem)

theorem length_unquoted (token : List Byte) : (unquoted token).length = token.length - 2 := by
  rw [unquoted, length_take, length_drop]
  omega

theorem le_downcase (upper : 65 ≤ b ∧ b ≤ 90) : 97 ≤ b + 32 ∧ b + 32 ≤ 122 := by
  simp only [UInt8.le_iff_toNat_le, UInt8.toNat_add, UInt8.reduceToNat] at upper ⊢
  omega

theorem isSolid_downcase (solid : IsSolid b) : IsSolid (downcase b) := by
  rw [downcase]
  split
  · next upper =>
    have low := (le_downcase upper).1
    refine ⟨?_, ?_⟩
    · by_contra blank
      rw [Bool.not_eq_false] at blank
      simp only [isBlank, Bool.or_eq_true, decide_eq_true_eq] at blank
      rcases blank with (same | same) | same <;> rw [same] at low <;> exact absurd low (by decide)
    · intro same
      rw [same] at low
      exact absurd low (by decide)
  · exact solid

theorem downcase_downcase (b : Byte) : downcase (downcase b) = downcase b := by
  by_cases upper : 65 ≤ b ∧ b ≤ 90
  · rw [show downcase b = b + 32 from if_pos upper]
    refine if_neg fun again => ?_
    exact absurd (UInt8.le_trans (le_downcase upper).1 again.2) (by decide)
  · rw [show downcase b = b from if_neg upper]
    exact if_neg upper

/-- The values of the four lines of a file, in quotes. -/
structure ConfigurationTokens where
  filename : List Byte
  relation : List Byte
  delimiter : List Byte
  header : List Byte
  filename_size : 2 ≤ filename.length ∧ filename.length < maxFilename + 2
  relation_size : 2 ≤ relation.length ∧ relation.length < maxRelationName + 2
  delimiter_size : 2 ≤ delimiter.length ∧ delimiter.length < maxDelimiter + 2
  solid : ∀ b ∈ filename ++ relation ++ delimiter, IsSolid b

/-- **The assignments of `loadEnvironment`.** -/
def ConfigurationTokens.load (tokens : ConfigurationTokens) : InputFile where
  filename := unquoted tokens.filename
  relation := (unquoted tokens.relation).map downcase
  delimiter := unquoted tokens.delimiter
  header := unquoted tokens.header = ascii "True"
  filename_lt := by
    have := tokens.filename_size
    rw [length_unquoted]
    omega
  relation_lt := by
    have := tokens.relation_size
    rw [length_map, length_unquoted]
    omega
  delimiter_lt := by
    have := tokens.delimiter_size
    rw [length_unquoted]
    omega
  filename_solid b mem :=
    tokens.solid b (mem_append_left _ (mem_append_left _ (mem_of_mem_unquoted mem)))
  relation_solid b mem := by
    obtain ⟨c, old, rfl⟩ := mem_map.1 mem
    exact isSolid_downcase (tokens.solid c (mem_append_left _ (mem_append_right _ (mem_of_mem_unquoted old))))
  delimiter_solid b mem := tokens.solid b (mem_append_right _ (mem_of_mem_unquoted mem))
  relation_lower b mem := by
    obtain ⟨c, -, rfl⟩ := mem_map.1 mem
    exact downcase_downcase c

/-! ### The text of the command -/

/-- The delimiters that are written with a backslash. -/
def delimiterNotations : List (List Byte) := [ascii "\\t", ascii "\\r", ascii "\\n"]

/-- `delimiterOption` -/
def delimiterOption (delimiter : List Byte) : List Byte :=
  if delimiter ∈ delimiterNotations then ascii "DELIMITER E'" ++ delimiter ++ ascii "'"
  else ascii "DELIMITER '" ++ delimiter ++ ascii "'"

/-- `headerOption` -/
def headerOption (header : Bool) : List Byte := if header then ascii "HEADER TRUE" else ascii "HEADER FALSE"

/-- **`command`** of `NoDBScanOperatorInit`. -/
def InputFile.command (file : InputFile) : List Byte :=
  ascii "COPY " ++ file.relation ++ ascii " FROM '" ++ file.filename ++ ascii "' WITH (FORMAT csv, " ++
    delimiterOption file.delimiter ++ ascii ", " ++ headerOption file.header ++ ascii ");"

theorem length_headerOption (header : Bool) : (headerOption header).length ≤ 12 := by
  cases header <;> decide

theorem length_delimiterOption (delimiter : List Byte) : (delimiterOption delimiter).length ≤ delimiter.length + 13 := by
  rw [delimiterOption]
  split
  · rw [length_append, length_append]
    exact le_of_eq (add_comm 12 delimiter.length ▸ rfl)
  · rw [length_append, length_append]
    exact Nat.le_succ_of_le (le_of_eq (add_comm 11 delimiter.length ▸ rfl))

/-- The keywords of `kwlist.h` that are reserved. -/
def reservedKeywords : List String :=
  ["all", "analyse", "analyze", "and", "any", "array", "as", "asc", "asymmetric", "both", "case", "cast", "check",
    "collate", "column", "constraint", "create", "current_catalog", "current_date", "current_role", "current_time",
    "current_timestamp", "current_user", "default", "deferrable", "desc", "distinct", "do", "else", "end", "except",
    "false", "fetch", "for", "foreign", "from", "grant", "group", "having", "in", "initially", "intersect", "into",
    "lateral", "leading", "limit", "localtime", "localtimestamp", "not", "null", "offset", "on", "only", "or", "order",
    "placing", "primary", "references", "returning", "select", "session_user", "some", "symmetric", "table", "then",
    "to", "trailing", "true", "union", "unique", "user", "using", "variadic", "when", "where", "window", "with"]

/-- The keywords of `kwlist.h` that can be names of functions and types only. -/
def typeFuncNameKeywords : List String :=
  ["authorization", "binary", "collation", "concurrently", "cross", "current_schema", "freeze", "full", "ilike",
    "inner", "is", "isnull", "join", "left", "like", "natural", "notnull", "outer", "overlaps", "right", "similar",
    "tablesample", "verbose"]

/-- A reserved word. -/
def IsReserved (word : List Byte) : Prop := word ∈ reservedKeywords.map ascii

/-- A word that is not a name of a relation. -/
def IsKeyword (word : List Byte) : Prop := word ∈ (reservedKeywords ++ typeFuncNameKeywords).map ascii

instance (word : List Byte) : Decidable (IsReserved word) := inferInstanceAs (Decidable (_ ∈ _))

instance (word : List Byte) : Decidable (IsKeyword word) := inferInstanceAs (Decidable (_ ∈ _))

/-- `ColId` -/
def colId : Token → Option (List Byte)
  | .word text => if IsKeyword text then none else some text
  | .ident text => some text
  | .string _ | .char _ => none

/-- `NonReservedWord` -/
def nonReservedWord : Token → Option (List Byte)
  | .word text => if IsReserved text then none else some text
  | .ident text => some text
  | .string _ | .char _ => none

/-- `opt_boolean_or_string` -/
def optBooleanOrString : Token → Option (List Byte)
  | .word text =>
    if text = ascii "true" ∨ text = ascii "false" ∨ text = ascii "on" then some text else nonReservedWord (.word text)
  | .string text => some text
  | token => nonReservedWord token

/-- `DefElem` -/
structure DefElem where
  defname : List Byte
  arg : Option (List Byte)
deriving DecidableEq, Repr

/-- `copy_generic_opt_list`, up to the end of the statement.  A label is any word (`ColLabel`); numbers, stars and
lists of arguments are not read. -/
def copyGenericOptList : List Token → Option (List DefElem)
  | label :: .char 44 :: rest => do
      let defname ← label.name
      let more ← copyGenericOptList rest
      return ⟨defname, none⟩ :: more
  | label :: .char 41 :: rest => do
      let defname ← label.name
      if rest.all (· = .char 59) then some [⟨defname, none⟩] else none
  | label :: arg :: .char 44 :: rest => do
      let defname ← label.name
      let value ← optBooleanOrString arg
      let more ← copyGenericOptList rest
      return ⟨defname, some value⟩ :: more
  | label :: arg :: .char 41 :: rest => do
      let defname ← label.name
      let value ← optBooleanOrString arg
      if rest.all (· = .char 59) then some [⟨defname, some value⟩] else none
  | _ => none

/-- `CopyStmt` for `COPY FROM`. -/
structure CopyStmt where
  relation : List Byte
  filename : List Byte
  options : List DefElem
deriving DecidableEq, Repr

/-- The production `CopyStmt`, without `BINARY`, columns, `OIDS`, `PROGRAM` and `DELIMITERS`. -/
def parseCopy : List Token → Option CopyStmt
  | .word copy :: name :: .word copyFrom :: .string filename :: .word optWith :: .char 40 :: rest =>
    if copy = ascii "copy" ∧ copyFrom = ascii "from" ∧ optWith = ascii "with" then do
      let relation ← colId name
      let options ← copyGenericOptList rest
      return ⟨relation, filename, options⟩
    else none
  | _ => none

/-- **The statement that a text is.** -/
def readCopy (text : List Byte) : Option CopyStmt := (lex text).bind parseCopy

/-- The option with that name, if there is exactly one. -/
def CopyStmt.option (stmt : CopyStmt) (defname : List Byte) : Option DefElem :=
  match stmt.options.filter (·.defname = defname) with
  | [elem] => some elem
  | _ => none

/-- `defGetString` -/
def DefElem.getString (elem : DefElem) : Option (List Byte) := elem.arg

/-- `defGetBoolean` -/
def DefElem.getBoolean (elem : DefElem) : Option Bool :=
  match elem.arg with
  | none => some true
  | some arg =>
    if arg.map downcase = ascii "true" ∨ arg.map downcase = ascii "on" then some true
    else if arg.map downcase = ascii "false" ∨ arg.map downcase = ascii "off" then some false
    else none

/-- The character that the delimiter of the configuration stands for. -/
def delimiterCharacter (delimiter : List Byte) : List Byte :=
  if delimiter = ascii "\\t" then [9]
  else if delimiter = ascii "\\r" then [13]
  else if delimiter = ascii "\\n" then [10]
  else delimiter

/-- **The statement says what was configured.** -/
structure CopyStmt.Agrees (stmt : CopyStmt) (file : InputFile) : Prop where
  relation : stmt.relation = file.relation
  filename : stmt.filename = file.filename
  delimiter : (stmt.option (ascii "delimiter")).bind DefElem.getString = some (delimiterCharacter file.delimiter)
  header : (stmt.option (ascii "header")).bind DefElem.getBoolean = some file.header

/-! ### Texts that are read back -/

/-- A text of which the first part has been read. -/
theorem lexFrom_append_of_run {first : List Token} (ran : Transducer.run lexStep s xs = some (t, first)) :
    lexFrom s (xs ++ ys) = (lexFrom t ys).map (first ++ ·) := by
  refine Option.ext fun tokens => ?_
  rw [lexFrom_append, map_eq_some_iff]
  constructor
  · rintro ⟨u, out, rest, before, after, rfl⟩
    cases ran.symm.trans before
    exact ⟨rest, after, rfl⟩
  · rintro ⟨rest, after, rfl⟩
    exact ⟨t, first, rest, ran, after, rfl⟩

/-- One character: a byte, or several that have their high bit set. -/
def IsCharacter (bytes : List Byte) : Prop := bytes.length = 1 ∨ bytes ≠ [] ∧ ∀ b ∈ bytes, 128 ≤ b

instance (bytes : List Byte) : Decidable (IsCharacter bytes) := inferInstanceAs (Decidable (_ ∨ _ ∧ _))

/-- A name that is read back without quotes. -/
def NeedsNoQuotes (name : List Byte) : Prop := IsIdentifier name ∧ ¬ IsKeyword name

instance (name : List Byte) : Decidable (NeedsNoQuotes name) := inferInstanceAs (Decidable (_ ∧ _))

theorem map_downcase_of_lower (lower : ∀ b ∈ name, downcase b = b) : name.map downcase = name :=
  map_congr_left lower |>.trans (map_id name)

/-- The beginning of the command. -/
theorem lexFrom_copy (rest : List Byte) :
    lexFrom .start (ascii "COPY " ++ rest) = (lexFrom .start rest).map ([.word (ascii "copy")] ++ ·) :=
  lexFrom_append_of_run rfl

theorem lexFrom_relation (isIdentifier : IsIdentifier name) (lower : ∀ b ∈ name, downcase b = b) (rest : List Byte) :
    lexFrom .start (name ++ (ascii " FROM '" ++ rest)) =
      (lexFrom (.string false []) rest).map ([.word name, .word (ascii "from")] ++ ·) := by
  have ran := run_identifier isIdentifier
  rw [map_downcase_of_lower lower] at ran
  have next : Transducer.run lexStep (.word name) (ascii " FROM '") =
      some (.string false [], [.word name, .word (ascii "from")]) := rfl
  rw [lexFrom_append_of_run ran, lexFrom_append_of_run next, Option.map_map]
  rfl

theorem lexFrom_filename {filename : List Byte} (clean : singleQuote ∉ filename) (rest : List Byte) :
    lexFrom (.string false []) (filename ++ (ascii "' WITH (FORMAT csv, " ++ rest)) =
      (lexFrom .start rest).map ([.string filename, .word (ascii "with"), .char 40, .word (ascii "format"),
        .word (ascii "csv"), .char 44] ++ ·) := by
  have ran := run_string clean []
  rw [nil_append] at ran
  have next : Transducer.run lexStep (.string false filename) (ascii "' WITH (FORMAT csv, ") =
      some (.start, [.string filename, .word (ascii "with"), .char 40, .word (ascii "format"), .word (ascii "csv"),
        .char 44]) := rfl
  rw [lexFrom_append_of_run ran, lexFrom_append_of_run next, Option.map_map]
  rfl

/-- The last tokens of the command. -/
def headerTokens (header : Bool) : List Token :=
  [.char 44, .word (ascii "header"), .word (if header then ascii "true" else ascii "false"), .char 41, .char 59]

theorem lexFrom_header (escapes : Bool) (text : List Byte) (header : Bool) :
    lexFrom (.string escapes text) (ascii "'" ++ (ascii ", " ++ (headerOption header ++ ascii ");"))) =
      some (.string text :: headerTokens header) := by
  cases header <;> rfl

/-- A delimiter that is written with a backslash. -/
theorem lexFrom_notation (mem : delimiter ∈ delimiterNotations) (header : Bool) :
    lexFrom .start (delimiterOption delimiter ++ (ascii ", " ++ (headerOption header ++ ascii ");"))) =
      some (.word (ascii "delimiter") :: .string (delimiterCharacter delimiter) :: headerTokens header) := by
  simp only [delimiterNotations, mem_cons, not_mem_nil, or_false] at mem
  rcases mem with rfl | rfl | rfl <;> cases header <;> rfl

/-- A delimiter that stands for itself. -/
theorem lexFrom_character (other : delimiter ∉ delimiterNotations) (clean : singleQuote ∉ delimiter) (header : Bool) :
    lexFrom .start (delimiterOption delimiter ++ (ascii ", " ++ (headerOption header ++ ascii ");"))) =
      some (.word (ascii "delimiter") :: .string (delimiterCharacter delimiter) :: headerTokens header) := by
  have itself : delimiterCharacter delimiter = delimiter := by
    simp only [delimiterNotations, mem_cons, not_mem_nil, or_false, not_or] at other
    rw [delimiterCharacter, if_neg other.1, if_neg other.2.1, if_neg other.2.2]
  have before : Transducer.run lexStep .start (ascii "DELIMITER '") =
      some (.string false [], [.word (ascii "delimiter")]) := rfl
  have ran := run_string clean []
  rw [nil_append] at ran
  rw [itself, delimiterOption, if_neg other, append_assoc, append_assoc, lexFrom_append_of_run before,
    lexFrom_append_of_run ran, lexFrom_header]
  rfl

theorem IsCharacter.clean (one : IsCharacter delimiter) (quote : delimiter ≠ [singleQuote]) :
    singleQuote ∉ delimiter := by
  intro mem
  rcases one with single | ⟨-, high⟩
  · obtain ⟨b, rfl⟩ := length_eq_one_iff.1 single
    exact quote (by rw [mem_singleton.1 mem])
  · exact absurd (high _ mem) (by decide)

/-- The text of the command from the delimiter on. -/
theorem lexFrom_delimiter (one : IsCharacter delimiter ∨ delimiter ∈ delimiterNotations)
    (quote : delimiter ≠ [singleQuote]) (header : Bool) :
    lexFrom .start (delimiterOption delimiter ++ (ascii ", " ++ (headerOption header ++ ascii ");"))) =
      some (.word (ascii "delimiter") :: .string (delimiterCharacter delimiter) :: headerTokens header) := by
  by_cases mem : delimiter ∈ delimiterNotations
  · exact lexFrom_notation mem header
  · exact lexFrom_character mem ((one.resolve_right mem).clean quote) header

/-- The text of the command in front of its parts. -/
theorem InputFile.command_eq (file : InputFile) :
    file.command = ascii "COPY " ++ (file.relation ++ (ascii " FROM '" ++ (file.filename ++ (ascii "' WITH (FORMAT csv, " ++
      (delimiterOption file.delimiter ++ (ascii ", " ++ (headerOption file.header ++ ascii ");"))))))) := by
  simp only [InputFile.command, append_assoc]

/-- **What is read** of a command whose parts need no quotes. -/
theorem InputFile.readCopy_command (one : IsCharacter file.delimiter ∨ file.delimiter ∈ delimiterNotations)
    (name : NeedsNoQuotes file.relation) (clean : singleQuote ∉ file.filename) (quote : file.delimiter ≠ [singleQuote]) :
    readCopy file.command = some ⟨file.relation, file.filename,
      [⟨ascii "format", some (ascii "csv")⟩, ⟨ascii "delimiter", some (delimiterCharacter file.delimiter)⟩,
        ⟨ascii "header", some (if file.header then ascii "true" else ascii "false")⟩]⟩ := by
  rw [readCopy, lex, file.command_eq, lexFrom_copy, lexFrom_relation name.1 file.relation_lower, lexFrom_filename clean,
    lexFrom_delimiter one quote]
  have isName : colId (.word file.relation) = some file.relation := if_neg name.2
  cases file.header <;>
    simp only [map_some, bind_some, headerTokens, cons_append, nil_append, parseCopy, isName] <;> rfl

/-! ### Texts that are not -/

theorem name_of_colId (isName : colId token = some name) : token.name = some name := by
  cases token with
  | word text =>
    rw [colId] at isName
    split at isName
    · cases isName
    · exact isName
  | ident => exact isName
  | string | char => cases isName

/-- The first token of a text of which the first part has been read. -/
theorem head_of_lexFrom {first : Token} {others : List Token}
    (ran : Transducer.run lexStep s xs = some (t, first :: others))
    (lexed : lexFrom s (xs ++ ys) = some (token :: more)) : token = first := by
  rw [lexFrom_append_of_run ran] at lexed
  obtain ⟨rest, -, same⟩ := map_eq_some_iff.1 lexed
  cases same
  rfl

/-- A token that has been begun and has a space in it. -/
theorem exists_extend_of_lexFrom {begun : Token} (ran : Transducer.run lexStep s xs = some (t, []))
    (isBegun : t.begun = some begun) (lexed : lexFrom s (xs ++ ys) = some (token :: more)) :
    ∃ rest, token = begun.extend rest := by
  rw [lexFrom_append_of_run ran] at lexed
  obtain ⟨tokens, after, same⟩ := map_eq_some_iff.1 lexed
  rw [nil_append] at same
  subst same
  exact extend_of_lexFrom isBegun after

/-- **A name in front of a space is read back only if it is an identifier.** -/
theorem isIdentifier_of_lexFrom (noSpace : (32 : Byte) ∉ name)
    (lexed : lexFrom .start (name ++ (ascii " FROM '" ++ rest)) = some (token :: more))
    (isName : colId token = some name) : IsIdentifier name := by
  obtain ⟨s, first, later, ran, after, same⟩ := lexFrom_append.1 lexed
  have whole : ∀ other, token.name = some other → other = name :=
    fun other isOther => Option.some.inj (isOther.symm.trans (name_of_colId isName))
  cases nameRead_of_run ran with
  | blank space =>
    rw [nil_append] at same
    subst same
    -- the name is empty or invisible, so that the next word is read in its place
    cases head_of_lexFrom (show Transducer.run lexStep .start (ascii " FROM '") =
      some (.string false [], [.word (ascii "from")]) from rfl) after
    cases isName
  | @word spaces word cut isIdentifier =>
    rw [nil_append] at same
    subst same
    cases head_of_lexFrom (show Transducer.run lexStep (.word (word.map downcase)) (ascii " FROM '") =
      some (.string false [], [.word (word.map downcase), .word (ascii "from")]) from rfl) after
    have size := congrArg List.length (whole _ rfl)
    rw [cut, length_map, length_append] at size
    have empty : spaces = [] := length_eq_zero_iff.1 (by omega)
    rw [cut, empty]
    exact isIdentifier
  | @begun _ begun isBegun shorter =>
    rw [nil_append] at same
    subst same
    cases s with
    | start | word => cases isBegun
    | ident text =>
      obtain ⟨behind, rfl⟩ := exists_extend_of_lexFrom
        (show Transducer.run lexStep (.ident text) [32] = some (.ident (text ++ [32]), []) from rfl) rfl after
      refine absurd ?_ noSpace
      rw [← whole _ rfl]
      exact mem_append_left _ (mem_append_right _ (mem_singleton_self _))
    | identEnd text =>
      cases isBegun
      cases text with
      | nil => cases after
      | cons b text =>
        cases head_of_lexFrom (show Transducer.run lexStep (.identEnd (b :: text)) (ascii " FROM '") =
          some (.string false [], [.ident (b :: text), .word (ascii "from")]) from rfl) after
        exact absurd (shorter _ (name_of_colId isName)) (lt_irrefl _)
    | string | escape | stringEnd | gap =>
      cases isBegun
      obtain ⟨behind, rfl⟩ := extend_of_lexFrom rfl after
      cases isName
  | ended shorter =>
    cases same
    exact absurd (shorter _ (name_of_colId isName)) (lt_irrefl _)

/-- The text of a string that is read back whole has no space in it. -/
theorem not_space_of_extend {part behind : List Byte} (noSpace : (32 : Byte) ∉ text) (space : (32 : Byte) ∈ part) :
    Token.string text ≠ (Token.string part).extend behind := by
  intro same
  cases same
  exact noSpace (mem_append_left _ space)

/-- A string that has been begun is not read back behind a quote and a space. -/
theorem not_lexFrom_of_shorter {part : List Byte} (noSpace : (32 : Byte) ∉ text)
    (isBegun : s.begun = some (.string part)) (shorter : part.length < text.length) :
    lexFrom s (ascii "' W" ++ rest) ≠ some (.string text :: more) := by
  intro lexed
  have last : ∀ front : List Byte, (32 : Byte) ∈ front ++ [32] :=
    fun front => mem_append_right _ (mem_singleton_self _)
  have less : Token.string text ≠ .string part := fun same => by
    cases same
    exact lt_irrefl _ shorter
  cases s with
  | start | word | ident | identEnd => cases isBegun
  | string escapes text =>
    cases isBegun
    exact less (head_of_lexFrom (show Transducer.run lexStep (.string escapes part) (ascii "' W") =
      some (.word [119], [.string part]) from rfl) lexed)
  | escape text =>
    cases isBegun
    obtain ⟨behind, same⟩ := exists_extend_of_lexFrom (show Transducer.run lexStep (.escape part) (ascii "' ") =
      some (.string true (part ++ [39] ++ [32]), []) from rfl) rfl lexed
    exact not_space_of_extend noSpace (last _) same
  | stringEnd escapes text =>
    cases isBegun
    -- the quote is doubled, so that the string goes on
    have ran : Transducer.run lexStep (.stringEnd escapes part) (ascii "' ") =
        some (.string escapes (part ++ [39] ++ [32]), []) := by
      cases escapes <;> rfl
    obtain ⟨behind, same⟩ := exists_extend_of_lexFrom ran rfl lexed
    exact not_space_of_extend noSpace (last _) same
  | gap escapes text newline =>
    cases isBegun
    cases newline with
    | true =>
      have ran : Transducer.run lexStep (.gap escapes part true) (ascii "' ") =
          some (.string escapes (part ++ [32]), []) := by
        cases escapes <;> rfl
      obtain ⟨behind, same⟩ := exists_extend_of_lexFrom ran rfl lexed
      exact not_space_of_extend noSpace (last _) same
    | false =>
      exact less (head_of_lexFrom (show Transducer.run lexStep (.gap escapes part false) (ascii "'") =
        some (.string false [], [.string part]) from rfl) lexed)

/-- **A text in quotes is read back only if there is no quote in it.** -/
theorem clean_of_lexFrom (noSpace : (32 : Byte) ∉ text)
    (lexed : lexFrom (.string false []) (text ++ (ascii "' W" ++ rest)) = some (.string text :: more)) :
    singleQuote ∉ text := by
  obtain ⟨s, first, later, ran, after, same⟩ := lexFrom_append.1 lexed
  cases textRead_of_run ran with
  | clean clean => exact clean
  | shorter isBegun shorter =>
    rw [nil_append] at same
    subst same
    exact absurd after (not_lexFrom_of_shorter noSpace isBegun shorter)
  | ended shorter =>
    cases same
    exact absurd shorter (lt_irrefl _)

/-- The tokens of a statement up to the file name. -/
theorem parseCopy_eq_some {tokens : List Token} {stmt : CopyStmt} (parsed : parseCopy tokens = some stmt) :
    ∃ copy name copyFrom more, tokens = copy :: name :: copyFrom :: .string stmt.filename :: more ∧
      colId name = some stmt.relation := by
  unfold parseCopy at parsed
  split at parsed
  · split at parsed
    · obtain ⟨relation, isName, parsed⟩ := bind_eq_some_iff.1 parsed
      obtain ⟨options, -, parsed⟩ := bind_eq_some_iff.1 parsed
      cases parsed
      exact ⟨_, _, _, _, rfl, isName⟩
    · cases parsed
  · cases parsed

theorem not_mem_of_solid (solid : ∀ b ∈ text, IsSolid b) : (32 : Byte) ∉ text := by
  intro mem
  cases (solid 32 mem).1

theorem not_lexFrom_quote (header : Bool) :
    lexFrom .start (delimiterOption [singleQuote] ++ (ascii ", " ++ (headerOption header ++ ascii ");"))) = none := by
  cases header <;> rfl

/-- **A command that says what was configured** has parts that need no quotes. -/
theorem CopyStmt.Agrees.needsNoQuotes {stmt : CopyStmt} (agrees : stmt.Agrees file)
    (read : readCopy file.command = some stmt) :
    NeedsNoQuotes file.relation ∧ singleQuote ∉ file.filename ∧ file.delimiter ≠ [singleQuote] := by
  obtain ⟨tokens, lexed, parsed⟩ := bind_eq_some_iff.1 read
  obtain ⟨copy, name, copyFrom, more, rfl, isName⟩ := parseCopy_eq_some parsed
  rw [agrees.relation] at isName
  rw [agrees.filename] at lexed
  rw [lex, file.command_eq, lexFrom_copy] at lexed
  obtain ⟨afterCopy, lexedName, same⟩ := map_eq_some_iff.1 lexed
  cases same
  have isIdentifier := isIdentifier_of_lexFrom (not_mem_of_solid file.relation_solid) lexedName isName
  rw [lexFrom_relation isIdentifier file.relation_lower] at lexedName
  obtain ⟨afterFrom, lexedText, same⟩ := map_eq_some_iff.1 lexedName
  cases same
  have clean := clean_of_lexFrom (not_mem_of_solid file.filename_solid) lexedText
  rw [lexFrom_filename clean] at lexedText
  refine ⟨⟨isIdentifier, fun keyword => ?_⟩, clean, fun quote => ?_⟩
  · rw [colId, if_pos keyword] at isName
    cases isName
  · rw [quote, not_lexFrom_quote] at lexedText
    cases lexedText

/-- What is read of a command whose parts need no quotes is what was configured. -/
theorem InputFile.agrees_of_needsNoQuotes (one : IsCharacter file.delimiter ∨ file.delimiter ∈ delimiterNotations)
    (name : NeedsNoQuotes file.relation) (clean : singleQuote ∉ file.filename) (quote : file.delimiter ≠ [singleQuote]) :
    ∃ stmt, readCopy file.command = some stmt ∧ stmt.Agrees file := by
  refine ⟨_, file.readCopy_command one name clean quote, rfl, rfl, rfl, ?_⟩
  cases file.header <;> rfl

/-- **The command says what was configured exactly when its parts need no quotes**: the name of the relation is
an identifier and no keyword, and neither the file name nor the delimiter has a quote. -/
theorem InputFile.command_agrees_iff (file : InputFile)
    (one : IsCharacter file.delimiter ∨ file.delimiter ∈ delimiterNotations) :
    (∃ stmt, readCopy file.command = some stmt ∧ stmt.Agrees file) ↔
      NeedsNoQuotes file.relation ∧ singleQuote ∉ file.filename ∧ file.delimiter ≠ [singleQuote] := by
  constructor
  · rintro ⟨stmt, read, agrees⟩
    exact agrees.needsNoQuotes read
  · rintro ⟨name, clean, quote⟩
    exact InputFile.agrees_of_needsNoQuotes one name clean quote

/-- An entry whose parts need no quotes, with a tab. -/
def personsTokens : ConfigurationTokens where
  filename := ascii "'/data/persons.csv'"
  relation := ascii "'Persons'"
  delimiter := ascii "'\\t'"
  header := ascii "'True'"
  filename_size := by decide
  relation_size := by decide
  delimiter_size := by decide
  solid := by decide +kernel

theorem command_agrees_iff_persons :
    ∃ stmt, readCopy personsTokens.load.command = some stmt ∧ stmt.Agrees personsTokens.load :=
  (InputFile.command_agrees_iff personsTokens.load (by decide)).2 (by decide +kernel)

/-- A relation with the name of a keyword. -/
def userTokens : ConfigurationTokens where
  filename := ascii "'/data/users.csv'"
  relation := ascii "'user'"
  delimiter := ascii "','"
  header := ascii "'False'"
  filename_size := by decide
  relation_size := by decide
  delimiter_size := by decide
  solid := by decide +kernel

/-- A file name with a quote. -/
def quotedTokens : ConfigurationTokens where
  filename := ascii "'/data/year's.csv'"
  relation := ascii "'persons'"
  delimiter := ascii "','"
  header := ascii "'False'"
  filename_size := by decide
  relation_size := by decide
  delimiter_size := by decide
  solid := by decide +kernel

/-- **Not every command says what was configured**: a keyword is not read as a name, and a file name ends at a quote. -/
theorem not_command_agrees :
    (¬ ∃ stmt, readCopy userTokens.load.command = some stmt ∧ stmt.Agrees userTokens.load) ∧
      ¬ ∃ stmt, readCopy quotedTokens.load.command = some stmt ∧ stmt.Agrees quotedTokens.load := by
  constructor
  · rintro ⟨stmt, read, agrees⟩
    exact absurd (agrees.needsNoQuotes read).1 (by decide +kernel)
  · rintro ⟨stmt, read, agrees⟩
    exact absurd (agrees.needsNoQuotes read).2.1 (by decide +kernel)

end PostgresRaw
