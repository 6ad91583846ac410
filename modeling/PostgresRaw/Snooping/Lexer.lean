import PostgresRaw.Basic
import PostgresRaw.Library.Transducer

/-!
# Identifiers and string constants of SQL

The lexical rules of `scan.l` that matter for the commands which the scan builds: white space, identifiers and
keywords, quoted identifiers, string constants and E-strings, and the characters of a list of options.  The rules look
at one character at a time, so that they are a transducer from bytes to tokens (`lexStep`).

`standard_conforming_strings` is on: a backslash in a string constant without `E` stands for itself.  What begins with
another character (a number, an operator, a comment, a dollar quote, a Unicode escape) is not read, nor are numeric
escapes.  Names are at most 63 bytes long, so none is truncated; letters are lowered as in a database with a
multi-byte encoding.

A character either goes into the token that is being read, or ends it and begins the next one (`lexStep_of_begun`).
What is load-bearing: a text that is put between quotes, or where a name is expected, comes back whole only if no
character of it is a quote, or if all of them are characters of an identifier (`TextRead`, `NameRead`); every
other token that begins in it has less bytes, or goes on behind it.
-/

namespace PostgresRaw

open Option List

/-- The bytes of a text. -/
def ascii (text : String) : List Byte := text.toList.map fun c => UInt8.ofNat c.toNat

/-- A single quote. -/
def singleQuote : Byte := 39

/-- A double quote. -/
def doubleQuote : Byte := 34

/-! ### Classes of characters -/

/-- `{space}` -/
def isSpace (b : Byte) : Bool := b = 32 || b = 9 || b = 10 || b = 13 || b = 12

/-- `{newline}` -/
def isNewline (b : Byte) : Bool := b = 10 || b = 13

/-- `{ident_start}` -/
def isIdentStart (b : Byte) : Bool := (65 ≤ b && b ≤ 90) || (97 ≤ b && b ≤ 122) || 128 ≤ b || b = 95

/-- `{ident_cont}` -/
def isIdentCont (b : Byte) : Bool := isIdentStart b || (48 ≤ b && b ≤ 57) || b = 36

/-- The characters of `{self}` in a list of options. -/
def isSelf (b : Byte) : Bool := b = 44 || b = 40 || b = 41 || b = 59

/-- `downcase_identifier` on one byte. -/
def downcase (b : Byte) : Byte := if 65 ≤ b ∧ b ≤ 90 then b + 32 else b

/-- `unescape_single_char`; `none` for the numeric escapes. -/
def unescapeSingleChar (b : Byte) : Option Byte :=
  if b = 98 then some 8
  else if b = 102 then some 12
  else if b = 110 then some 10
  else if b = 114 then some 13
  else if b = 116 then some 9
  else if (48 ≤ b ∧ b ≤ 55) ∨ b = 120 ∨ b = 117 ∨ b = 85 then none
  else some b

/-! ### Tokens -/

inductive Token where
  /-- an identifier or a keyword, in lower case -/
  | word (text : List Byte)
  /-- a quoted identifier -/
  | ident (text : List Byte)
  /-- a string constant -/
  | string (text : List Byte)
  | char (b : Byte)
deriving DecidableEq, Repr

/-- Where the scanner is in a token, and what it has read of it. -/
inductive LexState where
  | start
  | word (text : List Byte)
  | ident (text : List Byte)
  /-- behind a double quote, which ends the identifier unless it is doubled -/
  | identEnd (text : List Byte)
  /-- in a string constant, with or without escapes -/
  | string (escapes : Bool) (text : List Byte)
  /-- behind a backslash -/
  | escape (text : List Byte)
  /-- behind a single quote, which ends the string unless it is doubled -/
  | stringEnd (escapes : Bool) (text : List Byte)
  /-- in the white space behind a string, which goes on behind a newline -/
  | gap (escapes : Bool) (text : List Byte) (newline : Bool)
deriving DecidableEq, Repr

/-- The first character of a token, or white space. -/
def startToken (b : Byte) : Option (LexState × List Token) :=
  if isSpace b then some (.start, [])
  else if isIdentStart b then some (.word [downcase b], [])
  else if b = singleQuote then some (.string false [], [])
  else if b = doubleQuote then some (.ident [], [])
  else if isSelf b then some (.start, [.char b])
  else none

/-- A token ends in front of the character. -/
def endToken (token : Token) (b : Byte) : Option (LexState × List Token) :=
  (startToken b).map fun (s, more) => (s, token :: more)

/-- **One character.** -/
def lexStep : LexState → Byte → Option (LexState × List Token)
  | .start, b => startToken b
  | .word text, b =>
    if isIdentCont b then some (.word (text ++ [downcase b]), [])
    else if b = singleQuote ∧ text = ascii "e" then some (.string true [], [])
    -- bit strings and `NCHAR` strings
    else if b = singleQuote ∧ (text = ascii "b" ∨ text = ascii "x" ∨ text = ascii "n") then none
    else endToken (.word text) b
  | .ident text, b => if b = doubleQuote then some (.identEnd text, []) else some (.ident (text ++ [b]), [])
  | .identEnd text, b =>
    if b = doubleQuote then some (.ident (text ++ [b]), [])
    -- zero-length delimited identifier
    else if text = [] then none
    else endToken (.ident text) b
  | .string escapes text, b =>
    if b = singleQuote then some (.stringEnd escapes text, [])
    else if escapes = true ∧ b = backslash then some (.escape text, [])
    else some (.string escapes (text ++ [b]), [])
  | .escape text, b => (unescapeSingleChar b).map fun c => (.string true (text ++ [c]), [])
  | .stringEnd escapes text, b =>
    if b = singleQuote then some (.string escapes (text ++ [b]), [])
    else if isSpace b then some (.gap escapes text (isNewline b), [])
    else endToken (.string text) b
  | .gap escapes text newline, b =>
    if isSpace b then some (.gap escapes text (newline || isNewline b), [])
    else if b = singleQuote ∧ newline = true then some (.string escapes text, [])
    else endToken (.string text) b

/-- The end of the text. -/
def LexState.finish : LexState → Option (List Token)
  | .start => some []
  | .word text => some [.word text]
  | .identEnd text => if text = [] then none else some [.ident text]
  | .stringEnd _ text | .gap _ text _ => some [.string text]
  | .ident _ | .string .. | .escape _ => none

/-- The tokens of a text whose first token may have been begun. -/
def lexFrom (s : LexState) (text : List Byte) : Option (List Token) :=
  (Transducer.run lexStep s text).bind fun (t, tokens) => t.finish.map (tokens ++ ·)

/-- The tokens of a text. -/
def lex (text : List Byte) : Option (List Token) := lexFrom .start text

variable {s t : LexState} {b : Byte} {text : List Byte} {out more : List Token} {token : Token}

theorem lexFrom_append {xs ys : List Byte} {tokens : List Token} : lexFrom s (xs ++ ys) = some tokens ↔
      ∃ t first rest, Transducer.run lexStep s xs = some (t, first) ∧ lexFrom t ys = some rest ∧ tokens = first ++ rest := by
  constructor
  · intro lexed
    obtain ⟨⟨u, out⟩, ran, finished⟩ := bind_eq_some_iff.1 lexed
    obtain ⟨last, final, rfl⟩ := map_eq_some_iff.1 finished
    obtain ⟨t, first, rest, before, after, rfl⟩ := Transducer.run_append.1 ran
    refine ⟨t, first, rest ++ last, before, ?_, append_assoc ..⟩
    exact bind_eq_some_iff.2 ⟨(u, rest), after, map_eq_some_iff.2 ⟨last, final, rfl⟩⟩
  · rintro ⟨t, first, rest, before, lexed, rfl⟩
    obtain ⟨⟨u, out⟩, ran, finished⟩ := bind_eq_some_iff.1 lexed
    obtain ⟨last, final, rfl⟩ := map_eq_some_iff.1 finished
    refine bind_eq_some_iff.2 ⟨(u, first ++ out), Transducer.run_append.2 ⟨t, first, out, before, ran, rfl⟩, ?_⟩
    exact map_eq_some_iff.2 ⟨last, final, append_assoc ..⟩

/-! ### What is read back -/

/-- An identifier that needs no quotes, keywords apart. -/
def IsIdentifier (name : List Byte) : Prop := name.head?.any isIdentStart = true ∧ ∀ b ∈ name, isIdentCont b = true

instance (name : List Byte) : Decidable (IsIdentifier name) := inferInstanceAs (Decidable (_ ∧ _))

theorem not_isSpace_of_isIdentStart (start : isIdentStart b = true) : isSpace b = false := by
  by_contra space
  rw [Bool.not_eq_false] at space
  simp only [isSpace, Bool.or_eq_true, decide_eq_true_eq] at space
  rcases space with (((rfl | rfl) | rfl) | rfl) | rfl <;> cases start

theorem isIdentCont_of_isIdentStart (start : isIdentStart b = true) : isIdentCont b = true := by
  rw [isIdentCont, start]
  rfl

theorem lexStep_start (start : isIdentStart b = true) : lexStep .start b = some (.word [downcase b], []) := by
  rw [lexStep, startToken, not_isSpace_of_isIdentStart start, start]
  rfl

theorem lexStep_word (cont : isIdentCont b = true) (text : List Byte) :
    lexStep (.word text) b = some (.word (text ++ [downcase b]), []) := by
  rw [lexStep, if_pos cont]

/-- The rest of an identifier. -/
theorem run_word {name : List Byte} (cont : ∀ b ∈ name, isIdentCont b = true) (text : List Byte) :
    Transducer.run lexStep (.word text) name = some (.word (text ++ name.map downcase), []) := by
  induction name generalizing text with
  | nil => rw [map_nil, append_nil]; rfl
  | cons b name ih =>
    rw [forall_mem_cons] at cont
    refine Transducer.run_cons_eq_some.2 ⟨_, [], [], lexStep_word cont.1 text, ?_, rfl⟩
    rw [ih cont.2, append_assoc]
    rfl

/-- **An identifier is read as it is**, in lower case. -/
theorem run_identifier {name : List Byte} (isIdentifier : IsIdentifier name) :
    Transducer.run lexStep .start name = some (.word (name.map downcase), []) := by
  obtain ⟨start, cont⟩ := isIdentifier
  cases name with
  | nil => cases start
  | cons b name =>
    rw [forall_mem_cons] at cont
    exact Transducer.run_cons_eq_some.2 ⟨_, [], [], lexStep_start start, run_word cont.2 _, rfl⟩

/-- **A text without quotes is read as it is** in a string constant. -/
theorem run_string (clean : singleQuote ∉ text) (before : List Byte) :
    Transducer.run lexStep (.string false before) text = some (.string false (before ++ text), []) := by
  induction text generalizing before with
  | nil => rw [append_nil]; rfl
  | cons b text ih =>
    rw [mem_cons, not_or] at clean
    have step : lexStep (.string false before) b = some (.string false (before ++ [b]), []) := by
      rw [lexStep, if_neg (Ne.symm clean.1), if_neg fun both => by cases both.1]
    refine Transducer.run_cons_eq_some.2 ⟨_, [], [], step, ?_, rfl⟩
    rw [ih clean.2, append_assoc]
    rfl

/-! ### Tokens that have been begun

An identifier with quotes or a string goes on until its closing quote, whatever is in it. -/

/-- The identifier with quotes, or the string, of which a part has been read. -/
def LexState.begun : LexState → Option Token
  | .start | .word _ => none
  | .ident text | .identEnd text => some (.ident text)
  | .string _ text | .escape text | .stringEnd _ text | .gap _ text _ => some (.string text)

/-- The token with more bytes at its end. -/
def Token.extend : Token → List Byte → Token
  | .word text, more => .word (text ++ more)
  | .ident text, more => .ident (text ++ more)
  | .string text, more => .string (text ++ more)
  | .char b, _ => .char b

@[simp] theorem Token.extend_nil (token : Token) : token.extend [] = token := by
  cases token <;> simp [Token.extend]

theorem Token.extend_append (token : Token) (first second : List Byte) :
    (token.extend first).extend second = token.extend (first ++ second) := by
  cases token <;> simp [Token.extend]

theorem endToken_eq_some (ended : endToken token b = some (s, out)) :
    ∃ more, startToken b = some (s, more) ∧ out = token :: more := by
  obtain ⟨⟨t, more⟩, started, same⟩ := map_eq_some_iff.1 ended
  cases same
  exact ⟨more, started, rfl⟩

/-- **What a character can do to a token that has been begun**: go into it, be one of its quotes, or end it. -/
theorem lexStep_of_begun (begun : s.begun = some token) (step : lexStep s b = some (t, out)) :
    (out = [] ∧ ∃ more, more.length ≤ 1 ∧ t.begun = some (token.extend more)) ∨ ∃ later, out = token :: later := by
  have ended : endToken token b = some (t, out) → ∃ later, out = token :: later := by
    intro ended
    obtain ⟨later, -, rfl⟩ := endToken_eq_some ended
    exact ⟨later, rfl⟩
  have still : t.begun = some token → out = [] →
      out = [] ∧ ∃ more, more.length ≤ 1 ∧ t.begun = some (token.extend more) :=
    fun same none => ⟨none, [], Nat.zero_le 1, by rw [same, Token.extend_nil]⟩
  have longer : ∀ c, t.begun = some (token.extend [c]) → out = [] →
      out = [] ∧ ∃ more, more.length ≤ 1 ∧ t.begun = some (token.extend more) :=
    fun c same none => ⟨none, [c], Nat.le_refl 1, same⟩
  cases s with
  | start | word => cases begun
  | ident text =>
    cases begun
    rw [lexStep] at step
    split at step
    · cases step
      exact .inl (still rfl rfl)
    · cases step
      exact .inl (longer b rfl rfl)
  | identEnd text =>
    cases begun
    rw [lexStep] at step
    split at step
    · cases step
      exact .inl (longer b rfl rfl)
    · split at step
      · cases step
      · exact .inr (ended step)
  | string escapes text =>
    cases begun
    rw [lexStep] at step
    split at step
    · cases step
      exact .inl (still rfl rfl)
    · split at step
      · cases step
        exact .inl (still rfl rfl)
      · cases step
        exact .inl (longer b rfl rfl)
  | escape text =>
    cases begun
    rw [lexStep] at step
    obtain ⟨c, -, result⟩ := map_eq_some_iff.1 step
    cases result
    exact .inl (longer c rfl rfl)
  | stringEnd escapes text =>
    cases begun
    rw [lexStep] at step
    split at step
    · cases step
      exact .inl (longer b rfl rfl)
    · split at step
      · cases step
        exact .inl (still rfl rfl)
      · exact .inr (ended step)
  | gap escapes text newline =>
    cases begun
    rw [lexStep] at step
    split at step
    · cases step
      exact .inl (still rfl rfl)
    · split at step
      · cases step
        exact .inl (still rfl rfl)
      · exact .inr (ended step)

/-- **The next token** goes on with what has been read of it. -/
theorem extend_of_lexFrom {begun : Token} (isBegun : s.begun = some begun)
    (lexed : lexFrom s text = some (token :: more)) : ∃ rest, token = begun.extend rest := by
  induction text generalizing s begun with
  | nil =>
    obtain ⟨last, final, same⟩ := map_eq_some_iff.1 (show s.finish.map ([] ++ ·) = some (token :: more) from lexed)
    rw [nil_append] at same
    subst same
    refine ⟨[], ?_⟩
    rw [Token.extend_nil]
    cases s with
    | start | word => cases isBegun
    | ident | string | escape => cases final
    | identEnd text =>
      cases isBegun
      rw [LexState.finish] at final
      split at final
      · cases final
      · cases final
        rfl
    | stringEnd | gap =>
      cases isBegun
      cases final
      rfl
  | cons b text ih =>
    obtain ⟨t, first, rest, ran, later, same⟩ := lexFrom_append.1 (show lexFrom s ([b] ++ text) = _ from lexed)
    obtain ⟨t', out, none, step, stop, rfl⟩ := Transducer.run_cons_eq_some.1 ran
    cases stop
    rw [append_nil] at same
    rcases lexStep_of_begun isBegun step with ⟨rfl, c, -, still⟩ | ⟨tokens, rfl⟩
    · rw [nil_append] at same
      subst same
      obtain ⟨rest, rfl⟩ := ih still later
      exact ⟨c ++ rest, Token.extend_append ..⟩
    · cases same
      exact ⟨[], (Token.extend_nil _).symm⟩

/-! ### Where a name leads to

A name that is put into a command may be anything.  `NameRead` lists the states that the scanner can be in behind
it: only an identifier can still become a name with as many bytes. -/

/-- The name that the token is. -/
def Token.name : Token → Option (List Byte)
  | .word text | .ident text => some text
  | .string _ | .char _ => none

/-- If the token is a name, it has less bytes. -/
def Token.Shorter (token : Token) (n : Nat) : Prop := ∀ name, token.name = some name → name.length < n

theorem Token.Shorter.extend {n : Nat} (shorter : token.Shorter n) {more : List Byte} (one : more.length ≤ 1) :
    (token.extend more).Shorter (n + 1) := by
  intro name isName
  cases token with
  | word text | ident text =>
    cases isName
    have := shorter text rfl
    rw [length_append]
    omega
  | string | char => cases isName

theorem Token.Shorter.succ {n : Nat} (shorter : token.Shorter n) : token.Shorter (n + 1) :=
  fun name isName => Nat.lt_succ_of_lt (shorter name isName)

/-- What has been read of a name, and the tokens in it. -/
inductive NameRead (done : List Byte) : LexState → List Token → Prop where
  | blank (space : ∀ b ∈ done, isSpace b = true) : NameRead done .start []
  | word {spaces name : List Byte} (cut : done = spaces ++ name) (isIdentifier : IsIdentifier name) :
      NameRead done (.word (name.map downcase)) []
  | begun {s : LexState} {token : Token} (begun : s.begun = some token) (shorter : token.Shorter done.length) :
      NameRead done s []
  | ended {s : LexState} {token : Token} {more : List Token} (shorter : token.Shorter done.length) :
      NameRead done s (token :: more)

/-- One more byte of a name. -/
theorem NameRead.step {done : List Byte} (read : NameRead done s out) (step : lexStep s b = some (t, more)) :
    NameRead (done ++ [b]) t (out ++ more) := by
  have size : (done ++ [b]).length = done.length + 1 := length_append
  cases read with
  | blank space =>
    rw [lexStep, startToken] at step
    split at step
    · next isSpace =>
      cases step
      exact .blank (forall_mem_append.2 ⟨space, forall_mem_singleton.2 isSpace⟩)
    · split at step
      · next start =>
        cases step
        exact .word rfl ⟨start, forall_mem_singleton.2 (isIdentCont_of_isIdentStart start)⟩
      · split at step
        · cases step
          exact .begun rfl fun name isName => by cases isName
        · split at step
          · cases step
            exact .begun rfl fun name isName => by
              cases isName
              rw [size]
              exact Nat.succ_pos _
          · split at step
            · cases step
              exact .ended fun name isName => by cases isName
            · cases step
  | @word spaces name cut isIdentifier =>
    rw [lexStep] at step
    split at step
    · next cont =>
      cases step
      rw [show name.map downcase ++ [downcase b] = (name ++ [b]).map downcase by rw [map_append]; rfl]
      refine .word (by rw [cut, append_assoc]) ⟨?_, ?_⟩
      · cases name with
        | nil => cases isIdentifier.1
        | cons c name => exact isIdentifier.1
      · exact forall_mem_append.2 ⟨isIdentifier.2, forall_mem_singleton.2 cont⟩
    · split at step
      · cases step
        exact .begun rfl fun name isName => by cases isName
      · split at step
        · cases step
        · obtain ⟨later, -, rfl⟩ := endToken_eq_some step
          refine .ended fun other isName => ?_
          cases isName
          rw [size, cut, length_map, length_append]
          exact Nat.lt_succ_of_le (Nat.le_add_left _ _)
  | begun begun shorter =>
    rcases lexStep_of_begun begun step with ⟨rfl, c, one, still⟩ | ⟨later, rfl⟩
    · exact .begun still (size ▸ shorter.extend one)
    · exact .ended (size ▸ shorter.succ)
  | ended shorter => exact .ended (size ▸ shorter.succ)

/-- **Reading a name.** -/
theorem nameRead_of_run {name : List Byte} (ran : Transducer.run lexStep .start name = some (s, out)) :
    NameRead name s out :=
  Transducer.run_invariant ran (.blank fun _ mem => absurd mem not_mem_nil) fun read _ step => read.step step

/-! ### Where a text in quotes leads to -/

/-- What has been read of a string constant: all, if there was no quote, or less. -/
inductive TextRead (done : List Byte) : LexState → List Token → Prop where
  | clean (clean : singleQuote ∉ done) : TextRead done (.string false done) []
  | shorter {s : LexState} {text : List Byte} (begun : s.begun = some (.string text)) (shorter : text.length < done.length) :
      TextRead done s []
  | ended {s : LexState} {text : List Byte} {more : List Token} (shorter : text.length < done.length) :
      TextRead done s (.string text :: more)

/-- One more byte of a string constant. -/
theorem TextRead.step {done : List Byte} (read : TextRead done s out) (step : lexStep s b = some (t, more)) :
    TextRead (done ++ [b]) t (out ++ more) := by
  have size : (done ++ [b]).length = done.length + 1 := length_append
  cases read with
  | clean clean =>
    rw [lexStep] at step
    split at step
    · cases step
      exact .shorter rfl (by rw [size]; exact Nat.lt_succ_self _)
    · next other =>
      rw [if_neg fun both => by cases both.1] at step
      cases step
      refine .clean fun mem => ?_
      rcases mem_append.1 mem with old | new
      · exact clean old
      · exact other (mem_singleton.1 new).symm
  | shorter begun shorter =>
    rcases lexStep_of_begun begun step with ⟨rfl, c, one, still⟩ | ⟨later, rfl⟩
    · refine .shorter still ?_
      rw [length_append, size]
      omega
    · exact .ended (by omega)
  | ended shorter => exact .ended (by omega)

/-- **Reading a text in quotes.** -/
theorem textRead_of_run (ran : Transducer.run lexStep (.string false []) text = some (s, out)) : TextRead text s out :=
  Transducer.run_invariant ran (.clean not_mem_nil) fun read _ step => read.step step

end PostgresRaw
