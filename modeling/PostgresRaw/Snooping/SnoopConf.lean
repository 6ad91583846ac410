import PostgresRaw.Basic
import Mathlib.Data.List.TakeWhile

/-!
# The lines of `snoop.conf`

`readfile` passes over the configuration file twice: once to find the longest line, and once to read the
lines into a buffer of this size.  So no line is cut, whatever its length (`readfile_eq`); the last one may
lack its newline.

`parse` cuts a line at blanks, in place.  Every round of its loop stores the address of a token, and the
last round is taken back at the end.  This is right if the line ends in a blank, where the last round has
stored the address of the end of the line (`parseLoop_eq`): then all tokens are found.  Otherwise the last
token is taken back.  Either way the number of addresses that are stored is not bounded by the size of the
caller's array.
-/

namespace PostgresRaw

open List

/-! ### Reading the file -/

/-- `fgets` into a buffer for `n` bytes: the line, with its newline if it has one, and what is left. -/
def fgets : Nat → List Byte → List Byte × List Byte
  | 0, text => ([], text)
  | _ + 1, [] => ([], [])
  | n + 1, b :: text => if b = newline then ([b], text) else ((b :: (fgets n text).1), (fgets n text).2)

/-- The first pass of `readfile`: `maxlength` at its end. -/
def longestLine : (linelen maxlength : Nat) → List Byte → Nat
  | linelen, maxlength, [] => max maxlength linelen
  | linelen, maxlength, b :: text =>
    if b = newline then longestLine 0 (max maxlength (linelen + 1)) text else longestLine (linelen + 1) maxlength text

/-- The second pass, which stores what `xstrdup` makes of the lines; every round reads at least one byte. -/
def storeLines (maxlength : Nat) : (fuel : Nat) → List Byte → List (List Byte)
  | 0, _ => []
  | _ + 1, [] => []
  | fuel + 1, b :: text =>
    cString (fgets maxlength (b :: text)).1 :: storeLines maxlength fuel (fgets maxlength (b :: text)).2

/-- `readfile`. -/
def readfile (text : List Byte) : List (List Byte) := storeLines (longestLine 0 1 text) text.length text

/-- The lines that `loadEnvironment` passes on. -/
def configurationLines (text : List Byte) : List (List Byte) := (readfile text).filter fun line => decide (1 < line.length)

/-- The longest line is at least as long as one that has been seen. -/
theorem le_longestLine (linelen maxlength : Nat) (text : List Byte) : maxlength ≤ longestLine linelen maxlength text := by
  induction text generalizing linelen maxlength with
  | nil => exact Nat.le_max_left ..
  | cons b text ih =>
    rw [longestLine]
    split
    · exact le_trans (Nat.le_max_left ..) (ih ..)
    · exact ih ..

/-- It is as long as the line that is being read. -/
theorem longestLine_ge_line {linelen maxlength : Nat} {body rest : List Byte} (clean : newline ∉ body)
    (ends : rest = [] ∨ ∃ more, rest = newline :: more) :
    linelen + (body.length + (rest.take 1).length) ≤ longestLine linelen maxlength (body ++ rest) := by
  induction body generalizing linelen with
  | nil =>
    rcases ends with rfl | ⟨more, rfl⟩
    · exact Nat.le_max_right ..
    · rw [nil_append, longestLine, if_pos rfl]
      exact le_trans (by simp [Nat.le_max_right]) (le_longestLine ..)
  | cons b body ih =>
    rw [mem_cons, not_or] at clean
    rw [cons_append, longestLine, if_neg (Ne.symm clean.1), length_cons]
    have := @ih (linelen + 1) clean.2
    omega

/-- What is behind a line does not make it shorter. -/
theorem longestLine_ge_rest {linelen maxlength : Nat} {body rest : List Byte} (clean : newline ∉ body) :
    ∃ maxlength', longestLine linelen maxlength (body ++ newline :: rest) = longestLine 0 maxlength' rest := by
  induction body generalizing linelen with
  | nil => exact ⟨_, by rw [nil_append, longestLine, if_pos rfl]⟩
  | cons b body ih =>
    rw [mem_cons, not_or] at clean
    rw [cons_append, longestLine, if_neg (Ne.symm clean.1)]
    exact ih clean.2

/-- A line that fits the buffer is read to its end. -/
theorem fgets_eq {n : Nat} {body rest : List Byte} (clean : newline ∉ body)
    (ends : rest = [] ∨ ∃ more, rest = newline :: more) (fits : body.length + (rest.take 1).length ≤ n) :
    fgets n (body ++ rest) = (body ++ rest.take 1, rest.drop 1) := by
  induction body generalizing n with
  | nil =>
    rcases ends with rfl | ⟨more, rfl⟩
    · cases n <;> rfl
    · cases n with
      | zero => simp at fits
      | succ n => rfl
  | cons b body ih =>
    rw [mem_cons, not_or] at clean
    rw [length_cons] at fits
    cases n with
    | zero => omega
    | succ n =>
      rw [cons_append, fgets, if_neg (Ne.symm clean.1), ih clean.2 (by omega)]
      rfl

/-- Every text is a line and the rest. -/
theorem exists_line (text : List Byte) :
    ∃ body rest, text = body ++ rest ∧ newline ∉ body ∧ (rest = [] ∨ ∃ more, rest = newline :: more) := by
  induction text with
  | nil => exact ⟨[], [], rfl, not_mem_nil, .inl rfl⟩
  | cons b text ih =>
    by_cases isNewline : b = newline
    · exact ⟨[], b :: text, rfl, not_mem_nil, .inr ⟨text, by rw [isNewline]⟩⟩
    · obtain ⟨body, rest, rfl, clean, ends⟩ := ih
      refine ⟨b :: body, rest, rfl, ?_, ends⟩
      rw [mem_cons, not_or]
      exact ⟨Ne.symm isNewline, clean⟩

/-- The text cut behind its newlines. -/
structure CutIntoLines (text : List Byte) (complete : List (List Byte)) (last : List Byte) : Prop where
  text : text = (complete.map (· ++ [newline])).flatten ++ last
  complete : ∀ body ∈ complete, newline ∉ body
  last : newline ∉ last

theorem cutIntoLines_last {last : List Byte} (clean : newline ∉ last) : CutIntoLines last [] last :=
  ⟨rfl, fun _ mem => absurd mem not_mem_nil, clean⟩

theorem CutIntoLines.cons {text last body : List Byte} {complete : List (List Byte)} (lines : CutIntoLines text complete last)
    (clean : newline ∉ body) : CutIntoLines (body ++ newline :: text) (body :: complete) last where
  text := by simp [lines.text]
  complete := forall_mem_cons.2 ⟨clean, lines.complete⟩
  last := lines.last

theorem storeLines_succ {maxlength fuel : Nat} {text : List Byte} (some : text ≠ []) :
    storeLines maxlength (fuel + 1) text =
      cString (fgets maxlength text).1 :: storeLines maxlength fuel (fgets maxlength text).2 := by
  cases text with
  | nil => exact absurd rfl some
  | cons b text => rfl

/-- The second pass, with a buffer for the longest line. -/
theorem storeLines_eq {maxlength fuel seen : Nat} {text : List Byte} (enough : text.length ≤ fuel)
    (fits : longestLine 0 seen text ≤ maxlength) :
    ∃ complete last, CutIntoLines text complete last ∧ storeLines maxlength fuel text =
      (complete.map (· ++ [newline]) ++ if last = [] then [] else [last]).map cString := by
  induction fuel generalizing seen text with
  | zero =>
    obtain rfl := eq_nil_of_length_eq_zero (Nat.le_zero.1 enough)
    exact ⟨[], [], cutIntoLines_last not_mem_nil, rfl⟩
  | succ fuel ih =>
    obtain ⟨body, rest, rfl, clean, ends⟩ := exists_line text
    have line := @fgets_eq maxlength body rest clean ends (by
      have := @longestLine_ge_line 0 seen body rest clean ends
      omega)
    rcases ends with rfl | ⟨more, rfl⟩
    · rw [append_nil] at line ⊢
      refine ⟨[], body, cutIntoLines_last clean, ?_⟩
      by_cases none : body = []
      · rw [none]
        rfl
      · rw [storeLines_succ none, line, if_neg none]
        cases fuel <;> simp [storeLines]
    · obtain ⟨seen', same⟩ := @longestLine_ge_rest 0 seen body more clean
      rw [length_append, length_cons] at enough
      obtain ⟨complete, last, lines, rest⟩ := @ih seen' more (by omega) (by rw [← same]; exact fits)
      refine ⟨body :: complete, last, lines.cons clean, ?_⟩
      rw [storeLines_succ (by simp), line]
      simp only [take_succ_cons, take_zero, drop_succ_cons, drop_zero, rest, map_cons, cons_append]

/-- **No line is cut.**  The lines that are stored are those between the newlines of the file, and what is
behind the last newline if there is something. -/
theorem readfile_eq (text : List Byte) : ∃ complete last, CutIntoLines text complete last ∧
      readfile text = (complete.map (· ++ [newline]) ++ if last = [] then [] else [last]).map cString :=
  storeLines_eq le_rfl le_rfl

variable {rest blanks token line : List Byte}

/-- A line ends at the first newline. -/
theorem line_inj {body body' rest' : List Byte} (clean : newline ∉ body) (clean' : newline ∉ body')
    (same : body ++ newline :: rest = body' ++ newline :: rest') : body = body' ∧ rest = rest' := by
  induction body generalizing body' with
  | nil =>
    cases body' with
    | nil => exact ⟨rfl, tail_eq_of_cons_eq same⟩
    | cons b body' => exact absurd (head_eq_of_cons_eq same ▸ mem_cons_self) clean'
  | cons b body ih =>
    cases body' with
    | nil => exact absurd (head_eq_of_cons_eq same ▸ mem_cons_self) clean
    | cons b' body' =>
      obtain rfl := head_eq_of_cons_eq same
      obtain ⟨rfl, rfl⟩ := ih (fun mem => clean (mem_cons_of_mem b mem))
        (fun mem => clean' (mem_cons_of_mem b mem)) (tail_eq_of_cons_eq same)
      exact ⟨rfl, rfl⟩

/-- A text without `'\0'` is a C string. -/
theorem cString_eq_self {bytes : List Byte} (noNul : nulByte ∉ bytes) : cString bytes = bytes :=
  takeWhile_eq_self_iff.2 fun _ mem => decide_eq_true fun nul => noNul (nul ▸ mem)

/-- There is one way to cut a text. -/
theorem CutIntoLines.unique {text last last' : List Byte} {complete complete' : List (List Byte)}
    (lines : CutIntoLines text complete last) (lines' : CutIntoLines text complete' last') :
    complete = complete' ∧ last = last' := by
  induction complete generalizing text complete' with
  | nil =>
    have whole : text = last := lines.text
    cases complete' with
    | nil => exact ⟨rfl, whole.symm.trans lines'.text⟩
    | cons body complete' =>
      refine absurd ?_ lines.last
      rw [← whole, lines'.text]
      simp
  | cons body complete ih =>
    have text_eq : text = body ++ newline :: ((complete.map (· ++ [newline])).flatten ++ last) := by
      rw [lines.text]
      simp
    cases complete' with
    | nil =>
      refine absurd ?_ lines'.last
      rw [← show text = last' from lines'.text, text_eq]
      simp
    | cons body' complete' =>
      have text_eq' : text = body' ++ newline :: ((complete'.map (· ++ [newline])).flatten ++ last') := by
        rw [lines'.text]
        simp
      have clean := (forall_mem_cons.1 lines.complete).1
      have clean' := (forall_mem_cons.1 lines'.complete).1
      obtain ⟨rfl, rest⟩ := line_inj clean clean' (text_eq.symm.trans text_eq')
      obtain ⟨rfl, rfl⟩ := ih ⟨rfl, (forall_mem_cons.1 lines.complete).2, lines.last⟩
        ⟨rest, (forall_mem_cons.1 lines'.complete).2, lines'.last⟩
      exact ⟨rfl, rfl⟩

/-- **The lines of a text** all of whose lines end in a newline. -/
theorem readfile_flatten {complete : List (List Byte)} (clean : ∀ body ∈ complete, newline ∉ body ∧ nulByte ∉ body) :
    readfile (complete.map (· ++ [newline])).flatten = complete.map (· ++ [newline]) := by
  obtain ⟨complete', last, lines, stored⟩ := readfile_eq (complete.map (· ++ [newline])).flatten
  have cut : CutIntoLines (complete.map (· ++ [newline])).flatten complete [] :=
    ⟨(append_nil _).symm, fun body mem => (clean body mem).1, not_mem_nil⟩
  obtain ⟨rfl, rfl⟩ := cut.unique lines
  rw [stored, if_pos rfl, append_nil]
  refine map_congr_left (fun line mem => ?_) |>.trans (map_id _)
  obtain ⟨body, inComplete, rfl⟩ := mem_map.1 mem
  refine cString_eq_self fun nul => ?_
  rcases mem_append.1 nul with inBody | last
  · exact (clean body inComplete).2 inBody
  · exact absurd (mem_singleton.1 last) (by decide)

/-! ### Cutting a line -/

/-- The bytes that `parse` cuts at. -/
def isBlank (b : Byte) : Bool := b = 32 || b = 9 || b = newline

/-- The state of `parse`: the bytes in front of `buf`, where blanks have been overwritten, those from `buf`
on, and the addresses that have been stored, as offsets into the line. -/
structure Cutting where
  done : List Byte
  buf : List Byte
  args : List Nat

/-- The first inner loop: blanks are overwritten. -/
def Cutting.skipBlanks (s : Cutting) : Cutting :=
  { s with
    done := s.done ++ (s.buf.takeWhile isBlank).map fun _ => nulByte
    buf := s.buf.dropWhile isBlank }

/-- The second inner loop. -/
def Cutting.skipToken (s : Cutting) : Cutting :=
  { s with
    done := s.done ++ s.buf.takeWhile fun b => !isBlank b
    buf := s.buf.dropWhile fun b => !isBlank b }

/-- `*args++ = buf`. -/
def Cutting.store (s : Cutting) : Cutting := { s with args := s.args ++ [s.done.length] }

/-- The loop of `parse`; every round passes over at least one byte. -/
def parseLoop : (fuel : Nat) → Cutting → Cutting
  | 0, s => s
  | fuel + 1, s => if s.buf = [] then s else parseLoop fuel s.skipBlanks.store.skipToken

/-- What `parse` leaves: the line, the entries of `args` that it has written, which are `NULL` or an offset
into the line, the indices of all writes to `args`, and its result. -/
structure Parsed where
  line : List Byte
  args : List (Option Nat)
  written : List Int
  counter : Int

/-- `parse`. -/
def parse (line : List Byte) : Parsed :=
  let s := parseLoop line.length ⟨[], line, []⟩
  { line := s.done ++ s.buf
    args := s.args.dropLast.map some ++ [none]
    -- The last write is `*--args = NULL`.
    written := (List.range s.args.length).map Int.ofNat ++ [(s.args.length : Int) - 1]
    counter := (s.args.length : Int) - 1 }

/-- The tokens of a line: what is between its blanks. -/
def tokens (line : List Byte) : List (List Byte) := (line.splitOnP isBlank).filter (· ≠ [])

/-- The size of the array that `loadEnvironment` hands to `parse`. -/
def maxTokens : Nat := 16

/-- **A line is tokenised**: `parse` returns the number of its tokens, the entries of `args` are their
addresses in order, and nothing is written outside the array. -/
structure Tokenised (line : List Byte) : Prop where
  counter : (parse line).counter = (tokens line).length
  args : ∀ (i : Nat) (token : List Byte), (tokens line)[i]? = some token →
    ∃ p, (parse line).args[i]? = some (some p) ∧ cString ((parse line).line.drop p) = token
  inside : ∀ i ∈ (parse line).written, 0 ≤ i ∧ i < maxTokens

/-- The line ends in a blank. -/
def EndsBlank (line : List Byte) : Prop := line.getLast?.any isBlank = true

instance (line : List Byte) : Decidable (EndsBlank line) := inferInstanceAs (Decidable (_ = true))

/-! ### The tokens that the rounds find -/

theorem tokens_cons_of_blank {b : Byte} (blank : isBlank b = true) (line : List Byte) : tokens (b :: line) = tokens line := by
  rw [tokens, splitOnP_cons_eq_if_modifyHead, if_pos blank]
  rfl

theorem tokens_blanks_append (blank : ∀ b ∈ blanks, isBlank b = true) (line : List Byte) :
    tokens (blanks ++ line) = tokens line := by
  induction blanks with
  | nil => rfl
  | cons b blanks ih =>
    rw [forall_mem_cons] at blank
    rw [cons_append, tokens_cons_of_blank blank.1, ih blank.2]

theorem tokens_token_append (some : token ≠ []) (solid : ∀ b ∈ token, isBlank b = false)
    (ends : ∀ b ∈ rest.head?, isBlank b = true) : tokens (token ++ rest) = token :: tokens rest := by
  cases rest with
  | nil =>
    rw [append_nil, tokens, splitOnP_eq_singleton solid]
    simp [some, tokens]
  | cons b rest =>
    have blank := ends b rfl
    rw [tokens_cons_of_blank blank, tokens, splitOnP_append_cons_of_forall_mem solid b blank,
      filter_cons_of_pos (by simpa using some)]
    rfl

/-- What the rounds store the addresses of: the tokens, and the end of the line if it ends in a blank. -/
def roundTokens (line : List Byte) : List (List Byte) :=
  if line = [] then [] else tokens line ++ if EndsBlank line then [[]] else []

theorem endsBlank_append (some : rest ≠ []) : EndsBlank (line ++ rest) ↔ EndsBlank rest := by
  rw [EndsBlank, EndsBlank, getLast?_append_of_ne_nil _ some]

theorem endsBlank_of_blanks (some : blanks ≠ []) (blank : ∀ b ∈ blanks, isBlank b = true) : EndsBlank blanks := by
  rw [EndsBlank, getLast?_eq_some_getLast some]
  exact blank _ (getLast_mem some)

theorem not_endsBlank_of_solid (solid : ∀ b ∈ token, isBlank b = false) : ¬ EndsBlank token := by
  intro ends
  rw [EndsBlank] at ends
  cases last : token.getLast? with
  | none =>
    rw [last] at ends
    cases ends
  | some b =>
    rw [last, Option.any_some, solid b (mem_of_getLast? last)] at ends
    cases ends

/-- **One round**: the blanks in front of a token, the token, and what follows it. -/
theorem roundTokens_round (some : blanks ++ token ++ rest ≠ []) (blank : ∀ b ∈ blanks, isBlank b = true)
    (solid : ∀ b ∈ token, isBlank b = false) (ends : ∀ b ∈ rest.head?, isBlank b = true)
    (stops : token = [] → rest = []) : roundTokens (blanks ++ token ++ rest) = token :: roundTokens rest := by
  rw [roundTokens, if_neg some, append_assoc, tokens_blanks_append blank]
  by_cases none : token = []
  · obtain rfl := none
    obtain rfl := stops rfl
    simp only [append_nil] at some ⊢
    rw [if_pos (endsBlank_of_blanks some blank)]
    rfl
  · rw [tokens_token_append none solid ends]
    by_cases last : rest = []
    · subst last
      rw [append_nil, if_neg]
      · rfl
      · rw [endsBlank_append none]
        exact not_endsBlank_of_solid solid
    · have same : EndsBlank (blanks ++ (token ++ rest)) ↔ EndsBlank rest := by
        rw [← append_assoc, endsBlank_append last]
      rw [roundTokens, if_neg last, cons_append, if_congr same rfl rfl]

/-! ### The rounds -/

/-- A token that is followed by an overwritten blank, or by the end of the line. -/
theorem cString_token {before token rest : List Byte} (noNul : nulByte ∉ token)
    (ends : ∀ b ∈ rest.head?, b = nulByte) : cString ((before ++ (token ++ rest)).drop before.length) = token := by
  have solid : ∀ b ∈ token, decide (b ≠ nulByte) = true := fun b mem =>
    decide_eq_true fun same => noNul (same ▸ mem)
  rw [drop_left, cString, takeWhile_append_of_pos solid]
  cases rest with
  | nil => simp
  | cons b rest => simp [ends b rfl]

/-- The bytes that one round passes over. -/
structure Round (buf blanks token rest : List Byte) : Prop where
  buf : buf = blanks ++ token ++ rest
  blank : ∀ b ∈ blanks, isBlank b = true
  solid : ∀ b ∈ token, isBlank b = false
  ends : ∀ b ∈ rest.head?, isBlank b = true
  stops : token = [] → rest = []

/-- A loop over bytes stops at one that fails its test. -/
theorem test_head_dropWhile {test : Byte → Bool} {bytes : List Byte} {b : Byte} (first : b ∈ (bytes.dropWhile test).head?) :
    test b = false := by
  have stopped := head?_dropWhile_not test bytes
  rw [Option.mem_def.1 first] at stopped
  exact stopped

theorem exists_round (buf : List Byte) : ∃ blanks token rest, Round buf blanks token rest ∧ ∀ done args,
      (Cutting.mk done buf args).skipBlanks.store.skipToken =
        ⟨done ++ blanks.map (fun _ => nulByte) ++ token, rest, args ++ [(done ++ blanks.map fun _ => nulByte).length]⟩ := by
  refine ⟨buf.takeWhile isBlank, (buf.dropWhile isBlank).takeWhile fun b => !isBlank b,
    (buf.dropWhile isBlank).dropWhile fun b => !isBlank b, ⟨?_, ?_, ?_, ?_, ?_⟩, fun done args => rfl⟩
  · simp only [append_assoc, takeWhile_append_dropWhile]
  · exact all_eq_true.1 all_takeWhile
  · intro b mem
    simpa using all_eq_true.1 all_takeWhile b mem
  · intro b first
    simpa using test_head_dropWhile first
  · intro none
    -- Behind the blanks there is no blank: if the token is empty, there is nothing at all.
    cases after : buf.dropWhile isBlank with
    | nil => rfl
    | cons b after' =>
      have solid : isBlank b = false := test_head_dropWhile (by rw [after]; rfl)
      rw [after, takeWhile_cons_of_pos (by rw [solid]; rfl)] at none
      cases none

/-- A round that has something to pass over does so. -/
theorem Round.rest_lt {buf : List Byte} (round : Round buf blanks token rest) (some : buf ≠ []) :
    rest.length < buf.length := by
  rw [round.buf, length_append]
  by_cases none : token = []
  · rw [round.stops none, length_nil, add_zero, length_pos_iff]
    intro nothing
    exact some (by rw [round.buf, nothing, round.stops none]; rfl)
  · have := length_pos_iff.2 none
    rw [length_append]
    omega

/-- A line that begins with a blank begins with an overwritten one after the round. -/
theorem Round.head {buf after : List Byte} (round : Round buf blanks token rest) (some : buf ≠ [])
    (first : ∀ b ∈ buf.head?, isBlank b = true) :
    ∀ b ∈ (blanks.map (fun _ => nulByte) ++ after).head?, b = nulByte := by
  obtain ⟨rfl, blank, solid, ends, stops⟩ := round
  cases blanks with
  | cons b blanks => simp
  | nil =>
    cases token with
    | nil => exact absurd (stops rfl) some
    | cons b token =>
      have blank := first b rfl
      rw [solid b mem_cons_self] at blank
      cases blank

/-- **The loop of `parse`** stores the addresses of what its rounds find.  A line that begins with a blank
begins with an overwritten one, which ends the token in front of it. -/
theorem parseLoop_eq {fuel : Nat} {done buf : List Byte} {args : List Nat} (enough : buf.length ≤ fuel)
    (noNul : nulByte ∉ buf) : ∃ left found, parseLoop fuel ⟨done, buf, args⟩ = ⟨done ++ left, [], args ++ found⟩ ∧
      ((∀ b ∈ buf.head?, isBlank b = true) → ∀ b ∈ left.head?, b = nulByte) ∧
      found.map (fun p => cString ((done ++ left).drop p)) = roundTokens buf := by
  induction fuel generalizing done buf args with
  | zero =>
    obtain rfl : buf = [] := eq_nil_of_length_eq_zero (Nat.le_zero.1 enough)
    exact ⟨[], [], by simp [parseLoop], by simp, rfl⟩
  | succ fuel ih =>
    by_cases none : buf = []
    · subst none
      exact ⟨[], [], by simp [parseLoop], by simp, rfl⟩
    · obtain ⟨blanks, token, rest, round, step⟩ := exists_round buf
      rw [parseLoop, if_neg none, step]
      obtain rfl := round.buf
      simp only [mem_append, not_or] at noNul
      have shorter : rest.length ≤ fuel := Nat.le_of_lt_succ (lt_of_lt_of_le (round.rest_lt none) enough)
      obtain ⟨left, found, loop, ended, same⟩ :=
        @ih (done ++ blanks.map (fun _ => nulByte) ++ token) rest
          (args ++ [(done ++ blanks.map fun _ => nulByte).length]) shorter noNul.2
      refine ⟨blanks.map (fun _ => nulByte) ++ (token ++ left), (done ++ blanks.map fun _ => nulByte).length :: found, ?_, ?_, ?_⟩
      · rw [loop]
        simp only [append_assoc, singleton_append]
      · exact round.head none
      · rw [roundTokens_round none round.blank round.solid round.ends round.stops, map_cons, ← append_assoc,
          cString_token noNul.1.2 (ended round.ends), ← same]
        simp only [append_assoc]

/-- **The addresses that `parse` stores** are those of the tokens and, if the line ends in a blank, of its end. -/
theorem parse_eq (noNul : nulByte ∉ line) : ∃ found : List Nat, (parse line).args = found.dropLast.map some ++ [none] ∧
      (parse line).written = (List.range found.length).map Int.ofNat ++ [(found.length : Int) - 1] ∧
      (parse line).counter = (found.length : Int) - 1 ∧
      found.map (fun p => cString ((parse line).line.drop p)) = roundTokens line := by
  obtain ⟨left, found, loop, -, same⟩ := @parseLoop_eq line.length [] line [] le_rfl noNul
  refine ⟨found, ?_, ?_, ?_, ?_⟩ <;> simp only [parse, loop, nil_append, append_nil]
  exact same

/-! ### The lines of a file -/

/-- A line that is passed on is a C string of more than one byte. -/
theorem configurationLines_spec {text : List Byte} (mem : line ∈ configurationLines text) :
    nulByte ∉ line ∧ 1 < line.length := by
  obtain ⟨stored, long⟩ := mem_filter.1 mem
  obtain ⟨complete, last, -, lines⟩ := readfile_eq text
  rw [lines] at stored
  obtain ⟨bytes, -, rfl⟩ := mem_map.1 stored
  refine ⟨fun nul => ?_, of_decide_eq_true long⟩
  have solid := all_eq_true.1 all_takeWhile nulByte nul
  exact absurd rfl (of_decide_eq_true solid)

/-- With a blank at the end the round that is taken back has found no token. -/
theorem tokenised_of_endsBlank (noNul : nulByte ∉ line) (some : line ≠ []) (blank : EndsBlank line)
    (few : (tokens line).length < maxTokens) : Tokenised line := by
  obtain ⟨found, args, written, counter, same⟩ := parse_eq noNul
  rw [roundTokens, if_neg some, if_pos blank] at same
  have count : found.length = (tokens line).length + 1 := by
    simpa using congrArg List.length same
  refine ⟨by rw [counter, count]; omega, fun i token isToken => ?_, fun i mem => ?_⟩
  · have before : i < (tokens line).length := (List.getElem?_eq_some_iff.1 isToken).1
    have stored : i < found.length := by omega
    refine ⟨found[i], ?_, ?_⟩
    · rw [args, getElem?_append_left (by simp; omega), getElem?_map, getElem?_dropLast, if_pos (by omega),
        getElem?_eq_getElem stored, Option.map_some]
    · have at_i := congrArg (·[i]?) same
      simp only [getElem?_map, getElem?_eq_getElem stored, Option.map_some, getElem?_append_left before,
        isToken] at at_i
      exact Option.some.inj at_i
  · rw [written, mem_append, mem_map, mem_singleton] at mem
    rcases mem with ⟨k, inRange, rfl⟩ | rfl
    · rw [mem_range] at inRange
      exact ⟨Int.natCast_nonneg k, by rw [Int.ofNat_eq_natCast]; omega⟩
    · omega

/-- **Tokenising a line.**  For every configuration file and every line of it that is passed on: the line is
cut into all its tokens, within the array of the caller, exactly if it ends in a blank and has less than
sixteen tokens. -/
theorem tokenised_iff (text line : List Byte) (mem : line ∈ configurationLines text) :
    Tokenised line ↔ EndsBlank line ∧ (tokens line).length < maxTokens := by
  obtain ⟨noNul, long⟩ := configurationLines_spec mem
  have some : line ≠ [] := by
    rintro rfl
    simp at long
  refine ⟨fun tokenised => ?_, fun ⟨blank, few⟩ => tokenised_of_endsBlank noNul some blank few⟩
  obtain ⟨found, -, written, counter, same⟩ := parse_eq noNul
  have length := congrArg List.length same
  rw [length_map, roundTokens, if_neg some, length_append] at length
  have blank : EndsBlank line := by
    by_contra notBlank
    rw [if_neg notBlank, length_nil, Nat.add_zero] at length
    have := counter.symm.trans tokenised.counter
    omega
  refine ⟨blank, ?_⟩
  rw [if_pos blank, length_singleton] at length
  have last := tokenised.inside ((found.length : Int) - 1) (by
    rw [written]
    exact mem_append_right _ (mem_singleton_self _))
  omega

/-- The line `a = b`, with its newline. -/
theorem tokenised_iff_newline :
    Tokenised [97, 32, 61, 32, 98, 10] ↔ EndsBlank [97, 32, 61, 32, 98, 10] ∧
      (tokens [97, 32, 61, 32, 98, 10]).length < maxTokens :=
  tokenised_iff [97, 32, 61, 32, 98, 10] _ (by decide)

/-- A line of sixteen words. -/
def sixteenWords : List Byte := (List.replicate 15 [97, 32]).flatten ++ [97, newline]

/-- Without its newline the line `a = b` loses its last token, and with sixteen words the array is too small. -/
theorem not_tokenised_last_line :
    ([97, 32, 61, 32, 98] ∈ configurationLines [97, 32, 61, 32, 98] ∧
      tokens [97, 32, 61, 32, 98] = [[97], [61], [98]] ∧ (parse [97, 32, 61, 32, 98]).counter = 2 ∧
      ¬ Tokenised [97, 32, 61, 32, 98]) ∧
    sixteenWords ∈ configurationLines sixteenWords ∧ (tokens sixteenWords).length = 16 ∧
      16 ∈ (parse sixteenWords).written ∧ ¬ Tokenised sixteenWords := by
  refine ⟨⟨by decide, by decide, by decide, fun tokenised => ?_⟩, by decide, by decide, by decide, fun tokenised => ?_⟩
  · have counter : (parse [97, 32, 61, 32, 98]).counter = 3 := tokenised.counter
    revert counter
    decide
  · have inside := tokenised.inside 16 (by decide)
    revert inside
    decide

end PostgresRaw
