import PostgresRaw.Reader.EolReread

/-!
# The lines of a file

What the lines of a file are, said without the reader: a file is cut at the line ends that are not inside
quotes, all of one style, and may have a last line without one (`IsLines`).  `walk` follows the quotes of
a text character by character and says where it stops at such a line end.

The reader delivers the lines in order, and each once (`IsLines.firstPass`); but a last line without a
line end is in `line_buf` when the call reports the end of the data, and is lost
(`deliversLines_iff`).
-/

namespace PostgresRaw

open List

/-! ### Lines -/

/-- A byte that ends a line, unless it is inside quotes. -/
def isBreak (c : Byte) : Bool := c = carriageReturn || c = newline

/-- Follow the quotes of a text: the bytes that the last character still lacks, and the quotes at its
end; `none` if there is a line end outside of quotes. -/
def walk (enc : Encoding) : (skip : Nat) → QuoteState → List Byte → Option (Nat × QuoteState)
  | skip, q, [] => some (skip, q)
  | skip + 1, q, _ :: rest => walk enc skip q rest
  | 0, q, c :: rest =>
    if isBreak c ∧ (q.next c).inQuote = false then none
    else walk enc (enc.charLength c - 1) { q.next c with firstCharInLine := false } rest

/-- A line without its terminator: there is no line end in it, and quotes are closed at its end. -/
def IsLine (enc : Encoding) (bytes : List Byte) : Prop :=
  ∃ q, walk enc 0 .start bytes = some (0, q) ∧ q.inQuote = false

/-- **The lines of a file**: those with a line end, the style of their line ends, and the last line, which
has none. -/
structure IsLines (enc : Encoding) (file : List Byte) (lines : List (List Byte)) (eol : EolType)
    (last : List Byte) : Prop where
  file_eq : file = (lines.map (· ++ eol.terminator)).flatten ++ last
  isLine : ∀ line ∈ lines, IsLine enc line
  known : lines ≠ [] → eol ≠ .unknown
  last : (walk enc 0 .start last).isSome = true

/-- The end-of-copy marker. -/
def endOfCopyMarker : List Byte := [backslash, 46]

/-- A line of the file is the end-of-copy marker. -/
def HasMarker (enc : Encoding) (file : List Byte) : Prop :=
  ∃ lines eol b rest, (∀ line ∈ lines, IsLine enc line) ∧ (lines ≠ [] → eol ≠ EolType.unknown) ∧ isBreak b = true ∧
    file = (lines.map (· ++ eol.terminator)).flatten ++ endOfCopyMarker ++ b :: rest

/-! ### Following quotes -/

section

variable {enc : Encoding} {eol : EolType} {skip : Nat} {q q' : QuoteState} {c : Byte} {bytes rest : List Byte}

variable {left fuel : Nat} {e : EolType}

theorem skip_le_of_walk (walked : walk enc skip q bytes = some (left, q')) : skip ≤ bytes.length + left := by
  induction bytes generalizing skip q with
  | nil =>
    cases walked
    omega
  | cons c rest ih =>
    cases skip with
    | zero => exact Nat.zero_le _
    | succ skip =>
      have := @ih skip q walked
      rw [length_cons]
      omega

theorem walk_cons (walked : walk enc 0 q (c :: rest) = some (left, q')) :
    ¬ (isBreak c = true ∧ (q.next c).inQuote = false) ∧
      walk enc (enc.charLength c - 1) { q.next c with firstCharInLine := false } rest = some (left, q') := by
  rw [walk] at walked
  split at walked
  · cases walked
  · next goesOn => exact ⟨goesOn, walked⟩

theorem isBreak_iff : isBreak c = true ↔ c = carriageReturn ∨ c = newline := by
  simp [isBreak]

theorem charLength_backslash (enc : Encoding) : enc.charLength backslash = 1 :=
  if_neg fun both => absurd both.2 (by decide)

/-- A text that starts with a backslash and a dot goes on outside of quotes. -/
theorem walk_marker (walked : walk enc 0 q (backslash :: 46 :: c :: rest) = some (left, q'))
    (outside : q.inQuote = false) : isBreak c = false := by
  obtain ⟨-, walked⟩ := walk_cons walked
  rw [charLength_backslash] at walked
  obtain ⟨-, walked⟩ := walk_cons walked
  rw [show enc.charLength 46 = 1 from if_neg fun both => absurd both.2 (by decide)] at walked
  obtain ⟨goesOn, -⟩ := walk_cons walked
  by_contra isBreak
  rw [Bool.not_eq_false] at isBreak
  refine goesOn ⟨isBreak, ?_⟩
  rw [QuoteState.next_inQuote _ (by rcases isBreak_iff.1 isBreak with rfl | rfl <;> decide)]
  rw [QuoteState.next_inQuote _ (by decide), QuoteState.next_inQuote _ (by decide)]
  exact outside

/-! ### One iteration of the reader -/

theorem multibyteStep_eq (enc : Encoding) (c : Byte) (rest : List Byte) :
    multibyteStep enc c rest true = .advance (enc.charLength c) ∧ enc.charLength c ≤ rest.length + 1 ∨
      multibyteStep enc c rest true = .endOfFile (1 + rest.length) ∧ rest.length + 1 ≤ enc.charLength c := by
  have positive := enc.mblen_pos c
  unfold multibyteStep Encoding.charLength
  split
  · split
    · refine .inr ⟨?_, by omega⟩
      rw [if_pos rfl]
      split
      · rw [show rest.length = 0 by omega]
      · rfl
    · exact .inl ⟨rfl, by omega⟩
  · exact .inl ⟨rfl, by omega⟩

/-- The bytes are no end-of-copy marker with a line end. -/
def Unmarked (bytes : List Byte) : Prop := ∀ b rest, bytes = backslash :: 46 :: b :: rest → isBreak b = false

/-- A backslash at the start of a line, with another byte behind it. -/
theorem backslashStep_text {otherwise : ReadStep} (next : rest ≠ []) (unmarked : Unmarked (backslash :: rest)) :
    backslashStep eol rest true otherwise = otherwise := by
  obtain ⟨c₂, rest, rfl⟩ := exists_cons_of_ne_nil next
  rw [backslashStep]
  split
  · next dot =>
    subst dot
    have noBreak : peek rest ≠ carriageReturn ∧ peek rest ≠ newline := by
      cases rest with
      | nil => decide
      | cons b rest =>
        rw [← not_or]
        change ¬ (b = carriageReturn ∨ b = newline)
        rw [← isBreak_iff, unmarked b rest rfl]
        decide
    split
    · rw [if_neg (by simp), if_pos noBreak.1]
    · rw [markerEnd, if_neg (by simp)]
      exact if_pos noBreak
  · rfl

/-- **An iteration on a byte that does not end the line** takes the character. -/
theorem readStep_text (goesOn : ¬ (isBreak c = true ∧ (q.next c).inQuote = false))
    (next : c = backslash → q.firstCharInLine = true → rest ≠ [] ∧ Unmarked (backslash :: rest)) :
    readStep enc eol q c rest true = multibyteStep enc c rest true := by
  rw [isBreak_iff] at goesOn
  unfold readStep decideStep
  rw [if_neg (by simp), if_neg fun both => goesOn ⟨.inl both.1, both.2⟩, if_neg fun both => goesOn ⟨.inr both.1, both.2⟩]
  split
  · next both =>
    obtain ⟨rfl, first⟩ := both
    obtain ⟨more, unmarked⟩ := next rfl first
    exact backslashStep_text more unmarked
  · rfl

/-! ### Reading what is in lines -/

/-- **The reader goes through a text** that something follows. -/
theorem scanLine_text {text tail : List Byte} (walked : walk enc skip q text = some (0, q')) (more : tail ≠ [])
    (unmarked : q.firstCharInLine = true → skip = 0 ∧ Unmarked (text ++ tail)) :
    scanLine enc eol skip q (text ++ tail) =
      { scanLine enc eol 0 q' tail with line := text ++ (scanLine enc eol 0 q' tail).line } := by
  induction text generalizing skip q with
  | nil =>
    cases walked
    rfl
  | cons c text ih =>
    cases skip with
    | succ skip =>
      have inside : q.firstCharInLine = true → skip = 0 ∧ Unmarked (text ++ tail) := fun first =>
        absurd (unmarked first).1 (Nat.succ_ne_zero skip)
      rw [cons_append, scanLine, ih walked inside]
      rfl
    | zero =>
      obtain ⟨goesOn, walked⟩ := walk_cons walked
      have step := @readStep_text enc eol q c (text ++ tail) goesOn (by
        rintro rfl first
        exact ⟨append_ne_nil_of_right_ne_nil _ more, (unmarked first).2⟩)
      have fits := skip_le_of_walk walked
      have room : 0 < tail.length := length_pos_of_ne_nil more
      rcases multibyteStep_eq enc c (text ++ tail) with ⟨advance, -⟩ | ⟨-, short⟩
      · rw [advance] at step
        simp only [cons_append, scanLine, step]
        rw [ih walked fun first => absurd first Bool.false_ne_true]
        rfl
      · rw [length_append] at short
        omega

/-- **The reader takes a last text whole**, and reports the end of the data. -/
theorem scanLine_last (walked : (walk enc skip q bytes).isSome = true)
    (outside : q.firstCharInLine = true → skip = 0 ∧ q.inQuote = false) :
    scanLine enc eol skip q bytes = ⟨.done, bytes, [], eol⟩ := by
  induction bytes generalizing skip q with
  | nil => cases skip <;> rfl
  | cons c rest ih =>
    cases skip with
    | succ skip =>
      have inside : q.firstCharInLine = true → skip = 0 ∧ q.inQuote = false := fun first =>
        absurd (outside first).1 (Nat.succ_ne_zero skip)
      rw [scanLine, ih walked inside]
      rfl
    | zero =>
      obtain ⟨⟨left, q'⟩, walked⟩ := Option.isSome_iff_exists.1 walked
      have whole := walked
      obtain ⟨goesOn, walked⟩ := walk_cons walked
      by_cases alone : c = backslash ∧ q.firstCharInLine = true ∧ rest = []
      · -- A backslash alone is taken when the byte behind it is looked for.
        obtain ⟨rfl, first, rfl⟩ := alone
        have step : readStep enc eol q backslash [] true = .endOfFile 1 := by
          unfold readStep decideStep
          rw [if_neg (by simp), if_neg fun both => absurd both.1 (by decide),
            if_neg fun both => absurd both.1 (by decide), if_pos ⟨rfl, first⟩]
          rfl
        simp only [scanLine, step]
        rfl
      · have step := @readStep_text enc eol q c rest goesOn (by
          rintro rfl first
          refine ⟨fun none => alone ⟨rfl, first, none⟩, ?_⟩
          rintro b tail marker
          obtain rfl := (List.cons.inj marker).2
          exact walk_marker whole (outside first).2)
        rcases multibyteStep_eq enc c rest with ⟨advance, -⟩ | ⟨ends, -⟩
        · rw [advance] at step
          simp only [scanLine, step]
          rw [ih (by rw [walked]; rfl) (fun first => by cases first)]
          rfl
        · rw [ends] at step
          simp only [scanLine, step]
          rw [take_of_length_le (by simp [add_comm]), drop_of_length_le (by simp [add_comm])]

/-- **The reader ends a line at its terminator.** -/
theorem scanLine_terminator (known : eol ≠ .unknown) (style : e = .unknown ∨ e = eol) (outside : q.inQuote = false)
    (single : eol = .cr → peek rest ≠ newline) :
    scanLine enc e 0 q (eol.terminator ++ rest) = ⟨.line, eol.terminator, rest, eol⟩ := by
  have closed : (q.next carriageReturn).inQuote = false := by
    rw [QuoteState.next_inQuote _ (by decide)]
    exact outside
  have closed' : (q.next newline).inQuote = false := by
    rw [QuoteState.next_inQuote _ (by decide)]
    exact outside
  cases eol with
  | unknown => exact absurd rfl known
  | nl =>
    have step : readStep enc e q newline rest true = .endOfLine 1 .nl := by
      unfold readStep decideStep
      rw [if_neg (by simp), if_neg (by rintro ⟨other, -⟩; exact absurd other (by decide)), if_pos ⟨rfl, closed'⟩]
      rcases style with rfl | rfl <;> rfl
    simp only [EolType.terminator, singleton_append, scanLine, step]
    rfl
  | cr =>
    have step : readStep enc e q carriageReturn rest true = .endOfLine 1 .cr := by
      unfold readStep decideStep
      rw [if_neg (by simp), if_pos ⟨rfl, closed⟩]
      rcases style with rfl | rfl
      · exact if_neg (single rfl)
      · rfl
    simp only [EolType.terminator, singleton_append, scanLine, step]
    rfl
  | crnl =>
    have step : readStep enc e q carriageReturn (newline :: rest) true = .endOfLine 2 .crnl := by
      unfold readStep decideStep
      rw [if_neg (by simp), if_pos ⟨rfl, closed⟩]
      rcases style with rfl | rfl <;> rfl
    simp only [EolType.terminator, cons_append, nil_append, scanLine, step]
    rfl

/-! ### Reading the lines of a file -/

variable {file last : List Byte} {line : List Byte} {lines : List (List Byte)}

theorem isBreak_of_terminator {b : Byte} (starts : eol.terminator ++ bytes = b :: rest) (known : eol ≠ .unknown) :
    isBreak b = true := by
  cases eol with
  | unknown => exact absurd rfl known
  | nl => rw [← (List.cons.inj starts).1]; rfl
  | cr => rw [← (List.cons.inj starts).1]; rfl
  | crnl => rw [← (List.cons.inj starts).1]; rfl

/-- A line that is not the marker does not look like one to the reader. -/
theorem IsLine.unmarked (isLine : IsLine enc line) (known : eol ≠ .unknown) (other : line ≠ endOfCopyMarker) :
    Unmarked (line ++ (eol.terminator ++ rest)) := by
  intro b tail same
  have ends : ∀ {c bytes}, eol.terminator ++ rest = c :: bytes → c = backslash ∨ c = 46 → False := by
    rintro c bytes starts (rfl | rfl)
    · exact absurd (isBreak_of_terminator starts known) (by decide)
    · exact absurd (isBreak_of_terminator starts known) (by decide)
  obtain ⟨q, walked, -⟩ := isLine
  rcases line with _ | ⟨c, _ | ⟨d, _ | ⟨x, more⟩⟩⟩
  · exact (ends same (.inl rfl)).elim
  · exact (ends (List.cons.inj same).2 (.inr rfl)).elim
  · simp only [cons_append, List.cons.injEq] at same
    rw [same.1, same.2.1] at other
    exact absurd rfl other
  · simp only [cons_append, List.cons.injEq] at same
    rw [same.1, same.2.1, same.2.2.1] at walked
    exact walk_marker walked rfl

/-- Neither a line nor what may be the last one starts with a line feed. -/
theorem peek_ne_newline (walked : (walk enc 0 .start bytes).isSome = true) : peek bytes ≠ newline := by
  cases bytes with
  | nil => decide
  | cons c rest =>
    rintro rfl
    exact absurd walked (by simp [walk, isBreak, QuoteState.next, QuoteState.start, defaultQuote, newline])

/-- **A call delivers the next line.** -/
theorem IsLine.scanLine (isLine : IsLine enc line) (known : eol ≠ .unknown) (style : e = .unknown ∨ e = eol)
    (other : line ≠ endOfCopyMarker) (single : eol = .cr → peek rest ≠ newline) :
    PostgresRaw.scanLine enc e 0 .start (line ++ (eol.terminator ++ rest)) =
      ⟨.line, line ++ eol.terminator, rest, eol⟩ := by
  obtain ⟨q, walked, closed⟩ := isLine
  have more : eol.terminator ++ rest ≠ [] := append_ne_nil_of_left_ne_nil (terminator_ne_nil known) _
  rw [scanLine_text walked more fun _ => ⟨rfl, IsLine.unmarked ⟨q, walked, closed⟩ known other⟩,
    scanLine_terminator known style closed single]

/-- **The reader finds the lines of the file.** -/
theorem IsLines.fileLinesFrom_eq (split : IsLines enc file lines eol last) (unmarked : endOfCopyMarker ∉ lines)
    (style : e = .unknown ∨ e = eol) (enough : lines.length < fuel) :
    fileLinesFrom enc fuel e file = some ⟨lines, if lines = [] then e else eol, last⟩ := by
  induction lines generalizing file e fuel with
  | nil =>
    obtain ⟨fuel, rfl⟩ : ∃ k, fuel = k + 1 := ⟨fuel - 1, by rw [length_nil] at enough; omega⟩
    have whole : file = last := split.file_eq
    rw [whole, fileLinesFrom, scanLine_last split.last fun _ => ⟨rfl, rfl⟩]
    rfl
  | cons line lines ih =>
    obtain ⟨fuel, rfl⟩ : ∃ k, fuel = k + 1 := ⟨fuel - 1, by rw [length_cons] at enough; omega⟩
    have known := split.known (cons_ne_nil _ _)
    rw [mem_cons, not_or] at unmarked
    obtain ⟨other, unmarked⟩ := unmarked
    have later : IsLines enc ((lines.map (· ++ eol.terminator)).flatten ++ last) lines eol last :=
      ⟨rfl, fun line mem => split.isLine line (mem_cons_of_mem _ mem), fun _ => known, split.last⟩
    have single : eol = .cr → peek ((lines.map (· ++ eol.terminator)).flatten ++ last) ≠ newline := by
      rintro rfl
      cases lines with
      | nil => exact peek_ne_newline split.last
      | cons next lines =>
        obtain ⟨q, walked, -⟩ := split.isLine next (mem_cons_of_mem _ mem_cons_self)
        cases next with
        | nil => exact show carriageReturn ≠ newline by decide
        | cons c next => exact @peek_ne_newline enc (c :: next) (by rw [walked]; rfl)
    have scan := (split.isLine line mem_cons_self).scanLine known style (Ne.symm other) single
    have whole : file = line ++ (eol.terminator ++ ((lines.map (· ++ eol.terminator)).flatten ++ last)) := by
      rw [split.file_eq, map_cons, flatten_cons, append_assoc, append_assoc]
    rw [whole, fileLinesFrom, scan]
    simp only
    rw [ih later unmarked (.inr rfl) (by rw [length_cons] at enough; omega), Option.map_some]
    simp [LineScan.content]

/-! ### What the reader finds is lines -/

theorem readStep_break (ends : isBreak c = true ∧ (q.next c).inQuote = false) :
    (∃ n e, readStep enc eol q c rest true = .endOfLine n e) ∨ ∃ e, readStep enc eol q c rest true = .error e := by
  obtain ⟨isBreak, outside⟩ := ends
  unfold readStep decideStep
  rw [if_neg (by simp)]
  rcases isBreak_iff.1 isBreak with rfl | rfl
  · rw [if_pos ⟨rfl, outside⟩]
    cases eol with
    | unknown => exact .inl (by simp only; split <;> exact ⟨_, _, rfl⟩)
    | nl => exact .inr ⟨_, rfl⟩
    | cr => exact .inl ⟨_, _, rfl⟩
    | crnl =>
      simp only
      split
      · exact .inl ⟨_, _, rfl⟩
      · exact .inr ⟨_, rfl⟩
  · rw [if_neg fun both => absurd both.1 (by decide), if_pos ⟨rfl, outside⟩]
    cases eol with
    | unknown => exact .inl ⟨_, _, rfl⟩
    | nl => exact .inl ⟨_, _, rfl⟩
    | cr => exact .inr ⟨_, rfl⟩
    | crnl => exact .inr ⟨_, rfl⟩

theorem markerEnd_cases (eol : EolType) (consumed : Nat) (rest : List Byte) (otherwise : ReadStep) :
    markerEnd eol consumed rest true otherwise = otherwise ∨ (∃ e, markerEnd eol consumed rest true otherwise = .error e) ∨
      ∃ n, markerEnd eol consumed rest true otherwise = .endOfCopy n := by
  unfold markerEnd
  rw [if_neg (by simp)]
  simp only
  split
  · exact .inl rfl
  · split
    · exact .inr (.inl ⟨_, rfl⟩)
    · exact .inr (.inr ⟨_, rfl⟩)

/-- **What an iteration can do on a byte that does not end the line.** -/
theorem readStep_cases (goesOn : ¬ (isBreak c = true ∧ (q.next c).inQuote = false)) :
    readStep enc eol q c rest true = multibyteStep enc c rest true ∨
      (rest = [] ∧ readStep enc eol q c rest true = .endOfFile 1) ∨ (∃ e, readStep enc eol q c rest true = .error e) ∨
      (q.firstCharInLine = true ∧ ¬ Unmarked (c :: rest) ∧ ∃ n, readStep enc eol q c rest true = .endOfCopy n) := by
  by_cases starts : c = backslash ∧ q.firstCharInLine = true
  · obtain ⟨rfl, first⟩ := starts
    by_cases unmarked : rest ≠ [] ∧ Unmarked (backslash :: rest)
    · exact .inl (readStep_text goesOn fun _ _ => unmarked)
    · have step : readStep enc eol q backslash rest true =
          backslashStep eol rest true (multibyteStep enc backslash rest true) := by
        unfold readStep decideStep
        rw [if_neg (by simp), if_neg fun both => absurd both.1 (by decide), if_neg fun both => absurd both.1 (by decide),
          if_pos ⟨rfl, first⟩]
      rw [step]
      cases rest with
      | nil => exact .inr (.inl ⟨rfl, rfl⟩)
      | cons c₂ rest =>
        have marked : ¬ Unmarked (backslash :: c₂ :: rest) := fun none => unmarked ⟨cons_ne_nil _ _, none⟩
        rw [backslashStep]
        split
        · split
          · rw [if_neg (by simp)]
            split
            · exact .inl rfl
            · rcases markerEnd_cases eol 3 rest.tail (multibyteStep enc backslash (c₂ :: rest) true) with
                same | failed | copied
              · exact .inl same
              · exact .inr (.inr (.inl failed))
              · exact .inr (.inr (.inr ⟨first, marked, copied⟩))
          · rcases markerEnd_cases eol 2 rest (multibyteStep enc backslash (c₂ :: rest) true) with
              same | failed | copied
            · exact .inl same
            · exact .inr (.inr (.inl failed))
            · exact .inr (.inr (.inr ⟨first, marked, copied⟩))
        · exact .inl rfl
  · exact .inl (readStep_text goesOn fun back first => absurd ⟨back, first⟩ starts)

theorem walk_of_goesOn (goesOn : ¬ (isBreak c = true ∧ (q.next c).inQuote = false)) (rest : List Byte) :
    walk enc 0 q (c :: rest) = walk enc (enc.charLength c - 1) { q.next c with firstCharInLine := false } rest := by
  rw [walk]
  exact if_neg goesOn

/-- **A line that the reader delivers is one.** -/
theorem walk_of_line (delivered : (scanLine enc eol skip q bytes).result = .line) :
    ∃ text q', (scanLine enc eol skip q bytes).line = text ++ (scanLine enc eol skip q bytes).eolType.terminator ∧
      walk enc skip q text = some (0, q') ∧ q'.inQuote = false := by
  induction bytes generalizing skip q with
  | nil => cases skip <;> simp [scanLine] at delivered
  | cons c rest ih =>
    cases skip with
    | succ skip =>
      obtain ⟨text, q', line, walked, closed⟩ := @ih skip q delivered
      exact ⟨c :: text, q', by simp [scanLine, LineScan.cons, line], walked, closed⟩
    | zero =>
      by_cases ends : isBreak c = true ∧ (q.next c).inQuote = false
      · rcases @readStep_break enc eol q c rest ends with ⟨n, e, step⟩ | ⟨e, step⟩
        · have ok := @readStep_ok enc eol q c rest true
          rw [step] at ok
          refine ⟨[], q, ?_, rfl, ?_⟩
          · simp only [scanLine, step]
            exact ok.1
          · rw [← QuoteState.next_inQuote q (c := c)]
            · exact ends.2
            · rcases isBreak_iff.1 ends.1 with rfl | rfl <;> decide
        · simp [scanLine, step] at delivered
      · rcases @readStep_cases enc eol q c rest ends with
          step | ⟨-, step⟩ | ⟨e, step⟩ | ⟨-, -, n, step⟩
        · rcases multibyteStep_eq enc c rest with ⟨advance, -⟩ | ⟨atEnd, -⟩
          · rw [advance] at step
            simp only [scanLine, step] at delivered ⊢
            obtain ⟨text, q', line, walked, closed⟩ := ih delivered
            refine ⟨c :: text, q', by simp [LineScan.cons, line], ?_, closed⟩
            rw [walk_of_goesOn ends]
            exact walked
          · rw [atEnd] at step
            simp [scanLine, step] at delivered
        · simp [scanLine, step] at delivered
        · simp [scanLine, step] at delivered
        · simp [scanLine, step] at delivered

theorem isSome_walk_of_le (short : bytes.length ≤ skip) : (walk enc skip q bytes).isSome = true := by
  induction bytes generalizing skip with
  | nil => cases skip <;> rfl
  | cons c rest ih =>
    obtain ⟨skip, rfl⟩ : ∃ k, skip = k + 1 := ⟨skip - 1, by rw [length_cons] at short; omega⟩
    exact ih (by rw [length_cons] at short; omega)

/-- **Without a marker the data ends with a text**, which is left in `line_buf`. -/
theorem walk_of_done (done : (scanLine enc eol skip q bytes).result = .done)
    (start : q.firstCharInLine = true → skip = 0) :
    ((scanLine enc eol skip q bytes).line = bytes ∧ (walk enc skip q bytes).isSome = true) ∨
      (q.firstCharInLine = true ∧ ¬ Unmarked bytes) := by
  induction bytes generalizing skip q with
  | nil => cases skip <;> exact .inl ⟨rfl, rfl⟩
  | cons c rest ih =>
    cases skip with
    | succ skip =>
      have inside : ¬ q.firstCharInLine = true := fun first => absurd (start first) (Nat.succ_ne_zero skip)
      rcases @ih skip q done fun first => absurd first inside with ⟨line, walked⟩ | ⟨first, -⟩
      · exact .inl ⟨by simp [scanLine, LineScan.cons, line], walked⟩
      · exact absurd first inside
    | zero =>
      by_cases ends : isBreak c = true ∧ (q.next c).inQuote = false
      · rcases @readStep_break enc eol q c rest ends with ⟨n, e, step⟩ | ⟨e, step⟩
        · simp [scanLine, step] at done
        · simp [scanLine, step] at done
      · rcases @readStep_cases enc eol q c rest ends with
          step | ⟨rfl, step⟩ | ⟨e, step⟩ | ⟨first, marked, -⟩
        · rcases multibyteStep_eq enc c rest with ⟨advance, -⟩ | ⟨atEnd, short⟩
          · rw [advance] at step
            simp only [scanLine, step] at done ⊢
            rcases ih done (fun first => by cases first) with ⟨line, walked⟩ | ⟨first, -⟩
            · refine .inl ⟨by simp [LineScan.cons, line], ?_⟩
              rw [walk_of_goesOn ends]
              exact walked
            · cases first
          · rw [atEnd] at step
            simp only [scanLine, step]
            refine .inl ⟨take_of_length_le (by simp [add_comm]), ?_⟩
            rw [walk_of_goesOn ends]
            exact isSome_walk_of_le (by omega)
        · simp only [scanLine, step]
          refine .inl ⟨rfl, ?_⟩
          rw [walk_of_goesOn ends]
          exact isSome_walk_of_le (Nat.zero_le _)
        · simp [scanLine, step] at done
        · exact .inr ⟨first, marked⟩

/-- **What the reader finds are the lines of the file**, unless it meets a marker behind them. -/
theorem isLines_of_fileLinesFrom {fl : FileLines} (found : fileLinesFrom enc fuel eol bytes = some fl) :
    (∀ line ∈ fl.contents, IsLine enc line) ∧
      ((bytes = fl.raws.flatten ++ fl.leftover ∧ (walk enc 0 .start fl.leftover).isSome = true) ∨
        ∃ b rest, isBreak b = true ∧ bytes = fl.raws.flatten ++ endOfCopyMarker ++ b :: rest) := by
  induction fuel generalizing eol bytes fl with
  | zero => cases found
  | succ fuel ih =>
    obtain ⟨l, scan, ⟨result, rfl⟩ | ⟨result, rest, inner, rfl⟩⟩ := fileLinesFrom_cases found
    · refine ⟨fun _ mem => absurd mem not_mem_nil, ?_⟩
      rcases walk_of_done (scan ▸ result) (fun _ => rfl) with ⟨line, walked⟩ | ⟨-, marked⟩
      · rw [scan] at line
        rw [← line] at walked
        exact .inl ⟨line.symm, walked⟩
      · simp only [Unmarked, not_forall] at marked
        obtain ⟨b, rest, same, isBreak⟩ := marked
        exact .inr ⟨b, rest, by simpa using isBreak, same⟩
    · obtain ⟨line, split, known⟩ := content_append_terminator scan result
      have style := fileLinesFrom_eolType known inner
      obtain ⟨text, q', line', walked, closed⟩ := walk_of_line (scan ▸ result)
      rw [scan, line] at line'
      obtain rfl := append_cancel_right line'
      obtain ⟨isLine, ends⟩ := ih inner
      have whole : ∀ tail, l.rest = rest.raws.flatten ++ tail →
          bytes = (FileLines.raws { rest with contents := l.content :: rest.contents }).flatten ++ tail := by
        intro tail same
        simp only [split, same, line, FileLines.raws, map_cons, flatten_cons, style, append_assoc]
      refine ⟨forall_mem_cons.2 ⟨⟨q', walked, closed⟩, isLine⟩, ends.imp ?_ ?_⟩
      · rintro ⟨same, last⟩
        exact ⟨whole _ same, last⟩
      · rintro ⟨b, tail, isBreak, same⟩
        rw [append_assoc] at same
        refine ⟨b, tail, isBreak, ?_⟩
        rw [append_assoc]
        exact whole _ same

/-- A pass without an error finds the lines. -/
theorem exists_fileLinesFrom {src : Source} {i : Nat} {s : RawInput} {p : Pass} (passed : s.HeaderPassed src)
    (runs : pass (noDBGetNextTupleFromFile src) fuel i s = some p) :
    ∃ fl, fileLinesFrom src.encoding fuel s.eolType (s.unread src) = some fl := by
  induction fuel generalizing i s p with
  | zero => cases runs
  | succ fuel ih =>
    generalize scan : scanLine src.encoding s.eolType 0 .start (s.unread src) = l
    cases result : l.result with
    | error e =>
      have reads := reads_next passed scan
      have failed : (noDBGetNextTupleFromFile src i s).1 = .error e := by
        unfold noDBGetNextTupleFromFile
        have same := reads.result
        rw [result] at same
        split
        · next line =>
          rw [line] at same
          cases same
        · next other =>
          rw [other] at same
          exact same
      rw [pass] at runs
      generalize noDBGetNextTupleFromFile src i s = call at failed runs
      obtain ⟨_, s'⟩ := call
      subst failed
      cases runs
    | done =>
      refine ⟨⟨[], l.eolType, l.line⟩, ?_⟩
      simp only [fileLinesFrom, scan, result]
    | line =>
      obtain ⟨s', call, delivers⟩ := noDBGetNextTupleFromFile_line passed scan i result
      rw [pass, call] at runs
      obtain ⟨later, runs, -⟩ := Option.map_eq_some_iff.1 runs
      obtain ⟨fl, found⟩ := ih (by rw [RawInput.HeaderPassed, delivers.readHeader]; exact passed) runs
      rw [delivers.eolType, delivers.unread] at found
      refine ⟨{ fl with contents := l.content :: fl.contents }, ?_⟩
      simp only [fileLinesFrom, scan, result, found, Option.map_some]

/-! ### All lines -/

theorem isLines_of_unmarked {fl : FileLines} (unmarked : ¬ HasMarker enc file)
    (found : fileLinesFrom enc fuel eol file = some fl) : IsLines enc file fl.contents fl.eolType fl.leftover := by
  obtain ⟨isLine, ⟨whole, walked⟩ | ⟨b, rest, isBreak, marked⟩⟩ := isLines_of_fileLinesFrom found
  · exact ⟨whole, isLine, fileLinesFrom_known found, walked⟩
  · exact absurd ⟨fl.contents, fl.eolType, b, rest, isLine, fileLinesFrom_known found, isBreak, marked⟩ unmarked

theorem IsLines.marker_not_mem (split : IsLines enc file lines eol last) (unmarked : ¬ HasMarker enc file) :
    endOfCopyMarker ∉ lines := by
  intro mem
  obtain ⟨before, after, rfl⟩ := append_of_mem mem
  have known := split.known (append_ne_nil_of_right_ne_nil _ (cons_ne_nil _ _))
  obtain ⟨b, rest, starts⟩ := exists_cons_of_ne_nil
    (append_ne_nil_of_left_ne_nil (terminator_ne_nil known) ((after.map (· ++ eol.terminator)).flatten ++ last))
  refine unmarked ⟨before, eol, b, rest, fun line mem => split.isLine line (mem_append_left _ mem), fun _ => known,
    isBreak_of_terminator starts known, ?_⟩
  rw [split.file_eq, ← starts]
  simp only [map_append, map_cons, flatten_append, flatten_cons, append_assoc]

theorem IsLines.length_le (split : IsLines enc file lines eol last) : lines.length ≤ file.length := by
  have count : lines.length ≤ (lines.map (· ++ eol.terminator)).flatten.length := by
    by_cases none : lines = []
    · rw [none]
      exact Nat.zero_le _
    · have positive := length_pos_of_ne_nil (terminator_ne_nil (split.known none))
      rw [length_flatten, map_map]
      have each := length_le_sum_of_one_le (lines.map (List.length ∘ (· ++ eol.terminator))) (by
        intro n mem
        obtain ⟨line, -, rfl⟩ := mem_map.1 mem
        rw [Function.comp_apply, length_append]
        omega)
      rwa [length_map] at each
  rw [split.file_eq, length_append]
  omega

/-- The calls up to the one that reports the end of the data deliver these lines, in the encoding of the
server. -/
def DeliversLines (src : Source) (lines : List (List Byte)) : Prop :=
  ∃ p, firstPass src = some p ∧ p.delivered = lines.map src.convert

/-- All lines of a file. -/
def allLines (lines : List (List Byte)) (last : List Byte) : List (List Byte) :=
  lines ++ if last = [] then [] else [last]

/-- The lines of a file are delivered, and the last one is left in `line_buf`. -/
theorem IsLines.firstPass {src : Source} (split : IsLines src.encoding src.file lines eol last)
    (noHeader : src.headerLine = false) (unmarked : ¬ HasMarker src.encoding src.file) :
    ∃ p, PostgresRaw.firstPass src = some p ∧ p.delivered = lines.map src.convert ∧ p.last = last := by
  have found := split.fileLinesFrom_eq (split.marker_not_mem unmarked) (.inl rfl)
    (Nat.lt_succ_of_le split.length_le)
  obtain ⟨p, runs, delivered, left, -⟩ := firstPass_eq noHeader found
  exact ⟨p, runs, delivered, left⟩

/-- **No line is lost exactly if the last one ends with a line end.**  A file without a marker on which the
reader raises no error has lines, in one way only; they are delivered in order and once, but for a last
line without a line end. -/
theorem deliversLines_iff {src : Source} (noHeader : src.headerLine = false)
    (runs : (PostgresRaw.firstPass src).isSome = true) (unmarked : ¬ HasMarker src.encoding src.file) :
    ∃ lines eol last, IsLines src.encoding src.file lines eol last ∧
      (∀ {lines' eol' last'}, IsLines src.encoding src.file lines' eol' last' → lines' = lines ∧ last' = last) ∧
      (DeliversLines src (allLines lines last) ↔ last = []) := by
  obtain ⟨p, runs⟩ := Option.isSome_iff_exists.1 runs
  obtain ⟨fl, found⟩ := exists_fileLinesFrom (s := .fresh .fresh) (.inl noHeader) runs
  have split : IsLines src.encoding src.file fl.contents fl.eolType fl.leftover := isLines_of_unmarked unmarked found
  refine ⟨fl.contents, fl.eolType, fl.leftover, split, fun other => ?_, ?_⟩
  · have found : fileLinesFrom src.encoding (src.file.length + 1) .unknown src.file = some fl := found
    have same := other.fileLinesFrom_eq (e := .unknown) (other.marker_not_mem unmarked)
      (.inl rfl) (Nat.lt_succ_of_le other.length_le)
    rw [found] at same
    obtain rfl := Option.some.inj same
    exact ⟨rfl, rfl⟩
  · obtain ⟨p', runs', delivered, -⟩ := split.firstPass noHeader unmarked
    constructor
    · rintro ⟨p'', runs'', all⟩
      obtain rfl : p'' = p' := Option.some.inj (runs''.symm.trans runs')
      have count := congrArg List.length (delivered.symm.trans all)
      rw [length_map, length_map, allLines, length_append] at count
      by_contra unterminated
      rw [if_neg unterminated, length_singleton] at count
      omega
    · intro terminated
      refine ⟨p', runs', ?_⟩
      rw [delivered, allLines, if_pos terminated, append_nil]

end

theorem backslash_mem_of_hasMarker {enc : Encoding} {file : List Byte} (marked : HasMarker enc file) :
    backslash ∈ file := by
  obtain ⟨lines, eol, b, rest, -, -, -, rfl⟩ := marked
  exact mem_append_left _ (mem_append_right _ mem_cons_self)

/-- A file without header in a single-byte encoding. -/
def plainBytes (file : List Byte) : Source := ⟨file, false, plainEncoding, id⟩

/-- The line `a` with a line end is delivered. -/
theorem deliversLines_iff_terminated : DeliversLines (plainBytes [97, newline]) (allLines [[97]] []) := by
  obtain ⟨lines, eol, last, -, unique, delivers⟩ := @deliversLines_iff (plainBytes [97, newline]) rfl
    (by decide +kernel) fun marked => absurd (backslash_mem_of_hasMarker marked) (by decide)
  obtain ⟨rfl, rfl⟩ := @unique [[97]] .nl []
    ⟨rfl, by rintro line (_ | ⟨_, ⟨⟩⟩); exact ⟨⟨false, false, false⟩, rfl, rfl⟩, nofun, rfl⟩
  exact delivers.2 rfl

/-- The line `a` without one is not: the first call reports the end of the data. -/
theorem not_deliversLines_unterminated :
    IsLines plainEncoding [97] [] .unknown [97] ∧ (firstPass (plainBytes [97])).isSome = true ∧
      ¬ HasMarker plainEncoding [97] ∧ ¬ DeliversLines (plainBytes [97]) (allLines [] [97]) := by
  refine ⟨⟨rfl, nofun, fun none => absurd rfl none, rfl⟩, by decide +kernel,
    fun marked => absurd (backslash_mem_of_hasMarker marked) (by decide), ?_⟩
  rintro ⟨p, runs, delivered⟩
  have none : (firstPass (plainBytes [97])).map (·.delivered) = some [] := by decide +kernel
  rw [runs, Option.map_some, delivered] at none
  cases none

end PostgresRaw
