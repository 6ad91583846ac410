import PostgresRaw.Scan.Reached

/-!
# Encoding conversion

`convertToServerEncoding` converts a line only while the relation's integrity check has not been
completed, and the end of any query completes it, whether or not the query has seen all rows.  So
the first query of a session hands converted lines to the field parsers, and the later ones hand
over the lines as they are in the file (`lineBuf_converted_iff`).
-/

namespace PostgresRaw

/-! ### Reading does not depend on the conversion -/

/-- The source without a conversion. -/
def Source.unconverted (src : Source) : Source := { src with convert := id }

theorem readLoop_unconverted (src : Source) (fuel : Nat) (needData hitEof : Bool) (q : QuoteState) (s : RawInput) :
    readLoop src fuel needData hitEof q s = readLoop src.unconverted fuel needData hitEof q s := by
  induction fuel generalizing needData hitEof q s with
  | zero => rfl
  | succ fuel ih =>
    have same : refill src needData hitEof s = refill src.unconverted needData hitEof s := rfl
    have encoding : src.encoding = src.unconverted.encoding := rfl
    rw [readLoop, readLoop, same, encoding]
    simp only [ih]

theorem noDBGetNextTupleFromFile_lineBuf {src : Source} {row : Nat} {s s' : RawInput}
    (read : noDBGetNextTupleFromFile src row s = (.line, s')) :
    s'.lineBuf = src.convert (noDBGetNextTupleFromFile src.unconverted row s).2.lineBuf := by
  have same : noDBCopyReadLineText src { s with lineBuf := [] } =
      noDBCopyReadLineText src.unconverted { s with lineBuf := [] } := readLoop_unconverted ..
  unfold noDBGetNextTupleFromFile at read ⊢
  rw [← same]
  split at read
  · cases read
    rfl
  · next noLine _ =>
    cases read
    exact (noLine rfl).elim

theorem noDBGetNextTupleFromFileWithEOL_lineBuf {src : Source} {row : Nat} {s s' : RawInput}
    (read : noDBGetNextTupleFromFileWithEOL src row s = (.line, s')) :
    s'.lineBuf = src.convert (noDBGetNextTupleFromFileWithEOL src.unconverted row s).2.lineBuf := by
  have same : noDBCopyReadLineTextWithEOL src row { s with lineBuf := [] } =
      noDBCopyReadLineTextWithEOL src.unconverted row { s with lineBuf := [] } := rfl
  unfold noDBGetNextTupleFromFileWithEOL at read ⊢
  rw [← same]
  split at read
  · cases read
    rfl
  · next noLine _ =>
    cases read
    exact (noLine rfl).elim

section

variable {D : Type}

/-- The line that the scan reads next, as it is in the file. -/
def rawLine (rel : Relation D) (w : World D) (s : Scan D) : List Byte :=
  match s.plan.readFile with
  | .fromFile => (noDBGetNextTupleFromFile (rel.source w).unconverted s.processed (s.reader w)).2.lineBuf
  | .fromFileWithEOL =>
    (noDBGetNextTupleFromFileWithEOL (rel.source w).unconverted s.processed (s.reader w)).2.lineBuf

theorem readLine_lineBuf {rel : Relation D} {w w' : World D} {s s' : Scan D}
    (read : readLine rel w s = (.line, w', s')) : s'.input.lineBuf = (rel.source w).convert (rawLine rel w s) := by
  cases function : s.plan.readFile with
  | fromFile =>
    simp only [readLine, function] at read
    simp only [rawLine, function]
    obtain ⟨line, stored⟩ := Prod.ext_iff.1 read
    rw [← congrArg (fun stored : World D × Scan D => stored.2.input.lineBuf) stored]
    exact noDBGetNextTupleFromFile_lineBuf (Prod.ext line rfl)
  | fromFileWithEOL =>
    simp only [readLine, function] at read
    simp only [rawLine, function]
    obtain ⟨line, stored⟩ := Prod.ext_iff.1 read
    rw [← congrArg (fun stored : World D × Scan D => stored.2.input.lineBuf) stored]
    exact noDBGetNextTupleFromFileWithEOL_lineBuf (Prod.ext line rfl)

/-! ### Sessions -/

/-- The worlds that sequences of queries leave behind, and whether one of the queries has been
ended: a query is ended at the end of the data or when the node above its scan stops asking, and
it is left without an end at the tuple count of a portal or with an error. -/
inductive After (rel : Relation D) : (ended : Bool) → World D → Prop where
  | initial : After rel false .initial
  | ended {b : Bool} {w : World D} (after : After rel b w) (q : Query D) (n : Nat)
      (ends : (startAndRun rel n w q).reachesEnd = true) :
      After rel true (endQuery (startAndRun rel n w q).world (startAndRun rel n w q).scan)
  | left {b : Bool} {w : World D} (after : After rel b w) (q : Query D) (n : Nat) :
      After rel b (startAndRun rel n w q).world

theorem After.transcodingDisabled {rel : Relation D} {ended : Bool} {w : World D}
    (after : After rel ended w) : w.transcodingDisabled = ended := by
  induction after with
  | initial => rfl
  | ended => rfl
  | left _ q n ih => exact (worldKept_transcodingDisabled rel _).startAndRun n q ih

/-- **The line that is handed to the field parsers is the converted line** in every row of every
query of a session, exactly if no query has been ended before, or if the conversion does not
change the line. -/
theorem lineBuf_converted_iff {rel : Relation D} (transcodes : rel.needTranscoding = true) {ended : Bool}
    {w : World D} (after : After rel ended w) (q : Query D) (n : Nat) {w' : World D} {s' : Scan D}
    (read : readLine rel (startAndRun rel n w q).world (startAndRun rel n w q).scan = (.line, w', s')) :
    let raw := rawLine rel (startAndRun rel n w q).world (startAndRun rel n w q).scan
    s'.input.lineBuf = rel.clientToServer raw ↔ ended = false ∨ rel.clientToServer raw = raw := by
  intro raw
  have flag := (worldKept_transcodingDisabled rel ended).startAndRun n q after.transcodingDisabled
  rw [readLine_lineBuf read, Relation.source, transcodes, flag]
  cases ended with
  | false => exact iff_of_true rfl (.inl rfl)
  | true =>
    change raw = rel.clientToServer raw ↔ _
    rw [eq_comm, or_iff_right (by decide)]

end

/-! ### A second query -/

/-- The same rows in an encoding with other codes. -/
def shiftedRows : Relation Nat :=
  { threeRows with
    needTranscoding := true
    serverEncoding := nofun
    clientToServer := List.map fun b => if b = 49 then 65 else b }

/-- The world after a query of column 0. -/
def afterFirst : World Nat :=
  let first := startAndRun shiftedRows 4 .initial (selectColumn 0 0)
  endQuery first.world first.scan

theorem after_afterFirst : After shiftedRows true afterFirst :=
  .ended .initial (selectColumn 0 0) 4 (by decide +kernel)

/-- The first query gets its first line converted. -/
theorem lineBuf_converted_iff_first :
    (readLine shiftedRows (startAndRun shiftedRows 0 .initial (selectColumn 0 0)).world
      (startAndRun shiftedRows 0 .initial (selectColumn 0 0)).scan).2.2.input.lineBuf =
        shiftedRows.clientToServer [49, 44, 50, 44, 51] := by
  have raw : rawLine shiftedRows (startAndRun shiftedRows 0 .initial (selectColumn 0 0)).world
      (startAndRun shiftedRows 0 .initial (selectColumn 0 0)).scan = [49, 44, 50, 44, 51] := by
    decide +kernel
  have line : (readLine shiftedRows (startAndRun shiftedRows 0 .initial (selectColumn 0 0)).world
      (startAndRun shiftedRows 0 .initial (selectColumn 0 0)).scan).1 = .line := by
    decide +kernel
  have converted := lineBuf_converted_iff rfl .initial (selectColumn 0 0) 0 (Prod.ext line rfl)
  rw [raw] at converted
  exact converted.2 (.inl rfl)

/-- The second query gets the first line as it is in the file. -/
theorem not_lineBuf_converted_second :
    After shiftedRows true afterFirst ∧
      (readLine shiftedRows (startAndRun shiftedRows 0 afterFirst (selectColumn 1 0)).world
        (startAndRun shiftedRows 0 afterFirst (selectColumn 1 0)).scan).1 = .line ∧
      (readLine shiftedRows (startAndRun shiftedRows 0 afterFirst (selectColumn 1 0)).world
        (startAndRun shiftedRows 0 afterFirst (selectColumn 1 0)).scan).2.2.input.lineBuf ≠
          shiftedRows.clientToServer [49, 44, 50, 44, 51] :=
  ⟨after_afterFirst, by decide +kernel, by decide +kernel⟩

end PostgresRaw
