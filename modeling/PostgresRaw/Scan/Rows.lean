import PostgresRaw.Scan.Running

/-!
# Row steps one after the other

A scan that is `Underway` makes a row step (`Underway.step`): it gives the next record, or reports the
end of the data behind the last one.  By induction, row steps give the records in order
(`Underway.run`), until they have been made, the data has ended, or an input function has rejected a
field.

What a client wants to know about the phases of a scan goes along as `keep`: a property of phases
that goes over to the next one.
-/

namespace PostgresRaw

open List

section

variable {D : Type} {rel : Relation D} {header : List Byte} {records : List (PlainRecord rel.fmt rel.natts)}
  {task : Task D} {frame : Frame} {keep : Phase D → Prop} {w : World D} {s : Scan D}

variable (header records) in
/-- **A scan between two row steps**: at a row of a node, or behind the last one. -/
def Underway (frame : Frame) (task : Task D) (keep : Phase D → Prop) (w : World D) (s : Scan D) : Prop :=
  ∃ (phase : Phase D) (valid : phase.Valid rel records task) (j : Nat), keep phase ∧
    (Executing header frame valid j s.processed w s ∨ Ended header frame valid j w s)

variable (header records) in
/-- A scan that makes no more row steps. -/
def Left (frame : Frame) (task : Task D) (keep : Phase D → Prop) (w : World D) (s : Scan D) : Prop :=
  ∃ (phase : Phase D) (valid : phase.Valid rel records task) (j : Nat), keep phase ∧
    Halted header frame valid j w s

variable (rel records) in
/-- A property of phases that goes over to the next phase. -/
def GoesOn (task : Task D) (keep : Phase D → Prop) : Prop :=
  ∀ {phase phase' : Phase D} (valid : phase.Valid rel records task), keep phase → valid.Follows phase' →
    keep phase'

theorem goesOn_true : GoesOn rel records task fun _ => True := fun _ _ _ => trivial

/-! ### The end of the data -/

section

variable {phase : Phase D} {valid : phase.Valid rel records task} {j : Nat}

theorem Ended.halted (ended : Ended header frame valid j w s) : Halted header frame valid j w s where
  query := ended.query
  inside := ended.inside
  iterator := ended.iterator
  first := by
    have := valid.row_lt (Nat.lt_add_one j) ended.inside
    rw [ended.processed, ← ended.last]
    omega
  last := Nat.le_of_eq (ended.processed.trans ended.last.symm)
  within := Nat.le_of_eq ended.processed
  caches := .inr ⟨ended.processed.trans ended.last.symm, by
    rw [ended.processed]
    exact ended.progress⟩
  eol := ended.reader.eol.leave
  known := ended.reader.eol.known_le
  seen := ended.processed ▸ ended.seen
  locks := ended.locks

/-- A scan that is left stays left when only its reader and what is known about the lengths change. -/
theorem Halted.read (halted : Halted header frame valid j w s) {input : RawInput} {t : Nat}
    (right : EolRight rel.plainSource header (recordLines records) input.eolCache task.known t)
    (used : input.eolCache.usedRows = w.eol.usedRows) :
    Halted header frame valid j { w with eolCache := some input.eolCache } { s with input := input } :=
  { halted with
    eol := right.leave
    known := right.known_le
    seen := by
      change s.processed ≤ input.eolCache.usedRows
      rw [used]
      exact halted.seen }

/-- The executor functions that read the file report the end of the data. -/
theorem execNoDBPlan_done {w₁ : World D} {s₁ : Scan D} (exec : s.execPlan = .plan ∨ s.execPlan = .withFilters)
    (read : readLine rel w s = (.done, w₁, s₁)) : execNoDBPlan rel w s = (.done, w₁, s₁) := by
  rcases exec with exec | exec
  · rw [show execNoDBPlan rel w s = noDBExecPlan rel w s by rw [execNoDBPlan, exec], noDBExecPlan, read]
  · rw [show execNoDBPlan rel w s = noDBExecPlanWithFilters rel w s by rw [execNoDBPlan, exec],
      noDBExecPlanWithFilters, read]

/-- Reading behind the last record. -/
theorem readLine_done (plain : PlainRelation rel header records) {known : Nat} (readFile : s.plan.readFile = .fromFile)
    (reader : ReaderAt rel.plainSource header (recordLines records) known (s.reader w) records.length) :
    ∃ input, readLine rel w s = (.done, { w with eolCache := some input.eolCache }, { s with input := input }) ∧
      EolRight rel.plainSource header (recordLines records) input.eolCache known records.length ∧
      input.eolCache.usedRows = w.eol.usedRows := by
  have length := recordLines_length records
  rw [← length] at reader
  obtain ⟨input, read, right, used⟩ := reader.done plain.layout s.processed
  refine ⟨input, ?_, length ▸ right, used⟩
  unfold readLine
  rw [readFile, plain.source w]
  simp only [read]
  rfl

/-- **Behind the last record** the executor functions report the end of the data. -/
theorem Halted.done (halted : Halted header frame valid j w s) (plain : PlainRelation rel header records)
    (exec : s.execPlan = .plan ∨ s.execPlan = .withFilters) (readFile : s.plan.readFile = .fromFile)
    (reader : ReaderAt rel.plainSource header (recordLines records) task.known (s.reader w) records.length) :
    ∃ w' s', execNoDBPlan rel w s = (.done, w', s') ∧ s'.processed = s.processed ∧
      Halted header frame valid j w' s' := by
  obtain ⟨input, read, right, used⟩ := readLine_done plain readFile reader
  exact ⟨_, _, execNoDBPlan_done exec read, rfl, halted.read right used⟩

/-- A scan at the end of the data reads the file. -/
theorem Executing.done (executing : Executing header frame valid j s.processed w s) (proper : task.Proper rel.natts)
    (plain : PlainRelation rel header records) (ended : s.processed = records.length) :
    ∃ w' s', execNoDBPlan rel w s = (.done, w', s') ∧ s'.processed = s.processed ∧
      Halted header frame valid j w' s' := by
  have known := executing.eol
  have less : s.processed < phase.row (j + 1) := executing.node.2
  have file : phase.cacheOnly rel.byValue task j = false := by
    by_contra cacheOnly
    have := valid.row_le_known proper executing.inside (by simpa using cacheOnly)
    omega
  obtain ⟨p₀, counters⟩ := executing.counters
  rw [file] at counters
  have readFile := counters.readFile_eq
  rw [if_neg (by omega)] at readFile
  have reader := executing.reader file
  rw [ended] at reader
  refine executing.halted.done plain ?_ readFile reader
  rw [executing.exec, noDBGetExecPlan_of_file file]
  split
  · exact .inl rfl
  · exact .inr rfl

end

/-! ### A row step -/

variable (rel) in
/-- The record that a step has worked on has a field that its input function rejects. -/
def Rejects (q : Query D) (record : PlainRecord rel.fmt rel.natts) : Prop :=
  ∃ c ∈ q.readAll, ¬ record.Accepts rel.input c

variable (rel records) in
/-- The input functions accept every field of the file. -/
def AcceptsAll : Prop := ∀ record ∈ records, ∀ c < rel.natts, record.Accepts rel.input c

/-- **A row step.** -/
theorem Underway.step (underway : Underway header records frame task keep w s) (goesOn : GoesOn rel records task keep)
    (proper : task.Proper rel.natts) (plain : PlainRelation rel header records) (stop : s.processed < frame.stop) :
    (s.processed = records.length ∧ ∃ w' s', execNoDBPlan rel w s = (.done, w', s') ∧
        s'.processed = s.processed ∧ Left header records frame task keep w' s') ∨
      ∃ record, records[s.processed]? = some record ∧
        ((∃ w' s', execNoDBPlan rel w s = (.fault, w', s') ∧ frame.tight) ∨
          (∃ w' s', execNoDBPlan rel w s = (.error .rejectedInput, w', s') ∧ s'.processed = s.processed ∧
            Left header records frame task keep w' s' ∧ Rejects rel task.query record) ∨
          ∃ values pass w' s', execNoDBPlan rel w s = (.tuple values pass, w', s') ∧
            s'.processed = s.processed + 1 ∧ Underway header records frame task keep w' s' ∧
            Gives rel task.query record values pass) := by
  obtain ⟨phase, valid, j, kept, executing | ended⟩ := underway
  · rcases lt_or_eq_of_le executing.within with inside | atEnd
    · have here := getElem?_eq_getElem inside
      refine .inr ⟨_, here, ?_⟩
      -- Counting the row, once it has been worked on.
      have count : ∀ {w₁ : World D} {s₁ : Scan D} {pass : Bool}, s₁.processed = s.processed →
          execNoDBPlan rel w s = PostgresRaw.advance rel w₁ s₁ pass →
          Executing header frame valid j (s.processed + 1) w₁ s₁ →
          Gives rel task.query records[s.processed] s₁.values pass →
          ∃ values pass w' s', execNoDBPlan rel w s = (.tuple values pass, w', s') ∧
            s'.processed = s.processed + 1 ∧ Underway header records frame task keep w' s' ∧
            Gives rel task.query records[s.processed] values pass := by
        intro w₁ s₁ pass same step next gives
        rw [← same] at next stop
        obtain ⟨w', s', counted, processed, result⟩ := next.advance proper plain stop pass
        refine ⟨s₁.values, pass, w', s', step.trans counted, by rw [processed, same], ?_, gives⟩
        rcases result with ⟨phase', valid', j', follows, next⟩ | ended
        · exact ⟨phase', valid', j', goesOn valid kept follows, .inl next⟩
        · exact ⟨phase, valid, j, kept, .inr ended⟩
      cases cacheOnly : phase.cacheOnly rel.byValue task j with
      | true =>
        obtain ⟨s₁, pass, step, same, next, gives⟩ := executing.cacheRow proper cacheOnly here
        exact .inr (.inr (count same step next gives))
      | false =>
        rcases executing.fileRow proper plain cacheOnly here with fault | ⟨w', s', step, same, halted, rejects⟩ |
          ⟨w₁, s₁, pass, step, same, next, gives⟩
        · exact .inl fault
        · exact .inr (.inl ⟨w', s', step, same, ⟨phase, valid, j, kept, halted⟩, rejects⟩)
        · exact .inr (.inr (count same step next gives))
    · obtain ⟨w', s', step, same, halted⟩ := executing.done proper plain atEnd
      exact .inl ⟨atEnd, w', s', step, same, phase, valid, j, kept, halted⟩
  · obtain ⟨w', s', step, same, halted⟩ := ended.halted.done plain (.inl ended.exec) ended.readFile ended.reader
    exact .inl ⟨ended.processed, w', s', step, same, phase, valid, j, kept, halted⟩

/-! ### Runs -/

variable (header records) in
/-- **How `n` row steps from row `p` on end.** -/
inductive RunEnds (frame : Frame) (task : Task D) (keep : Phase D → Prop) (p n : Nat) (run : RowRun D) : Prop where
  /-- a cache has no buffer for a row -/
  | fault (ending : run.ending = some .fault) (tight : frame.tight)
  /-- all steps have been made -/
  | underway (ending : run.ending = none) (processed : run.scan.processed = p + n)
      (underway : Underway header records frame task keep run.world run.scan)
  /-- the data has ended -/
  | done (ending : run.ending = some .done) (few : records.length < p + n)
      (processed : run.scan.processed = records.length)
      (left : Left header records frame task keep run.world run.scan)
  /-- an input function has rejected a field -/
  | rejected (ending : run.ending = some (.error .rejectedInput)) (before : run.scan.processed < p + n)
      (left : Left header records frame task keep run.world run.scan)
      (rejects : ∃ record, records[run.scan.processed]? = some record ∧ Rejects rel task.query record)

variable (records) in
/-- The tuples of a run are the answer for the rows that it has passed. -/
def TuplesRight (task : Task D) (p : Nat) (run : RowRun D) : Prop :=
  task.query.Proper rel.natts → run.ending ≠ some .fault →
    p ≤ run.scan.processed ∧
      run.tuples = task.query.answer rel.input ((records.drop p).take (run.scan.processed - p))

/-- A run that ends at once. -/
theorem tuplesRight_at_once {p : Nat} {ending : Option (StepResult D)} (same : s.processed = p) :
    TuplesRight records task p ⟨[], ending, w, s⟩ := by
  intro _ _
  simp only [same, Nat.sub_self, take_zero]
  exact ⟨le_rfl, rfl⟩

/-- A row in front of the answer. -/
theorem Gives.cons {q : Query D} {record : PlainRecord rel.fmt rel.natts} {values : Nat → Value D} {pass : Bool}
    (gives : Gives rel q record values pass) (proper : q.Proper rel.natts) (rest : List (PlainRecord rel.fmt rel.natts)) :
    q.answer rel.input (record :: rest) =
      if pass then values :: q.answer rel.input rest else q.answer rel.input rest := by
  have verdict := gives.pass proper
  rw [Query.answer, map_cons, filter_cons, ← verdict]
  cases pass with
  | true => rw [gives.values rfl, if_pos rfl, if_pos rfl, Query.answer]
  | false => rfl

/-- **Row steps give the records in order.** -/
theorem Underway.run (underway : Underway header records frame task keep w s) (goesOn : GoesOn rel records task keep)
    (proper : task.Proper rel.natts) (plain : PlainRelation rel header records) {n : Nat}
    (stop : s.processed + n ≤ frame.stop) : RunEnds header records frame task keep s.processed n (runRows rel n w s) ∧
      TuplesRight records task s.processed (runRows rel n w s) := by
  induction n generalizing w s with
  | zero => exact ⟨.underway rfl rfl underway, tuplesRight_at_once rfl⟩
  | succ n ih =>
    rcases underway.step goesOn proper plain (by omega) with ⟨ended, w', s', step, same, left⟩ |
      ⟨record, here, ⟨w', s', step, tight⟩ | ⟨w', s', step, same, left, rejects⟩ |
        ⟨values, pass, w', s', step, next, underway', gives⟩⟩
    · rw [runRows_of_done step]
      exact ⟨.done rfl (by omega) (same.trans ended) left, tuplesRight_at_once same⟩
    · rw [runRows_of_fault step]
      exact ⟨.fault rfl tight, fun _ noFault => absurd rfl noFault⟩
    · rw [runRows_of_error step]
      refine ⟨.rejected rfl ?_ left ⟨record, ?_, rejects⟩, tuplesRight_at_once same⟩
      · change s'.processed < _
        omega
      · change records[s'.processed]? = _
        rw [same, here]
    · obtain ⟨ends, tuples⟩ := ih underway' (by omega)
      rw [runRows_of_tuple step]
      rw [next] at ends tuples
      refine ⟨?_, fun properly noFault => ?_⟩
      · rcases ends with ⟨ending, tight⟩ | ⟨ending, processed, going⟩ | ⟨ending, few, processed, left⟩ |
          ⟨ending, before, left, rejects⟩
        · exact .fault ending tight
        · exact .underway ending (by rw [processed]; omega) going
        · exact .done ending (by omega) processed left
        · exact .rejected ending (by change (runRows rel n w' s').scan.processed < _; omega) left rejects
      · obtain ⟨le, right⟩ := tuples properly noFault
        refine ⟨by change s.processed ≤ (runRows rel n w' s').scan.processed; omega, ?_⟩
        have inside := (List.getElem?_eq_some_iff.1 here).1
        have isRecord : records[s.processed] = record := Option.some.inj ((getElem?_eq_getElem inside).symm.trans here)
        rw [drop_eq_getElem_cons inside, isRecord, show (runRows rel n w' s').scan.processed - s.processed =
            (runRows rel n w' s').scan.processed - (s.processed + 1) + 1 by omega,
          take_succ_cons, gives.cons properly, right]

end

end PostgresRaw
