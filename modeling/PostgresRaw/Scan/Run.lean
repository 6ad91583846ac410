import PostgresRaw.Scan.Exec

/-!
# Running queries

`ExecutePlan2` for a plan with one scan of a registered relation: start the scan, pull rows
through `ExecScan`, and clean up in the branch that sees the end of the plan.  That branch is
reached at the end of the data, or earlier if the node above the scan stops asking (a `LIMIT`).
A query that ends with an error gets no clean-up.
-/

namespace PostgresRaw

section

variable {D : Type}

/-- Row steps of a scan: the tuples that passed, how it ended (`none` while it could go on), and
the state reached. -/
structure RowRun (D : Type) where
  tuples : List (Nat → Value D)
  ending : Option (StepResult D)
  world : World D
  scan : Scan D

/-- Up to `n` row steps.  `ExecScan` hands the tuples that pass the qual to the node above. -/
def runRows (rel : Relation D) : (n : Nat) → World D → Scan D → RowRun D
  | 0, w, s => ⟨[], none, w, s⟩
  | n + 1, w, s =>
    match execNoDBPlan rel w s with
    | (.tuple values pass, w, s) =>
      let rest := runRows rel n w s
      { rest with tuples := if pass then values :: rest.tuples else rest.tuples }
    | (result, w, s) => ⟨[], some result, w, s⟩

section

variable {rel : Relation D} {w w' : World D} {s s' : Scan D} {n : Nat}

theorem runRows_of_tuple {values : Nat → Value D} {pass : Bool}
    (step : execNoDBPlan rel w s = (.tuple values pass, w', s')) : runRows rel (n + 1) w s = { runRows rel n w' s' with
        tuples := if pass then values :: (runRows rel n w' s').tuples else (runRows rel n w' s').tuples } := by
  rw [runRows, step]

theorem runRows_of_done (step : execNoDBPlan rel w s = (.done, w', s')) :
    runRows rel (n + 1) w s = ⟨[], some .done, w', s'⟩ := by
  rw [runRows, step]

theorem runRows_of_error {e : ScanError}
    (step : execNoDBPlan rel w s = (.error e, w', s')) : runRows rel (n + 1) w s = ⟨[], some (.error e), w', s'⟩ := by
  rw [runRows, step]

theorem runRows_of_fault (step : execNoDBPlan rel w s = (.fault, w', s')) :
    runRows rel (n + 1) w s = ⟨[], some .fault, w', s'⟩ := by
  rw [runRows, step]

/-- A run that goes on has made a row step. -/
theorem exists_tuple_of_going (going : (runRows rel (n + 1) w s).ending = none) :
    ∃ values pass w' s', execNoDBPlan rel w s = (.tuple values pass, w', s') ∧ (runRows rel n w' s').ending = none := by
  rcases step : execNoDBPlan rel w s with ⟨⟨values, pass⟩ | _ | e | _, w', s'⟩
  · rw [runRows_of_tuple step] at going
    exact ⟨values, pass, w', s', rfl, going⟩
  · rw [runRows_of_done step] at going
    cases going
  · rw [runRows_of_error step] at going
    cases going
  · rw [runRows_of_fault step] at going
    cases going

/-- A row gives at most one tuple. -/
theorem length_tuples_runRows_le (rel : Relation D) (n : Nat) (w : World D) (s : Scan D) :
    (runRows rel n w s).tuples.length ≤ n := by
  induction n generalizing w s with
  | zero => exact Nat.le_refl 0
  | succ n ih =>
    rcases step : execNoDBPlan rel w s with ⟨⟨values, pass⟩ | _ | e | _, w', s'⟩
    · have := ih w' s'
      rw [runRows_of_tuple step]
      cases pass with
      | true => exact Nat.succ_le_succ this
      | false => exact Nat.le_succ_of_le this
    · rw [runRows_of_done step]
      exact Nat.zero_le _
    · rw [runRows_of_error step]
      exact Nat.zero_le _
    · rw [runRows_of_fault step]
      exact Nat.zero_le _

/-- One more row step. -/
theorem runRows_succ_of_tuple (going : (runRows rel n w s).ending = none) {values : Nat → Value D} {pass : Bool}
    (step : execNoDBPlan rel (runRows rel n w s).world (runRows rel n w s).scan = (.tuple values pass, w', s')) :
    runRows rel (n + 1) w s =
      ⟨(runRows rel n w s).tuples ++ if pass then [values] else [], none, w', s'⟩ := by
  induction n generalizing w s with
  | zero =>
    have step : execNoDBPlan rel w s = _ := step
    rw [runRows_of_tuple step]
    cases pass <;> rfl
  | succ n ih =>
    obtain ⟨values₁, pass₁, w₁, s₁, step₁, going₁⟩ := exists_tuple_of_going going
    rw [runRows_of_tuple step₁] at step ⊢
    rw [runRows_of_tuple step₁, ih going₁ step]
    cases pass₁ <;> rfl

/-- The step that reports the end of the data. -/
theorem runRows_succ_of_done (going : (runRows rel n w s).ending = none)
    (step : execNoDBPlan rel (runRows rel n w s).world (runRows rel n w s).scan = (.done, w', s')) :
    runRows rel (n + 1) w s = ⟨(runRows rel n w s).tuples, some .done, w', s'⟩ := by
  induction n generalizing w s with
  | zero =>
    have step : execNoDBPlan rel w s = _ := step
    rw [runRows_of_done step]
    rfl
  | succ n ih =>
    obtain ⟨values₁, pass₁, w₁, s₁, step₁, going₁⟩ := exists_tuple_of_going going
    rw [runRows_of_tuple step₁] at step ⊢
    rw [runRows_of_tuple step₁, ih going₁ step]

end

/-- The end-of-query branch of `ExecutePlan2`: `NoDBFinalizeStrategy`, release the locks of the
query's columns, and `NoDBExecIntegrityCheckCompleted`. -/
def endQuery (w : World D) (s : Scan D) : World D where
  caches := noDBFinalizeStrategy s.plan.curStrategy s.processed w.caches
  eolCache := w.eolCache
  cacheLock := releaseLocks w.cacheLock s.query.readAll
  pmLock := releaseLocks w.pmLock s.query.readAll
  transcodingDisabled := true

/-- Start a scan and make up to `n` row steps. -/
def startAndRun (rel : Relation D) (n : Nat) (w : World D) (q : Query D) : RowRun D :=
  let (w, s) := noDBScanStateInit rel w q
  runRows rel n w s

theorem length_tuples_startAndRun_le (rel : Relation D) (n : Nat) (w : World D) (q : Query D) :
    (startAndRun rel n w q).tuples.length ≤ n :=
  length_tuples_runRows_le rel n _ _

variable {q : Query D} {rel : Relation D} {w w' : World D}

theorem startAndRun_succ_of_tuple {n : Nat} {s' : Scan D} (going : (startAndRun rel n w q).ending = none)
    {values : Nat → Value D} {pass : Bool}
    (step : execNoDBPlan rel (startAndRun rel n w q).world (startAndRun rel n w q).scan =
      (.tuple values pass, w', s')) :
    startAndRun rel (n + 1) w q = ⟨(startAndRun rel n w q).tuples ++ if pass then [values] else [], none, w', s'⟩ :=
  runRows_succ_of_tuple going step

theorem startAndRun_succ_of_done {n : Nat} {s' : Scan D} (going : (startAndRun rel n w q).ending = none)
    (step : execNoDBPlan rel (startAndRun rel n w q).world (startAndRun rel n w q).scan = (.done, w', s')) :
    startAndRun rel (n + 1) w q = ⟨(startAndRun rel n w q).tuples, some .done, w', s'⟩ :=
  runRows_succ_of_done going step

/-- Enough row steps for every file: a line has at least its terminator. -/
def enoughRows (rel : Relation D) : Nat := rel.file.length + 1

/-- A query that runs until the executor sees the end of the data: its tuples and the world
afterwards; `none` if it does not get there. -/
def runToEnd (rel : Relation D) (w : World D) (q : Query D) :
    Option (List (Nat → Value D) × World D) :=
  let run := startAndRun rel (enoughRows rel) w q
  match run.ending with
  | some .done => some (run.tuples, endQuery run.world run.scan)
  | _ => none

theorem runToEnd_of_done (done : (startAndRun rel (enoughRows rel) w q).ending = some .done) :
    runToEnd rel w q = some ((startAndRun rel (enoughRows rel) w q).tuples,
      endQuery (startAndRun rel (enoughRows rel) w q).world (startAndRun rel (enoughRows rel) w q).scan) := by
  unfold runToEnd
  simp only [done]

/-- A query that gives a result has got to the end of the data. -/
theorem runToEnd_eq_some {tuples : List (Nat → Value D)} (run : runToEnd rel w q = some (tuples, w')) :
    (startAndRun rel (enoughRows rel) w q).ending = some .done ∧
      tuples = (startAndRun rel (enoughRows rel) w q).tuples ∧
      w' = endQuery (startAndRun rel (enoughRows rel) w q).world (startAndRun rel (enoughRows rel) w q).scan := by
  unfold runToEnd at run
  simp only at run
  split at run
  · next done =>
    cases run
    exact ⟨done, rfl, rfl⟩
  · cases run

/-- A sequence of queries, each run to the end of the data. -/
def session (rel : Relation D) : World D → List (Query D) → Option (List (List (Nat → Value D)) × World D)
  | w, [] => some ([], w)
  | w, q :: qs =>
    match runToEnd rel w q with
    | none => none
    | some (tuples, w) => (session rel w qs).map fun (rest, w) => (tuples :: rest, w)

theorem session_cons {qs : List (Query D)} {tuples : List (Nat → Value D)} (run : runToEnd rel w q = some (tuples, w')) :
    session rel w (q :: qs) = (session rel w' qs).map fun rest => (tuples :: rest.1, rest.2) := by
  generalize result : session rel w (q :: qs) = r
  unfold session at result
  rw [run] at result
  exact result.symm

/-- The first query of a session that gives a result gives one. -/
theorem session_cons_eq_some {qs : List (Query D)} {answers : List (List (Nat → Value D))}
    (run : session rel w (q :: qs) = some (answers, w')) :
    ∃ tuples w₁ rest, runToEnd rel w q = some (tuples, w₁) ∧ session rel w₁ qs = some (rest, w') := by
  cases first : runToEnd rel w q with
  | none =>
    unfold session at run
    rw [first] at run
    cases run
  | some result =>
    obtain ⟨tuples, w₁⟩ := result
    rw [session_cons first] at run
    obtain ⟨⟨rest, last⟩, later, result⟩ := Option.map_eq_some_iff.1 run
    obtain rfl : last = w' := congrArg Prod.snd result
    exact ⟨tuples, w₁, rest, rfl, later⟩

end

/-- The rows `1,2,3`, `4,5,6` and `7,8,9`. -/
def threeRows : Relation Nat where
  fmt := commaFormat
  natts := 3
  byValue := fun _ => true
  input := fun _ bytes => some bytes.length
  file := [49, 44, 50, 44, 51, 10, 52, 44, 53, 44, 54, 10, 55, 44, 56, 44, 57, 10]
  headerLine := false
  encoding := plainEncoding
  needTranscoding := false
  serverEncoding := fun _ => rfl
  clientToServer := id
  junkSlot := fun _ _ => ⟨0, 0⟩
  junkAttribute := fun _ => ⟨0, 0⟩

def selectColumn (col limit : Nat) : Query Nat := ⟨[col], [], none, limit⟩

end PostgresRaw
