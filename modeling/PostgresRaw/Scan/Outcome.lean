import PostgresRaw.Scan.Update

/-!
# What a row step can do

The four executor functions differ in what they read, but not in what they do to the world and to the
scan: at most one line is read, values are put into the row, the row is written to caches, and the row
is counted.  `RowOutcome` lists the ways in which a step can go, and `execNoDBPlan_outcome` says that
there are no others.  What follows a scan through its rows only has to look at these.
-/

namespace PostgresRaw

/-- Whether the executor function is one of caches only. -/
def ExecPlan.isCacheOnly : ExecPlan → Bool
  | .plan | .withFilters => false
  | .cacheOnly | .withFiltersCacheOnly => true

section

variable {D : Type}

/-- The result of a step is no tuple. -/
def StepResult.IsFailure : StepResult D → Prop
  | .tuple .. | .done => False
  | .error _ | .fault => True

/-- **The ways in which a row step can go.** -/
inductive RowOutcome (rel : Relation D) (w : World D) (s : Scan D) : StepResult D × World D × Scan D → Prop where
  /-- a slot outside of its cache is read -/
  | outside (cacheOnly : s.execPlan.isCacheOnly = true) : RowOutcome rel w s (.fault, w, s)
  /-- a row of caches only -/
  | cached (cacheOnly : s.execPlan.isCacheOnly = true) (values : Nat → Value D) (pass : Bool) :
      RowOutcome rel w s (advance rel w { s with values := values } pass)
  /-- there is no line -/
  | ended {w₁ : World D} {s₁ : Scan D} (file : s.execPlan.isCacheOnly = false)
      (read : readLine rel w s = (.done, w₁, s₁)) : RowOutcome rel w s (.done, w₁, s₁)
  /-- the line cannot be read, or its fields cannot -/
  | failed {w₁ : World D} {s₁ : Scan D} {read : ReadResult} {result : StepResult D}
      (file : s.execPlan.isCacheOnly = false) (called : readLine rel w s = (read, w₁, s₁))
      (failure : result.IsFailure) : RowOutcome rel w s (result, w₁, s₁)
  /-- the row is to be written outside of its cache -/
  | unwritten {w₁ : World D} {s₁ : Scan D} (file : s.execPlan.isCacheOnly = false)
      (read : readLine rel w s = (.line, w₁, s₁)) (row : RowState D) :
      RowOutcome rel w s (.fault, w₁, s₁.setRowState row)
  /-- a row of the file -/
  | row {w₁ : World D} {s₁ : Scan D} (file : s.execPlan.isCacheOnly = false)
      (read : readLine rel w s = (.line, w₁, s₁)) (row : RowState D) (pass : Bool) {caches : List (Cache D)}
      (written : writeCaches s₁.plan.curStrategy s₁.processed row.values row.attributes w₁.caches = some caches) :
      RowOutcome rel w s (advance rel { w₁ with caches := caches } (s₁.setRowState row) pass)

theorem isFailure_readFailure (e : ReadError) : (readFailure e : StepResult D).IsFailure := by
  cases e <;> exact trivial

theorem Failure.isFailure_result (e : Failure) : (e.result : StepResult D).IsFailure := by
  cases e <;> exact trivial

variable {rel : Relation D} {w : World D} {s : Scan D}

/-- The end of a row of the file. -/
theorem RowOutcome.finishRow {w₁ : World D} {s₁ : Scan D} (file : s.execPlan.isCacheOnly = false)
    (read : readLine rel w s = (.line, w₁, s₁)) (row : RowState D) (pass : Bool) :
    RowOutcome rel w s (finishRow rel w₁ (s₁.setRowState row) pass) := by
  unfold PostgresRaw.finishRow
  split
  · exact .unwritten file read row
  · next written => exact .row file read row pass written

/-- **Every row step goes in one of these ways.** -/
theorem execNoDBPlan_outcome (rel : Relation D) (w : World D) (s : Scan D) :
    RowOutcome rel w s (execNoDBPlan rel w s) := by
  unfold execNoDBPlan
  split
  · next plan =>
    have file : s.execPlan.isCacheOnly = false := by rw [plan]; rfl
    unfold noDBExecPlan
    split
    · next read => exact .ended file read
    · next e _ _ read => exact .failed file read (isFailure_readFailure e)
    · next read =>
      simp only
      split
      · next e _ => exact .failed file read e.isFailure_result
      · exact .finishRow file read _ true
  · next plan =>
    have file : s.execPlan.isCacheOnly = false := by rw [plan]; rfl
    unfold noDBExecPlanWithFilters
    split
    · next read => exact .ended file read
    · next e _ _ read => exact .failed file read (isFailure_readFailure e)
    · next read =>
      simp only
      split
      · next e _ => exact .failed file read e.isFailure_result
      · split
        · split
          · next e _ => exact .failed file read e.isFailure_result
          · exact .finishRow file read _ true
        · exact .finishRow file read _ false
  · next plan =>
    have cacheOnly : s.execPlan.isCacheOnly = true := by rw [plan]; rfl
    unfold noDBExecPlanCacheOnly
    split
    · exact .outside cacheOnly
    · exact .cached cacheOnly _ true
  · next plan =>
    have cacheOnly : s.execPlan.isCacheOnly = true := by rw [plan]; rfl
    unfold noDBExecPlanWithFiltersCacheOnly
    split
    · exact .outside cacheOnly
    · split
      · split
        · exact .outside cacheOnly
        · exact .cached cacheOnly _ true
      · exact .cached cacheOnly _ false

/-- The scan after a row has been counted. -/
def Scan.counted (s : Scan D) : Scan D :=
  { s with processed := s.processed + 1, plan := { s.plan with nMin := s.plan.nMin - 1 } }

theorem advance_of_more {pass : Bool} (more : s.plan.nMin - 1 ≠ 0) :
    advance rel w s pass = (.tuple s.values pass, w, s.counted) := by
  exact if_neg more

theorem advance_of_update {pass : Bool} (due : s.plan.nMin - 1 = 0) {w' : World D} {s' : Scan D}
    (updated : noDBUpdateStrategy rel w s.counted = some (w', s')) :
    advance rel w s pass = (.tuple s'.values pass, w', s') := by
  unfold Scan.counted at updated
  unfold advance
  simp only
  rw [if_pos due, updated]

/-- **How a row ends**: within the rows ahead, or with an update of the strategy, which fails if the
search for the end of the header leaves its buffer. -/
theorem advance_cases (rel : Relation D) (w : World D) (s : Scan D) (pass : Bool) :
    (s.plan.nMin - 1 ≠ 0 ∧ advance rel w s pass = (.tuple s.values pass, w, s.counted)) ∨
      (s.plan.nMin - 1 = 0 ∧ noDBUpdateStrategy rel w s.counted = none ∧
        advance rel w s pass = (.fault, w, s.counted)) ∨
      (s.plan.nMin - 1 = 0 ∧ ∃ w' s', noDBUpdateStrategy rel w s.counted = some (w', s') ∧
        advance rel w s pass = (.tuple s'.values pass, w', s')) := by
  by_cases due : s.plan.nMin - 1 = 0
  · cases updated : noDBUpdateStrategy rel w s.counted with
    | none =>
      refine .inr (.inl ⟨due, rfl, ?_⟩)
      unfold Scan.counted at updated
      unfold advance
      simp only
      rw [if_pos due, updated]
      rfl
    | some result => exact .inr (.inr ⟨due, result.1, result.2, rfl, advance_of_update due updated⟩)
  · exact .inl ⟨due, advance_of_more due⟩

end

end PostgresRaw
