import PostgresRaw.Scan.NodeRows
import PostgresRaw.Session.Completed
import PostgresRaw.Strategy.MarkingLoops

/-!
# Scans of one relation in any order

Any number of scans share the caches of a relation: those of a self join, or of queries of which one is called from
another.  Each is started, asked for rows, restarted and left when the nodes above it want to (`Interleaved`).  A run
keeps a record of the calls of `BuildMatrix`: the rows it is called with and the caches it finds.

`Interleaved.shape` is what there is to know about the calls: the rows are those of `GetInterestingRows` for the very
caches, or 10000 rows behind the nodes of an iterator.  The first are safe whatever has happened.  For the second
the iterator does not look where the caches end by now, so another scan may have filled them in the meantime: the
loops that mark hits stay inside the row vector as long as no cache has the row and the one 10000 rows behind it
(`PlanCall.OnTime`).  A scan that is overtaken leaves it (`Trailing.leaves`).
-/

namespace PostgresRaw

open Function Option List

section

variable {D : Type}

/-! ### Calls of `BuildMatrix` -/

/-- A call of `BuildMatrix`, through `BuildStrategy`. -/
structure PlanCall (D : Type) where
  info : QueryInfo
  rows : List Nat
  caches : List (Cache D)

/-- No loop of the call leaves the row vector. -/
def PlanCall.Inside (call : PlanCall D) : Prop :=
  ∃ p, buildMatrixChecked call.info call.rows call.caches = some p

/-- If the rows are 10000 behind the nodes of an iterator, no cache has the first and the last of them. -/
def PlanCall.OnTime (call : PlanCall D) : Prop :=
  ∀ row, call.rows = [row, row + defaultRows] →
    ∀ cache ∈ call.caches, cache.hasRow row = true → cache.hasRow (row + defaultRows) = false

/-- The call of `NoDBScanStrategyIteratorGet`. -/
def getCalls (it : StrategyIterator) (caches : List (Cache D)) : List (PlanCall D) :=
  if it.cur = it.strategy.length then [⟨it.queryInfo, [it.nextRow, it.nextRow + defaultRows], caches⟩] else []

/-- The call of `NoDBScanStrategyIterator`. -/
def iteratorCalls (q : QueryInfo) (caches : List (Cache D)) : List (PlanCall D) :=
  match getInterestingRows caches with
  | [] => []
  | rows => [⟨q, rows, caches⟩]

/-- The calls of `firstStrategy`. -/
def firstCalls (byValue : Nat → Bool) (q : QueryInfo) (caches : List (Cache D)) : List (PlanCall D) :=
  let (it, planned) := noDBScanStrategyIterator byValue q caches
  iteratorCalls q caches ++ getCalls it planned

/-- The calls of `NoDBScanStateInit`. -/
def startCalls (rel : Relation D) (w : World D) (q : Query D) : List (PlanCall D) :=
  firstCalls rel.byValue (q.info (unlockedCols w.cacheLock q.readAll) (unlockedCols w.pmLock q.readAll)) w.caches

/-- The calls of `NoDBUpdateStrategy`. -/
def updateCalls (rel : Relation D) (w : World D) (s : Scan D) : List (PlanCall D) :=
  if s.countDown.plan.nRows = 0 then
    match lookAhead rel w (seekToRow rel.headerLine s.processed (s.reader w)) with
    | some (false, _) => getCalls (noDBScanStrategyIteratorNext s.plan.iterator) (finalizeNode w s).caches
    | _ => []
  else []

/-- The calls of a restart. -/
def restartCalls (rel : Relation D) (w : World D) (s : Scan D) : List (PlanCall D) :=
  let (writeData, _) := renewLocks w.cacheLock s.query.readAll s.writeDataCols
  let (writePositions, _) := renewLocks w.pmLock s.query.readAll s.writePositionCols
  firstCalls rel.byValue (s.query.info writeData writePositions) w.caches

/-- The calls of `NoDBScanStateReInit`. -/
def rescanCalls (rel : Relation D) (w : World D) (s : Scan D) : List (PlanCall D) :=
  let input := seekToRow rel.headerLine s.processed (s.reader w)
  if input.eolCache.usedRows ≤ input.tupleRead then
    match noDBTryReFillRawBuf (rel.source w) input with
    | some (true, _) => restartCalls rel (finalizeNode w s) s
    | _ => []
  else restartCalls rel (finalizeNode w s) s

/-! ### The calls of a row step

A row step calls `BuildMatrix` only at its end, where the row is counted. -/

/-- The state in which a row that has been read is counted; `none` if it cannot be written. -/
def writtenRow (w : World D) (s : Scan D) : Option (World D × Scan D) :=
  (writeCaches s.plan.curStrategy s.processed s.values s.attributes w.caches).map fun caches =>
    ({ w with caches := caches }, s)

/-- The state in which an executor function counts its row; `none` if it does not get there. -/
def rowEnd (rel : Relation D) (w : World D) (s : Scan D) : Option (World D × Scan D) :=
  match s.execPlan with
  | .plan =>
    match readLine rel w s with
    | (.line, w, s) =>
      let a := s.plan.curStrategy.postFilter
      match fetch rel w.caches s.lastfield s.processed a a.convert s.rowState with
      | .error _ => none
      | .ok r => writtenRow w (s.setRowState r)
    | _ => none
  | .withFilters =>
    match readLine rel w s with
    | (.line, w, s) =>
      let pre := s.plan.curStrategy.preFilter
      match fetch rel w.caches s.lastfield s.processed pre pre.convert s.rowState with
      | .error _ => none
      | .ok r =>
        if execQual s.query r.values then
          let post := s.plan.curStrategy.postFilter
          match fetch rel w.caches s.lastfield s.processed post post.withFile r with
          | .error _ => none
          | .ok r => writtenRow w (s.setRowState r)
        else writtenRow w (s.setRowState r)
    | _ => none
  | .cacheOnly =>
    (readCaches w.caches s.processed s.plan.curStrategy.readPostFilterWithCache s.values).map fun values =>
      (w, { s with values := values })
  | .withFiltersCacheOnly =>
    match readCaches w.caches s.processed s.plan.curStrategy.readPreFilterWithCache s.values with
    | none => none
    | some values =>
      if execQual s.query values then
        (readCaches w.caches s.processed s.plan.curStrategy.readPostFilterWithCache values).map fun values =>
          (w, { s with values := values })
      else some (w, { s with values := values })

/-- The calls of a row step. -/
def rowCalls (rel : Relation D) (w : World D) (s : Scan D) : List (PlanCall D) :=
  match rowEnd rel w s with
  | none => []
  | some (w, s) => if s.plan.nMin - 1 = 0 then updateCalls rel w s.counted else []

variable {s : Scan D} {caches : List (Cache D)} {call : PlanCall D} {q : Query D}

theorem finishRow_of_writtenRow {rel : Relation D} {w w₁ : World D} {s₁ : Scan D} {pass : Bool}
    (ends : writtenRow w s = some (w₁, s₁)) : finishRow rel w s pass = advance rel w₁ s₁ pass := by
  obtain ⟨caches, written, same⟩ := map_eq_some_iff.1 ends
  cases same
  rw [finishRow, written]

/-- **A row is counted in the state that `rowEnd` says.** -/
theorem execNoDBPlan_of_rowEnd {rel : Relation D} {w w₁ : World D} {s₁ : Scan D} (ends : rowEnd rel w s = some (w₁, s₁)) :
    ∃ pass, execNoDBPlan rel w s = advance rel w₁ s₁ pass := by
  simp only [rowEnd] at ends
  -- the executor is only unfolded where the row has been read, so that its tests can be rewritten
  split at ends
  · next plan =>
    split at ends
    · next read =>
      split at ends
      · cases ends
      · next fetched =>
        refine ⟨true, ?_⟩
        simp only [execNoDBPlan, plan, noDBExecPlan, read, fetched]
        exact finishRow_of_writtenRow ends
    · cases ends
  · next plan =>
    split at ends
    · next read =>
      split at ends
      · cases ends
      · next fetched =>
        split at ends
        · next passes =>
          split at ends
          · cases ends
          · next rest =>
            refine ⟨true, ?_⟩
            simp only [execNoDBPlan, plan, noDBExecPlanWithFilters, read, fetched, if_pos passes, rest]
            exact finishRow_of_writtenRow ends
        · next fails =>
          refine ⟨false, ?_⟩
          simp only [execNoDBPlan, plan, noDBExecPlanWithFilters, read, fetched, if_neg fails]
          exact finishRow_of_writtenRow ends
    · cases ends
  · next plan =>
    obtain ⟨values, read, same⟩ := map_eq_some_iff.1 ends
    cases same
    exact ⟨true, by simp only [execNoDBPlan, plan, noDBExecPlanCacheOnly, read]⟩
  · next plan =>
    split at ends
    · cases ends
    · next read =>
      split at ends
      · next passes =>
        obtain ⟨values, rest, same⟩ := map_eq_some_iff.1 ends
        cases same
        exact ⟨true, by simp only [execNoDBPlan, plan, noDBExecPlanWithFiltersCacheOnly, read, if_pos passes, rest]⟩
      · next fails =>
        cases ends
        exact ⟨false, by simp only [execNoDBPlan, plan, noDBExecPlanWithFiltersCacheOnly, read, if_neg fails]⟩

/-! ### Runs -/

/-- The scans that are active, by number. -/
abbrev ActiveScans (D : Type) := Nat → Option (Scan D)

/-- **Scans of one relation in any order**: the world that a run leaves, its active scans, and the calls of
`BuildMatrix` so far. -/
inductive Interleaved (rel : Relation D) (w₀ : World D) : World D → ActiveScans D → List (PlanCall D) → Prop where
  | begin : Interleaved rel w₀ w₀ (fun _ => none) []
  /-- a scan is set up -/
  | start {w : World D} {scans : ActiveScans D} {calls : List (PlanCall D)} (before : Interleaved rel w₀ w scans calls)
      (id : Nat) (free : scans id = none) (q : Query D) :
      Interleaved rel w₀ (noDBScanStateInit rel w q).1
        (Function.update scans id (some (noDBScanStateInit rel w q).2)) (calls ++ startCalls rel w q)
  /-- a scan is asked for a row -/
  | row {w : World D} {scans : ActiveScans D} {calls : List (PlanCall D)} (before : Interleaved rel w₀ w scans calls)
      (id : Nat) {s : Scan D} (here : scans id = some s) :
      Interleaved rel w₀ (execNoDBPlan rel w s).2.1 (Function.update scans id (some (execNoDBPlan rel w s).2.2))
        (calls ++ rowCalls rel w s)
  /-- a scan is restarted -/
  | rescan {w w' : World D} {scans : ActiveScans D} {calls : List (PlanCall D)} (before : Interleaved rel w₀ w scans calls)
      (id : Nat) {s s' : Scan D} (here : scans id = some s) (again : noDBScanStateReInit rel w s = some (w', s')) :
      Interleaved rel w₀ w' (Function.update scans id (some s')) (calls ++ rescanCalls rel w s)
  /-- the query of a scan ends -/
  | stop {w : World D} {scans : ActiveScans D} {calls : List (PlanCall D)} (before : Interleaved rel w₀ w scans calls)
      (id : Nat) {s : Scan D} (here : scans id = some s) :
      Interleaved rel w₀ (endQuery w s) (Function.update scans id none) calls
  /-- the query of a scan ends with an error, without clean-up -/
  | abort {w : World D} {scans : ActiveScans D} {calls : List (PlanCall D)} (before : Interleaved rel w₀ w scans calls)
      (id : Nat) : Interleaved rel w₀ w (Function.update scans id none) calls

/-! ### What the rows of a call are -/

/-- The rows of a call are those between which no cache begins or ends, or 10000 rows. -/
def PlanCall.Shaped (call : PlanCall D) : Prop :=
  call.rows = getInterestingRows call.caches ∨ ∃ row, call.rows = [row, row + defaultRows]

theorem shaped_getCalls {it : StrategyIterator} : ∀ call ∈ getCalls it caches, call.Shaped := by
  intro call mem
  unfold getCalls at mem
  split at mem
  · rw [mem_singleton.1 mem]
    exact .inr ⟨it.nextRow, rfl⟩
  · exact absurd mem not_mem_nil

theorem shaped_firstCalls {byValue : Nat → Bool} {q : QueryInfo} :
    ∀ call ∈ firstCalls byValue q caches, call.Shaped := by
  intro call mem
  rcases mem_append.1 mem with first | get
  · unfold iteratorCalls at first
    split at first
    · exact absurd first not_mem_nil
    · rw [mem_singleton.1 first]
      exact .inl rfl
  · exact shaped_getCalls call get

theorem shaped_updateCalls {rel : Relation D} {w : World D} : ∀ call ∈ updateCalls rel w s, call.Shaped := by
  intro call mem
  unfold updateCalls at mem
  split at mem
  · split at mem
    · exact shaped_getCalls call mem
    · exact absurd mem not_mem_nil
  · exact absurd mem not_mem_nil

theorem shaped_rowCalls {rel : Relation D} {w : World D} : ∀ call ∈ rowCalls rel w s, call.Shaped := by
  intro call mem
  unfold rowCalls at mem
  split at mem
  · exact absurd mem not_mem_nil
  · split at mem
    · exact shaped_updateCalls call mem
    · exact absurd mem not_mem_nil

theorem shaped_rescanCalls {rel : Relation D} {w : World D} : ∀ call ∈ rescanCalls rel w s, call.Shaped := by
  intro call mem
  unfold rescanCalls at mem
  simp only at mem
  split at mem
  · split at mem
    · exact shaped_firstCalls call mem
    · exact absurd mem not_mem_nil
  · exact shaped_firstCalls call mem

variable {rel : Relation D} {w₀ w : World D} {scans : ActiveScans D} {calls : List (PlanCall D)}

/-- **The rows of every call of a run.** -/
theorem Interleaved.shaped (run : Interleaved rel w₀ w scans calls) : ∀ call ∈ calls, call.Shaped := by
  have append : ∀ {earlier later : List (PlanCall D)}, (∀ call ∈ earlier, call.Shaped) →
      (∀ call ∈ later, call.Shaped) → ∀ call ∈ earlier ++ later, call.Shaped :=
    fun first second call mem => (mem_append.1 mem).elim (first call) (second call)
  induction run with
  | begin => exact fun call mem => absurd mem not_mem_nil
  | start before id free q ih => exact append ih shaped_firstCalls
  | row before id here ih => exact append ih shaped_rowCalls
  | rescan before id here again ih => exact append ih shaped_rescanCalls
  | stop before id here ih => exact ih
  | abort before id ih => exact ih

/-- A call that finds no cache with its first and its last row stays inside. -/
theorem PlanCall.Shaped.inside (shaped : call.Shaped) (onTime : call.OnTime) : call.Inside := by
  have ends : EndsBefore call.rows call.caches := by
    rcases shaped with rows | ⟨row, rows⟩
    · rw [rows]
      exact endsBefore_getInterestingRows call.caches
    · intro cache mem a inside has
      rw [rows] at inside has ⊢
      obtain rfl : a = 0 := Nat.lt_one_iff.1 inside
      exact onTime row rows cache mem has
  exact ends.buildMatrix call.info

/-- **The marking loops stay inside the row vector**, in whatever order the scans of a relation take their steps, as
long as no cache has the row at which a scan goes on behind its nodes and the one 10000 rows behind that. -/
theorem Interleaved.marking_inside (run : Interleaved rel w₀ w scans calls) (onTime : ∀ call ∈ calls, call.OnTime) :
    ∀ call ∈ calls, call.Inside :=
  fun call mem => (run.shaped call mem).inside (onTime call mem)

/-! ### Rows of caches only

A scan whose columns another scan has locked plans without changing the caches, and is served from them. -/

/-- Row steps of one scan. -/
theorem Interleaved.rows (run : Interleaved rel w₀ w scans calls) (id : Nat) (here : scans id = some s) (n : Nat) :
    ∃ more, Interleaved rel w₀ (runRows rel n w s).world
      (Function.update scans id (some (runRows rel n w s).scan)) (calls ++ more) := by
  induction n generalizing w s scans calls with
  | zero =>
    refine ⟨[], ?_⟩
    rw [append_nil]
    change Interleaved rel w₀ w (Function.update scans id (some s)) calls
    rwa [← here, update_eq_self]
  | succ n ih =>
    have next := run.row id here
    rcases step : execNoDBPlan rel w s with ⟨⟨values, pass⟩ | _ | e | _, w', s'⟩
    all_goals rw [step] at next
    · obtain ⟨more, rest⟩ := ih next (update_self ..)
      rw [update_idem, append_assoc] at rest
      rw [runRows_of_tuple step]
      exact ⟨_, rest⟩
    · rw [runRows_of_done step]
      exact ⟨_, next⟩
    · rw [runRows_of_error step]
      exact ⟨_, next⟩
    · rw [runRows_of_fault step]
      exact ⟨_, next⟩

/-- The slots of the rows can be read. -/
def ServedBy (entries : List ColumnsPerCache) (caches : List (Cache D)) (r : Nat) : Prop :=
  ∀ entry ∈ entries, ∃ cache, caches[entry.cache]? = some cache ∧ cache.hasBuffer r = true

theorem ServedBy.readCaches {entries : List ColumnsPerCache} {r : Nat} (served : ServedBy entries caches r)
    (values : Nat → Value D) : ∃ values', PostgresRaw.readCaches caches r entries values = some values' := by
  have all : ∃ values', PostgresRaw.readCaches caches r entries values = some values' ∧ True := by
    refine Lists.foldlM_isSome (fun _ => True) trivial fun {entry values} mem _ => ?_
    obtain ⟨cache, here, buffer⟩ := served entry mem
    refine ⟨fun c => if c ∈ entry.cols then (cache.cells c r).value else values c, ?_, trivial⟩
    rw [here]
    exact if_pos (.inr buffer)
  obtain ⟨values', read, -⟩ := all
  exact ⟨values', read⟩

theorem rowEnd_cacheOnly {s : Scan D} (exec : s.execPlan = .cacheOnly) {values : Nat → Value D}
    (read : readCaches w.caches s.processed s.plan.curStrategy.readPostFilterWithCache s.values = some values) :
    rowEnd rel w s = some (w, { s with values := values }) := by
  unfold rowEnd
  rw [exec, read]
  rfl

/-- The scan behind `n` rows of caches only. -/
def Scan.served (s : Scan D) (n : Nat) (values : Nat → Value D) : Scan D :=
  { s with values := values, processed := s.processed + n, plan := { s.plan with nMin := s.plan.nMin - n } }

/-- **Rows of a node of caches only** leave the world as it is. -/
theorem runRows_cacheOnly {s : Scan D} (exec : s.execPlan = .cacheOnly) {n : Nat} (ahead : (n : Int) < s.plan.nMin)
    (served : ∀ k < n, ServedBy s.plan.curStrategy.readPostFilterWithCache w.caches (s.processed + k)) :
    ∃ tuples values, runRows rel n w s = ⟨tuples, none, w, s.served n values⟩ := by
  induction n with
  | zero => exact ⟨[], s.values, by simp [runRows, Scan.served]⟩
  | succ n ih =>
    obtain ⟨tuples, values, run⟩ := ih (by omega) fun k less => served k (by omega)
    obtain ⟨values', read⟩ := (served n (Nat.lt_add_one n)).readCaches values
    obtain ⟨pass, step⟩ := execNoDBPlan_of_rowEnd
      (@rowEnd_cacheOnly D rel w (s.served n values) exec values' read)
    rw [advance_of_more (show s.plan.nMin - n - 1 ≠ 0 by omega)] at step
    have next : Scan.counted { s.served n values with values := values' } = s.served (n + 1) values' := by
      have left : s.plan.nMin - n - 1 = s.plan.nMin - (n + 1 : Nat) := by omega
      simp only [Scan.counted, Scan.served, left]
      rfl
    rw [next] at step
    exact ⟨_, values', runRows_succ_of_tuple (by rw [run]) (by rw [run]; exact step)⟩

variable {header : List Byte} {records : List (PlainRecord rel.fmt rel.natts)} {task : Task D} {phase : Phase D}

/-- Without columns to write, planning leaves the caches as they are. -/
theorem Phase.Valid.planning_caches (valid : phase.Valid rel records task) (idle : ∀ t, task.info.write t = []) :
    (phase.planning task).caches = phase.base := by
  have unmarked : ∀ a c t i, ((phase.planning task).matrix a c).mark t ≠ .add i := by
    intro a c t i mark
    have writes := ((valid.ready t).planned.add (Mark.added_eq_some.2 mark)).1
    rw [idle t] at writes
    cases writes
  have misses : (handleMisses task.info phase.rows ⟨phase.base, markHits task.info phase.rows phase.base⟩).caches =
      phase.base := by
    refine handleMisses_induction (I := fun p => p.caches = phase.base) rfl fun _ _ same outcome => ?_
    cases outcome with
    | settled => exact same
    | miss => exact same
    | grow _ writes => simp [idle] at writes
    | add _ writes => simp [idle] at writes
    | create _ writes => simp [idle] at writes
  exact (growToLastRow_of_unmarked _ _ _ fun c t i => unmarked _ c t i).trans misses

/-! ### A scan that is overtaken

A file is read for the first time.  When the scan has read 10000 rows, its caches end there; a second scan of the same
columns that starts now gets a node of these rows, and no locks.  If the first scan then goes on to the end of a
file of more than 20000 rows, the caches have all of them when the second one gets to the end of its node. -/

variable (rel records task) in
/-- A phase of a file that is read for the first time. -/
def Phase.Steady (phase : Phase D) : Prop :=
  phase.Even rel records task ∧ ∃ k, phase.rows = [k * defaultRows, (k + 1) * defaultRows]

theorem goesOn_steady : GoesOn rel records task (Phase.Steady rel records task) := by
  intro phase phase' valid ⟨even, k, rows⟩ follows
  refine ⟨goesOn_even valid even follows, ?_⟩
  rcases follows with rfl | ⟨-, caches, rfl, -⟩
  · exact ⟨k, rows⟩
  · refine ⟨k + 1, ?_⟩
    rw [Phase.next, even.count_eq, Phase.row, rows, Nat.add_mul (k + 1) 1, Nat.one_mul]
    rfl

theorem underway_first (plain : PlainRelation rel header records) (nonempty : records ≠ [])
    (formed : q.Formed rel.natts) (stop : Nat) :
    Underway header records (World.initial.frame q False stop) (World.initial.task q)
      (Phase.Steady rel records (World.initial.task q)) (noDBScanStateInit rel World.initial q).1
      (noDBScanStateInit rel World.initial q).2 := by
  have completed : Completed header records World.initial := completed_initial
  have tended := completed.tended nonempty
  have even := completed.even nonempty (World.initial.task q)
  refine ⟨World.initial.phase, tended.valid q, 0, ⟨even, 0, ?_⟩, .inl ?_⟩
  · rw [Nat.zero_mul, zero_add, Nat.one_mul]
    rfl
  · exact tended.start q plain (fun _ => completed.smooth nonempty formed stop) (.inr ((tended.valid q).fits even.count_eq))

/-- A scan that has read the first 10000 rows, with the rest of the file ahead. -/
structure Halfway (header : List Byte) (records : List (PlainRecord rel.fmt rel.natts)) (q : Query D) (w : World D) :
    Prop where
  tended : Tended header records w
  range : ∀ cache ∈ w.caches, cache.startRow = 0 ∧ cache.endRow = defaultRows
  there : ∀ t, ∀ c ∈ q.readAll, ∃ cache ∈ w.caches, cache.type = t ∧ c ∈ cache.cols
  locked : ∀ c ∈ q.readAll, w.cacheLock c = true ∧ w.pmLock c = true

/-- Where a scan is at the start of the second phase. -/
theorem Executing.halfway {frame : Frame} {valid : phase.Valid rel records task} {j : Nat}
    (executing : Executing header frame valid j s.processed w s) (steady : phase.Steady rel records task)
    (processed : s.processed = defaultRows) (writes : ∀ t, ∀ c ∈ q.readAll, c ∈ task.info.write t)
    (locked : ∀ c ∈ q.readAll, frame.cacheLock c = true ∧ frame.pmLock c = true) : Halfway header records q w := by
  obtain ⟨even, k, rows⟩ := steady
  obtain rfl : j = 0 := by
    have := even.count_eq
    have := executing.inside
    omega
  have first : phase.row 0 = k * defaultRows := by rw [Phase.row, rows]; rfl
  have second : phase.row 1 = (k + 1) * defaultRows := by rw [Phase.row, rows]; rfl
  have node : phase.row 0 ≤ s.processed ∧ s.processed < phase.row 1 := executing.node
  rw [first, second, processed] at node
  obtain rfl : k = 1 := by
    rw [defaultRows] at node
    omega
  rw [Nat.one_mul] at first rows
  have grow : AllGrow task.info defaultRows phase.base := by
    cases even with
    | whole rows' =>
      rw [rows] at rows'
      cases rows'
    | first rows' =>
      rw [rows] at rows'
      cases rows'
    | later rows' grow =>
      rw [rows] at rows'
      cases rows'
      exact grow
  have planned : SameButRoom (phase.planning task).caches phase.base := by
    rw [Phase.planning, rows]
    exact buildMatrix_of_allGrow grow _
  have progress : Progress valid w.caches defaultRows defaultRows := by
    have progress := executing.progress
    rwa [first, processed] at progress
  -- No row of the phase has been read, so a cache is as it was planned.
  have range : ∀ cache ∈ w.caches, cache.startRow = 0 ∧ cache.endRow = defaultRows := by
    intro cache mem
    obtain ⟨i, here⟩ := getElem?_of_mem mem
    obtain ⟨cache', here', type, start, -, cols, -⟩ := progress.shape.symm.exists_of_getElem? here
    obtain ⟨old, there, alike⟩ := planned.exists_of_getElem? here'
    obtain ⟨begins, ends⟩ := grow.range old (mem_of_getElem? there)
    obtain ⟨c, inside⟩ := exists_mem_of_ne_nil _ (valid.built.shaped cache' (mem_of_getElem? here')).2
    have stop := (progress.executed cache'.type).untouched ((lane_has here').2 ⟨rfl, inside⟩)
      fun {a} less before => by
        have := valid.row_le (Nat.zero_le a) (le_of_lt less)
        have before : phase.row a < defaultRows := before
        omega
    rw [lane_stop here] at stop
    have planned : (lane (phase.planning task).caches cache'.type).stop i = cache'.endRow := lane_stop here'
    refine ⟨start.symm.trans ((congrArg Cache.startRow alike).symm.trans begins), stop.trans (planned.trans ?_)⟩
    exact (congrArg Cache.endRow alike).symm.trans ends
  have stops : ∀ t, BookPlan.StopsWell valid.cuts ((phase.planning task).plan t) defaultRows := by
    rintro t a i inside ⟨c, mark⟩ behind
    obtain ⟨cache, here, -⟩ := ((valid.ready t).planned.add mark).2.2.2.1
    obtain ⟨cache', here', -, start, -⟩ := progress.shape.exists_of_getElem? here
    have begins := (range cache' (mem_of_getElem? here')).1
    have behind : defaultRows ≤ phase.row a := behind
    have starts : ((phase.planning task).plan t).start i = cache.startRow := lane_start here
    rw [defaultRows] at behind
    omega
  have halted := executing.halted
  refine ⟨progress.tended stops (by omega) ?_ ?_ halted.known halted.eol, range, fun t c mem => ?_, fun c mem => ?_⟩
  · rw [even.count_eq, second, defaultRows]
    omega
  · rw [← processed]
    exact halted.seen
  · obtain ⟨old, mem', type, inside⟩ := grow.there t c (writes t c mem)
    obtain ⟨i, there⟩ := getElem?_of_mem mem'
    obtain ⟨cache, here, alike⟩ := (show SameButRoom phase.base _ from planned.symm).exists_of_getElem? there
    obtain ⟨cache', here', type', -, -, cols, -⟩ := progress.shape.exists_of_getElem? here
    refine ⟨cache', mem_of_getElem? here', type'.trans ((congrArg Cache.type alike).trans type), ?_⟩
    have same : cache.unallocated.cols = old.unallocated.cols := by rw [alike]
    rw [cols]
    exact (congrArg (c ∈ ·) same).mpr inside
  · rw [executing.locks.1, executing.locks.2]
    exact locked c mem

/-- **Reading the first 10000 rows.** -/
theorem halfway_startAndRun (plain : PlainRelation rel header records) (accepts : AcceptsAll rel records)
    (long : 2 * defaultRows < records.length) (formed : q.Formed rel.natts) {stop : Nat} (far : defaultRows ≤ stop) :
    let run := startAndRun rel defaultRows World.initial q
    Halfway header records q run.world ∧ run.scan.processed = defaultRows ∧
      Underway header records (World.initial.frame q False stop) (World.initial.task q)
        (Phase.Steady rel records (World.initial.task q)) run.world run.scan := by
  have nonempty : records ≠ [] := by
    rintro rfl
    cases long
  have unlocked : (World.initial : World D).Unlocked := fun c => ⟨rfl, rfl⟩
  have ends := ((underway_first plain nonempty formed stop).run (n := defaultRows) goesOn_steady
    (formed.proper (unlocked.free q)) plain ((zero_add _).le.trans far)).1
  change RunEnds header records _ _ _ 0 _ (startAndRun rel defaultRows World.initial q) at ends
  rcases ends with ⟨-, tight⟩ | ⟨-, processed, underway⟩ | ⟨-, few, -⟩ | ⟨-, -, -, record, here, c, mem, rejected⟩
  · exact absurd tight id
  · rw [zero_add] at processed
    refine ⟨?_, processed, underway⟩
    obtain ⟨phase, valid, j, steady, executing | ended⟩ := underway
    · refine executing.halfway steady processed (fun t c mem => (unlocked.mem_task q t).2 mem) fun c mem => ?_
      have taken : c ∈ unlockedCols (fun _ => false) q.readAll := by simpa [unlockedCols] using mem
      simp [World.frame, World.initial, takeLocks, taken]
    · have := ended.processed
      omega
  · omega
  · exact absurd (accepts record (mem_of_getElem? here) c (formed.inside c mem)) rejected


/-- A scan that starts on its first node, which has 10000 rows and is read from caches only. -/
structure Trailing (q : Query D) (w : World D) (s : Scan D) : Prop where
  exec : s.execPlan = .cacheOnly
  processed : s.processed = 0
  unread : s.input.tupleRead = 0
  nMin : s.plan.nMin = defaultRows
  nRows : s.plan.nRows = defaultRows
  tuplesToRead : s.plan.tuplesToRead = defaultRows
  info : s.plan.iterator.queryInfo = (w.task q).info
  last : s.plan.iterator.cur + 1 = s.plan.iterator.strategy.length
  nextRow : s.plan.iterator.nextRow = defaultRows
  idle : ∀ i, s.plan.curStrategy.writesTo i = false
  reads : ∀ entry ∈ s.plan.curStrategy.readPostFilterWithCache, ∃ cache, w.caches[entry.cache]? = some cache

theorem takeLocks_nil (lock : Nat → Bool) : takeLocks lock [] = lock := by
  funext c
  simp [takeLocks]

/-- **A second scan of the columns** changes nothing when it is set up, and gets the rows that are in caches. -/
theorem Halfway.start (halfway : Halfway header records q w) (formed : q.Formed rel.natts) (noQual : q.filter = [])
    (cols : q.readAll ≠ []) {eol : EolCache} (lengths : w.eolCache = some eol) :
    ∃ s, noDBScanStateInit rel w q = (w, s) ∧ Trailing q w s := by
  have tended := halfway.tended
  have noData : (w.task q).writeData = [] :=
    filter_eq_nil_iff.2 fun c mem => by simp [(halfway.locked c mem).1]
  have noPositions : (w.task q).writePositions = [] :=
    filter_eq_nil_iff.2 fun c mem => by simp [(halfway.locked c mem).2]
  have idle : ∀ t, (w.task q).info.write t = [] := by
    intro t
    cases t with
    | data => exact noData
    | positions => exact noPositions
  have proper : (w.task q).Proper rel.natts := formed.proper (.inl noQual)
  obtain ⟨c, mem⟩ := exists_mem_of_ne_nil _ cols
  obtain ⟨cache, inside, -⟩ := halfway.there .data c mem
  have rows : w.phase.rows = [0, defaultRows] := tended.rows_eq (ne_nil_of_mem inside) halfway.range
  have inside : 0 < w.phase.count := by rw [Phase.count, rows]; exact Nat.zero_lt_one
  have valid := tended.valid q
  have row : w.phase.row 1 = defaultRows := by rw [Phase.row, rows]; rfl
  have node : (w.phase.iterator rel.byValue (w.task q) 0).current = w.phase.node rel.byValue (w.task q) 0 :=
    Phase.current_iterator inside
  have nrows : (w.phase.node rel.byValue (w.task q) 0).nrows = defaultRows := by
    rw [Phase.node_nrows, row, tended.row_zero]
    rfl
  have strategy : (w.phase.iterator rel.byValue (w.task q) 0).strategy = [w.phase.node rel.byValue (w.task q) 0] := by
    rw [Phase.iterator, buildStrategy, rows, Phase.node, Phase.planning, Phase.row, Phase.row, rows]
    rfl
  have cacheOnly : w.phase.cacheOnly rel.byValue (w.task q) 0 = true := by
    refine valid.cacheOnly_of_covers proper inside cols (fun c mem => ?_) fun t c writes => ?_
    · obtain ⟨cache, inside, type, has⟩ := halfway.there .data c mem
      obtain ⟨i, here⟩ := getElem?_of_mem inside
      obtain ⟨begins, ends⟩ := halfway.range cache inside
      rw [tended.row_zero]
      exact ⟨i, lane_claims_iff.2 ⟨cache, here, type, has, Cache.hasRow_iff.2 ⟨by omega, by rw [ends, defaultRows]; omega⟩⟩⟩
    · rw [idle t] at writes
      cases writes
  have ahead : ∀ n, rowsAhead (w.phase.node rel.byValue (w.task q) 0) n = defaultRows := by
    intro n
    rw [rowsAhead, if_neg (by rw [show noDBReadFromCacheOnly _ = true from cacheOnly]; simp), nrows]
  have started := noDBScanStateInit_eq inside (@Tended.firstStrategy_eq D rel header records w q tended)
  rw [valid.planning_caches idle, noData, noPositions, lengths] at started
  refine ⟨_, started.trans (Prod.ext ?_ rfl), ?_⟩
  · change World.mk w.caches (some eol) (takeLocks w.cacheLock []) (takeLocks w.pmLock []) w.transcodingDisabled = w
    rw [← lengths, takeLocks_nil, takeLocks_nil]
  · exact {
      exec := by
        rw [noDBGetExecPlan_of_cacheOnly cacheOnly, if_pos noQual]
      processed := rfl
      unread := rfl
      nMin := (congrArg (rowsAhead · _) node).trans (ahead _)
      nRows := (congrArg (fun n => (n.nrows : Int)) node).trans (congrArg (fun n : Nat => (n : Int)) nrows)
      tuplesToRead := (congrArg (rowsAhead · _) node).trans (ahead _)
      info := rfl
      last := by
        change 0 + 1 = (w.phase.iterator rel.byValue (w.task q) 0).strategy.length
        rw [strategy]
        rfl
      nextRow := by
        change (w.phase.iterator rel.byValue (w.task q) 0).nextRow = _
        rw [StrategyIterator.nextRow, strategy, getLast?_singleton]
        change (w.phase.node rel.byValue (w.task q) 0).startRow + (w.phase.node rel.byValue (w.task q) 0).nrows = _
        rw [nrows, Phase.node, strategyNode_startRow, tended.row_zero, zero_add]
      idle := fun i => by
        change (w.phase.iterator rel.byValue (w.task q) 0).current.writesTo i = false
        rw [node]
        by_contra writes
        obtain ⟨t, c, mark⟩ := (valid.writesTo_iff inside).1 (by simpa using writes)
        have writes := ((valid.ready t).planned.add mark).1
        rw [idle t] at writes
        cases writes
      reads := fun entry mem => by
        change entry ∈ (w.phase.iterator rel.byValue (w.task q) 0).current.readPostFilterWithCache at mem
        rw [node] at mem
        have covered := buildStrategy_covered rel.byValue (w.task q).info w.phase.rows tended.shaped.packed (fun a less => by
          rw [rows] at less ⊢
          obtain rfl : a = 0 := Nat.lt_one_iff.1 less
          exact fun cache mem _ => le_of_eq (halfway.range cache mem).2.symm)
        have isNode : w.phase.node rel.byValue (w.task q) 0 ∈
            (buildStrategy rel.byValue (w.task q).info w.phase.rows w.caches).1 := by
          change _ ∈ (w.phase.iterator rel.byValue (w.task q) 0).strategy
          rw [strategy]
          exact mem_singleton_self _
        obtain ⟨cache, here, -⟩ := covered _ isNode entry (by simp [mem])
        have planned : (buildStrategy rel.byValue (w.task q).info w.phase.rows w.caches).2 = w.caches :=
          valid.planning_caches idle
        rw [planned] at here
        exact ⟨cache, here⟩ }

/-- **A hit on a cache that does not end** leads out of the row vector. -/
theorem PlanCall.not_inside {row last col : Nat} {rest : List Nat} (rows : call.rows = [row, last])
    (cols : call.info.cols = col :: rest) (packed : AllPacked call.caches)
    (hit : (lane call.caches .data).Covers col row)
    (beyond : ∀ cache ∈ call.caches, cache.hasRow row = true → cache.hasRow last = true) : ¬ call.Inside := by
  rintro ⟨p, checked⟩
  obtain ⟨m, hits, -⟩ := bind_eq_some_iff.1 checked
  -- The first cell of the first pass.
  have leaves : hitCellChecked call.info call.rows call.caches 0 col .data Matrix.initial = none := by
    rw [rows]
    unfold hitCellChecked
    rw [if_pos (show unsettled call.info Matrix.initial .data 0 col = true from rfl)]
    obtain ⟨i, claims⟩ := hit
    obtain ⟨cache, here, type, has, hasRow⟩ := lane_claims_iff.1 claims
    have candidate : i ∈ getCachesWithRow call.caches .data row :=
      mem_selectCaches.2 ⟨cache, here, by simp [type, hasRow]⟩
    simp only [getD_cons_zero]
    cases best : getBestCacheHit call.caches (getCachesWithRow call.caches .data row) col call.info.readCols with
    | none =>
      have zero := eq_zero_of_bestBy best candidate
      simp [here, (packed.hasColumn here col).2 has] at zero
    | some k =>
      obtain ⟨other, there, chosen⟩ := mem_selectCaches.1 (mem_of_bestBy best).1
      rw [Bool.and_eq_true] at chosen
      have all : walkRows (hasRowOf call.caches k) ([row, last].drop 0) = none := by
        refine walkRows_eq_none.2 fun r mem => ?_
        rw [hasRowOf, there]
        rcases mem_cons.1 mem with rfl | isLast
        · exact chosen.2
        · rw [mem_singleton.1 isLast]
          exact beyond other (mem_of_getElem? there) chosen.2
      simp only [all, map_none]
  rw [markHitsChecked, rows, cols] at hits
  rw [rows] at leaves
  change ((hitCellChecked call.info [row, last] call.caches 0 col .data Matrix.initial).bind _ >>= _) >>= _ = some m at hits
  rw [leaves] at hits
  cases hits

/-- The calls at the end of a node behind which lengths of lines are known. -/
theorem updateCalls_of_known (ended : s.countDown.plan.nRows = 0) (unread : s.input.tupleRead = 0)
    (behind : 0 < s.processed) (known : s.processed < w.eol.usedRows)
    (idle : ∀ i, s.plan.curStrategy.writesTo i = false) :
    updateCalls rel w s = getCalls (noDBScanStrategyIteratorNext s.plan.iterator) w.caches := by
  have still : (finalizeNode w s).caches = w.caches :=
    noDBFinalizeStrategy_eq_self fun {i cache} writes _ => by
      rw [idle i] at writes
      cases writes
  have seek : (s.reader w).tupleRead ≠ s.processed ∧ s.processed ≤ (s.reader w).eolCache.usedRows :=
    ⟨by rw [show (s.reader w).tupleRead = 0 from unread]; omega, le_of_lt known⟩
  have looked : ∃ input, lookAhead rel w (seekToRow rel.headerLine s.processed (s.reader w)) = some (false, input) := by
    unfold seekToRow
    rw [if_pos seek]
    exact ⟨_, if_neg (not_le.2 known)⟩
  obtain ⟨input, looked⟩ := looked
  rw [updateCalls, if_pos ended, looked, still]

/-- The calls of the last row of a node of caches only. -/
theorem rowCalls_of_known (exec : s.execPlan = .cacheOnly) {values : Nat → Value D}
    (read : readCaches w.caches s.processed s.plan.curStrategy.readPostFilterWithCache s.values = some values)
    (due : s.plan.nMin - 1 = 0) (ended : s.counted.countDown.plan.nRows = 0) (unread : s.input.tupleRead = 0)
    (known : s.processed + 1 < w.eol.usedRows) (idle : ∀ i, s.plan.curStrategy.writesTo i = false) :
    rowCalls rel w s = getCalls (noDBScanStrategyIteratorNext s.plan.iterator) w.caches := by
  rw [rowCalls, rowEnd_cacheOnly exec read]
  simp only
  rw [if_pos due]
  exact updateCalls_of_known ended unread (Nat.succ_pos _) known idle

/-- **A scan that is overtaken leaves the row vector** at the end of its node. -/
theorem Trailing.leaves {w' : World D} (trailing : Trailing q w s) (shaped : AllShaped w.caches)
    (kept : ∀ t {i c}, (lane w.caches t).has i c → (lane w'.caches t).has i c) (completed : Completed header records w')
    (covers : ∀ c ∈ q.readAll, ∀ r < records.length, (lane w'.caches .data).Covers c r)
    (proper : (w.task q).Proper rel.natts) (cols : q.readAll ≠ []) (long : 2 * defaultRows < records.length) :
    (runRows rel (defaultRows - 1) w' s).world = w' ∧
      ∃ call ∈ rowCalls rel w' (runRows rel (defaultRows - 1) w' s).scan, ¬ call.Inside := by
  have nonempty : records ≠ [] := by
    rintro rfl
    cases long
  have tended := completed.tended nonempty
  have served : ∀ r < defaultRows, ServedBy s.plan.curStrategy.readPostFilterWithCache w'.caches (s.processed + r) := by
    intro r less entry mem
    obtain ⟨cache, here⟩ := trailing.reads entry mem
    obtain ⟨c, inside⟩ := exists_mem_of_ne_nil _ (shaped cache (mem_of_getElem? here)).2
    obtain ⟨cache', here', -⟩ := kept cache.type ((lane_has here).2 ⟨rfl, inside⟩)
    obtain ⟨begins, ends⟩ := completed.range nonempty cache' (mem_of_getElem? here')
    have room := tended.buffers here'
    refine ⟨cache', here', ?_⟩
    rw [Cache.endRow] at ends
    simp only [Cache.hasBuffer, Bool.and_eq_true, decide_eq_true_eq, trailing.processed]
    omega
  obtain ⟨tuples, values, run⟩ := @runRows_cacheOnly D rel w' s trailing.exec (defaultRows - 1) (by
    rw [trailing.nMin, defaultRows]
    omega) fun k less => served k (by omega)
  rw [run]
  refine ⟨rfl, ?_⟩
  obtain ⟨values', read⟩ := (served (defaultRows - 1) (by rw [defaultRows]; omega)).readCaches values
  -- The last row of the node is read, and the next node is planned.
  have used : records.length ≤ w'.eol.usedRows := by
    obtain ⟨c, mem⟩ := exists_mem_of_ne_nil _ cols
    obtain ⟨i, claims⟩ := covers c mem 0 (by omega)
    obtain ⟨cache, here, -⟩ := lane_claims_iff.1 claims
    rw [← (completed.range nonempty cache (mem_of_getElem? here)).2]
    exact tended.ends here
  have size : (defaultRows : Int) - ((defaultRows - 1 : Nat) : Int) - 1 = 0 := by
    rw [defaultRows]
    omega
  have exec : (s.served (defaultRows - 1) values).execPlan = .cacheOnly := trailing.exec
  have due : (s.served (defaultRows - 1) values).plan.nMin - 1 = 0 := by
    change s.plan.nMin - _ - 1 = 0
    rw [trailing.nMin, size]
  have ended : (s.served (defaultRows - 1) values).counted.countDown.plan.nRows = 0 := by
    have positive : 0 < s.plan.nRows := by
      rw [trailing.nRows, defaultRows]
      omega
    refine (@countDown_nRows D (s.served (defaultRows - 1) values).counted positive).trans ?_
    change s.plan.nRows - s.plan.tuplesToRead = 0
    rw [trailing.nRows, trailing.tuplesToRead, Int.sub_self]
  have known : (s.served (defaultRows - 1) values).processed + 1 < w'.eol.usedRows := by
    change s.processed + (defaultRows - 1) + 1 < _
    rw [trailing.processed]
    omega
  have calls : rowCalls rel w' (s.served (defaultRows - 1) values) =
      [⟨s.plan.iterator.queryInfo, [s.plan.iterator.nextRow, s.plan.iterator.nextRow + defaultRows], w'.caches⟩] :=
    (rowCalls_of_known exec read due ended trailing.unread known trailing.idle).trans (if_pos trailing.last)
  rw [trailing.nextRow] at calls
  refine ⟨_, by rw [calls]; exact mem_singleton_self _, ?_⟩
  obtain ⟨c, mem⟩ := exists_mem_of_ne_nil _ cols
  obtain ⟨first, rest, isFirst⟩ := exists_cons_of_ne_nil (ne_nil_of_mem (proper.mem_cols.2 mem))
  have inside : first ∈ q.readAll := proper.mem_cols.1 (by
    rw [isFirst]
    exact mem_cons_self ..)
  refine PlanCall.not_inside rfl (show s.plan.iterator.queryInfo.cols = first :: rest by rw [trailing.info, isFirst]) tended.shaped.packed
    (covers first inside _ (by omega)) fun cache mem _ => ?_
  obtain ⟨begins, ends⟩ := completed.range nonempty cache mem
  exact Cache.hasRow_iff.2 ⟨by omega, by omega⟩

/-- The scan that reads the file first goes on to the end. -/
theorem Underway.completes (plain : PlainRelation rel header records) (accepts : AcceptsAll rel records)
    (formed : q.Formed rel.natts) (processed : s.processed = defaultRows) (underway : Underway header records
      (World.initial.frame q False (defaultRows + (records.length + 1))) (World.initial.task q)
      (Phase.Steady rel records (World.initial.task q)) w s) : let run := runRows rel (records.length + 1) w s
    Completed header records (endQuery run.world run.scan) ∧
      ∀ t, ∀ c ∈ q.readAll, ∀ r < records.length, (lane (endQuery run.world run.scan).caches t).Covers c r := by
  have unlocked : (World.initial : World D).Unlocked := fun c => ⟨rfl, rfl⟩
  have ends := (underway.run goesOn_steady (formed.proper (unlocked.free q)) plain
    (show s.processed + (records.length + 1) ≤ defaultRows + (records.length + 1) by omega)).1
  generalize runRows rel (records.length + 1) w s = run at ends ⊢
  rcases ends with ⟨-, tight⟩ | ⟨-, processed, underway⟩ | ⟨-, -, processed, left⟩ | ⟨-, -, -, record, here, c, mem, rejected⟩
  · exact absurd tight id
  · have := underway.processed_le
    omega
  · obtain ⟨phase, valid, j, steady, halted⟩ := left
    exact completed_initial.left ⟨phase, valid, j, steady.1, halted⟩ processed
  · exact absurd (accepts record (mem_of_getElem? here) c (formed.inside c mem)) rejected

/-- A scan has set up the EOL cache. -/
theorem rowsKeep_eolCache (rel : Relation D) : RowsKeep rel fun w => ∃ eol, w.eolCache = some eol where
  write _ inv := inv
  finalize _ _ _ inv := inv
  plan _ _ _ inv := inv
  eol _ _ _ := ⟨_, rfl⟩

/-- **Two scans of a file of more than 20000 rows** in an order in which `BuildMatrix` leaves the row vector. -/
theorem exists_not_inside (plain : PlainRelation rel header records) (accepts : AcceptsAll rel records)
    (long : 2 * defaultRows < records.length) (formed : q.Formed rel.natts) (noQual : q.filter = [])
    (cols : q.readAll ≠ []) :
    ∃ w scans calls, Interleaved rel .initial w scans calls ∧ ∃ call ∈ calls, ¬ call.Inside := by
  -- The first scan reads 10000 rows.
  have first : Interleaved rel .initial _ _ _ := .start .begin 0 rfl q
  obtain ⟨more, first⟩ := first.rows 0 (update_self ..) defaultRows
  obtain ⟨halfway, processed, underway⟩ :=
    halfway_startAndRun plain accepts long formed (Nat.le_add_right defaultRows (records.length + 1))
  have lengths : ∃ eol, (startAndRun rel defaultRows World.initial q).world.eolCache = some eol :=
    (rowsKeep_eolCache rel).runRows defaultRows ⟨_, rfl⟩
  change Interleaved rel .initial (startAndRun rel defaultRows World.initial q).world
    (Function.update _ 0 (some (startAndRun rel defaultRows World.initial q).scan)) _ at first
  generalize startAndRun rel defaultRows World.initial q = run at halfway processed underway lengths first
  obtain ⟨eol, lengths⟩ := lengths
  -- The second scan starts.
  obtain ⟨s, started, trailing⟩ := halfway.start formed noQual cols lengths
  have second := first.start 1 (by simp) q
  rw [started] at second
  -- The first scan goes on to the end, and its query ends.
  obtain ⟨more', third⟩ := second.rows 0 (show _ = some run.scan by simp) (records.length + 1)
  obtain ⟨completed, covers⟩ := underway.completes plain accepts formed processed
  have kept := (cachesKept_columns rel.byValue run.world.caches).finalize
    (runRows rel (records.length + 1) run.world run.scan).scan.plan.curStrategy
    (runRows rel (records.length + 1) run.world run.scan).scan.processed
    ((cachesKept_columns rel.byValue run.world.caches).world.runRows (s := run.scan) (records.length + 1)
      (show _ ∧ _ from ⟨halfway.tended.shaped.packed, fun t _ _ has => has⟩))
  have fourth := third.stop 0 (update_self ..)
  -- The second scan gets to the end of its node.
  obtain ⟨still, call, mem, leaves⟩ := trailing.leaves halfway.tended.shaped kept.2 completed (covers .data)
    (formed.proper (.inl noQual)) cols long
  obtain ⟨more'', fifth⟩ := fourth.rows 1 (show _ = some s by simp) (defaultRows - 1)
  rw [still] at fifth
  exact ⟨_, _, _, fifth.row 1 (update_self ..), call, mem_append_right _ mem, leaves⟩

/-- A call that finds no rows in use is on time. -/
theorem PlanCall.onTime_of_unused (unused : ∀ cache ∈ call.caches, cache.usedRows = 0) : call.OnTime := by
  intro row _ cache mem hasRow
  obtain ⟨first, last⟩ := Cache.hasRow_iff.1 hasRow
  rw [Cache.endRow, unused cache mem] at last
  omega

end

/-- Two scans of the three rows are set up. -/
theorem Interleaved.marking_inside_twoScans :
    let w := (noDBScanStateInit threeRows .initial (selectColumn 0 0)).1
    let calls := [] ++ startCalls threeRows .initial (selectColumn 0 0) ++ startCalls threeRows w (selectColumn 1 0)
    calls ≠ [] ∧ ∀ call ∈ calls, call.Inside := by
  have unused : ∀ call ∈ [] ++ startCalls threeRows .initial (selectColumn 0 0) ++
      startCalls threeRows (noDBScanStateInit threeRows .initial (selectColumn 0 0)).1 (selectColumn 1 0),
      ∀ cache ∈ call.caches, cache.usedRows = 0 := by
    decide +kernel
  have run : Interleaved threeRows .initial _ _ _ :=
    .start (.start .begin 0 rfl (selectColumn 0 0)) 1 rfl (selectColumn 1 0)
  exact ⟨cons_ne_nil _ _, run.marking_inside fun call mem => PlanCall.onTime_of_unused (unused call mem)⟩

/-- The record `1,2,3`. -/
def smallRecord : PlainRecord threeRows.fmt threeRows.natts := threeRecords.head (cons_ne_nil _ _)

/-- A file of `n` lines `1,2,3`. -/
def manyRows (n : Nat) : Relation Nat :=
  { threeRows with file := ((List.replicate n smallRecord).map (·.line ++ [newline])).flatten }

def manyRecords (n : Nat) : List (PlainRecord (manyRows n).fmt (manyRows n).natts) := List.replicate n smallRecord

theorem length_manyRecords (n : Nat) : (manyRecords n).length = n := length_replicate

theorem plain_manyRows (n : Nat) : PlainRelation (manyRows n) [] (manyRecords n) := ⟨rfl, fun _ => rfl, nofun, rfl⟩

/-- **Two scans of 20001 rows** in an order in which a loop of `BuildMatrix` leaves the row vector. -/
theorem Interleaved.not_marking_inside_manyRows :
    ¬ ∀ {w : World Nat} {scans : ActiveScans Nat} {calls : List (PlanCall Nat)},
      Interleaved (manyRows 20001) .initial w scans calls → ∀ call ∈ calls, call.Inside := by
  intro inside
  have proper : (selectColumn 0 0).Proper 3 := proper_selectColumn (by decide) 0
  obtain ⟨w, scans, calls, run, call, mem, leaves⟩ := exists_not_inside (plain_manyRows 20001) (fun _ _ _ _ => ⟨_, rfl⟩)
    (by rw [length_manyRecords, defaultRows]; omega) proper.toFormed rfl (cons_ne_nil 0 [])
  exact leaves (inside run call mem)

end PostgresRaw
