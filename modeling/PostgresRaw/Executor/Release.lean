import PostgresRaw.Executor.Chunks
import PostgresRaw.Scan.Kept

/-!
# Locks at the end of a query

`ExecutePlan2` sets up all scans of a plan, and each of them takes the locks of its columns.  They are
released in the branch that sees the end of the plan, and nowhere else: the exit at the tuple count and
an error, of a row or of the set-up, leave them all.

While the plan runs, exactly the columns of the scans that have been set up are locked besides those
that were locked before (`Locked`); rescans change nothing about that.  `noLockLeft_iff` follows for
every way to end.
-/

namespace PostgresRaw

open Function List

section

variable {D : Type}

/-- `CacheLock` or `PMLock`. -/
def World.lock (w : World D) : CacheType → Nat → Bool
  | .data => w.cacheLock
  | .positions => w.pmLock

/-! ### One scan -/

variable {rel : Relation D} {w w' : World D} {s s' : Scan D}

/-- Row steps leave the locks alone. -/
theorem rowsKeep_lock (rel : Relation D) (lock : CacheType → Nat → Bool) : RowsKeep rel fun w => w.lock = lock where
  write _ same := same
  finalize _ _ _ same := same
  plan _ _ _ same := same
  eol _ _ same := same

theorem noDBUpdateStrategy_query (updated : noDBUpdateStrategy rel w s = some (w', s')) : s'.query = s.query := by
  obtain ⟨-, -, rfl⟩ | ⟨-, ended, input, -, result⟩ := noDBUpdateStrategy_cases updated
  · rfl
  · cases ended <;> cases result <;> rfl

theorem advance_query (rel : Relation D) (w : World D) (s : Scan D) (pass : Bool) :
    (advance rel w s pass).2.2.query = s.query := by
  rcases advance_cases rel w s pass with ⟨-, result⟩ | ⟨-, -, result⟩ | ⟨-, w', s', updated, result⟩
  · rw [result]
    rfl
  · rw [result]
    rfl
  · rw [result]
    exact (noDBUpdateStrategy_query updated :)

theorem readLine_query {result : ReadResult} (read : readLine rel w s = (result, w', s')) : s'.query = s.query :=
  (congrArg (fun read : ReadResult × World D × Scan D => read.2.2.query) read).symm

/-- Row steps leave the query of the scan alone. -/
theorem execNoDBPlan_query (rel : Relation D) (w : World D) (s : Scan D) :
    (execNoDBPlan rel w s).2.2.query = s.query := by
  have outcome := execNoDBPlan_outcome rel w s
  generalize execNoDBPlan rel w s = out at outcome
  cases outcome with
  | outside => rfl
  | cached _ values pass => exact advance_query ..
  | ended _ read => exact readLine_query read
  | failed _ read => exact readLine_query read
  | unwritten _ read => exact (readLine_query read :)
  | row _ read row pass => exact (advance_query ..).trans (readLine_query read :)

/-- A scan that starts has all its columns locked. -/
theorem noDBScanStateInit_lock (rel : Relation D) (w : World D) (q : Query D) (t : CacheType) (c : Nat) :
    (noDBScanStateInit rel w q).1.lock t c = true ↔ w.lock t c = true ∨ c ∈ q.readAll := by
  have taken : ∀ lock : Nat → Bool, takeLocks lock (unlockedCols lock q.readAll) c = true ↔
      lock c = true ∨ c ∈ q.readAll := by
    intro lock
    rw [LockState.takeLocks_iff, LockState.mem_unlockedCols]
    cases lock c <;> simp
  cases t with
  | data => exact taken w.cacheLock
  | positions => exact taken w.pmLock

/-- A scan with all its columns locked has them locked after a rescan. -/
theorem noDBScanStateReInit_lock (rescanned : noDBScanStateReInit rel w s = some (w', s'))
    (locked : ∀ t, ∀ c ∈ s.query.readAll, w.lock t c = true) :
    s'.query = s.query ∧ ∀ t c, w'.lock t c = true ↔ w.lock t c = true := by
  have renewed : ∀ t held c, (renewLocks (w.lock t) s.query.readAll held).2 c = true ↔ w.lock t c = true := by
    intro t held c
    rcases LockState.renewLocks_cases (w.lock t) s.query.readAll held with ⟨-, -, lock⟩ | ⟨-, -, lock⟩
    · rw [lock]
      exact or_iff_left_of_imp (locked t c)
    · exact lock c
  obtain ⟨input, ⟨-, rfl, rfl⟩ | result⟩ := noDBScanStateReInit_cases rescanned
  · exact ⟨rfl, fun t c => Iff.rfl⟩
  · cases result
    refine ⟨rfl, fun t c => ?_⟩
    cases t with
    | data => exact renewed .data s.writeDataCols c
    | positions => exact renewed .positions s.writePositionCols c

/-- The end of a query releases the locks of its columns. -/
theorem endQuery_lock (w : World D) (s : Scan D) (t : CacheType) (c : Nat) :
    (endQuery w s).lock t c = true ↔ w.lock t c = true ∧ c ∉ s.query.readAll := by
  cases t with
  | data => exact LockState.releaseLocks_iff
  | positions => exact LockState.releaseLocks_iff

end

/-! ### The scans of a plan -/

section

variable {D σ T : Type} {db : Database D} {d : QueryDescriptor}

/-- **The locks while a plan runs**: those from before, and those of the columns of its scans. -/
structure Locked (db : Database D) (d : QueryDescriptor) (opened : List (PlanScan D)) (before : Nat → World D)
    (st : ExecState D) : Prop where
  queries : st.scans.map Scan.query = opened.map (scanQuery db d)
  lock : ∀ r t c, (st.worlds r).lock t c = true ↔
    (before r).lock t c = true ∨ ∃ scan ∈ opened, scan.relation = r ∧ c ∈ (scanQuery db d scan).readAll

theorem startScans_append (db : Database D) (scans : List (PlanScan D)) (scan : PlanScan D) (st : ExecState D) :
    startScans db (scans ++ [scan]) st =
      let st' := startScans db scans st
      let ws := noDBScanStateInit (db.rel scan.relation) (st'.worlds scan.relation) (scanQuery db st'.descriptor scan)
      { st' with worlds := Function.update st'.worlds scan.relation ws.1, scans := st'.scans ++ [ws.2] } := by
  unfold startScans
  rw [foldl_append]
  rfl

/-- Setting up scans takes the locks of their columns. -/
theorem locked_startScans (db : Database D) (opened : List (PlanScan D)) (st : ExecState D) :
    (startScans db opened st).descriptor = st.descriptor ∧
      Locked db st.descriptor opened st.worlds (startScans db opened st) := by
  induction opened using List.reverseRecOn with
  | nil => exact ⟨rfl, rfl, fun r t c => by simp [startScans]⟩
  | append_singleton opened scan ih =>
    obtain ⟨descriptor, queries, lock⟩ := ih
    rw [startScans_append]
    refine ⟨descriptor, ?_, fun r t c => ?_⟩
    · simp only [map_append, queries, map_singleton, descriptor]
      rfl
    · simp only [descriptor, mem_append, mem_singleton, or_and_right, exists_or, exists_eq_left]
      by_cases here : r = scan.relation
      · subst here
        rw [update_self, noDBScanStateInit_lock, lock]
        simp only [true_and, or_assoc]
      · rw [update_of_ne here, lock]
        simp only [Ne.symm here, false_and, or_false]

namespace Locked

variable {opened : List (PlanScan D)} {before : Nat → World D} {st : ExecState D} {i : Nat} {scan : PlanScan D}
  {s : Scan D}

variable (locked : Locked db d opened before st)

include locked

theorem query (node : opened[i]? = some scan) (active : st.scans[i]? = some s) : s.query = scanQuery db d scan := by
  have same := congrArg (·[i]?) locked.queries
  rw [getElem?_map, getElem?_map, node, active] at same
  exact Option.some.inj same

/-- All columns of an active scan are locked. -/
theorem own (node : opened[i]? = some scan) (active : st.scans[i]? = some s) (t : CacheType) {c : Nat}
    (mem : c ∈ s.query.readAll) : (st.worlds scan.relation).lock t c = true := by
  rw [locked.query node active] at mem
  exact (locked.lock ..).2 (.inr ⟨scan, mem_of_getElem? node, rfl, mem⟩)

/-- A scan that goes on with its query and leaves the locks. -/
theorem store (active : st.scans[i]? = some s) {r : Nat} {w' : World D} {s' : Scan D} (query : s'.query = s.query)
    (lock : ∀ t c, w'.lock t c = true ↔ (st.worlds r).lock t c = true) :
    Locked db d opened before (st.store i r w' s') := by
  refine ⟨?_, fun r' t c => ?_⟩
  · rw [← locked.queries]
    apply ext_getElem?
    intro k
    rw [ExecState.store, getElem?_map, getElem?_map, getElem?_set]
    split
    · next here =>
      subst here
      obtain ⟨inside, -⟩ := List.getElem?_eq_some_iff.1 active
      rw [if_pos inside, active, Option.map_some, Option.map_some, query]
    · rfl
  · rw [← locked.lock, ExecState.store]
    by_cases here : r' = r
    · subst here
      simp only [update_self]
      exact lock t c
    · simp only [update_of_ne here]

end Locked

variable {plan : Plan D σ T} {before : Nat → World D} {c : σ × ExecState D}

/-- One step of a plan. -/
theorem Locked.step (locked : Locked db d plan.scans before c.2) :
    Locked db d plan.scans before (plan.step db c).next.2 := by
  unfold Plan.step
  split
  · split
    · next i _ _ _ scan s node active =>
      have kept : (execNoDBPlan (db.rel scan.relation) (c.2.worlds scan.relation) s).2.1.lock =
          (c.2.worlds scan.relation).lock := (rowsKeep_lock _ _).execNoDBPlan rfl
      have query := execNoDBPlan_query (db.rel scan.relation) (c.2.worlds scan.relation) s
      have stored := locked.store active query fun t c => by rw [kept]
      split <;> next result => rw [result] at stored; exact stored
    · exact locked
  · split
    · next i _ _ _ scan s node active =>
      split
      · next rescanned =>
        obtain ⟨query, lock⟩ := noDBScanStateReInit_lock rescanned fun t c => locked.own node active t
        exact locked.store active query lock
      · exact locked
    · exact locked
  · exact locked
  · exact locked

/-- Ending a query releases the locks of all its scans. -/
theorem foldl_endQuery_lock (pairs : List (PlanScan D × Scan D)) (worlds : Nat → World D) (r : Nat) (t : CacheType)
    (c : Nat) : (pairs.foldl (fun (worlds : Nat → World D) p =>
        Function.update worlds p.1.relation (endQuery (worlds p.1.relation) p.2)) worlds r).lock t c = true ↔
      (worlds r).lock t c = true ∧ ∀ p ∈ pairs, p.1.relation = r → c ∉ p.2.query.readAll := by
  induction pairs generalizing worlds with
  | nil => simp
  | cons p pairs ih =>
    rw [foldl_cons, ih, forall_mem_cons, ← and_assoc]
    refine and_congr_left fun _ => ?_
    by_cases here : p.1.relation = r
    · subst here
      rw [update_self, endQuery_lock]
      simp only [true_implies]
    · rw [update_of_ne (Ne.symm here)]
      simp only [here, false_implies, and_true]

/-- What the exit at the end of the plan leaves. -/
theorem Locked.leavePlan {st : ExecState D} (locked : Locked db d plan.scans before st) (r : Nat) (t : CacheType)
    (c : Nat) : ((leavePlan plan st).worlds r).lock t c = true → (before r).lock t c = true := by
  intro lock
  obtain ⟨held, released⟩ := (foldl_endQuery_lock (plan.scans.zip st.scans) st.worlds r t c).1 lock
  refine ((locked.lock r t c).1 held).resolve_right ?_
  rintro ⟨scan, mem, here, reads⟩
  obtain ⟨i, node⟩ := getElem?_of_mem mem
  have inside : i < st.scans.length := by
    have := congrArg List.length locked.queries
    rw [length_map, length_map] at this
    rw [this]
    exact (List.getElem?_eq_some_iff.1 node).1
  have active : st.scans[i]? = some st.scans[i] := getElem?_eq_getElem inside
  have pair : (scan, st.scans[i]) ∈ plan.scans.zip st.scans :=
    mem_of_getElem? (i := i) (getElem?_zip_eq_some.2 ⟨node, active⟩)
  refine released _ pair here ?_
  rw [locked.query node active]
  exact reads

/-! ### The ways to end -/

variable (db plan) in
/-- **The ways in which `ExecutePlan2` can end**: with an error when the scans before another one have
been set up, or after a run for a number of tuples.  A run without a count ends as one does whose count
is large enough.  The list has the scans that have been set up. -/
inductive Plan.Ends (c : σ × ExecState D) : List (PlanScan D) → Pull.Ending → ExecState D → Prop where
  | setUp {k : Nat} (less : k < plan.scans.length) :
      Ends c (plan.scans.take k) .failed (startScans db (plan.scans.take k)
        { c.2 with descriptor := traversePlanTree plan.visits c.2.descriptor })
  | run {fuel : Nat} {n : ℕ+} {delivery : Pull.Delivery (σ × ExecState D) T}
      (result : executePlan2 db plan fuel n c = some delivery) :
      Ends c plan.scans delivery.ending delivery.config.2

/-- **No lock outlives the query**: what is locked was locked before, so that the next query writes the
columns that this one could write. -/
structure NoLockLeft (before after : ExecState D) : Prop where
  released : ∀ r t c, (after.worlds r).lock t c = true → (before.worlds r).lock t c = true
  writable : ∀ r t cols, ∀ c ∈ unlockedCols ((before.worlds r).lock t) cols,
    c ∈ unlockedCols ((after.worlds r).lock t) cols

theorem noLockLeft_of_released {before after : ExecState D}
    (released : ∀ r t c, (after.worlds r).lock t c = true → (before.worlds r).lock t c = true) :
    NoLockLeft before after := by
  refine ⟨released, fun r t cols c mem => ?_⟩
  obtain ⟨reads, free⟩ := LockState.mem_unlockedCols.1 mem
  refine LockState.mem_unlockedCols.2 ⟨reads, ?_⟩
  by_contra lock
  rw [released r t c (Bool.eq_true_of_not_eq_false lock)] at free
  cases free

/-- If the locks are left, they were there before only if the scans could not take any. -/
theorem Locked.releases_iff {opened : List (PlanScan D)} {before st : ExecState D}
    (locked : Locked db d opened before.worlds st) :
    NoLockLeft before st ↔ ∀ scan ∈ opened, ∀ col ∈ (scanQuery db d scan).readAll, ∀ t,
      (before.worlds scan.relation).lock t col = true := by
  constructor
  · intro none scan mem col reads t
    exact none.released _ t col ((locked.lock ..).2 (.inr ⟨scan, mem, rfl, reads⟩))
  · intro held
    refine noLockLeft_of_released fun r t c lock => ((locked.lock r t c).1 lock).elim id ?_
    rintro ⟨scan, mem, rfl, reads⟩
    exact held scan mem c reads t

/-- **Locks are left exactly by queries that do not get to the end of their plan**, unless their scans
could not take any. -/
theorem noLockLeft_iff {opened : List (PlanScan D)} {ending : Pull.Ending} {st : ExecState D}
    (ends : plan.Ends db c opened ending st) :
    NoLockLeft c.2 st ↔ ending = .ended ∨
      ∀ scan ∈ opened, ∀ col ∈ (scanQuery db (traversePlanTree plan.visits c.2.descriptor) scan).readAll, ∀ t,
        (c.2.worlds scan.relation).lock t col = true := by
  have start := fun opened => (locked_startScans db opened
    { c.2 with descriptor := traversePlanTree plan.visits c.2.descriptor }).2
  cases ends with
  | setUp less =>
    rw [or_iff_right (by decide)]
    exact Locked.releases_iff (start _)
  | @run fuel n delivery result =>
    obtain ⟨delivery', run, rfl⟩ := Option.map_eq_some_iff.1 result
    have locked : Locked db (traversePlanTree plan.visits c.2.descriptor) plan.scans c.2.worlds
        delivery'.config.2 :=
      Pull.run_invariant (P := fun c' => Locked db _ plan.scans c.2.worlds c'.2) (fun _ => Locked.step)
        (start plan.scans) run
    cases ending : delivery'.ending with
    | ended =>
      rw [if_pos rfl]
      exact iff_of_true (noLockLeft_of_released locked.leavePlan) (.inl rfl)
    | stopped =>
      rw [if_neg nofun, or_iff_right (by rw [ending]; nofun)]
      exact locked.releases_iff
    | failed =>
      rw [if_neg nofun, or_iff_right (by rw [ending]; nofun)]
      exact locked.releases_iff

end

/-- `SELECT a FROM t` that is run to the end. -/
theorem noLockLeft_iff_ended :
    ∃ delivery, executePlan2 byteTable (scanPlan fun values => values 0) 10 4 (.ask, parsedA) = some delivery ∧
      NoLockLeft parsedA delivery.config.2 := by
  have ended : (executePlan2 byteTable (scanPlan fun values => values 0) 10 4 (.ask, parsedA)).map (·.ending) =
      some .ended := by
    decide +kernel
  obtain ⟨delivery, result, ending⟩ := Option.map_eq_some_iff.1 ended
  exact ⟨delivery, result, (noLockLeft_iff (.run (n := 4) result)).2 (.inl ending)⟩

/-- `SELECT a FROM t` of which one tuple is fetched: column 0 stays locked. -/
theorem not_noLockLeft_fetched :
    ∃ delivery, (scanPlan fun values => values 0).Ends byteTable (.ask, parsedA) [⟨0, none⟩] .stopped delivery ∧
      ¬ NoLockLeft parsedA delivery := by
  have fetched : (executePlan2 byteTable (scanPlan fun values => values 0) 10 1 (.ask, parsedA)).map
      (fun delivery => (delivery.ending, (delivery.config.2.worlds 0).lock .data 0)) = some (.stopped, true) := by
    decide +kernel
  obtain ⟨delivery, result, same⟩ := Option.map_eq_some_iff.1 fetched
  obtain ⟨ending, lock⟩ := Prod.mk.inj same
  refine ⟨delivery.config.2, ending ▸ .run (n := 1) result, fun none => ?_⟩
  exact absurd (none.released 0 .data 0 lock) (by decide)

end PostgresRaw
