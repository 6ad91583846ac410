import PostgresRaw.Executor.PlanTree

/-!
# `LIMIT` above a scan

`ExecLimit` asks for rows until it has passed over the offset, hands on as many as the count says, and
stops asking.  A count of 0 makes it stop before the first row.

`traversePlanTree` gives the count to the query descriptor, where the scan below takes it for the number of
rows that will be read (`limitQuery_limit`).  `limitPlan_ended` says how many rows are read in fact.
-/

namespace PostgresRaw

open List

/-- `LimitState`: `lstate` with `position`; `slot` holds the tuple that is handed on. -/
inductive LimitState (D : Type) where
  | initial
  | rescan (position : Nat)
  | slot (position : Nat) (values : Nat → Value D)
  | inWindow (position : Nat)
  | empty
  | subplanEof
  | windowEnd

section

variable {D : Type}

/-- The loop that passes over the offset asks for a row. -/
def skipOffset (offset position : Nat) : Demand D (LimitState D) (Nat → Value D) :=
  .row 0 fun
    | none => .empty
    | some values => if offset < position + 1 then .slot (position + 1) values else .rescan (position + 1)

/-- `ExecLimit`, forwards. -/
def execLimit (count offset : Nat) : LimitState D → Demand D (LimitState D) (Nat → Value D)
  | .initial => if count = 0 then .finish .empty else skipOffset offset 0
  | .rescan position => skipOffset offset position
  | .slot position values => .deliver values (.inWindow position)
  | .inWindow position =>
    if count ≤ position - offset then .finish .windowEnd
    else .row 0 fun
      | none => .subplanEof
      | some values => .slot (position + 1) values
  | .empty => .finish .empty
  | .subplanEof => .finish .subplanEof
  | .windowEnd => .finish .windowEnd

/-- A `Limit` node above a sequential scan, whose qual names the columns. -/
def limitTree (count : Nat) (columns : Option (List ColumnDescriptor)) : PlanStateTree :=
  .node ⟨.limit, 0, false, none, count⟩ [] (.node ⟨.seqScan, 1, false, columns, 0⟩ [] .null .null [] []) .null [] []

/-- `LIMIT count OFFSET offset` directly above a scan. -/
def limitPlan (count offset : Nat) (scan : PlanScan D) (columns : Option (List ColumnDescriptor)) :
    Plan D (LimitState D) (Nat → Value D) where
  visits := (limitTree count columns).visits
  scans := [scan]
  demand := execLimit count offset

/-- The query of the scan below. -/
def limitQuery (db : Database D) (count : Nat) (scan : PlanScan D) (columns : Option (List ColumnDescriptor))
    (d : QueryDescriptor) : Query D :=
  scanQuery db (traversePlanTree (limitTree count columns).visits d) scan

/-- **The hint is the count**, without the offset.  The parser has initialised the query descriptor if there
is a qual. -/
theorem limitQuery_limit {db : Database D} {count : Nat} {scan : PlanScan D}
    {columns : Option (List ColumnDescriptor)} {d : QueryDescriptor}
    (initialized : columns ≠ none → d.isInitialized = true) : (limitQuery db count scan columns d).limit = count := by
  cases columns with
  | none => rfl
  | some columns =>
    exact QueryDescriptor.visitQual_limit columns (d := d.setQueryLimit count) (initialized (Option.some_ne_none _))

/-! ### The rows that are read -/

variable {db : Database D} {count offset : Nat} {scan : PlanScan D} {columns : Option (List ColumnDescriptor)}

variable (count offset) in
/-- **A scan that has been asked for rows by the node**: it has given as many tuples as the node has
counted, or there are no more; and it has not been asked if the count is 0. -/
def LimitState.Asked (rel : Relation D) (w : World D) (q : Query D) (state : LimitState D) (k : Nat) : Prop :=
  let run := startAndRun rel k w q
  match state with
  | .initial => (count = 0 → k = 0) ∧ run.ending = none ∧ run.tuples.length = 0
  | .rescan position | .slot position _ | .inWindow position =>
    count ≠ 0 ∧ run.ending = none ∧ run.tuples.length = position
  | .empty => count = 0 ∧ k = 0 ∨ run.ending = some .done
  | .subplanEof => run.ending = some .done
  | .windowEnd => count ≠ 0 ∧ run.ending = none ∧ count + offset ≤ run.tuples.length

variable (db count offset scan columns) in
/-- The state of the plan: the world and the scan are those that asking for some rows has led to. -/
def LimitAt (st : ExecState D) (c : LimitState D × ExecState D) : Prop :=
  let q := limitQuery db count scan columns st.descriptor
  ∃ k, c.1.Asked count offset (db.rel scan.relation) (st.worlds scan.relation) q k ∧
    c.2.scans = [(startAndRun (db.rel scan.relation) k (st.worlds scan.relation) q).scan] ∧
    c.2.worlds scan.relation = (startAndRun (db.rel scan.relation) k (st.worlds scan.relation) q).world

/-- Asking the scan for a row. -/
theorem limitPlan_row {c next : LimitState D × ExecState D} {resume : Option (Nat → Value D) → LimitState D}
    {w : World D} {q : Query D} {k : Nat} {before : RowRun D} (ran : startAndRun (db.rel scan.relation) k w q = before)
    (demand : execLimit count offset c.1 = .row 0 resume) (scans : c.2.scans = [before.scan])
    (world : c.2.worlds scan.relation = before.world) (going : before.ending = none)
    (step : (limitPlan count offset scan columns).step db c = .silent next) :
    let run := startAndRun (db.rel scan.relation) (k + 1) w q
    next.2.scans = [run.scan] ∧ next.2.worlds scan.relation = run.world ∧
      ((∃ values, next.1 = resume (some values) ∧ run.ending = none ∧
          run.tuples.length = before.tuples.length + 1) ∨
        (next.1 = c.1 ∧ run.ending = none ∧ run.tuples = before.tuples) ∨
        (next.1 = resume none ∧ run.ending = some .done)) := by
  subst ran
  obtain ⟨state, st⟩ := c
  have scans : st.scans = _ := scans
  have world : st.worlds scan.relation = _ := world
  have stored : ∀ (w' : World D) (s' : Scan D), (st.store 0 scan.relation w' s').scans = [s'] ∧
      (st.store 0 scan.relation w' s').worlds scan.relation = w' := by
    intro w' s'
    exact ⟨by rw [ExecState.store, scans]; rfl, Function.update_self ..⟩
  unfold Plan.step at step
  simp only [show (limitPlan count offset scan columns).demand state = .row 0 resume from demand,
    show (limitPlan count offset scan columns).scans[0]? = some scan from rfl, scans, getElem?_cons_zero, world] at step
  rcases result : execNoDBPlan (db.rel scan.relation) (startAndRun (db.rel scan.relation) k w q).world
    (startAndRun (db.rel scan.relation) k w q).scan with ⟨⟨values, _ | _⟩ | _ | _ | _, w', s'⟩
  · rw [result] at step
    cases step
    rw [startAndRun_succ_of_tuple going result]
    exact ⟨(stored w' s').1, (stored w' s').2, .inr (.inl ⟨rfl, rfl, append_nil _⟩)⟩
  · rw [result] at step
    cases step
    rw [startAndRun_succ_of_tuple going result]
    exact ⟨(stored w' s').1, (stored w' s').2, .inl ⟨values, rfl, rfl, length_append⟩⟩
  · rw [result] at step
    cases step
    rw [startAndRun_succ_of_done going result]
    exact ⟨(stored w' s').1, (stored w' s').2, .inr (.inr ⟨rfl, rfl⟩)⟩
  · rw [result] at step
    cases step
  · rw [result] at step
    cases step

/-- **A node that asks for a row** has not counted to the end, and goes on with the tuple, without it if it
does not pass, or to its end. -/
theorem LimitState.Asked.row {rel : Relation D} {w : World D} {q : Query D} {state : LimitState D} {k : Nat}
    {resume : Option (Nat → Value D) → LimitState D} (asked : state.Asked count offset rel w q k)
    (demand : execLimit count offset state = .row 0 resume) : (startAndRun rel k w q).ending = none ∧
      (∀ {k'}, (startAndRun rel k' w q).ending = none →
        (startAndRun rel k' w q).tuples.length = (startAndRun rel k w q).tuples.length →
          state.Asked count offset rel w q k') ∧ (∀ values {k'}, (startAndRun rel k' w q).ending = none →
        (startAndRun rel k' w q).tuples.length = (startAndRun rel k w q).tuples.length + 1 →
          (resume (some values)).Asked count offset rel w q k') ∧
      ∀ {k'}, (startAndRun rel k' w q).ending = some .done → (resume none).Asked count offset rel w q k' := by
  have skipped : ∀ position, count ≠ 0 → (startAndRun rel k w q).tuples.length = position → ∀ values {k'},
      (startAndRun rel k' w q).ending = none →
      (startAndRun rel k' w q).tuples.length = (startAndRun rel k w q).tuples.length + 1 →
        (if offset < position + 1 then LimitState.slot (position + 1) values else .rescan (position + 1)).Asked count offset
          rel w q k' := by
    rintro position positive rfl values k' going more
    split
    · exact ⟨positive, going, more⟩
    · exact ⟨positive, going, more⟩
  cases state with
  | initial =>
    obtain ⟨-, going, given⟩ := asked
    rw [execLimit] at demand
    split at demand
    · cases demand
    · next positive =>
      cases demand
      exact ⟨going, fun going' same => ⟨fun none => absurd none positive, going', same.trans given⟩,
        skipped 0 positive given, fun done => .inr done⟩
  | rescan position =>
    obtain ⟨positive, going, given⟩ := asked
    cases demand
    exact ⟨going, fun going' same => ⟨positive, going', same.trans given⟩, skipped position positive given,
      fun done => .inr done⟩
  | inWindow position =>
    obtain ⟨positive, going, given⟩ := asked
    rw [execLimit] at demand
    split at demand
    · cases demand
    · cases demand
      exact ⟨going, fun going' same => ⟨positive, going', same.trans given⟩,
        fun _ _ going' more => ⟨positive, going', more.trans (congrArg (· + 1) given)⟩, fun done => done⟩
  | slot => cases demand
  | empty => cases demand
  | subplanEof => cases demand
  | windowEnd => cases demand

variable (count offset) in
/-- The rows that are read: none, all of them, or as many as give the tuples of the offset and the count. -/
def LimitReads (rel : Relation D) (w : World D) (q : Query D) (k : Nat) : Prop :=
  count = 0 ∧ k = 0 ∨ (startAndRun rel k w q).ending = some .done ∨
    count ≠ 0 ∧ (startAndRun rel k w q).ending = none ∧ count + offset ≤ (startAndRun rel k w q).tuples.length

/-- A node that ends has counted to the end, or there are no more tuples. -/
theorem LimitState.Asked.finish {rel : Relation D} {w : World D} {q : Query D} {state next : LimitState D} {k : Nat}
    (asked : state.Asked count offset rel w q k) (demand : execLimit count offset state = .finish next) :
    LimitReads count offset rel w q k := by
  cases state with
  | initial =>
    rw [execLimit] at demand
    split at demand
    · next none => exact .inl ⟨none, asked.1 none⟩
    · cases demand
  | inWindow position =>
    obtain ⟨positive, going, given⟩ := asked
    rw [execLimit] at demand
    split at demand
    · exact .inr (.inr ⟨positive, going, by omega⟩)
    · cases demand
  | empty => exact asked.imp_right .inl
  | subplanEof => exact .inr (.inl asked)
  | windowEnd => exact .inr (.inr asked)
  | rescan => cases demand
  | slot => cases demand

/-- A demand for a row gives no tuple. -/
theorem limitPlan_row_silent {c : LimitState D × ExecState D} {resume : Option (Nat → Value D) → LimitState D}
    (demand : execLimit count offset c.1 = .row 0 resume) :
    (∃ next, (limitPlan count offset scan columns).step db c = .silent next) ∨
      ∃ next, (limitPlan count offset scan columns).step db c = .failed next := by
  unfold Plan.step
  simp only [show (limitPlan count offset scan columns).demand c.1 = .row 0 resume from demand]
  split
  · split
    · exact .inl ⟨_, rfl⟩
    · exact .inl ⟨_, rfl⟩
    · exact .inl ⟨_, rfl⟩
    · exact .inr ⟨_, rfl⟩
  · exact .inr ⟨_, rfl⟩

/-- The node asks for a row, hands a tuple on, or ends. -/
theorem execLimit_cases (count offset : Nat) (state : LimitState D) :
    (∃ resume, execLimit count offset state = .row 0 resume) ∨ (∃ position values, state = .slot position values) ∨
      ∃ next, execLimit count offset state = .finish next := by
  cases state with
  | initial =>
    rw [execLimit]
    split
    · exact .inr (.inr ⟨_, rfl⟩)
    · exact .inl ⟨_, rfl⟩
  | rescan => exact .inl ⟨_, rfl⟩
  | slot position values => exact .inr (.inl ⟨position, values, rfl⟩)
  | inWindow =>
    rw [execLimit]
    split
    · exact .inr (.inr ⟨_, rfl⟩)
    · exact .inl ⟨_, rfl⟩
  | empty => exact .inr (.inr ⟨_, rfl⟩)
  | subplanEof => exact .inr (.inr ⟨_, rfl⟩)
  | windowEnd => exact .inr (.inr ⟨_, rfl⟩)

/-- The end of the plan. -/
theorem limitPlan_finish {c : LimitState D × ExecState D} {next : LimitState D}
    (demand : execLimit count offset c.1 = .finish next) :
    (limitPlan count offset scan columns).step db c = .last (next, c.2) := by
  unfold Plan.step
  simp only [show (limitPlan count offset scan columns).demand c.1 = .finish next from demand]

namespace LimitAt

variable {st : ExecState D} {c next : LimitState D × ExecState D}

theorem silent (here : LimitAt db count offset scan columns st c)
    (step : (limitPlan count offset scan columns).step db c = .silent next) :
    LimitAt db count offset scan columns st next := by
  obtain ⟨k, asked, scans, world⟩ := here
  rcases execLimit_cases count offset c.1 with ⟨resume, demand⟩ | ⟨position, values, slot⟩ | ⟨state, demand⟩
  · obtain ⟨going, again, resumes, ends⟩ := asked.row demand
    obtain ⟨scans', world', ⟨values, state, going', more⟩ | ⟨state, going', same⟩ | ⟨state, done⟩⟩ :=
      limitPlan_row rfl demand scans world going step
    · exact ⟨k + 1, state ▸ resumes values going' more, scans', world'⟩
    · exact ⟨k + 1, state ▸ again going' (congrArg List.length same), scans', world'⟩
    · exact ⟨k + 1, state ▸ ends done, scans', world'⟩
  · obtain ⟨_, st'⟩ := c
    cases slot
    cases step
  · rw [limitPlan_finish demand] at step
    cases step

theorem item {values : Nat → Value D} (here : LimitAt db count offset scan columns st c)
    (step : (limitPlan count offset scan columns).step db c = .item values next) :
    LimitAt db count offset scan columns st next := by
  rcases execLimit_cases count offset c.1 with ⟨resume, demand⟩ | ⟨position, values, slot⟩ | ⟨state, demand⟩
  · rcases @limitPlan_row_silent _ db _ _ scan columns _ _ demand with ⟨_, silent⟩ | ⟨_, failed⟩
    · rw [silent] at step
      cases step
    · rw [failed] at step
      cases step
  · obtain ⟨_, st'⟩ := c
    cases slot
    cases step
    exact here
  · rw [limitPlan_finish demand] at step
    cases step

/-- Where the plan ends. -/
theorem last (here : LimitAt db count offset scan columns st c)
    (step : (limitPlan count offset scan columns).step db c = .last next) :
    let rel := db.rel scan.relation
    let w := st.worlds scan.relation
    let q := limitQuery db count scan columns st.descriptor
    ∃ k, LimitReads count offset rel w q k ∧
      next.2.scans = [(startAndRun rel k w q).scan] ∧ next.2.worlds scan.relation = (startAndRun rel k w q).world := by
  obtain ⟨k, asked, scans, world⟩ := here
  rcases execLimit_cases count offset c.1 with ⟨resume, demand⟩ | ⟨position, values, slot⟩ | ⟨state, demand⟩
  · rcases @limitPlan_row_silent _ db _ _ scan columns _ _ demand with ⟨_, silent⟩ | ⟨_, failed⟩
    · rw [silent] at step
      cases step
    · rw [failed] at step
      cases step
  · obtain ⟨_, st'⟩ := c
    cases slot
    cases step
  · rw [limitPlan_finish demand] at step
    cases step
    exact ⟨k, asked.finish demand, scans, world⟩

end LimitAt

/-- The set-up of one scan. -/
theorem startScans_singleton (st : ExecState D) :
    let set := noDBScanStateInit (db.rel scan.relation) (st.worlds scan.relation) (scanQuery db st.descriptor scan)
    (startScans db [scan] st).scans = [set.2] ∧ (startScans db [scan] st).worlds scan.relation = set.1 := by
  rw [startScans, foldl_cons, foldl_nil]
  generalize noDBScanStateInit _ _ _ = set
  exact ⟨nil_append _, Function.update_self ..⟩

theorem startAndRun_zero (rel : Relation D) (w : World D) (q : Query D) :
    startAndRun rel 0 w q = ⟨[], none, (noDBScanStateInit rel w q).1, (noDBScanStateInit rel w q).2⟩ := rfl

theorem enterPlan_limitPlan (st : ExecState D) : enterPlan db (limitPlan count offset scan columns) st =
    startScans db [scan] { st with descriptor := traversePlanTree (limitTree count columns).visits st.descriptor } :=
  rfl

/-- The set-up of the scan. -/
theorem limitAt_start (st : ExecState D) : LimitAt db count offset scan columns st
    (.initial, enterPlan db (limitPlan count offset scan columns) st) := by
  simp only [LimitAt, limitQuery, enterPlan_limitPlan]
  obtain ⟨scans, world⟩ := @startScans_singleton _ db scan
    { st with descriptor := traversePlanTree (limitTree count columns).visits st.descriptor }
  refine ⟨0, ?_, ?_, ?_⟩
  · rw [LimitState.Asked, startAndRun_zero]
    exact ⟨fun _ => rfl, rfl, rfl⟩
  · rw [startAndRun_zero, scans]
  · rw [startAndRun_zero, world]

/-- What the end of the plan leaves. -/
theorem worlds_leavePlan {st : ExecState D} {s : Scan D} {w : World D} (scans : st.scans = [s])
    (world : st.worlds scan.relation = w) :
    (leavePlan (limitPlan count offset scan columns) st).worlds scan.relation = endQuery w s := by
  rw [leavePlan, scans]
  change Function.update _ _ _ _ = _
  rw [Function.update_self, world]

/-- **A plan that gets to its end** has read no row if the count is 0, and all rows or as many as give the
tuples of the offset and the count otherwise; what it leaves is what the scan leaves. -/
theorem limitPlan_ended {fuel numberTuples : Nat} {st : ExecState D}
    {d : Pull.Delivery (LimitState D × ExecState D) (Nat → Value D)}
    (run : executePlan2 db (limitPlan count offset scan columns) fuel numberTuples (.initial, st) = some d)
    (ended : d.ending = .ended) :
    let rel := db.rel scan.relation
    let w := st.worlds scan.relation
    let q := limitQuery db count scan columns st.descriptor
    ∃ k, LimitReads count offset rel w q k ∧
      d.config.2.worlds scan.relation = endQuery (startAndRun rel k w q).world (startAndRun rel k w q).scan := by
  obtain ⟨d', delivered, rfl⟩ := Option.map_eq_some_iff.1 run
  split at ended
  · next isEnd =>
    obtain ⟨c, here, step⟩ := Pull.exists_last LimitAt.silent LimitAt.item (limitAt_start st) delivered isEnd
    obtain ⟨k, reads, scans, world⟩ := here.last step
    refine ⟨k, reads, ?_⟩
    rw [if_pos isEnd]
    exact worlds_leavePlan scans world
  · next notEnd => exact absurd ended notEnd

/-- With a count of 0 the plan ends at once. -/
theorem limitPlan_zero (st : ExecState D) :
    let run := startAndRun (db.rel scan.relation) 0 (st.worlds scan.relation) (limitQuery db 0 scan columns st.descriptor)
    ∃ d, executePlan2 db (limitPlan 0 offset scan columns) 1 1 (.initial, st) = some d ∧ d.ending = .ended ∧
      d.config.2.worlds scan.relation = endQuery run.world run.scan := by
  obtain ⟨scans, world⟩ := @startScans_singleton _ db scan
    { st with descriptor := traversePlanTree (limitTree 0 columns).visits st.descriptor }
  refine ⟨_, rfl, rfl, ?_⟩
  exact worlds_leavePlan scans world

end

end PostgresRaw
