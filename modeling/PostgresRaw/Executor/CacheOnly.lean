import PostgresRaw.Scan.Cursor
import PostgresRaw.Scan.SelfJoin
import PostgresRaw.Scan.Written

/-!
# Rows from caches only

A node that is served from caches only is executed by functions of its own, which leave the file alone.
`NoDBReadFromCacheOnly` chooses them after a look at some of the lists of the node.  The others are
empty as well (`readsCachesOnly_of_mem`): `FillRow` fills them together, and a column that is converted
or written needs its position.

With empty lists the line that `NoDBExecPlan` reads goes nowhere, so a row is the same with both functions
(`Alike.noDBExecPlan`), up to the place in the file.  That place is looked at once for every node: the
strategy update behind the last row tests for the end of the file.  `endsFile` is the answer of this test, and
it is all that the two functions can differ in.
-/

namespace PostgresRaw

open Option List

section

variable {D : Type}

/-! ### The lists of a node -/

/-- Only lists of columns to copy from data caches have entries. -/
structure Strategy.ReadsCachesOnly (n : Strategy) : Prop where
  preFilter : n.preFilter = ⟨n.readPreFilterWithCache, [], [], [], []⟩
  postFilter : n.postFilter = ⟨n.readPostFilterWithCache, [], [], [], []⟩
  writeToCacheByValue : n.writeToCacheByValue = []
  writeToCacheByRef : n.writeToCacheByRef = []
  writeToPM : n.writeToPM = []

/-- The lists of `FillRow` other than the hits are empty. -/
structure FillRowReply.HitsOnly (r : FillRowReply) : Prop where
  access : r.access = ⟨r.mapDataHit, [], [], [], []⟩
  addByValue : r.mapDataAddByValue = []
  addByRef : r.mapDataAddByRef = []
  addPositions : r.mapPositionsAdd = []

theorem eq_nil_of_occupied {map : List ColumnsPerCache} (occupied : Occupied map)
    (none : ∀ i c, ¬ Maps map i c) : map = [] := by
  by_contra some
  obtain ⟨entry, mem⟩ := exists_mem_of_ne_nil _ some
  obtain ⟨c, isCol⟩ := exists_mem_of_ne_nil _ (occupied entry mem)
  exact none entry.cache c ⟨entry, mem, rfl, isCol⟩

variable {byValue : Nat → Bool}

/-- **What is not read is not needed**: if nothing is taken from positional maps and from the file, then
nothing is converted and nothing is written. -/
theorem FilledRow.hitsOnly {cols : List Nat} {request : RowRequest} {node : Nat → Node} {r : FillRowReply}
    (filled : FilledRow byValue cols request node r) (noEmpty : r.NoEmpty) (noMaps : r.mapReadFromPM = [])
    (noFile : r.collectFromFile = []) : r.HitsOnly := by
  have idle := filled.not_needs noMaps noFile
  have noConvert : r.convert = [] := eq_nil_iff_forall_not_mem.2 fun c mem =>
    idle c (filled.convert.1 mem).1 (.inl (filled.convert.1 mem).2)
  refine ⟨?_, ?_, ?_, ?_⟩
  · rw [FillRowReply.access, noMaps, noFile, noConvert, (filled.idle idle).2.1]
  · refine eq_nil_of_occupied noEmpty.addByValue fun i c there => ?_
    obtain ⟨mem, writes, mark, -⟩ := filled.addByValue.1 there
    exact idle c mem (.inl (.inr ⟨writes, i, mark⟩))
  · refine eq_nil_of_occupied noEmpty.addByRef fun i c there => ?_
    obtain ⟨mem, writes, mark, -⟩ := filled.addByRef.1 there
    exact idle c mem (.inl (.inr ⟨writes, i, mark⟩))
  · refine eq_nil_of_occupied noEmpty.addPositions fun i c there => ?_
    obtain ⟨mem, writes, mark⟩ := filled.addPositions.1 there
    exact idle c mem (.inr ⟨writes, i, mark⟩)

theorem readsCachesOnly_strategyNode {q : QueryInfo} {startRow nrows : Nat} {node : Nat → Node}
    (filled : ∀ request, FilledRow byValue q.cols request node (fillRow byValue q.cols request node))
    (cacheOnly : noDBReadFromCacheOnly (strategyNode byValue q startRow nrows node) = true) :
    (strategyNode byValue q startRow nrows node).ReadsCachesOnly := by
  obtain ⟨preMaps, preFile, postMaps, -, postFile, -⟩ := noDBReadFromCacheOnly_iff.1 cacheOnly
  by_cases none : q.filter = []
  · rw [strategyNode_of_nil none] at postMaps postFile ⊢
    have first := (filled q.firstRequest).hitsOnly (noEmpty_fillRow ..) postMaps postFile
    exact ⟨rfl, first.access, first.addByValue, first.addByRef, first.addPositions⟩
  · rw [strategyNode_of_filter none] at preMaps preFile postMaps postFile ⊢
    have first := (filled q.firstRequest).hitsOnly (noEmpty_fillRow ..) preMaps preFile
    have rest := (filled (restRequest byValue q node)).hitsOnly (noEmpty_fillRow ..) postMaps postFile
    exact ⟨first.access, rest.access, first.addByValue, first.addByRef, first.addPositions⟩

/-- **A node for which `NoDBReadFromCacheOnly` holds reads caches only.** -/
theorem readsCachesOnly_of_mem {q : QueryInfo} {rows : List Nat} (increasing : rows.Pairwise (· < ·))
    {caches : List (Cache D)} (shaped : AllShaped caches) {node : Strategy}
    (built : node ∈ (buildStrategy byValue q rows caches).1) (cacheOnly : noDBReadFromCacheOnly node = true) :
    node.ReadsCachesOnly := by
  obtain ⟨a, mem, rfl⟩ := mem_map.1 built
  have inside : a < rows.length - 1 := mem_range.1 mem
  refine readsCachesOnly_strategyNode (fun request => ?_) cacheOnly
  exact fillRow_spec byValue request (fun c _ b found => (anchor_known increasing shaped.packed inside found).2)
    fun c _ c' mem isSome => anchor_all increasing shaped inside isSome mem

/-! ### Scans that differ in the file -/

/-- **Two scans that are alike** but for what they have read of the file: the caches, the strategy with its
counters, and the row are the same. -/
structure Alike (a b : World D × Scan D) : Prop where
  caches : a.1.caches = b.1.caches
  query : a.2.query = b.2.query
  plan : a.2.plan = b.2.plan
  processed : a.2.processed = b.2.processed
  values : a.2.values = b.2.values

/-- Two row steps are alike: they have the same result, and leave scans that are alike. -/
def AlikeSteps (a b : StepResult D × World D × Scan D) : Prop := a.1 = b.1 ∧ Alike a.2 b.2

/-- The next row is the last one of the node. -/
def Scan.EndsNode (s : Scan D) : Prop := s.plan.nMin - 1 = 0 ∧ s.counted.countDown.plan.nRows = 0

/-- The answer of the test for the end of the file in the strategy update behind the next row; `none` if the
search for the end of the header leaves its buffer. -/
def endsFile (rel : Relation D) (w : World D) (s : Scan D) : Option Bool :=
  (lookAhead rel w (seekToRow rel.headerLine (s.processed + 1) (s.reader w))).map Prod.fst

variable {rel : Relation D} {w w' : World D} {s s' : Scan D}

/-- The test does not look at the row. -/
theorem endsFile_setRowState (r : RowState D) : endsFile rel w (s.setRowState r) = endsFile rel w s := by
  have erase : ∀ s : Scan D, endsFile rel w s =
      ((seekToRow rel.headerLine (s.processed + 1) { s.reader w with lineBuf := [] }).lookAhead (rel.source w)).map
        Prod.fst := by
    intro s
    rw [RawInput.lookAhead_seekToRow, Option.map_map]
    rfl
  rw [erase, erase]
  rfl

namespace Alike

section

variable (alike : Alike (w, s) (w', s'))
include alike

theorem counted : Alike (w, s.counted) (w', s'.counted) where
  caches := alike.caches
  query := alike.query
  plan := congrArg (fun plan : PlanState => { plan with nMin := plan.nMin - 1 }) alike.plan
  processed := congrArg (· + 1) alike.processed
  values := alike.values

theorem countDown : Alike (w, s.countDown) (w', s'.countDown) := by
  refine { alike with plan := ?_ }
  have plan : s.plan = s'.plan := alike.plan
  simp only [Scan.countDown, plan]

theorem finalizeNode : Alike (finalizeNode w s, s) (finalizeNode w' s', s') := by
  refine { alike with caches := ?_ }
  have plan : s.plan = s'.plan := alike.plan
  have processed : s.processed = s'.processed := alike.processed
  have caches : w.caches = w'.caches := alike.caches
  simp only [PostgresRaw.finalizeNode, plan, processed, caches]

theorem storeReader (input input' : RawInput) :
    Alike (storeReader w s input) (storeReader w' s' input') :=
  { alike with }

theorem atEnd : Alike (w, s.atEnd) (w', s'.atEnd) := by
  refine { alike with plan := ?_ }
  have plan : s.plan = s'.plan := alike.plan
  simp only [Scan.atEnd, plan]

theorem nextStrategy : Alike (nextStrategy rel w s) (nextStrategy rel w' s') := by
  have plan : s.plan = s'.plan := alike.plan
  have caches : w.caches = w'.caches := alike.caches
  refine ⟨?_, alike.query, ?_, alike.processed, alike.values⟩
  · simp only [PostgresRaw.nextStrategy, plan, caches]
  · simp only [PostgresRaw.nextStrategy, plan, caches]

end

/-- The update behind a row, when the tests for the end of the file have the same answer. -/
theorem noDBUpdateStrategy (alike : Alike (w, s.counted) (w', s'.counted))
    (sameEnd : s.counted.countDown.plan.nRows = 0 → endsFile rel w s = endsFile rel w' s') :
    Option.Rel Alike (noDBUpdateStrategy rel w s.counted) (noDBUpdateStrategy rel w' s'.counted) := by
  rw [noDBUpdateStrategy_eq, noDBUpdateStrategy_eq, ← alike.countDown.plan]
  have counted := alike.countDown
  split
  · next last =>
    have same := sameEnd last
    unfold endsFile at same
    change Option.Rel Alike ((lookAhead rel w (seekToRow rel.headerLine (s.processed + 1) (s.reader w))).map _)
      ((lookAhead rel w' (seekToRow rel.headerLine (s'.processed + 1) (s'.reader w'))).map _)
    cases look : lookAhead rel w (seekToRow rel.headerLine (s.processed + 1) (s.reader w)) with
    | none =>
      rw [look, map_none, eq_comm, map_eq_none_iff] at same
      rw [same]
      exact .none
    | some found =>
      obtain ⟨ended, input⟩ := found
      rw [look, map_some, eq_comm, map_eq_some_iff] at same
      obtain ⟨⟨ended', input'⟩, look', rfl⟩ := same
      rw [look']
      have stored := counted.finalizeNode.storeReader input input'
      refine .some ?_
      cases ended' with
      | true => exact stored.atEnd
      | false => exact stored.nextStrategy
  · refine .some { counted with plan := ?_ }
    exact congrArg (fun plan : PlanState => { plan with nMin := plan.nRows, tuplesToRead := plan.nRows }) counted.plan

/-- **The end of a row**, when the tests for the end of the file have the same answer. -/
theorem advance (alike : Alike (w, s) (w', s')) (sameEnd : s.EndsNode → endsFile rel w s = endsFile rel w' s')
    (pass : Bool) : AlikeSteps (advance rel w s pass) (advance rel w' s' pass) := by
  have nMin : s'.plan.nMin = s.plan.nMin := congrArg PlanState.nMin alike.plan.symm
  by_cases due : s.plan.nMin - 1 = 0
  · have updates := alike.counted.noDBUpdateStrategy fun last => sameEnd ⟨due, last⟩
    have due' : s'.plan.nMin - 1 = 0 := nMin ▸ due
    rcases advance_cases rel w s pass with ⟨more, -⟩ | ⟨-, failed, result⟩ | ⟨-, w₁, s₁, updated, result⟩
    · exact absurd due more
    · rw [failed] at updates
      rcases advance_cases rel w' s' pass with ⟨more, -⟩ | ⟨-, -, result'⟩ | ⟨-, w₁, s₁, updated, -⟩
      · exact absurd due' more
      · rw [result, result']
        exact ⟨rfl, alike.counted⟩
      · rw [updated] at updates
        cases updates
    · rw [updated] at updates
      rcases advance_cases rel w' s' pass with ⟨more, -⟩ | ⟨-, failed, -⟩ | ⟨-, w₂, s₂, updated', result'⟩
      · exact absurd due' more
      · rw [failed] at updates
        cases updates
      · rw [updated'] at updates
        cases updates with
        | some after =>
          have values : s₁.values = s₂.values := after.values
          rw [result, result', values]
          exact ⟨rfl, after⟩
  · have values : s.values = s'.values := alike.values
    rw [advance_of_more due, advance_of_more (nMin ▸ due), values]
    exact ⟨rfl, alike.counted⟩

end Alike

/-! ### A row from caches only -/

theorem fetch_cachesOnly (rel : Relation D) (caches : List (Cache D)) (lastfield row : Nat)
    (withCache : List ColumnsPerCache) (fileConvert : List Nat) (r : RowState D) :
    fetch rel caches lastfield row ⟨withCache, [], [], [], []⟩ fileConvert r =
      match readCaches caches row withCache r.values with
      | none => .error .fault
      | some values => .ok { r with values := values } := by
  unfold fetch
  cases readCaches caches row withCache r.values with
  | none => rfl
  | some values => rfl

/-- A row with nothing to write is only counted. -/
theorem finishRow_cachesOnly {node : Strategy} (only : node.ReadsCachesOnly) (onNode : s.plan.curStrategy = node)
    (pass : Bool) : finishRow rel w s pass = PostgresRaw.advance rel w s pass := by
  unfold finishRow writeCaches
  rw [onNode, only.writeToCacheByValue, only.writeToCacheByRef, only.writeToPM]
  rfl

/-- Reading a line leaves all but the place in the file. -/
theorem alike_readLine {result : ReadResult} {w₁ : World D} {s₁ : Scan D}
    (read : readLine rel w s = (result, w₁, s₁)) : Alike (w, s) (w₁, s₁) := by
  cases read
  exact ⟨rfl, rfl, rfl, rfl, rfl⟩

theorem Alike.trans {a b c : World D × Scan D} (first : Alike a b) (second : Alike b c) : Alike a c where
  caches := first.caches.trans second.caches
  query := first.query.trans second.query
  plan := first.plan.trans second.plan
  processed := first.processed.trans second.processed
  values := first.values.trans second.values

/-- The columns that are copied from data caches, by both functions. -/
theorem Alike.fetch_eq (alike : Alike (w, s) (w', s')) {access : Access} {withCache : List ColumnsPerCache}
    (lists : access = ⟨withCache, [], [], [], []⟩) (fileConvert : List Nat) (r : RowState D) :
    fetch rel w'.caches s'.lastfield s'.processed access fileConvert r =
      match readCaches w.caches s.processed withCache r.values with
      | none => .error .fault
      | some values => .ok { r with values := values } := by
  have caches : w.caches = w'.caches := alike.caches
  have processed : s.processed = s'.processed := alike.processed
  rw [lists, fetch_cachesOnly, caches, processed]

section

variable {node : Strategy} (only : node.ReadsCachesOnly) (onNode : s.plan.curStrategy = node)
  (alike : Alike (w, s) (w', s')) {w₁ : World D} {s₁ : Scan D} (read : readLine rel w' s' = (.line, w₁, s₁))
  (sameEnd : s.EndsNode → endsFile rel w s = endsFile rel w₁ s₁)

include only onNode alike read sameEnd

/-- The end of a row whose values have been copied. -/
theorem Alike.finishRow (values : Nat → Value D) (attributes : Nat → PMPair) (lineBuf : List Byte) (pass : Bool) :
    AlikeSteps (PostgresRaw.advance rel w { s with values := values } pass)
      (PostgresRaw.finishRow rel w₁ (s₁.setRowState ⟨values, attributes, lineBuf⟩) pass) := by
  have now := alike.trans (alike_readLine read)
  have onNode₁ : (s₁.setRowState ⟨values, attributes, lineBuf⟩).plan.curStrategy = node := by
    rw [← onNode]
    exact congrArg PlanState.curStrategy now.plan.symm
  rw [finishRow_cachesOnly only onNode₁]
  have copied : Alike (w, { s with values := values }) (w₁, s₁.setRowState ⟨values, attributes, lineBuf⟩) :=
    ⟨now.caches, now.query, now.plan, now.processed, rfl⟩
  refine copied.advance (fun ends => ?_) pass
  rw [endsFile_setRowState]
  exact sameEnd ends

/-- **A row of a node without a qual.** -/
theorem Alike.noDBExecPlan : AlikeSteps (noDBExecPlanCacheOnly rel w s) (PostgresRaw.noDBExecPlan rel w' s') := by
  have now := alike.trans (alike_readLine read)
  have values : s₁.rowState.values = s.values := now.values.symm
  have onNode₁ : s₁.plan.curStrategy = node := (congrArg PlanState.curStrategy now.plan.symm).trans onNode
  unfold noDBExecPlanCacheOnly PostgresRaw.noDBExecPlan
  simp only [read]
  rw [onNode, onNode₁, now.fetch_eq only.postFilter, values]
  cases readCaches w.caches s.processed node.readPostFilterWithCache s.values with
  | none => exact ⟨rfl, now⟩
  | some copied => exact Alike.finishRow only onNode alike read sameEnd copied _ _ true

/-- **A row of a node with a qual.** -/
theorem Alike.noDBExecPlanWithFilters :
    AlikeSteps (noDBExecPlanWithFiltersCacheOnly rel w s) (PostgresRaw.noDBExecPlanWithFilters rel w' s') := by
  have now := alike.trans (alike_readLine read)
  have values : s₁.rowState.values = s.values := now.values.symm
  have query : s₁.query = s.query := now.query.symm
  have onNode₁ : s₁.plan.curStrategy = node := (congrArg PlanState.curStrategy now.plan.symm).trans onNode
  unfold noDBExecPlanWithFiltersCacheOnly PostgresRaw.noDBExecPlanWithFilters
  simp only [read]
  rw [onNode, onNode₁, now.fetch_eq only.preFilter, values, query]
  cases readCaches w.caches s.processed node.readPreFilterWithCache s.values with
  | none => exact ⟨rfl, now⟩
  | some copied =>
    simp only
    split
    · rw [now.fetch_eq only.postFilter]
      simp only
      cases readCaches w.caches s.processed node.readPostFilterWithCache copied with
      | none => exact ⟨rfl, now⟩
      | some copied' => exact Alike.finishRow only onNode alike read sameEnd copied' _ _ true
    · exact Alike.finishRow only onNode alike read sameEnd copied _ _ false

end

end

/-- The three rows after column 0 has been read. -/
def columnRead : World Nat :=
  endQuery (startAndRun threeRows 4 .initial (selectColumn 0 0)).world (startAndRun threeRows 4 .initial (selectColumn 0 0)).scan

/-- The first scan of the self join has read the three rows. -/
def firstRead : SelfJoin Nat :=
  (((joinedRows.step threeRows .first).step threeRows .first).step threeRows .first).step threeRows .first

/-- A third scan starts when the first one has ended.  `exec` gives its first two rows, and then the second scan
reads its first row. -/
def overtaken (exec : World Nat → Scan Nat → StepResult Nat × World Nat × Scan Nat) : World Nat × Scan Nat :=
  let (w, s) := noDBScanStateInit threeRows (endQuery firstRead.world (firstRead.scans .first)) (selectColumn 0 0)
  let (_, w, s) := exec w s
  let (_, w, s) := exec w s
  ((execNoDBPlan threeRows w (firstRead.scans .second)).2.1, s)

end PostgresRaw
