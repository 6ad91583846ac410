import PostgresRaw.Executor.Chunks
import PostgresRaw.Library.Assigns
import PostgresRaw.Scan.Node
import PostgresRaw.Scan.Outcome
import PostgresRaw.Strategy.Sources

/-!
# Quals

The raw-file branch of `ExecScan` does not evaluate the qual of its plan node.  It returns the rows
for which the executor function of the scan sets `pass`, and of the four executor functions only
two call `ExecQual`.  Which one is used depends on `readFilterAtts`, the columns that
`getQueryFilterAttributes` finds under the name of the relation among the references that the
qual was deparsed to.

`appliesQual_iff` says for every row of every scan, whatever the caches hold, when the qual is
applied to that row.  A reference under another name (a second reference to the relation is
deparsed as `t_1`, which no alias stands for) leaves `readFilterAtts` empty, and then every row
passes: `not_appliesQual_unnamed`.
-/

namespace PostgresRaw

open Option List

section

variable {D : Type}

instance : Nontrivial (Value D) := ⟨.garbage, .null, nofun⟩

/-! ### What reading assigns -/

theorem sets_noDBGetValues (input : InputFunctions D) (fieldStrings : Nat → FieldString) (cols : List Nat) :
    Assigns.Sets (noDBGetValues input fieldStrings cols) cols := by
  induction cols with
  | nil => exact .nil
  | cons i cols ih =>
    have both := (Assigns.Sets.update i (inputValue input i (fieldStrings i).string)).comp ih
    refine cast (congrArg (Assigns.Sets · _) (funext fun values => ?_)) both
    rw [noDBGetValues]
    cases inputValue input i (fieldStrings i).string <;> rfl

theorem sets_noDBGetValuesWithPM (input : InputFunctions D) (attributes : Nat → PMPair) (cols : List Nat)
    (lineBuf : List Byte) :
    Assigns.Sets (fun values => (noDBGetValuesWithPM input attributes cols lineBuf values).map (·.2)) cols := by
  induction cols generalizing lineBuf with
  | nil => exact .nil
  | cons i cols ih =>
    have both := (Assigns.Sets.update i (inputValue input i
      (positionString (terminateField lineBuf (attributes i)) (attributes i)))).comp
        (ih (terminateField lineBuf (attributes i)))
    refine cast (congrArg (Assigns.Sets · _) (funext fun values => ?_)) both
    rw [noDBGetValuesWithPM]
    cases inputValue input i (positionString (terminateField lineBuf (attributes i)) (attributes i)) <;> rfl

theorem sets_readCaches (caches : List (Cache D)) (row : Nat) (entries : List ColumnsPerCache) :
    Assigns.Sets (readCaches caches row entries) (colsOf entries) := by
  refine .foldlM fun entry _ => ⟨fun {v v'} done c absent => ?_, fun {v v'} done old => ?_⟩
  · obtain ⟨cache, -, got⟩ := bind_eq_some_iff.1 done
    unfold noDBCacheGetDatumVector Cache.getCells at got
    split at got
    · cases got
      exact if_neg absent
    · cases got
  · obtain ⟨cache, here, got⟩ := bind_eq_some_iff.1 done
    unfold noDBCacheGetDatumVector Cache.getCells at got
    split at got
    · next buffer =>
      cases got
      refine ⟨fun c => if c ∈ entry.cols then (cache.cells c row).value else old c,
        bind_eq_some_iff.2 ⟨cache, here, ?_⟩, fun c mem => ?_⟩
      · unfold noDBCacheGetDatumVector Cache.getCells
        rw [if_pos buffer]
      · simp only [if_pos mem]
    · cases got

/-- The values that `fetch` leaves. -/
def fetchValues (rel : Relation D) (caches : List (Cache D)) (lastfield row : Nat) (a : Access)
    (fileConvert : List Nat) (r : RowState D) (values : Nat → Value D) : Option (Nat → Value D) :=
  (fetch rel caches lastfield row a fileConvert { r with values := values }).toOption.map (·.values)

/-- The columns that `fetch` converts. -/
def Access.converted (a : Access) (fileConvert : List Nat) : List Nat :=
  if a.withFile ≠ [] then fileConvert else a.convert

theorem sets_parseLine (rel : Relation D) (lastfield : Nat) (convert : List Nat) (r : RowState D) :
    Assigns.Sets (fun values => (parseLine rel lastfield convert { r with values := values }).toOption.map (·.values))
      convert := by
  cases parsed : noDBCopyReadAttributesCSV rel.fmt rel.natts lastfield r.lineBuf r.attributes with
  | error e =>
    refine .fails fun values => ?_
    simp only [parseLine, parsed]
    rfl
  | ok fields =>
    refine cast (congrArg (Assigns.Sets · _) (funext fun values => ?_))
      (sets_noDBGetValues rel.input fields.fieldStrings convert)
    simp only [parseLine, parsed]
    cases noDBGetValues rel.input fields.fieldStrings convert values <;> rfl

theorem sets_convertPositions (rel : Relation D) (convert : List Nat) (r : RowState D) :
    Assigns.Sets (fun values => (convertPositions rel convert { r with values := values }).toOption.map (·.values))
      convert := by
  refine cast (congrArg (Assigns.Sets · _) (funext fun values => ?_))
    (sets_noDBGetValuesWithPM rel.input r.attributes convert r.lineBuf)
  simp only [convertPositions]
  cases noDBGetValuesWithPM rel.input r.attributes convert r.lineBuf values <;> rfl

theorem sets_fetchValues (rel : Relation D) (caches : List (Cache D)) (lastfield row : Nat) (a : Access)
    (fileConvert : List Nat) (r : RowState D) : Assigns.Sets (fetchValues rel caches lastfield row a fileConvert r)
      (colsOf a.withCache ++ a.converted fileConvert) := by
  cases positions : readPositions rel caches row a.withPM r.attributes with
  | none =>
    refine .fails fun values => ?_
    unfold fetchValues fetch
    simp only [positions]
    cases readCaches caches row a.withCache values <;> rfl
  | some attributes =>
    set reached := a.viaPM.foldl (fun attributes via => noDBGetNextTupleViaPM rel.fmt r.lineBuf via attributes) attributes
    by_cases file : a.withFile ≠ []
    · rw [Access.converted, if_pos file]
      have both := (sets_readCaches caches row a.withCache).comp
        (sets_parseLine rel lastfield fileConvert { r with attributes := reached })
      refine cast (congrArg (Assigns.Sets · _) (funext fun values => ?_)) both
      simp only [fetchValues, fetch, positions, if_pos file]
      cases readCaches caches row a.withCache values <;> rfl
    · rw [Access.converted, if_neg file]
      have both := (sets_readCaches caches row a.withCache).comp
        (sets_convertPositions rel a.convert { r with attributes := reached })
      refine cast (congrArg (Assigns.Sets · _) (funext fun values => ?_)) both
      simp only [fetchValues, fetch, positions, if_neg file]
      cases readCaches caches row a.withCache values <;> rfl

/-! ### Where the qual is evaluated -/

/-- The values that `ExecQual` is called with, if it is called for the next row. -/
def qualValues (rel : Relation D) (w : World D) (s : Scan D) : Option (Nat → Value D) :=
  match s.execPlan with
  | .withFilters =>
    match readLine rel w s with
    | (.line, w, s) =>
      let pre := s.plan.curStrategy.preFilter
      (fetch rel w.caches s.lastfield s.processed pre pre.convert s.rowState).toOption.map (·.values)
    | _ => none
  | .withFiltersCacheOnly => readCaches w.caches s.processed s.plan.curStrategy.readPreFilterWithCache s.values
  | _ => none

/-- The columns that the executor functions of a node read before they call `ExecQual`. -/
def Strategy.readBeforeQual (node : Strategy) : List Nat :=
  if noDBReadFromCacheOnly node then colsOf node.readPreFilterWithCache else node.preFilterSources

/-- The qual is a function of these columns. -/
def RefersTo (qual : (Nat → Value D) → Bool) (cols : List Nat) : Prop :=
  ∀ v v' : Nat → Value D, (∀ c ∈ cols, v c = v' c) → qual v = qual v'

/-- The qual is applied to a row with these values and this `pass` flag. -/
structure AppliesQual (rel : Relation D) (w : World D) (s : Scan D) (qual : (Nat → Value D) → Bool)
    (cols : List Nat) (values : Nat → Value D) (pass : Bool) : Prop where
  /-- the row is returned if and only if the qual is true of it -/
  result : pass = qual values
  /-- `ExecQual` is called with the row's values of the columns -/
  called : ∃ seen, qualValues rel w s = some seen ∧ ∀ c ∈ cols, seen c = values c
  /-- and they are of this row, whatever the scan's `values` held before it -/
  own : ∀ c ∈ cols, ∀ seen old seen', qualValues rel w s = some seen →
    qualValues rel w { s with values := old } = some seen' → seen' c = seen c

variable {rel : Relation D} {s : Scan D} {w : World D}

theorem readLine_values {w' : World D} {s' : Scan D} {result : ReadResult} (read : readLine rel w s = (result, w', s'))
    (old : Nat → Value D) : readLine rel w { s with values := old } = (result, w', { s' with values := old }) ∧
      ∃ input, s' = { s with input := input } := by
  cases mode : s.plan.readFile with
  | fromFile =>
    cases read
    exact ⟨rfl, _, rfl⟩
  | fromFileWithEOL =>
    cases read
    exact ⟨rfl, _, rfl⟩

theorem qualValues_cacheOnly (plan : s.execPlan = .withFiltersCacheOnly) :
    qualValues rel w s = readCaches w.caches s.processed s.plan.curStrategy.readPreFilterWithCache s.values := by
  rw [qualValues, plan]

theorem qualValues_withoutFilters (plan : s.execPlan = .plan ∨ s.execPlan = .cacheOnly) :
    qualValues rel w s = none := by
  rcases plan with plan | plan <;> rw [qualValues, plan]

theorem qualValues_file (plan : s.execPlan = .withFilters) {result : ReadResult} {w₁ : World D} {input : RawInput}
    (read : readLine rel w s = (result, w₁, { s with input := input })) :
    qualValues rel w s = if result = .line then fetchValues rel w₁.caches s.lastfield s.processed
      s.plan.curStrategy.preFilter s.plan.curStrategy.convertPreFilter
      ⟨s.values, s.attributes, input.lineBuf⟩ s.values else none := by
  rw [qualValues, plan]
  simp only [read]
  cases result <;> rfl

theorem noDBGetExecPlan_cases (q : Query D) (node : Strategy) : (q.qual.isSome ∧ q.filter ≠ [] ∧
      noDBGetExecPlan q node = if noDBReadFromCacheOnly node then .withFiltersCacheOnly else .withFilters) ∨
    (¬ (q.qual.isSome ∧ q.filter ≠ []) ∧ (noDBGetExecPlan q node = .plan ∨ noDBGetExecPlan q node = .cacheOnly)) := by
  unfold noDBGetExecPlan
  by_cases filters : q.qual.isSome ∧ q.filter ≠ []
  · refine .inl ⟨filters.1, filters.2, ?_⟩
    cases noDBReadFromCacheOnly node <;> simp [filters]
  · refine .inr ⟨filters, ?_⟩
    cases noDBReadFromCacheOnly node <;> simp [filters]

/-- **What `ExecQual` is called with**: the node's columns for it are read, the others are what
they were. -/
theorem sets_qualValues (chosen : s.execPlan = noDBGetExecPlan s.query s.plan.curStrategy) (w : World D) :
    Assigns.Sets (fun old => qualValues rel w { s with values := old }) s.plan.curStrategy.readBeforeQual := by
  obtain ⟨-, -, plan⟩ | ⟨-, plan⟩ := noDBGetExecPlan_cases s.query s.plan.curStrategy
  · by_cases only : noDBReadFromCacheOnly s.plan.curStrategy = true
    · rw [if_pos only] at plan
      have same : (fun old => qualValues rel w { s with values := old }) =
          readCaches w.caches s.processed s.plan.curStrategy.readPreFilterWithCache :=
        funext fun old => qualValues_cacheOnly (s := { s with values := old }) (chosen.trans plan)
      rw [Strategy.readBeforeQual, if_pos only, same]
      exact sets_readCaches ..
    · rw [if_neg only] at plan
      generalize line : readLine rel w s = read
      obtain ⟨result, w₁, s₁⟩ := read
      obtain ⟨-, input, rfl⟩ := readLine_values line s.values
      have call := fun old => qualValues_file (s := { s with values := old }) (chosen.trans plan)
        (readLine_values line old).1
      by_cases delivered : result = .line
      · simp only [if_pos delivered] at call
        have sets := sets_fetchValues rel w₁.caches s.lastfield s.processed s.plan.curStrategy.preFilter
          s.plan.curStrategy.convertPreFilter ⟨s.values, s.attributes, input.lineBuf⟩
        have converted : s.plan.curStrategy.preFilter.converted s.plan.curStrategy.convertPreFilter =
            s.plan.curStrategy.convertPreFilter := ite_self _
        rw [converted] at sets
        rw [Strategy.readBeforeQual, if_neg only, show (fun old => qualValues rel w { s with values := old }) = _
          from funext call]
        exact sets
      · simp only [if_neg delivered] at call
        exact .fails call
  · rw [← chosen] at plan
    exact .fails fun old => qualValues_withoutFilters plan

/-! ### Nodes -/

/-- What a node reads before the qual it does not read again after it. -/
def Strategy.ReadsOnce (node : Strategy) : Prop :=
  ∀ c ∈ node.preFilterSources, c ∉ node.postFilterSources ∧ c ∉ node.readPostFilterWithFile

theorem exists_maps_of_mem_colsOf {map : List ColumnsPerCache} {c : Nat} (mem : c ∈ colsOf map) :
    ∃ i, Maps map i c := by
  obtain ⟨entry, inside, here⟩ := mem_flatMap.1 mem
  exact ⟨entry.cache, entry, inside, rfl, here⟩

theorem readsOnce_strategyNode (byValue : Nat → Bool) (q : QueryInfo) (startRow nrows : Nat)
    (row : Nat → Node) : (strategyNode byValue q startRow nrows row).ReadsOnce := by
  by_cases none : q.filter = []
  · intro c mem
    rw [strategyNode_of_nil none] at mem
    cases mem
  · rw [strategyNode_of_filter none]
    intro c mem
    -- The second request is without what the first call reads and converts.
    have before : c ∈ q.filter ∨ c ∈ (firstReply byValue q row).convert := by
      rcases mem_append.1 mem with hit | converted
      · obtain ⟨i, maps⟩ := exists_maps_of_mem_colsOf hit
        have read := (maps_mapDataHit.1 maps).2.1
        rw [QueryInfo.firstRequest, if_neg none] at read
        exact .inl read
      · exact .inr converted
    have notRead : c ∉ (restRequest byValue q row).read := by
      intro read
      have apart := (mem_filter.1 read).2
      simp only [Bool.and_eq_true, decide_eq_true_eq] at apart
      exact before.elim apart.1 apart.2
    have notConverted : ¬ Converts (restRequest byValue q row) row c := by
      rintro (⟨read, -⟩ | ⟨write, -⟩)
      · exact notRead read
      · cases write
    refine ⟨fun after => ?_, fun after => ?_⟩
    · rcases mem_append.1 after with hit | converted
      · obtain ⟨i, maps⟩ := exists_maps_of_mem_colsOf hit
        exact notRead (maps_mapDataHit.1 maps).2.1
      · exact notConverted (mem_convert_fillRow.1 converted).2
    · rcases needs_of_mem_collectFromFile after with converted | ⟨write, -⟩
      · exact notConverted converted
      · cases write

theorem readsOnce_buildStrategy (byValue : Nat → Bool) (q : QueryInfo) (rows : List Nat)
    (caches : List (Cache D)) : ∀ node ∈ (buildStrategy byValue q rows caches).1, node.ReadsOnce := by
  intro node mem
  obtain ⟨rowIdx, -, rfl⟩ := mem_map.1 mem
  exact readsOnce_strategyNode byValue q _ _ _

/-! ### Scans -/

/-- The states of a scan for a query: it is started, makes row steps and is rescanned, and each
time the world may be any. -/
inductive Scanning (rel : Relation D) (q : Query D) : Scan D → Prop where
  | start (w : World D) : Scanning rel q (noDBScanStateInit rel w q).2
  | row {s : Scan D} (scanning : Scanning rel q s) (w : World D) : Scanning rel q (execNoDBPlan rel w s).2.2
  | rescan {s : Scan D} (scanning : Scanning rel q s) {w w' : World D} {s' : Scan D}
      (again : noDBScanStateReInit rel w s = some (w', s')) : Scanning rel q s'

/-- What a scan keeps: its query, nodes that read columns once, and an executor function that is
the one for the node, or the one that it gets at the end of the data. -/
structure Scan.Follows (q : Query D) (s : Scan D) : Prop where
  query : s.query = q
  nodes : ∀ node ∈ s.plan.iterator.strategy, node.ReadsOnce
  chosen : s.execPlan = noDBGetExecPlan q s.plan.curStrategy ∨ s.execPlan = .plan

theorem readsOnce_get {byValue : Nat → Bool} {it : StrategyIterator} (nodes : ∀ node ∈ it.strategy, node.ReadsOnce)
    (caches : List (Cache D)) :
    ∀ node ∈ (noDBScanStrategyIteratorGet byValue it caches).1.strategy, node.ReadsOnce := by
  unfold noDBScanStrategyIteratorGet
  split
  · exact readsOnce_buildStrategy byValue it.queryInfo _ caches
  · exact nodes

theorem readsOnce_firstStrategy (byValue : Nat → Bool) (q : QueryInfo) (caches : List (Cache D)) :
    ∀ node ∈ (firstStrategy byValue q caches).1.strategy, node.ReadsOnce := by
  have created : ∀ node ∈ (noDBScanStrategyIterator byValue q caches).1.strategy, node.ReadsOnce := by
    unfold noDBScanStrategyIterator
    split
    · nofun
    · exact readsOnce_buildStrategy byValue q _ caches
  exact readsOnce_get created _

namespace Scan.Follows

variable {rel : Relation D} {q : Query D} {w w' : World D} {s s' : Scan D}

theorem current (follows : s.Follows q) : s.plan.curStrategy.ReadsOnce := by
  unfold PlanState.curStrategy StrategyIterator.current
  rw [getD_eq_getElem?_getD]
  cases node : s.plan.iterator.strategy[s.plan.iterator.cur]? with
  | none => nofun
  | some node' => exact follows.nodes node' (mem_of_getElem? node)

/-- Nothing depends on the counters, the reading state and the row. -/
theorem congr (follows : s.Follows q) (query : s'.query = s.query)
    (iterator : s'.plan.iterator = s.plan.iterator) (execPlan : s'.execPlan = s.execPlan) : s'.Follows q where
  query := query.trans follows.query
  nodes := by
    rw [iterator]
    exact follows.nodes
  chosen := by
    rw [execPlan, PlanState.curStrategy, iterator]
    exact follows.chosen

variable (rel w) in
theorem nextStrategy (follows : s.Follows q) : (nextStrategy rel w s).2.Follows q where
  query := follows.query
  nodes := @readsOnce_get D rel.byValue (noDBScanStrategyIteratorNext s.plan.iterator) follows.nodes w.caches
  chosen := .inl (congrArg (noDBGetExecPlan · _) follows.query)

theorem noDBUpdateStrategy (follows : s.Follows q) (updated : noDBUpdateStrategy rel w s = some (w', s')) :
    s'.Follows q := by
  obtain ⟨-, -, rfl⟩ | ⟨-, ended, input, -, result⟩ := noDBUpdateStrategy_cases updated
  · exact follows.congr rfl rfl rfl
  · cases ended with
    | true =>
      cases result
      exact ⟨follows.query, follows.nodes, .inr rfl⟩
    | false =>
      have counted : (storeReader (finalizeNode w s) s.countDown input).2.Follows q := follows.congr rfl rfl rfl
      have next := counted.nextStrategy rel (storeReader (finalizeNode w s) s.countDown input).1
      rw [← show _ = PostgresRaw.nextStrategy rel _ _ from result] at next
      exact next

theorem advance (follows : s.Follows q) (pass : Bool) : (advance rel w s pass).2.2.Follows q := by
  have counted : s.counted.Follows q := follows.congr rfl rfl rfl
  rcases advance_cases rel w s pass with ⟨-, result⟩ | ⟨-, -, result⟩ | ⟨-, w', s', updated, result⟩
  · rw [result]
    exact counted
  · rw [result]
    exact counted
  · rw [result]
    exact counted.noDBUpdateStrategy updated

theorem readLine (follows : s.Follows q) {result : ReadResult} (read : readLine rel w s = (result, w', s')) :
    s'.Follows q := by
  obtain ⟨-, input, rfl⟩ := readLine_values read s.values
  exact follows.congr rfl rfl rfl

theorem execNoDBPlan (follows : s.Follows q) : (execNoDBPlan rel w s).2.2.Follows q := by
  have outcome := execNoDBPlan_outcome rel w s
  generalize PostgresRaw.execNoDBPlan rel w s = out at outcome
  cases outcome with
  | outside => exact follows
  | cached _ values pass =>
    refine advance ?_ pass
    exact follows.congr rfl rfl rfl
  | ended _ read => exact follows.readLine read
  | failed _ read => exact follows.readLine read
  | unwritten _ read => exact (follows.readLine read).congr rfl rfl rfl
  | row _ read row pass =>
    refine advance ?_ pass
    exact (follows.readLine read).congr rfl rfl rfl

variable (rel w) in
theorem restart (follows : s.Follows q) : (restart rel w s).2.Follows q where
  query := follows.query
  nodes := readsOnce_firstStrategy rel.byValue _ _
  chosen := .inl (congrArg (noDBGetExecPlan · _) follows.query)

theorem noDBScanStateReInit (follows : s.Follows q) (again : noDBScanStateReInit rel w s = some (w', s')) :
    s'.Follows q := by
  obtain ⟨input, ⟨-, rfl, rfl⟩ | result⟩ := noDBScanStateReInit_cases again
  · exact ⟨follows.query, follows.nodes, .inl (congrArg (noDBGetExecPlan · _) follows.query)⟩
  · cases result
    refine restart rel _ ?_
    exact follows.congr rfl rfl rfl

end Scan.Follows

theorem Scanning.follows {q : Query D} (scanning : Scanning rel q s) : s.Follows q := by
  induction scanning with
  | start w => exact ⟨rfl, readsOnce_firstStrategy rel.byValue _ _, .inl rfl⟩
  | row _ w ih => exact ih.execNoDBPlan
  | rescan _ again ih => exact ih.noDBScanStateReInit again

/-! ### The row that is returned -/

section

variable {rel : Relation D} {w w' : World D} {s s' : Scan D} {values : Nat → Value D} {pass pass' : Bool}

theorem noDBUpdateStrategy_values (updated : noDBUpdateStrategy rel w s = some (w', s')) : s'.values = s.values := by
  obtain ⟨-, -, rfl⟩ | ⟨-, ended, input, -, result⟩ := noDBUpdateStrategy_cases updated
  · rfl
  · cases ended with
    | true =>
      cases result
      rfl
    | false => exact congrArg (fun next : World D × Scan D => next.2.values) result

theorem advance_tuple (advanced : advance rel w s pass = (.tuple values pass', w', s')) :
    values = s.values ∧ pass' = pass := by
  rcases advance_cases rel w s pass with ⟨-, result⟩ | ⟨-, -, result⟩ | ⟨-, w₁, s₁, updated, result⟩
  · cases result.symm.trans advanced
    exact ⟨rfl, rfl⟩
  · cases result.symm.trans advanced
  · cases result.symm.trans advanced
    exact ⟨(noDBUpdateStrategy_values updated :), rfl⟩

theorem finishRow_tuple (finished : finishRow rel w s pass = (.tuple values pass', w', s')) :
    values = s.values ∧ pass' = pass := by
  unfold finishRow at finished
  split at finished
  · cases finished
  · exact advance_tuple finished

/-- What the columns read after the qual leave alone. -/
theorem fetch_others {caches : List (Cache D)} {lastfield row : Nat} {a : Access} {fileConvert : List Nat}
    {r r' : RowState D} (fetched : fetch rel caches lastfield row a fileConvert r = .ok r') {c : Nat}
    (absent : c ∉ colsOf a.withCache ++ a.converted fileConvert) : r'.values c = r.values c := by
  have done : fetchValues rel caches lastfield row a fileConvert r r.values = some r'.values := by
    rw [fetchValues, fetched]
    rfl
  exact (sets_fetchValues rel caches lastfield row a fileConvert r).others done absent

/-- **With filters** the row passes by what `ExecQual` says about the values that it is called
with, and of these the columns read for it stay. -/
theorem execNoDBPlan_withFilters (once : s.plan.curStrategy.ReadsOnce)
    (filters : s.execPlan = .withFilters ∨ s.execPlan = .withFiltersCacheOnly)
    (row : execNoDBPlan rel w s = (.tuple values pass, w', s')) :
    ∃ seen, qualValues rel w s = some seen ∧ pass = execQual s.query seen ∧
      ∀ c ∈ s.plan.curStrategy.preFilterSources, seen c = values c := by
  unfold execNoDBPlan at row
  rcases filters with plan | plan
  · rw [plan] at row
    simp only [noDBExecPlanWithFilters] at row
    split at row
    · cases row
    · next e _ _ _ => cases e <;> cases row
    · next w₁ s₁ read =>
      obtain ⟨-, input, rfl⟩ := readLine_values read s.values
      have call := qualValues_file plan read
      rw [if_pos rfl] at call
      split at row
      · next e _ => cases e <;> cases row
      · next r fetched =>
        have seen : qualValues rel w s = some r.values := by
          rw [call, fetchValues]
          exact congrArg (fun result => (Except.toOption result).map RowState.values) fetched
        refine ⟨r.values, seen, ?_⟩
        split at row
        · next passes =>
          split at row
          · next e _ => cases e <;> cases row
          · next r' fetched' =>
            obtain ⟨rfl, rfl⟩ := finishRow_tuple row
            refine ⟨passes.symm, fun c mem => (fetch_others fetched' ?_).symm⟩
            obtain ⟨notPost, notFile⟩ := once c mem
            simp only [Strategy.postFilterSources, mem_append, not_or] at notPost
            rw [mem_append, not_or, Access.converted]
            refine ⟨notPost.1, ?_⟩
            split
            · exact notFile
            · exact notPost.2
        · next fails =>
          obtain ⟨rfl, rfl⟩ := finishRow_tuple row
          exact ⟨(Bool.eq_false_iff.2 fails).symm, fun c _ => rfl⟩
  · rw [plan] at row
    simp only [noDBExecPlanWithFiltersCacheOnly] at row
    split at row
    · cases row
    · next seen copied =>
      refine ⟨seen, (qualValues_cacheOnly plan).trans copied, ?_⟩
      split at row
      · next passes =>
        split at row
        · cases row
        · next final copied' =>
          obtain ⟨rfl, rfl⟩ := advance_tuple row
          refine ⟨passes.symm, fun c mem => ((sets_readCaches ..).others copied' ?_).symm⟩
          have notPost := (once c mem).1
          simp only [Strategy.postFilterSources, mem_append, not_or] at notPost
          exact notPost.1
      · next fails =>
        obtain ⟨rfl, rfl⟩ := advance_tuple row
        exact ⟨(Bool.eq_false_iff.2 fails).symm, fun c _ => rfl⟩

theorem mem_preFilterSources_of_readBeforeQual {node : Strategy} {c : Nat} (mem : c ∈ node.readBeforeQual) :
    c ∈ node.preFilterSources := by
  unfold Strategy.readBeforeQual at mem
  split at mem
  · exact mem_append_left _ mem
  · exact mem

/-- **When a scan applies its qual**: for a row that a scan returns or drops, `pass` is the qual of
the row's own values if and only if the executor function is the one chosen for the node (the end
of the data has not been met), the query descriptor has a reference of the qual under the name of
the relation, and the node reads every column of the qual before it. -/
theorem appliesQual_iff {db : Database D} {d : QueryDescriptor} {scan : PlanScan D}
    {qual : (Nat → Value D) → Bool} (hasQual : scan.qual = some qual) {cols : List Nat}
    (refers : RefersTo qual cols) (scanning : Scanning (db.rel scan.relation) (scanQuery db d scan) s)
    (row : execNoDBPlan (db.rel scan.relation) w s = (.tuple values pass, w', s')) :
    AppliesQual (db.rel scan.relation) w s qual cols values pass ↔
      s.execPlan = noDBGetExecPlan s.query s.plan.curStrategy ∧
        d.getQueryFilterAttributes (db.attrs scan.relation) (db.name scan.relation) ≠ [] ∧
        ∀ c ∈ cols, c ∈ s.plan.curStrategy.readBeforeQual := by
  have follows := scanning.follows
  have filter : s.query.filter =
      d.getQueryFilterAttributes (db.attrs scan.relation) (db.name scan.relation) := by
    rw [follows.query, Query.filter, if_pos (by rw [scanQuery, hasQual]; rfl)]
    rfl
  have isSome : s.query.qual.isSome = true := by
    rw [follows.query, scanQuery, hasQual]
    rfl
  constructor
  · intro applies
    obtain ⟨seen, called, -⟩ := applies.called
    have chosen : s.execPlan = noDBGetExecPlan s.query s.plan.curStrategy := by
      rcases follows.chosen with chosen | atEnd
      · rw [follows.query]
        exact chosen
      · rw [qualValues_withoutFilters (.inl atEnd)] at called
        cases called
    refine ⟨chosen, fun none => ?_, fun c mem => ?_⟩
    · -- Without filter columns `ExecQual` is not called.
      rw [← filter] at none
      obtain ⟨-, some, -⟩ | ⟨-, plan⟩ := noDBGetExecPlan_cases s.query s.plan.curStrategy
      · exact some none
      · rw [← chosen] at plan
        rw [qualValues_withoutFilters plan] at called
        cases called
    · refine ((sets_qualValues chosen w).mem_iff (v := s.values) called c).2 fun old seen' again => ?_
      exact applies.own c mem seen old seen' called again
  · rintro ⟨chosen, some, reads⟩
    rw [← filter] at some
    have filters : s.execPlan = .withFilters ∨ s.execPlan = .withFiltersCacheOnly := by
      obtain ⟨-, -, plan⟩ | ⟨without, -⟩ := noDBGetExecPlan_cases s.query s.plan.curStrategy
      · rw [chosen, plan]
        cases noDBReadFromCacheOnly s.plan.curStrategy
        · exact .inl rfl
        · exact .inr rfl
      · exact absurd ⟨isSome, some⟩ without
    obtain ⟨seen, called, passes, kept⟩ := execNoDBPlan_withFilters follows.current filters row
    have same : ∀ c ∈ cols, seen c = values c :=
      fun c mem => kept c (mem_preFilterSources_of_readBeforeQual (reads c mem))
    refine ⟨?_, ⟨seen, called, same⟩, fun c mem seen₁ old seen' called₁ again => ?_⟩
    · rw [passes, execQual, follows.query, scanQuery, hasQual]
      exact refers seen values same
    · obtain rfl : seen = seen₁ := Option.some.inj (called.symm.trans called₁)
      exact ((sets_qualValues chosen w).mem_iff (v := s.values) called c).1 (reads c mem) old seen' again

end

end

/-! ### A qual under another name -/

/-- A scan of `t` with the qual `b = 5`. -/
def scanFive : PlanScan Nat := ⟨0, some fun v => decide (v 1 = .datum 53)⟩

theorem refersTo_scanFive : RefersTo (fun v : Nat → Value Nat => decide (v 1 = .datum 53)) [1] :=
  fun v v' same => by simp only [same 1 (mem_singleton.2 rfl)]

/-- The query descriptor of `SELECT *` with that qual, which is deparsed to a reference to a column
of `name`. -/
def whereFive (name : String) : QueryDescriptor :=
  (QueryDescriptor.empty.addColumnInformation ⟨none, none, none, none, true⟩).visitQual
    [⟨some "b", some name, some "public", none, false⟩]

/-- The scan of that query, before its first row. -/
def startFive (name : String) : World Nat × Scan Nat :=
  noDBScanStateInit (byteTable.rel 0) .initial (scanQuery byteTable (whereFive name) scanFive)

/-- What the first row step gives: the value of `b` and the `pass` flag. -/
def firstRow (name : String) : Option (Value Nat × Bool) :=
  match execNoDBPlan (byteTable.rel 0) (startFive name).1 (startFive name).2 with
  | (.tuple values pass, _) => some (values 1, pass)
  | _ => none

theorem exists_firstRow {name : String} {b : Value Nat} {pass : Bool} (first : firstRow name = some (b, pass)) :
    ∃ values w' s', values 1 = b ∧
      execNoDBPlan (byteTable.rel 0) (startFive name).1 (startFive name).2 = (.tuple values pass, w', s') := by
  unfold firstRow at first
  split at first
  · next values pass' ws row =>
    cases first
    exact ⟨values, ws.1, ws.2, rfl, row⟩
  · cases first

/-- Under the name of the relation the qual is applied to the first row, which is dropped. -/
theorem appliesQual_iff_named :
    ∃ values w' s', execNoDBPlan (byteTable.rel 0) (startFive "t").1 (startFive "t").2 = (.tuple values false, w', s') ∧
      AppliesQual (byteTable.rel 0) (startFive "t").1 (startFive "t").2
        (fun v => decide (v 1 = .datum 53)) [1] values false := by
  obtain ⟨values, w', s', -, row⟩ := exists_firstRow (show firstRow "t" = some (.datum 50, false) by decide +kernel)
  have scanning : Scanning (byteTable.rel scanFive.relation) (scanQuery byteTable (whereFive "t") scanFive)
      (startFive "t").2 := .start _
  exact ⟨values, w', s', row, (appliesQual_iff rfl refersTo_scanFive scanning row).2
    ⟨rfl, by decide +kernel, by decide +kernel⟩⟩

/-- The second reference to `t` in a query is deparsed as `t_1`.  The row `1,2,3` is returned. -/
theorem not_appliesQual_unnamed :
    ∃ values w' s', execNoDBPlan (byteTable.rel 0) (startFive "t_1").1 (startFive "t_1").2 = (.tuple values true, w', s') ∧
      values 1 = .datum 50 ∧
      ¬ AppliesQual (byteTable.rel 0) (startFive "t_1").1 (startFive "t_1").2
        (fun v => decide (v 1 = .datum 53)) [1] values true := by
  obtain ⟨values, w', s', b, row⟩ := exists_firstRow (show firstRow "t_1" = some (.datum 50, true) by decide +kernel)
  refine ⟨values, w', s', row, b, fun applies => ?_⟩
  have result := applies.result
  simp [b] at result

end PostgresRaw
