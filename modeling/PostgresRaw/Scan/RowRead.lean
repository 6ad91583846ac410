import PostgresRaw.Scan.Phase

/-!
# One row of a phase

What the executor functions make of a row whose node has been planned from sound caches: either a
type-input function rejects a field, or the columns that the query reads have the values of the
record (`fileRow_cases`, `cacheRow_eq`).

With a qual, the columns behind it need no second look at the line: each of them is either in a data
cache, or has been converted before the qual because it is to be written.  This is where a lock
that someone else holds would matter.
-/

namespace PostgresRaw

section

variable {D : Type} {rel : Relation D} {records : List (PlainRecord rel.fmt rel.natts)} {task : Task D}
  {phase : Phase D}

/-- The columns of a row have been read, and the row passes or not. -/
structure RowRead (rel : Relation D) (task : Task D) (record : PlainRecord rel.fmt rel.natts)
    (node : Nat → Node) (old new : RowState D) (pass : Bool) : Prop where
  data : ∀ c ∈ task.info.cols, ∀ i, c ∈ task.writeData → (node c).mark .data = .add i →
    record.Accepts rel.input c ∧ new.values c = record.value rel.input c
  positions : ∀ c ∈ task.info.cols, ∀ i, c ∈ task.writePositions → (node c).mark .positions = .add i →
    new.attributes c = record.pair c
  start : (new.attributes 0).pointer = 0
  others : ∀ c ∉ task.query.readAll, new.values c = old.values c
  /-- the qual is evaluated if there are filter columns, with their values in the record -/
  qual : if task.query.filter = [] then pass = true else
    ∃ seen, pass = execQual task.query seen ∧ ∀ c ∈ task.query.filter, seen c = record.value rel.input c
  all : pass = true → ∀ c ∈ task.query.readAll, new.values c = record.value rel.input c

/-! ### Columns in a node -/

section

variable {valid : phase.Valid rel records task} {caches : List (Cache D)} {e pos j p : Nat}

variable {c : Nat}

theorem Progress.hit_readable (progress : Progress valid caches e pos) (inside : j < phase.count)
    (node : valid.cuts.InNode j p) {i : Nat} (hit : ((phase.planning task).matrix j c).mark .data = .hit i) :
    Readable rel records caches .data i c p :=
  progress.readable ((valid.aligned .data).claims_node inside node (valid.built.hit hit))

theorem Progress.anchor_readable (progress : Progress valid caches e pos) (inside : j < phase.count)
    (node : valid.cuts.InNode j p) {b : Closest} (closest : ((phase.planning task).matrix j c).closest = some b) :
    Readable rel records caches .positions b.cache b.column p :=
  progress.readable ((valid.aligned .positions).claims_node inside node (valid.built.closest inside closest).1)

/-- A column to be cached is in a data cache or about to be written. -/
theorem Phase.Valid.hit_or_add (valid : phase.Valid rel records task) (inside : j < phase.count)
    (mem : c ∈ task.info.cols) (writes : c ∈ task.writeData) :
    ∃ i, ((phase.planning task).matrix j c).mark .data = .hit i ∨
      ((phase.planning task).matrix j c).mark .data = .add i := by
  by_cases covered : (lane phase.base .data).Covers c (valid.cuts.row j)
  · obtain ⟨i, hit⟩ := valid.built.cached inside mem covered
    exact ⟨i, .inl hit⟩
  · obtain ⟨i, mark⟩ := (valid.ready .data).mark_of_missing (c := c) writes inside covered
    exact ⟨i, .inr (Mark.added_eq_some.1 mark)⟩

variable (byValue : Nat → Bool)

/-- What is left behind the qual is in data caches. -/
theorem Phase.Valid.not_needs_rest (valid : phase.Valid rel records task) (proper : task.Proper rel.natts)
    (filters : task.query.filter ≠ []) (inside : j < phase.count) (c : Nat) :
    ¬ Needs (restRequest byValue task.info ((phase.planning task).matrix j)) ((phase.planning task).matrix j) c := by
  have first := valid.built.firstReply byValue inside
  rintro ((⟨read, noHit⟩ | ⟨write, -⟩) | ⟨write, -⟩)
  · obtain ⟨isRest, apart⟩ := List.mem_filter.1 read
    simp only [Bool.and_eq_true, decide_eq_true_eq] at apart
    have writes := proper.unlocked.resolve_left filters c isRest
    have mem := proper.mem_cols.2 (Query.mem_rest isRest)
    obtain ⟨i, hit | add⟩ := valid.hit_or_add inside mem writes
    · exact noHit i hit
    · exact apart.2 (first.convert.2 ⟨mem, .inr ⟨writes, i, add⟩⟩)
  · cases write
  · cases write

end

/-! ### Fetching -/

section

variable {valid : phase.Valid rel records task} {caches : List (Cache D)} {e pos j p : Nat}
  {byValue : Nat → Bool} {record : PlainRecord rel.fmt rel.natts} {r : RowState D} {lastfield : Nat}

variable (byValue) in
/-- The first request of a row. -/
theorem Progress.fetch_first (progress : Progress valid caches e pos) (proper : task.Proper rel.natts)
    (inside : j < phase.count) (node : valid.cuts.InNode j p) (here : records[p]? = some record)
    (last : lastfield = task.query.readAll.getLast?.getD 0) (line : r.lineBuf = record.line)
    (start : (r.attributes 0).pointer = 0) :
    let reply := firstReply byValue task.info ((phase.planning task).matrix j)
    (fetch rel caches lastfield p reply.access reply.access.convert r = .error (.error .rejectedInput) ∧
        ∃ c ∈ task.query.readAll, ¬ record.Accepts rel.input c) ∨
      ∃ r', fetch rel caches lastfield p reply.access reply.access.convert r = .ok r' ∧
        Fetched rel record task.info.cols task.info.firstRequest ((phase.planning task).matrix j) r r' := by
  have filled := valid.built.firstReply byValue inside
  rcases fetch_cases filled (fun c mem => proper.query.inside c (proper.mem_cols.1 mem)) line
      (noEmpty_fillRow byValue _ _ _) (fun c mem => last ▸ proper.query.le_lastfield (proper.mem_cols.1 mem))
      (fun _ hit => progress.hit_readable inside node hit)
      (fun _ closest => progress.anchor_readable inside node closest) here start with
    ⟨fails, c, mem, -, rejects⟩ | fetched
  · exact .inl ⟨fails, c, proper.mem_cols.1 mem, rejects⟩
  · exact .inr fetched

variable (byValue lastfield) in
/-- The second request copies from data caches. -/
theorem Progress.fetch_rest (progress : Progress valid caches e pos) (proper : task.Proper rel.natts)
    (filters : task.query.filter ≠ []) (inside : j < phase.count) (node : valid.cuts.InNode j p)
    (here : records[p]? = some record) (fileConvert : List Nat) (r : RowState D) :
    let reply := restReply byValue task.info ((phase.planning task).matrix j)
    ∃ values, readCaches caches p reply.mapDataHit r.values = some values ∧
      fetch rel caches lastfield p reply.access fileConvert r = .ok { r with values := values } ∧
      Loads reply.mapDataHit (record.value rel.input) r.values values := by
  have filled := valid.built.restReply byValue inside
  have noNeeds := valid.not_needs_rest byValue proper filters inside
  obtain ⟨noMaps, noVias, noFile⟩ := filled.idle fun c _ => noNeeds c
  have noConvert : (restReply byValue task.info ((phase.planning task).matrix j)).convert = [] :=
    List.eq_nil_iff_forall_not_mem.2 fun c mem => noNeeds c (.inl (filled.convert.1 mem).2)
  intro reply
  obtain ⟨values, copied, result⟩ := readCaches_eq here (noEmpty_fillRow byValue _ _ _).hit
    (fun there => progress.hit_readable inside node (filled.hit.1 there).2.2) r.values
  refine ⟨values, copied, ?_, result⟩
  rw [fetch_eq (a := reply.access) copied (by rw [show reply.access.withPM = [] from noMaps]; rfl),
    show reply.access.viaPM = [] from noVias, if_neg fun some => some noFile,
    show reply.access.convert = [] from noConvert]
  rfl

variable {node : Nat → Node} {r' : RowState D}

/-- What the first request leaves to be written. -/
theorem Fetched.written (fetched : Fetched rel record task.info.cols task.info.firstRequest node r r') :
    (∀ c ∈ task.info.cols, ∀ i, c ∈ task.writeData → (node c).mark .data = .add i →
        record.Accepts rel.input c ∧ r'.values c = record.value rel.input c) ∧
      ∀ c ∈ task.info.cols, ∀ i, c ∈ task.writePositions → (node c).mark .positions = .add i →
        r'.attributes c = record.pair c := by
  refine ⟨fun c mem i writes mark => ?_, fun c mem i writes mark => ?_⟩
  · have converts : Converts task.info.firstRequest node c := .inr ⟨writes, i, mark⟩
    exact ⟨fetched.accepted c mem converts, fetched.read c mem (.inr converts)⟩
  · exact fetched.positions c mem (.inr ⟨writes, i, mark⟩)

section

variable (proper : task.Proper rel.natts)
include proper

section

variable (fetched : Fetched rel record task.info.cols task.info.firstRequest node r r')

include fetched

theorem Fetched.others (c : Nat) (absent : c ∉ task.query.readAll) : r'.values c = r.values c:=
  fetched.unread c fun read => absent (proper.mem_cols.1 read.1)

/-- A row without filter columns. -/
theorem Fetched.rowRead (none : task.query.filter = []) :
    RowRead rel task record node r r' true where
  data := fetched.written.1
  positions := fetched.written.2
  start := fetched.start
  others := fetched.others proper
  qual := by rw [if_pos none]
  all _ c mem := by
    refine fetched.read c (proper.mem_cols.2 mem) (.inl ?_)
    rw [QueryInfo.firstRequest, if_pos (show task.info.filter = [] from none)]
    change c ∈ task.query.rest
    rwa [Query.rest_of_filter_nil none]

/-- The filter columns have been read before the qual. -/
theorem Fetched.filter (some : task.query.filter ≠ []) :
    ∀ c ∈ task.query.filter, r'.values c = record.value rel.input c := by
  intro c mem
  refine fetched.read c (proper.mem_cols.2 (proper.query.mem_filter mem)) (.inl ?_)
  rw [QueryInfo.firstRequest, if_neg (show task.info.filter ≠ [] from some)]
  exact mem

/-- A row that does not pass. -/
theorem Fetched.rowRead_fails (some : task.query.filter ≠ [])
    (fails : execQual task.query r'.values = false) : RowRead rel task record node r r' false where
  data := fetched.written.1
  positions := fetched.written.2
  start := fetched.start
  others := fetched.others proper
  qual := by
    rw [if_neg some]
    exact ⟨r'.values, fails.symm, fetched.filter proper some⟩
  all := nofun

end

end

/-- A row that passes, once the columns behind the qual have been copied. -/
theorem Fetched.rowRead_passes (valid : phase.Valid rel records task) (proper : task.Proper rel.natts)
    (some : task.query.filter ≠ []) (inside : j < phase.count)
    (fetched : Fetched rel record task.info.cols task.info.firstRequest ((phase.planning task).matrix j) r r')
    (passes : execQual task.query r'.values = true) {values : Nat → Value D}
    (copied : Loads (restReply byValue task.info ((phase.planning task).matrix j)).mapDataHit (record.value rel.input)
      r'.values values) :
    RowRead rel task record ((phase.planning task).matrix j) r { r' with values := values } true := by
  have rest := valid.built.restReply byValue inside
  have first := valid.built.firstReply byValue inside
  -- A value that is right before the second request is right afterwards.
  have stays : ∀ {c}, r'.values c = record.value rel.input c → values c = record.value rel.input c := by
    intro c right
    by_cases again : ∃ i, Maps (restReply byValue task.info ((phase.planning task).matrix j)).mapDataHit i c
    · exact (copied c).1 again
    · rw [(copied c).2 (not_exists.1 again), right]
  refine ⟨fun c mem i writes mark => ?_, fetched.written.2, fetched.start, fun c absent => ?_, ?_, fun _ c mem => ?_⟩
  · obtain ⟨accepts, right⟩ := fetched.written.1 c mem i writes mark
    exact ⟨accepts, stays right⟩
  · refine ((copied c).2 fun i there => absent ?_).trans (fetched.others proper c absent)
    exact proper.mem_cols.1 (rest.hit.1 there).1
  · rw [if_neg some]
    exact ⟨r'.values, passes.symm, fetched.filter proper some⟩
  · rcases Query.mem_filter_or_rest mem with isFilter | isRest
    · exact stays (fetched.filter proper some c isFilter)
    · have inCols := proper.mem_cols.2 mem
      by_cases converted : c ∈ (firstReply byValue task.info ((phase.planning task).matrix j)).convert
      · exact stays (fetched.read c inCols (.inr (first.convert.1 converted).2))
      · by_cases isFilter : c ∈ task.query.filter
        · exact stays (fetched.filter proper some c isFilter)
        · -- Neither converted nor a filter column: it is copied from a data cache.
          obtain ⟨i, hit | add⟩ := valid.hit_or_add inside inCols (proper.unlocked.resolve_left some c isRest)
          · refine (copied c).1 ⟨i, rest.hit.2 ⟨inCols, List.mem_filter.2 ⟨isRest, ?_⟩, hit⟩⟩
            simp only [Bool.and_eq_true, decide_eq_true_eq]
            exact ⟨isFilter, converted⟩
          · exact absurd (first.convert.2 ⟨inCols, .inr ⟨proper.unlocked.resolve_left some c isRest, i, add⟩⟩) converted

end

/-! ### The executor functions -/

section

variable {valid : phase.Valid rel records task} {e pos j : Nat} {record : PlainRecord rel.fmt rel.natts}
  {w : World D} {s : Scan D}

variable {s₁ : Scan D} {w₁ : World D}

/-- `NoDBExecPlan`, once it has a line. -/
theorem execNoDBPlan_plan (exec : s.execPlan = .plan) (read : readLine rel w s = (.line, w₁, s₁)) :
    execNoDBPlan rel w s =
      match fetch rel w₁.caches s₁.lastfield s₁.processed s₁.plan.curStrategy.postFilter
        s₁.plan.curStrategy.postFilter.convert s₁.rowState with
      | .error e => (e.result, w₁, s₁)
      | .ok r => finishRow rel w₁ (s₁.setRowState r) true := by
  rw [execNoDBPlan, exec]
  simp only [noDBExecPlan, read] <;> rfl

/-- `NoDBExecPlanWithFilters`, once it has a line. -/
theorem execNoDBPlan_withFilters_line (exec : s.execPlan = .withFilters) (read : readLine rel w s = (.line, w₁, s₁)) :
    execNoDBPlan rel w s =
      match fetch rel w₁.caches s₁.lastfield s₁.processed s₁.plan.curStrategy.preFilter
        s₁.plan.curStrategy.preFilter.convert s₁.rowState with
      | .error e => (e.result, w₁, s₁)
      | .ok r =>
        if execQual s₁.query r.values then
          match fetch rel w₁.caches s₁.lastfield s₁.processed s₁.plan.curStrategy.postFilter
            s₁.plan.curStrategy.postFilter.withFile r with
          | .error e => (e.result, w₁, s₁)
          | .ok r => finishRow rel w₁ (s₁.setRowState r) true
        else finishRow rel w₁ (s₁.setRowState r) false := by
  rw [execNoDBPlan, exec]
  simp only [noDBExecPlanWithFilters, read] <;> rfl

theorem finishRow_of_none {pass : Bool}
    (none : writeCaches s.plan.curStrategy s.processed s.values s.attributes w.caches = none) :
    finishRow rel w s pass = (.fault, w, s) := by
  rw [finishRow, none]

theorem finishRow_of_some {pass : Bool} {caches : List (Cache D)}
    (written : writeCaches s.plan.curStrategy s.processed s.values s.attributes w.caches = some caches) :
    finishRow rel w s pass = advance rel { w with caches := caches } s pass := by
  rw [finishRow, written]

/-- `NoDBExecPlanCacheOnly`, once it has its values. -/
theorem execNoDBPlan_cacheOnly {values : Nat → Value D} (exec : s.execPlan = .cacheOnly)
    (copied : readCaches w.caches s.processed s.plan.curStrategy.readPostFilterWithCache s.values = some values) :
    execNoDBPlan rel w s = advance rel w { s with values := values } true := by
  rw [show execNoDBPlan rel w s = noDBExecPlanCacheOnly rel w s by rw [execNoDBPlan, exec], noDBExecPlanCacheOnly,
    copied]

/-- `NoDBExecPlanWithFiltersCacheOnly`, once it has the values of the qual. -/
theorem execNoDBPlan_withFiltersCacheOnly {values : Nat → Value D} (exec : s.execPlan = .withFiltersCacheOnly)
    (copied : readCaches w.caches s.processed s.plan.curStrategy.readPreFilterWithCache s.values = some values) :
    execNoDBPlan rel w s =
      if execQual s.query values then
        match readCaches w.caches s.processed s.plan.curStrategy.readPostFilterWithCache values with
        | none => (.fault, w, s)
        | some values => advance rel w { s with values := values } true
      else advance rel w { s with values := values } false := by
  rw [show execNoDBPlan rel w s = noDBExecPlanWithFiltersCacheOnly rel w s by rw [execNoDBPlan, exec],
    noDBExecPlanWithFiltersCacheOnly, copied] <;> rfl

/-- What reading a line leaves of a scan. -/
structure SameScan (s s₁ : Scan D) : Prop where
  query : s₁.query = s.query
  lastfield : s₁.lastfield = s.lastfield
  plan : s₁.plan = s.plan
  processed : s₁.processed = s.processed
  values : s₁.values = s.values
  attributes : s₁.attributes = s.attributes

theorem SameScan.refl (s : Scan D) : SameScan s s := ⟨rfl, rfl, rfl, rfl, rfl, rfl⟩

theorem noDBGetExecPlan_of_file {q : Query D} {n : Strategy} (file : noDBReadFromCacheOnly n = false) :
    noDBGetExecPlan q n = if q.filter = [] then .plan else .withFilters := by
  rw [noDBGetExecPlan, if_pos file]
  by_cases none : q.filter = []
  · rw [if_pos none, if_neg fun both => both.2 none]
  · have qual : q.qual.isSome = true := by
      by_contra noQual
      exact none (if_neg noQual)
    rw [if_neg none, if_pos ⟨qual, none⟩]

theorem noDBGetExecPlan_of_cacheOnly {q : Query D} {n : Strategy} (cacheOnly : noDBReadFromCacheOnly n = true) :
    noDBGetExecPlan q n = if q.filter = [] then .cacheOnly else .withFiltersCacheOnly := by
  rw [noDBGetExecPlan, if_neg (by simp [cacheOnly])]
  by_cases none : q.filter = []
  · rw [if_pos none, if_neg fun both => both.2 none]
  · have qual : q.qual.isSome = true := by
      by_contra noQual
      exact none (if_neg noQual)
    rw [if_neg none, if_pos ⟨qual, none⟩]

section

variable (progress : Progress valid w.caches e pos) (proper : task.Proper rel.natts) (inside : j < phase.count)
  (node : valid.cuts.InNode j s.processed) (here : records[s.processed]? = some record) (query : s.query = task.query)
  (current : s.plan.curStrategy = phase.node rel.byValue task j)
  (plan : s.execPlan = noDBGetExecPlan task.query (phase.node rel.byValue task j))
  (start : (s.attributes 0).pointer = 0)

include progress proper inside node here query current plan start

/-- **A row that is read from the file.** -/
theorem fileRow_cases (last : s.lastfield = task.query.readAll.getLast?.getD 0)
    (file : noDBReadFromCacheOnly (phase.node rel.byValue task j) = false)
    (read : readLine rel w s = (.line, w₁, s₁)) (caches : w₁.caches = w.caches)
    (same : SameScan s s₁) (line : s₁.input.lineBuf = record.line) :
    (execNoDBPlan rel w s = (.error .rejectedInput, w₁, s₁) ∧ ∃ c ∈ task.query.readAll, ¬ record.Accepts rel.input c) ∨
      ∃ r pass, execNoDBPlan rel w s = finishRow rel w₁ (s₁.setRowState r) pass ∧
        RowRead rel task record ((phase.planning task).matrix j) s₁.rowState r pass := by
  have fetched := progress.fetch_first rel.byValue (r := s₁.rowState) proper inside node here last line
    (by rw [Scan.rowState, same.attributes]; exact start)
  rw [noDBGetExecPlan_of_file file] at plan
  by_cases none : task.query.filter = []
  · rw [if_pos none] at plan
    rw [execNoDBPlan_plan plan read, same.plan, current,
      show (phase.node rel.byValue task j).postFilter = _ from strategyNode_postFilter_of_nil none, caches,
      same.lastfield, same.processed]
    rcases fetched with ⟨fails, rejects⟩ | ⟨r, done, fetched⟩
    · rw [fails]
      exact .inl ⟨rfl, rejects⟩
    · rw [done]
      exact .inr ⟨r, true, rfl, fetched.rowRead proper none⟩
  · rw [if_neg none] at plan
    rw [execNoDBPlan_withFilters_line plan read, same.plan, current,
      show (phase.node rel.byValue task j).preFilter = _ from strategyNode_preFilter none,
      show (phase.node rel.byValue task j).postFilter = _ from strategyNode_postFilter none, caches,
      same.lastfield, same.processed, same.query, query]
    rcases fetched with ⟨fails, rejects⟩ | ⟨r, done, fetched⟩
    · rw [fails]
      exact .inl ⟨rfl, rejects⟩
    · rw [done]
      simp only
      cases passes : execQual task.query r.values with
      | false => exact .inr ⟨r, false, rfl, fetched.rowRead_fails proper none passes⟩
      | true =>
        obtain ⟨values, -, again, copied⟩ := progress.fetch_rest rel.byValue s.lastfield
          proper none inside node here (restReply rel.byValue task.info ((phase.planning task).matrix j)).access.withFile r
        rw [if_pos rfl, again]
        exact .inr ⟨_, true, rfl, fetched.rowRead_passes valid proper none inside passes copied⟩

/-- **A row of a node that is served from caches only.** -/
theorem cacheRow_eq (cacheOnly : noDBReadFromCacheOnly (phase.node rel.byValue task j) = true) :
    ∃ values pass, execNoDBPlan rel w s = advance rel w { s with values := values } pass ∧
      RowRead rel task record ((phase.planning task).matrix j) s.rowState
        ⟨values, s.attributes, s.input.lineBuf⟩ pass := by
  have cached := valid.built.allCached_of_cacheOnly proper inside cacheOnly
  have first := valid.built.firstReply rel.byValue inside
  obtain ⟨values, copied, result⟩ := readCaches_eq here (noEmpty_fillRow rel.byValue _ task.info.firstRequest _).hit
    (fun there => progress.hit_readable inside node (first.hit.1 there).2.2) s.values
  change readCaches _ _ (firstReply rel.byValue task.info ((phase.planning task).matrix j)).mapDataHit _ = _ at copied
  have noNeeds := fun c => cached.not_needs (fun _ => mem_firstRequest proper) c
  -- Copying is all that fetching does here.
  have fetched : Fetched rel record task.info.cols task.info.firstRequest ((phase.planning task).matrix j) s.rowState
      ⟨values, s.attributes, s.input.lineBuf⟩ := by
    refine ⟨fun c mem reads => ?_, fun c none => ?_, fun c _ converts => absurd (.inl converts) (noNeeds c),
      fun c _ needs => absurd needs (noNeeds c), start⟩
    · rcases reads with read | converts
      · obtain ⟨i, hit⟩ := cached.hits c (mem_firstRequest proper read)
        exact (result c).1 ⟨i, first.hit.2 ⟨mem, read, hit⟩⟩
      · exact absurd (.inl converts) (noNeeds c)
    · refine (result c).2 fun i there => none ?_
      obtain ⟨mem, read, -⟩ := first.hit.1 there
      exact ⟨mem, .inl read⟩
  rw [noDBGetExecPlan_of_cacheOnly cacheOnly] at plan
  by_cases none : task.query.filter = []
  · rw [if_pos none] at plan
    have lists : (phase.node rel.byValue task j).readPostFilterWithCache =
        (firstReply rel.byValue task.info ((phase.planning task).matrix j)).mapDataHit :=
      congrArg Access.withCache (strategyNode_postFilter_of_nil none)
    refine ⟨values, true, execNoDBPlan_cacheOnly plan ?_, fetched.rowRead proper none⟩
    rw [current, lists, copied]
  · rw [if_neg none] at plan
    have lists : (phase.node rel.byValue task j).readPreFilterWithCache =
        (firstReply rel.byValue task.info ((phase.planning task).matrix j)).mapDataHit :=
      congrArg Access.withCache (strategyNode_preFilter none)
    have lists' : (phase.node rel.byValue task j).readPostFilterWithCache =
        (restReply rel.byValue task.info ((phase.planning task).matrix j)).mapDataHit :=
      congrArg Access.withCache (strategyNode_postFilter none)
    rw [execNoDBPlan_withFiltersCacheOnly plan (by rw [current, lists, copied]), query, current, lists']
    cases passes : execQual task.query values with
    | false => exact ⟨values, false, rfl, fetched.rowRead_fails proper none passes⟩
    | true =>
      obtain ⟨final, again, -, copied'⟩ := progress.fetch_rest rel.byValue s.lastfield
        proper none inside node here [] ⟨values, s.attributes, s.input.lineBuf⟩
      rw [if_pos rfl, again]
      exact ⟨final, true, rfl, fetched.rowRead_passes valid proper none inside passes copied'⟩

end

end

end

end PostgresRaw
