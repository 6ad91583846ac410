import PostgresRaw.Scan.Row

/-!
# The nodes of a scan

A scan executes the nodes of a plan for its task: the query, the columns it may write, and the
number of rows whose length it knows.  A node calls `FillRow` once, and a second time for what
is left to read behind a qual; `firstReply` and `restReply` are the two results.

A node is served from caches only if all columns of the query are hits and nothing is to be
written (`cacheOnly_iff`).
-/

namespace PostgresRaw

open List

/-- What a scan is to do. -/
structure Task (D : Type) where
  query : Query D
  writeData : List Nat
  writePositions : List Nat
  /-- the used rows of the EOL cache when the scan started -/
  known : Nat

section

variable {D : Type}

def Task.info (task : Task D) : QueryInfo := task.query.info task.writeData task.writePositions

/-- The query is well formed, only its columns are written, and columns that are read behind the qual
can be written: a column whose lock is held by someone else would be parsed twice. -/
structure Task.Proper (task : Task D) (natts : Nat) : Prop where
  query : task.query.Formed natts
  data : ∀ c ∈ task.writeData, c ∈ task.query.readAll
  positions : ∀ c ∈ task.writePositions, c ∈ task.query.readAll
  unlocked : task.query.filter = [] ∨ ∀ c ∈ task.query.rest, c ∈ task.writeData

variable {c natts : Nat} {node : Nat → Node}

theorem Task.Proper.mem_cols {task : Task D} (proper : task.Proper natts) :
    c ∈ task.info.cols ↔ c ∈ task.query.readAll :=
  proper.query.mem_cols proper.data proper.positions

/-! ### The calls of `FillRow` -/

/-- The columns that are read first: those of the qual, or all. -/
def QueryInfo.firstRequest (q : QueryInfo) : RowRequest where
  read := if q.filter = [] then q.rest else q.filter
  writeData := q.writeData
  writePositions := q.writePositions

/-- The first call. -/
def firstReply (byValue : Nat → Bool) (q : QueryInfo) (node : Nat → Node) : FillRowReply :=
  fillRow byValue q.cols q.firstRequest node

/-- The columns that are left to read behind the qual. -/
def restRequest (byValue : Nat → Bool) (q : QueryInfo) (node : Nat → Node) : RowRequest where
  read := q.rest.filter fun c =>
    decide (c ∉ q.filter) && decide (c ∉ (firstReply byValue q node).convert)
  writeData := []
  writePositions := []

/-- The second call. -/
def restReply (byValue : Nat → Bool) (q : QueryInfo) (node : Nat → Node) : FillRowReply :=
  fillRow byValue q.cols (restRequest byValue q node) node

section

variable {byValue : Nat → Bool} {q : QueryInfo} {startRow nrows : Nat} {node : Nat → Node}

theorem strategyNode_of_nil (none : q.filter = []) :
    strategyNode byValue q startRow nrows node =
      let first := firstReply byValue q node
      { startRow, nrows
        readPostFilterWithCache := first.mapDataHit
        readPostFilterWithFile := first.collectFromFile
        convertPostFilter := first.convert
        writeToCacheByValue := first.mapDataAddByValue
        writeToCacheByRef := first.mapDataAddByRef
        writeToPM := first.mapPositionsAdd
        readPostFilterWithPM := first.mapReadFromPM
        readPostFilterViaPM := first.readViaPM } := by
  simp only [strategyNode, firstReply, QueryInfo.firstRequest, if_pos none]

theorem strategyNode_of_filter (some : q.filter ≠ []) :
    strategyNode byValue q startRow nrows node =
      let first := firstReply byValue q node
      let rest := restReply byValue q node
      { startRow, nrows
        readPreFilterWithCache := first.mapDataHit
        readPreFilterWithFile := first.collectFromFile
        convertPreFilter := first.convert
        writeToCacheByValue := first.mapDataAddByValue
        writeToCacheByRef := first.mapDataAddByRef
        writeToPM := first.mapPositionsAdd
        readPreFilterWithPM := first.mapReadFromPM
        readPreFilterViaPM := first.readViaPM
        readPostFilterWithCache := rest.mapDataHit
        readPostFilterWithFile := rest.collectFromFile
        convertPostFilter := rest.convert
        readPostFilterWithPM := rest.mapReadFromPM
        readPostFilterViaPM := rest.readViaPM } := by
  simp only [strategyNode, firstReply, restReply, restRequest, QueryInfo.firstRequest, if_neg some]

theorem strategyNode_writesAs : WritesAs (strategyNode byValue q startRow nrows node) (firstReply byValue q node) := by
  by_cases none : q.filter = []
  · rw [strategyNode_of_nil none]
    exact ⟨rfl, rfl, rfl⟩
  · rw [strategyNode_of_filter none]
    exact ⟨rfl, rfl, rfl⟩

theorem strategyNode_postFilter_of_nil (none : q.filter = []) :
    (strategyNode byValue q startRow nrows node).postFilter = (firstReply byValue q node).access := by
  rw [strategyNode_of_nil none]
  rfl

theorem strategyNode_preFilter (some : q.filter ≠ []) :
    (strategyNode byValue q startRow nrows node).preFilter = (firstReply byValue q node).access := by
  rw [strategyNode_of_filter some]
  rfl

theorem strategyNode_postFilter (some : q.filter ≠ []) :
    (strategyNode byValue q startRow nrows node).postFilter = (restReply byValue q node).access := by
  rw [strategyNode_of_filter some]
  rfl

end

/-! ### Nodes of a plan -/

variable {task : Task D} {q : QueryInfo} {rows : List Nat} {increasing : rows.Pairwise (· < ·)}
  {base : List (Cache D)} {p : Planning D} {byValue : Nat → Bool} {j : Nat}

variable (byValue) in
theorem Built.firstReply (built : Built q increasing base p) (inside : j < rows.length - 1) :
    FilledRow byValue q.cols q.firstRequest (p.matrix j) (firstReply byValue q (p.matrix j)) :=
  fillRow_spec byValue _ (fun _ _ _ closest => (built.closest inside closest).2)
    fun _ mem _ mem' => built.allClosest inside mem mem'

variable (byValue) in
theorem Built.restReply (built : Built q increasing base p) (inside : j < rows.length - 1) :
    FilledRow byValue q.cols (restRequest byValue q (p.matrix j)) (p.matrix j) (restReply byValue q (p.matrix j)) :=
  fillRow_spec byValue _ (fun _ _ _ closest => (built.closest inside closest).2)
    fun _ mem _ mem' => built.allClosest inside mem mem'

/-- What a node marks to be written. -/
theorem Built.mark_add (built : Built q increasing base p) {t : CacheType} {i : Nat}
    (mark : (p.matrix j c).mark t = .add i) : (p.plan t).mark j c = some i ∧ c ∈ q.write t ∧ c ∈ q.cols ∧
      ∃ cache, p.caches[i]? = some cache ∧ cache.type = t := by
  have marked : (p.plan t).mark j c = some i := Mark.added_eq_some.2 mark
  obtain ⟨writes, -, -, ⟨cache, here, type, -⟩, -⟩ := (built.planned t).add marked
  exact ⟨marked, writes, q.write_subset_cols t writes, cache, here, type⟩

/-- All columns of the query are hits, and nothing is written. -/
structure AllCached (task : Task D) (node : Nat → Node) : Prop where
  some : task.query.readAll ≠ []
  hits : ∀ c ∈ task.query.readAll, ∃ i, (node c).mark .data = .hit i
  idle : ∀ t c i, (node c).mark t ≠ .add i

theorem AllCached.not_needs (cached : AllCached task node) {request : RowRequest}
    (reads : ∀ c ∈ request.read, c ∈ task.query.readAll) (c : Nat) : ¬ Needs request node c := by
  rintro ((⟨mem, none⟩ | ⟨-, i, mark⟩) | ⟨-, i, mark⟩)
  · obtain ⟨i, hit⟩ := cached.hits c (reads c mem)
    exact none i hit
  · exact cached.idle .data c i mark
  · exact cached.idle .positions c i mark

theorem mem_firstRequest (proper : task.Proper natts) (mem : c ∈ task.info.firstRequest.read) :
    c ∈ task.query.readAll := by
  unfold QueryInfo.firstRequest at mem
  split at mem
  · exact Query.mem_rest mem
  · exact proper.query.mem_filter mem

theorem mem_restRequest (mem : c ∈ (restRequest byValue task.info node).read) : c ∈ task.query.readAll :=
  Query.mem_rest (mem_of_mem_filter mem)

/-! ### Nodes served from caches only -/

theorem noDBReadFromCacheOnly_iff {n : Strategy} : noDBReadFromCacheOnly n = true ↔
      n.readPreFilterWithPM = [] ∧ n.readPreFilterWithFile = [] ∧
      n.readPostFilterWithPM = [] ∧ n.readPostFilterViaPM = [] ∧ n.readPostFilterWithFile = [] ∧
      (n.readPostFilterWithCache ≠ [] ∨ n.readPreFilterWithCache ≠ []) := by
  simp only [noDBReadFromCacheOnly, Bool.and_eq_true, Bool.or_eq_true, decide_eq_true_eq, List.isEmpty_iff]
  tauto

/-- Some column is a hit if there is something to read from a data cache. -/
theorem exists_mem_of_mapDataHit {cols : List Nat} {request : RowRequest} {reply : FillRowReply}
    (filled : FilledRow byValue cols request node reply) (noEmpty : reply.NoEmpty) (some : reply.mapDataHit ≠ []) :
    ∃ c, c ∈ request.read := by
  obtain ⟨entry, mem⟩ := exists_mem_of_ne_nil _ some
  obtain ⟨c, mem'⟩ := exists_mem_of_ne_nil _ (noEmpty.hit entry mem)
  exact ⟨c, (filled.hit.1 ⟨entry, mem, rfl, mem'⟩).2.1⟩

section

variable (built : Built task.info increasing base p) (proper : task.Proper natts)

include built proper

/-- If the first call needs nothing, nothing is written and its columns are hits. -/
theorem Built.of_not_needs (none : ∀ c ∈ task.info.cols, ¬ Needs task.info.firstRequest (p.matrix j) c) :
    (∀ c ∈ task.info.firstRequest.read, ∃ i, (p.matrix j c).mark .data = .hit i) ∧
      ∀ t c i, (p.matrix j c).mark t ≠ .add i := by
  refine ⟨fun c mem => ?_, fun t c i mark => ?_⟩
  · by_contra noHit
    exact none c (proper.mem_cols.2 (mem_firstRequest proper mem)) (.inl (.inl ⟨mem, not_exists.1 noHit⟩))
  · obtain ⟨-, writes, mem, -⟩ := built.mark_add mark
    cases t with
    | data => exact none c mem (.inl (.inr ⟨writes, i, mark⟩))
    | positions => exact none c mem (.inr ⟨writes, i, mark⟩)

theorem Built.allCached_of_cacheOnly {startRow nrows : Nat} (inside : j < rows.length - 1)
    (cacheOnly : noDBReadFromCacheOnly (strategyNode byValue task.info startRow nrows (p.matrix j)) = true) :
    AllCached task (p.matrix j) := by
  have first := built.firstReply byValue inside
  have noEmpty := noEmpty_fillRow byValue task.info.cols task.info.firstRequest (p.matrix j)
  obtain ⟨preMaps, preFile, postMaps, -, postFile, some⟩ := noDBReadFromCacheOnly_iff.1 cacheOnly
  by_cases none : task.info.filter = []
  · rw [strategyNode_of_nil none] at postMaps postFile some
    obtain ⟨hits, idle⟩ := built.of_not_needs proper (first.not_needs postMaps postFile)
    have reads : task.info.firstRequest.read = task.query.readAll := by
      rw [QueryInfo.firstRequest, if_pos none]
      exact Query.rest_of_filter_nil none
    rw [reads] at hits
    refine ⟨fun empty => ?_, hits, idle⟩
    obtain ⟨c, mem⟩ := exists_mem_of_mapDataHit first noEmpty (some.resolve_right (fun h => h rfl))
    rw [reads, empty] at mem
    simp at mem
  · have rest := built.restReply byValue inside
    rw [strategyNode_of_filter none] at preMaps preFile postMaps postFile
    have noNeeds := first.not_needs preMaps preFile
    obtain ⟨hits, idle⟩ := built.of_not_needs proper noNeeds
    have reads : task.info.firstRequest.read = task.query.filter := by
      rw [QueryInfo.firstRequest, if_neg none]
      rfl
    rw [reads] at hits
    refine ⟨fun empty => ?_, fun c mem => ?_, idle⟩
    · obtain ⟨c, mem⟩ := exists_mem_of_ne_nil _ none
      have := proper.query.mem_filter mem
      rw [empty] at this
      simp at this
    · by_cases isFilter : c ∈ task.query.filter
      · exact hits c isFilter
      · by_contra noHit
        have notConverted : c ∉ (PostgresRaw.firstReply byValue task.info (p.matrix j)).convert :=
          fun converted => noNeeds c (first.convert.1 converted).1 (.inl (first.convert.1 converted).2)
        refine rest.not_needs postMaps postFile c (proper.mem_cols.2 mem)
          (.inl (.inl ⟨mem_filter.2 ⟨(Query.mem_filter_or_rest mem).resolve_left isFilter, ?_⟩, not_exists.1 noHit⟩))
        simp only [Bool.and_eq_true, decide_eq_true_eq]
        exact ⟨isFilter, notConverted⟩

theorem Built.cacheOnly_of_allCached {startRow nrows : Nat}
    (inside : j < rows.length - 1) (cached : AllCached task (p.matrix j)) :
    noDBReadFromCacheOnly (strategyNode byValue task.info startRow nrows (p.matrix j)) = true := by
  have first := built.firstReply byValue inside
  obtain ⟨maps, vias, file⟩ := first.idle fun c _ => cached.not_needs (fun _ => mem_firstRequest proper) c
  have hits : (PostgresRaw.firstReply byValue task.info (p.matrix j)).mapDataHit ≠ [] := by
    obtain ⟨c, mem⟩ : ∃ c, c ∈ task.info.firstRequest.read := by
      by_cases none : task.info.filter = []
      · rw [QueryInfo.firstRequest, if_pos none, show task.info.rest = task.query.readAll from
          Query.rest_of_filter_nil none]
        exact exists_mem_of_ne_nil _ cached.some
      · rw [QueryInfo.firstRequest, if_neg none]
        exact exists_mem_of_ne_nil _ none
    have read := mem_firstRequest proper mem
    obtain ⟨i, hit⟩ := cached.hits c read
    obtain ⟨entry, mem', -⟩ := first.hit.2 ⟨proper.mem_cols.2 read, mem, hit⟩
    exact ne_nil_of_mem mem'
  by_cases none : task.info.filter = []
  · rw [strategyNode_of_nil none]
    exact noDBReadFromCacheOnly_iff.2 ⟨rfl, rfl, maps, vias, file, .inl hits⟩
  · have rest := built.restReply byValue inside
    obtain ⟨maps', vias', file'⟩ := rest.idle fun c _ => cached.not_needs (fun _ => mem_restRequest) c
    rw [strategyNode_of_filter none]
    exact noDBReadFromCacheOnly_iff.2 ⟨maps, file, maps', vias', file', .inr hits⟩

end

end

end PostgresRaw
