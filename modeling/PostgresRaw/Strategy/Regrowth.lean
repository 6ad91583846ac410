import PostgresRaw.Strategy.Room

/-!
# Growing all caches

A scan that goes on behind all caches plans 10000 rows at a time.  If every cache begins at row 0, ends
where the scan is and has no column that the scan does not write, then `BuildMatrix` grows the caches
there are, and neither adds a column nor creates a cache (`buildMatrix_of_allGrow`).  So the caches of
a relation that is read for the first time begin at row 0 and end together, however many rows it has.
-/

namespace PostgresRaw

open List

section

variable {D : Type}

/-- A cache without its buffer. -/
def Cache.unallocated (cache : Cache D) : Cache D := { cache with maxRows := none }

/-- Two lists of caches that differ in their buffers only. -/
def SameButRoom (caches caches' : List (Cache D)) : Prop :=
  caches.map Cache.unallocated = caches'.map Cache.unallocated

theorem sameButRoom_modify (caches : List (Cache D)) (i row : Nat) :
    SameButRoom (caches.modify i fun cache => noDBCacheGrow cache row) caches := by
  refine ext_getElem? fun j => ?_
  rw [getElem?_map, getElem?_map, getElem?_modify]
  cases caches[j]? with
  | none => rfl
  | some cache => by_cases same : i = j <;> simp [same, Cache.unallocated, noDBCacheGrow, noDBCacheSetMaxRows]

theorem SameButRoom.exists_of_getElem? {caches caches' : List (Cache D)} (same : SameButRoom caches caches') {i : Nat}
    {cache : Cache D} (here : caches[i]? = some cache) :
    ∃ cache', caches'[i]? = some cache' ∧ cache'.unallocated = cache.unallocated := by
  have eq := congrArg (·[i]?) same
  simp only [getElem?_map, here, Option.map_some] at eq
  exact Option.map_eq_some_iff.1 eq.symm

/-- Every cache begins at row 0, ends at the row and has columns to be written only; and every column to
be written has a cache. -/
structure AllGrow (q : QueryInfo) (row : Nat) (caches : List (Cache D)) : Prop where
  packed : AllPacked caches
  positive : 0 < row
  range : ∀ cache ∈ caches, cache.startRow = 0 ∧ cache.endRow = row
  written : ∀ cache ∈ caches, ∀ c ∈ cache.cols, c ∈ q.write cache.type
  there : ∀ t, ∀ c ∈ q.write t, ∃ cache ∈ caches, cache.type = t ∧ c ∈ cache.cols

namespace AllGrow

variable {q : QueryInfo} {row last : Nat} {caches : List (Cache D)} (grow : AllGrow q row caches)

include grow

/-- No cache has the row. -/
theorem unknown (t : CacheType) (c : Nat) : (markHits q [row, last] caches 0 c).mark t = .unknown := by
  rcases (markHits_spec q [row, last] grow.packed).mark_cases t 0 c with unknown | ⟨i, -, claims⟩
  · exact unknown
  · obtain ⟨cache, here, -, -, hasRow⟩ := lane_claims_iff.1 claims
    have ends := (grow.range cache (mem_of_getElem? here)).2
    have less : row < cache.endRow := (Cache.hasRow_iff.1 hasRow).2
    omega

/-- All columns to be written may be grown. -/
theorem mem_growCandidates {t : CacheType} {c : Nat} :
    c ∈ growCandidates q (markHits q [row, last] caches) t 0 ↔ c ∈ q.write t := by
  simp only [growCandidates, mem_filter, grow.unknown, Bool.and_eq_true, decide_eq_true_eq]
  exact ⟨fun both => both.2.1, fun writes => ⟨q.write_subset_cols t writes, writes, rfl⟩⟩

/-- A column to be written has a cache that grows. -/
theorem exists_grow {caches' : List (Cache D)} (same : SameButRoom caches' caches) {t : CacheType} {col : Nat}
    {candidates : List Nat} (isCandidate : ∀ {c}, c ∈ candidates ↔ c ∈ q.write t) (writes : col ∈ q.write t) :
    ∃ i, getBestCacheToGrow caches' (getCachesCanGrow caches' t col row candidates) candidates = some i := by
  obtain ⟨cache, mem, type, has⟩ := grow.there t col writes
  obtain ⟨i, here⟩ := getElem?_of_mem mem
  obtain ⟨cache', here', alike⟩ := (show SameButRoom caches caches' from same.symm).exists_of_getElem? here
  have hasColumn : cache'.hasColumn col = true := by
    have same : cache'.unallocated.hasColumn col = cache.unallocated.hasColumn col := by rw [alike]
    exact same.trans ((grow.packed.hasColumn here col).2 has)
  have starts : ∀ {other : Cache D}, other ∈ caches' → other.startRow = 0 := by
    intro other inside
    obtain ⟨k, there⟩ := getElem?_of_mem inside
    obtain ⟨old, there', alike'⟩ := same.exists_of_getElem? there
    exact (congrArg Cache.startRow alike').symm.trans (grow.range old (mem_of_getElem? there')).1
  have ends : cache'.endRow = row :=
    (congrArg Cache.endRow alike).trans (grow.range cache mem).2
  have canGrow : i ∈ getCachesCanGrow caches' t col row candidates := by
    refine mem_getCachesCanGrow.2 ⟨by have := grow.positive; omega, cache', here', (congrArg Cache.type alike).trans type,
      by simp [starts (mem_of_getElem? here')], hasColumn, ?_, ?_⟩
    · intro c inside
      have cols : cache'.unallocated.cols = cache.unallocated.cols := by rw [alike]
      have inside : c ∈ cache'.unallocated.cols := inside
      rw [cols] at inside
      exact isCandidate.2 (type ▸ grow.written cache mem c inside)
    · rw [cacheStartsBelow, any_eq_false]
      intro other inside
      have := grow.positive
      simp only [starts inside, ends, Bool.and_eq_true, decide_eq_true_eq]
      omega
  cases choice : getBestCacheToGrow caches' (getCachesCanGrow caches' t col row candidates) candidates with
  | some j => exact ⟨j, rfl⟩
  | none =>
    have none := eq_nil_of_length_eq_zero (eq_zero_of_bestBy choice canGrow)
    have mem : col ∈ cacheCols caches' i candidates := by
      simp [cacheCols, here', hasColumn, isCandidate.2 writes]
    rw [none] at mem
    cases mem

theorem missCell {p : Planning D} (same : SameButRoom p.caches caches) {t : CacheType} {col : Nat}
    {candidates : List Nat} (isCandidate : ∀ {c}, c ∈ candidates ↔ c ∈ q.write t) :
    SameButRoom (missCell q [row, last] 0 candidates col t p).caches caches := by
  unfold PostgresRaw.missCell
  simp only
  split
  · split
    · next writes =>
      obtain ⟨i, choice⟩ := grow.exists_grow same isCandidate writes
      rw [show [row, last].getD 0 0 = row from rfl, choice]
      exact (sameButRoom_modify ..).trans same
    · exact same
  · exact same

end AllGrow

/-- **Behind all caches** those are grown, and nothing else happens to them. -/
theorem buildMatrix_of_allGrow {q : QueryInfo} {row : Nat} {caches : List (Cache D)} (grow : AllGrow q row caches)
    (last : Nat) : SameButRoom (buildMatrix q [row, last] caches).caches caches := by
  have second : SameButRoom (handleMisses q [row, last] ⟨caches, markHits q [row, last] caches⟩).caches caches := by
    change SameButRoom (missRow q [row, last] ⟨caches, markHits q [row, last] caches⟩ 0).caches caches
    refine Lists.foldl_invariant (fun (_ : List Nat) (p : Planning D) => SameButRoom p.caches caches) rfl ?_
    intro _ col p _ same
    exact grow.missCell (grow.missCell same grow.mem_growCandidates) grow.mem_growCandidates
  exact growToLastRow_induction (I := fun caches' => SameButRoom caches' caches) _ _ _ _ second
    fun i same => (sameButRoom_modify ..).trans same

end

end PostgresRaw
