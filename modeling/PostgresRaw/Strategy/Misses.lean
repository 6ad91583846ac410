import PostgresRaw.Strategy.Hits

/-!
# What planning does to a cell

The second pass of `BuildMatrix` handles the columns of a node one by one.  `MissOutcome` lists what it can do:
grow a cache, add the column to a cache that begins at the node, create a cache, or mark a miss.  Whatever
holds along the pass follows from this list by `handleMisses_induction`.

Planning never changes what is stored: `Extends` says how the list of caches may differ from the
one before.
-/

namespace PostgresRaw

open List

section

variable {D : Type}

/-! ### Caches before and after planning -/

/-- A cache to which planning has added columns or rows. -/
structure Cache.Widens (cache cache' : Cache D) : Prop where
  type : cache'.type = cache.type
  startRow : cache'.startRow = cache.startRow
  usedRows : cache'.usedRows = cache.usedRows
  cells : cache'.cells = cache.cells
  cols : ∀ c ∈ cache.cols, c ∈ cache'.cols
  maxRows : cache.maxRows.getD 0 ≤ cache'.maxRows.getD 0

theorem Cache.Widens.refl (cache : Cache D) : cache.Widens cache :=
  ⟨rfl, rfl, rfl, rfl, fun _ mem => mem, le_rfl⟩

theorem Cache.Widens.trans {a b c : Cache D} (first : a.Widens b) (second : b.Widens c) : a.Widens c where
  type := second.type.trans first.type
  startRow := second.startRow.trans first.startRow
  usedRows := second.usedRows.trans first.usedRows
  cells := second.cells.trans first.cells
  cols _ mem := second.cols _ (first.cols _ mem)
  maxRows := Nat.le_trans first.maxRows second.maxRows

/-- The caches that were there are widened, and the others are empty. -/
structure Extends (caches caches' : List (Cache D)) : Prop where
  old : ∀ {i : Nat} {cache : Cache D}, caches[i]? = some cache →
    ∃ cache', caches'[i]? = some cache' ∧ cache.Widens cache'
  new : ∀ {i : Nat} {cache' : Cache D}, caches[i]? = none → caches'[i]? = some cache' →
    cache'.usedRows = 0 ∧ ∀ c r, cache'.cells c r = .unwritten

theorem Extends.refl (caches : List (Cache D)) : Extends caches caches where
  old here := ⟨_, here, .refl _⟩
  new none here := by rw [none] at here; cases here

theorem Extends.trans {a b c : List (Cache D)} (first : Extends a b) (second : Extends b c) : Extends a c where
  old here := by
    obtain ⟨cache', here', widens⟩ := first.old here
    obtain ⟨cache'', here'', widens'⟩ := second.old here'
    exact ⟨cache'', here'', widens.trans widens'⟩
  new {i cache''} none here := by
    cases mid : b[i]? with
    | none => exact second.new mid here
    | some cache' =>
      obtain ⟨cache, here', widens⟩ := second.old mid
      obtain rfl : cache = cache'' := Option.some.inj (here'.symm.trans here)
      obtain ⟨unused, unwritten⟩ := first.new none mid
      exact ⟨by rw [widens.usedRows, unused], by rw [widens.cells]; exact unwritten⟩

variable {f : Cache D → Cache D} {caches : List (Cache D)} {i : Nat} {cache : Cache D}

theorem extends_modify (widens : ∀ {cache}, caches[i]? = some cache → cache.Widens (f cache)) :
    Extends caches (caches.modify i f) where
  old {j cache} here := by
    rw [getElem?_modify, here]
    refine ⟨_, rfl, ?_⟩
    by_cases same : i = j
    · subst same
      simpa using widens here
    · simpa [same] using Cache.Widens.refl cache
  new none here := by
    rw [getElem?_modify, none] at here
    cases here

theorem extends_append (unused : cache.usedRows = 0) (unwritten : ∀ c r, cache.cells c r = .unwritten) :
    Extends caches (caches ++ [cache]) where
  old {i cache'} here := ⟨cache', by
    rw [List.getElem?_append_left (List.getElem?_eq_some_iff.1 here).1, here], .refl _⟩
  new {i cache'} none here := by
    rw [List.getElem?_eq_none_iff] at none
    rw [List.getElem?_append_right none, List.getElem?_singleton] at here
    split at here
    · cases here
      exact ⟨unused, unwritten⟩
    · cases here

theorem columnSize_pos (t : CacheType) : 0 < columnSize t := by cases t <;> decide

/-- Adding a column, whether there is room for it or not. -/
theorem noDBCacheAddColumn_narrows (cache : Cache D) (col size : Nat) :
    (noDBCacheAddColumn cache col size).2.type = cache.type ∧
      (noDBCacheAddColumn cache col size).2.startRow = cache.startRow ∧
      (noDBCacheAddColumn cache col size).2.usedRows = cache.usedRows ∧
      (noDBCacheAddColumn cache col size).2.rowFree ≤ cache.rowFree := by
  unfold noDBCacheAddColumn
  split
  · exact ⟨rfl, rfl, rfl, le_rfl⟩
  · split
    · exact ⟨rfl, rfl, rfl, le_rfl⟩
    · split
      · exact ⟨rfl, rfl, rfl, le_rfl⟩
      · exact ⟨rfl, rfl, rfl, Nat.sub_le _ _⟩

theorem mem_cols_noDBCacheAddColumn {col size c : Nat} (mem : c ∈ (noDBCacheAddColumn cache col size).2.cols) :
    c ∈ cache.cols ∨ c = col := by
  unfold noDBCacheAddColumn at mem
  split at mem
  · exact .inl mem
  · split at mem
    · exact .inl mem
    · split at mem
      · exact .inl mem
      · exact (mem_append.1 mem).imp_right mem_singleton.1

theorem getElem?_addColumn (p : Planning D) (t : CacheType) (rows : List Nat) (rowIdx col i j : Nat) :
    (addColumn p t rows rowIdx col i).caches[j]? = p.caches[j]?.map fun cache =>
      if i = j then (noDBCacheAddColumn cache col (columnSize t)).2 else cache := by
  change (p.caches.modify i _)[j]? = _
  rw [getElem?_modify]
  by_cases same : i = j
  · simp only [same, if_true]
    rfl
  · simp only [same, if_false]
    rfl

/-- What `NoDBCacheGrow` allocates. -/
theorem maxRows_noDBCacheGrow (cache : Cache D) (row : Nat) :
    ∃ maxRows, (noDBCacheGrow cache row).maxRows = some maxRows ∧ row + 1 - cache.startRow ≤ maxRows ∧
      cache.maxRows.getD 0 ≤ maxRows := by
  unfold noDBCacheGrow noDBCacheSetMaxRows
  cases cache.maxRows with
  | none => exact ⟨_, rfl, by omega, Nat.zero_le _⟩
  | some rows =>
    by_cases less : row - cache.startRow + 1 ≤ rows
    · exact ⟨rows, by simp [less], by omega, le_rfl⟩
    · exact ⟨row - cache.startRow + 1, by simp [less], by omega, by rw [Option.getD_some]; omega⟩

/-- Allocating rows changes nothing that a ledger shows. -/
theorem widens_noDBCacheGrow (cache : Cache D) (row : Nat) : cache.Widens (noDBCacheGrow cache row) where
  type := rfl
  startRow := rfl
  usedRows := rfl
  cells := rfl
  cols _ mem := mem
  maxRows := by
    obtain ⟨maxRows, isMax, -, kept⟩ := maxRows_noDBCacheGrow cache row
    rw [isMax]
    exact kept

theorem AddedColumn.widens {cache' : Cache D} {col : Nat} (added : AddedColumn cache cache' col) :
    cache.Widens cache' where
  type := added.type
  startRow := added.startRow
  usedRows := added.usedRows
  cells := added.cells
  cols _ mem := by rw [added.cols]; exact mem_append_left _ mem
  maxRows := by rw [added.maxRows]

/-- Adding a column keeps the layout, also if there is no room or the column is there. -/
theorem noDBCacheAddColumn_widens {cache : Cache D} (packed : cache.Packed) (col : Nat) {size : Nat}
    (positive : 0 < size) :
    cache.Widens (noDBCacheAddColumn cache col size).2 ∧ (noDBCacheAddColumn cache col size).2.Packed := by
  by_cases fits : size ≤ cache.rowFree ∧ col ∉ cache.cols
  · obtain ⟨cache', result, added⟩ := noDBCacheAddColumn_of_fits packed fits.2 fits.1 positive
    rw [result]
    exact ⟨added.widens, added.packed⟩
  · have same : (noDBCacheAddColumn cache col size).2 = cache := by
      unfold noDBCacheAddColumn
      by_cases full : cache.rowFree < size
      · rw [if_pos full]
      · have there : cache.hasColumn col = true := by
          rw [packed.map_isSome]
          by_contra absent
          exact fits ⟨by omega, absent⟩
        rw [if_neg full, if_pos there]
    rw [same]
    exact ⟨.refl cache, packed⟩

theorem packed_noDBCacheGrow {cache : Cache D} (packed : cache.Packed) (row : Nat) : (noDBCacheGrow cache row).Packed :=
  ⟨packed.map_isSome, packed.parts⟩

/-- A modification that keeps what a ledger shows. -/
theorem lane_modify {t : CacheType} (type : ∀ cache, (f cache).type = cache.type)
    (start : ∀ cache, (f cache).startRow = cache.startRow) (used : ∀ cache, (f cache).usedRows = cache.usedRows)
    (cols : ∀ cache, (f cache).cols = cache.cols) : lane (caches.modify i f) t = lane caches t := by
  have same : ∀ j, (caches.modify i f)[j]? = caches[j]?.map fun cache => if i = j then f cache else cache := by
    intro j
    rw [getElem?_modify]
    rfl
  simp only [lane, Ledger.mk.injEq, same]
  refine ⟨funext fun j => ?_, funext fun j => ?_, funext fun j => funext fun c => ?_⟩
  · cases caches[j]? with
    | none => rfl
    | some cache => by_cases h : i = j <;> simp [h, start]
  · cases caches[j]? with
    | none => rfl
    | some cache => by_cases h : i = j <;> simp [h, Cache.endRow, start, used]
  · cases caches[j]? with
    | none => simp
    | some cache => by_cases h : i = j <;> simp [h, type, cols]

/-- Caches as planning leaves them: packed layouts, and no cache without a column. -/
def AllShaped (caches : List (Cache D)) : Prop :=
  ∀ cache ∈ caches, cache.Packed ∧ cache.cols ≠ []

theorem AllShaped.packed (shaped : AllShaped caches) : AllPacked caches :=
  fun cache mem => (shaped cache mem).1

theorem AllShaped.grow (shaped : AllShaped caches) (i lastRow : Nat) :
    AllShaped (caches.modify i fun cache => noDBCacheGrow cache lastRow) := by
  refine Lists.forall_mem_modify shaped fun {cache} here => ?_
  obtain ⟨packed, nonempty⟩ := shaped cache (mem_of_getElem? here)
  exact ⟨packed_noDBCacheGrow packed _, nonempty⟩

/-- A cache for one column. -/
theorem addedColumn_noDBCacheInit (t : CacheType) (row col : Nat) :
    AddedColumn (noDBCacheInit t row (defaultRowSize t) : Cache D)
      (noDBCacheAddColumn (noDBCacheInit t row (defaultRowSize t)) col (columnSize t)).2 col := by
  obtain ⟨cache, result, added⟩ := noDBCacheAddColumn_of_fits
    (packed_noDBCacheInit t row (by cases t <;> decide) : (noDBCacheInit t row (defaultRowSize t) : Cache D).Packed)
    not_mem_nil (show columnSize t ≤ defaultRowSize t by cases t <;> decide) (columnSize_pos t)
  rwa [result]

/-! ### Choosing caches -/

theorem mem_getCachesFreeColumns {t : CacheType} {limit row size : Nat} :
    i ∈ getCachesFreeColumns caches t limit row size ↔ ∃ cache, caches[i]? = some cache ∧ cache.type = t ∧
      cache.startRow = row ∧ size ≤ cache.rowFree ∧ (limit = 0 ∨ cache.endRow ≤ limit) := by
  rw [getCachesFreeColumns, mem_selectCaches]
  simp only [Bool.and_eq_true, Bool.or_eq_true, decide_eq_true_eq, and_assoc]

theorem mem_getCachesCanGrow {t : CacheType} {col row : Nat} {cols : List Nat} :
    i ∈ getCachesCanGrow caches t col row cols ↔ row ≠ 0 ∧ ∃ cache, caches[i]? = some cache ∧ cache.type = t ∧
      cache.startRow ≤ row ∧ cache.hasColumn col = true ∧ (∀ c ∈ cache.cols, c ∈ cols) ∧
      cacheStartsBelow caches t cols cache.endRow = false := by
  unfold getCachesCanGrow
  split
  · next first => simp [first]
  · next later =>
    rw [mem_selectCaches]
    simp only [Bool.and_eq_true, decide_eq_true_eq, and_assoc, Cache.canGrow, cacheContainsSubset, all_eq_true,
      Bool.not_eq_true', later, ne_eq, not_false_eq_true, true_and]

@[simp, grind =] theorem mem_addUnique {l : List Nat} {c d : Nat} : c ∈ addUnique l d ↔ c ∈ l ∨ c = d := by
  unfold addUnique
  by_cases known : d ∈ l
  · rw [if_pos known]
    constructor
    · exact .inl
    · rintro (old | rfl)
      · exact old
      · exact known
  · rw [if_neg known, mem_cons, or_comm]

theorem mem_foldl_addUnique {acc l : List Nat} {c : Nat} : c ∈ l.foldl addUnique acc ↔ c ∈ acc ∨ c ∈ l := by
  induction l generalizing acc with
  | nil => simp
  | cons x l ih =>
    rw [foldl_cons, ih, mem_addUnique, mem_cons, or_assoc]

/-- The columns to write are columns of the query. -/
theorem QueryInfo.write_subset_cols (q : QueryInfo) (t : CacheType) {c : Nat} (mem : c ∈ q.write t) : c ∈ q.cols := by
  rw [QueryInfo.cols, mem_insertionSort, mem_foldl_addUnique]
  cases t with
  | data => simp [show c ∈ q.writeData from mem]
  | positions => simp [show c ∈ q.writePositions from mem]

/-! ### The second pass, cell by cell -/

/-- **What the second pass can do to a cell.** -/
inductive MissOutcome (q : QueryInfo) (rows : List Nat) (a : Nat) (candidates : List Nat) (col : Nat)
    (t : CacheType) (p : Planning D) : Planning D → Prop where
  | settled (settled : unsettled q p.matrix t a col = false) : MissOutcome q rows a candidates col t p p
  | miss (unknown : (p.matrix a col).mark t = .unknown) (unwritten : col ∉ q.write t) :
      MissOutcome q rows a candidates col t p { p with matrix := p.matrix.setMark t a 0 [col] .miss }
  | grow (unknown : (p.matrix a col).mark t = .unknown) (writes : col ∈ q.write t) {i : Nat}
      (choice : i ∈ getCachesCanGrow p.caches t col (rows.getD a 0) candidates) :
      MissOutcome q rows a candidates col t p (growCache p t (rows.getD a 0) a candidates i)
  | add (unknown : (p.matrix a col).mark t = .unknown) (writes : col ∈ q.write t) {i : Nat}
      (choice : i ∈ getCachesFreeColumns p.caches t q.limit (rows.getD a 0) (columnSize t)) :
      MissOutcome q rows a candidates col t p (addColumn p t rows a col i)
  | create (unknown : (p.matrix a col).mark t = .unknown) (writes : col ∈ q.write t)
      (full : getCachesFreeColumns p.caches t q.limit (rows.getD a 0) (columnSize t) = []) :
      MissOutcome q rows a candidates col t p (newCache p t (rows.getD a 0) a col)

theorem missCell_outcome (q : QueryInfo) (rows : List Nat) (a : Nat) (candidates : List Nat) (col : Nat)
    (t : CacheType) (p : Planning D) :
    MissOutcome q rows a candidates col t p (missCell q rows a candidates col t p) := by
  unfold missCell
  simp only
  split
  · next todo =>
    have unknown : (p.matrix a col).mark t = .unknown := by
      simp only [unsettled, Bool.and_eq_true, decide_eq_true_eq] at todo
      exact todo.1
    split
    · next writes =>
      split
      · next i choice => exact .grow unknown writes (mem_of_bestBy choice).1
      · split
        · next i choice => exact .add unknown writes (mem_of_bestBy choice).1
        · next none =>
          refine .create unknown writes (eq_nil_iff_forall_not_mem.2 fun i mem => ?_)
          obtain ⟨cache, here, -, -, room, -⟩ := mem_getCachesFreeColumns.1 mem
          have full : (p.caches[i]?.elim 0 (·.rowFree)) = 0 := eq_zero_of_bestBy none mem
          rw [here, Option.elim_some] at full
          have := columnSize_pos t
          omega
    · next unwritten => exact .miss unknown unwritten
  · next settled => exact .settled (by simpa using settled)

/-- A column to be written whose cell is settled has a mark. -/
theorem mark_ne_unknown {q : QueryInfo} {m : Matrix} {t : CacheType} {a col : Nat}
    (settled : unsettled q m t a col = false) (writes : col ∈ q.write t) : (m a col).mark t ≠ .unknown := by
  intro unknown
  cases t with
  | data => simp [unsettled, unknown] at settled
  | positions => simp [unsettled, unknown, show col ∈ q.writePositions from writes] at settled

variable {q : QueryInfo} {rows : List Nat} {p : Planning D}

/-- A column that is to be written and is in a cache at the first row of a node is a hit there. -/
theorem isHit_markHits {t : CacheType} {a c : Nat} (packed : AllPacked caches) (inside : a < rows.length - 1) (writes : c ∈ q.write t)
    (covers : (lane caches t).Covers c (rows.getD a 0)) : ((markHits q rows caches a c).mark t).isHit = true := by
  refine (markHits_spec q rows packed).found ⟨inside, q.write_subset_cols t writes⟩ covers ?_
  cases t with
  | data => exact .inl rfl
  | positions => exact .inr (.inr writes)

theorem Mark.exists_of_isHit {m : Mark} (isHit : m.isHit = true) : ∃ j, m = .hit j := by
  cases m with
  | hit j => exact ⟨j, rfl⟩
  | unknown => cases isHit
  | miss => cases isHit
  | add j => cases isHit

/-- **The second pass**, by what it can do to a cell.  The columns that a cache may be grown for are those of the
state in which the node is begun. -/
theorem handleMisses_induction {I : Planning D → Prop} (start : I p)
    (cell : ∀ {first p p' a t col}, a < rows.length - 1 → I first → I p →
      MissOutcome q rows a (growCandidates q first.matrix t a) col t p p' → I p') : I (handleMisses q rows p) :=
  Lists.foldl_range_invariant (fun _ p => I p) start fun inside first =>
    Lists.foldl_invariant (fun (_ : List Nat) (p : Planning D) => I p) first fun _ inv =>
      cell inside first (cell inside first inv (missCell_outcome ..)) (missCell_outcome ..)

theorem mem_growCandidates_iff {m : Matrix} {t : CacheType} {a c : Nat} :
    c ∈ growCandidates q m t a ↔ c ∈ q.write t ∧ ((m a c).mark t).isHit = false := by
  rw [growCandidates, mem_filter, Bool.and_eq_true, decide_eq_true_eq, Bool.not_eq_true']
  exact ⟨And.right, fun candidate => ⟨q.write_subset_cols t candidate.1, candidate⟩⟩

namespace MissOutcome

variable {a col : Nat} {candidates : List Nat} {t : CacheType} {p' : Planning D}

/-- Whatever is done to a cell, the caches are widened. -/
theorem widened (outcome : MissOutcome q rows a candidates col t p p') (packed : AllPacked p.caches) :
    Extends p.caches p'.caches ∧ AllPacked p'.caches := by
  cases outcome with
  | settled => exact ⟨.refl _, packed⟩
  | miss => exact ⟨.refl _, packed⟩
  | grow =>
    exact ⟨extends_modify fun _ => widens_noDBCacheGrow _ _,
      Lists.forall_mem_modify packed fun here => packed_noDBCacheGrow (packed _ (mem_of_getElem? here)) _⟩
  | add =>
    have adds := fun cache mem => noDBCacheAddColumn_widens (packed cache mem) col (columnSize_pos t)
    exact ⟨extends_modify fun here => (adds _ (mem_of_getElem? here)).1,
      Lists.forall_mem_modify packed fun here => (adds _ (mem_of_getElem? here)).2⟩
  | create =>
    have added := addedColumn_noDBCacheInit (D := D) t (rows.getD a 0) col
    refine ⟨extends_append added.usedRows (by rw [added.cells]; exact fun _ _ => rfl), ?_⟩
    exact forall_mem_append.2 ⟨packed, forall_mem_singleton.2 added.packed⟩

theorem shaped (outcome : MissOutcome q rows a candidates col t p p') (shaped : AllShaped p.caches) :
    AllShaped p'.caches := by
  cases outcome with
  | settled => exact shaped
  | miss => exact shaped
  | grow => exact shaped.grow _ _
  | add =>
    refine Lists.forall_mem_modify shaped fun {cache} here => ?_
    obtain ⟨packed, nonempty⟩ := shaped cache (mem_of_getElem? here)
    obtain ⟨widens, packed'⟩ := noDBCacheAddColumn_widens packed col (columnSize_pos t)
    obtain ⟨c, mem⟩ := exists_mem_of_ne_nil _ nonempty
    exact ⟨packed', ne_nil_of_mem (widens.cols c mem)⟩
  | create =>
    have added := addedColumn_noDBCacheInit (D := D) t (rows.getD a 0) col
    exact forall_mem_append.2 ⟨shaped, forall_mem_singleton.2 ⟨added.packed, by rw [added.cols]; simp⟩⟩

end MissOutcome

end

end PostgresRaw
