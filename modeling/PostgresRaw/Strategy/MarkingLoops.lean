import PostgresRaw.Strategy.Planned
import PostgresRaw.Strategy.Tiling

/-!
# The marking loops of `BuildMatrix`

Four loops of `BuildMatrix` walk the row vector while a cache has the rows: those that mark hits, and those that
mark a column which has been added to a cache.  They have no test of the index.  `walkRows` is such a loop with the
test, and `buildMatrixChecked` is `BuildMatrix` with all of them: it gives no result if one gets behind the last
row.  If it gives one, it is that of `buildMatrix` (`buildMatrixChecked_eq`).

What stops the loops is the last row of the vector: a cache that has another row of the vector must not have this one
(`EndsBefore`).  The rows of `GetInterestingRows` are chosen like that (`endsBefore_getInterestingRows`); a vector
of 10000 new rows is not, it depends on the caches.
-/

namespace PostgresRaw

open Option List

/-! ### A loop -/

/-- The loop over the rows of a vector from some index on, while the cache has them: how many it walks, or `none` if
it reads behind the last row. -/
def walkRows (hasRow : Nat → Bool) : List Nat → Option Nat
  | [] => none
  | r :: rest => if hasRow r then (walkRows hasRow rest).map (· + 1) else some 0

variable {rows : List Nat} {hasRow : Nat → Bool}

theorem walkRows_eq_some {n : Nat} (walks : walkRows hasRow rows = some n) : n = (rows.takeWhile hasRow).length := by
  induction rows generalizing n with
  | nil => cases walks
  | cons r rest ih =>
    rw [walkRows] at walks
    split at walks
    · next has =>
      obtain ⟨m, later, rfl⟩ := map_eq_some_iff.1 walks
      rw [takeWhile_cons_of_pos has, length_cons, ih later]
    · next lacks =>
      cases walks
      rw [takeWhile_cons_of_neg lacks]
      rfl

/-- **The loop leaves the vector** if the cache has all rows. -/
theorem walkRows_eq_none : walkRows hasRow rows = none ↔ ∀ r ∈ rows, hasRow r = true := by
  induction rows with
  | nil => simp [walkRows]
  | cons r rest ih =>
    rw [walkRows, forall_mem_cons]
    split
    · next has => rw [map_eq_none_iff, ih, and_iff_right has]
    · next lacks => simp [lacks]

theorem exists_walkRows {r : Nat} (mem : r ∈ rows) (lacks : hasRow r = false) : ∃ n, walkRows hasRow rows = some n := by
  refine ne_none_iff_exists'.1 fun leaves => ?_
  rw [walkRows_eq_none.1 leaves r mem] at lacks
  cases lacks

section

variable {D : Type}

/-! ### `BuildMatrix` with a test of the index -/

/-- Whether the cache has a row: `NoDBCacheHasRow`. -/
def hasRowOf (caches : List (Cache D)) (i r : Nat) : Bool := caches[i]?.any (·.hasRow r)

/-- The first pass on one cell. -/
def hitCellChecked (q : QueryInfo) (rows : List Nat) (caches : List (Cache D)) (rowIdx col : Nat) (t : CacheType)
    (m : Matrix) : Option Matrix :=
  if unsettled q m t rowIdx col then
    match getBestCacheHit caches (getCachesWithRow caches t (rows.getD rowIdx 0)) col q.readCols with
    | none => some m
    | some i =>
      (walkRows (hasRowOf caches i) (rows.drop rowIdx)).map fun _ =>
        markHit m t rowIdx (col :: cacheCols caches i q.readCols) i
  else some m

/-- The first pass. -/
def markHitsChecked (q : QueryInfo) (rows : List Nat) (caches : List (Cache D)) : Option Matrix :=
  (List.range (rows.length - 1)).foldlM
    (fun m rowIdx =>
      q.cols.foldlM
        (fun m col => do
          let m ← hitCellChecked q rows caches rowIdx col .data m
          hitCellChecked q rows caches rowIdx col .positions m)
        m)
    Matrix.initial

/-- Add a column to a cache, and mark it where the loop gets to. -/
def addColumnChecked (p : Planning D) (t : CacheType) (rows : List Nat) (rowIdx col i : Nat) : Option (Planning D) :=
  let caches := p.caches.modify i fun cache => (noDBCacheAddColumn cache col (columnSize t)).2
  (walkRows (hasRowOf caches i) (rows.drop (rowIdx + 1))).map fun below =>
    ⟨caches, p.matrix.setMark t rowIdx below [col] (.add i)⟩

/-- The second pass on one cell. -/
def missCellChecked (q : QueryInfo) (rows : List Nat) (rowIdx : Nat) (candidates : List Nat) (col : Nat)
    (t : CacheType) (p : Planning D) : Option (Planning D) :=
  let row := rows.getD rowIdx 0
  if unsettled q p.matrix t rowIdx col then
    if col ∈ q.write t then
      match getBestCacheToGrow p.caches (getCachesCanGrow p.caches t col row candidates) candidates with
      | some i => some (growCache p t row rowIdx candidates i)
      | none =>
        match getBestCacheToAddColumn p.caches
            (getCachesFreeColumns p.caches t q.limit row (columnSize t)) with
        | some i => addColumnChecked p t rows rowIdx col i
        | none => some (newCache p t row rowIdx col)
    else some { p with matrix := p.matrix.setMark t rowIdx 0 [col] .miss }
  else some p

/-- The second pass on one node. -/
def missRowChecked (q : QueryInfo) (rows : List Nat) (p : Planning D) (rowIdx : Nat) : Option (Planning D) :=
  let dataCandidates := growCandidates q p.matrix .data rowIdx
  let pmCandidates := growCandidates q p.matrix .positions rowIdx
  q.cols.foldlM
    (fun p col => do
      let p ← missCellChecked q rows rowIdx dataCandidates col .data p
      missCellChecked q rows rowIdx pmCandidates col .positions p)
    p

/-- `BuildMatrix`; `none` if one of its loops reads the row vector behind the last row. -/
def buildMatrixChecked (q : QueryInfo) (rows : List Nat) (caches : List (Cache D)) : Option (Planning D) := do
  let m ← markHitsChecked q rows caches
  let p ← (List.range (rows.length - 1)).foldlM (missRowChecked q rows) ⟨caches, m⟩
  let m := (List.range (rows.length - 1)).foldl (closestRow q rows p.caches) p.matrix
  some ⟨growToLastRow q m (rows.length - 2) (rows.getD (rows.length - 1) 0 - 1) p.caches, m⟩

/-! ### What it computes -/

variable {t : CacheType} {rows : List Nat} {col rowIdx : Nat} {q : QueryInfo} {p : Planning D}

theorem hitCellChecked_eq {caches : List (Cache D)} {m m' : Matrix}
    (checked : hitCellChecked q rows caches rowIdx col t m = some m') :
    m' = hitCell q caches (rows.getD rowIdx 0) rowIdx col t m := by
  unfold hitCellChecked at checked
  split at checked
  · next todo =>
    split at checked
    · next none =>
      cases checked
      simp only [hitCell, if_pos todo, none]
    · next i best =>
      obtain ⟨n, -, rfl⟩ := map_eq_some_iff.1 checked
      simp only [hitCell, if_pos todo, best]
  · next settled =>
    cases checked
    rw [hitCell, if_neg settled]

theorem hasRowOf_addColumn (caches : List (Cache D)) (i col size : Nat) :
    hasRowOf (caches.modify i fun cache => (noDBCacheAddColumn cache col size).2) i = hasRowOf caches i := by
  funext r
  unfold hasRowOf
  rw [getElem?_modify_eq]
  cases caches[i]? with
  | none => rfl
  | some cache =>
    obtain ⟨-, start, used, -⟩ := noDBCacheAddColumn_narrows cache col size
    simp [Cache.hasRow, start, used]

theorem addColumnChecked_eq {p' : Planning D} {i : Nat} (checked : addColumnChecked p t rows rowIdx col i = some p') :
    p' = addColumn p t rows rowIdx col i := by
  unfold addColumnChecked at checked
  simp only [hasRowOf_addColumn] at checked
  obtain ⟨n, walks, rfl⟩ := map_eq_some_iff.1 checked
  rw [walkRows_eq_some walks]
  rfl

theorem missCellChecked_eq {candidates : List Nat} {p' : Planning D}
    (checked : missCellChecked q rows rowIdx candidates col t p = some p') :
    p' = missCell q rows rowIdx candidates col t p := by
  simp only [missCellChecked] at checked
  split at checked
  · next todo =>
    split at checked
    · next writes =>
      split at checked
      · next grow =>
        cases checked
        simp only [missCell, if_pos todo, if_pos writes, grow]
      · next noGrow =>
        split at checked
        · next add =>
          simp only [missCell, if_pos todo, if_pos writes, noGrow, add]
          exact addColumnChecked_eq checked
        · next noAdd =>
          cases checked
          simp only [missCell, if_pos todo, if_pos writes, noGrow, noAdd]
    · next keeps =>
      cases checked
      simp only [missCell, if_pos todo, if_neg keeps]
  · next settled =>
    cases checked
    rw [missCell, if_neg settled]

/-- A loop that can fail does what the loop does that cannot. -/
theorem foldlM_eq_foldl {α σ : Type} {f : σ → α → Option σ} {g : σ → α → σ} {l : List α} {s s' : σ}
    (run : l.foldlM f s = some s') (same : ∀ {s x s'}, f s x = some s' → s' = g s x) : s' = l.foldl g s := by
  refine Lists.foldlM_invariant (fun done s' => s' = done.foldl g s) rfl run fun {done x t t'} _ inv step => ?_
  rw [foldl_append, ← inv]
  exact same step

/-- **With the test `BuildMatrix` computes the same**, if it gets through. -/
theorem buildMatrixChecked_eq {caches : List (Cache D)} (checked : buildMatrixChecked q rows caches = some p) :
    p = buildMatrix q rows caches := by
  obtain ⟨m, hits, checked⟩ := bind_eq_some_iff.1 checked
  obtain ⟨p₁, misses, checked⟩ := bind_eq_some_iff.1 checked
  have first : m = markHits q rows caches := by
    refine foldlM_eq_foldl hits fun {m rowIdx m'} row => foldlM_eq_foldl row fun {m col m'} cell => ?_
    obtain ⟨m₁, data, positions⟩ := bind_eq_some_iff.1 cell
    rw [hitCellChecked_eq positions, hitCellChecked_eq data]
  have second : p₁ = handleMisses q rows ⟨caches, m⟩ := by
    refine foldlM_eq_foldl misses fun {p rowIdx p'} row => foldlM_eq_foldl row fun {p col p'} cell => ?_
    obtain ⟨p₁, data, positions⟩ := bind_eq_some_iff.1 cell
    rw [missCellChecked_eq positions, missCellChecked_eq data]
  subst first second
  exact (Option.some.inj checked).symm

/-! ### What stops the loops -/

/-- A cache that has a row of the vector, the last one apart, does not have the last one. -/
def EndsBefore (rows : List Nat) (caches : List (Cache D)) : Prop :=
  ∀ cache ∈ caches, ∀ a < rows.length - 1, cache.hasRow (rows.getD a 0) = true →
    cache.hasRow (rows.getD (rows.length - 1) 0) = false

theorem last_mem_drop {a : Nat} (inside : a < rows.length) : rows.getD (rows.length - 1) 0 ∈ rows.drop a := by
  have last : rows.length - 1 < rows.length := by omega
  rw [getD_eq_getElem?_getD, getElem?_eq_getElem last, getD_some]
  refine mem_iff_getElem.2 ⟨rows.length - 1 - a, by rw [length_drop]; omega, ?_⟩
  rw [getElem_drop]
  congr 1
  omega

namespace EndsBefore

variable {rows : List Nat} {caches : List (Cache D)}

/-- Only the rows of the caches matter. -/
theorem modify (ends : EndsBefore rows caches) (i : Nat) {f : Cache D → Cache D}
    (same : ∀ cache, (f cache).hasRow = cache.hasRow) : EndsBefore rows (caches.modify i f) := by
  refine Lists.forall_mem_modify ends fun here => ?_
  rw [same]
  exact ends _ (mem_of_getElem? here)

/-- A new cache has no rows. -/
theorem append (ends : EndsBefore rows caches) {cache : Cache D} (unused : cache.usedRows = 0) :
    EndsBefore rows (caches ++ [cache]) := by
  intro other mem a inside has
  rcases mem_append.1 mem with old | new
  · exact ends other old a inside has
  · obtain rfl := mem_singleton.1 new
    rw [Cache.hasRow_iff, Cache.endRow, unused] at has
    omega

/-- The loop that marks a hit. -/
theorem hitCell (ends : EndsBefore rows caches) (q : QueryInfo) {a : Nat} (inside : a < rows.length - 1) (col : Nat)
    (t : CacheType) (m : Matrix) : ∃ m', hitCellChecked q rows caches a col t m = some m' := by
  unfold hitCellChecked
  split
  · split
    · exact ⟨m, rfl⟩
    · next i best =>
      obtain ⟨cache, here, hasRow⟩ := mem_selectCaches.1 (mem_of_bestBy best).1
      rw [Bool.and_eq_true] at hasRow
      have lacks := ends cache (mem_of_getElem? here) a inside hasRow.2
      have lacksLast : hasRowOf caches i (rows.getD (rows.length - 1) 0) = false := by
        rw [hasRowOf, here]
        exact lacks
      obtain ⟨n, walks⟩ := exists_walkRows (last_mem_drop (show a < rows.length by omega)) lacksLast
      exact ⟨_, by rw [walks]; rfl⟩
  · exact ⟨m, rfl⟩

/-- The loop that marks an added column. -/
theorem addColumn {p : Planning D} (ends : EndsBefore rows p.caches) (t : CacheType) {a : Nat} (inside : a < rows.length - 1)
    (col : Nat) {i : Nat} {cache : Cache D} (here : p.caches[i]? = some cache) (starts : cache.startRow = rows.getD a 0) :
    ∃ p', addColumnChecked p t rows a col i = some p' ∧ EndsBefore rows p'.caches := by
  have lacks : cache.hasRow (rows.getD (rows.length - 1) 0) = false := by
    by_contra has
    have has : cache.hasRow (rows.getD (rows.length - 1) 0) = true := by simpa using has
    have first : cache.hasRow (rows.getD a 0) = true := by
      rw [Cache.hasRow_iff] at has ⊢
      omega
    rw [ends cache (mem_of_getElem? here) a inside first] at has
    cases has
  have lacksLast : hasRowOf p.caches i (rows.getD (rows.length - 1) 0) = false := by
    rw [hasRowOf, here]
    exact lacks
  obtain ⟨n, walks⟩ := exists_walkRows (last_mem_drop (show a + 1 < rows.length by omega)) lacksLast
  refine ⟨⟨p.caches.modify i fun cache => (noDBCacheAddColumn cache col (columnSize t)).2,
    p.matrix.setMark t a n [col] (.add i)⟩, ?_, ?_⟩
  · unfold addColumnChecked
    simp only [hasRowOf_addColumn, walks, map_some]
  · refine ends.modify i fun cache => ?_
    obtain ⟨-, start, used, -⟩ := noDBCacheAddColumn_narrows cache col (columnSize t)
    funext r
    rw [Cache.hasRow, start, used, ← Cache.hasRow]

theorem missCell {p : Planning D} (ends : EndsBefore rows p.caches) (q : QueryInfo) {a : Nat} (inside : a < rows.length - 1)
    (candidates : List Nat) (col : Nat) (t : CacheType) :
    ∃ p', missCellChecked q rows a candidates col t p = some p' ∧ EndsBefore rows p'.caches := by
  unfold missCellChecked
  simp only
  split
  · split
    · split
      · next i _ => exact ⟨_, rfl, ends.modify i fun _ => rfl⟩
      · split
        · next i best =>
          obtain ⟨cache, here, -, starts, -⟩ := mem_getCachesFreeColumns.1 (mem_of_bestBy best).1
          exact ends.addColumn t inside col here starts
        · refine ⟨_, rfl, ends.append ?_⟩
          rw [(noDBCacheAddColumn_narrows _ _ _).2.2.1]
          rfl
    · exact ⟨_, rfl, ends⟩
  · exact ⟨p, rfl, ends⟩

/-- **The loops stay inside** the row vector. -/
theorem buildMatrix (ends : EndsBefore rows caches) (q : QueryInfo) :
    ∃ p, buildMatrixChecked q rows caches = some p := by
  obtain ⟨m, hits, -⟩ := Lists.foldlM_isSome (l := List.range (rows.length - 1)) (s := Matrix.initial)
    (f := fun m rowIdx => q.cols.foldlM (fun m col => do
      let m ← hitCellChecked q rows caches rowIdx col .data m
      hitCellChecked q rows caches rowIdx col .positions m) m) (fun _ => True) trivial fun {a m} inside _ => by
    refine Lists.foldlM_isSome (fun _ => True) trivial fun {col m} _ _ => ?_
    obtain ⟨m₁, data⟩ := ends.hitCell q (mem_range.1 inside) col .data m
    obtain ⟨m₂, positions⟩ := ends.hitCell q (mem_range.1 inside) col .positions m₁
    exact ⟨m₂, by rw [data]; exact positions, trivial⟩
  obtain ⟨p, misses, -⟩ := Lists.foldlM_isSome (l := List.range (rows.length - 1)) (s := (⟨caches, m⟩ : Planning D))
    (f := missRowChecked q rows) (fun p => EndsBefore rows p.caches) ends fun {a p} inside ends => by
    refine Lists.foldlM_isSome (fun p : Planning D => EndsBefore rows p.caches) ends fun {col p} _ ends => ?_
    obtain ⟨p₁, data, ends₁⟩ := ends.missCell q (mem_range.1 inside) _ col .data
    obtain ⟨p₂, positions, ends₂⟩ := ends₁.missCell q (mem_range.1 inside) _ col .positions
    exact ⟨p₂, by rw [data]; exact positions, ends₂⟩
  unfold buildMatrixChecked
  rw [show markHitsChecked q rows caches = some m from hits]
  change ∃ p', (List.foldlM (missRowChecked q rows) ⟨caches, m⟩ _).bind _ = some p'
  rw [misses]
  exact ⟨_, rfl⟩

end EndsBefore

/-- **Behind the last of the interesting rows there are no caches.** -/
theorem endsBefore_getInterestingRows (caches : List (Cache D)) : EndsBefore (getInterestingRows caches) caches := by
  intro cache mem a inside has
  have used : 0 < cache.usedRows := by
    rw [Cache.hasRow_iff, Cache.endRow] at has
    omega
  obtain ⟨sorted, interesting⟩ := getInterestingRows_spec ⟨cache, mem, used⟩
  have isRow := (interesting cache.endRow).2 (.inr ⟨cache, mem, used, .inr rfl⟩)
  generalize getInterestingRows caches = rows at *
  obtain ⟨i, here, same⟩ := mem_iff_getElem.1 isRow
  have last : rows.length - 1 < rows.length := by omega
  have behind : cache.endRow ≤ rows.getD (rows.length - 1) 0 := by
    rw [getD_eq_getElem?_getD, getElem?_eq_getElem last, getD_some, ← same]
    rcases lt_or_eq_of_le (show i ≤ rows.length - 1 by omega) with less | rfl
    · exact le_of_lt (pairwise_iff_getElem.1 sorted i _ here last less)
    · exact le_rfl
  by_contra later
  have later : cache.hasRow (rows.getD (rows.length - 1) 0) = true := by
    simpa using later
  have := (Cache.hasRow_iff.1 later).2
  omega

/-- **The row vector is never left** in a plan that is made in one go: the loops with checks do what those of
`BuildMatrix` do. -/
theorem buildMatrixChecked_getInterestingRows (q : QueryInfo) (caches : List (Cache D)) :
    buildMatrixChecked q (getInterestingRows caches) caches =
      some (PostgresRaw.buildMatrix q (getInterestingRows caches) caches) := by
  obtain ⟨p, checked⟩ := (endsBefore_getInterestingRows caches).buildMatrix q
  rw [checked, buildMatrixChecked_eq checked]

end

end PostgresRaw
