import PostgresRaw.Strategy.RowLists
import PostgresRaw.Strategy.Tiling

/-!
# Which rows the caches of a node have

`BuildMatrix` decides a hit on the first row of a node.  That the cache has the other rows of the
node as well depends on where nodes end: between two rows of `GetInterestingRows` no cache begins
or ends, but the nodes that `NoDBScanStrategyIteratorGet` plans on demand are 10000 rows long
whatever the caches are by then.  `readsCovered_of_callsMeet` says when the nodes of an iterator
read only from caches that cover them; nothing is assumed about the caches apart from their row
layout, and `NoDBCaches` may change between the calls.
-/

namespace PostgresRaw

open List

section

variable {D : Type}

/-! ### The second pass, whatever the caches claim -/

variable {caches' created : List (Cache D)}

variable (q : QueryInfo) (rows : List Nat) (caches : List (Cache D))

/-- The second pass adds to the caches and leaves no hit that the first pass has not found. -/
structure KeepsHits (p : Planning D) : Prop where
  widened : Extends caches p.caches
  packed : AllPacked p.caches
  hits : ∀ {a c t j}, (p.matrix a c).mark t = .hit j → (markHits q rows caches a c).mark t = .hit j
  closest : ∀ a c, (p.matrix a c).closest = (markHits q rows caches a c).closest

variable {q rows caches} {p : Planning D}

/-- A step of the second pass on the caches, which marks columns as added or missed. -/
theorem KeepsHits.setMark (keeps : KeepsHits q rows caches p) (widened : Extends p.caches caches')
    (packed : AllPacked caches') (t : CacheType) (lo n : Nat) (cols : List Nat) {v : Mark} (noHit : ∀ j, v ≠ .hit j) :
    KeepsHits q rows caches ⟨caches', p.matrix.setMark t lo n cols v⟩ where
  widened := keeps.widened.trans widened
  packed := packed
  hits {a c t' j} hit := by
    rw [Matrix.setMark_mark] at hit
    split at hit
    · exact absurd hit (noHit j)
    · exact keeps.hits hit
  closest a c := by
    rw [Matrix.setMark_closest]
    exact keeps.closest a c

theorem KeepsHits.step (keeps : KeepsHits q rows caches p) {a col : Nat} {candidates : List Nat} {t : CacheType}
    {p' : Planning D} (outcome : MissOutcome q rows a candidates col t p p') : KeepsHits q rows caches p' := by
  obtain ⟨widened, packed⟩ := outcome.widened keeps.packed
  cases outcome with
  | settled => exact keeps
  | miss => exact keeps.setMark widened packed _ _ _ _ nofun
  | grow => exact keeps.setMark widened packed _ _ _ _ nofun
  | add => exact keeps.setMark widened packed _ _ _ _ nofun
  | create => exact keeps.setMark widened packed _ _ _ _ nofun

theorem keepsHits_handleMisses (q : QueryInfo) (rows : List Nat) (packed : AllPacked caches) :
    KeepsHits q rows caches (handleMisses q rows ⟨caches, markHits q rows caches⟩) :=
  handleMisses_induction ⟨.refl _, packed, fun hit => hit, fun _ _ => rfl⟩ fun _ _ keeps outcome => keeps.step outcome

theorem extends_growToLastRow (q : QueryInfo) (m : Matrix) (lastRowIdx lastRow : Nat) (packed : AllPacked caches) :
    Extends caches (growToLastRow q m lastRowIdx lastRow caches) ∧
      AllPacked (growToLastRow q m lastRowIdx lastRow caches) :=
  growToLastRow_induction (I := fun caches' => Extends caches caches' ∧ AllPacked caches') q m lastRowIdx
    lastRow ⟨.refl _, packed⟩ fun _ inv =>
      ⟨inv.1.trans (extends_modify fun _ => widens_noDBCacheGrow _ _),
        Lists.forall_mem_modify inv.2 fun here => packed_noDBCacheGrow (inv.2 _ (mem_of_getElem? here)) _⟩

/-! ### What the matrix says to read -/

/-- The cache has the column and the row. -/
def Holds (caches : List (Cache D)) (i c r : Nat) : Prop :=
  ∃ cache, caches[i]? = some cache ∧ cache.hasColumn c = true ∧ cache.hasRow r = true

theorem Holds.of_claims (packed : AllPacked caches) {t : CacheType} {c r : Nat} (claims : (lane caches t).Claims i c r) :
    Holds caches i c r := by
  obtain ⟨cache, here, -, mem, row⟩ := lane_claims_iff.1 claims
  exact ⟨cache, here, (packed.hasColumn here c).2 mem, row⟩

theorem Holds.widen (packed : AllPacked caches) (packed' : AllPacked caches') (widened : Extends caches caches')
    {c r : Nat} (holds : Holds caches i c r) : Holds caches' i c r := by
  obtain ⟨cache, here, col, row⟩ := holds
  obtain ⟨cache', here', widens⟩ := widened.old here
  refine ⟨cache', here', ?_, ?_⟩
  · rw [packed'.hasColumn here']
    exact widens.cols c ((packed.hasColumn here c).1 col)
  · rw [Cache.hasRow, widens.startRow, widens.usedRows]
    exact row

/-- The caches that a row of the matrix reads from have the first row of the node. -/
structure ReadsFrom (caches : List (Cache D)) (row : Nat) (node : Nat → Node) : Prop where
  data : ∀ {c i}, (node c).mark .data = .hit i → Holds caches i c row
  positions : ∀ {c b}, (node c).closest = some b → Holds caches b.cache b.column row
  measured : ∀ {c b}, (node c).closest = some b → b.distance = (c : Int) - b.column

/-- **What `BuildMatrix` reads**, for any caches. -/
theorem buildMatrix_reads (q : QueryInfo) (rows : List Nat) (packed : AllPacked caches) :
    let p := buildMatrix q rows caches
    Extends caches p.caches ∧ AllPacked p.caches ∧
      ∀ a < rows.length - 1, ReadsFrom p.caches (rows.getD a 0) (p.matrix a) := by
  have hits := markHits_spec q rows packed
  have keeps := keepsHits_handleMisses q rows packed
  unfold buildMatrix
  generalize handleMisses q rows ⟨caches, markHits q rows caches⟩ = p at keeps ⊢
  simp only
  have row := foldl_closestRow q rows p.caches p.matrix (rows.length - 1)
  generalize (List.range (rows.length - 1)).foldl (closestRow q rows p.caches) p.matrix = m at row ⊢
  obtain ⟨widened, packed'⟩ := extends_growToLastRow q m (rows.length - 2)
    (rows.getD (rows.length - 1) 0 - 1) keeps.packed
  generalize growToLastRow q m (rows.length - 2) (rows.getD (rows.length - 1) 0 - 1) p.caches = caches'
    at widened packed'
  -- Claims of the caches before or after the second pass hold at the end.
  have early : ∀ {t i c r}, (lane caches t).Claims i c r → Holds caches' i c r := fun claims =>
    (Holds.of_claims packed claims).widen packed packed' (keeps.widened.trans widened)
  have late : ∀ {t i c r}, (lane p.caches t).Claims i c r → Holds caches' i c r := fun claims =>
    (Holds.of_claims keeps.packed claims).widen keeps.packed packed' widened
  have closest : ∀ a < rows.length - 1, ∀ {c b}, (m a c).closest = some b →
      Holds caches' b.cache b.column (rows.getD a 0) ∧ b.distance = (c : Int) - b.column := by
    intro a inside c b found
    -- A position that the first pass has found.
    have first : (p.matrix a c).closest = some b →
        Holds caches' b.cache b.column (rows.getD a 0) ∧ b.distance = (c : Int) - b.column := by
      intro found
      rw [keeps.closest] at found
      rcases hits.positions a c with ⟨-, none⟩ | ⟨i, -, closest, claims⟩
      · rw [none] at found
        cases found
      · rw [closest] at found
        cases found
        exact ⟨early claims, by simp⟩
    rw [row, if_pos inside] at found
    unfold closestRow at found
    split at found
    · have known := closestPosition_cases (knownPositions p.caches (rows.getD a 0)
        (q.cols.filter fun c => ((p.matrix a c).mark .positions).isAdd)) c
      cases result : closestPosition (knownPositions p.caches (rows.getD a 0)
          (q.cols.filter fun c => ((p.matrix a c).mark .positions).isAdd)) c with
      | none =>
        rw [result] at found
        exact first found
      | some b' =>
        rw [result] at found known
        obtain rfl : b' = b := Option.some.inj found
        exact ⟨late (mem_knownPositions.1 known.1).1, known.2⟩
    · exact first found
  refine ⟨keeps.widened.trans widened, packed', fun a inside => ⟨fun {c i} hit => ?_,
    fun found => (closest a inside found).1, fun found => (closest a inside found).2⟩⟩
  have mark : (m a c).mark = (p.matrix a c).mark := by
    rw [row, if_pos inside]
    exact closestRow_mark ..
  rw [mark] at hit
  rcases hits.data a c with unknown | ⟨i', hit', claims⟩
  · have unmarked := (keeps.hits hit).symm.trans unknown
    cases unmarked
  · have same := (keeps.hits hit).symm.trans hit'
    cases same
    exact early claims

/-! ### Covered nodes -/

/-- Each cache that the node reads from holds the columns listed for it, and has every row of the
node among its used rows. -/
def Strategy.CoveredBy (node : Strategy) (caches : List (Cache D)) : Prop :=
  ∀ entry ∈ node.readPreFilterWithCache ++ node.readPostFilterWithCache ++ node.readPreFilterWithPM ++
      node.readPostFilterWithPM,
    ∃ cache, caches[entry.cache]? = some cache ∧ (∀ c ∈ entry.cols, cache.hasColumn c = true) ∧
      ∀ r, node.startRow ≤ r → r < node.startRow + node.nrows → cache.hasRow r = true

/-- No cache has the first of the rows among its used rows, but not all of them. -/
def NoneEndsInside (caches : List (Cache D)) (row nrows : Nat) : Prop :=
  ∀ cache ∈ caches, cache.hasRow row = true → row + nrows ≤ cache.endRow

/-- What the second list of caches holds, the first one holds as well. -/
def StillHolds (caches created : List (Cache D)) : Prop :=
  ∀ {i : Nat} {cache : Cache D}, created[i]? = some cache → ∃ cache', caches[i]? = some cache' ∧
    (∀ c, cache.hasColumn c = true → cache'.hasColumn c = true) ∧
    ∀ r, cache.hasRow r = true → cache'.hasRow r = true

theorem Strategy.CoveredBy.still {node : Strategy} (covered : node.CoveredBy created)
    (still : StillHolds caches created) : node.CoveredBy caches := by
  intro entry mem
  obtain ⟨cache, here, cols, rows⟩ := covered entry mem
  obtain ⟨cache', here', hasColumn, hasRow⟩ := still here
  exact ⟨cache', here', fun c inside => hasColumn c (cols c inside), fun r first last => hasRow r (rows r first last)⟩

/-- Planning only adds to what the caches hold. -/
theorem NoneEndsInside.of_extends {row nrows : Nat} (none : NoneEndsInside caches row nrows)
    (widened : Extends caches caches') : NoneEndsInside caches' row nrows := by
  intro cache' mem hasRow
  obtain ⟨i, here'⟩ := getElem?_of_mem mem
  cases here : caches[i]? with
  | none =>
    rw [Cache.hasRow_iff, Cache.endRow, (widened.new here here').1] at hasRow
    omega
  | some cache =>
    obtain ⟨other, same, widens⟩ := widened.old here
    obtain rfl : other = cache' := Option.some.inj (same.symm.trans here')
    have endRow : other.endRow = cache.endRow := by
      rw [Cache.endRow, widens.startRow, widens.usedRows]
      rfl
    rw [endRow]
    refine none cache (mem_of_getElem? here) ?_
    rw [Cache.hasRow, widens.startRow, widens.usedRows] at hasRow
    exact hasRow

section

variable {row nrows : Nat} {node : Nat → Node} (reads : ReadsFrom caches row node)
  (none : NoneEndsInside caches row nrows) (byValue : Nat → Bool)

include reads none

/-- The entries of one call of `FillRow`. -/
theorem ReadsFrom.fillRow (cols : List Nat)
    (request : RowRequest) {entry : ColumnsPerCache} (mem : entry ∈ (fillRow byValue cols request node).mapDataHit ∨
      entry ∈ (fillRow byValue cols request node).mapReadFromPM) :
    ∃ cache, caches[entry.cache]? = some cache ∧ (∀ c ∈ entry.cols, cache.hasColumn c = true) ∧
      ∀ r, row ≤ r → r < row + nrows → cache.hasRow r = true := by
  have noEmpty := noEmpty_fillRow byValue cols request node
  have holds : entry.cols ≠ [] ∧ ∀ c ∈ entry.cols, Holds caches entry.cache c row := by
    rcases mem with hit | anchor
    · refine ⟨noEmpty.hit entry hit, fun c inside => reads.data ?_⟩
      exact (maps_mapDataHit.1 ⟨entry, hit, rfl, inside⟩).2.2
    · refine ⟨noEmpty.anchors entry anchor, fun c inside => ?_⟩
      obtain ⟨c', -, b, found, rfl, isCache⟩ :=
        maps_mapReadFromPM (fun c _ b found => reads.measured found) ⟨entry, anchor, rfl, inside⟩
      rw [← isCache]
      exact reads.positions found
  obtain ⟨some, holds⟩ := holds
  obtain ⟨first, isFirst⟩ := exists_mem_of_ne_nil _ some
  obtain ⟨cache, here, -, hasRow⟩ := holds first isFirst
  refine ⟨cache, here, fun c inside => ?_, fun r le less => ?_⟩
  · obtain ⟨other, here', hasColumn, -⟩ := holds c inside
    obtain rfl : other = cache := Option.some.inj (here'.symm.trans here)
    exact hasColumn
  · have := none cache (mem_of_getElem? here) hasRow
    rw [Cache.hasRow_iff] at hasRow ⊢
    omega

theorem ReadsFrom.strategyNode (q : QueryInfo) :
    (strategyNode byValue q row nrows node).CoveredBy caches := by
  intro entry mem
  have covered := fun request => @ReadsFrom.fillRow D caches row nrows node reads none byValue q.cols request entry
  rw [strategyNode_startRow, strategyNode_nrows]
  unfold PostgresRaw.strategyNode at mem
  simp only [mem_append] at mem
  by_cases noFilter : q.filter = []
  · simp only [if_pos noFilter, not_mem_nil, false_or, or_false] at mem
    exact covered _ mem
  · simp only [if_neg noFilter] at mem
    rcases mem with ((pre | post) | pre) | post
    · exact covered _ (.inl pre)
    · exact covered _ (.inl post)
    · exact covered _ (.inr pre)
    · exact covered _ (.inr post)

end

/-- The nodes that `BuildStrategy` makes of rows between which no cache ends. -/
theorem buildStrategy_covered (byValue : Nat → Bool) (q : QueryInfo) (rows : List Nat) (packed : AllPacked caches)
    (none : ∀ a < rows.length - 1, NoneEndsInside caches (rows.getD a 0) (rows.getD (a + 1) 0 - rows.getD a 0)) :
    ∀ node ∈ (buildStrategy byValue q rows caches).1, node.CoveredBy (buildStrategy byValue q rows caches).2 := by
  obtain ⟨widened, -, reads⟩ := buildMatrix_reads q rows packed
  intro node mem
  obtain ⟨a, inside, rfl⟩ := mem_map.1 mem
  have less := mem_range.1 inside
  exact (reads a less).strategyNode ((none a less).of_extends widened) byValue q

/-- Between interesting rows no cache ends. -/
theorem noneEndsInside_interesting {a : Nat} (inside : a < (getInterestingRows caches).length - 1) :
    NoneEndsInside caches ((getInterestingRows caches).getD a 0)
      ((getInterestingRows caches).getD (a + 1) 0 - (getInterestingRows caches).getD a 0) := by
  intro cache mem hasRow
  have used : 0 < cache.usedRows := by
    rw [Cache.hasRow_iff, Cache.endRow] at hasRow
    omega
  obtain ⟨sorted, interesting⟩ := getInterestingRows_spec ⟨cache, mem, used⟩
  obtain ⟨n, isEnd⟩ := getElem?_of_mem ((interesting cache.endRow).2 (.inr ⟨cache, mem, used, .inr rfl⟩))
  generalize getInterestingRows caches = rows at inside hasRow sorted isEnd ⊢
  let cuts := cutsOf rows sorted
  have ends : cuts.row n = cache.endRow := row_of_getElem? sorted isEnd
  have bound : n < rows.length := (List.getElem?_eq_some_iff.1 isEnd).1
  change cuts.row a + (cuts.row (a + 1) - cuts.row a) ≤ cache.endRow
  change cache.hasRow (cuts.row a) = true at hasRow
  rw [Cache.hasRow_iff] at hasRow
  have behind : a < n := by
    by_contra before
    have : cuts.row n ≤ cuts.row a := cuts.row_le (not_lt.1 before) (show a ≤ rows.length - 1 by omega)
    omega
  have : cuts.row (a + 1) ≤ cuts.row n := cuts.row_le behind (show n ≤ rows.length - 1 by omega)
  omega

/-- The nodes planned when the iterator is created are covered, for every content of `NoDBCaches`. -/
theorem noDBScanStrategyIterator_covered (byValue : Nat → Bool) (q : QueryInfo) (packed : AllPacked caches) :
    ∀ node ∈ (noDBScanStrategyIterator byValue q caches).1.strategy,
      node.CoveredBy (noDBScanStrategyIterator byValue q caches).2 := by
  unfold noDBScanStrategyIterator
  split
  · nofun
  · exact buildStrategy_covered byValue q _ packed fun a inside => noneEndsInside_interesting inside

/-! ### Runs of the iterator -/

/-- Every node that the calls of `NoDBScanStrategyIteratorGet` return is covered by the caches
there are at that call. -/
def ReadsCovered (byValue : Nat → Bool) : StrategyIterator → List (List (Cache D)) → Prop
  | _, [] => True
  | it, caches :: calls =>
    let (it, caches) := noDBScanStrategyIteratorGet byValue it caches
    it.current.CoveredBy caches ∧ ReadsCovered byValue (noDBScanStrategyIteratorNext it) calls

/-- A call that plans a node finds no cache that ends inside it, and one that returns a node
planned when the iterator was created finds that the caches still hold what they held then. -/
def CallsMeet (byValue : Nat → Bool) (created : List (Cache D)) :
    StrategyIterator → List (List (Cache D)) → Prop
  | _, [] => True
  | it, caches :: calls =>
    (if it.cur = it.strategy.length then NoneEndsInside caches it.nextRow defaultRows
      else StillHolds caches created) ∧
    CallsMeet byValue created
      (noDBScanStrategyIteratorNext (noDBScanStrategyIteratorGet byValue it caches).1) calls

/-- The nodes that are left have been planned when the iterator was created. -/
def StrategyIterator.LeftCovered (it : StrategyIterator) (created : List (Cache D)) : Prop :=
  it.cur ≤ it.strategy.length ∧ ∀ node ∈ it.strategy.drop it.cur, node.CoveredBy created

theorem StrategyIterator.LeftCovered.current {it : StrategyIterator} (left : it.LeftCovered created)
    (more : it.cur < it.strategy.length) :
    it.current.CoveredBy created ∧ (noDBScanStrategyIteratorNext it).LeftCovered created := by
  have split := drop_eq_getElem_cons more
  refine ⟨left.2 _ ?_, more, fun node mem => left.2 node ?_⟩
  · rw [split, StrategyIterator.current, getD_eq_getElem?_getD, getElem?_eq_getElem more, Option.getD_some]
    exact mem_cons_self
  · rw [split]
    exact mem_cons_of_mem _ mem

/-- One call. -/
theorem noDBScanStrategyIteratorGet_covered (byValue : Nat → Bool) {it : StrategyIterator} (packed : AllPacked caches)
    (left : it.LeftCovered created)
    (meets : if it.cur = it.strategy.length then NoneEndsInside caches it.nextRow defaultRows
      else StillHolds caches created) :
    (noDBScanStrategyIteratorGet byValue it caches).1.current.CoveredBy
        (noDBScanStrategyIteratorGet byValue it caches).2 ∧
      (noDBScanStrategyIteratorNext (noDBScanStrategyIteratorGet byValue it caches).1).LeftCovered created := by
  unfold noDBScanStrategyIteratorGet
  by_cases ended : it.cur = it.strategy.length
  · rw [if_pos ended] at meets ⊢
    have covered := buildStrategy_covered byValue it.queryInfo [it.nextRow, it.nextRow + defaultRows] packed
      fun a inside => by
        obtain rfl : a = 0 := by simpa using inside
        simpa using meets
    -- The new node is the only one, so none of the old kind is left.
    refine ⟨covered _ ?_, le_rfl, ?_⟩
    · exact mem_singleton_self _
    · nofun
  · rw [if_neg ended] at meets ⊢
    obtain ⟨covered, next⟩ := left.current (Nat.lt_of_le_of_ne left.1 ended)
    exact ⟨covered.still meets, next⟩

/-- **Strategy nodes read only from caches that cover them**: those planned when the iterator is
created always do, and those returned later do if every call meets the condition. -/
theorem readsCovered_of_callsMeet (byValue : Nat → Bool) (q : QueryInfo) {caches : List (Cache D)}
    {calls : List (List (Cache D))} (packed : ∀ content ∈ caches :: calls, AllPacked content)
    (meet : CallsMeet byValue (noDBScanStrategyIterator byValue q caches).2
      (noDBScanStrategyIterator byValue q caches).1 calls) :
    (∀ node ∈ (noDBScanStrategyIterator byValue q caches).1.strategy,
        node.CoveredBy (noDBScanStrategyIterator byValue q caches).2) ∧
      ReadsCovered byValue (noDBScanStrategyIterator byValue q caches).1 calls := by
  rw [forall_mem_cons] at packed
  have created := noDBScanStrategyIterator_covered byValue q packed.1
  refine ⟨created, ?_⟩
  have left : (noDBScanStrategyIterator byValue q caches).1.LeftCovered
      (noDBScanStrategyIterator byValue q caches).2 :=
    ⟨(ahead_noDBScanStrategyIterator byValue q caches).inside,
      fun node mem => created node (mem_of_mem_drop mem)⟩
  have contents := packed.2
  generalize (noDBScanStrategyIterator byValue q caches).2 = created' at meet left
  generalize (noDBScanStrategyIterator byValue q caches).1 = it at meet left
  clear created packed
  induction calls generalizing it with
  | nil => exact trivial
  | cons content calls ih =>
    obtain ⟨now, later⟩ := meet
    rw [forall_mem_cons] at contents
    obtain ⟨covered, left'⟩ := noDBScanStrategyIteratorGet_covered byValue contents.1 left now
    exact ⟨covered, ih contents.2 _ later left'⟩

end

/-! ### A cache that another scan has finalised -/

/-- A data cache with rows of one column. -/
def columnRows (col startRow usedRows : Nat) : Cache Nat :=
  { (noDBCacheAddColumn (noDBCacheInit .data startRow 256) col 16).2 with usedRows, maxRows := some 10000 }

theorem packed_columnRows (col startRow usedRows : Nat) : (columnRows col startRow usedRows).Packed := by
  obtain ⟨-, packed⟩ := noDBCacheAddColumn_widens
    (packed_noDBCacheInit .data startRow (by decide) : (noDBCacheInit .data startRow 256 : Cache Nat).Packed)
    col (show 0 < 16 by decide)
  exact ⟨packed.map_isSome, packed.parts⟩

/-- A scan of column 0 that has got no locks. -/
def readFirstColumn : QueryInfo := ⟨0, [], [0], [], []⟩

theorem readsCovered_of_callsMeet_columnRows :
    CallsMeet (fun _ => true) [columnRows 0 0 3]
        (noDBScanStrategyIterator (fun _ => true) readFirstColumn [columnRows 0 0 3]).1 [[columnRows 0 0 3], [columnRows 0 0 3]] ∧
      ReadsCovered (fun _ => true)
        (noDBScanStrategyIterator (fun _ => true) readFirstColumn [columnRows 0 0 3]).1
        [[columnRows 0 0 3], [columnRows 0 0 3]] := by
  have packed : ∀ content ∈ [[columnRows 0 0 3], [columnRows 0 0 3], [columnRows 0 0 3]], AllPacked content := by
    simp [AllPacked, packed_columnRows]
  have meet : CallsMeet (fun _ => true) [columnRows 0 0 3]
      (noDBScanStrategyIterator (fun _ => true) readFirstColumn [columnRows 0 0 3]).1
      [[columnRows 0 0 3], [columnRows 0 0 3]] := by
    refine ⟨?_, ?_, trivial⟩
    · rw [if_neg (by decide)]
      exact fun here => ⟨_, here, fun _ has => has, fun _ has => has⟩
    · rw [if_pos (by decide)]
      intro cache mem hasRow
      rw [mem_singleton.1 mem] at hasRow
      exact absurd hasRow (by decide)
  exact ⟨meet, (readsCovered_of_callsMeet _ _ packed meet).2⟩

/-- Another scan finalises the cache with five rows after the iterator has returned its first
node, of three rows: the node of 10000 rows planned next reads from it. -/
theorem not_readsCovered_finalised :
    (∀ content ∈ [[columnRows 0 0 3], [columnRows 0 0 3], [columnRows 0 0 5]], AllPacked content) ∧
      ¬ ReadsCovered (fun _ => true)
        (noDBScanStrategyIterator (fun _ => true) readFirstColumn [columnRows 0 0 3]).1
        [[columnRows 0 0 3], [columnRows 0 0 5]] := by
  refine ⟨by simp [AllPacked, packed_columnRows], ?_⟩
  rintro ⟨-, covered, -⟩
  obtain ⟨cache, here, -, rows⟩ := covered ⟨0, [0]⟩ (by decide)
  have hasRow := rows 5 (by decide) (by decide)
  obtain rfl : columnRows 0 0 5 = cache := Option.some.inj here
  exact absurd hasRow (by decide)

end PostgresRaw
