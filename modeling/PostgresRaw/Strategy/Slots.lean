import PostgresRaw.Cache.Layout
import PostgresRaw.Strategy.Covering

/-!
# The slots of the columns that are to be written

`BuildMatrix` marks a column as added to a cache and ignores the result of `NoDBCacheAddColumn`.  The column
is in the cache all the same: either it is there already, or the cache has room for it by `rowFree`, and the
free bytes of a row are never scattered as long as columns are only added (`Cache.Packed`).  `Slotted` adds to
this where the columns are: every slot ends inside the row.
-/

namespace PostgresRaw

open List

section

variable {D : Type}

/-- The layout of a cache that columns have only been added to, with the slots of the columns. -/
structure Cache.Slotted (cache : Cache D) : Prop where
  packed : cache.Packed
  sum : (cache.list.map (·.size)).sum = cache.rowSize
  slot : ∀ c, cache.hasColumn c = true → ∃ o, cache.offset c = some o ∧ o + columnSize cache.type ≤ cache.rowSize

theorem slotted_noDBCacheInit (t : CacheType) (startRow : Nat) :
    (noDBCacheInit t startRow (defaultRowSize t) : Cache D).Slotted where
  packed := packed_noDBCacheInit t startRow (by cases t <;> decide)
  sum := by simp [noDBCacheInit]
  slot := by simp [noDBCacheInit, Cache.hasColumn]

/-- First fit keeps the sum of the parts, and the part that it finds ends inside. -/
theorem fitPartition_sum {size offset : Nat} {list list' : List RowPartition}
    (fit : fitPartition size list = some (offset, list')) :
    (list'.map (·.size)).sum = (list.map (·.size)).sum ∧ offset + size ≤ (list.map (·.size)).sum := by
  obtain ⟨front, n, back, rfl, fits, rfl, rfl⟩ := fitPartition_eq_some fit
  simp only [map_append, sum_append, map_cons, sum_cons]
  refine ⟨?_, by omega⟩
  congr 2
  split <;> simp <;> omega

/-- What `NoDBCacheAddColumn` does to a cache: nothing, or it adds the column at the offset of a part. -/
theorem noDBCacheAddColumn_cases (cache : Cache D) (col size : Nat) :
    (noDBCacheAddColumn cache col size).2 = cache ∨
      ∃ offset list, fitPartition size cache.list = some (offset, list) ∧
        (noDBCacheAddColumn cache col size).2 =
          { cache with
            list := list
            cols := cache.cols ++ [col]
            offset := Function.update cache.offset col (some offset)
            map := Function.update cache.map col (some (cache.cols.length + 1))
            rowFree := cache.rowFree - size } := by
  unfold noDBCacheAddColumn
  by_cases full : cache.rowFree < size
  · exact .inl (by rw [if_pos full])
  · by_cases there : cache.hasColumn col = true
    · exact .inl (by rw [if_neg full, if_pos there])
    · rw [if_neg full, if_neg there]
      cases fitPartition size cache.list with
      | none => exact .inl rfl
      | some found => exact .inr ⟨found.1, found.2, rfl, rfl⟩

variable {cache : Cache D} {caches : List (Cache D)} {i : Nat} {t : CacheType} {p : Planning D}

/-- **Adding a column** keeps the slots, and the other columns stay. -/
theorem Cache.Slotted.noDBCacheAddColumn (slotted : cache.Slotted) (col : Nat) :
    (noDBCacheAddColumn cache col (columnSize cache.type)).2.Slotted ∧
      ∀ c, cache.hasColumn c = true → (PostgresRaw.noDBCacheAddColumn cache col (columnSize cache.type)).2.hasColumn c = true := by
  obtain ⟨widens, packed⟩ := noDBCacheAddColumn_widens slotted.packed col (columnSize_pos cache.type)
  refine ⟨?_, fun c there => (packed.map_isSome c).2 (widens.cols c ((slotted.packed.map_isSome c).1 there))⟩
  rcases noDBCacheAddColumn_cases cache col (columnSize cache.type) with same | ⟨offset, list, fit, same⟩
  · rw [same]
    exact slotted
  · rw [same] at packed ⊢
    obtain ⟨sum, inside⟩ := fitPartition_sum fit
    rw [slotted.sum] at sum inside
    refine ⟨packed, sum, fun c there => ?_⟩
    by_cases new : c = col
    · subst new
      exact ⟨offset, Function.update_self .., inside⟩
    · have old : cache.hasColumn c = true := by
        simpa [Cache.hasColumn, Function.update_of_ne new] using there
      obtain ⟨o, here, ends⟩ := slotted.slot c old
      exact ⟨o, (Function.update_of_ne new ..).trans here, ends⟩

/-- A column that fits by `rowFree` is there afterwards. -/
theorem Cache.Slotted.hasColumn_added (slotted : cache.Slotted) (col : Nat)
    (room : columnSize cache.type ≤ cache.rowFree) :
    (PostgresRaw.noDBCacheAddColumn cache col (columnSize cache.type)).2.hasColumn col = true := by
  by_cases there : col ∈ cache.cols
  · exact (slotted.noDBCacheAddColumn col).2 col ((slotted.packed.map_isSome col).2 there)
  · obtain ⟨cache', result, added⟩ := noDBCacheAddColumn_of_fits slotted.packed there room (columnSize_pos cache.type)
    rw [result, added.packed.map_isSome, added.cols]
    exact mem_append_right _ mem_cons_self

theorem Cache.Slotted.noDBCacheGrow (slotted : cache.Slotted) (row : Nat) : (noDBCacheGrow cache row).Slotted :=
  ⟨packed_noDBCacheGrow slotted.packed row, slotted.sum, slotted.slot⟩

/-! ### The caches -/

/-- **The cache lists that creation and column addition make.**  Nothing is said about the rows: any number of
them may be in use, any buffer allocated and anything stored in it. -/
inductive Made : List (Cache D) → Prop where
  | none : Made []
  | create {caches : List (Cache D)} (made : Made caches) (t : CacheType) (startRow : Nat) :
      Made (caches ++ [noDBCacheInit t startRow (defaultRowSize t)])
  | addColumn {caches : List (Cache D)} (made : Made caches) (i col : Nat) :
      Made (caches.modify i fun cache => (noDBCacheAddColumn cache col (columnSize cache.type)).2)
  | rows {caches : List (Cache D)} (made : Made caches) (i usedRows : Nat) (maxRows : Option Nat)
      (cells : Nat → Nat → Cell D) :
      Made (caches.modify i fun cache => { cache with usedRows := usedRows, maxRows := maxRows, cells := cells })

def AllSlotted (caches : List (Cache D)) : Prop := ∀ cache ∈ caches, cache.Slotted

theorem AllSlotted.modify (slotted : AllSlotted caches) {f : Cache D → Cache D}
    (keeps : ∀ cache, caches[i]? = some cache → cache.Slotted → (f cache).Slotted) : AllSlotted (caches.modify i f) :=
  Lists.forall_mem_modify slotted fun here => keeps _ here (slotted _ (mem_of_getElem? here))

theorem AllSlotted.append (slotted : AllSlotted caches) (new : cache.Slotted) : AllSlotted (caches ++ [cache]) := by
  intro cache' mem
  rcases mem_append.1 mem with old | last
  · exact slotted cache' old
  · rw [mem_singleton.1 last]
    exact new

theorem Made.allSlotted (made : Made caches) : AllSlotted caches := by
  induction made with
  | none => exact fun _ mem => absurd mem not_mem_nil
  | create _ t startRow ih => exact ih.append (slotted_noDBCacheInit t startRow)
  | addColumn _ i col ih => exact ih.modify fun cache _ slotted => (slotted.noDBCacheAddColumn col).1
  | rows _ i usedRows maxRows cells ih =>
    exact ih.modify fun cache _ slotted => ⟨⟨slotted.packed.map_isSome, slotted.packed.parts⟩, slotted.sum, slotted.slot⟩

/-! ### The second pass -/

/-- The cache is of the type and has the column. -/
def HasSlot (caches : List (Cache D)) (t : CacheType) (i c : Nat) : Prop :=
  ∃ cache, caches[i]? = some cache ∧ cache.type = t ∧ cache.hasColumn c = true

theorem HasSlot.modify {c : Nat} (slot : HasSlot caches t i c) {j : Nat} {f : Cache D → Cache D}
    (keeps : ∀ cache, caches[j]? = some cache → (f cache).type = cache.type ∧
      (cache.hasColumn c = true → (f cache).hasColumn c = true)) : HasSlot (caches.modify j f) t i c := by
  obtain ⟨cache, here, type, there⟩ := slot
  by_cases same : j = i
  · subst same
    obtain ⟨type', there'⟩ := keeps cache here
    exact ⟨f cache, by simp [here], type'.trans type, there' there⟩
  · exact ⟨cache, by simp [here, same], type, there⟩

theorem HasSlot.append {c : Nat} (slot : HasSlot caches t i c) (cache : Cache D) :
    HasSlot (caches ++ [cache]) t i c := by
  obtain ⟨cache', here, rest⟩ := slot
  exact ⟨cache', by rw [List.getElem?_append_left (List.getElem?_eq_some_iff.1 here).1, here], rest⟩

/-- **What the second pass keeps**: what is marked for writing has a slot. -/
structure MarksSlots (p : Planning D) : Prop where
  slotted : AllSlotted p.caches
  marked : ∀ {a c t i}, (p.matrix a c).mark t = .add i → HasSlot p.caches t i c

section

variable (marks : MarksSlots p)
include marks

/-- A step of the second pass. -/
theorem MarksSlots.setMark {caches' : List (Cache D)} (slotted : AllSlotted caches')
    (keeps : ∀ {t i c}, HasSlot p.caches t i c → HasSlot caches' t i c) (t : CacheType) (lo n : Nat) (cols : List Nat)
    {v : Mark} (new : ∀ i, v = .add i → ∀ c ∈ cols, HasSlot caches' t i c) :
    MarksSlots ⟨caches', p.matrix.setMark t lo n cols v⟩ where
  slotted := slotted
  marked {a c t' i} mark := by
    rw [Matrix.setMark_mark] at mark
    split at mark
    · next inside =>
      rw [inside.1]
      exact new i mark c inside.2.2.2
    · exact keeps (marks.marked mark)

theorem MarksSlots.growCache (here : p.caches[i]? = some cache) (type : cache.type = t)
    (row rowIdx : Nat) (candidates : List Nat) : MarksSlots (growCache p t row rowIdx candidates i) := by
  have keeps : ∀ {t j c}, HasSlot p.caches t j c →
      HasSlot (p.caches.modify i fun cache => noDBCacheGrow cache row) t j c :=
    fun slot => slot.modify fun cache _ => ⟨rfl, id⟩
  refine marks.setMark (marks.slotted.modify fun cache _ slotted => slotted.noDBCacheGrow row) keeps t rowIdx 0 _ ?_
  intro j same c mem
  cases same
  have there := (mem_filter.1 mem).2
  rw [here] at there
  exact keeps ⟨cache, here, type, there⟩

theorem MarksSlots.addColumn (here : p.caches[i]? = some cache) (type : cache.type = t)
    (room : columnSize t ≤ cache.rowFree) (rows : List Nat) (rowIdx col : Nat) :
    MarksSlots (addColumn p t rows rowIdx col i) := by
  subst type
  have slotted := marks.slotted cache (mem_of_getElem? here)
  have added := slotted.noDBCacheAddColumn col
  have type := (noDBCacheAddColumn_widens slotted.packed col (columnSize_pos cache.type)).1.type
  refine marks.setMark (marks.slotted.modify fun other there _ => ?_) (fun slot => slot.modify fun other there => ?_) _ _ _ _ ?_
  · cases here.symm.trans there
    exact added.1
  · cases here.symm.trans there
    exact ⟨type, added.2 _⟩
  · intro j same c mem
    cases same
    cases mem_singleton.1 mem
    exact ⟨_, by rw [getElem?_modify_eq, here]; rfl, type, slotted.hasColumn_added col room⟩

theorem MarksSlots.newCache (t : CacheType) (row rowIdx col : Nat) :
    MarksSlots (newCache p t row rowIdx col) := by
  have empty := slotted_noDBCacheInit t row (D := D)
  have type := (noDBCacheAddColumn_widens empty.packed col (columnSize_pos t)).1.type
  refine marks.setMark (marks.slotted.append (empty.noDBCacheAddColumn col).1) (fun slot => slot.append _) _ _ _ _ ?_
  intro j same c mem
  cases same
  cases mem_singleton.1 mem
  exact ⟨_, by rw [getElem?_append_right le_rfl, Nat.sub_self]; rfl, type,
    empty.hasColumn_added col (show columnSize t ≤ defaultRowSize t by cases t <;> decide)⟩

theorem MarksSlots.step {rowIdx col : Nat} {candidates : List Nat} {p' : Planning D} {q : QueryInfo} {rows : List Nat} (outcome : MissOutcome q rows rowIdx candidates col t p p') : MarksSlots p' := by
  cases outcome with
  | settled => exact marks
  | miss => exact marks.setMark marks.slotted id _ _ _ _ fun i same => by cases same
  | grow unknown writes choice =>
    obtain ⟨-, cache, here, type, -⟩ := mem_getCachesCanGrow.1 choice
    exact marks.growCache here type _ _ _
  | add unknown writes choice =>
    obtain ⟨cache, here, type, -, room, -⟩ := mem_getCachesFreeColumns.1 choice
    exact marks.addColumn here type room _ _ _
  | create => exact marks.newCache _ _ _ _

end

/-- **Columns marked for writing have a slot.**  For every list of caches that creation and column addition make
and every query, whatever the rows: a column that `BuildMatrix` marks as added to a cache is in the cache
afterwards, and its slot ends inside the row. -/
theorem add_hasSlot {caches : List (Cache D)} (made : Made caches) (q : QueryInfo) (rows : List Nat) (a c : Nat)
    (t : CacheType) (i : Nat) (marked : ((buildMatrix q rows caches).matrix a c).mark t = .add i) :
    ∃ cache, (buildMatrix q rows caches).caches[i]? = some cache ∧ cache.type = t ∧ cache.hasColumn c = true ∧
      ∃ o, cache.offset c = some o ∧ o + columnSize t ≤ cache.rowSize := by
  have slotted := made.allSlotted
  have packed : AllPacked caches := fun cache mem => (slotted cache mem).packed
  have start : MarksSlots ⟨caches, markHits q rows caches⟩ :=
    ⟨slotted, fun {a c t i} mark => absurd mark (markHits_ne_add q rows packed a c t i)⟩
  have marks : MarksSlots (handleMisses q rows ⟨caches, markHits q rows caches⟩) :=
    handleMisses_induction start fun _ _ marks outcome => marks.step outcome
  rw [buildMatrix_mark] at marked
  -- The buffers of the last node are allocated behind the last pass.
  have grown : AllSlotted (buildMatrix q rows caches).caches ∧ HasSlot (buildMatrix q rows caches).caches t i c :=
    growToLastRow_induction (I := fun caches' => AllSlotted caches' ∧ HasSlot caches' t i c) q _ _ _
      ⟨marks.slotted, marks.marked marked⟩ fun j inv =>
        ⟨inv.1.modify fun cache _ slotted => slotted.noDBCacheGrow _, inv.2.modify fun cache _ => ⟨rfl, id⟩⟩
  obtain ⟨all, cache, here, rfl, there⟩ := grown
  exact ⟨cache, here, rfl, there, (all cache (mem_of_getElem? here)).slot c there⟩

/-- The positional map that a scan has left which was aborted before its first row. -/
def leftMap : List (Cache Nat) :=
  ([] ++ [noDBCacheInit .positions 0 (defaultRowSize .positions)]).modify 0 fun cache =>
    (noDBCacheAddColumn cache 3 (columnSize cache.type)).2

/-- The column is there already, so adding it fails. -/
theorem add_hasSlot_left :
    ((buildMatrix ⟨0, [], [3], [], [3]⟩ [0, 10000] leftMap).matrix 0 3).mark .positions = .add 0 ∧
      ∃ cache, (buildMatrix ⟨0, [], [3], [], [3]⟩ [0, 10000] leftMap).caches[0]? = some cache ∧
        cache.type = .positions ∧ cache.hasColumn 3 = true ∧
        ∃ o, cache.offset 3 = some o ∧ o + columnSize .positions ≤ cache.rowSize :=
  ⟨by decide, add_hasSlot ((Made.none.create .positions 0).addColumn 0 3) ⟨0, [], [3], [], [3]⟩ [0, 10000] 0 3 .positions 0
    (by decide)⟩

end

end PostgresRaw
