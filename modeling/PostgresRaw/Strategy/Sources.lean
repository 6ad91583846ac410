import PostgresRaw.Strategy.RowLists

/-!
# Where a row's columns come from

A strategy node copies columns from data caches and converts others, before and after the qual.
`buildStrategy_sources` says that every column of the query has exactly one such source, whatever
the matrix looks like: the read branch of `FillRow` files a column either under the cache it hits
or under the conversions, the write branch converts only columns that hit nothing, and the second
call of `FillRow` leaves out what the first one has converted.
-/

namespace PostgresRaw

open List

/-- All columns of a map, as often as they occur in it. -/
def colsOf (map : List ColumnsPerCache) : List Nat := map.flatMap (·.cols)

/-- The columns that a node copies from data caches or converts before the qual. -/
def Strategy.preFilterSources (node : Strategy) : List Nat :=
  colsOf node.readPreFilterWithCache ++ node.convertPreFilter

/-- The columns that a node copies from data caches or converts after the qual. -/
def Strategy.postFilterSources (node : Strategy) : List Nat :=
  colsOf node.readPostFilterWithCache ++ node.convertPostFilter

@[simp] theorem count_colsOf_addColToMap (map : List ColumnsPerCache) (i c d : Nat) :
    (colsOf (addColToMap map i c)).count d = (colsOf map).count d + [c].count d := by
  induction map with
  | nil => simp [colsOf, addColToMap]
  | cons entry map ih =>
    simp only [colsOf, flatMap_cons, count_append] at ih ⊢
    rw [addColToMap]
    split
    · simp only [flatMap_cons, count_append, count_cons, count_nil]
      omega
    · rw [flatMap_cons, count_append, ih, add_assoc]

/-! ### One call of `FillRow` -/

/-- The column is copied from a data cache. -/
def Copies (request : RowRequest) (node : Nat → Node) (c : Nat) : Prop :=
  c ∈ request.read ∧ ((node c).mark .data).isHit

instance (request : RowRequest) (node : Nat → Node) (c : Nat) : Decidable (Copies request node c) :=
  inferInstanceAs (Decidable (_ ∧ _))

section

variable {byValue : Nat → Bool} {request : RowRequest} {node : Nat → Node}

theorem Copies.not_converts {c : Nat} (copied : Copies request node c) : ¬ Converts request node c := by
  obtain ⟨-, hit⟩ := copied
  cases mark : (node c).mark .data with
  | hit i =>
    rintro (⟨-, none⟩ | ⟨-, j, add⟩)
    · exact none i mark
    · rw [mark] at add
      cases add
  | _ =>
    rw [mark] at hit
    cases hit

theorem converts_of_read {c : Nat} (read : c ∈ request.read) (notCopied : ¬ Copies request node c) :
    Converts request node c := by
  refine .inl ⟨read, fun i mark => notCopied ⟨read, ?_⟩⟩
  rw [mark]
  rfl

/-- The read branch adds a column to `mapDataHit` if it hits a data cache. -/
theorem mapDataHit_fillColumn (acc : FillRowReply × List Nat) (col : Nat) :
    (Copies request node col ∧ ∃ i, (fillColumn byValue request node acc col).1.mapDataHit =
        addColToMap acc.1.mapDataHit i col) ∨ (¬ Copies request node col ∧
        (fillColumn byValue request node acc col).1.mapDataHit = acc.1.mapDataHit) := by
  obtain ⟨-, -, -, -, rest₂⟩ := @fillWriteData_spec byValue request node (fillRead request node acc col) col
  obtain ⟨-, -, rest₃⟩ := @fillWritePositions_spec request node
    (fillWriteData byValue request node (fillRead request node acc col) col) col
  rw [fillColumn, rest₃, rest₂]
  simp only [fillRead, Copies]
  split
  · next read =>
    split
    · next i mark => exact .inl ⟨⟨read, by rw [mark]; rfl⟩, i, rfl⟩
    · next noHit =>
      refine .inr ⟨?_, rfl⟩
      rintro ⟨-, hit⟩
      cases mark : (node col).mark .data with
      | hit i => exact noHit i mark
      | _ => simp [mark, Mark.isHit] at hit
  · next notRead => exact .inr ⟨fun copied => notRead copied.1, rfl⟩

/-- **The loop over the columns**, seen by one of the maps that it fills: if an iteration adds its
column when a condition holds and leaves the map alone otherwise, a column is in the map as often as
the loop meets it. -/
theorem count_foldl_fillColumn {f : FillRowReply → List ColumnsPerCache} {P : Nat → Prop} [DecidablePred P]
    (empty : f {} = []) (step : ∀ (acc : FillRowReply × List Nat) (col : Nat),
      (P col ∧ ∃ i, f (fillColumn byValue request node acc col).1 = addColToMap (f acc.1) i col) ∨
        (¬ P col ∧ f (fillColumn byValue request node acc col).1 = f acc.1)) (cols : List Nat) (c : Nat) :
    (colsOf (f (cols.foldl (fillColumn byValue request node) ({}, [])).1)).count c =
      if P c then cols.count c else 0 := by
  refine Lists.foldl_invariant
    (fun (done : List Nat) (acc : FillRowReply × List Nat) =>
      (colsOf (f acc.1)).count c = if P c then done.count c else 0)
    (by simp [colsOf, empty]) fun {done col acc} _ counted => ?_
  have other : col ≠ c → [col].count c = 0 := fun differs =>
    count_eq_zero.2 fun mem => differs (mem_singleton.1 mem).symm
  rw [count_append]
  rcases step acc col with ⟨holds, i, added⟩ | ⟨fails, same⟩
  · rw [added, count_colsOf_addColToMap, counted]
    by_cases here : col = c
    · rw [if_pos (here ▸ holds), if_pos (here ▸ holds)]
    · rw [other here]
      rfl
  · rw [same, counted]
    by_cases here : col = c
    · rw [if_neg (here ▸ fails), if_neg (here ▸ fails)]
    · rw [other here]
      rfl

theorem nodup_convert_fillColumn {acc : FillRowReply × List Nat} (nodup : acc.1.convert.Nodup) (col : Nat) :
    (fillColumn byValue request node acc col).1.convert.Nodup := by
  have read : (fillRead request node acc col).1.convert.Nodup := by
    unfold fillRead
    split
    · split
      · exact nodup
      · exact nodup_addUnique nodup col
    · exact nodup
  obtain ⟨-, -, rest₃⟩ := @fillWritePositions_spec request node
    (fillWriteData byValue request node (fillRead request node acc col) col) col
  rw [fillColumn, rest₃]
  unfold fillWriteData
  split
  · simp only
    split
    · exact nodup_addUnique read col
    · exact nodup_addUnique read col
  · exact read

/-- **What `FillRow` copies and converts**, with multiplicities. -/
theorem count_fillRow (byValue : Nat → Bool) {cols : List Nat} (nodup : cols.Nodup) (request : RowRequest)
    (node : Nat → Node) {c : Nat} (mem : c ∈ cols) :
    (colsOf (fillRow byValue cols request node).mapDataHit).count c = (if Copies request node c then 1 else 0) ∧
      (c ∈ (fillRow byValue cols request node).convert ↔ Converts request node c) ∧
      (fillRow byValue cols request node).convert.Nodup := by
  have filled := foldl_fillColumn byValue request node cols
  have counted := count_foldl_fillColumn (f := (·.mapDataHit)) rfl
    (@mapDataHit_fillColumn byValue request node) cols c
  have unique : (cols.foldl (fillColumn byValue request node) ({}, [])).1.convert.Nodup :=
    Lists.foldl_invariant (fun (_ : List Nat) (acc : FillRowReply × List Nat) => acc.1.convert.Nodup)
      nodup_nil fun _ nodup => nodup_convert_fillColumn nodup _
  rw [count_eq_one_of_mem nodup mem] at counted
  have converted := (@Filled.convert _ _ _ _ _ filled c).trans (and_iff_right mem)
  rw [(fillRow_lists byValue cols request node).1]
  exact ⟨counted, converted, unique⟩

/-- The sources of one call of `FillRow`: a column that is read has one, another one has as many
as it is converted. -/
theorem count_sources_fillRow (byValue : Nat → Bool) {cols : List Nat} (nodup : cols.Nodup)
    (request : RowRequest) (node : Nat → Node) {r : FillRowReply} (fill : fillRow byValue cols request node = r)
    {c : Nat} (mem : c ∈ cols) :
    (colsOf r.mapDataHit ++ r.convert).count c = if c ∈ request.read ∨ c ∈ r.convert then 1 else 0 := by
  subst fill
  obtain ⟨hits, converts, unique⟩ := count_fillRow byValue nodup request node mem
  rw [count_append, hits]
  by_cases hit : Copies request node c
  · have notConverted := fun converted => hit.not_converts (converts.1 converted)
    rw [if_pos hit, count_eq_zero.2 notConverted, if_pos (.inl hit.1)]
  · rw [if_neg hit, zero_add]
    by_cases converted : c ∈ (fillRow byValue cols request node).convert
    · rw [count_eq_one_of_mem unique converted, if_pos (.inr converted)]
    · rw [count_eq_zero.2 converted, if_neg]
      rintro (read | there)
      · exact converted (converts.2 (converts_of_read read hit))
      · exact converted there

end

/-! ### The nodes of a strategy -/

theorem QueryInfo.nodup_cols (q : QueryInfo) : q.cols.Nodup := by
  refine (perm_insertionSort _ _).nodup_iff.2 ?_
  exact Lists.foldl_invariant (fun (_ : List Nat) (cols : List Nat) => cols.Nodup) nodup_nil
    fun _ nodup => nodup_addUnique nodup _

theorem QueryInfo.mem_cols (q : QueryInfo) {c : Nat} :
    c ∈ q.cols ↔ c ∈ q.filter ∨ c ∈ q.rest ∨ c ∈ q.writeData ∨ c ∈ q.writePositions := by
  rw [QueryInfo.cols, mem_insertionSort, mem_foldl_addUnique]
  simp only [not_mem_nil, false_or, mem_append, or_assoc]

/-- The sources of a node, for every row of the matrix. -/
theorem strategyNode_sources (byValue : Nat → Bool) (q : QueryInfo) (startRow nrows : Nat)
    (row : Nat → Node) :
    let node := strategyNode byValue q startRow nrows row
    (∀ c ∈ q.filter, node.preFilterSources.count c = 1 ∧ node.postFilterSources.count c = 0) ∧
      ∀ c ∈ q.rest, (node.preFilterSources ++ node.postFilterSources).count c = 1 := by
  have counts := fun request r => @count_sources_fillRow byValue _ q.nodup_cols request row r
  intro node
  by_cases noFilter : q.filter = []
  · -- There is one call, for the rest.
    have pre : node.preFilterSources = [] := by
      simp [node, strategyNode, noFilter, Strategy.preFilterSources, colsOf]
    refine ⟨by simp [noFilter], fun c rest => ?_⟩
    rw [pre, nil_append]
    have count := counts ⟨q.rest, q.writeData, q.writePositions⟩ _ rfl (q.mem_cols.2 (.inr (.inl rest)))
    rw [if_pos (.inl rest)] at count
    simpa only [node, strategyNode, if_pos noFilter, Strategy.postFilterSources] using count
  · set first := fillRow byValue q.cols ⟨q.filter, q.writeData, q.writePositions⟩ row with first_eq
    set readRest := q.rest.filter fun c => decide (c ∉ q.filter) && decide (c ∉ first.convert) with readRest_eq
    set second := fillRow byValue q.cols ⟨readRest, [], []⟩ row with second_eq
    have pre : ∀ c ∈ q.cols, node.preFilterSources.count c =
        if c ∈ q.filter ∨ c ∈ first.convert then 1 else 0 := by
      intro c mem
      have count := counts ⟨q.filter, q.writeData, q.writePositions⟩ first rfl mem
      simpa only [node, strategyNode, if_neg noFilter, Strategy.preFilterSources] using count
    -- The second call converts only what it reads.
    have converts : ∀ c ∈ q.cols, c ∈ second.convert → c ∈ readRest := by
      intro c mem converted
      obtain ⟨read, -⟩ | ⟨write, -⟩ :=
        (count_fillRow byValue q.nodup_cols ⟨readRest, [], []⟩ row mem).2.1.1 converted
      · exact read
      · cases write
    have post : ∀ c ∈ q.cols, node.postFilterSources.count c = if c ∈ readRest then 1 else 0 := by
      intro c mem
      have count := counts ⟨readRest, [], []⟩ second rfl mem
      simp only [or_iff_left_of_imp (converts c mem)] at count
      simpa only [node, strategyNode, if_neg noFilter, Strategy.postFilterSources] using count
    constructor
    · intro c filter
      have mem := q.mem_cols.2 (.inl filter)
      rw [pre c mem, post c mem, if_pos (.inl filter), if_neg]
      · exact ⟨rfl, rfl⟩
      · rw [readRest_eq, mem_filter]
        rintro ⟨-, apart⟩
        simp [filter] at apart
    · intro c rest
      have mem := q.mem_cols.2 (.inr (.inl rest))
      rw [count_append, pre c mem, post c mem]
      by_cases before : c ∈ q.filter ∨ c ∈ first.convert
      · rw [if_pos before, if_neg]
        rw [readRest_eq, mem_filter]
        rintro ⟨-, apart⟩
        simp only [Bool.and_eq_true, decide_eq_true_eq] at apart
        exact before.elim apart.1 apart.2
      · rw [if_neg before, if_pos]
        rw [readRest_eq, mem_filter]
        exact ⟨rest, by simpa using not_or.1 before⟩

section

variable {D : Type}

/-- **Every requested column is produced exactly once per row**: a filter column before the qual,
another column before or after it. -/
theorem buildStrategy_sources (byValue : Nat → Bool) (q : QueryInfo) (rows : List Nat)
    (caches : List (Cache D)) :
    ∀ node ∈ (buildStrategy byValue q rows caches).1,
      (∀ c ∈ q.filter, node.preFilterSources.count c = 1 ∧ node.postFilterSources.count c = 0) ∧
        ∀ c ∈ q.rest, (node.preFilterSources ++ node.postFilterSources).count c = 1 := by
  intro node mem
  obtain ⟨rowIdx, -, rfl⟩ := mem_map.1 mem
  exact strategyNode_sources ..

end

/-- A query with filter column 0 and column 1, on a relation without caches. -/
theorem buildStrategy_sources_oneNode :
    ∃ node ∈ (buildStrategy (fun _ => true) ⟨0, [0], [1], [0, 1], [0]⟩ [0, 10000] ([] : List (Cache Nat))).1,
      (node.preFilterSources.count 0 = 1 ∧ node.postFilterSources.count 0 = 0) ∧
        (node.preFilterSources ++ node.postFilterSources).count 1 = 1 := by
  obtain ⟨node, mem⟩ := exists_mem_of_length_pos (l := (buildStrategy (fun _ => true)
    ⟨0, [0], [1], [0, 1], [0]⟩ [0, 10000] ([] : List (Cache Nat))).1) (by simp [buildStrategy])
  have sources := buildStrategy_sources _ _ _ _ node mem
  exact ⟨node, mem, sources.1 0 (by decide), sources.2 1 (by decide)⟩

end PostgresRaw
