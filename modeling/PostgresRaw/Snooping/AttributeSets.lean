import PostgresRaw.Library.Lists
import PostgresRaw.Snooping.Sessions

/-!
# The columns that a scan asks for

A scan asks the query descriptor for the columns of its relation, for those among them that its qual
reads, and for the rest.  The first two are looked up in different lists and by different names: an entry
of `filterList` has had its alias replaced when it was added, an entry of `allAttributes` is compared with
the aliases at the time of the lookup.

That the two agree rests on two facts about the alias map.  Entries are never changed, so an alias that was
replaced by the name of a relation is an alias of this relation later (`mayReferTo_mono`); and a reference
goes to `allAttributes` whenever it goes to `filterList` (`filterCollected_apply`).  So the columns of the
qual are among all columns (`filterAttributes_subset`), and the vector for the rest, which is allocated
with the difference of the two sizes, is filled to its last slot.
-/

namespace PostgresRaw

open List

/-! ### Column vectors -/

/-- `NoDBColVectorInit`: slots that nothing has been stored in. -/
def noDBColVectorInit (size : Nat) : List (Option Nat) := List.replicate size none

/-- `NoDBColVectorSet`; `none` for a slot outside the vector. -/
def noDBColVectorSet (v : List (Option Nat)) (i col : Nat) : Option (List (Option Nat)) :=
  if i < v.length then some (v.set i (some col)) else none

/-- The loop of `getQueryRestAttributes`. -/
def fillRest (filterAtts : List Nat) : List Nat → List (Option Nat) → Nat → Option (List (Option Nat))
  | [], v, _ => some v
  | col :: cols, v, j =>
    if col ∈ filterAtts then fillRest filterAtts cols v j
    else (noDBColVectorSet v j col).bind fun v => fillRest filterAtts cols v (j + 1)

/-- `getQueryRestAttributes`; `none` if the size is negative or a column is stored outside the vector. -/
def getQueryRestAttributes (queryAtts filterAtts : List Nat) : Option (List (Option Nat)) :=
  if queryAtts.length < filterAtts.length then none
  else fillRest filterAtts queryAtts (noDBColVectorInit (queryAtts.length - filterAtts.length)) 0

/-- The columns that are not among the others are stored one after the other. -/
theorem fillRest_eq {filterAtts cols : List Nat} {size : Nat} (done : List Nat)
    (room : (cols.filter (· ∉ filterAtts)).length ≤ size) :
    fillRest filterAtts cols (done.map some ++ List.replicate size none) done.length =
      some ((done ++ cols.filter (· ∉ filterAtts)).map some ++
        List.replicate (size - (cols.filter (· ∉ filterAtts)).length) none) := by
  induction cols generalizing done size with
  | nil => simp [fillRest]
  | cons col cols ih =>
    by_cases isFilter : col ∈ filterAtts
    · rw [fillRest, if_pos isFilter, filter_cons_of_neg (by simpa using isFilter)]
      rw [filter_cons_of_neg (by simpa using isFilter)] at room
      exact ih done room
    · rw [filter_cons_of_pos (by simpa using isFilter), length_cons] at room
      obtain ⟨size, rfl⟩ : ∃ n, size = n + 1 := ⟨size - 1, by omega⟩
      have stored : noDBColVectorSet (done.map some ++ List.replicate (size + 1) none) done.length col =
          some ((done ++ [col]).map some ++ List.replicate size none) := by
        rw [noDBColVectorSet, if_pos (by simp)]
        simp [replicate_succ]
      have rest := ih (done ++ [col]) (show (cols.filter (· ∉ filterAtts)).length ≤ size by omega)
      rw [length_append, length_singleton] at rest
      rw [fillRest, if_neg isFilter, stored, Option.bind_some, rest,
        filter_cons_of_pos (by simpa using isFilter), length_cons, Nat.add_sub_add_right,
        append_assoc, singleton_append]

/-- **The vector for the rest** has a slot for every column and none besides, if the columns of the qual are
among all columns. -/
theorem getQueryRestAttributes_eq {queryAtts filterAtts : List Nat} (sorted : queryAtts.Pairwise (· < ·))
    (sorted' : filterAtts.Pairwise (· < ·)) (subset : ∀ c ∈ filterAtts, c ∈ queryAtts) :
    getQueryRestAttributes queryAtts filterAtts = some ((queryAtts.filter (· ∉ filterAtts)).map some) := by
  have read : queryAtts.filter (· ∈ filterAtts) = filterAtts := by
    have same : ∀ c, c ∈ queryAtts.filter (· ∈ filterAtts) ↔ c ∈ filterAtts := by
      intro c
      simp only [mem_filter, decide_eq_true_eq]
      exact ⟨And.right, fun mem => ⟨subset c mem, mem⟩⟩
    exact (sorted.filter _).eq_of_mem_iff sorted' same
  have sizes : queryAtts.length = filterAtts.length + (queryAtts.filter (· ∉ filterAtts)).length := by
    have split := length_eq_length_filter_add (l := queryAtts) (fun c => decide (c ∈ filterAtts))
    rw [read] at split
    simpa only [decide_not] using split
  have filled := @fillRest_eq filterAtts queryAtts (queryAtts.length - filterAtts.length) [] (by omega)
  rw [getQueryRestAttributes, if_neg (by omega), noDBColVectorInit]
  rw [show queryAtts.length - filterAtts.length - (queryAtts.filter (· ∉ filterAtts)).length = 0 by omega] at filled
  simpa using filled

/-! ### Columns of a qual -/

namespace QueryDescriptor

variable {d : QueryDescriptor}

/-- **The columns that `getQueryFilterAttributes` finds** are those that an entry of `filterList` names. -/
theorem mem_getQueryFilterAttributes {attrs : List String} (distinct : attrs.Nodup) {relation : String} {j : Nat}
    {name : String} (column : attrs[j]? = some name) : j ∈ getQueryFilterAttributes attrs relation d ↔
      ∃ e ∈ d.filterList, e.tableName.all (· = relation) = true ∧ e.columnName = some name := by
  obtain ⟨bound, _⟩ := List.getElem?_eq_some_iff.1 column
  rw [getQueryFilterAttributes, mem_filter, mem_range, and_iff_right bound]
  refine Lists.foldl_invariant (fun (entries : List ColumnDescriptor) (which : Nat → Bool) => which j = true ↔
    ∃ e ∈ entries, e.tableName.all (· = relation) = true ∧ e.columnName = some name) ?_ ?_
  · simp
  intro done e which _ marked
  have split : (∃ x ∈ done ++ [e], x.tableName.all (· = relation) = true ∧ x.columnName = some name) ↔
      which j = true ∨ e.tableName.all (· = relation) = true ∧ e.columnName = some name := by
    rw [marked]
    simp only [mem_append, mem_singleton, or_and_right, exists_or, exists_eq_left]
  rw [split]
  by_cases here : e.tableName.all (· = relation) = true
  · cases named : e.columnName with
    | none => simp [here]
    | some other =>
      simp only [here, if_true, true_and]
      rw [markColumn_iff distinct, column, eq_comm (a := some name)]
  · simp [here]

/-- Every entry of `filterList` stands for a reference that has been collected with all others, and that
is one to the relation of the entry. -/
def FilterCollected (d : QueryDescriptor) : Prop :=
  ∀ e ∈ d.filterList, ∃ c ∈ d.allAttributes, c.columnName = e.columnName ∧
    ∀ relation, e.tableName.all (· = relation) = true → mayReferTo d.aliasMap relation c = true

/-- A name that has been replaced is an alias of the relation. -/
theorem mayReferTo_of_resolved {c : ColumnDescriptor} {relation : String}
    (here : (c.tableName.map fun t => (d.getTableNameFromAlias t).getD t).all (· = relation) = true) :
    mayReferTo d.aliasMap relation c = true := by
  unfold mayReferTo
  cases table : c.tableName with
  | none => rfl
  | some t =>
    simp only [table, Option.map_some, Option.all_some, decide_eq_true_eq] at here
    simp only [Bool.or_eq_true, decide_eq_true_eq]
    cases found : d.aliasMap.find? fun entry => entry.aliasName = t with
    | none =>
      rw [getTableNameFromAlias, found] at here
      exact .inl here
    | some entry =>
      rw [getTableNameFromAlias, found] at here
      have isAlias := find?_some found
      refine .inr (any_eq_true.2 ⟨entry, mem_of_find?_eq_some found, ?_⟩)
      simpa [show entry.tableName = relation from here] using isAlias

/-- The entry of `filterList` that a reference gets, if it gets one. -/
theorem mem_filterList_addColumnInformation {c e : ColumnDescriptor} (mem : e ∈ (addColumnInformation c d).filterList) :
    e ∈ d.filterList ∨ e = { c with tableName := c.tableName.map fun t => (d.getTableNameFromAlias t).getD t } := by
  have same : d.initializeIfNeeded.filterList = d.filterList ∧
      ∀ t, d.initializeIfNeeded.getTableNameFromAlias t = d.getTableNameFromAlias t := by
    refine ⟨?_, fun t => ?_⟩
    · unfold initializeIfNeeded
      split <;> rfl
    · rw [getTableNameFromAlias, initializeIfNeeded_aliasMap]
      rfl
  have kept : (addColumnInformation c d).filterList = (addToClause c d.initializeIfNeeded).filterList := by
    unfold addColumnInformation addToAllAttributes
    split <;> rfl
  rw [kept] at mem
  unfold addToClause at mem
  split at mem
  · rw [mem_append, mem_singleton, same.1] at mem
    simpa only [same.2] using mem
  · rw [same.1] at mem
    exact .inl mem

theorem mem_addAlias {aliasMap : List AliasMapEntry} {entry : AliasMapEntry} :
    ∀ old ∈ aliasMap, old ∈ addAlias aliasMap entry := by
  intro old mem
  unfold addAlias
  split
  · exact mem
  · split
    · exact mem_append_left _ mem
    · exact mem

/-- **A call keeps the lists together.** -/
theorem filterCollected_apply (collected : d.FilterCollected) (call : ParseCall) : (call.apply d).FilterCollected := by
  cases call with
  | status newStatus => exact collected
  | column c =>
    intro e mem
    simp only [ParseCall.apply, addColumnInformation_aliasMap]
    rcases mem_filterList_addColumnInformation mem with old | rfl
    · obtain ⟨c', there, rest⟩ := collected e old
      exact ⟨c', mem_addColumnInformation.2 (.inl there), rest⟩
    · exact ⟨c, mem_addColumnInformation.2 (.inr rfl), rfl, fun relation => mayReferTo_of_resolved⟩
  | tableAlias entry =>
    have same : (addTableAliasInformation entry d).filterList = d.filterList ∧
        (addTableAliasInformation entry d).allAttributes = d.allAttributes := by
      unfold addTableAliasInformation initializeIfNeeded
      split <;> exact ⟨rfl, rfl⟩
    intro e mem
    simp only [ParseCall.apply, addTableAliasInformation_aliasMap, same.1, same.2] at mem ⊢
    obtain ⟨c, there, named, refers⟩ := collected e mem
    exact ⟨c, there, named, fun relation here => mayReferTo_mono mem_addAlias (refers relation here)⟩

theorem filterCollected_calls (calls : List ParseCall) : (calls.foldl ParseCall.apply .empty).FilterCollected :=
  Lists.foldl_invariant (fun _ (d : QueryDescriptor) => d.FilterCollected) (fun _ mem => absurd mem not_mem_nil)
    fun _ collected => filterCollected_apply collected _

/-- The columns of a qual are among all columns. -/
theorem filterAttributes_subset {attrs : List String} (distinct : attrs.Nodup) (relation : String)
    (collected : d.FilterCollected) :
    ∀ j ∈ getQueryFilterAttributes attrs relation d, j ∈ getQueryAttributes attrs relation d := by
  intro j mem
  have bound : j < attrs.length := mem_range.1 (mem_filter.1 mem).1
  have column := getElem?_eq_getElem bound
  obtain ⟨e, there, here, named⟩ := (mem_getQueryFilterAttributes distinct column).1 mem
  obtain ⟨c, found, same, refers⟩ := collected e there
  exact (mem_getQueryAttributes distinct column).2 ⟨c, found, refers relation here, .inr (same.trans named)⟩

/-- **The attribute sets are consistent.**  Whatever calls have filled the query descriptor, the columns of a
relation and those of its qual come in increasing order, the latter are among the former, and the rest is
what remains of them, in a vector of its size. -/
theorem attributeSets_consistent (calls : List ParseCall) {attrs : List String} (distinct : attrs.Nodup)
    (relation : String) :
    let d := calls.foldl ParseCall.apply .empty
    let queryAtts := getQueryAttributes attrs relation d
    let filterAtts := getQueryFilterAttributes attrs relation d
    (queryAtts.Pairwise (· < ·) ∧ ∀ c ∈ queryAtts, c < attrs.length) ∧
      (filterAtts.Pairwise (· < ·) ∧ ∀ c ∈ filterAtts, c < attrs.length) ∧
      (∀ c ∈ filterAtts, c ∈ queryAtts) ∧
      getQueryRestAttributes queryAtts filterAtts = some ((queryAtts.filter (· ∉ filterAtts)).map some) := by
  intro d queryAtts filterAtts
  have inside : ∀ (which : Nat → Bool), ((List.range attrs.length).filter which).Pairwise (· < ·) ∧
      ∀ c ∈ (List.range attrs.length).filter which, c < attrs.length := fun which =>
    ⟨pairwise_lt_range.filter which, fun c mem => mem_range.1 (mem_filter.1 mem).1⟩
  have subset := filterAttributes_subset distinct relation (filterCollected_calls calls)
  exact ⟨inside _, inside _, subset, getQueryRestAttributes_eq (inside _).1 (inside _).1 subset⟩

end QueryDescriptor

/-- `SELECT x.a FROM t AS x WHERE x.b = 1` reads columns 0 and 1 of `t`, and column 1 in the qual. -/
theorem attributeSets_consistent_alias :
    let d := [ParseCall.tableAlias ⟨"t", "x"⟩, .column ⟨some "a", some "x", none, none, false⟩, .status .filterList,
      .column ⟨some "b", some "x", none, none, false⟩].foldl ParseCall.apply .empty
    QueryDescriptor.getQueryAttributes ["a", "b", "c"] "t" d = [0, 1] ∧
      QueryDescriptor.getQueryFilterAttributes ["a", "b", "c"] "t" d = [1] ∧
      getQueryRestAttributes [0, 1] [1] = some [some 0] := by
  have consistent := QueryDescriptor.attributeSets_consistent [.tableAlias ⟨"t", "x"⟩,
    .column ⟨some "a", some "x", none, none, false⟩, .status .filterList,
    .column ⟨some "b", some "x", none, none, false⟩] (show ["a", "b", "c"].Nodup by decide) "t"
  have query : QueryDescriptor.getQueryAttributes ["a", "b", "c"] "t"
      ([ParseCall.tableAlias ⟨"t", "x"⟩, .column ⟨some "a", some "x", none, none, false⟩, .status .filterList,
        .column ⟨some "b", some "x", none, none, false⟩].foldl ParseCall.apply .empty) = [0, 1] := by decide +kernel
  have filter : QueryDescriptor.getQueryFilterAttributes ["a", "b", "c"] "t"
      ([ParseCall.tableAlias ⟨"t", "x"⟩, .column ⟨some "a", some "x", none, none, false⟩, .status .filterList,
        .column ⟨some "b", some "x", none, none, false⟩].foldl ParseCall.apply .empty) = [1] := by decide +kernel
  refine ⟨query, filter, ?_⟩
  have rest := consistent.2.2.2
  simp only [query, filter] at rest
  exact rest

end PostgresRaw
