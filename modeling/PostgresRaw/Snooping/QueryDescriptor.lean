import Mathlib.Data.List.Basic
import Mathlib.Data.List.Nodup
import Mathlib.Data.List.Range

/-!
# The query descriptor

`queryDescriptor.c` keeps one global descriptor of the columns that statements refer to.  The
parser fills it while it resolves names, the executor adds the columns of the scans' quals, and a
scan asks it for the columns that it has to read.

The lists `targetList`, `groupList`, `orderByList`, `whereList` and `havingList` are filled and
never read, so they are left out.
-/

namespace PostgresRaw

open List

/-- `ColumnDescriptor`: a reference as it is written; `wholeRow` is `*`. -/
structure ColumnDescriptor where
  columnName : Option String
  tableName : Option String
  schemaName : Option String
  catalogName : Option String
  wholeRow : Bool
deriving DecidableEq, Repr

/-- `ParseStatus`: the clause that is being transformed. -/
inductive ParseStatus where
  | idle
  | targetList
  | groupList
  | orderByList
  | whereList
  | havingList
  | filterList
deriving DecidableEq, Repr

/-- `AliasMapEntry`. -/
structure AliasMapEntry where
  tableName : String
  aliasName : String
deriving DecidableEq, Repr

/-- `QueryDescriptor` with `isInitialized` and `PSStatus`.  Only slots of the alias map in use are
listed; names are never empty, so that an empty slot matches none. -/
structure QueryDescriptor where
  aliasMap : List AliasMapEntry
  filterList : List ColumnDescriptor
  allAttributes : List ColumnDescriptor
  limit : Nat
  isInitialized : Bool
  status : ParseStatus
deriving DecidableEq, Repr

namespace QueryDescriptor

/-- The descriptor before the first statement, and after `resetQueryDescriptor`. -/
def empty : QueryDescriptor := ⟨[], [], [], 0, false, .idle⟩

/-- `NUMBER_OF_RELATIONS`. -/
def numberOfRelations : Nat := 50

/-- `initializeQueryDescriptor`, called if the descriptor is not initialised.  The lists and the
alias map are empty then, so that only the limit is lost. -/
def initializeIfNeeded (d : QueryDescriptor) : QueryDescriptor :=
  if d.isInitialized then d else { d with limit := 0, isInitialized := true }

/-- `setQueryLimit`. -/
def setQueryLimit (limit : Nat) (d : QueryDescriptor) : QueryDescriptor := { d with limit := limit }

/-- `changeParseStatus`. -/
def changeParseStatus (newStatus : ParseStatus) (d : QueryDescriptor) : QueryDescriptor :=
  { d with status := newStatus }

/-- `getTableNameFromAlias`. -/
def getTableNameFromAlias (d : QueryDescriptor) (aliasName : String) : Option String :=
  (d.aliasMap.find? fun entry => entry.aliasName = aliasName).map (·.tableName)

/-- `hasTableAlias`. -/
def hasTableAlias (aliasMap : List AliasMapEntry) (tableName aliasName : String) : Bool :=
  aliasMap.any fun entry => entry.tableName = tableName && entry.aliasName = aliasName

/-- The `switch` of `addColumnInformation`.  An alias is replaced in `filterList`. -/
def addToClause (c : ColumnDescriptor) (d : QueryDescriptor) : QueryDescriptor :=
  match d.status with
  | .filterList =>
    let resolved := c.tableName.map fun t => (d.getTableNameFromAlias t).getD t
    { d with filterList := d.filterList ++ [{ c with tableName := resolved }] }
  | _ => d

/-- The end of `addColumnInformation`: `allAttributes` gets the reference as it is written. -/
def addToAllAttributes (c : ColumnDescriptor) (d : QueryDescriptor) : QueryDescriptor :=
  if c ∈ d.allAttributes then d else { d with allAttributes := d.allAttributes ++ [c] }

/-- `addColumnInformation`. -/
def addColumnInformation (c : ColumnDescriptor) (d : QueryDescriptor) : QueryDescriptor :=
  addToAllAttributes c (addToClause c d.initializeIfNeeded)

/-- What `addTableAliasInformation` makes of the alias map. -/
def addAlias (aliasMap : List AliasMapEntry) (entry : AliasMapEntry) : List AliasMapEntry :=
  if hasTableAlias aliasMap entry.tableName entry.aliasName then aliasMap
  else if aliasMap.length < numberOfRelations then aliasMap ++ [entry]
  else aliasMap

/-- `addTableAliasInformation`. -/
def addTableAliasInformation (entry : AliasMapEntry) (d : QueryDescriptor) : QueryDescriptor :=
  let d := d.initializeIfNeeded
  { d with aliasMap := addAlias d.aliasMap entry }

/-- What `traversePlanTree` does with the qual of a scan: deparsing it names these columns. -/
def visitQual (columns : List ColumnDescriptor) (d : QueryDescriptor) : QueryDescriptor :=
  changeParseStatus .idle
    (columns.foldl (fun d c => addColumnInformation c d) (changeParseStatus .filterList d))

/-! ### The columns of a relation -/

/-- The search for a column of the relation that has the name and is not yet in `which`. -/
def markColumn (attrs : List String) (name : String) (which : Nat → Bool) : Nat → Bool :=
  match (List.range attrs.length).find? fun j => attrs[j]? = some name && !which j with
  | some j => Function.update which j true
  | none => which

/-- The reference may be one to this relation. -/
def mayReferTo (aliasMap : List AliasMapEntry) (relation : String) (c : ColumnDescriptor) : Bool :=
  match c.tableName with
  | none => true
  | some t => t = relation || hasTableAlias aliasMap relation t

/-- The loop of `getQueryAttributes`, which ends at a whole-row reference. -/
def markAttributes (attrs : List String) (aliasMap : List AliasMapEntry) (relation : String) :
    List ColumnDescriptor → (Nat → Bool) → (Nat → Bool)
  | [], which => which
  | c :: cs, which =>
    if mayReferTo aliasMap relation c = false then markAttributes attrs aliasMap relation cs which
    else if c.wholeRow then fun _ => true
    else
      match c.columnName with
      | none => markAttributes attrs aliasMap relation cs which
      | some name => markAttributes attrs aliasMap relation cs (markColumn attrs name which)

/-- `getQueryAttributes` for a relation with these columns. -/
def getQueryAttributes (attrs : List String) (relation : String) (d : QueryDescriptor) : List Nat :=
  (List.range attrs.length).filter (markAttributes attrs d.aliasMap relation d.allAttributes fun _ => false)

/-- `getQueryFilterAttributes`, which does not look at aliases. -/
def getQueryFilterAttributes (attrs : List String) (relation : String) (d : QueryDescriptor) : List Nat :=
  (List.range attrs.length).filter
    (d.filterList.foldl
      (fun which c =>
        if c.tableName.all (· = relation) then
          match c.columnName with
          | none => which
          | some name => markColumn attrs name which
        else which)
      fun _ => false)

/-- A collected reference names a column of a relation, either directly or as `*`. -/
def Names (aliasMap : List AliasMapEntry) (c : ColumnDescriptor) (relation column : String) : Prop :=
  mayReferTo aliasMap relation c = true ∧ (c.wholeRow = true ∨ c.columnName = some column)

variable {c : ColumnDescriptor} {relation name : String} {attrs : List String} {j : Nat} {d : QueryDescriptor}

/-- More aliases, more relations. -/
theorem mayReferTo_mono {aliases aliases' : List AliasMapEntry} (more : ∀ entry ∈ aliases, entry ∈ aliases')
    (may : mayReferTo aliases relation c = true) : mayReferTo aliases' relation c = true := by
  unfold mayReferTo at may ⊢
  cases table : c.tableName with
  | none => rfl
  | some t =>
    rw [table] at may
    simp only [Bool.or_eq_true] at may ⊢
    refine may.imp_right fun has => ?_
    obtain ⟨entry, mem, same⟩ := any_eq_true.1 has
    exact any_eq_true.2 ⟨entry, more entry mem, same⟩

/-- More aliases, more names. -/
theorem Names.mono {aliases aliases' : List AliasMapEntry} (more : ∀ entry ∈ aliases, entry ∈ aliases')
    {column : String} (names : Names aliases c relation column) : Names aliases' c relation column :=
  ⟨mayReferTo_mono more names.1, names.2⟩

theorem markColumn_iff (distinct : attrs.Nodup) {which : Nat → Bool} :
    markColumn attrs name which j = true ↔ which j = true ∨ attrs[j]? = some name := by
  rw [markColumn]
  cases found : (List.range attrs.length).find? fun j => attrs[j]? = some name && !which j with
  | some i =>
    have here := find?_some found
    simp only [Bool.and_eq_true, decide_eq_true_eq] at here
    by_cases same : j = i
    · subst same
      simp [here.1]
    · simp only
      rw [Function.update_of_ne same, iff_self_or]
      intro there
      -- Two columns with one name.
      obtain ⟨bound, _⟩ := List.getElem?_eq_some_iff.1 there
      exact absurd ((getElem?_inj bound distinct).1 (there.trans here.1.symm)) same
  | none =>
    simp only
    rw [iff_self_or]
    intro there
    obtain ⟨bound, _⟩ := List.getElem?_eq_some_iff.1 there
    have marked := find?_eq_none.1 found j (mem_range.2 bound)
    simpa [there] using marked

theorem markAttributes_iff (distinct : attrs.Nodup) {aliasMap : List AliasMapEntry} {cs : List ColumnDescriptor}
    {which : Nat → Bool} (column : attrs[j]? = some name) : markAttributes attrs aliasMap relation cs which j = true ↔
      which j = true ∨ ∃ c ∈ cs, Names aliasMap c relation name := by
  induction cs generalizing which with
  | nil => simp [markAttributes]
  | cons c cs ih =>
    rw [exists_mem_cons_iff, markAttributes]
    cases may : mayReferTo aliasMap relation c with
    | false =>
      rw [if_pos rfl, ih]
      simp [Names, may]
    | true =>
      rw [if_neg (by decide)]
      cases whole : c.wholeRow with
      | true => simp [Names, may, whole]
      | false =>
        rw [if_neg (by decide)]
        cases named : c.columnName with
        | none =>
          simp only
          rw [ih]
          simp [Names, whole, named]
        | some other =>
          simp only
          rw [ih, markColumn_iff distinct, column, or_assoc, eq_comm (a := some name)]
          simp [Names, may, whole, named]

/-- **The columns that `getQueryAttributes` finds** are those that a collected reference names. -/
theorem mem_getQueryAttributes (distinct : attrs.Nodup) (column : attrs[j]? = some name) :
    j ∈ getQueryAttributes attrs relation d ↔ ∃ c ∈ d.allAttributes, Names d.aliasMap c relation name := by
  obtain ⟨bound, _⟩ := List.getElem?_eq_some_iff.1 column
  rw [getQueryAttributes, mem_filter, mem_range, markAttributes_iff distinct column]
  simp [bound]

/-! ### Filling the descriptor -/

@[simp]
theorem initializeIfNeeded_aliasMap (d : QueryDescriptor) : d.initializeIfNeeded.aliasMap = d.aliasMap := by
  unfold initializeIfNeeded
  split <;> rfl

@[simp]
theorem initializeIfNeeded_allAttributes (d : QueryDescriptor) :
    d.initializeIfNeeded.allAttributes = d.allAttributes := by
  unfold initializeIfNeeded
  split <;> rfl

@[simp]
theorem addToClause_aliasMap (c : ColumnDescriptor) (d : QueryDescriptor) :
    (addToClause c d).aliasMap = d.aliasMap := by
  unfold addToClause
  split <;> rfl

@[simp]
theorem addToClause_allAttributes (c : ColumnDescriptor) (d : QueryDescriptor) :
    (addToClause c d).allAttributes = d.allAttributes := by
  unfold addToClause
  split <;> rfl

@[simp]
theorem addToAllAttributes_aliasMap (c : ColumnDescriptor) (d : QueryDescriptor) :
    (addToAllAttributes c d).aliasMap = d.aliasMap := by
  unfold addToAllAttributes
  split <;> rfl

theorem mem_addToAllAttributes {c' : ColumnDescriptor} :
    c' ∈ (addToAllAttributes c d).allAttributes ↔ c' ∈ d.allAttributes ∨ c' = c := by
  unfold addToAllAttributes
  split
  · next known =>
    rw [iff_self_or]
    rintro rfl
    exact known
  · simp

@[simp]
theorem addColumnInformation_aliasMap (c : ColumnDescriptor) (d : QueryDescriptor) :
    (addColumnInformation c d).aliasMap = d.aliasMap := by
  simp [addColumnInformation]

@[simp]
theorem addTableAliasInformation_aliasMap (entry : AliasMapEntry) (d : QueryDescriptor) :
    (addTableAliasInformation entry d).aliasMap = addAlias d.aliasMap entry := by
  simp [addTableAliasInformation]

theorem mem_addColumnInformation {c' : ColumnDescriptor} :
    c' ∈ (addColumnInformation c d).allAttributes ↔ c' ∈ d.allAttributes ∨ c' = c := by
  simp [addColumnInformation, mem_addToAllAttributes]

theorem foldl_addColumnInformation (columns : List ColumnDescriptor) (d : QueryDescriptor) :
    (columns.foldl (fun d c => addColumnInformation c d) d).aliasMap = d.aliasMap ∧
      ∀ c, c ∈ (columns.foldl (fun d c => addColumnInformation c d) d).allAttributes ↔
        c ∈ d.allAttributes ∨ c ∈ columns := by
  induction columns generalizing d with
  | nil => exact ⟨rfl, by simp⟩
  | cons c columns ih =>
    obtain ⟨aliasMap, attributes⟩ := ih (addColumnInformation c d)
    refine ⟨aliasMap.trans (addColumnInformation_aliasMap c d), fun c' => ?_⟩
    rw [foldl_cons, attributes, mem_addColumnInformation, mem_cons, or_assoc]

/-- Deparsing a qual adds its columns. -/
theorem visitQual_spec (columns : List ColumnDescriptor) (d : QueryDescriptor) :
    (visitQual columns d).aliasMap = d.aliasMap ∧
      ∀ c, c ∈ (visitQual columns d).allAttributes ↔ c ∈ d.allAttributes ∨ c ∈ columns :=
  foldl_addColumnInformation columns (changeParseStatus .filterList d)

/-- A reference that is added to a descriptor in use leaves the limit. -/
theorem addColumnInformation_limit (c : ColumnDescriptor) (initialized : d.isInitialized = true) :
    (addColumnInformation c d).limit = d.limit ∧ (addColumnInformation c d).isInitialized = true := by
  unfold addColumnInformation addToAllAttributes addToClause initializeIfNeeded
  rw [if_pos initialized]
  split
  · split <;> exact ⟨rfl, initialized⟩
  · split <;> exact ⟨rfl, initialized⟩

/-- Deparsing a qual leaves the limit. -/
theorem visitQual_limit (columns : List ColumnDescriptor) (initialized : d.isInitialized = true) :
    (visitQual columns d).limit = d.limit := by
  change (columns.foldl _ (changeParseStatus .filterList d)).limit = (changeParseStatus .filterList d).limit
  have initialized : (changeParseStatus .filterList d).isInitialized = true := initialized
  generalize changeParseStatus .filterList d = d at initialized
  induction columns generalizing d with
  | nil => rfl
  | cons c columns ih =>
    obtain ⟨limit, initialized⟩ := addColumnInformation_limit c initialized
    exact (ih _ initialized).trans limit

end QueryDescriptor

end PostgresRaw
