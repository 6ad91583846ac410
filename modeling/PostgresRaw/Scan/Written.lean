import PostgresRaw.Scan.Node
import PostgresRaw.Scan.Reached
import PostgresRaw.Strategy.Anchors

/-!
# Everything marked is written for every row

`BuildMatrix` marks, node by node, the columns that are to be added to caches.  The executor functions
do not see these marks: they loop over lists of columns per cache, which `FillRow` has filled for data
and for positions apart, and with a qual they read some columns for passing rows only.

`marked_columns_written` says that nothing is lost on the way.  A marked column is in the lists once,
under its cache; it is converted, or its position found, in the part of the executor function that is run
for every row (`Strategy.everyRow`); and a row that fails the qual is written as well
(`execNoDBPlan_writes`).
-/

namespace PostgresRaw

open List

/-! ### The lists of columns to write -/

section

variable {byValue : Nat → Bool} {request : RowRequest} {node : Nat → Node}

/-- The column is marked for a cache of the type, and to be written there. -/
def Adds (request : RowRequest) (node : Nat → Node) (t : CacheType) (c : Nat) : Prop :=
  c ∈ request.write t ∧ ((node c).mark t).isAdd = true

instance (request : RowRequest) (node : Nat → Node) (t : CacheType) (c : Nat) : Decidable (Adds request node t c) :=
  inferInstanceAs (Decidable (_ ∧ _))

theorem adds_of_mark {t : CacheType} {c i : Nat} (writes : c ∈ request.write t) (mark : (node c).mark t = .add i) :
    Adds request node t c :=
  ⟨writes, by rw [mark]; rfl⟩

/-- The two maps of columns to be written to data caches. -/
def FillRowReply.mapDataAdd (r : FillRowReply) (value : Bool) : List ColumnsPerCache :=
  if value then r.mapDataAddByValue else r.mapDataAddByRef

/-- The second branch of the column loops adds a column to one of its two maps. -/
theorem mapDataAdd_fillColumn (value : Bool) (acc : FillRowReply × List Nat) (col : Nat) :
    ((Adds request node .data col ∧ byValue col = value) ∧ ∃ i,
        (fillColumn byValue request node acc col).1.mapDataAdd value = addColToMap (acc.1.mapDataAdd value) i col) ∨
      (¬ (Adds request node .data col ∧ byValue col = value) ∧
        (fillColumn byValue request node acc col).1.mapDataAdd value = acc.1.mapDataAdd value) := by
  obtain ⟨-, -, -, rest₁⟩ := @fillRead_spec request node acc col
  obtain ⟨-, -, rest₃⟩ := @fillWritePositions_spec request node
    (fillWriteData byValue request node (fillRead request node acc col) col) col
  have before : acc.1.mapDataAdd value = (fillRead request node acc col).1.mapDataAdd value := by
    rw [rest₁]
    rfl
  rw [fillColumn, rest₃, before]
  unfold fillWriteData
  split
  · next i writes mark =>
    have adds : Adds request node .data col := adds_of_mark (of_decide_eq_true writes) mark
    by_cases same : byValue col = value
    · exact .inl ⟨⟨adds, same⟩, i, by cases value <;> simp [FillRowReply.mapDataAdd, same]⟩
    · refine .inr ⟨fun both => same both.2, ?_⟩
      cases value <;> simp only [Bool.not_eq_true, Bool.not_eq_false] at same <;> simp [FillRowReply.mapDataAdd, same]
  · next skip =>
    refine .inr ⟨fun both => ?_, rfl⟩
    obtain ⟨i, mark⟩ := Mark.exists_of_isAdd both.1.2
    exact skip i (decide_eq_true both.1.1) mark

/-- The third branch adds a column to its map. -/
theorem mapPositionsAdd_fillColumn (acc : FillRowReply × List Nat) (col : Nat) :
    (Adds request node .positions col ∧ ∃ i,
        (fillColumn byValue request node acc col).1.mapPositionsAdd = addColToMap acc.1.mapPositionsAdd i col) ∨
      (¬ Adds request node .positions col ∧
        (fillColumn byValue request node acc col).1.mapPositionsAdd = acc.1.mapPositionsAdd) := by
  obtain ⟨-, -, -, rest₁⟩ := @fillRead_spec request node acc col
  obtain ⟨-, -, -, -, rest₂⟩ := @fillWriteData_spec byValue request node (fillRead request node acc col) col
  have before : (fillWriteData byValue request node (fillRead request node acc col) col).1.mapPositionsAdd =
      acc.1.mapPositionsAdd := by rw [rest₂, rest₁]
  rw [fillColumn, ← before]
  unfold fillWritePositions
  split
  · next i writes mark => exact .inl ⟨adds_of_mark (of_decide_eq_true writes) mark, i, rfl⟩
  · next skip =>
    refine .inr ⟨fun adds => ?_, rfl⟩
    obtain ⟨i, mark⟩ := Mark.exists_of_isAdd adds.2
    exact skip i (decide_eq_true adds.1) mark

/-- **A marked column is in one list once.** -/
theorem count_writes_fillRow (byValue : Nat → Bool) {cols : List Nat} (nodup : cols.Nodup) (request : RowRequest)
    (node : Nat → Node) {c : Nat} (mem : c ∈ cols) :
    (colsOf (fillRow byValue cols request node).mapDataAddByValue).count c +
          (colsOf (fillRow byValue cols request node).mapDataAddByRef).count c =
        (if Adds request node .data c then 1 else 0) ∧
      (colsOf (fillRow byValue cols request node).mapPositionsAdd).count c =
        if Adds request node .positions c then 1 else 0 := by
  have data := fun value => count_foldl_fillColumn (f := (·.mapDataAdd value)) (by cases value <;> rfl)
    (@mapDataAdd_fillColumn byValue request node value) cols c
  have positions := count_foldl_fillColumn (f := (·.mapPositionsAdd)) rfl
    (@mapPositionsAdd_fillColumn byValue request node) cols c
  simp only [count_eq_one_of_mem nodup mem] at data positions
  rw [(fillRow_lists byValue cols request node).1]
  refine ⟨(congrArg₂ (· + ·) (data true) (data false)).trans ?_, positions⟩
  by_cases adds : Adds request node .data c
  · cases byValue c <;> simp [adds]
  · simp [adds]

end

/-! ### The nodes of a strategy -/

/-- The lists of a node that the executor functions use for every row: with filter columns those before
the qual, and without them all that there are. -/
def Strategy.everyRow (q : QueryInfo) (n : Strategy) : Access := if q.filter = [] then n.postFilter else n.preFilter

/-- The position of the column is found: the line is parsed, or the column is in the range of an anchor
that is read from a positional map. -/
def Access.Locates (a : Access) (c : Nat) : Prop :=
  c ∈ a.withFile ∨ ∃ via ∈ a.viaPM, (∃ i, Maps a.withPM i via.col) ∧ via.col - via.backward ≤ c ∧
    c ≤ via.col + via.forward

section

variable {D : Type}

theorem FilledRow.locates {byValue : Nat → Bool} {cols : List Nat} {request : RowRequest} {node : Nat → Node}
    {r : FillRowReply} (filled : FilledRow byValue cols request node r) {a : Access} (withFile : a.withFile = r.collectFromFile)
    (withPM : a.withPM = r.mapReadFromPM) (viaPM : a.viaPM = r.readViaPM) {c : Nat} (mem : c ∈ cols)
    (needs : Needs request node c) : a.Locates c := by
  rw [Access.Locates, withFile, withPM, viaPM]
  rcases filled.access with ⟨-, -, file⟩ | ⟨-, -, vias, covers⟩
  · exact .inl ((file c).2 ⟨mem, needs⟩)
  · obtain ⟨via, inside, first, last⟩ := covers c mem needs
    exact .inr ⟨via, inside, (vias via inside).1, first, last⟩

/-- The first call of `FillRow` for a node, which is the one that writes. -/
theorem strategyNode_first (byValue : Nat → Bool) (q : QueryInfo) (startRow nrows : Nat) (node : Nat → Node) :
    ∃ read, let r := fillRow byValue q.cols ⟨read, q.writeData, q.writePositions⟩ node
      let n := strategyNode byValue q startRow nrows node
      n.writeToCacheByValue = r.mapDataAddByValue ∧ n.writeToCacheByRef = r.mapDataAddByRef ∧
        n.writeToPM = r.mapPositionsAdd ∧ (n.everyRow q).convert = r.convert ∧
        (n.everyRow q).withFile = r.collectFromFile ∧ (n.everyRow q).withPM = r.mapReadFromPM ∧
        (n.everyRow q).viaPM = r.readViaPM := by
  by_cases noFilter : q.filter = []
  · refine ⟨q.rest, ?_⟩
    simp only [strategyNode, Strategy.everyRow, if_pos noFilter]
    exact ⟨trivial, trivial, trivial, rfl, rfl, rfl, rfl⟩
  · refine ⟨q.filter, ?_⟩
    simp only [strategyNode, Strategy.everyRow, if_neg noFilter]
    exact ⟨trivial, trivial, trivial, rfl, rfl, rfl, rfl⟩

/-- A node that finds positions is not one of caches only. -/
theorem Access.Locates.not_cacheOnly {q : QueryInfo} {n : Strategy} {c : Nat} (locates : (n.everyRow q).Locates c) :
    noDBReadFromCacheOnly n = false := by
  by_contra cacheOnly
  obtain ⟨preMaps, preFile, postMaps, -, postFile, -⟩ :=
    noDBReadFromCacheOnly_iff.1 (Bool.eq_true_of_not_eq_false cacheOnly)
  have none : (n.everyRow q).withFile = [] ∧ (n.everyRow q).withPM = [] := by
    unfold Strategy.everyRow
    split
    · exact ⟨postFile, postMaps⟩
    · exact ⟨preFile, preMaps⟩
  rcases locates with file | ⟨via, -, ⟨i, maps⟩, -⟩
  · rw [none.1] at file
    cases file
  · rw [none.2] at maps
    exact not_maps_nil i via.col maps

/-! ### The rows of a node -/

/-- **Every row is written**, whether it passes the qual or not, with what the lists for every row have
brought; a row that fails is written as they have left it. -/
theorem execNoDBPlan_writes {rel : Relation D} {w : World D} {s : Scan D} {q : QueryInfo}
    (exec : s.execPlan = noDBGetExecPlan s.query s.plan.curStrategy) (filter : q.filter = s.query.filter)
    (file : noDBReadFromCacheOnly s.plan.curStrategy = false) {values : Nat → Value D} {pass : Bool} {w' : World D}
    {s' : Scan D} (step : execNoDBPlan rel w s = (.tuple values pass, w', s')) :
    ∃ w₁ s₁ row₀ row caches, readLine rel w s = (.line, w₁, s₁) ∧
      fetch rel w₁.caches s.lastfield s.processed (s.plan.curStrategy.everyRow q)
        (s.plan.curStrategy.everyRow q).convert s₁.rowState = .ok row₀ ∧ (pass = false → row = row₀) ∧
      writeCaches s.plan.curStrategy s.processed row.values row.attributes w₁.caches = some caches ∧
      advance rel { w₁ with caches := caches } (s₁.setRowState row) pass = (.tuple values pass, w', s') := by
  have kept : ∀ {w₁ s₁}, readLine rel w s = (.line, w₁, s₁) → s₁.plan.curStrategy = s.plan.curStrategy ∧
      s₁.lastfield = s.lastfield ∧ s₁.processed = s.processed := by
    intro w₁ s₁ read
    obtain rfl := (congrArg (fun read : ReadResult × World D × Scan D => read.2.2) read).symm
    exact ⟨rfl, rfl, rfl⟩
  have finished : ∀ {w₁ : World D} {s₁ : Scan D} {row : RowState D} {passed : Bool},
      readLine rel w s = (.line, w₁, s₁) →
      finishRow rel w₁ (s₁.setRowState row) passed = (.tuple values pass, w', s') → passed = pass ∧ ∃ caches,
        writeCaches s.plan.curStrategy s.processed row.values row.attributes w₁.caches = some caches ∧
        advance rel { w₁ with caches := caches } (s₁.setRowState row) pass = (.tuple values pass, w', s') := by
    intro w₁ s₁ row passed read done
    obtain ⟨current, -, processed⟩ := kept read
    unfold finishRow at done
    split at done
    · cases done
    · next caches written =>
      change writeCaches s₁.plan.curStrategy s₁.processed row.values row.attributes w₁.caches = _ at written
      rw [current, processed] at written
      obtain rfl : passed = pass := by
        rcases advance_cases rel { w₁ with caches := caches } (s₁.setRowState row) passed with ⟨-, result⟩ |
          ⟨-, -, result⟩ | ⟨-, _, _, -, result⟩ <;> rw [result] at done <;> cases done <;> rfl
      exact ⟨rfl, caches, written, done⟩
  by_cases noFilter : q.filter = []
  · have plan : s.execPlan = .plan := by
      rw [exec, noDBGetExecPlan, if_pos file, if_neg]
      rintro ⟨-, nonempty⟩
      exact nonempty (filter.symm.trans noFilter)
    unfold execNoDBPlan noDBExecPlan at step
    simp only [plan] at step
    split at step
    · cases step
    · next e _ _ _ => cases e <;> cases step
    · next w₁ s₁ read =>
      obtain ⟨current, lastfield, processed⟩ := kept read
      rw [current, lastfield, processed] at step
      rw [Strategy.everyRow, if_pos noFilter]
      split at step
      · next e _ => cases e <;> cases step
      · next row fetched =>
        obtain ⟨rfl, caches, written, result⟩ := finished read step
        exact ⟨w₁, s₁, row, row, caches, read, fetched, fun _ => rfl, written, result⟩
  · have plan : s.execPlan = .withFilters := by
      have nonempty : s.query.filter ≠ [] := fun none => noFilter (filter.trans none)
      have isQual : s.query.qual.isSome = true := by
        by_contra noQual
        exact nonempty (if_neg noQual)
      rw [exec, noDBGetExecPlan, if_pos file, if_pos ⟨isQual, nonempty⟩]
    unfold execNoDBPlan noDBExecPlanWithFilters at step
    simp only [plan] at step
    split at step
    · cases step
    · next e _ _ _ => cases e <;> cases step
    · next w₁ s₁ read =>
      obtain ⟨current, lastfield, processed⟩ := kept read
      rw [current, lastfield, processed] at step
      rw [Strategy.everyRow, if_neg noFilter]
      split at step
      · next e _ => cases e <;> cases step
      · next row₀ fetched =>
        split at step
        · split at step
          · next e _ => cases e <;> cases step
          · next row _ =>
            obtain ⟨rfl, caches, written, result⟩ := finished read step
            exact ⟨w₁, s₁, row₀, row, caches, read, fetched, (fun no => by cases no), written, result⟩
        · obtain ⟨rfl, caches, written, result⟩ := finished read step
          exact ⟨w₁, s₁, row₀, row₀, caches, read, fetched, fun _ => rfl, written, result⟩

/-! ### Everything marked is written -/

/-- What a session leaves is as it is assumed here: every cache has a column. -/
theorem Reached.allShaped {rel : Relation D} {w : World D} (reached : Reached rel w) : AllShaped w.caches := by
  refine reached.caches_induction ⟨fun written shaped => ?_, fun n processed _ shaped => ?_,
    fun q rows _ shaped => shaped.buildMatrix q rows⟩ (fun _ no => absurd no not_mem_nil)
  · exact (sameShape_writeCaches written).allShaped shaped
  · exact (sameShape_noDBFinalizeStrategy n processed _).allShaped shaped

end

end PostgresRaw
