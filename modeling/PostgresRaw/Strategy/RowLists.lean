import PostgresRaw.Strategy.Build
import PostgresRaw.Strategy.Nodes

/-!
# The lists of a strategy node

What `FillRow` puts into its lists, in terms of the marks of the matrix: `fillRow_spec`.  The
columns whose position is needed are either left to the parser, or each of them lies within the
range of a navigation from an anchor that is read from a positional map.
-/

namespace PostgresRaw

open List

/-- The map sends the cache to the column. -/
def Maps (map : List ColumnsPerCache) (i c : Nat) : Prop :=
  ∃ entry ∈ map, entry.cache = i ∧ c ∈ entry.cols

@[simp] theorem not_maps_nil (i c : Nat) : ¬ Maps [] i c := by
  simp [Maps]

variable {c : Nat} {l : List Nat}

@[simp, grind =] theorem maps_addColToMap {map : List ColumnsPerCache} {j d i : Nat} :
    Maps (addColToMap map j d) i c ↔ Maps map i c ∨ i = j ∧ c = d := by
  induction map with
  | nil =>
    simp only [addColToMap, Maps, mem_singleton, exists_eq_left, not_mem_nil, false_and, exists_false, false_or]
    exact and_congr_left' eq_comm
  | cons entry map ih =>
    rw [addColToMap]
    by_cases same : entry.cache = j
    · subst same
      simp only [if_true, Maps, mem_cons, exists_eq_or_imp]
      constructor
      · rintro (⟨rfl, rfl | mem⟩ | later)
        · exact .inr ⟨rfl, rfl⟩
        · exact .inl (.inl ⟨rfl, mem⟩)
        · exact .inl (.inr later)
      · rintro ((⟨rfl, mem⟩ | later) | ⟨rfl, rfl⟩)
        · exact .inl ⟨rfl, .inr mem⟩
        · exact .inr later
        · exact .inl ⟨rfl, .inl rfl⟩
    · simp only [if_neg same]
      have split : ∀ map, Maps (entry :: map) i c ↔ (entry.cache = i ∧ c ∈ entry.cols) ∨ Maps map i c := by
        intro map
        simp [Maps]
      rw [split, split, ih, or_assoc]

/-- No entry of the map is without columns. -/
def Occupied (map : List ColumnsPerCache) : Prop := ∀ entry ∈ map, entry.cols ≠ []

theorem occupied_nil : Occupied [] := by
  simp [Occupied]

theorem Occupied.addColToMap {map : List ColumnsPerCache} (occupied : Occupied map) (i c : Nat) :
    Occupied (addColToMap map i c) := by
  induction map with
  | nil => simp [Occupied, PostgresRaw.addColToMap]
  | cons entry map ih =>
    have tail : Occupied map := fun other mem => occupied other (mem_cons_of_mem _ mem)
    rw [PostgresRaw.addColToMap]
    split
    · intro other mem
      rcases mem_cons.1 mem with rfl | later
      · simp
      · exact tail other later
    · intro other mem
      rcases mem_cons.1 mem with rfl | later
      · exact occupied other (by simp)
      · exact ih tail other later

theorem nodup_addUnique (nodup : l.Nodup) (c : Nat) : (addUnique l c).Nodup := by
  unfold addUnique
  split
  · exact nodup
  · next new => exact nodup_cons.2 ⟨new, nodup⟩

/-- The column is converted in the node. -/
def Converts (request : RowRequest) (node : Nat → Node) (c : Nat) : Prop :=
  (c ∈ request.read ∧ ∀ i, (node c).mark .data ≠ .hit i) ∨
    (c ∈ request.writeData ∧ ∃ i, (node c).mark .data = .add i)

/-- The position of the column is needed in the node. -/
def Needs (request : RowRequest) (node : Nat → Node) (c : Nat) : Prop :=
  Converts request node c ∨ (c ∈ request.writePositions ∧ ∃ i, (node c).mark .positions = .add i)

/-- The lists of `FillRow` after the column loops have handled the columns `done`. -/
structure Filled (byValue : Nat → Bool) (request : RowRequest) (node : Nat → Node) (done : Nat → Prop)
    (acc : FillRowReply × List Nat) : Prop where
  hit : ∀ {i c}, Maps acc.1.mapDataHit i c ↔
    done c ∧ c ∈ request.read ∧ (node c).mark .data = .hit i
  convert : ∀ {c}, c ∈ acc.1.convert ↔ done c ∧ Converts request node c
  addByValue : ∀ {i c}, Maps acc.1.mapDataAddByValue i c ↔
    done c ∧ c ∈ request.writeData ∧ (node c).mark .data = .add i ∧ byValue c = true
  addByRef : ∀ {i c}, Maps acc.1.mapDataAddByRef i c ↔
    done c ∧ c ∈ request.writeData ∧ (node c).mark .data = .add i ∧ byValue c = false
  addPositions : ∀ {i c}, Maps acc.1.mapPositionsAdd i c ↔
    done c ∧ c ∈ request.writePositions ∧ (node c).mark .positions = .add i
  collect : ∀ {c}, c ∈ acc.2 ↔ done c ∧ Needs request node c
  others : acc.1.collectFromFile = [] ∧ acc.1.mapReadFromPM = [] ∧ acc.1.readViaPM = []

section

variable {byValue : Nat → Bool} {request : RowRequest} {node : Nat → Node}
  {acc : FillRowReply × List Nat} {col : Nat}

theorem fillRead_spec :
    let acc' := fillRead request node acc col
    (∀ {i c}, Maps acc'.1.mapDataHit i c ↔ Maps acc.1.mapDataHit i c ∨
        c = col ∧ c ∈ request.read ∧ (node c).mark .data = .hit i) ∧
      (∀ {c}, c ∈ acc'.1.convert ↔ c ∈ acc.1.convert ∨
        c = col ∧ c ∈ request.read ∧ ∀ i, (node c).mark .data ≠ .hit i) ∧
      (∀ {c}, c ∈ acc'.2 ↔ c ∈ acc.2 ∨
        c = col ∧ c ∈ request.read ∧ ∀ i, (node c).mark .data ≠ .hit i) ∧
      acc'.1 = { acc.1 with mapDataHit := acc'.1.mapDataHit, convert := acc'.1.convert } := by
  unfold fillRead
  by_cases reads : col ∈ request.read
  · simp only [reads, if_true]
    cases mark : (node col).mark .data with
    | hit j => refine ⟨fun {i c} => ?_, fun {c} => ?_, fun {c} => ?_, rfl⟩ <;> grind
    | _ => refine ⟨fun {i c} => ?_, fun {c} => ?_, fun {c} => ?_, rfl⟩ <;> grind
  · rw [if_neg reads]
    refine ⟨fun {i c} => ?_, fun {c} => ?_, fun {c} => ?_, rfl⟩ <;> grind

theorem fillWriteData_spec :
    let acc' := fillWriteData byValue request node acc col
    (∀ {i c}, Maps acc'.1.mapDataAddByValue i c ↔ Maps acc.1.mapDataAddByValue i c ∨
        c = col ∧ c ∈ request.writeData ∧ (node c).mark .data = .add i ∧ byValue c = true) ∧
      (∀ {i c}, Maps acc'.1.mapDataAddByRef i c ↔ Maps acc.1.mapDataAddByRef i c ∨
        c = col ∧ c ∈ request.writeData ∧ (node c).mark .data = .add i ∧ byValue c = false) ∧
      (∀ {c}, c ∈ acc'.1.convert ↔ c ∈ acc.1.convert ∨
        c = col ∧ c ∈ request.writeData ∧ ∃ i, (node c).mark .data = .add i) ∧
      (∀ {c}, c ∈ acc'.2 ↔ c ∈ acc.2 ∨
        c = col ∧ c ∈ request.writeData ∧ ∃ i, (node c).mark .data = .add i) ∧
      acc'.1 = { acc.1 with
        mapDataAddByValue := acc'.1.mapDataAddByValue
        mapDataAddByRef := acc'.1.mapDataAddByRef
        convert := acc'.1.convert } := by
  unfold fillWriteData
  split
  · next j writes mark =>
    simp only
    split
    · refine ⟨fun {i c} => ?_, fun {i c} => ?_, fun {c} => ?_, fun {c} => ?_, rfl⟩ <;> grind
    · refine ⟨fun {i c} => ?_, fun {i c} => ?_, fun {c} => ?_, fun {c} => ?_, rfl⟩ <;> grind
  · refine ⟨fun {i c} => ?_, fun {i c} => ?_, fun {c} => ?_, fun {c} => ?_, rfl⟩ <;> grind

theorem fillWritePositions_spec :
    let acc' := fillWritePositions request node acc col
    (∀ {i c}, Maps acc'.1.mapPositionsAdd i c ↔ Maps acc.1.mapPositionsAdd i c ∨
        c = col ∧ c ∈ request.writePositions ∧ (node c).mark .positions = .add i) ∧
      (∀ {c}, c ∈ acc'.2 ↔ c ∈ acc.2 ∨
        c = col ∧ c ∈ request.writePositions ∧ ∃ i, (node c).mark .positions = .add i) ∧
      acc'.1 = { acc.1 with mapPositionsAdd := acc'.1.mapPositionsAdd } := by
  unfold fillWritePositions
  split
  · refine ⟨fun {i c} => ?_, fun {c} => ?_, rfl⟩ <;> grind
  · refine ⟨fun {i c} => ?_, fun {c} => ?_, rfl⟩ <;> grind

/-- One iteration of the column loops. -/
theorem Filled.fillColumn {done : Nat → Prop} (filled : Filled byValue request node done acc) :
    Filled byValue request node (fun c => done c ∨ c = col) (fillColumn byValue request node acc col) := by
  obtain ⟨hit, convert₁, collect₁, rest₁⟩ := @fillRead_spec request node acc col
  obtain ⟨addByValue, addByRef, convert₂, collect₂, rest₂⟩ := @fillWriteData_spec byValue request node
    (fillRead request node acc col) col
  obtain ⟨addPositions, collect₃, rest₃⟩ := @fillWritePositions_spec request node
    (fillWriteData byValue request node (fillRead request node acc col) col) col
  have split : ∀ {c} {P : Prop}, (done c ∨ c = col) ∧ P ↔ done c ∧ P ∨ c = col ∧ P := or_and_right
  unfold PostgresRaw.fillColumn
  refine ⟨fun {i c} => ?_, fun {c} => ?_, fun {i c} => ?_, fun {i c} => ?_, fun {i c} => ?_, fun {c} => ?_, ?_⟩
  · rw [rest₃, rest₂, hit, filled.hit, split]
  · rw [rest₃, convert₂, convert₁, filled.convert, Converts, or_assoc, ← and_or_left, split]
  · rw [rest₃, addByValue, rest₁, filled.addByValue, split]
  · rw [rest₃, addByRef, rest₁, filled.addByRef, split]
  · rw [addPositions, rest₂, rest₁, filled.addPositions, split]
  · rw [collect₃, collect₂, collect₁, filled.collect, Needs, Converts, or_assoc, or_assoc, ← and_or_left,
      ← and_or_left, split, or_assoc]
  · rw [rest₃, rest₂, rest₁]
    exact filled.others

theorem foldl_fillColumn (byValue : Nat → Bool) (request : RowRequest) (node : Nat → Node) (cols : List Nat) :
    Filled byValue request node (· ∈ cols) (cols.foldl (fillColumn byValue request node) ({}, [])) := by
  refine Lists.foldl_invariant (fun done acc => Filled byValue request node (· ∈ done) acc) ?_
    fun {done col acc} _ filled => ?_
  · refine ⟨?_, ?_, ?_, ?_, ?_, ?_, rfl, rfl, rfl⟩ <;> simp
  · have mem : (fun c => c ∈ done ++ [col]) = fun c => c ∈ done ∨ c = col := by
      funext c
      simp
    rw [mem]
    exact filled.fillColumn

/-! ### Anchors -/

/-- The ranges around the anchors after the columns `done` have been looked at: they contain
these columns, and reach no further than the farthest of them. -/
structure Widened (node : Nat → Node) (done : List Nat) (distances : Nat → ColDistance) : Prop where
  forward : ∀ x, (distances x).forward = 0 ∨ x + (distances x).forward ∈ done
  backward : ∀ x, (distances x).backward ≤ x
  unset : ∀ x, (distances x).cache = none → (distances x).forward = 0 ∧ (distances x).backward = 0
  cache : ∀ {x i}, (distances x).cache = some i → ∃ c ∈ done, ∃ b,
    (node c).closest = some b ∧ b.column = x ∧ b.cache = i
  covers : ∀ c ∈ done, ∀ b, (node c).closest = some b → (distances b.column).cache ≠ none ∧
    b.column - (distances b.column).backward ≤ c ∧ c ≤ b.column + (distances b.column).forward

/-- Where the closest column is, if the columns are `cols`. -/
def Measured (node : Nat → Node) (cols : List Nat) : Prop :=
  ∀ c ∈ cols, ∀ b, (node c).closest = some b → b.distance = (c : Int) - b.column

/-- Step 1 of `FillRow` on the range of one anchor: it then contains the column as well. -/
private theorem widen_range {old d : ColDistance} {b : Closest} {col : Nat}
    (distance : b.distance = (col : Int) - b.column) (backward : old.backward ≤ b.column)
    (unset : old.cache = none → old.forward = 0 ∧ old.backward = 0)
    (range : (if 0 ≤ b.distance then
        if old.cache = none ∨ old.forward < b.distance.toNat then
          { old with cache := some b.cache, forward := b.distance.toNat }
        else old
      else if old.backward < b.distance.natAbs then
        { old with cache := some b.cache, backward := b.distance.natAbs }
      else old) = d) :
    old.forward ≤ d.forward ∧ old.backward ≤ d.backward ∧ d.backward ≤ b.column ∧
      (d.forward = old.forward ∨ b.column + d.forward = col) ∧
      b.column - d.backward ≤ col ∧ col ≤ b.column + d.forward ∧
      (d.cache = some b.cache ∨ d.cache = old.cache ∧ old.cache ≠ none) := by
  by_cases right : 0 ≤ b.distance
  · rw [if_pos right] at range
    by_cases further : old.cache = none ∨ old.forward < b.distance.toNat
    · rw [if_pos further] at range
      subst range
      have : old.forward ≤ b.distance.toNat := by
        rcases further with none | less
        · have := (unset none).1
          omega
        · omega
      exact ⟨this, le_rfl, backward, .inr (by simp only; omega), by simp only; omega,
        by simp only; omega, .inl rfl⟩
    · rw [if_neg further] at range
      subst range
      rw [not_or] at further
      exact ⟨le_rfl, le_rfl, backward, .inl rfl, by omega, by omega, .inr ⟨rfl, further.1⟩⟩
  · rw [if_neg right] at range
    by_cases further : old.backward < b.distance.natAbs
    · rw [if_pos further] at range
      subst range
      exact ⟨le_rfl, by simp only; omega, by simp only; omega, .inl rfl, by simp only; omega,
        by simp only; omega, .inl rfl⟩
    · rw [if_neg further] at range
      subst range
      have set : old.cache ≠ none := fun none => by
        have := (unset none).2
        omega
      exact ⟨le_rfl, le_rfl, backward, .inl rfl, by omega, by omega, .inr ⟨rfl, set⟩⟩

variable {cols : List Nat} {i c : Nat} {r : FillRowReply}

theorem Widened.widen {node : Nat → Node} {done : List Nat} {distances : Nat → ColDistance}
    (measured : Measured node cols) (widened : Widened node done distances) {col : Nat} (mem : col ∈ cols) :
    Widened node (done ++ [col]) (widen node distances col) := by
  have more : ∀ {c}, c ∈ done → c ∈ done ++ [col] := mem_append_left _
  have last : col ∈ done ++ [col] := mem_append_right _ (by simp)
  unfold PostgresRaw.widen
  cases closest : (node col).closest with
  | none =>
    refine ⟨fun x => (widened.forward x).imp_right more, widened.backward, widened.unset, fun cache => ?_, ?_⟩
    · obtain ⟨c, inside, rest⟩ := widened.cache cache
      exact ⟨c, more inside, rest⟩
    · intro c inside b found
      rcases mem_append.1 inside with old | new
      · exact widened.covers c old b found
      · obtain rfl : c = col := by simpa using new
        rw [closest] at found
        cases found
  | some b =>
    simp only
    generalize range : (if 0 ≤ b.distance then _ else _ : ColDistance) = d
    obtain ⟨forward, backward, bound, reach, left, right, cache⟩ := widen_range
      (measured col mem b closest) (widened.backward b.column) (widened.unset b.column) range
    have apart : ∀ {x}, x ≠ b.column → Function.update distances b.column d x = distances x :=
      fun other => Function.update_of_ne other _ _
    have here : Function.update distances b.column d b.column = d := Function.update_self ..
    have set : d.cache ≠ none := by
      rcases cache with some | ⟨same, set⟩
      · rw [some]; simp
      · rwa [same]
    refine ⟨fun x => ?_, fun x => ?_, fun x => ?_, fun {x i} => ?_, fun c inside b' found => ?_⟩
    · by_cases same : x = b.column
      · subst same
        rw [here]
        rcases reach with same | reach
        · rw [same]
          exact (widened.forward b.column).imp_right more
        · rw [reach]
          exact .inr last
      · rw [apart same]
        exact (widened.forward x).imp_right more
    · by_cases same : x = b.column
      · subst same
        rw [here]
        exact bound
      · rw [apart same]
        exact widened.backward x
    · by_cases same : x = b.column
      · subst same
        rw [here]
        exact fun none => absurd none set
      · rw [apart same]
        exact widened.unset x
    · by_cases same : x = b.column
      · subst same
        rw [here]
        intro isCache
        rcases cache with some | ⟨same, -⟩
        · exact ⟨col, last, b, closest, rfl, Option.some.inj (some.symm.trans isCache)⟩
        · obtain ⟨c, inside, rest⟩ := widened.cache (same.symm.trans isCache)
          exact ⟨c, more inside, rest⟩
      · rw [apart same]
        intro isCache
        obtain ⟨c, inside, rest⟩ := widened.cache isCache
        exact ⟨c, more inside, rest⟩
    · rcases mem_append.1 inside with old | new
      · obtain ⟨isSet, left', right'⟩ := widened.covers c old b' found
        by_cases same : b'.column = b.column
        · rw [same, here]
          rw [same] at left' right'
          exact ⟨set, by omega, by omega⟩
        · rw [apart same]
          exact ⟨isSet, left', right'⟩
      · obtain rfl : c = col := by simpa using new
        obtain rfl : b = b' := Option.some.inj (closest.symm.trans found)
        rw [here]
        exact ⟨set, left, right⟩

/-- Step 1 of `FillRow`. -/
theorem foldl_widen {node : Nat → Node} {cols : List Nat} (measured : Measured node cols) :
    Widened node cols (cols.foldl (PostgresRaw.widen node) fun _ => {}) := by
  refine Lists.foldl_invariant (Widened node) ?_ fun mem widened => widened.widen measured mem
  exact ⟨fun _ => .inl rfl, fun _ => Nat.zero_le _, fun _ _ => ⟨rfl, rfl⟩, nofun, by simp⟩

/-- The anchors of the columns `done` are read, each with its range. -/
structure Anchored (node : Nat → Node) (distances : Nat → ColDistance) (done : List Nat)
    (r : FillRowReply) : Prop where
  maps : ∀ {i x}, Maps r.mapReadFromPM i x → (distances x).cache = some i ∧
    ⟨x, (distances x).forward, (distances x).backward⟩ ∈ r.readViaPM
  vias : ∀ via ∈ r.readViaPM, (∃ i, Maps r.mapReadFromPM i via.col) ∧
    via = ⟨via.col, (distances via.col).forward, (distances via.col).backward⟩
  covers : ∀ c ∈ done, ∀ b, (node c).closest = some b → (distances b.column).cache ≠ none →
    ⟨b.column, (distances b.column).forward, (distances b.column).backward⟩ ∈ r.readViaPM

theorem maps_of_addUniqueColToMap_true {map map' : List ColumnsPerCache} {i x : Nat}
    (result : addUniqueColToMap map i x = (true, map')) {j y : Nat} : Maps map' j y ↔ Maps map j y ∨ j = i ∧ y = x := by
  unfold addUniqueColToMap at result
  split at result
  · cases result
  · cases result
    exact maps_addColToMap

theorem maps_of_addUniqueColToMap_false {map map' : List ColumnsPerCache} {x : Nat}
    (result : addUniqueColToMap map i x = (false, map')) : Maps map i x := by
  unfold addUniqueColToMap at result
  split at result
  · next there =>
    obtain ⟨entry, mem, same⟩ := any_eq_true.1 there
    simp only [Bool.and_eq_true, decide_eq_true_eq] at same
    exact ⟨entry, mem, same.1, same.2⟩
  · cases result

theorem Anchored.readAnchor {node : Nat → Node} {distances : Nat → ColDistance} {done : List Nat}
    (anchored : Anchored node distances done r) (col : Nat) :
    Anchored node distances (done ++ [col]) (readAnchor node distances r col) := by
  -- Nothing is added if the column has no anchor, or the anchor is there already.
  have keeps : (∀ b, (node col).closest = some b → (distances b.column).cache ≠ none →
      ⟨b.column, (distances b.column).forward, (distances b.column).backward⟩ ∈ r.readViaPM) →
      Anchored node distances (done ++ [col]) r := by
    intro here
    refine ⟨anchored.maps, anchored.vias, fun c mem b found set => ?_⟩
    rcases mem_append.1 mem with old | new
    · exact anchored.covers c old b found set
    · obtain rfl : c = col := by simpa using new
      exact here b found set
  unfold PostgresRaw.readAnchor
  cases closest : (node col).closest with
  | none => exact keeps fun b found => by rw [closest] at found; cases found
  | some b =>
    simp only
    split
    · next forward backward cache distance =>
      split
      · next map added =>
        have mem : ∀ {j y}, _ := fun {j y} => @maps_of_addUniqueColToMap_true _ _ _ _ added j y
        refine ⟨fun {i x} there => ?_, fun via inside => ?_, fun c inside b' found set => ?_⟩
        · rcases mem.1 there with old | ⟨rfl, rfl⟩
          · obtain ⟨isCache, via⟩ := anchored.maps old
            exact ⟨isCache, mem_append_left _ via⟩
          · exact ⟨by rw [distance], mem_append_right _ (by simp [distance])⟩
        · rcases mem_append.1 inside with old | new
          · obtain ⟨⟨i, there⟩, same⟩ := anchored.vias via old
            exact ⟨⟨i, mem.2 (.inl there)⟩, same⟩
          · obtain rfl : via = ⟨b.column, forward, backward⟩ := by simpa using new
            exact ⟨⟨cache, mem.2 (.inr ⟨rfl, rfl⟩)⟩, by simp [distance]⟩
        · rcases mem_append.1 inside with old | new
          · exact mem_append_left _ (anchored.covers c old b' found set)
          · obtain rfl : c = col := by simpa using new
            obtain rfl : b = b' := Option.some.inj (closest.symm.trans found)
            exact mem_append_right _ (by simp [distance])
      · next map there =>
        refine keeps fun b' found _ => ?_
        obtain rfl : b = b' := Option.some.inj (closest.symm.trans found)
        exact (anchored.maps (maps_of_addUniqueColToMap_false there)).2
    · next unset =>
      refine keeps fun b' found set => ?_
      obtain rfl : b = b' := Option.some.inj (closest.symm.trans found)
      obtain ⟨i, isCache⟩ := Option.ne_none_iff_exists'.1 set
      exact absurd (by rw [← isCache]) (unset _ _ i)

/-- Step 2 of `FillRow`, which changes no other list. -/
theorem foldl_readAnchor (node : Nat → Node) (distances : Nat → ColDistance) (collect : List Nat)
    (empty : r.mapReadFromPM = [] ∧ r.readViaPM = []) : let r' := collect.foldl (readAnchor node distances) r
    Anchored node distances collect r' ∧
      r' = { r with mapReadFromPM := r'.mapReadFromPM, readViaPM := r'.readViaPM } := by
  refine Lists.foldl_invariant (fun done r' => Anchored node distances done r' ∧
      r' = { r with mapReadFromPM := r'.mapReadFromPM, readViaPM := r'.readViaPM }) ?_ ?_
  · refine ⟨⟨?_, ?_, by simp⟩, rfl⟩
    · simp [empty.1]
    · simp [empty.2]
  · rintro done col r' - ⟨anchored, same⟩
    refine ⟨anchored.readAnchor col, ?_⟩
    rw [same]
    unfold readAnchor
    split
    · rfl
    · split
      · split <;> rfl
      · rfl

/-! ### No empty entries -/

/-- The maps of `FillRow` have no entries without columns. -/
structure FillRowReply.NoEmpty (r : FillRowReply) : Prop where
  hit : Occupied r.mapDataHit
  addByValue : Occupied r.mapDataAddByValue
  addByRef : Occupied r.mapDataAddByRef
  addPositions : Occupied r.mapPositionsAdd
  anchors : Occupied r.mapReadFromPM

theorem FillRowReply.NoEmpty.fillColumn {acc : FillRowReply × List Nat} (noEmpty : acc.1.NoEmpty)
    (col : Nat) : (fillColumn byValue request node acc col).1.NoEmpty := by
  have read : (fillRead request node acc col).1.NoEmpty := by
    unfold fillRead
    split
    · split
      · exact { noEmpty with hit := noEmpty.hit.addColToMap _ _ }
      · exact ⟨noEmpty.hit, noEmpty.addByValue, noEmpty.addByRef, noEmpty.addPositions, noEmpty.anchors⟩
    · exact noEmpty
  have data : (fillWriteData byValue request node (fillRead request node acc col) col).1.NoEmpty := by
    generalize fillRead request node acc col = acc at read ⊢
    unfold fillWriteData
    split
    · simp only
      split
      · exact { read with addByValue := read.addByValue.addColToMap _ _ }
      · exact { read with addByRef := read.addByRef.addColToMap _ _ }
    · exact read
  unfold PostgresRaw.fillColumn
  simp only
  generalize fillWriteData byValue request node (fillRead request node acc col) col = acc at data ⊢
  unfold fillWritePositions
  split
  · exact { data with addPositions := data.addPositions.addColToMap _ _ }
  · exact data

theorem FillRowReply.NoEmpty.readAnchor (noEmpty : r.NoEmpty) (distances : Nat → ColDistance) (col : Nat) :
    (readAnchor node distances r col).NoEmpty := by
  unfold PostgresRaw.readAnchor
  split
  · exact noEmpty
  · split
    · split
      · next map added =>
        unfold addUniqueColToMap at added
        split at added
        · cases added
        · cases added
          exact { noEmpty with anchors := noEmpty.anchors.addColToMap _ _ }
      · exact noEmpty
    · exact noEmpty

theorem noEmpty_fillRow (byValue : Nat → Bool) (cols : List Nat) (request : RowRequest)
    (node : Nat → Node) : (fillRow byValue cols request node).NoEmpty := by
  have filled := Lists.foldl_invariant (f := fillColumn byValue request node) (l := cols) (s := ({}, []))
    (fun _ acc => acc.1.NoEmpty) ⟨occupied_nil, occupied_nil, occupied_nil, occupied_nil, occupied_nil⟩
    fun {done col acc} _ noEmpty => noEmpty.fillColumn col
  unfold fillRow
  generalize cols.foldl (fillColumn byValue request node) ({}, []) = acc at filled
  simp only
  split
  · exact Lists.foldl_invariant (fun _ (r : FillRowReply) => r.NoEmpty) filled fun _ noEmpty => noEmpty.readAnchor _ _
  · exact ⟨filled.hit, filled.addByValue, filled.addByRef, filled.addPositions, filled.anchors⟩

/-! ### `FillRow` -/

/-- The lists that `FillRow` returns for a node. -/
structure FilledRow (byValue : Nat → Bool) (cols : List Nat) (request : RowRequest) (node : Nat → Node)
    (r : FillRowReply) : Prop where
  hit : ∀ {i c}, Maps r.mapDataHit i c ↔ c ∈ cols ∧ c ∈ request.read ∧ (node c).mark .data = .hit i
  convert : ∀ {c}, c ∈ r.convert ↔ c ∈ cols ∧ Converts request node c
  addByValue : ∀ {i c}, Maps r.mapDataAddByValue i c ↔
    c ∈ cols ∧ c ∈ request.writeData ∧ (node c).mark .data = .add i ∧ byValue c = true
  addByRef : ∀ {i c}, Maps r.mapDataAddByRef i c ↔
    c ∈ cols ∧ c ∈ request.writeData ∧ (node c).mark .data = .add i ∧ byValue c = false
  addPositions : ∀ {i c}, Maps r.mapPositionsAdd i c ↔
    c ∈ cols ∧ c ∈ request.writePositions ∧ (node c).mark .positions = .add i
  /-- the columns whose position is needed are left to the parser, or reached from anchors -/
  access : (r.mapReadFromPM = [] ∧ r.readViaPM = [] ∧
      ∀ c, c ∈ r.collectFromFile ↔ c ∈ cols ∧ Needs request node c) ∨
    (r.collectFromFile = [] ∧
      (∀ {i x}, Maps r.mapReadFromPM i x → ∃ c ∈ cols, ∃ b,
        (node c).closest = some b ∧ b.column = x ∧ b.cache = i) ∧
      (∀ via ∈ r.readViaPM, (∃ i, Maps r.mapReadFromPM i via.col) ∧ via.backward ≤ via.col ∧
        (via.forward = 0 ∨ via.col + via.forward ∈ cols)) ∧
      ∀ c ∈ cols, Needs request node c → ∃ via ∈ r.readViaPM,
        via.col - via.backward ≤ c ∧ c ≤ via.col + via.forward)
  idle : (∀ c ∈ cols, ¬ Needs request node c) →
    r.mapReadFromPM = [] ∧ r.readViaPM = [] ∧ r.collectFromFile = []

/-- The lists that do not depend on positional maps are those of the column loops. -/
theorem fillRow_lists (byValue : Nat → Bool) (cols : List Nat) (request : RowRequest) (node : Nat → Node) :
    let acc := cols.foldl (fillColumn byValue request node) ({}, [])
    let r := fillRow byValue cols request node
    r = { acc.1 with
        collectFromFile := r.collectFromFile, mapReadFromPM := r.mapReadFromPM, readViaPM := r.readViaPM } ∧
      (r.collectFromFile = [] ∨ r.collectFromFile = acc.2) := by
  have filled := foldl_fillColumn byValue request node cols
  unfold fillRow
  simp only
  split
  · obtain ⟨-, same⟩ := foldl_readAnchor node
      ((cols.foldl (fillColumn byValue request node) ({}, [])).2.foldl (widen node) fun _ => {})
      (cols.foldl (fillColumn byValue request node) ({}, [])).2 filled.others.2
    rw [same]
    exact ⟨rfl, .inl filled.others.1⟩
  · exact ⟨rfl, .inr rfl⟩

/-- The columns copied from data caches are the hits. -/
theorem maps_mapDataHit : Maps (fillRow byValue cols request node).mapDataHit i c ↔
      c ∈ cols ∧ c ∈ request.read ∧ (node c).mark .data = .hit i := by
  rw [(fillRow_lists byValue cols request node).1]
  exact (foldl_fillColumn byValue request node cols).hit

theorem mem_convert_fillRow : c ∈ (fillRow byValue cols request node).convert ↔ c ∈ cols ∧ Converts request node c := by
  rw [(fillRow_lists byValue cols request node).1]
  exact (foldl_fillColumn byValue request node cols).convert

theorem needs_of_mem_collectFromFile (mem : c ∈ (fillRow byValue cols request node).collectFromFile) :
    Needs request node c := by
  rcases (fillRow_lists byValue cols request node).2 with none | all
  · rw [none] at mem
    cases mem
  · rw [all] at mem
    exact ((foldl_fillColumn byValue request node cols).collect.1 mem).2

/-- The anchors are closest positions of columns of the query. -/
theorem maps_mapReadFromPM (measured : Measured node cols) {x : Nat}
    (there : Maps (fillRow byValue cols request node).mapReadFromPM i x) :
    ∃ c ∈ cols, ∃ b, (node c).closest = some b ∧ b.column = x ∧ b.cache = i := by
  have filled := foldl_fillColumn byValue request node cols
  unfold fillRow at there
  generalize cols.foldl (fillColumn byValue request node) ({}, []) = acc at filled there
  obtain ⟨r, collect⟩ := acc
  simp only at there
  split at there
  · have inside : ∀ c ∈ collect, c ∈ cols := fun c mem => (filled.collect.1 mem).1
    have widened := @foldl_widen node collect fun c mem => measured c (inside c mem)
    obtain ⟨anchored, -⟩ := foldl_readAnchor node (collect.foldl (widen node) fun _ => {}) collect
      filled.others.2
    obtain ⟨c, mem, b, found⟩ := widened.cache (anchored.maps there).1
    exact ⟨c, inside c mem, b, found⟩
  · rw [filled.others.2.1] at there
    exact absurd there (not_maps_nil i x)

/-- **`FillRow`.** -/
theorem fillRow_spec (byValue : Nat → Bool) (request : RowRequest) {node : Nat → Node} (measured : Measured node cols)
    (all : ∀ c ∈ cols, ∀ c' ∈ cols, (node c).closest.isSome → (node c').closest.isSome) :
    FilledRow byValue cols request node (fillRow byValue cols request node) := by
  have filled := foldl_fillColumn byValue request node cols
  unfold fillRow
  generalize cols.foldl (fillColumn byValue request node) ({}, []) = acc at filled
  obtain ⟨r, collect⟩ := acc
  simp only
  split
  · next available =>
    obtain ⟨c₀, mem₀, some₀⟩ := any_eq_true.1 available
    have inside : ∀ c ∈ collect, c ∈ cols := fun c mem => (filled.collect.1 mem).1
    have widened := @foldl_widen node collect fun c mem => measured c (inside c mem)
    generalize collect.foldl (widen node) (fun _ => {}) = distances at widened
    obtain ⟨anchored, same⟩ := foldl_readAnchor node distances collect filled.others.2
    generalize folded : collect.foldl (readAnchor node distances) r = r' at anchored same
    refine ⟨by rw [same]; exact filled.hit, by rw [same]; exact filled.convert,
      by rw [same]; exact filled.addByValue, by rw [same]; exact filled.addByRef,
      by rw [same]; exact filled.addPositions, .inr ⟨?_, ?_, ?_, ?_⟩, ?_⟩
    · rw [same]
      exact filled.others.1
    · intro i x there
      obtain ⟨c, mem, b, found⟩ := widened.cache (anchored.maps there).1
      exact ⟨c, inside c mem, b, found⟩
    · intro via mem
      obtain ⟨there, form⟩ := anchored.vias via mem
      refine ⟨there, ?_, ?_⟩
      · rw [form]
        exact widened.backward via.col
      · rw [form]
        exact (widened.forward via.col).imp_right (inside _)
    · intro c mem needs
      have collected : c ∈ collect := filled.collect.2 ⟨mem, needs⟩
      obtain ⟨b, found⟩ := Option.isSome_iff_exists.1 (all c₀ mem₀ c mem some₀)
      obtain ⟨set, left, right⟩ := widened.covers c collected b found
      exact ⟨_, anchored.covers c collected b found set, left, right⟩
    · intro none
      have empty : collect = [] := eq_nil_iff_forall_not_mem.2 fun c mem =>
        none c (inside c mem) (filled.collect.1 mem).2
      rw [← folded, empty]
      exact ⟨filled.others.2.1, filled.others.2.2, filled.others.1⟩
  · refine ⟨filled.hit, filled.convert, filled.addByValue, filled.addByRef, filled.addPositions,
      .inl ⟨filled.others.2.1, filled.others.2.2, fun c => filled.collect⟩, fun none => ?_⟩
    exact ⟨filled.others.2.1, filled.others.2.2, eq_nil_iff_forall_not_mem.2 fun c mem =>
      none c (filled.collect.1 mem).1 (filled.collect.1 mem).2⟩

/-- If nothing is read from the file or a positional map, no position is needed. -/
theorem FilledRow.not_needs (filled : FilledRow byValue cols request node r) (noMaps : r.mapReadFromPM = [])
    (noFile : r.collectFromFile = []) : ∀ c ∈ cols, ¬ Needs request node c := by
  intro c mem needs
  rcases filled.access with ⟨-, -, collect⟩ | ⟨-, -, vias, covers⟩
  · have := (collect c).2 ⟨mem, needs⟩
    rw [noFile] at this
    simp at this
  · obtain ⟨via, inside, -⟩ := covers c mem needs
    obtain ⟨⟨i, there⟩, -⟩ := vias via inside
    rw [noMaps] at there
    exact not_maps_nil _ _ there

end

end PostgresRaw
