import Mathlib.Data.List.Nodup
import PostgresRaw.Cache.Layout

/-!
# Deleting a column

`NoDBCacheDeleteColumn` takes a column out of `cols`, rebuilds `map` and releases its part.  It does not agree
with `NoDBCacheAddColumn` on what `map` holds: adding stores the number of columns *after* the addition, so an
index counted from one, while deletion shifts `cols` back from this index and rebuilds the map with indices
counted from zero.  So deletion takes out the column behind the one it was asked for, unless the map has been
rebuilt since the column was added or the column is the last one (`Shiftable`).  `DeletePartition` joins the
part with a free one behind it, but not with one in front.

`deletionUndoes_iff` says that there is nothing else: in every run in which these two conditions were met so
far, they decide whether deletion undoes addition.
-/

namespace PostgresRaw

open Option List Parts

/-! ### The partition list -/

/-- The part at the head is not used any more; `DeletePartition` joins it with the next one. -/
def deletePartition (size : Nat) : List RowPartition → List RowPartition
  | ⟨n, false⟩ :: rest => ⟨size + n, false⟩ :: rest
  | rest => ⟨size, false⟩ :: rest

/-- The list after `FindPartition` and `DeletePartition`. -/
def releasePartition : (offset : Int) → List RowPartition → List RowPartition
  | _, [] => []
  | offset, p :: rest =>
    if 0 < offset then p :: releasePartition (toInt (offset - p.size)) rest else deletePartition p.size rest

theorem map_release (n : Nat) (back : List (Extent Nat)) :
    (release n back).map rowPartition = deletePartition n (back.map rowPartition) := by
  cases back with
  | nil => rfl
  | cons p back =>
    obtain ⟨k, owner⟩ := p
    cases owner <;> rfl

/-- `FindPartition` finds the part that begins at the offset. -/
theorem releasePartition_eq {front back : List (Extent Nat)} {n col : Nat} (positive : ∀ p ∈ front, 0 < p.size)
    (small : total front < 2 ^ 31) :
    releasePartition (total front) ((front ++ ⟨n, some col⟩ :: back).map rowPartition) =
      (front ++ release n back).map rowPartition := by
  induction front with
  | nil =>
    rw [nil_append, map_cons, releasePartition, if_neg (by simp), nil_append, map_release]
    rfl
  | cons p front ih =>
    rw [forall_mem_cons] at positive
    rw [total_cons] at small ⊢
    have rest : toInt (((p.size + total front : Nat) : Int) - (rowPartition p).size) = (total front : Int) := by
      rw [rowPartition, show ((p.size + total front : Nat) : Int) - (p.size : Int) = (total front : Nat) by omega]
      exact toInt_of_lt (by omega)
    rw [cons_append, map_cons, releasePartition, if_pos (by omega), rest, ih positive.2 (by omega)]
    rfl

/-- The part that ends at the offset is not used. -/
def freeInFront : (offset : Int) → List RowPartition → Bool
  | _, [] => false
  | offset, p :: rest => if (p.size : Int) = offset then !p.used else freeInFront (offset - p.size) rest

theorem freeInFront_of_neg {offset : Int} (negative : offset < 0) (list : List RowPartition) :
    freeInFront offset list = false := by
  induction list generalizing offset with
  | nil => rfl
  | cons p rest ih => rw [freeInFront, if_neg (by omega), ih (by omega)]

theorem freeInFront_eq {front back : List (Extent Nat)} {n col : Nat} (positive : ∀ p ∈ front, 0 < p.size) (nonempty : 0 < n) :
    freeInFront (total front) ((front ++ ⟨n, some col⟩ :: back).map rowPartition) = false ↔
      ∀ p ∈ front.getLast?, p.owner.isSome = true := by
  induction front with
  | nil =>
    have none : freeInFront (total ([] : List (Extent Nat))) ((⟨n, some col⟩ :: back : List (Extent Nat)).map rowPartition) = false := by
      rw [map_cons, freeInFront, if_neg (by simp [rowPartition]; omega)]
      exact freeInFront_of_neg (by simp [rowPartition]; omega) _
    exact iff_of_true none fun p mem => by cases mem
  | cons p front ih =>
    rw [forall_mem_cons] at positive
    rw [cons_append, map_cons, freeInFront, total_cons]
    cases front with
    | nil =>
      rw [if_pos (by simp [rowPartition])]
      simp [rowPartition]
    | cons q front =>
      have long : 0 < total (q :: front) := by
        rw [total_cons]
        exact Nat.add_pos_left (positive.2 q mem_cons_self) _
      rw [if_neg (by simp only [rowPartition]; omega), getLast?_cons_cons, ← ih positive.2]
      have rest : ((p.size + total (q :: front) : Nat) : Int) - (rowPartition p).size = (total (q :: front) : Nat) := by
        simp only [rowPartition]
        omega
      rw [rest]

/-! ### The columns and the map -/

/-- The loop that shifts `cols` back from `pos`.  What it stores in the last place is overwritten, and the place
is given up. -/
def shiftBack (cols : List Nat) (pos : Int) : List Nat :=
  (List.range (cols.length - 1)).map fun i : Nat => if pos ≤ i then cols.getD (i + 1) 0 else cols.getD i 0

/-- The loops that fill the map again. -/
def rebuildMap (nMap : Nat) (cols : List Nat) : List Int :=
  cols.zipIdx.foldl (fun map entry => map.set entry.1 entry.2) (List.replicate nMap (-1))

/-- Shifting takes out the column at `pos`, or the last one. -/
theorem shiftBack_eq (cols : List Nat) (pos : Nat) :
    shiftBack cols pos = if pos < cols.length then cols.eraseIdx pos else cols.dropLast := by
  apply ext_getElem?
  intro i
  rw [shiftBack, getElem?_map]
  by_cases inside : i < cols.length - 1
  · have entry : ∀ j, j < cols.length → some (cols.getD j 0) = cols[j]? := fun j less => by
      rw [getD_eq_getElem?_getD, getElem?_eq_getElem less, getD_some]
    rw [getElem?_range inside, map_some, apply_ite some, entry _ (by omega), entry _ (by omega)]
    by_cases there : pos < cols.length
    · rw [if_pos there, getElem?_eraseIdx]
      by_cases behind : pos ≤ i
      · rw [if_pos (by omega), if_neg (by omega)]
      · rw [if_neg (by omega), if_pos (by omega)]
    · rw [if_neg there, if_neg (by omega), getElem?_dropLast, if_pos inside]
  · rw [getElem?_eq_none (by simp; omega), map_none, getElem?_eq_none]
    split
    · rw [length_eraseIdx_of_lt (by omega)]
      omega
    · rw [length_dropLast]
      omega

theorem rebuildMap_append (nMap : Nat) (cols : List Nat) (c : Nat) :
    rebuildMap nMap (cols ++ [c]) = (rebuildMap nMap cols).set c cols.length := by
  rw [rebuildMap, zipIdx_append, foldl_append, zero_add]
  rfl

theorem length_rebuildMap (nMap : Nat) (cols : List Nat) : (rebuildMap nMap cols).length = nMap := by
  induction cols using List.reverseRecOn with
  | nil => exact length_replicate
  | append_singleton cols c ih => rw [rebuildMap_append, length_set, ih]

/-- **The map is rebuilt** with indices that are counted from zero. -/
theorem rebuildMap_of_getElem? {nMap : Nat} {cols : List Nat} (distinct : cols.Nodup) {i c : Nat}
    (here : cols[i]? = some c) (small : c < nMap) : (rebuildMap nMap cols)[c]? = some (i : Int) := by
  induction cols using List.reverseRecOn with
  | nil => cases here
  | append_singleton cols d ih =>
    rw [rebuildMap_append]
    rw [nodup_append] at distinct
    rcases Lists.getElem?_concat_eq_some here with old | ⟨rfl, rfl⟩
    · have other : d ≠ c := fun same =>
        distinct.2.2 c (mem_of_getElem? old) d mem_cons_self same.symm
      rw [getElem?_set_ne other, ih distinct.1 old]
    · rw [getElem?_set_self (by rw [length_rebuildMap]; exact small)]

theorem rebuildMap_of_not_mem {nMap : Nat} {cols : List Nat} {c : Nat} (absent : c ∉ cols) :
    (rebuildMap nMap cols)[c]?.any (· ≠ -1) = false := by
  induction cols using List.reverseRecOn with
  | nil =>
    rw [rebuildMap, zipIdx_nil, foldl_nil, getElem?_replicate]
    split <;> rfl
  | append_singleton cols d ih =>
    rw [mem_append, not_or, mem_singleton] at absent
    rw [rebuildMap_append, getElem?_set_ne (Ne.symm absent.2), ih absent.1]

namespace RowLayout

/-- `NoDBCacheDeleteColumn`. -/
def noDBCacheDeleteColumn (l : RowLayout) (col size : Nat) : RowLayout :=
  let cols := shiftBack l.cols (l.map.getD col (-1))
  { l with
    cols := cols
    offset := Function.update l.offset col (-1)
    map := rebuildMap l.map.length cols
    list := releasePartition (l.offset col) l.list
    rowFree := l.rowFree + size }

/-- **Deleting a column undoes adding it**: the column is gone, the others are where they were, its bytes are
free, and no two unused parts are next to each other. -/
structure DeletionUndoes (l : RowLayout) (col size : Nat) : Prop where
  gone : (l.noDBCacheDeleteColumn col size).noDBCacheHasColumn col = false
  kept : ∀ c, c ≠ col → l.noDBCacheHasColumn c = true →
    (l.noDBCacheDeleteColumn col size).noDBCacheHasColumn c = true ∧
      (l.noDBCacheDeleteColumn col size).offset c = l.offset c ∧ c ∈ (l.noDBCacheDeleteColumn col size).cols
  rowFree : (l.noDBCacheDeleteColumn col size).rowFree = l.rowFree + size
  separated : (l.noDBCacheDeleteColumn col size).list.IsChain fun p q => p.used = true ∨ q.used = true

/-- The map has been rebuilt since the column was added, or the column is the last one. -/
def Shiftable (l : RowLayout) (col : Nat) : Prop :=
  l.cols[(l.map.getD col (-1)).toNat]? = some col ∨ l.cols.getLast? = some col

/-- Shifting takes out the right column, and there is no unused part in front of its part. -/
def Deletable (l : RowLayout) (col : Nat) : Prop :=
  l.Shiftable col ∧ freeInFront (l.offset col) l.list = false

instance (l : RowLayout) (col : Nat) : Decidable (l.Deletable col) :=
  inferInstanceAs (Decidable ((_ ∨ _) ∧ _))

/-- **The runs**: columns are added with positive sizes, and present columns are deleted that are deletable, with
the size that they were added with. -/
inductive Run (rowSize : Nat) : RowLayout → (Nat → Nat) → Prop where
  | init : Run rowSize (noDBCacheInit rowSize) fun _ => 0
  | add {l l' : RowLayout} {sizes : Nat → Nat} {col size : Nat} (run : Run rowSize l sizes) (positive : 0 < size)
      (added : l.noDBCacheAddColumn col size = (true, l')) : Run rowSize l' (Function.update sizes col size)
  | delete {l : RowLayout} {sizes : Nat → Nat} {col : Nat} (run : Run rowSize l sizes)
      (present : l.noDBCacheHasColumn col = true) (deletable : l.Deletable col) :
      Run rowSize (l.noDBCacheDeleteColumn col (sizes col)) sizes

/-- What holds along a run. -/
structure Tidy (l : RowLayout) (sizes : Nat → Nat) (parts : List (Extent Nat)) : Prop where
  lays : l.Lays parts
  sizes : ∀ s ∈ slots 0 parts, s.size = sizes s.owner
  unique : ((slots 0 parts).map (·.owner)).Nodup
  positive : ∀ p ∈ parts, p.owner.isSome = true ∨ 0 < l.rowSize → 0 < p.size
  separated : Parts.Separated parts
  index : ∀ (i c : Nat), l.cols[i]? = some c → l.map[c]? = some (i : Int) ∨ l.map[c]? = some ((i : Int) + 1)

theorem tidy_noDBCacheInit (rowSize : Nat) : (noDBCacheInit rowSize).Tidy (fun _ => 0) [⟨rowSize, none⟩] where
  lays := lays_noDBCacheInit rowSize
  sizes := by simp [slots]
  unique := nodup_nil
  positive := by simp [noDBCacheInit]
  separated := isChain_singleton _
  index := by simp [noDBCacheInit]

theorem Tidy.index_withColumn {l : RowLayout} {sizes : Nat → Nat} {parts : List (Extent Nat)} {col size offset : Nat}
    {list : List RowPartition} (tidy : l.Tidy sizes parts) (new : col ∉ l.cols) {i c : Nat}
    (here : (l.withColumn col size offset list).cols[i]? = some c) :
    (l.withColumn col size offset list).map[c]? = some (i : Int) ∨
      (l.withColumn col size offset list).map[c]? = some ((i : Int) + 1) := by
  simp only [withColumn] at here ⊢
  rcases Lists.getElem?_concat_eq_some here with old | ⟨rfl, rfl⟩
  · have other : col ≠ c := fun same => new (same ▸ mem_of_getElem? old)
    have index := tidy.index i c old
    have short : c < l.map.length := by
      rcases index with index | index <;> exact (List.getElem?_eq_some_iff.1 index).1
    rwa [getElem?_set_ne other, map_resizeMap, if_pos short]
  · right
    rw [getElem?_set_self]
    rw [resizeMap, length_append, length_replicate]
    omega

/-- Adding a column. -/
theorem Tidy.add {l l' : RowLayout} {sizes : Nat → Nat} {parts : List (Extent Nat)} {col size : Nat}
    (tidy : l.Tidy sizes parts) (positive : 0 < size) (added : l.noDBCacheAddColumn col size = (true, l')) :
    (∃ parts', l'.Tidy (Function.update sizes col size) parts') ∧ l'.rowSize = l.rowSize := by
  rcases l.noDBCacheAddColumn_cases col size with ⟨_, result, -⟩ | ⟨offset, list, result, -, absent, fit⟩
  · cases added.symm.trans result
  · cases added.symm.trans result
    refine ⟨?_, rfl⟩
    rw [tidy.lays.list] at fit
    obtain ⟨front, n, back, rfl, fits, rfl, rfl⟩ := fitPartition_parts fit col
    have new : col ∉ l.cols := fun mem => by
      rw [(tidy.lays.present col).2 mem] at absent
      cases absent
    have other : ∀ s ∈ slots 0 (front ++ ⟨n, none⟩ :: back), s.owner ≠ col := fun s mem same =>
      new ((tidy.lays.cols col).2 ⟨s, mem, same⟩)
    refine ⟨front ++ (carve n size col ++ back), tidy.lays.withColumn fits absent, fun s mem => ?_, ?_, ?_,
      tidy.separated.carve, fun i c here => ?_⟩
    · rcases (mem_slots_carve fits).1 mem with rfl | old
      · exact (Function.update_self col size sizes).symm
      · rw [Function.update_of_ne (other s old)]
        exact tidy.sizes s old
    · have unique := tidy.unique
      rw [slots_append_free, map_append] at unique
      rw [slots_append_carve front back fits, map_append, map_cons, nodup_middle, nodup_cons]
      refine ⟨fun mem => ?_, unique⟩
      rw [← map_append, ← slots_append_free] at mem
      obtain ⟨s, old, same⟩ := mem_map.1 mem
      exact other s old same
    · intro p mem any
      rcases mem_append.1 mem with mem | mem
      · exact tidy.positive p (mem_append_left _ mem) any
      · rcases mem_append.1 mem with mem | mem
        · exact size_pos_of_mem_carve fits positive mem
        · exact tidy.positive p (mem_append_right _ (mem_cons_of_mem _ mem)) any
    · exact tidy.index_withColumn new here

/-! ### Deletion in a run -/

section

variable {l : RowLayout} {sizes : Nat → Nat} {parts : List (Extent Nat)} {col : Nat}

section

variable (tidy : l.Tidy sizes parts)
include tidy

/-- The part of a column that is present, and the partition list when it has been released. -/
theorem Tidy.exists_part (small : l.rowSize ≤ 2 ^ 31)
    (present : l.noDBCacheHasColumn col = true) :
    ∃ front back, parts = front ++ ⟨sizes col, some col⟩ :: back ∧ l.offset col = total front ∧
      (∀ p ∈ parts, 0 < p.size) ∧
      (l.noDBCacheDeleteColumn col (sizes col)).list = (front ++ release (sizes col) back).map rowPartition := by
  obtain ⟨s, mem, rfl⟩ := (tidy.lays.cols col).1 ((tidy.lays.present col).1 present)
  obtain ⟨front, back, rfl, start⟩ := exists_part_of_mem_slots mem
  have size := tidy.sizes s mem
  have nonempty := tidy.positive ⟨s.size, some s.owner⟩ (mem_append_right _ mem_cons_self) (.inl rfl)
  have total := tidy.lays.rowSize
  rw [total_append, total_cons] at total
  have offset : l.offset s.owner = Parts.total front := by
    rw [tidy.lays.offset s mem, start, zero_add, toInt_of_lt (by omega)]
  have positive : ∀ p ∈ front ++ ⟨s.size, some s.owner⟩ :: back, 0 < p.size := fun p mem =>
    tidy.positive p mem (.inr (by omega))
  refine ⟨front, back, by rw [← size], offset, positive, ?_⟩
  rw [noDBCacheDeleteColumn, offset, tidy.lays.list, ← size]
  exact releasePartition_eq (fun p mem => positive p (mem_append_left _ mem)) (by omega)

/-- The place of a column that is present, and what the map says about it. -/
theorem Tidy.exists_index (present : l.noDBCacheHasColumn col = true) :
    ∃ i : Nat, l.cols[i]? = some col ∧ (l.map.getD col (-1) = (i : Int) ∨ l.map.getD col (-1) = ((i + 1 : Nat) : Int)) := by
  obtain ⟨i, here⟩ := getElem?_of_mem ((tidy.lays.present col).1 present)
  refine ⟨i, here, ?_⟩
  rw [getD_eq_getElem?_getD]
  rcases tidy.index i col here with index | index
  · exact .inl (by rw [index, getD_some])
  · exact .inr (by rw [index, getD_some]; rfl)

/-- Two places of a column are one. -/
theorem Tidy.index_unique {i j c : Nat} (hi : l.cols[i]? = some c) (hj : l.cols[j]? = some c) :
    i = j := by
  obtain ⟨less, same⟩ := List.getElem?_eq_some_iff.1 hi
  exact (getElem?_inj less tidy.lays.distinct).1 (hi.trans hj.symm)

/-- **Shifting takes out the column**, or one that is not the column. -/
theorem Tidy.shiftBack (present : l.noDBCacheHasColumn col = true) :
    (l.Shiftable col ∧ ∃ i, l.cols[i]? = some col ∧ shiftBack l.cols (l.map.getD col (-1)) = l.cols.eraseIdx i) ∨
      (¬ l.Shiftable col ∧ ∃ i, l.cols[i]? = some col ∧ shiftBack l.cols (l.map.getD col (-1)) = l.cols.eraseIdx (i + 1)) := by
  obtain ⟨i, here, index⟩ := tidy.exists_index present
  have less := (List.getElem?_eq_some_iff.1 here).1
  rcases index with index | index
  · refine .inl ⟨.inl (by rw [index, Int.toNat_natCast, here]), i, here, ?_⟩
    rw [index, shiftBack_eq, if_pos less]
  · by_cases last : i + 1 < l.cols.length
    · refine .inr ⟨fun shiftable => ?_, i, here, by rw [index, shiftBack_eq, if_pos last]⟩
      rcases shiftable with next | last'
      · rw [index, Int.toNat_natCast] at next
        have := tidy.index_unique here next
        omega
      · rw [List.getLast?_eq_getElem?] at last'
        have := tidy.index_unique here last'
        omega
    · refine .inl ⟨.inr ?_, i, here, ?_⟩
      · rw [List.getLast?_eq_getElem?, show l.cols.length - 1 = i by omega, here]
      · rw [index, shiftBack_eq, if_neg last, List.dropLast_eq_eraseIdx (show i + 1 = l.cols.length by omega)]

/-- The columns that are left, if the right one is taken out. -/
theorem Tidy.mem_eraseIdx {i : Nat} (here : l.cols[i]? = some col) {c : Nat} :
    c ∈ l.cols.eraseIdx i ↔ c ∈ l.cols ∧ c ≠ col := by
  rw [mem_eraseIdx_iff_getElem?]
  constructor
  · rintro ⟨j, other, there⟩
    refine ⟨mem_of_getElem? there, fun same => other (tidy.index_unique there ?_)⟩
    rw [same, here]
  · rintro ⟨mem, other⟩
    obtain ⟨j, there⟩ := getElem?_of_mem mem
    refine ⟨j, fun same => other ?_, there⟩
    rw [same] at there
    exact Option.some.inj (there.symm.trans here)

/-- The map is rebuilt for the columns that are left, whichever these are. -/
theorem Tidy.map_delete (size : Nat) {i : Nat}
    (cols : PostgresRaw.shiftBack l.cols (l.map.getD col (-1)) = l.cols.eraseIdx i) {j c : Nat}
    (here : (l.cols.eraseIdx i)[j]? = some c) : (l.noDBCacheDeleteColumn col size).map[c]? = some (j : Int) := by
  obtain ⟨k, there⟩ := getElem?_of_mem (mem_of_mem_eraseIdx (mem_of_getElem? here))
  have short : c < l.map.length := by
    rcases tidy.index k c there with index | index <;> exact (List.getElem?_eq_some_iff.1 index).1
  rw [noDBCacheDeleteColumn, cols]
  exact rebuildMap_of_getElem? (tidy.lays.distinct.sublist (eraseIdx_sublist ..)) here short

theorem Tidy.hasColumn_delete (size : Nat) {i : Nat}
    (cols : PostgresRaw.shiftBack l.cols (l.map.getD col (-1)) = l.cols.eraseIdx i) (c : Nat) :
    (l.noDBCacheDeleteColumn col size).noDBCacheHasColumn c = true ↔ c ∈ l.cols.eraseIdx i := by
  by_cases mem : c ∈ l.cols.eraseIdx i
  · obtain ⟨j, here⟩ := getElem?_of_mem mem
    rw [noDBCacheHasColumn, tidy.map_delete size cols here, any_some]
    exact iff_of_true (decide_eq_true (by omega)) mem
  · refine iff_of_false ?_ mem
    rw [noDBCacheHasColumn, noDBCacheDeleteColumn, cols, rebuildMap_of_not_mem mem]
    exact Bool.false_ne_true

end

/-- The partition list says whether two unused parts are next to each other. -/
theorem isChain_map_rowPartition (parts : List (Extent Nat)) :
    (parts.map rowPartition).IsChain (fun p q => p.used = true ∨ q.used = true) ↔ Parts.Separated parts :=
  isChain_map rowPartition

/-- **Deleting a column in a run.** -/
theorem Tidy.undoes_iff (tidy : l.Tidy sizes parts) (small : l.rowSize ≤ 2 ^ 31)
    (present : l.noDBCacheHasColumn col = true) : l.DeletionUndoes col (sizes col) ↔ l.Deletable col := by
  obtain ⟨front, back, rfl, start, positive, list⟩ := tidy.exists_part small present
  have inFront : ∀ p ∈ front, 0 < p.size := fun p mem => positive p (mem_append_left _ mem)
  have nonempty := positive ⟨sizes col, some col⟩ (mem_append_right _ mem_cons_self)
  have separated : (l.noDBCacheDeleteColumn col (sizes col)).list.IsChain (fun p q => p.used = true ∨ q.used = true) ↔
      freeInFront (l.offset col) l.list = false := by
    rw [list, isChain_map_rowPartition, separated_release_iff tidy.separated, start, tidy.lays.list,
      freeInFront_eq inFront nonempty]
  rcases tidy.shiftBack present with ⟨shiftable, i, here, cols⟩ | ⟨notShiftable, i, here, cols⟩
  · refine ⟨fun undoes => ⟨shiftable, separated.1 undoes.separated⟩, fun deletable => ⟨?_, fun c other there => ?_, rfl,
      separated.2 deletable.2⟩⟩
    · rw [← Bool.not_eq_true, tidy.hasColumn_delete _ cols, tidy.mem_eraseIdx here]
      exact fun mem => mem.2 rfl
    · have left : c ∈ l.cols.eraseIdx i := (tidy.mem_eraseIdx here).2 ⟨(tidy.lays.present c).1 there, other⟩
      refine ⟨(tidy.hasColumn_delete _ cols c).2 left, Function.update_of_ne other .., ?_⟩
      rw [noDBCacheDeleteColumn, cols]
      exact left
  · refine iff_of_false (fun undoes => ?_) fun deletable => notShiftable deletable.1
    -- The column is in front of the one that is taken out.
    have there := (tidy.hasColumn_delete (sizes col) cols col).2
      (mem_eraseIdx_iff_getElem?.2 ⟨i, by omega, here⟩)
    rw [undoes.gone] at there
    cases there

/-- Deletion keeps the layout, if the column is deletable. -/
theorem Tidy.delete (tidy : l.Tidy sizes parts) (small : l.rowSize ≤ 2 ^ 31)
    (present : l.noDBCacheHasColumn col = true) (deletable : l.Deletable col) :
    ∃ parts', (l.noDBCacheDeleteColumn col (sizes col)).Tidy sizes parts' := by
  have undoes := (tidy.undoes_iff small present).2 deletable
  obtain ⟨front, back, rfl, start, positive, list⟩ := tidy.exists_part small present
  rcases tidy.shiftBack present with ⟨-, i, here, cols⟩ | ⟨notShiftable, -⟩
  · have inFront : ∀ p ∈ front, 0 < p.size := fun p mem => positive p (mem_append_left _ mem)
    have nonempty := positive ⟨sizes col, some col⟩ (mem_append_right _ mem_cons_self)
    have colsEq : (l.noDBCacheDeleteColumn col (sizes col)).cols = l.cols.eraseIdx i := cols
    have unique := tidy.unique
    rw [slots_append_owned, map_append, map_cons, nodup_middle, nodup_cons, ← map_append,
      ← slots_append_release] at unique
    have other : ∀ s ∈ slots 0 (front ++ release (sizes col) back), s.owner ≠ col := fun s mem same =>
      unique.1 (mem_map.2 ⟨s, mem, same⟩)
    have size := tidy.lays.rowSize
    have free := tidy.lays.rowFree
    simp only [total_append, total_cons, free_append, free_cons_some] at size free
    refine ⟨front ++ release (sizes col) back, ⟨list, ?_, ?_, fun c => ?_, ?_, fun c => ?_, fun s mem => ?_⟩, fun s mem => ?_,
      unique.2, fun p mem _ => ?_, ?_, fun j c there => .inl (tidy.map_delete _ cols (colsEq ▸ there))⟩
    · rw [total_append, total_release]
      exact size
    · rw [free_append, free_release]
      simp only [noDBCacheDeleteColumn]
      omega
    · rw [colsEq, tidy.mem_eraseIdx here, tidy.lays.cols c]
      simp only [mem_slots_release]
      constructor
      · rintro ⟨⟨s, rfl | old, rfl⟩, different⟩
        · exact absurd rfl different
        · exact ⟨s, old, rfl⟩
      · rintro ⟨s, mem, rfl⟩
        exact ⟨⟨s, .inr mem, rfl⟩, other s mem⟩
    · rw [colsEq]
      exact tidy.lays.distinct.sublist (eraseIdx_sublist ..)
    · rw [colsEq]
      exact tidy.hasColumn_delete _ cols c
    · exact (Function.update_of_ne (other s mem) ..).trans (tidy.lays.offset s (mem_slots_release.2 (.inr mem)))
    · exact tidy.sizes s (mem_slots_release.2 (.inr mem))
    · rcases mem_append.1 mem with mem | mem
      · exact inFront p mem
      · exact size_pos_of_mem_release nonempty
          (fun p mem => positive p (mem_append_right _ (mem_cons_of_mem _ mem))) mem
    · rw [← isChain_map_rowPartition, ← list]
      exact undoes.separated
  · exact absurd deletable.1 notShiftable

end

/-- Every run keeps the layout. -/
theorem Run.exists_tidy {rowSize : Nat} (small : rowSize ≤ 2 ^ 31) {l : RowLayout} {sizes : Nat → Nat}
    (run : Run rowSize l sizes) : (∃ parts, l.Tidy sizes parts) ∧ l.rowSize = rowSize := by
  induction run with
  | init => exact ⟨⟨_, tidy_noDBCacheInit rowSize⟩, rfl⟩
  | add _ positive added ih =>
    obtain ⟨⟨parts, tidy⟩, size⟩ := ih
    obtain ⟨tidy', size'⟩ := tidy.add positive added
    exact ⟨tidy', size'.trans size⟩
  | delete _ present deletable ih =>
    obtain ⟨⟨parts, tidy⟩, size⟩ := ih
    exact ⟨tidy.delete (by rw [size]; exact small) present deletable, size⟩

/-- **When deleting a column undoes adding it.**  For every row size up to 2 GiB, after every sequence of
successful additions and of deletions, if every deletion so far was of a deletable column: deleting a present
column undoes adding it exactly if the column is deletable. -/
theorem deletionUndoes_iff {rowSize : Nat} (small : rowSize ≤ 2 ^ 31) {l : RowLayout} {sizes : Nat → Nat}
    (run : Run rowSize l sizes) {col : Nat} (present : l.noDBCacheHasColumn col = true) :
    l.DeletionUndoes col (sizes col) ↔ l.Deletable col := by
  obtain ⟨⟨parts, tidy⟩, size⟩ := run.exists_tidy small
  exact tidy.undoes_iff (by rw [size]; exact small) present

/-- A row with one column. -/
def oneColumn : RowLayout := ((noDBCacheInit 32).noDBCacheAddColumn 3 16).2

/-- The column is the last one, so it can be deleted. -/
theorem deletionUndoes_iff_last :
    oneColumn.Deletable 3 ∧ oneColumn.DeletionUndoes 3 (Function.update (fun _ => 0) 3 16 3) :=
  ⟨by decide, (deletionUndoes_iff (show 32 ≤ 2 ^ 31 by decide) (.add .init (show 0 < 16 by decide) rfl)
    (show oneColumn.noDBCacheHasColumn 3 = true by decide)).2 (by decide)⟩

/-- A row with two columns. -/
def twoColumns : RowLayout := (oneColumn.noDBCacheAddColumn 1 16).2

/-- Deleting the first column deletes the second. -/
theorem not_deletionUndoes_first :
    oneColumn.noDBCacheAddColumn 1 16 = (true, twoColumns) ∧ twoColumns.cols = [3, 1] ∧
      (twoColumns.noDBCacheDeleteColumn 3 16).cols = [3] ∧
      (twoColumns.noDBCacheDeleteColumn 3 16).noDBCacheHasColumn 3 = true ∧
      (twoColumns.noDBCacheDeleteColumn 3 16).noDBCacheHasColumn 1 = false ∧ ¬ twoColumns.DeletionUndoes 3 16 := by
  refine ⟨rfl, by decide, by decide, by decide, by decide, fun undoes => ?_⟩
  have gone := undoes.gone
  revert gone
  decide

end RowLayout

end PostgresRaw
