import PostgresRaw.Cache
import PostgresRaw.Library.Lists
import PostgresRaw.Library.Parts

/-!
# The row layout of a cache

The part of `NoDBCache_t` that says where the columns of a row are, as the source keeps it: the array
`cols`, the array `map` that grows on demand, the `int` offsets and the partition list.  `Cache` is the same
without the machine: `Shows` relates the two, and `noDBCacheAddColumn` is the same on both.

The five representations are read off one list of parts (`Lays`): a part with its owner is a part of the
partition list, its owner is a column of `cols`, and where it begins is the offset.  Adding a column carves
a part.  The one place where the machine shows is the offset: sizes are `unsigned int`, but the offset is an
`int`, so a column that begins behind 2 GiB gets a negative one.
-/

namespace PostgresRaw

open Function List Parts

/-- The row layout in `NoDBCache_t`: `cols` is `cols[0 .. usedCols)`, and the length of `map` is `nMap`. -/
structure RowLayout where
  rowSize : Nat
  rowFree : Nat
  cols : List Nat
  offset : Nat → Int
  map : List Int
  list : List RowPartition

namespace RowLayout

/-- `NoDBCacheInit`. -/
def noDBCacheInit (rowSize : Nat) : RowLayout where
  rowSize := rowSize
  rowFree := rowSize
  cols := []
  offset := fun _ => -1
  map := []
  list := [⟨rowSize, false⟩]

/-- `NoDBCacheHasColumn`. -/
def noDBCacheHasColumn (l : RowLayout) (col : Nat) : Bool := l.map[col]?.any (· ≠ -1)

/-- The map is resized if needed. -/
def resizeMap (l : RowLayout) (col : Nat) : RowLayout :=
  { l with map := l.map ++ List.replicate (col + 1 - l.map.length) (-1) }

/-- `NoDBCacheAddColumn`: whether the column was added, and the layout. -/
def noDBCacheAddColumn (l : RowLayout) (col size : Nat) : Bool × RowLayout :=
  if l.rowFree < size then (false, l)
  else if (l.resizeMap col).noDBCacheHasColumn col then (false, l.resizeMap col)
  else
    match fitPartition size l.list with
    | none => (false, l.resizeMap col)
    | some (offset, list) =>
      (true, { l.resizeMap col with
        list := list
        cols := l.cols ++ [col]
        offset := Function.update l.offset col (toInt offset)
        map := (l.resizeMap col).map.set col ((l.cols.length : Int) + 1)
        rowFree := l.rowFree - size })

/-- What can be seen of a layout. -/
structure Unchanged (l l' : RowLayout) : Prop where
  rowSize : l'.rowSize = l.rowSize
  rowFree : l'.rowFree = l.rowFree
  cols : l'.cols = l.cols
  offset : l'.offset = l.offset
  list : l'.list = l.list
  hasColumn : ∀ c, l'.noDBCacheHasColumn c = l.noDBCacheHasColumn c

/-! ### The map -/

theorem map_resizeMap (l : RowLayout) (col c : Nat) :
    (l.resizeMap col).map[c]? = if c < l.map.length then l.map[c]? else if c ≤ col then some (-1) else none := by
  rw [resizeMap]
  by_cases there : c < l.map.length
  · rw [getElem?_append_left there, if_pos there]
  · rw [getElem?_append_right (not_lt.1 there), if_neg there, getElem?_replicate]
    exact if_congr (by omega) rfl rfl

theorem hasColumn_resizeMap (l : RowLayout) (col c : Nat) :
    (l.resizeMap col).noDBCacheHasColumn c = l.noDBCacheHasColumn c := by
  rw [noDBCacheHasColumn, noDBCacheHasColumn, map_resizeMap]
  split
  · rfl
  · rename_i beyond
    rw [getElem?_eq_none (not_lt.1 beyond)]
    split <;> rfl

theorem unchanged_resizeMap (l : RowLayout) (col : Nat) : l.Unchanged (l.resizeMap col) :=
  ⟨rfl, rfl, rfl, rfl, rfl, l.hasColumn_resizeMap col⟩

/-- The layout after a column has been added. -/
def withColumn (l : RowLayout) (col size offset : Nat) (list : List RowPartition) : RowLayout :=
  { l.resizeMap col with
    list := list
    cols := l.cols ++ [col]
    offset := Function.update l.offset col (toInt offset)
    map := (l.resizeMap col).map.set col ((l.cols.length : Int) + 1)
    rowFree := l.rowFree - size }

/-- **What `NoDBCacheAddColumn` can do.** -/
theorem noDBCacheAddColumn_cases (l : RowLayout) (col size : Nat) :
    (∃ l', l.noDBCacheAddColumn col size = (false, l') ∧ l.Unchanged l' ∧
      (l.rowFree < size ∨ l.noDBCacheHasColumn col = true ∨ fitPartition size l.list = none)) ∨
    ∃ offset list, l.noDBCacheAddColumn col size = (true, l.withColumn col size offset list) ∧ size ≤ l.rowFree ∧
      l.noDBCacheHasColumn col = false ∧ fitPartition size l.list = some (offset, list) := by
  by_cases full : l.rowFree < size
  · exact .inl ⟨l, by rw [noDBCacheAddColumn, if_pos full], ⟨rfl, rfl, rfl, rfl, rfl, fun _ => rfl⟩, .inl full⟩
  · by_cases there : l.noDBCacheHasColumn col = true
    · exact .inl ⟨_, by rw [noDBCacheAddColumn, if_neg full, if_pos (by rw [hasColumn_resizeMap, there])],
        l.unchanged_resizeMap col, .inr (.inl there)⟩
    · cases fit : fitPartition size l.list with
      | none =>
        exact .inl ⟨l.resizeMap col, by
          rw [noDBCacheAddColumn, if_neg full, if_neg (by rwa [hasColumn_resizeMap]), fit],
          l.unchanged_resizeMap col, .inr (.inr rfl)⟩
      | some found =>
        exact .inr ⟨found.1, found.2, by
          rw [noDBCacheAddColumn, if_neg full, if_neg (by rwa [hasColumn_resizeMap]), fit]
          rfl, not_lt.1 full, by simpa using there, rfl⟩

theorem hasColumn_withColumn (l : RowLayout) (col size offset : Nat) (list : List RowPartition) (c : Nat) :
    (l.withColumn col size offset list).noDBCacheHasColumn c = (decide (c = col) || l.noDBCacheHasColumn c) := by
  by_cases same : c = col
  · subst same
    have long : c < (l.resizeMap c).map.length := by
      rw [resizeMap, length_append, length_replicate]
      omega
    rw [noDBCacheHasColumn, withColumn, getElem?_set_self long, decide_eq_true rfl, Bool.true_or, Option.any_some]
    exact decide_eq_true (by omega)
  · rw [noDBCacheHasColumn, withColumn, getElem?_set_ne (Ne.symm same), decide_eq_false same, Bool.false_or,
      ← l.hasColumn_resizeMap col]
    rfl

end RowLayout

/-! ### The parts -/

/-- A part as the partition list has it. -/
def rowPartition (p : Extent Nat) : RowPartition := ⟨p.size, p.owner.isSome⟩

theorem rowPartition_carve (n size col : Nat) : (carve n size col).map rowPartition =
      if n = size then [⟨size, true⟩] else [⟨size, true⟩, ⟨n - size, false⟩] := by
  rw [carve]
  split <;> rfl

theorem sum_rowPartition (parts : List (Extent Nat)) : ((parts.map rowPartition).map (·.size)).sum = total parts := by
  rw [map_map]
  rfl

theorem free_rowPartition (parts : List (Extent Nat)) :
    (((parts.map rowPartition).filter fun p => !p.used).map (·.size)).sum = free parts := by
  induction parts with
  | nil => rfl
  | cons p parts ih =>
    obtain ⟨n, owner⟩ := p
    cases owner <;> simp_all [rowPartition]

variable {size : Nat}

/-- **First fit** takes the front of a free part that is large enough. -/
theorem fitPartition_eq_some {offset : Nat} {list list' : List RowPartition}
    (fit : fitPartition size list = some (offset, list')) :
    ∃ front n back, list = front ++ ⟨n, false⟩ :: back ∧ size ≤ n ∧ offset = (front.map (·.size)).sum ∧
      list' = front ++ ((if n = size then [⟨size, true⟩] else [⟨size, true⟩, ⟨n - size, false⟩]) ++ back) := by
  induction list generalizing offset list' with
  | nil => cases fit
  | cons p rest ih =>
    rw [fitPartition] at fit
    split at fit
    · rename_i here
      obtain ⟨n, used⟩ := p
      obtain rfl : used = false := here.2
      cases fit
      refine ⟨[], n, rest, rfl, here.1, rfl, ?_⟩
      by_cases whole : n = size <;> simp [whole]
    · obtain ⟨found, fit', same⟩ := Option.map_eq_some_iff.1 fit
      obtain ⟨front, n, back, rfl, fits, start, list⟩ := ih fit'
      cases same
      exact ⟨p :: front, n, back, rfl, fits, by rw [start, map_cons, sum_cons], by
        rw [list, cons_append]⟩

/-- For the parts this is carving. -/
theorem fitPartition_parts {offset : Nat} {parts : List (Extent Nat)} {list : List RowPartition}
    (fit : fitPartition size (parts.map rowPartition) = some (offset, list)) (col : Nat) :
    ∃ front n back, parts = front ++ ⟨n, none⟩ :: back ∧ size ≤ n ∧ offset = total front ∧
      list = (front ++ (carve n size col ++ back)).map rowPartition := by
  obtain ⟨front', n, back', split, fits, start, rfl⟩ := fitPartition_eq_some fit
  obtain ⟨front, rest, rfl, rfl, behind⟩ := map_eq_append_iff.1 split
  obtain ⟨p, back, rfl, isFree, rfl⟩ := map_eq_cons_iff.1 behind
  obtain ⟨m, owner⟩ := p
  obtain ⟨rfl, noOwner⟩ := RowPartition.mk.inj isFree
  obtain rfl : owner = none := by simpa using noOwner
  exact ⟨front, m, back, rfl, fits, by rw [start, sum_rowPartition], by
    rw [map_append, map_append, rowPartition_carve]⟩

/-- First fit fails only if no free part is large enough. -/
theorem fitPartition_ne_none {n : Nat} {front back : List (Extent Nat)} (fits : size ≤ n) :
    fitPartition size ((front ++ ⟨n, none⟩ :: back).map rowPartition) ≠ none := by
  induction front with
  | nil =>
    rw [nil_append, map_cons, fitPartition, if_pos ⟨fits, rfl⟩]
    exact Option.some_ne_none _
  | cons p front ih =>
    rw [cons_append, map_cons, fitPartition]
    split
    · exact Option.some_ne_none _
    · simpa using ih

namespace RowLayout

/-- **A layout is read off a list of parts.** -/
structure Lays (l : RowLayout) (parts : List (Extent Nat)) : Prop where
  list : l.list = parts.map rowPartition
  rowSize : total parts = l.rowSize
  rowFree : free parts = l.rowFree
  cols : ∀ c, c ∈ l.cols ↔ ∃ s ∈ slots 0 parts, s.owner = c
  distinct : l.cols.Nodup
  present : ∀ c, l.noDBCacheHasColumn c = true ↔ c ∈ l.cols
  offset : ∀ s ∈ slots 0 parts, l.offset s.owner = toInt s.offset

theorem lays_noDBCacheInit (rowSize : Nat) : (noDBCacheInit rowSize).Lays [⟨rowSize, none⟩] where
  list := rfl
  rowSize := by simp [noDBCacheInit]
  rowFree := by simp [noDBCacheInit]
  cols := by simp [noDBCacheInit, slots]
  distinct := nodup_nil
  present := by simp [noDBCacheInit, noDBCacheHasColumn]
  offset := by simp [slots]

variable {parts back front : List (Extent Nat)} {col n size rowSize : Nat} {s : RowLayout × List (Nat × Nat)}

/-- Only what can be seen matters. -/
theorem Lays.unchanged {l l' : RowLayout} (lays : l.Lays parts) (same : l.Unchanged l') :
    l'.Lays parts where
  list := same.list.trans lays.list
  rowSize := lays.rowSize.trans same.rowSize.symm
  rowFree := lays.rowFree.trans same.rowFree.symm
  cols := by rw [same.cols]; exact lays.cols
  distinct := by rw [same.cols]; exact lays.distinct
  present := by
    intro c
    rw [same.hasColumn, same.cols]
    exact lays.present c
  offset := by rw [same.offset]; exact lays.offset

/-- **Adding a column** carves a part. -/
theorem Lays.withColumn {l : RowLayout} (lays : l.Lays (front ++ ⟨n, none⟩ :: back)) (fits : size ≤ n)
    (absent : l.noDBCacheHasColumn col = false) :
    (l.withColumn col size (total front) ((front ++ (carve n size col ++ back)).map rowPartition)).Lays
      (front ++ (carve n size col ++ back)) := by
  have new : col ∉ l.cols := fun mem => by
    rw [(lays.present col).2 mem] at absent
    cases absent
  refine ⟨rfl, ?_, ?_, fun c => ?_, ?_, fun c => ?_, fun s mem => ?_⟩
  · refine Eq.trans ?_ lays.rowSize
    simp only [total_append, total_carve fits, total_cons]
  · have := lays.rowFree
    simp only [free_append, free_cons_none] at this
    simp only [free_append, free_carve, RowLayout.withColumn]
    omega
  · rw [RowLayout.withColumn, mem_append, mem_singleton, lays.cols c]
    simp only [mem_slots_carve fits, or_and_right]
    grind
  · exact nodup_append.2 ⟨lays.distinct, pairwise_singleton _ col, fun a mem b same => by
      rw [mem_singleton.1 same]
      exact fun eq => new (eq ▸ mem)⟩
  · rw [hasColumn_withColumn, Bool.or_eq_true, decide_eq_true_eq, lays.present c, RowLayout.withColumn, mem_append,
      mem_singleton, or_comm]
  · rcases (mem_slots_carve fits).1 mem with rfl | old
    · exact update_self ..
    · have other : s.owner ≠ col := fun same => new ((lays.cols col).2 ⟨s, old, same⟩)
      exact (update_of_ne other ..).trans (lays.offset s old)

/-! ### Only adding columns

Then nothing is behind a free part, so the free parts do not fragment: there is one, of size `rowFree`. -/

/-- Nothing is behind a free part. -/
def OwnedFirst (parts : List (Extent Nat)) : Prop :=
  ∃ owned rest, parts = owned ++ rest ∧ (∀ p ∈ owned, p.owner.isSome) ∧ (rest = [] ∨ ∃ k, rest = [⟨k, none⟩])

theorem free_eq_zero {owned : List (Extent Nat)} (all : ∀ p ∈ owned, p.owner.isSome) : free owned = 0 := by
  rw [Parts.free, filter_eq_nil_iff.2 fun p mem => by simp [Option.isSome_iff_ne_none.1 (all p mem)]]
  rfl

/-- The free part is the last one. -/
theorem OwnedFirst.eq (ordered : OwnedFirst (front ++ ⟨n, none⟩ :: back)) :
    (∀ p ∈ front, p.owner.isSome) ∧ back = [] := by
  obtain ⟨owned, rest, same, all, one⟩ := ordered
  induction owned generalizing front with
  | nil =>
    rcases one with rfl | ⟨k, rfl⟩
    · simp at same
    · cases front with
      | nil => exact ⟨fun p mem => absurd mem not_mem_nil, by simpa using (List.cons.inj same).2⟩
      | cons p front => simp at same
  | cons q owned ih =>
    rw [forall_mem_cons] at all
    cases front with
    | nil =>
      rw [← (List.cons.inj same).1] at all
      exact absurd all.1 (by simp)
    | cons p front =>
      obtain ⟨rfl, same'⟩ := List.cons.inj same
      have rest := ih same' all.2
      exact ⟨forall_mem_cons.2 ⟨all.1, rest.1⟩, rest.2⟩

theorem OwnedFirst.carve (ordered : OwnedFirst (front ++ ⟨n, none⟩ :: back)) :
    OwnedFirst (front ++ (carve n size col ++ back)) := by
  obtain ⟨all, rfl⟩ := ordered.eq
  rw [Parts.carve]
  refine ⟨front ++ [⟨size, some col⟩], if n = size then [] else [⟨n - size, none⟩], ?_, fun p mem => ?_, ?_⟩
  · split <;> simp
  · rcases mem_append.1 mem with mem | mem
    · exact all p mem
    · rw [mem_singleton.1 mem]
      rfl
  · split
    · exact .inl rfl
    · exact .inr ⟨_, rfl⟩

/-- **A column that fits by `rowFree` fits.** -/
theorem OwnedFirst.fits (ordered : OwnedFirst parts) (positive : 0 < size) (enough : size ≤ free parts) :
    fitPartition size (parts.map rowPartition) ≠ none := by
  obtain ⟨owned, rest, rfl, all, rfl | ⟨k, rfl⟩⟩ := ordered
  · rw [append_nil, free_eq_zero all] at enough
    omega
  · rw [free_append, free_eq_zero all, free_cons_none, free_nil, zero_add, add_zero] at enough
    exact fitPartition_ne_none enough

/-- One call of `NoDBCacheAddColumn`, with the list of the calls that have succeeded. -/
def addCall (s : RowLayout × List (Nat × Nat)) (call : Nat × Nat) : RowLayout × List (Nat × Nat) :=
  let r := s.1.noDBCacheAddColumn call.1 call.2
  (r.2, if r.1 then s.2 ++ [call] else s.2)

/-- A sequence of calls on a new cache. -/
def addCalls (rowSize : Nat) (calls : List (Nat × Nat)) : RowLayout × List (Nat × Nat) :=
  calls.foldl addCall (noDBCacheInit rowSize, [])

/-- What holds of a layout that columns have only been added to. -/
structure Grown (rowSize : Nat) (s : RowLayout × List (Nat × Nat)) (parts : List (Extent Nat)) : Prop where
  lays : s.1.Lays parts
  ordered : OwnedFirst parts
  rowSize : s.1.rowSize = rowSize
  cols : s.2.map Prod.fst = s.1.cols
  slots : ∀ call ∈ s.2, ∃ s ∈ slots 0 parts, s.owner = call.1 ∧ s.size = call.2
  positive : ∀ call ∈ s.2, 0 < call.2

theorem grown_noDBCacheInit (rowSize : Nat) : Grown rowSize (noDBCacheInit rowSize, []) [⟨rowSize, none⟩] where
  lays := lays_noDBCacheInit rowSize
  ordered := ⟨[], _, rfl, fun _ mem => absurd mem not_mem_nil, .inr ⟨rowSize, rfl⟩⟩
  rowSize := rfl
  cols := rfl
  slots := fun _ mem => absurd mem not_mem_nil
  positive := fun _ mem => absurd mem not_mem_nil

/-- What one call does: it adds the column, or nothing changes. -/
theorem Grown.addCall (grown : Grown rowSize s parts) {call : Nat × Nat} (positive : 0 < call.2) :
    ∃ parts', Grown rowSize (addCall s call) parts' := by
  rcases s.1.noDBCacheAddColumn_cases call.1 call.2 with ⟨l', result, same, -⟩ | ⟨offset, list, result, -, absent, fit⟩
  · refine ⟨parts, ?_⟩
    rw [RowLayout.addCall, result]
    exact ⟨grown.lays.unchanged same, grown.ordered, same.rowSize.trans grown.rowSize, grown.cols.trans same.cols.symm,
      grown.slots, grown.positive⟩
  · rw [grown.lays.list] at fit
    obtain ⟨front, n, back, rfl, fits, rfl, rfl⟩ := fitPartition_parts fit call.1
    refine ⟨front ++ (carve n call.2 call.1 ++ back), ?_⟩
    rw [RowLayout.addCall, result]
    refine ⟨grown.lays.withColumn fits absent, grown.ordered.carve, grown.rowSize, ?_, fun c mem => ?_, fun c mem => ?_⟩
    · simp [grown.cols, RowLayout.withColumn]
    · rcases mem_append.1 mem with old | new
      · obtain ⟨t, here, eq⟩ := grown.slots c old
        exact ⟨t, (mem_slots_carve fits).2 (.inr here), eq⟩
      · rw [mem_singleton.1 new]
        exact ⟨_, (mem_slots_carve fits).2 (.inl rfl), rfl, rfl⟩
    · rcases mem_append.1 mem with old | new
      · exact grown.positive c old
      · rw [mem_singleton.1 new]
        exact positive

/-- Every sequence of calls. -/
theorem exists_grown (rowSize : Nat) {calls : List (Nat × Nat)} (positive : ∀ call ∈ calls, 0 < call.2) :
    ∃ parts, Grown rowSize (addCalls rowSize calls) parts :=
  Lists.foldl_invariant (fun _ s => ∃ parts, Grown rowSize s parts) ⟨_, grown_noDBCacheInit rowSize⟩
    fun mem ⟨_, grown⟩ => grown.addCall (positive _ mem)

/-- **The row layout**, for the columns that have been added with their sizes. -/
structure RowInvariant (l : RowLayout) (added : List (Nat × Nat)) : Prop where
  sum : (l.list.map (·.size)).sum = l.rowSize
  rowFree : ((l.list.filter fun p => !p.used).map (·.size)).sum = l.rowFree
  columns : added.map Prod.fst = l.cols
  distinct : l.cols.Nodup
  present : ∀ c, l.noDBCacheHasColumn c = true ↔ c ∈ l.cols
  inside : ∀ c ∈ added, 0 ≤ l.offset c.1 ∧ l.offset c.1 + c.2 ≤ l.rowSize
  disjoint : ∀ c ∈ added, ∀ d ∈ added, c.1 ≠ d.1 →
    l.offset c.1 + c.2 ≤ l.offset d.1 ∨ l.offset d.1 + d.2 ≤ l.offset c.1

/-- Offsets are those of the slots, as long as they fit an `int`. -/
theorem Grown.offset (grown : Grown rowSize s parts) (small : rowSize ≤ 2 ^ 31) {call : Nat × Nat} (mem : call ∈ s.2) :
    ∃ t ∈ Parts.slots 0 parts, t.owner = call.1 ∧ t.size = call.2 ∧ s.1.offset call.1 = t.offset := by
  obtain ⟨t, here, owner, size⟩ := grown.slots call mem
  have bounds := (bounds_of_mem_slots here).2
  have positive := grown.positive call mem
  have total := grown.lays.rowSize.trans grown.rowSize
  refine ⟨t, here, owner, size, ?_⟩
  rw [← owner, grown.lays.offset t here, toInt_of_lt (by omega)]

theorem Grown.rowInvariant (grown : Grown rowSize s parts) (small : rowSize ≤ 2 ^ 31) : RowInvariant s.1 s.2 where
  sum := by rw [grown.lays.list, sum_rowPartition, grown.lays.rowSize]
  rowFree := by rw [grown.lays.list, free_rowPartition, grown.lays.rowFree]
  columns := grown.cols
  distinct := grown.lays.distinct
  present := grown.lays.present
  inside := by
    intro c mem
    obtain ⟨t, here, -, size, offset⟩ := grown.offset small mem
    have bounds := (bounds_of_mem_slots here).2
    rw [Nat.zero_add, grown.lays.rowSize] at bounds
    omega
  disjoint := by
    intro c memc d memd different
    obtain ⟨t, here, owner, size, offset⟩ := grown.offset small memc
    obtain ⟨t', here', owner', size', offset'⟩ := grown.offset small memd
    have apart := apart_of_mem_slots here here' (by rw [owner, owner']; exact different)
    rw [Slot.Apart] at apart
    omega

/-- A call succeeds exactly if the column is absent and `rowFree` is enough. -/
theorem Grown.succeeds_iff (grown : Grown rowSize s parts) (positive : 0 < size) :
    (s.1.noDBCacheAddColumn col size).1 = true ↔ s.1.noDBCacheHasColumn col = false ∧ size ≤ s.1.rowFree := by
  rcases s.1.noDBCacheAddColumn_cases col size with ⟨l', result, -, why⟩ | ⟨offset, list, result, enough, absent, -⟩
  · rw [result]
    refine iff_of_false (by simp) fun ⟨absent, enough⟩ => ?_
    rcases why with full | there | noFit
    · omega
    · rw [there] at absent
      cases absent
    · rw [grown.lays.list] at noFit
      exact grown.ordered.fits positive (by rw [grown.lays.rowFree]; exact enough) noFit
  · rw [result]
    exact iff_of_true rfl ⟨absent, enough⟩

/-- **The row layout invariant.**  For every row size up to 2 GiB and every sequence of calls with positive
sizes. -/
theorem rowInvariant_addCalls (rowSize : Nat) (small : rowSize ≤ 2 ^ 31) (calls : List (Nat × Nat))
    (positive : ∀ call ∈ calls, 0 < call.2) :
    (addCalls rowSize calls).1.rowSize = rowSize ∧
      RowInvariant (addCalls rowSize calls).1 (addCalls rowSize calls).2 ∧
      ∀ col size, 0 < size →
        (((addCalls rowSize calls).1.noDBCacheAddColumn col size).1 = true ↔
          (addCalls rowSize calls).1.noDBCacheHasColumn col = false ∧ size ≤ (addCalls rowSize calls).1.rowFree) ∧
        (((addCalls rowSize calls).1.noDBCacheAddColumn col size).1 = false →
          (addCalls rowSize calls).1.Unchanged ((addCalls rowSize calls).1.noDBCacheAddColumn col size).2) := by
  obtain ⟨parts, grown⟩ := exists_grown rowSize positive
  refine ⟨grown.rowSize, grown.rowInvariant small, fun col size pos => ⟨grown.succeeds_iff pos, fun failed => ?_⟩⟩
  rcases (addCalls rowSize calls).1.noDBCacheAddColumn_cases col size with ⟨l', result, same, -⟩ | ⟨_, _, result, -⟩
  · rw [result]
    exact same
  · rw [result] at failed
    cases failed

/-- Two data columns and a third that does not fit. -/
theorem rowInvariant_addCalls_two :
    (addCalls 32 [(3, 16), (1, 16), (2, 16)]).2 = [(3, 16), (1, 16)] ∧
      RowInvariant (addCalls 32 [(3, 16), (1, 16), (2, 16)]).1 (addCalls 32 [(3, 16), (1, 16), (2, 16)]).2 :=
  ⟨by decide, (rowInvariant_addCalls 32 (by decide) [(3, 16), (1, 16), (2, 16)] (by decide)).2.1⟩

/-- With a row of more than 2 GiB the second column begins in front of the row. -/
theorem not_rowInvariant_large :
    (addCalls (2 ^ 31 + 1) [(0, 2 ^ 31), (1, 1)]).2 = [(0, 2 ^ 31), (1, 1)] ∧
      (addCalls (2 ^ 31 + 1) [(0, 2 ^ 31), (1, 1)]).1.offset 1 = -2 ^ 31 ∧
      ¬ RowInvariant (addCalls (2 ^ 31 + 1) [(0, 2 ^ 31), (1, 1)]).1 (addCalls (2 ^ 31 + 1) [(0, 2 ^ 31), (1, 1)]).2 := by
  refine ⟨by decide, by decide, fun inv => ?_⟩
  have inside := (inv.inside (1, 1) (by decide)).1
  revert inside
  decide

end RowLayout

end PostgresRaw
