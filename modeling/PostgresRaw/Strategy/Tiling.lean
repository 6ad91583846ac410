import PostgresRaw.Library.Lists
import PostgresRaw.Strategy.Nodes

/-!
# Strategy nodes tile the rows

The nodes of a strategy iterator cover the rows of the file one after the other: first those
between the rows where caches begin or end, then 10000 rows at a time.  `iterate_tiles` says so
for every run of the iterator, whatever `NoDBCaches` holds at each of its calls.
-/

namespace PostgresRaw

open List

/-! ### Interesting rows -/

@[simp] theorem mem_addSortUnique {row x : Nat} {rows : List Nat} :
    x ∈ addSortUnique row rows ↔ x = row ∨ x ∈ rows := by
  induction rows with
  | nil => simp [addSortUnique]
  | cons r rest ih =>
    rw [addSortUnique]
    split
    · rw [mem_cons]
    · split
      · next same =>
        subst same
        simp
      · rw [mem_cons, ih, mem_cons, or_left_comm]

theorem pairwise_addSortUnique {row : Nat} {rows : List Nat} (sorted : rows.Pairwise (· < ·)) :
    (addSortUnique row rows).Pairwise (· < ·) := by
  induction rows with
  | nil => simp [addSortUnique]
  | cons r rest ih =>
    obtain ⟨first, tail⟩ := pairwise_cons.1 sorted
    rw [addSortUnique]
    split
    · next less =>
      refine pairwise_cons.2 ⟨fun x mem => ?_, sorted⟩
      rcases mem_cons.1 mem with rfl | later
      · exact less
      · exact Nat.lt_trans less (first x later)
    · split
      · exact sorted
      · next notLess different =>
        refine pairwise_cons.2 ⟨fun x mem => ?_, ih tail⟩
        rcases mem_addSortUnique.1 mem with rfl | later
        · omega
        · exact first x later

section

variable {D : Type}

/-- The loop of `GetInterestingRows`. -/
private theorem foldl_interesting (caches : List (Cache D)) :
    let rows := caches.foldl
      (fun rows cache =>
        if 0 < cache.usedRows then addSortUnique cache.endRow (addSortUnique cache.startRow rows)
        else rows)
      []
    rows.Pairwise (· < ·) ∧
      ∀ r, r ∈ rows ↔ ∃ cache ∈ caches, 0 < cache.usedRows ∧ (r = cache.startRow ∨ r = cache.endRow) := by
  refine Lists.foldl_invariant (fun (done : List (Cache D)) (rows : List Nat) =>
    rows.Pairwise (· < ·) ∧ ∀ r, r ∈ rows ↔
      ∃ cache ∈ done, 0 < cache.usedRows ∧ (r = cache.startRow ∨ r = cache.endRow)) (by simp) ?_
  rintro done cache rows - ⟨sorted, mem⟩
  split
  · next used =>
    refine ⟨pairwise_addSortUnique (pairwise_addSortUnique sorted), fun r => ?_⟩
    simp only [mem_addSortUnique, mem, mem_append, mem_singleton]
    constructor
    · rintro (rfl | rfl | ⟨other, inside, rest⟩)
      · exact ⟨cache, .inr rfl, used, .inr rfl⟩
      · exact ⟨cache, .inr rfl, used, .inl rfl⟩
      · exact ⟨other, .inl inside, rest⟩
    · rintro ⟨other, inside | rfl, used', same⟩
      · exact .inr (.inr ⟨other, inside, used', same⟩)
      · rcases same with rfl | rfl
        · exact .inr (.inl rfl)
        · exact .inl rfl
  · next unused =>
    refine ⟨sorted, fun r => ?_⟩
    simp only [mem, mem_append, mem_singleton]
    constructor
    · rintro ⟨other, inside, rest⟩
      exact ⟨other, .inl inside, rest⟩
    · rintro ⟨other, inside | rfl, used', same⟩
      · exact ⟨other, inside, used', same⟩
      · exact absurd used' unused

/-- **The interesting rows**, if a cache is in use. -/
theorem getInterestingRows_spec {caches : List (Cache D)} (inUse : ∃ cache ∈ caches, 0 < cache.usedRows) :
    (getInterestingRows caches).Pairwise (· < ·) ∧ ∀ r, r ∈ getInterestingRows caches ↔
        r = 0 ∨ ∃ cache ∈ caches, 0 < cache.usedRows ∧ (r = cache.startRow ∨ r = cache.endRow) := by
  obtain ⟨sorted, mem⟩ := foldl_interesting caches.reverse
  unfold getInterestingRows
  simp only [mem_reverse] at mem
  generalize caches.reverse.foldl _ [] = rows at sorted mem
  have some : rows ≠ [] := by
    obtain ⟨cache, inside, used⟩ := inUse
    exact ne_nil_of_mem ((mem cache.startRow).2 ⟨cache, inside, used, .inl rfl⟩)
  simp only [if_neg some]
  refine ⟨pairwise_addSortUnique sorted, fun r => ?_⟩
  rw [mem_addSortUnique, mem]

theorem getInterestingRows_of_unused {caches : List (Cache D)}
    (unused : ∀ cache ∈ caches, cache.usedRows = 0) : getInterestingRows caches = [] := by
  obtain ⟨-, mem⟩ := foldl_interesting caches.reverse
  unfold getInterestingRows
  simp only [mem_reverse] at mem
  generalize caches.reverse.foldl _ [] = rows at mem
  have none : rows = [] := by
    refine eq_nil_iff_forall_not_mem.2 fun r inside => ?_
    obtain ⟨cache, inside', used, -⟩ := (mem r).1 inside
    have := unused cache inside'
    omega
  simp only [if_pos none]

/-- A strictly increasing list begins with its least element. -/
theorem getD_zero_of_mem_zero {rows : List Nat} (sorted : rows.Pairwise (· < ·)) (mem : 0 ∈ rows) :
    rows.getD 0 0 = 0 := by
  cases rows with
  | nil => rfl
  | cons r rest =>
    rcases mem_cons.1 mem with rfl | later
    · rfl
    · have := (pairwise_cons.1 sorted).1 0 later
      omega

end

/-! ### Tilings -/

/-- Nodes that follow each other without gap or overlap, from a row on. -/
def Tiles : Nat → List Strategy → Prop
  | _, [] => True
  | row, n :: nodes => n.startRow = row ∧ 0 < n.nrows ∧ Tiles (row + n.nrows) nodes

/-- The row behind the nodes. -/
def endOfNodes (row : Nat) (nodes : List Strategy) : Nat := row + (nodes.map (·.nrows)).sum

/-- Nodes between increasing rows. -/
theorem tiles_map {n : Nat} {row : Nat → Nat} {node : Nat → Strategy} (start : ∀ k < n, (node k).startRow = row k)
    (length : ∀ k < n, (node k).nrows = row (k + 1) - row k) (increasing : ∀ k < n, row k < row (k + 1)) :
    Tiles (row 0) ((List.range n).map node) ∧ endOfNodes (row 0) ((List.range n).map node) = row n := by
  induction n generalizing row node with
  | zero => exact ⟨trivial, rfl⟩
  | succ n ih =>
    have first : row 0 < row 1 := increasing 0 (Nat.succ_pos n)
    have size : (node 0).nrows = row 1 - row 0 := length 0 (Nat.succ_pos n)
    have behind : row 0 + (node 0).nrows = row 1 := by
      omega
    obtain ⟨tiles, ends⟩ := @ih (fun k => row (k + 1)) (fun k => node (k + 1))
      (fun k less => start (k + 1) (by omega)) (fun k less => length (k + 1) (by omega))
      (fun k less => increasing (k + 1) (by omega))
    rw [range_succ_eq_map, map_cons, map_map]
    refine ⟨⟨start 0 (Nat.succ_pos n), ?_, ?_⟩, ?_⟩
    · omega
    · rw [behind]
      exact tiles
    · rw [endOfNodes, map_cons, sum_cons, ← add_assoc, behind]
      exact ends

section

variable {D : Type}

/-- `BuildStrategy` cuts the rows it is given into nodes. -/
theorem buildStrategy_tiles (byValue : Nat → Bool) (q : QueryInfo) {rows : List Nat}
    (sorted : rows.Pairwise (· < ·)) (caches : List (Cache D)) :
    Tiles (rows.getD 0 0) (buildStrategy byValue q rows caches).1 ∧
      endOfNodes (rows.getD 0 0) (buildStrategy byValue q rows caches).1 = rows.getD (rows.length - 1) 0 :=
  @tiles_map (rows.length - 1) (fun k => rows.getD k 0) _
    (fun k _ => strategyNode_startRow ..) (fun k _ => strategyNode_nrows ..)
    fun k less => by
      have here : k < rows.length := by omega
      have next : k + 1 < rows.length := by omega
      rw [getD_eq_getElem?_getD, getD_eq_getElem?_getD, getElem?_eq_getElem here, getElem?_eq_getElem next]
      exact pairwise_iff_getElem.1 sorted k (k + 1) here next (Nat.lt_add_one k)

/-! ### Runs of the iterator -/

/-- The nodes that an iterator returns: `NoDBScanStrategyIteratorGet` and
`NoDBScanStrategyIteratorNext` alternate, and each call of the former finds some content of
`NoDBCaches`. -/
def iterate (byValue : Nat → Bool) : StrategyIterator → List (List (Cache D)) → List Strategy
  | _, [] => []
  | it, caches :: calls =>
    let (it, _) := noDBScanStrategyIteratorGet byValue it caches
    it.current :: iterate byValue (noDBScanStrategyIteratorNext it) calls

/-- The nodes that are left tile the rows from `row` on, and the next one is planned behind
them. -/
structure StrategyIterator.Ahead (it : StrategyIterator) (row : Nat) : Prop where
  inside : it.cur ≤ it.strategy.length
  tiles : Tiles row (it.strategy.drop it.cur)
  next : it.nextRow = endOfNodes row (it.strategy.drop it.cur)

/-- The iterator of a strategy whose nodes tile the rows, at its first node. -/
theorem StrategyIterator.Ahead.first {q : QueryInfo} {nodes : List Strategy} {row : Nat}
    (tiles : Tiles row nodes) (none : nodes = [] → row = 0) : (⟨q, nodes, 0⟩ : StrategyIterator).Ahead row := by
  refine ⟨Nat.zero_le _, tiles, ?_⟩
  rw [drop_zero]
  -- The last node ends where all of them together do.
  have last : ∀ (nodes : List Strategy) (row : Nat), nodes ≠ [] → Tiles row nodes →
      nodes.getLast?.elim 0 (fun node => node.startRow + node.nrows) = endOfNodes row nodes := by
    intro nodes
    induction nodes with
    | nil => intro row some; exact absurd rfl some
    | cons n rest ih =>
      rintro row - ⟨start, -, tiles⟩
      cases rest with
      | nil => simp [endOfNodes, start]
      | cons m rest =>
        rw [getLast?_cons_cons, ih (row + n.nrows) (by simp) tiles]
        simp only [endOfNodes, map_cons, sum_cons]
        omega
  by_cases empty : nodes = []
  · subst empty
    rw [none rfl]
    rfl
  · exact last nodes row empty tiles

theorem ahead_noDBScanStrategyIterator (byValue : Nat → Bool) (q : QueryInfo) (caches : List (Cache D)) :
    (noDBScanStrategyIterator byValue q caches).1.Ahead 0 := by
  unfold noDBScanStrategyIterator
  split
  · exact .first trivial fun _ => rfl
  · next some =>
    by_cases inUse : ∃ cache ∈ caches, 0 < cache.usedRows
    · obtain ⟨sorted, mem⟩ := getInterestingRows_spec inUse
      obtain ⟨tiles, -⟩ := buildStrategy_tiles byValue q sorted caches
      rw [getD_zero_of_mem_zero sorted ((mem 0).2 (.inl rfl))] at tiles
      exact .first tiles fun _ => rfl
    · refine absurd (getInterestingRows_of_unused fun cache mem => ?_) some
      by_contra used
      exact inUse ⟨cache, mem, Nat.pos_of_ne_zero used⟩

theorem StrategyIterator.Ahead.get {it : StrategyIterator} {row : Nat} (ahead : it.Ahead row)
    (byValue : Nat → Bool) (caches : List (Cache D)) : (noDBScanStrategyIteratorGet byValue it caches).1.Ahead row ∧
      (noDBScanStrategyIteratorGet byValue it caches).1.cur <
        (noDBScanStrategyIteratorGet byValue it caches).1.strategy.length := by
  unfold noDBScanStrategyIteratorGet
  split
  · next ended =>
    have here : it.nextRow = row := by
      rw [ahead.next, ended, drop_length]
      rfl
    rw [here]
    have sorted : [row, row + defaultRows].Pairwise (· < ·) := by
      simp [defaultRows]
    refine ⟨.first (buildStrategy_tiles byValue it.queryInfo sorted caches).1 fun none => ?_, ?_⟩
    · simp [buildStrategy] at none
    · simp [buildStrategy]
  · next notEnded => exact ⟨ahead, Nat.lt_of_le_of_ne ahead.inside notEnded⟩

theorem StrategyIterator.Ahead.next_node {it : StrategyIterator} {row : Nat} (ahead : it.Ahead row)
    (inside : it.cur < it.strategy.length) : it.current.startRow = row ∧ 0 < it.current.nrows ∧
      (noDBScanStrategyIteratorNext it).Ahead (row + it.current.nrows) := by
  have split := drop_eq_getElem_cons inside
  have current : it.current = it.strategy[it.cur] := by
    rw [current, getD_eq_getElem?_getD, getElem?_eq_getElem inside, Option.getD_some]
  have tiles := ahead.tiles
  rw [split, ← current] at tiles
  obtain ⟨start, positive, rest⟩ := tiles
  refine ⟨start, positive, inside, rest, ?_⟩
  have next := ahead.next
  rw [split, ← current, endOfNodes, map_cons, sum_cons, ← add_assoc] at next
  exact next

/-- **Strategy nodes tile the rows**: every node has rows, the first begins at row 0, and each
begins where the one before ended. -/
theorem iterate_tiles (byValue : Nat → Bool) (q : QueryInfo) (caches : List (Cache D))
    (calls : List (List (Cache D))) :
    Tiles 0 (iterate byValue (noDBScanStrategyIterator byValue q caches).1 calls) := by
  suffices run : ∀ (it : StrategyIterator) (row : Nat), it.Ahead row → Tiles row (iterate byValue it calls) from
    run _ 0 (ahead_noDBScanStrategyIterator byValue q caches)
  induction calls with
  | nil => intro it row _; exact trivial
  | cons caches calls ih =>
    intro it row ahead
    obtain ⟨ahead', inside⟩ := ahead.get byValue caches
    obtain ⟨start, positive, rest⟩ := ahead'.next_node inside
    exact ⟨start, positive, ih _ _ rest⟩

end

end PostgresRaw
