import PostgresRaw.Scan.Phase
import PostgresRaw.Strategy.Covering

/-!
# Growing caches

A cache grows when `BuildMatrix` marks its columns in a node behind its end.  At the end of the
node its used rows are set as if it had been written all the way, so the rows between its end and
the node must be written as well.  Nothing in `GetCachesCanGrow` checks this; it follows from the
rest of the planning if the caches are tidy (`grows_without_hole`), and not otherwise
(`not_growsWithoutHole_spanned`).
-/

namespace PostgresRaw

open List

section

variable {D : Type}

variable {caches : List (Cache D)}

/-- A cache marked behind its end is marked for all its columns, in the node and in the nodes of
all rows between its end and the node. -/
def GrowsWithoutHole (rows : List Nat) (p : Planning D) : Prop :=
  ∀ k < rows.length - 1, ∀ {t c j cache}, (p.matrix k c).mark t = .add j → p.caches[j]? = some cache →
    0 < cache.usedRows → cache.endRow ≤ rows.getD k 0 →
      (∀ d ∈ cache.cols, (p.matrix k d).mark t = .add j) ∧
      ∀ r, cache.endRow ≤ r → r < rows.getD k 0 → ∃ k' < k, rows.getD k' 0 ≤ r ∧ r < rows.getD (k' + 1) 0 ∧
        ∀ d ∈ cache.cols, (p.matrix k' d).mark t = .add j

/-! ### One call of `BuildMatrix` -/

/-- Tidy caches and rows that a plan can be made for: caches begin and end at them or before, and
what is to be written is there before the first one. -/
structure Plannable (q : QueryInfo) (rows : List Nat) (caches : List (Cache D)) : Prop where
  increasing : rows.Pairwise (· < ·)
  shaped : AllShaped caches
  tidy : ∀ t, (lane caches t).Tidy
  aligned : ∀ t, (lane caches t).Aligned (cutsOf rows increasing)
  before : ∀ {t c r}, c ∈ q.write t → r < rows.getD 0 0 → (lane caches t).Covers c r

namespace Plannable

variable {q : QueryInfo} {rows : List Nat} {base caches : List (Cache D)}

theorem built (plannable : Plannable q rows base) : Built q plannable.increasing base (buildMatrix q rows base) :=
  buildMatrix_spec q plannable.increasing plannable.shaped plannable.tidy plannable.aligned

theorem ready (plannable : Plannable q rows base) (t : CacheType) :
    BookPlan.Ready (lane base t) (cutsOf rows plannable.increasing) (· ∈ q.write t)
      ((buildMatrix q rows base).plan t) where
  tidy := plannable.tidy t
  aligned := plannable.aligned t
  before writes := plannable.before writes
  planned := plannable.built.planned t

/-- A call of `BuildMatrix` on tidy caches. -/
theorem growsWithoutHole (plannable : Plannable q rows base) : GrowsWithoutHole rows (buildMatrix q rows base) := by
  intro k inside t c j cache isAdd here used behind
  have mark : ((buildMatrix q rows base).plan t).mark k c = some j := Mark.added_eq_some.2 isAdd
  have start : ((buildMatrix q rows base).plan t).start j = cache.startRow := lane_start here
  have stop : ((buildMatrix q rows base).plan t).stop j = cache.endRow := lane_stop here
  obtain ⟨-, -, -, has, -⟩ := (plannable.ready t).planned.add mark
  have type : cache.type = t := ((lane_has here).1 has).1
  have hasAll : ∀ d ∈ cache.cols, ((buildMatrix q rows base).plan t).has j d := fun d mem =>
    (lane_has here).2 ⟨type, mem⟩
  have row : (cutsOf rows plannable.increasing).row k = rows.getD k 0 := rfl
  rcases (plannable.ready t).planned.how mark with ⟨-, begins | rows'⟩ | ⟨-, grows⟩
  · rw [Cache.endRow] at behind
    omega
  · omega
  · refine ⟨fun d mem => Mark.added_eq_some.1 (grows.all (hasAll d mem) (Nat.le_refl k) (by omega)),
      fun r first last => ?_⟩
    have rising := (cutsOf rows plannable.increasing).increasing (Nat.lt_add_one k) inside
    obtain ⟨k', le, ⟨lower, upper⟩, all⟩ := (plannable.ready t).grown_rows mark grows (by omega)
      (by omega : r < (cutsOf rows plannable.increasing).row (k + 1))
    refine ⟨k', ?_, lower, upper, fun d mem => Mark.added_eq_some.1 (all (hasAll d mem))⟩
    by_contra same
    obtain rfl : k' = k := by omega
    omega

end Plannable

/-! ### Plans one after the other -/

/-- The interesting rows of tidy caches. -/
theorem plannable_interesting (q : QueryInfo) (shaped : AllShaped caches) (tidy : ∀ t, (lane caches t).Tidy) :
    Plannable q (getInterestingRows caches) caches := by
  have used : ∀ {t i c}, (lane caches t).has i c → ∃ cache ∈ caches, caches[i]? = some cache ∧
      0 < cache.usedRows := by
    rintro t i c ⟨cache, here, type, mem⟩
    have range := (tidy t).nonempty ((lane_has here).2 ⟨type, mem⟩)
    rw [lane_start here, lane_stop here, Cache.endRow] at range
    exact ⟨cache, mem_of_getElem? here, here, by omega⟩
  by_cases inUse : ∃ cache ∈ caches, 0 < cache.usedRows
  · obtain ⟨sorted, interesting⟩ := getInterestingRows_spec inUse
    have cut : ∀ {i : Nat} {cache : Cache D}, cache ∈ caches → 0 < cache.usedRows → ∀ {r},
        r = cache.startRow ∨ r = cache.endRow → ∃ a, a < (getInterestingRows caches).length ∧
          (cutsOf _ sorted).row a = r := by
      intro i cache mem used r isEnd
      obtain ⟨a, here⟩ := getElem?_of_mem ((interesting r).2 (.inr ⟨cache, mem, used, isEnd⟩))
      exact ⟨a, (List.getElem?_eq_some_iff.1 here).1, row_of_getElem? sorted here⟩
    refine ⟨sorted, shaped, tidy, fun t => ⟨fun {i c} has => ?_, fun {i c} has => ?_⟩, fun {t c r} _ before => ?_⟩
    · obtain ⟨cache, mem, here, used⟩ := used has
      obtain ⟨a, inside, starts⟩ := cut (i := i) mem used (.inl rfl)
      obtain ⟨a', inside', ends⟩ := cut (i := i) mem used (.inr rfl)
      rw [lane_start here]
      have less : a < a' := (cutsOf _ sorted).lt_of_row_lt (show a ≤ _ - 1 by omega) (by
        rw [starts, ends, Cache.endRow]
        omega)
      exact .inr ⟨a, show a < _ - 1 by omega, starts.symm⟩
    · obtain ⟨cache, mem, here, used⟩ := used has
      obtain ⟨a, inside, ends⟩ := cut (i := i) mem used (.inr rfl)
      rw [lane_stop here]
      exact .inr ⟨a, show a ≤ _ - 1 by omega, ends.symm⟩
    · rw [getD_zero_of_mem_zero sorted ((interesting 0).2 (.inl rfl))] at before
      omega
  · have none : ∀ {t i c}, ¬ (lane caches t).has i c := by
      intro t i c has
      obtain ⟨cache, mem, -, used⟩ := used has
      exact inUse ⟨cache, mem, used⟩
    have unused : getInterestingRows caches = [] := getInterestingRows_of_unused fun cache mem => by
      by_contra used
      exact inUse ⟨cache, mem, Nat.pos_of_ne_zero used⟩
    rw [unused]
    exact ⟨.nil, shaped, tidy, fun t => ⟨fun has => absurd has none, fun has => absurd has none⟩,
      fun _ before => absurd before (Nat.not_lt_zero _)⟩

/-- Where the execution of a plan has got to: the nodes before `j` are done. -/
structure NodesDone (byValue : Nat → Bool) (q : QueryInfo) (rows : List Nat) (base : List (Cache D)) (j : Nat)
    (s : StrategyIterator × List (Cache D)) : Prop where
  plannable : Plannable q rows base
  inside : j ≤ rows.length - 1
  firstRow : rows.length ≤ 1 → rows.getD 0 0 = 0
  iterator : s.1 = ⟨q, (buildStrategy byValue q rows base).1, j⟩
  shape : SameShape (buildMatrix q rows base).caches s.2
  executed : ∀ t, BookPlan.Executed (cutsOf rows plannable.increasing) ((buildMatrix q rows base).plan t)
    (rows.getD j 0) (lane s.2 t).stop

namespace NodesDone

variable {byValue : Nat → Bool} {q : QueryInfo} {rows : List Nat} {base : List (Cache D)} {j : Nat}
  {s : StrategyIterator × List (Cache D)}

variable (byValue) in
theorem start (plannable : Plannable q rows base) (firstRow : rows.length ≤ 1 → rows.getD 0 0 = 0) :
    NodesDone byValue q rows base 0
      (⟨q, (buildStrategy byValue q rows base).1, 0⟩, (buildStrategy byValue q rows base).2) :=
  ⟨plannable, Nat.zero_le _, firstRow, rfl, .refl _, fun _ => BookPlan.executed_zero⟩

/-- The next plan is made for the rows behind the last node. -/
theorem nextRow (done : NodesDone byValue q rows base j s) : s.1.nextRow = rows.getD (rows.length - 1) 0 := by
  obtain ⟨tiles, ends⟩ := buildStrategy_tiles byValue q done.plannable.increasing base
  have ahead : (⟨q, (buildStrategy byValue q rows base).1, 0⟩ : StrategyIterator).Ahead (rows.getD 0 0) := by
    refine .first tiles fun none => done.firstRow ?_
    have : (buildStrategy byValue q rows base).1.length = 0 := by rw [none]; rfl
    simp only [buildStrategy, length_map, length_range] at this
    omega
  rw [done.iterator]
  exact ahead.next.trans ends

/-- **Behind the last node** another plan can be made. -/
theorem plannable_next (done : NodesDone byValue q rows base (rows.length - 1) s) :
    Plannable q [s.1.nextRow, s.1.nextRow + defaultRows] s.2 := by
  have increasing : [s.1.nextRow, s.1.nextRow + defaultRows].Pairwise (· < ·) := by
    simp [defaultRows]
  have bound : ∀ {a}, a ≤ rows.length - 1 →
      (cutsOf rows done.plannable.increasing).row a ≤ rows.getD (rows.length - 1) 0 := fun le =>
    (cutsOf rows done.plannable.increasing).row_le le le_rfl
  have tidy : ∀ t, (lane s.2 t).Tidy := by
    intro t
    rw [done.shape.lane_after t]
    refine (done.plannable.ready t).tidy_after (fun {a b} inside writes behind => ?_) (done.executed t)
      (bound (Nat.zero_le _)) le_rfl
    have := (cutsOf rows done.plannable.increasing).increasing (show a < rows.length - 1 from inside)
      le_rfl
    exact absurd behind (not_le.2 this)
  -- No cache ends behind the last node.
  have ends : ∀ {t i c}, (lane s.2 t).has i c → (lane s.2 t).stop i ≤ s.1.nextRow := by
    intro t i c has
    rw [done.nextRow]
    have has' := done.shape.lane_has.2 has
    have le := BookPlan.Ready.stop_le (done.executed t) has'
    have old : ((buildMatrix q rows base).plan t).stop i ≤ rows.getD (rows.length - 1) 0 := by
      by_cases known : ∃ d, (lane base t).has i d
      · obtain ⟨d, old⟩ := known
        rw [((done.plannable.ready t).planned.same old).2]
        rcases (done.plannable.aligned t).stops old with early | ⟨a, le, ends⟩
        · exact le_trans early (bound (Nat.zero_le _))
        · rw [ends]
          exact bound le
      · have fresh := (done.plannable.ready t).planned.fresh has' (not_exists.1 known)
        obtain ⟨a, inside, first, -⟩ := (done.plannable.ready t).registered has' (not_exists.1 known c)
        rw [fresh, first]
        exact bound (le_of_lt inside)
    omega
  refine ⟨increasing, done.shape.allShaped done.plannable.built.shaped, tidy, fun t => ?_, fun {t c r} writes before => ?_⟩
  · refine ⟨fun {i c} has => .inl ?_, fun {i c} has => .inl (ends has)⟩
    have := (tidy t).nonempty has
    have := ends has
    change (lane s.2 t).start i ≤ s.1.nextRow
    omega
  · rw [done.shape.lane_after t]
    refine (done.plannable.ready t).covers_of_lt (done.executed t) le_rfl writes ?_
    have before : r < s.1.nextRow := before
    rwa [done.nextRow] at before

end NodesDone

/-- `BuildStrategy` without rows does nothing. -/
theorem buildStrategy_nil (byValue : Nat → Bool) (q : QueryInfo) (caches : List (Cache D)) :
    buildStrategy byValue q [] caches = ([], caches) := by
  have unmarked : growToLastRow q Matrix.initial 0 0 caches = caches :=
    growToLastRow_of_unmarked q 0 caches nofun
  exact congrArg (([] : List Strategy), ·) unmarked

/-- A new iterator is before the first node of its plan. -/
theorem nodesDone_noDBScanStrategyIterator (byValue : Nat → Bool) (q : QueryInfo)
    (plannable : Plannable q (getInterestingRows caches) caches) :
    NodesDone byValue q (getInterestingRows caches) caches 0 (noDBScanStrategyIterator byValue q caches) := by
  have firstRow : (getInterestingRows caches).getD 0 0 = 0 := by
    by_cases inUse : ∃ cache ∈ caches, 0 < cache.usedRows
    · obtain ⟨sorted, interesting⟩ := getInterestingRows_spec inUse
      exact getD_zero_of_mem_zero sorted ((interesting 0).2 (.inl rfl))
    · rw [getInterestingRows_of_unused fun cache mem => by
        by_contra used
        exact inUse ⟨cache, mem, Nat.pos_of_ne_zero used⟩]
      rfl
  have start := NodesDone.start byValue plannable fun _ => firstRow
  unfold noDBScanStrategyIterator
  split
  · next none =>
    rw [none, buildStrategy_nil] at start
    rwa [none]
  · exact start

/-- `NoDBScanStrategyIteratorGet`, all rows of the node, and `NoDBUpdateStrategy` up to the next
`NoDBScanStrategyIteratorGet`. -/
def executeNode (byValue : Nat → Bool) (s : StrategyIterator × List (Cache D)) :
    StrategyIterator × List (Cache D) :=
  let (it, caches) := noDBScanStrategyIteratorGet byValue s.1 s.2
  (noDBScanStrategyIteratorNext it,
    noDBFinalizeStrategy it.current (it.current.startRow + it.current.nrows) caches)

section

variable {byValue : Nat → Bool} {q : QueryInfo} {rows : List Nat} {base : List (Cache D)} {j : Nat}
  {s : StrategyIterator × List (Cache D)}

theorem length_buildStrategy : (buildStrategy byValue q rows base).1.length = rows.length - 1 := by
  simp [buildStrategy]

/-- A node that is there is executed. -/
theorem NodesDone.execute (done : NodesDone byValue q rows base j s) (more : j < rows.length - 1) :
    NodesDone byValue q rows base (j + 1) (executeNode byValue s) := by
  have rising : rows.getD j 0 < rows.getD (j + 1) 0 :=
    (cutsOf rows done.plannable.increasing).increasing (Nat.lt_add_one j) more
  have inside : j < (buildStrategy byValue q rows base).1.length := by
    rw [length_buildStrategy]
    exact more
  have notEnded : s.1.cur ≠ s.1.strategy.length := by
    rw [done.iterator]
    exact ne_of_lt inside
  have get : noDBScanStrategyIteratorGet byValue s.1 s.2 = s := by
    unfold noDBScanStrategyIteratorGet
    rw [if_neg notEnded]
  have current : s.1.current = strategyNode byValue q (rows.getD j 0)
      (rows.getD (j + 1) 0 - rows.getD j 0) ((buildMatrix q rows base).matrix j) := by
    rw [done.iterator, StrategyIterator.current, getD_eq_getElem?_getD]
    simp [buildStrategy, more]
  have step : executeNode byValue s = (noDBScanStrategyIteratorNext s.1,
      noDBFinalizeStrategy s.1.current (s.1.current.startRow + s.1.current.nrows) s.2) := by
    unfold executeNode
    rw [get]
  have pos : rows.getD j 0 + (rows.getD (j + 1) 0 - rows.getD j 0) = rows.getD (j + 1) 0 := by omega
  rw [step, current, strategyNode_startRow, strategyNode_nrows, pos]
  refine ⟨done.plannable, more, done.firstRow, by rw [done.iterator]; rfl,
    done.shape.trans (sameShape_noDBFinalizeStrategy ..), fun t => ?_⟩
  exact done.plannable.built.executed_finalize more done.shape (done.executed t) rising le_rfl

/-- Behind the last node one is planned. -/
theorem NodesDone.executeNode_next (done : NodesDone byValue q rows base (rows.length - 1) s) :
    NodesDone byValue q [s.1.nextRow, s.1.nextRow + defaultRows] s.2 1 (executeNode byValue s) := by
  have planned := NodesDone.start byValue done.plannable_next (by simp)
  have ended : s.1.cur = s.1.strategy.length := by
    rw [done.iterator]
    exact length_buildStrategy.symm
  have get : noDBScanStrategyIteratorGet byValue s.1 s.2 =
      (⟨q, (buildStrategy byValue q [s.1.nextRow, s.1.nextRow + defaultRows] s.2).1, 0⟩,
        (buildStrategy byValue q [s.1.nextRow, s.1.nextRow + defaultRows] s.2).2) := by
    unfold noDBScanStrategyIteratorGet
    rw [if_pos ended]
    have same : s.1.queryInfo = q := by rw [done.iterator]
    rw [same]
  have executed := planned.execute (by simp)
  -- `NoDBScanStrategyIteratorGet` does nothing the second time.
  unfold executeNode at executed ⊢
  rw [get]
  exact executed

end

/-- **Growing a cache leaves no hole** if the caches are tidy when the iterator is created: in no
call of `BuildMatrix` that the iterator makes while its nodes are executed. -/
theorem grows_without_hole (byValue : Nat → Bool) (q : QueryInfo) {caches : List (Cache D)}
    (shaped : AllShaped caches) (tidy : ∀ t, (lane caches t).Tidy) :
    GrowsWithoutHole (getInterestingRows caches) (buildMatrix q (getInterestingRows caches) caches) ∧
      ∀ n, let s := (executeNode byValue)^[n] (noDBScanStrategyIterator byValue q caches)
        s.1.cur = s.1.strategy.length →
          GrowsWithoutHole [s.1.nextRow, s.1.nextRow + defaultRows]
            (buildMatrix q [s.1.nextRow, s.1.nextRow + defaultRows] s.2) := by
  have first := plannable_interesting q shaped tidy
  refine ⟨first.growsWithoutHole, fun n => ?_⟩
  have run : ∃ rows base j, NodesDone byValue q rows base j
      ((executeNode byValue)^[n] (noDBScanStrategyIterator byValue q caches)) := by
    induction n with
    | zero => exact ⟨_, _, 0, nodesDone_noDBScanStrategyIterator byValue q first⟩
    | succ n ih =>
      obtain ⟨rows, base, j, done⟩ := ih
      rw [Function.iterate_succ_apply']
      rcases Nat.lt_or_eq_of_le done.inside with more | rfl
      · exact ⟨rows, base, j + 1, done.execute more⟩
      · exact ⟨_, _, 1, done.executeNode_next⟩
  obtain ⟨rows, base, j, done⟩ := run
  intro s ended
  obtain rfl : j = rows.length - 1 := by
    have : s.1.cur = s.1.strategy.length := ended
    rw [show s.1 = ⟨q, (buildStrategy byValue q rows base).1, j⟩ from done.iterator] at this
    exact this.trans length_buildStrategy
  exact done.plannable_next.growsWithoutHole

/-- Caches of a type that are in use and have a column in common have disjoint rows. -/
def UsedDisjoint (caches : List (Cache D)) : Prop :=
  ∀ {i j : Nat} {cache cache' : Cache D} {c : Nat}, i ≠ j → caches[i]? = some cache → caches[j]? = some cache' →
    cache.type = cache'.type → c ∈ cache.cols → c ∈ cache'.cols → 0 < cache.usedRows → 0 < cache'.usedRows →
      cache.endRow ≤ cache'.startRow ∨ cache'.endRow ≤ cache.startRow

end

/-! ### Disjoint caches are not enough -/

theorem tidy_columnRows (t : CacheType) : (lane [columnRows 0 0 3] t).Tidy := by
  have only : ∀ {i c}, (lane [columnRows 0 0 3] t).has i c → i = 0 ∧ t = .data ∧ c = 0 := by
    rintro i c ⟨cache, here, type, mem⟩
    rw [getElem?_singleton] at here
    split at here
    · next zero =>
      obtain rfl := Option.some.inj here
      exact ⟨zero, type.symm, mem_singleton.1 mem⟩
    · cases here
  have claims : ∀ {i c r}, (lane [columnRows 0 0 3] t).Claims i c r ↔ i = 0 ∧ t = .data ∧ c = 0 ∧ r < 3 := by
    intro i c r
    constructor
    · rintro ⟨has, -, last⟩
      obtain ⟨rfl, type, col⟩ := only has
      exact ⟨rfl, type, col, last⟩
    · rintro ⟨rfl, rfl, rfl, last⟩
      exact ⟨⟨_, rfl, rfl, mem_singleton_self 0⟩, Nat.zero_le r, last⟩
  refine ⟨fun has => ?_, fun first second => ?_, ?_⟩
  · obtain ⟨rfl, -⟩ := only has
    exact Nat.zero_lt_succ 2
  · rw [(claims.1 first).1, (claims.1 second).1]
  · rintro c r r' ⟨i, claimed⟩ le
    obtain ⟨rfl, type, col, last⟩ := claims.1 claimed
    exact ⟨0, claims.2 ⟨rfl, type, col, by omega⟩⟩

theorem grows_without_hole_columnRows :
    GrowsWithoutHole (getInterestingRows [columnRows 0 0 3])
      (buildMatrix ⟨0, [], [0], [0], [0]⟩ (getInterestingRows [columnRows 0 0 3]) [columnRows 0 0 3]) := by
  have shaped : AllShaped [columnRows 0 0 3] := by
    intro cache mem
    rw [mem_singleton.1 mem]
    exact ⟨packed_columnRows 0 0 3, by decide⟩
  exact (grows_without_hole (fun _ => true) ⟨0, [], [0], [0], [0]⟩ shaped tidy_columnRows).1

/-- Column 3 is in a cache from row 1 on.  The query adds it to the cache of column 2, which spans
that cache, and at row 3 the cache from row 1 is grown although its row 2 is not written. -/
theorem not_growsWithoutHole_spanned :
    let caches := [columnRows 2 0 3, columnRows 3 1 1, columnRows 4 0 4]
    AllShaped caches ∧ UsedDisjoint caches ∧
      ¬ GrowsWithoutHole (getInterestingRows caches)
        (buildMatrix ⟨0, [], [3], [3], []⟩ (getInterestingRows caches) caches) := by
  intro caches
  refine ⟨?_, ?_, fun growsWell => ?_⟩
  · intro cache mem
    simp only [caches, mem_cons, not_mem_nil, or_false] at mem
    rcases mem with rfl | rfl | rfl
    · exact ⟨packed_columnRows 2 0 3, by decide⟩
    · exact ⟨packed_columnRows 3 1 1, by decide⟩
    · exact ⟨packed_columnRows 4 0 4, by decide⟩
  · have col : ∀ {i : Nat} {cache : Cache Nat}, caches[i]? = some cache → cache.cols = [i + 2] := by
      intro i cache here
      match i, here with
      | 0, here => obtain rfl := Option.some.inj here; rfl
      | 1, here => obtain rfl := Option.some.inj here; rfl
      | 2, here => obtain rfl := Option.some.inj here; rfl
    intro i j cache cache' c different here here' _ mem mem'
    rw [col here, mem_singleton] at mem
    rw [col here', mem_singleton] at mem'
    omega
  · have planned : ((buildMatrix ⟨0, [], [3], [3], []⟩ (getInterestingRows caches) caches).caches[1]?.map
        fun cache => (cache.usedRows, cache.endRow, cache.cols)) = some (1, 2, [3]) := by
      decide +kernel
    obtain ⟨cache, here, same⟩ := Option.map_eq_some_iff.1 planned
    simp only [Prod.mk.injEq] at same
    obtain ⟨used, ends, cols⟩ := same
    obtain ⟨-, filled⟩ := growsWell 3 (by decide +kernel)
      (show ((buildMatrix ⟨0, [], [3], [3], []⟩ (getInterestingRows caches) caches).matrix 3 3).mark .data =
        .add 1 by decide +kernel) here (by omega) (by rw [ends]; decide +kernel)
    obtain ⟨k, less, first, last, marked⟩ := filled 2 (Nat.le_of_eq ends) (by decide +kernel)
    have inNode : ∀ k < 3, (getInterestingRows caches).getD k 0 ≤ 2 →
        2 < (getInterestingRows caches).getD (k + 1) 0 → k = 2 := by
      decide +kernel
    obtain rfl := inNode k less first last
    have toSpanning : ((buildMatrix ⟨0, [], [3], [3], []⟩ (getInterestingRows caches) caches).matrix 2 3).mark
        .data = .add 0 := by
      decide +kernel
    have toGrown := marked 3 (by rw [cols]; decide)
    rw [toSpanning] at toGrown
    cases toGrown

end PostgresRaw
