import PostgresRaw.Strategy.Misses

/-!
# What planning registers

The second pass of `BuildMatrix` registers columns in caches and marks the nodes that write
them.  Seen through `lane`, growing a cache, adding a column and creating a cache are the two
rules of a coherent plan (`BookPlan.Planned.grow` and `BookPlan.Planned.open_`), so the second pass ends
with one (`handleMisses_spec`); `buildMatrix_spec` adds what the other passes do.
-/

namespace PostgresRaw

open List

section

variable {D : Type}

/-! ### The plan of a matrix -/

/-- The rows of a matrix as cuts. -/
def cutsOf (rows : List Nat) (increasing : rows.Pairwise (· < ·)) : Cuts where
  row a := rows.getD a 0
  count := rows.length - 1
  increasing := by
    intro a a' less inside
    have less' : a' < rows.length := by omega
    have less'' : a < rows.length := by omega
    simp only [getD_eq_getElem?_getD, getElem?_eq_getElem less',
      getElem?_eq_getElem less'', Option.getD_some]
    exact pairwise_iff_getElem.1 increasing a a' less'' less' less

theorem row_of_getElem? {rows : List Nat} (increasing : rows.Pairwise (· < ·)) {a r : Nat}
    (here : rows[a]? = some r) : (cutsOf rows increasing).row a = r := by
  change rows.getD a 0 = r
  rw [getD_eq_getElem?_getD, here, Option.getD_some]

theorem row_lt_of_getElem? {rows : List Nat} (increasing : rows.Pairwise (· < ·)) {a r : Nat} (here : rows[a]? = some r)
    (less : i < a) : (cutsOf rows increasing).row i < r := by
  rw [← row_of_getElem? increasing here]
  have inside := (List.getElem?_eq_some_iff.1 here).1
  exact (cutsOf rows increasing).increasing less (show a ≤ rows.length - 1 by omega)

/-- The cache that a mark says to write. -/
def Mark.added : Mark → Option Nat
  | .add i => some i
  | _ => none

theorem Mark.added_eq_some {m : Mark} : m.added = some i ↔ m = .add i := by
  cases m <;> simp [Mark.added]

/-- The plan for the caches of a type. -/
def Planning.plan (p : Planning D) (t : CacheType) : BookPlan Nat Nat where
  toLedger := lane p.caches t
  mark a c := ((p.matrix a c).mark t).added

section

variable {q : QueryInfo} {rows : List Nat} {increasing : rows.Pairwise (· < ·)}
  {caches : List (Cache D)} {p : Planning D} {i : Nat} {done : CacheType → Nat → Prop}

variable (q rows increasing caches) in
/-- The state of the second pass, with the nodes before `i` and the columns `done` of node `i`
handled. -/
structure Missed (p : Planning D) (i : Nat) (done : CacheType → Nat → Prop) : Prop where
  planned : ∀ t, BookPlan.Planned (lane caches t) (cutsOf rows increasing) (· ∈ q.write t) (p.plan t) i
    (done t)
  widened : Extends caches p.caches
  shaped : AllShaped p.caches
  hits : ∀ {a c t j}, (p.matrix a c).mark t = .hit j ↔ (markHits q rows caches a c).mark t = .hit j
  misses : ∀ {a c t}, (p.matrix a c).mark t = .miss → c ∉ q.write t
  closest : ∀ a c, (p.matrix a c).closest = (markHits q rows caches a c).closest

namespace Missed

variable {t : CacheType} {col j : Nat} {p' : Planning D}

/-- A step that marks columns of the node for a cache. -/
theorem plan_setMark {lo n : Nat} {cols : List Nat} (matrix : p'.matrix = p.matrix.setMark t lo n cols (.add j))
    (a c : Nat) : (p'.plan t).mark a c =
      if lo ≤ a ∧ a ≤ lo + n ∧ c ∈ cols then some j else (p.plan t).mark a c := by
  change Mark.added _ = _
  rw [matrix, Matrix.setMark_mark]
  simp only [true_and]
  split
  · rfl
  · rfl

variable (missed : Missed q rows increasing caches p i done)

include missed

/-- A column to be written is missing where it is not a hit. -/
theorem missing_iff (packed : AllPacked caches) {a : Nat}
    (inside : a < rows.length - 1) {c : Nat} (writes : c ∈ q.write t) :
    (lane caches t).Missing (cutsOf rows increasing) a c ↔ ((p.matrix a c).mark t).isHit = false := by
  have hits := markHits_spec q rows packed
  constructor
  · intro missing
    by_contra isHit
    obtain ⟨j, mark⟩ := Mark.exists_of_isHit (by simpa using isHit)
    rcases hits.mark_cases t a c with unknown | ⟨j', -, claims⟩
    · rw [missed.hits, unknown] at mark
      cases mark
    · exact missing ⟨j', claims⟩
  · intro noHit covers
    obtain ⟨j, mark⟩ := Mark.exists_of_isHit (isHit_markHits packed inside writes covers)
    rw [← missed.hits] at mark
    rw [mark] at noHit
    cases noHit

/-- The columns of the node that are to be written. -/
theorem mem_growCandidates (packed : AllPacked caches)
    (inside : i < rows.length - 1) {c : Nat} : c ∈ growCandidates q p.matrix t i ↔
      c ∈ q.write t ∧ (lane caches t).Missing (cutsOf rows increasing) i c := by
  rw [mem_growCandidates_iff]
  exact and_congr_right fun writes => (missed.missing_iff packed inside writes).symm

/-- A step that handles a column for the caches of one type, and leaves those of the other type
alone. -/
theorem of_lane (planned : BookPlan.Planned (lane caches t) (cutsOf rows increasing) (· ∈ q.write t) (p'.plan t) i
      fun c => done t c ∨ c = col) (widened : Extends p.caches p'.caches) (shaped : AllShaped p'.caches)
    (otherHas : ∀ {t' j c}, t' ≠ t → ((lane p'.caches t').has j c ↔ (lane p.caches t').has j c))
    (otherMark : ∀ {t' a c}, t' ≠ t → (p'.matrix a c).mark t' = (p.matrix a c).mark t')
    (hits : ∀ {a c j}, (p'.matrix a c).mark t = .hit j ↔ (p.matrix a c).mark t = .hit j)
    (misses : ∀ {a c}, (p'.matrix a c).mark t = .miss → c ∉ q.write t)
    (closest : ∀ a c, (p'.matrix a c).closest = (p.matrix a c).closest) :
    Missed q rows increasing caches p' i fun t' c => done t' c ∨ t' = t ∧ c = col where
  planned t' := by
    by_cases same : t' = t
    · subst same
      exact planned.mono fun h => .inl (by simpa using h)
    · refine ((missed.planned t').relabel (p'.plan t') (otherHas same) ?_ ?_).mono ?_
      · funext a c
        exact congrArg Mark.added (otherMark same)
      · rintro j c ⟨cache, here, -⟩
        obtain ⟨cache', here', widens⟩ := widened.old here
        refine ⟨?_, ?_⟩
        · exact (lane_start here').trans (widens.startRow.trans (lane_start here).symm)
        · refine (lane_stop here').trans (Eq.trans ?_ (lane_stop here).symm)
          simp only [Cache.endRow, widens.startRow, widens.usedRows]
      · rintro c (old | ⟨eq, -⟩)
        · exact .inl old
        · exact absurd eq same
  widened := missed.widened.trans widened
  shaped := shaped
  hits {a c t' j} := by
    by_cases same : t' = t
    · subst same
      exact hits.trans missed.hits
    · rw [otherMark same]
      exact missed.hits
  misses {a c t'} mark := by
    by_cases same : t' = t
    · subst same
      exact misses mark
    · rw [otherMark same] at mark
      exact missed.misses mark
  closest a c := (closest a c).trans (missed.closest a c)

/-- A column that is not handled is counted as such. -/
theorem skip (packed : AllPacked caches) (settled : unsettled q p.matrix t i col = false) :
    Missed q rows increasing caches p i fun t' c => done t' c ∨ t' = t ∧ c = col where
  __ := missed
  planned t' := by
    refine (missed.planned t').mono ?_
    rintro c (old | ⟨rfl, rfl⟩)
    · exact .inl old
    · right
      cases mark : (p.matrix i c).mark t' with
      | add j => exact .inr (.inr ⟨j, Mark.added_eq_some.2 mark⟩)
      | miss => exact .inl (missed.misses mark)
      | hit j =>
        refine .inr (.inl fun missing => ?_)
        rcases (markHits_spec q rows packed).mark_cases t' i c with unknown | ⟨j', -, claims⟩
        · rw [missed.hits, unknown] at mark
          cases mark
        · exact missing ⟨j', claims⟩
      | unknown => exact .inl fun writes => mark_ne_unknown settled writes mark

/-- A column that is not to be written is marked as a miss. -/
theorem miss (unknown : (p.matrix i col).mark t = .unknown)
    (unwritten : col ∉ q.write t) : Missed q rows increasing caches
      { p with matrix := p.matrix.setMark t i 0 [col] .miss } i
      fun t' c => done t' c ∨ t' = t ∧ c = col := by
  have marks : ∀ a c t', (p.matrix.setMark t i 0 [col] .miss a c).mark t' = (p.matrix a c).mark t' ∨
      (t' = t ∧ a = i ∧ c = col ∧ (p.matrix.setMark t i 0 [col] .miss a c).mark t' = .miss) := by
    intro a c t'
    rw [Matrix.setMark_mark]
    by_cases here : t' = t ∧ i ≤ a ∧ a ≤ i + 0 ∧ c ∈ [col]
    · rw [if_pos here]
      exact .inr ⟨here.1, by omega, by simpa using here.2.2.2, rfl⟩
    · rw [if_neg here]
      exact .inl rfl
  refine missed.of_lane ?_ (Extends.refl _) missed.shaped (fun _ => Iff.rfl) ?_ ?_ ?_ ?_
  · refine ((missed.planned t).relabel
      (Planning.plan { p with matrix := p.matrix.setMark t i 0 [col] .miss } t)
      Iff.rfl ?_ fun _ => ⟨rfl, rfl⟩).mono ?_
    · funext a c
      change Mark.added _ = Mark.added _
      rcases marks a c t with same | ⟨-, rfl, rfl, new⟩
      · exact congrArg Mark.added same
      · rw [new, unknown]
        rfl
    · rintro c (old | rfl)
      · exact .inl old
      · exact .inr (.inl unwritten)
  · intro t' a c different
    rcases marks a c t' with same | ⟨eq, -⟩
    · exact same
    · exact absurd eq different
  · intro a c j
    rcases marks a c t with same | ⟨-, rfl, rfl, new⟩
    · exact Iff.of_eq (congrArg (· = Mark.hit j) same)
    · simp only [new, unknown, reduceCtorEq]
  · intro a c mark
    rcases marks a c t with same | ⟨-, -, rfl, -⟩
    · exact missed.misses (same.symm.trans mark)
    · exact unwritten
  · intro a c
    exact Matrix.setMark_closest ..

/-- The rest of the invariant for a step that marks missing columns for a cache. -/
theorem of_setMark {lo n : Nat} {cols : List Nat} (matrix : p'.matrix = p.matrix.setMark t lo n cols (.add j))
    (planned : BookPlan.Planned (lane caches t) (cutsOf rows increasing) (· ∈ q.write t) (p'.plan t) i
      fun c => done t c ∨ c = col) (widened : Extends p.caches p'.caches) (shaped : AllShaped p'.caches)
    (otherHas : ∀ {t' j c}, t' ≠ t → ((lane p'.caches t').has j c ↔ (lane p.caches t').has j c))
    (noHits : ∀ {a c}, lo ≤ a → a ≤ lo + n → c ∈ cols → ((p.matrix a c).mark t).isHit = false) :
    Missed q rows increasing caches p' i fun t' c => done t' c ∨ t' = t ∧ c = col := by
  refine missed.of_lane planned widened shaped otherHas ?_ ?_ ?_ ?_
  · intro t' a c different
    rw [matrix, Matrix.setMark_mark, if_neg fun h => different h.1]
  · intro a c j'
    rw [matrix, Matrix.setMark_mark]
    by_cases here : t = t ∧ lo ≤ a ∧ a ≤ lo + n ∧ c ∈ cols
    · have := noHits here.2.1 here.2.2.1 here.2.2.2
      rw [if_pos here]
      constructor
      · intro h; cases h
      · intro h; rw [h] at this; cases this
    · rw [if_neg here]
  · intro a c mark
    rw [matrix, Matrix.setMark_mark] at mark
    split at mark
    · cases mark
    · exact missed.misses mark
  · intro a c
    rw [matrix, Matrix.setMark_closest]

/-- Growing a cache. -/
theorem growCache (packed : AllPacked caches) (tidy : (lane caches t).Tidy)
    (inside : i < rows.length - 1) {candidates : List Nat}
    (isCandidate : ∀ {c}, c ∈ candidates ↔ c ∈ q.write t ∧ (lane caches t).Missing (cutsOf rows increasing) i c)
    (unknown : (p.matrix i col).mark t = .unknown) (writes : col ∈ q.write t)
    (choice : j ∈ getCachesCanGrow p.caches t col (rows.getD i 0) candidates)
    (shaped : AllShaped (growCache p t (rows.getD i 0) i candidates j).caches) :
    Missed q rows increasing caches (growCache p t (rows.getD i 0) i candidates j) i
      fun t' c => done t' c ∨ t' = t ∧ c = col := by
  have missing : (lane caches t).Missing (cutsOf rows increasing) i col :=
    (missed.missing_iff packed inside writes).2 (by rw [unknown]; rfl)
  obtain ⟨-, cache, here, type, starts, hasCol, subset, noneBelow⟩ := mem_getCachesCanGrow.1 choice
  rw [missed.shaped.packed.hasColumn here] at hasCol
  have lanes : ∀ t', lane (PostgresRaw.growCache p t (rows.getD i 0) i candidates j).caches t' = lane p.caches t' :=
    fun _ => lane_modify (fun _ => rfl) (fun _ => rfl) (fun _ => rfl) (fun _ => rfl)
  have columns : ∀ {d}, (p.plan t).has j d → d ∈ candidates :=
    fun has => subset _ ((lane_has here).1 has).2
  have inCols : ∀ {d}, d ∈ cacheCols p.caches j candidates ↔ (p.plan t).has j d := by
    intro d
    rw [mem_cacheCols missed.shaped.packed here]
    exact ⟨fun h => (lane_has here).2 ⟨type, h.2⟩, fun has => ⟨columns has, ((lane_has here).1 has).2⟩⟩
  refine missed.of_setMark rfl ?_ (extends_modify fun _ => widens_noDBCacheGrow _ _) shaped ?_ ?_
  · refine (missed.planned t).grow tidy inside (b := j) missing (by
      change Mark.added _ = _; rw [unknown]; rfl) ((lane_has here).2 ⟨type, hasCol⟩) ?_
      (fun has => isCandidate.1 (columns has)) ?_ (lanes t) ?_ ?_
    · exact le_trans (le_of_eq (lane_start here)) starts
    · rintro e d ⟨other, here', type', mem⟩ writes' missing'
      have notBelow := any_eq_false.1 noneBelow other (mem_of_getElem? here')
      have start : (p.plan t).start e = other.startRow := lane_start here'
      have stop : (p.plan t).stop j = cache.endRow := lane_stop here
      rw [start, stop]
      by_contra below
      apply notBelow
      simp only [type', decide_true, not_lt.1 below, Bool.and_true, Bool.true_and, any_eq_true]
      exact ⟨d, isCandidate.2 ⟨writes', missing'⟩, (missed.shaped.packed.hasColumn here' d).2 mem⟩
    · intro d has
      rw [plan_setMark rfl, if_pos ⟨le_rfl, le_rfl, inCols.2 has⟩]
    · intro a d elsewhere
      rw [plan_setMark rfl, if_neg]
      rintro ⟨le, le', mem⟩
      exact elsewhere ⟨by omega, inCols.1 mem⟩
  · intro t' j' c _
    rw [lanes]
  · intro a c le le' mem
    obtain rfl : a = i := by omega
    obtain ⟨writes', missing'⟩ := isCandidate.1 (columns (inCols.1 mem))
    exact (missed.missing_iff packed inside writes').1 missing'

/-- No cache that begins before the last cut ends behind it. -/
theorem stop_le_last (aligned : (lane caches t).Aligned (cutsOf rows increasing))
    {cache : Cache D} (here : p.caches[j]? = some cache) (type : cache.type = t) :
    (p.plan t).stop j ≤ max ((p.plan t).start j) ((cutsOf rows increasing).row (rows.length - 1)) := by
  obtain ⟨-, nonempty⟩ := missed.shaped cache (mem_of_getElem? here)
  obtain ⟨d, mem⟩ := exists_mem_of_ne_nil _ nonempty
  have has : (p.plan t).has j d := (lane_has here).2 ⟨type, mem⟩
  by_cases known : ∃ e, (lane caches t).has j e
  · obtain ⟨e, old⟩ := known
    have stop' := ((missed.planned t).same old).2
    rcases aligned.stops old with early | ⟨a', le, ends⟩
    · have := (cutsOf rows increasing).row_le (Nat.zero_le _) (Nat.le_refl (rows.length - 1))
      omega
    · have : (cutsOf rows increasing).row a' ≤ (cutsOf rows increasing).row (rows.length - 1) :=
        (cutsOf rows increasing).row_le le le_rfl
      omega
  · have := (missed.planned t).fresh has (not_exists.1 known)
    omega

section

variable (packed : AllPacked caches) (tidy : (lane caches t).Tidy) (inside : i < rows.length - 1)
  (unknown : (p.matrix i col).mark t = .unknown) (writes : col ∈ q.write t)

include packed tidy inside unknown writes

/-- Adding a column to a cache that begins at the node.  The cache does not have the column: it
would claim the row, or the plan would have marked the node. -/
theorem addColumn (aligned : (lane caches t).Aligned (cutsOf rows increasing))
    (choice : j ∈ getCachesFreeColumns p.caches t q.limit (rows.getD i 0) (columnSize t))
    (shaped : AllShaped (addColumn p t rows i col j).caches) :
    Missed q rows increasing caches (addColumn p t rows i col j) i fun t' c => done t' c ∨ t' = t ∧ c = col := by
  have missing : (lane caches t).Missing (cutsOf rows increasing) i col :=
    (missed.missing_iff packed inside writes).2 (by rw [unknown]; rfl)
  have unmarked : (p.plan t).mark i col = none := by
    change Mark.added _ = _
    rw [unknown]
    rfl
  obtain ⟨cache, here, type, starts, fits, -⟩ := mem_getCachesFreeColumns.1 choice
  have startP : (p.plan t).start j = (cutsOf rows increasing).row i := (lane_start here).trans starts
  have stopP : (p.plan t).stop j = cache.endRow := lane_stop here
  have absent : ¬ (p.plan t).has j col := by
    intro has
    have stop := (missed.planned t).stop_le inside missing unmarked has (by omega)
    by_cases old : (lane caches t).has j col
    · obtain ⟨start', stop'⟩ := (missed.planned t).same old
      have := tidy.nonempty old
      omega
    · obtain ⟨a, le, start', mark, -⟩ := (missed.planned t).registered has old
      rcases lt_or_eq_of_le le with less | rfl
      · have := (cutsOf rows increasing).increasing less (le_of_lt inside)
        omega
      · rw [mark] at unmarked
        cases unmarked
  have notThere : col ∉ cache.cols := fun mem => absent ((lane_has here).2 ⟨type, mem⟩)
  obtain ⟨shape, -⟩ := missed.shaped cache (List.mem_of_getElem? here)
  obtain ⟨cache', result, added⟩ := noDBCacheAddColumn_of_fits shape notThere fits (columnSize_pos t)
  have after : ∀ j', (PostgresRaw.addColumn p t rows i col j).caches[j']? =
      if j = j' then some cache' else p.caches[j']? := by
    intro j'
    change (p.caches.modify j _)[j']? = _
    rw [List.getElem?_modify]
    by_cases same : j = j'
    · subst same
      simp [here, result]
    · cases p.caches[j']? <;> simp [same]
  -- The nodes below that are marked are those that the cache has rows of; as its end is a cut,
  -- the last cut is not among them.
  have below : ∀ {a}, i < a → (a ≤ i + ((rows.drop (i + 1)).takeWhile
      fun r => p.caches[j]?.any (·.hasRow r)).length ↔
        a < rows.length - 1 ∧ (cutsOf rows increasing).row a < (p.plan t).stop j) := by
    intro a less
    rw [Lists.le_add_takeWhile_drop increasing cache.endRow (by
      intro n less' r at'
      have later := row_lt_of_getElem? increasing at' less'
      have start : cache.startRow = (cutsOf rows increasing).row i := starts
      rw [here, Option.any_some, Cache.hasRow_iff]
      omega) less]
    constructor
    · rintro ⟨r, at', bound⟩
      have row : (cutsOf rows increasing).row a = r := row_of_getElem? increasing at'
      refine ⟨?_, by rw [row, stopP]; exact bound⟩
      by_contra isLast
      obtain rfl : a = rows.length - 1 := by
        have := (List.getElem?_eq_some_iff.1 at').1
        omega
      have := missed.stop_le_last aligned here type
      have := row_lt_of_getElem? increasing at' less
      omega
    · rintro ⟨inside', bound⟩
      refine ⟨rows[a], List.getElem?_eq_getElem (by omega), ?_⟩
      rw [stopP] at bound
      rwa [← row_of_getElem? increasing (List.getElem?_eq_getElem (by omega))]
  refine missed.of_setMark rfl ?_ ?_ shaped ?_ ?_
  · refine (missed.planned t).open_ tidy inside (b := j) writes missing unmarked startP absent ?_ ?_ ?_
      ?_ ?_ ?_
    · intro none
      obtain ⟨-, nonempty⟩ := missed.shaped cache (List.mem_of_getElem? here)
      obtain ⟨d, mem⟩ := List.exists_mem_of_ne_nil _ nonempty
      exact absurd ((lane_has here).2 ⟨type, mem⟩) (none d)
    · funext j'
      change Option.elim _ _ _ = Option.elim _ _ _
      rw [after]
      by_cases same : j = j'
      · subst same
        simp [here, added.startRow]
      · rw [if_neg same]
    · funext j'
      change Option.elim _ _ _ = Option.elim _ _ _
      rw [after]
      by_cases same : j = j'
      · subst same
        simp [here, Cache.endRow, added.startRow, added.usedRows]
      · rw [if_neg same]
    · intro e d
      change (∃ _, _) ↔ (∃ _, _) ∨ _
      rw [after]
      by_cases same : j = e
      · subst same
        simp [here, added.type, added.cols, type]
      · simp [same, Ne.symm same]
    · intro a rows'
      rw [plan_setMark rfl, if_pos]
      rcases rows' with rfl | ⟨less, inside', bound⟩
      · exact ⟨le_rfl, Nat.le_add_right _ _, by simp⟩
      · exact ⟨le_of_lt less, (below less).2 ⟨inside', bound⟩, by simp⟩
    · intro a d elsewhere
      rw [plan_setMark rfl, if_neg]
      rintro ⟨le, le', mem⟩
      refine elsewhere ⟨by simpa using mem, ?_⟩
      rcases lt_or_eq_of_le le with less | rfl
      · exact .inr ⟨less, (below less).1 le'⟩
      · exact .inl rfl
  · refine extends_modify fun {cache''} here' => ?_
    obtain rfl : cache = cache'' := Option.some.inj (here.symm.trans here')
    rw [result]
    exact added.widens
  · intro t' j' c different
    change (∃ _, _) ↔ ∃ _, _
    rw [after]
    by_cases same : j = j'
    · subst same
      simp [here, added.type, type, Ne.symm different]
    · rw [if_neg same]
  · intro a c le le' mem
    obtain rfl : c = col := by simpa using mem
    have bound : a < rows.length - 1 := by
      rcases lt_or_eq_of_le le with less | rfl
      · exact ((below less).1 le').1
      · exact inside
    exact (missed.missing_iff packed bound writes).1
      (tidy.missing_of_le missing ((cutsOf rows increasing).row_le le (le_of_lt bound)))

/-- Creating a cache for a column: first the cache, which without columns claims nothing, and
then the column. -/
theorem newCache (shaped : AllShaped (newCache p t (rows.getD i 0) i col).caches) :
    Missed q rows increasing caches (newCache p t (rows.getD i 0) i col) i
      fun t' c => done t' c ∨ t' = t ∧ c = col := by
  have missing : (lane caches t).Missing (cutsOf rows increasing) i col :=
    (missed.missing_iff packed inside writes).2 (by rw [unknown]; rfl)
  let empty : Cache D := noDBCacheInit t (rows.getD i 0) (defaultRowSize t)
  have withEmpty : ∀ {last : Cache D} {j}, (p.caches ++ [last])[j]? =
      if j = p.caches.length then some last else p.caches[j]? := by
    intro last j
    rw [getElem?_append, getElem?_singleton]
    by_cases less : j < p.caches.length
    · rw [if_pos less, if_neg (by omega)]
    · rw [if_neg less, getElem?_eq_none (by omega)]
      exact if_congr (by omega) rfl rfl
  obtain ⟨cache, caches', added⟩ : ∃ cache, (PostgresRaw.newCache p t (rows.getD i 0) i col).caches =
      p.caches ++ [cache] ∧ AddedColumn empty cache col := ⟨_, rfl, addedColumn_noDBCacheInit t (rows.getD i 0) col⟩
  have outside : ∀ {t' c}, ¬ (lane p.caches t').has p.caches.length c := by
    rintro t' c ⟨cache', here, -⟩
    have := (List.getElem?_eq_some_iff.1 here).1
    omega
  have plannedEmpty : BookPlan.Planned (lane caches t) (cutsOf rows increasing) (· ∈ q.write t)
      (Planning.plan ⟨p.caches ++ [empty], p.matrix⟩ t) i (done t) := by
    refine (missed.planned t).relabel _ ?_ rfl ?_
    · intro j c
      change (∃ _, _) ↔ ∃ _, _
      rw [withEmpty]
      by_cases isNew : j = p.caches.length
      · subst isNew
        simp [empty, noDBCacheInit]
      · rw [if_neg isNew]
    · intro j c has
      have old : j ≠ p.caches.length := by
        rintro rfl
        exact outside has
      constructor
      · change Option.elim _ _ _ = Option.elim _ _ _
        rw [withEmpty, if_neg old]
      · change Option.elim _ _ _ = Option.elim _ _ _
        rw [withEmpty, if_neg old]
  refine missed.of_setMark rfl ?_ ?_ shaped ?_ ?_
  · refine plannedEmpty.open_ tidy inside (b := p.caches.length) writes missing ?_ ?_ ?_ ?_ ?_ ?_ ?_ ?_ ?_
    · change Mark.added _ = _
      rw [unknown]
      rfl
    · exact lane_start (by rw [withEmpty, if_pos rfl])
    · rintro ⟨cache', here, -, mem⟩
      rw [withEmpty, if_pos rfl, Option.some.injEq] at here
      subst here
      simp [empty, noDBCacheInit] at mem
    · intro _
      exact (@lane_stop D _ _ _ empty (by rw [withEmpty, if_pos rfl])).trans
        (lane_start (by rw [withEmpty, if_pos rfl])).symm
    · funext j
      change Option.elim _ _ _ = Option.elim _ _ _
      rw [caches', withEmpty, withEmpty]
      by_cases isNew : j = p.caches.length
      · rw [if_pos isNew, if_pos isNew]
        exact added.startRow
      · rw [if_neg isNew, if_neg isNew]
    · funext j
      change Option.elim _ _ _ = Option.elim _ _ _
      rw [caches', withEmpty, withEmpty]
      by_cases isNew : j = p.caches.length
      · rw [if_pos isNew, if_pos isNew]
        exact congrArg₂ (· + ·) added.startRow added.usedRows
      · rw [if_neg isNew, if_neg isNew]
    · intro e d
      change (∃ _, _) ↔ (∃ _, _) ∨ _
      rw [caches', withEmpty, withEmpty]
      by_cases isNew : e = p.caches.length
      · simp [isNew, added.type, added.cols, empty, noDBCacheInit]
      · simp [isNew]
    · intro a rows'
      have empties : (Planning.plan ⟨p.caches ++ [empty], p.matrix⟩ t).stop p.caches.length =
          (cutsOf rows increasing).row i :=
        @lane_stop D _ _ _ empty (by rw [withEmpty, if_pos rfl])
      obtain rfl : a = i := by
        rcases rows' with same | ⟨less, inside', bound⟩
        · exact same
        · have := (cutsOf rows increasing).increasing less (le_of_lt inside')
          omega
      rw [plan_setMark rfl, if_pos ⟨le_rfl, le_rfl, by simp⟩]
    · intro a d elsewhere
      rw [plan_setMark rfl, if_neg]
      · rfl
      · rintro ⟨le, le', mem⟩
        exact elsewhere ⟨by simpa using mem, .inl (by omega)⟩
  · rw [caches']
    exact extends_append (by rw [added.usedRows]; rfl) (by rw [added.cells]; exact fun _ _ => rfl)
  · intro t' j c different
    change (∃ _, _) ↔ ∃ _, _
    rw [caches', withEmpty]
    by_cases isNew : j = p.caches.length
    · subst isNew
      simp [added.type, empty, noDBCacheInit, Ne.symm different]
    · rw [if_neg isNew]
  · intro a c le le' mem
    obtain rfl : a = i := by omega
    obtain rfl : c = col := by simpa using mem
    rw [unknown]
    rfl

end

/-- The second pass on one cell. -/
theorem missCell (packed : AllPacked caches) (tidy : ∀ t, (lane caches t).Tidy)
    (aligned : ∀ t, (lane caches t).Aligned (cutsOf rows increasing)) (inside : i < rows.length - 1)
    {t : CacheType} {candidates : List Nat} (col : Nat) (isCandidate : ∀ {c}, c ∈ candidates ↔
      c ∈ q.write t ∧ (lane caches t).Missing (cutsOf rows increasing) i c) :
    Missed q rows increasing caches (missCell q rows i candidates col t p) i
      fun t' c => done t' c ∨ t' = t ∧ c = col := by
  have outcome := missCell_outcome q rows i candidates col t p
  have shaped := outcome.shaped missed.shaped
  generalize PostgresRaw.missCell q rows i candidates col t p = p' at outcome shaped
  cases outcome with
  | settled settled => exact missed.skip packed settled
  | miss unknown unwritten => exact missed.miss unknown unwritten
  | grow unknown writes choice => exact missed.growCache packed (tidy t) inside isCandidate unknown writes choice shaped
  | add unknown writes choice => exact missed.addColumn packed (tidy t) inside unknown writes (aligned t) choice shaped
  | create unknown writes => exact missed.newCache packed (tidy t) inside unknown writes shaped

theorem mono {done' : CacheType → Nat → Prop}
    (fewer : ∀ {t c}, done' t c → done t c) : Missed q rows increasing caches p i done' where
  __ := missed
  planned t := (missed.planned t).mono fun h => .inl (fewer h)

/-- A node is handled when all its columns are. -/
theorem next (all : ∀ t c, c ∈ q.write t → done t c) :
    Missed q rows increasing caches p (i + 1) fun _ _ => False where
  __ := missed
  planned t := (missed.planned t).next fun writes => all t _ writes

end Missed

/-- **The second pass.** -/
theorem handleMisses_spec (q : QueryInfo) {rows : List Nat} (increasing : rows.Pairwise (· < ·))
    {caches : List (Cache D)} (shaped : AllShaped caches) (tidy : ∀ t, (lane caches t).Tidy)
    (aligned : ∀ t, (lane caches t).Aligned (cutsOf rows increasing)) :
    Missed q rows increasing caches (handleMisses q rows ⟨caches, markHits q rows caches⟩)
      (rows.length - 1) fun _ _ => False := by
  refine Lists.foldl_range_invariant
    (fun n p => Missed q rows increasing caches p n fun _ _ => False) ?_ fun {n p} inside missed => ?_
  · refine ⟨fun t => ?_, Extends.refl _, shaped, Iff.rfl, fun {a c t} mark => ?_, fun _ _ => rfl⟩
    · refine (BookPlan.planned_empty (tidy t)).relabel (Planning.plan _ t) Iff.rfl ?_ fun _ => ⟨rfl, rfl⟩
      funext a c
      exact Option.eq_none_iff_forall_ne_some.2 fun j mark =>
        markHits_ne_add q rows shaped.packed a c t j (Mark.added_eq_some.1 mark)
    · rcases (markHits_spec q rows shaped.packed).mark_cases t a c with unknown | ⟨j, hit, -⟩
      · rw [unknown] at mark; cases mark
      · rw [hit] at mark; cases mark
  · have isCandidate := fun (t : CacheType) (c : Nat) =>
      missed.mem_growCandidates shaped.packed inside (t := t) (c := c)
    suffices handled : Missed q rows increasing caches (missRow q rows p n) n fun _ c => c ∈ q.cols from
      handled.next fun t c => q.write_subset_cols t
    refine Lists.foldl_invariant
      (fun handled p => Missed q rows increasing caches p n fun _ c => c ∈ handled)
      (missed.mono fun {t c} mem => absurd mem (by simp)) fun {handled col p'} _ inv => ?_
    refine ((inv.missCell shaped.packed tidy aligned inside col (isCandidate .data _)).missCell
      shaped.packed tidy aligned inside col (isCandidate .positions _)).mono ?_
    intro t c mem
    rcases mem_append.1 mem with old | new
    · exact .inl (.inl old)
    · obtain rfl : c = col := by simpa using new
      cases t with
      | data => exact .inl (.inr ⟨rfl, rfl⟩)
      | positions => exact .inr ⟨rfl, rfl⟩

end

end

end PostgresRaw
