import PostgresRaw.Strategy.Covering
import PostgresRaw.Strategy.Sources

/-!
# Anchors

A column whose position is not in a positional map is reached from the closest column whose position
is, its anchor.  `BuildMatrix` looks for anchors after it has registered columns that nothing has been
written for yet, and `FillRow` decides for a whole node whether there are anchors at all.  Both are
sound, whatever the caches are, for two reasons.

* **A column that is registered is marked** in every node whose first row its cache has
  (`Registers.fresh`), since a column is added to a cache that begins at the node.  The search leaves
  marked columns out, and what it finds has been there before (`anchor_known`).
* **The positional map that begins first keeps its columns** (`KeepsOldest`): none of them is marked in
  a node that the map has the first row of.  So if one column of a node has an anchor, all have one
  (`anchor_all`), and `FillRow` reaches every column that it needs (`fillRow_anchors`).
-/

namespace PostgresRaw

open List

section

variable {D : Type}

/-! ### What is registered -/

variable {t : CacheType} {c col i a : Nat} {done cols : List Nat} {node : Nat → Node}

/-- Adding a column registers no other. -/
theorem has_of_has_addColumn {p : Planning D} {t' : CacheType} (rows : List Nat) (a : Nat) {j : Nat} {cache : Cache D}
    (here : p.caches[i]? = some cache) (type : cache.type = t)
    (has : (lane (addColumn p t rows a col i).caches t').has j c) :
    (lane p.caches t').has j c ∨ t' = t ∧ j = i ∧ c = col := by
  obtain ⟨cache', here', type', mem⟩ := has
  rw [getElem?_addColumn] at here'
  obtain ⟨before, there, rfl⟩ := Option.map_eq_some_iff.1 here'
  split at type'
  · next same =>
    subst same
    obtain rfl : before = cache := Option.some.inj (there.symm.trans here)
    rw [if_pos rfl] at mem
    rw [(noDBCacheAddColumn_narrows before col (columnSize t)).1] at type'
    rcases mem_cols_noDBCacheAddColumn mem with old | new
    · exact .inl ⟨before, there, type', old⟩
    · exact .inr ⟨type'.symm.trans type, rfl, new⟩
  · next other =>
    rw [if_neg other] at mem
    exact .inl ⟨before, there, type', mem⟩

/-- The nodes that a column is marked in, when it is added to a cache that begins at the node `a`. -/
theorem le_of_hasRow {rows : List Nat} (increasing : rows.Pairwise (· < ·)) {caches : List (Cache D)} {b : Nat}
    {cache : Cache D} (here : caches[i]? = some cache) (starts : cache.startRow = rows.getD a 0)
    (inside : a < rows.length) (inside' : b < rows.length) : cache.hasRow (rows.getD b 0) = true → a ≤ b ∧
      b ≤ a + ((rows.drop (a + 1)).takeWhile fun r => caches[i]?.any (·.hasRow r)).length := by
  intro hasRow
  obtain ⟨first, last⟩ := Cache.hasRow_iff.1 hasRow
  have le : a ≤ b := by
    by_contra before
    have less := (cutsOf rows increasing).increasing (Nat.lt_of_not_le before) (Nat.le_sub_one_of_lt inside)
    change rows.getD b 0 < rows.getD a 0 at less
    omega
  refine ⟨le, ?_⟩
  rcases lt_or_eq_of_le le with less | rfl
  · rw [Lists.le_add_takeWhile_drop increasing cache.endRow (by
      intro n behind r at'
      have later := row_lt_of_getElem? increasing at' behind
      change rows.getD a 0 < r at later
      rw [here, Option.any_some, Cache.hasRow_iff]
      omega) less]
    refine ⟨rows.getD b 0, ?_, last⟩
    rw [getD_eq_getElem?_getD, getElem?_eq_getElem inside', Option.getD_some]
  · exact Nat.le_add_right ..

variable (q : QueryInfo) (rows : List Nat) (base : List (Cache D))

/-- **What the second pass registers**: the columns that it marks are to be written, a column that was
not in its cache before is marked in every node whose first row the cache has, and a column that is to
be written and was in a cache has a mark. -/
structure Registers (p : Planning D) : Prop extends KeepsHits q rows base p where
  adds : ∀ {a c t j}, (p.matrix a c).mark t = .add j → c ∈ q.write t
  fresh : ∀ {t i c cache}, (lane p.caches t).has i c → ¬ (lane base t).has i c → p.caches[i]? = some cache →
    c ∈ q.write t ∧ ∀ a < rows.length - 1, cache.hasRow (rows.getD a 0) = true →
      ((p.matrix a c).mark t).isAdd = true
  known : ∀ {a c t}, a < rows.length - 1 → c ∈ q.write t → (lane base t).Covers c (rows.getD a 0) →
    (p.matrix a c).mark t ≠ .unknown

variable {q rows base} {p : Planning D}

theorem Mark.exists_of_isAdd {m : Mark} (isAdd : m.isAdd = true) : ∃ j, m = .add j := by
  cases m with
  | add j => exact ⟨j, rfl⟩
  | unknown => cases isAdd
  | miss => cases isAdd
  | hit j => cases isAdd

theorem registers_markHits (packed : AllPacked base) : Registers q rows base ⟨base, markHits q rows base⟩ where
  widened := .refl _
  packed := packed
  hits hit := hit
  closest _ _ := rfl
  adds {a c t j} mark := absurd mark (markHits_ne_add q rows packed a c t j)
  fresh has notThere := absurd has notThere
  known inside writes covers unknown := by
    have isHit := isHit_markHits packed inside writes covers
    rw [unknown] at isHit
    cases isHit

namespace Registers

/-- A step that marks columns of one type. -/
theorem setMark (registers : Registers q rows base p) {caches' : List (Cache D)} {t : CacheType} {lo n : Nat}
    {cols : List Nat} {v : Mark} (keeps : KeepsHits q rows base ⟨caches', p.matrix.setMark t lo n cols v⟩)
    (widened : Extends p.caches caches') (isMark : v ≠ .unknown) (writes : ∀ c ∈ cols, ∀ j, v = .add j → c ∈ q.write t)
    (misses : v.isAdd = true ∨ ∀ a c, lo ≤ a → a ≤ lo + n → c ∈ cols → (p.matrix a c).mark t = .unknown)
    (fresh : ∀ {t' i c cache}, (lane caches' t').has i c → ¬ (lane p.caches t').has i c → caches'[i]? = some cache →
      t' = t ∧ c ∈ cols ∧ v.isAdd = true ∧ ∀ a < rows.length - 1, cache.hasRow (rows.getD a 0) = true →
        lo ≤ a ∧ a ≤ lo + n) : Registers q rows base ⟨caches', p.matrix.setMark t lo n cols v⟩ where
  __ := keeps
  adds {a c t' j} mark := by
    rw [Matrix.setMark_mark] at mark
    split at mark
    · next here =>
      rw [here.1]
      exact writes c here.2.2.2 j mark
    · exact registers.adds mark
  fresh {t' i c cache'} has notThere here' := by
    by_cases old : (lane p.caches t').has i c
    · -- The column was registered before, and its marks have stayed.
      have has := old
      obtain ⟨cache, here, -⟩ := old
      obtain ⟨cache'', here'', widens⟩ := widened.old here
      obtain rfl : cache'' = cache' := Option.some.inj (here''.symm.trans here')
      obtain ⟨inWrite, marked⟩ := registers.fresh has notThere here
      refine ⟨inWrite, fun a inside hasRow => ?_⟩
      rw [Cache.hasRow, widens.startRow, widens.usedRows] at hasRow
      have isAdd := marked a inside hasRow
      rw [Matrix.setMark_mark]
      split
      · next cell =>
        rcases misses with add | unknown
        · exact add
        · rw [cell.1, unknown a c cell.2.1 cell.2.2.1 cell.2.2.2] at isAdd
          cases isAdd
      · exact isAdd
    · obtain ⟨rfl, mem, isAdd, nodes⟩ := fresh has old here'
      obtain ⟨j, rfl⟩ := Mark.exists_of_isAdd isAdd
      refine ⟨writes c mem j rfl, fun a inside hasRow => ?_⟩
      obtain ⟨first, last⟩ := nodes a inside hasRow
      rw [Matrix.setMark_mark, if_pos ⟨rfl, first, last, mem⟩]
      rfl
  known inside inWrite covers := by
    rw [Matrix.setMark_mark]
    split
    · exact isMark
    · exact registers.known inside inWrite covers

theorem step (increasing : rows.Pairwise (· < ·)) (registers : Registers q rows base p) {a : Nat}
    (inside : a < rows.length - 1) {m : Matrix} {t : CacheType} {col : Nat} {p' : Planning D}
    (outcome : MissOutcome q rows a (growCandidates q m t a) col t p p') : Registers q rows base p' := by
  have keeps := registers.toKeepsHits.step outcome
  obtain ⟨widened, -⟩ := outcome.widened registers.packed
  cases outcome with
  | settled => exact registers
  | miss unknown unwritten =>
    refine registers.setMark keeps widened (fun no => by cases no) (fun _ _ _ no => by cases no) (.inr fun a' c first last mem => ?_)
      fun has notThere => absurd has notThere
    obtain rfl : a' = a := by omega
    rw [mem_singleton.1 mem]
    exact unknown
  | @grow unknown writes i choice =>
    refine registers.setMark keeps widened (fun no => by cases no)
      (fun c mem _ _ => (mem_growCandidates_iff.1 (mem_filter.1 mem).1).1) (.inl rfl) fun {t' j c cache} has notThere _ => ?_
    rw [lane_modify (f := fun cache => noDBCacheGrow cache (rows.getD a 0)) (fun _ => rfl) (fun _ => rfl)
      (fun _ => rfl) fun _ => rfl] at has
    exact absurd has notThere
  | add unknown writes choice =>
    obtain ⟨cache, here, type, starts, -⟩ := mem_getCachesFreeColumns.1 choice
    refine registers.setMark keeps widened (fun no => by cases no) (fun c mem _ _ => ?_) (.inl rfl)
      fun {t' j c cache'} has notThere here' => ?_
    · rwa [mem_singleton.1 mem]
    · rcases has_of_has_addColumn rows a here type has with old | ⟨rfl, rfl, rfl⟩
      · exact absurd old notThere
      · refine ⟨rfl, mem_singleton_self c, rfl, fun b inside' hasRow => ?_⟩
        change (addColumn p t' rows a c j).caches[j]? = _ at here'
        rw [getElem?_addColumn, here, Option.map_some, if_pos rfl] at here'
        obtain ⟨-, start, used, -⟩ := noDBCacheAddColumn_narrows cache c (columnSize t')
        rw [← Option.some.inj here', Cache.hasRow, start, used] at hasRow
        exact le_of_hasRow increasing here starts (by omega) (by omega) hasRow
  | create unknown writes =>
    have added := addedColumn_noDBCacheInit (D := D) t (rows.getD a 0) col
    refine registers.setMark keeps widened (fun no => by cases no) (fun c mem _ _ => ?_) (.inl rfl)
      fun {t' j c cache'} has notThere here' => ?_
    · rwa [mem_singleton.1 mem]
    · -- Only the new cache has a column that was not there, and it has no rows.
      have new : p.caches.length ≤ j := by
        by_contra old
        rw [not_le] at old
        obtain ⟨cache, here, rest⟩ := has
        rw [getElem?_append_left old] at here
        exact notThere ⟨cache, here, rest⟩
      obtain ⟨cache, here, type', mem⟩ := has
      obtain rfl : cache = cache' := Option.some.inj (here.symm.trans here')
      rw [getElem?_append_right new, getElem?_singleton] at here
      split at here
      · obtain rfl := Option.some.inj here
        refine ⟨type'.symm.trans added.type, by rwa [added.cols] at mem, rfl, fun b inside' hasRow => ?_⟩
        obtain ⟨first, last⟩ := Cache.hasRow_iff.1 hasRow
        rw [Cache.endRow, added.usedRows] at last
        exact absurd last (not_lt.2 first)
      · cases here

end Registers

/-- **The second pass registers** like this whatever the caches are. -/
theorem registers_handleMisses (increasing : rows.Pairwise (· < ·)) (packed : AllPacked base) :
    Registers q rows base (handleMisses q rows ⟨base, markHits q rows base⟩) :=
  handleMisses_induction (registers_markHits packed) fun inside _ registers outcome =>
    registers.step increasing inside outcome

/-! ### The cache that begins first -/

variable (base) in
/-- The cache has the column at the row, and no cache of its type with the row begins earlier. -/
structure Oldest (t : CacheType) (i c r : Nat) : Prop where
  claims : (lane base t).Claims i c r
  first : ∀ {j : Nat} {cache : Cache D}, base[j]? = some cache → cache.type = t → cache.hasRow r = true →
    (lane base t).start i ≤ cache.startRow

/-- If a cache of the type has the row, there is one that begins first. -/
theorem exists_oldest (shaped : AllShaped base) {r : Nat} (claims : (lane base t).Claims i c r) :
    ∃ i c, Oldest base t i c r := by
  have nonempty : ∃ start : Nat, ∃ (i : Nat) (cache : Cache D), base[i]? = some cache ∧ cache.type = t ∧ cache.hasRow r = true ∧
      cache.startRow = start := by
    obtain ⟨cache, here, type, -, hasRow⟩ := lane_claims_iff.1 claims
    exact ⟨_, i, cache, here, type, hasRow, rfl⟩
  classical
  obtain ⟨i, cache, here, type, hasRow, isFirst⟩ := Nat.find_spec nonempty
  obtain ⟨c, mem⟩ := exists_mem_of_ne_nil _ (shaped cache (mem_of_getElem? here)).2
  refine ⟨i, c, lane_claims_iff.2 ⟨cache, here, type, mem, hasRow⟩, fun {j other} there type' hasRow' => ?_⟩
  rw [lane_start here, isFirst]
  exact Nat.find_min' nonempty ⟨j, other, there, type', hasRow', rfl⟩

variable (q rows base) in
/-- **The cache that begins first keeps its columns**: those that are to be written are hits. -/
structure KeepsOldest (p : Planning D) : Prop extends Registers q rows base p where
  oldest : ∀ {a c t i}, a < rows.length - 1 → c ∈ q.write t → Oldest base t i c (rows.getD a 0) →
    ((p.matrix a c).mark t).isHit = true

theorem KeepsOldest.step (increasing : rows.Pairwise (· < ·)) {first : Planning D} (begun : KeepsOldest q rows base first)
    (keeps : KeepsOldest q rows base p) {a : Nat} (inside : a < rows.length - 1) {t : CacheType} {col : Nat}
    {p' : Planning D} (outcome : MissOutcome q rows a (growCandidates q first.matrix t a) col t p p') :
    KeepsOldest q rows base p' := by
  refine ⟨keeps.toRegisters.step increasing inside outcome, fun {b c t' i} inside' writes' oldest => ?_⟩
  have isHit := keeps.oldest inside' writes' oldest
  -- A cell with a mark is left alone.
  have elsewhere : ∀ {lo n : Nat} {cols : List Nat} {v : Mark}, ¬ (t' = t ∧ lo ≤ b ∧ b ≤ lo + n ∧ c ∈ cols) →
      ((p.matrix.setMark t lo n cols v b c).mark t').isHit = true := by
    intro lo n cols v outside
    rw [Matrix.setMark_mark, if_neg outside]
    exact isHit
  have marked : ∀ {b' : Nat}, t' = t → b' = b → c = col → (p.matrix b' col).mark t ≠ .unknown := by
    rintro b' rfl rfl rfl unknown
    rw [unknown] at isHit
    cases isHit
  cases outcome with
  | settled => exact isHit
  | miss unknown _ =>
    refine elsewhere ?_
    rintro ⟨type, first, last, mem⟩
    exact marked type (by omega) (mem_singleton.1 mem) unknown
  | grow =>
    refine elsewhere ?_
    rintro ⟨rfl, first, last, mem⟩
    obtain rfl : b = a := by omega
    have noHit := (mem_growCandidates_iff.1 (mem_filter.1 mem).1).2
    rw [begun.oldest inside' writes' oldest] at noHit
    cases noHit
  | create unknown writes =>
    refine elsewhere ?_
    rintro ⟨type, first, last, mem⟩
    exact marked type (by omega) (mem_singleton.1 mem) unknown
  | @add unknown writes j choice =>
    obtain ⟨cache, here, type, starts, -⟩ := mem_getCachesFreeColumns.1 choice
    refine elsewhere ?_
    rintro ⟨rfl, first, last, mem⟩
    obtain rfl := mem_singleton.1 mem
    rcases lt_or_eq_of_le first with less | same
    · -- The cache begins no earlier than the oldest one, which then has the first row of the node as well.
      have hasRow : cache.hasRow (rows.getD b 0) = true := by
        have reached := (Lists.le_add_takeWhile_drop increasing cache.endRow (by
          intro n behind r at'
          have later := row_lt_of_getElem? increasing at' behind
          change rows.getD a 0 < r at later
          rw [here, Option.any_some, Cache.hasRow_iff]
          omega) less).1 last
        obtain ⟨r, at', below⟩ := reached
        have later := row_lt_of_getElem? increasing at' less
        have row : rows.getD b 0 = r := row_of_getElem? increasing at'
        change rows.getD a 0 < r at later
        rw [row, Cache.hasRow_iff]
        omega
      obtain ⟨before, there⟩ : ∃ before, base[j]? = some before := by
        cases there : base[j]? with
        | some before => exact ⟨before, rfl⟩
        | none =>
          have unused := (keeps.widened.new there here).1
          rw [Cache.hasRow_iff, Cache.endRow, unused] at hasRow
          omega
      obtain ⟨after, here', widens⟩ := keeps.widened.old there
      obtain rfl : after = cache := Option.some.inj (here'.symm.trans here)
      have begins := oldest.first there (widens.type.symm.trans type) (by
        rwa [Cache.hasRow, widens.startRow, widens.usedRows] at hasRow)
      rw [← widens.startRow, starts] at begins
      obtain ⟨has, -, stops⟩ := oldest.claims
      have rising := (cutsOf rows increasing).increasing less (le_of_lt inside')
      change rows.getD a 0 < rows.getD b 0 at rising
      exact keeps.known inside writes ⟨i, has, begins, by omega⟩ unknown
    · exact marked rfl same rfl unknown

theorem keepsOldest_handleMisses (increasing : rows.Pairwise (· < ·)) (shaped : AllShaped base) :
    KeepsOldest q rows base (handleMisses q rows ⟨base, markHits q rows base⟩) :=
  handleMisses_induction ⟨registers_markHits shaped.packed, fun inside writes oldest =>
      isHit_markHits shaped.packed inside writes ⟨_, oldest.claims⟩⟩ fun inside begun keeps outcome =>
    begun.step increasing keeps inside outcome

/-! ### The closest position -/

/-- A position that is known, and not about to be written, has been known before. -/
theorem Registers.claims_of_known (registers : Registers q rows base p) {j : Nat} (inside : a < rows.length - 1)
    (mem : (j, c) ∈ knownPositions p.caches (rows.getD a 0) (excluded q p.matrix a)) :
    (lane base .positions).Claims j c (rows.getD a 0) := by
  obtain ⟨claims, notWritten⟩ := mem_knownPositions.1 mem
  obtain ⟨cache, here, -, -, hasRow⟩ := lane_claims_iff.1 claims
  have old : (lane base .positions).has j c := by
    by_contra new
    obtain ⟨writes, marked⟩ := registers.fresh claims.1 new here
    exact notWritten (mem_filter.2 ⟨q.write_subset_cols .positions writes, marked a inside hasRow⟩)
  obtain ⟨before, there, type, mem⟩ := old
  obtain ⟨after, here', widens⟩ := registers.widened.old there
  obtain rfl : after = cache := Option.some.inj (here'.symm.trans here)
  rw [Cache.hasRow, widens.startRow, widens.usedRows] at hasRow
  exact lane_claims_iff.2 ⟨before, there, type, mem, hasRow⟩

theorem matrix_buildMatrix (inside : a < rows.length - 1) : (buildMatrix q rows base).matrix a =
      closestRow q rows (handleMisses q rows ⟨base, markHits q rows base⟩).caches
        (handleMisses q rows ⟨base, markHits q rows base⟩).matrix a a :=
  (foldl_closestRow q rows _ _ (rows.length - 1) a).trans (if_pos inside)

/-- **An anchor is a position that was known before.** -/
theorem anchor_known (increasing : rows.Pairwise (· < ·)) (packed : AllPacked base) {b : Closest}
    (inside : a < rows.length - 1) (found : ((buildMatrix q rows base).matrix a c).closest = some b) :
    (lane base .positions).Claims b.cache b.column (rows.getD a 0) ∧ b.distance = (c : Int) - b.column := by
  have registers := registers_handleMisses (q := q) increasing packed
  rw [matrix_buildMatrix inside] at found
  generalize handleMisses q rows ⟨base, markHits q rows base⟩ = p at registers found
  -- A position that the first pass has found.
  have first : (p.matrix a c).closest = some b →
      (lane base .positions).Claims b.cache b.column (rows.getD a 0) ∧ b.distance = (c : Int) - b.column := by
    intro found
    rw [registers.closest] at found
    rcases (markHits_spec q rows packed).positions a c with ⟨-, none⟩ | ⟨i, -, closest, claims⟩
    · rw [none] at found
      cases found
    · rw [closest] at found
      cases found
      exact ⟨claims, by simp⟩
  unfold closestRow at found
  split at found
  · rw [← excluded] at found
    have known := closestPosition_cases (knownPositions p.caches (rows.getD a 0) (excluded q p.matrix a)) c
    cases result : closestPosition (knownPositions p.caches (rows.getD a 0) (excluded q p.matrix a)) c with
    | none =>
      rw [result] at found
      exact first found
    | some b' =>
      rw [result] at found known
      obtain rfl : b' = b := Option.some.inj found
      exact ⟨registers.claims_of_known inside known.1, known.2⟩
  · exact first found

/-- **All columns have an anchor, or none.** -/
theorem anchor_all (increasing : rows.Pairwise (· < ·)) (shaped : AllShaped base) {c' : Nat}
    (inside : a < rows.length - 1) (available : ((buildMatrix q rows base).matrix a c).closest.isSome)
    (mem : c' ∈ q.cols) : ((buildMatrix q rows base).matrix a c').closest.isSome := by
  obtain ⟨b, found⟩ := Option.isSome_iff_exists.1 available
  obtain ⟨claims, -⟩ := anchor_known increasing shaped.packed inside found
  obtain ⟨i, x, oldest⟩ := exists_oldest shaped claims
  have keeps := keepsOldest_handleMisses (q := q) increasing shaped
  rw [matrix_buildMatrix inside]
  generalize handleMisses q rows ⟨base, markHits q rows base⟩ = p at keeps
  -- The columns of the positional map that begins first are not about to be written.
  have known : (i, x) ∈ knownPositions p.caches (rows.getD a 0) (excluded q p.matrix a) := by
    refine mem_knownPositions.2 ⟨?_, fun written => ?_⟩
    · obtain ⟨cache, here, type, mem, hasRow⟩ := lane_claims_iff.1 oldest.claims
      obtain ⟨cache', here', widens⟩ := keeps.widened.old here
      refine lane_claims_iff.2 ⟨cache', here', widens.type.trans type, widens.cols x mem, ?_⟩
      rwa [Cache.hasRow, widens.startRow, widens.usedRows]
    · obtain ⟨j, mark⟩ := Mark.exists_of_isAdd (mem_filter.1 written).2
      have isHit := keeps.oldest inside (keeps.adds mark) oldest
      rw [mark] at isHit
      cases isHit
  unfold closestRow
  simp only [true_and]
  rw [← excluded]
  split
  · have search := closestPosition_cases (knownPositions p.caches (rows.getD a 0) (excluded q p.matrix a)) c'
    cases result : closestPosition (knownPositions p.caches (rows.getD a 0) (excluded q p.matrix a)) c' with
    | none =>
      rw [result] at search
      have search : knownPositions p.caches (rows.getD a 0) (excluded q p.matrix a) = [] := search
      rw [search] at known
      cases known
    | some b' => rfl
  · next settled =>
    have isHit : ((p.matrix a c').mark .positions).isHit = true := by
      by_contra noHit
      exact settled ⟨mem, by simpa using noHit⟩
    obtain ⟨j, hit⟩ := Mark.exists_of_isHit isHit
    rw [keeps.closest]
    rcases (markHits_spec q rows shaped.packed).positions a c' with ⟨unknown, -⟩ | ⟨_, -, closest, -⟩
    · rw [keeps.hits hit] at unknown
      cases unknown
    · rw [closest]
      rfl

/-- **Anchors are already known positions.**  For any caches and any query, the closest position of a
column in a node is in a positional map that has the first row of the node among its used rows, and was
there before the planning began; the distance leads from its column to the column. -/
theorem closest_position_known (q : QueryInfo) {rows : List Nat} (increasing : rows.Pairwise (· < ·))
    {caches : List (Cache D)} (packed : AllPacked caches) {a c : Nat} {b : Closest} (inside : a < rows.length - 1)
    (found : ((buildMatrix q rows caches).matrix a c).closest = some b) :
    ∃ cache, caches[b.cache]? = some cache ∧ cache.type = .positions ∧
      cache.hasRow (rows.getD a 0) = true ∧ b.column ∈ cache.cols ∧ b.distance = (c : Int) - b.column := by
  obtain ⟨claims, distance⟩ := anchor_known increasing packed inside found
  obtain ⟨cache, here, type, mem, hasRow⟩ := lane_claims_iff.1 claims
  exact ⟨cache, here, type, hasRow, mem, distance⟩

/-! ### Counting anchors -/

/-- Step 1 of `FillRow` for one column, with the number of anchors that `nreadViaPM` counts. -/
def countAnchor (node : Nat → Node) (acc : Nat × (Nat → ColDistance)) (col : Nat) : Nat × (Nat → ColDistance) :=
  match (node col).closest with
  | none => acc
  | some closest =>
    (if (acc.2 closest.column).cache = none then acc.1 + 1 else acc.1, widen node acc.2 col)

/-- `nreadViaPM` of the reply of `FillRow`: step 1 counts the entries that step 2 fills. -/
def nreadViaPM (byValue : Nat → Bool) (cols : List Nat) (request : RowRequest) (node : Nat → Node) : Nat :=
  if cols.any fun c => (node c).closest.isSome then
    ((cols.foldl (fillColumn byValue request node) ({}, [])).2.foldl (countAnchor node) (0, fun _ => {})).1
  else 0

/-- The column is the anchor of one of the columns. -/
def IsAnchor (node : Nat → Node) (cols : List Nat) (x : Nat) : Prop :=
  ∃ c ∈ cols, ∃ b, (node c).closest = some b ∧ b.column = x

/-- Step 1 has set the ranges, and counted the anchors. -/
structure Counted (node : Nat → Node) (done : List Nat) (acc : Nat × (Nat → ColDistance)) : Prop where
  widened : Widened node done acc.2
  seen : ∃ seen : List Nat, seen.Nodup ∧ seen.length = acc.1 ∧ ∀ x, x ∈ seen ↔ IsAnchor node done x

theorem Widened.cache_ne_none_iff {distances : Nat → ColDistance} (widened : Widened node done distances) {x : Nat} :
    (distances x).cache ≠ none ↔ IsAnchor node done x := by
  constructor
  · intro set
    obtain ⟨i, isCache⟩ := Option.ne_none_iff_exists'.1 set
    obtain ⟨c, mem, b, found, column, -⟩ := widened.cache isCache
    exact ⟨c, mem, b, found, column⟩
  · rintro ⟨c, mem, b, found, rfl⟩
    exact (widened.covers c mem b found).1

theorem isAnchor_append {x : Nat} :
    IsAnchor node (done ++ [col]) x ↔ IsAnchor node done x ∨ ∃ b, (node col).closest = some b ∧ b.column = x := by
  simp only [IsAnchor, mem_append, mem_singleton, or_and_right, exists_or, exists_eq_left]

theorem Counted.countAnchor {acc : Nat × (Nat → ColDistance)} (measured : Measured node cols)
    (counted : Counted node done acc) (mem : col ∈ cols) : Counted node (done ++ [col]) (countAnchor node acc col) := by
  have widened := counted.widened.widen measured mem
  obtain ⟨seen, nodup, length, anchors⟩ := counted.seen
  unfold PostgresRaw.countAnchor
  cases closest : (node col).closest with
  | none =>
    simp only [widen, closest] at widened
    refine ⟨widened, seen, nodup, length, fun x => (anchors x).trans ?_⟩
    rw [isAnchor_append, closest]
    simp
  | some b =>
    refine ⟨widened, ?_⟩
    by_cases new : (acc.2 b.column).cache = none
    · have notSeen : b.column ∉ seen := fun there =>
        counted.widened.cache_ne_none_iff.2 ((anchors b.column).1 there) new
      refine ⟨b.column :: seen, nodup_cons.2 ⟨notSeen, nodup⟩, by simp [new, length], fun x => ?_⟩
      rw [mem_cons, anchors, isAnchor_append, closest, or_comm]
      simp [eq_comm]
    · have there : IsAnchor node done b.column := counted.widened.cache_ne_none_iff.1 new
      refine ⟨seen, nodup, by simp [new, length], fun x => ?_⟩
      rw [anchors, isAnchor_append, closest]
      simp only [Option.some.injEq, exists_eq_left']
      refine (or_iff_left_of_imp ?_).symm
      rintro rfl
      exact there

theorem foldl_countAnchor (measured : Measured node cols) :
    Counted node cols (cols.foldl (countAnchor node) (0, fun _ => {})) := by
  refine Lists.foldl_invariant (Counted node) ?_ fun mem counted => counted.countAnchor measured mem
  exact ⟨⟨fun _ => .inl rfl, fun _ => Nat.zero_le _, fun _ _ => ⟨rfl, rfl⟩, nofun, by simp⟩,
    [], nodup_nil, rfl, by simp [IsAnchor]⟩

/-- Step 2 of `FillRow` reads no anchor twice. -/
theorem Anchored.nodup_readAnchor {distances : Nat → ColDistance} {r : FillRowReply}
    (anchored : Anchored node distances done r) (nodup : (r.readViaPM.map (·.col)).Nodup) (col : Nat) :
    ((PostgresRaw.readAnchor node distances r col).readViaPM.map (·.col)).Nodup := by
  unfold PostgresRaw.readAnchor
  split
  · exact nodup
  · next closest _ =>
    split
    · next forward backward cache distance =>
      split
      · next map added =>
        rw [map_append, nodup_append]
        refine ⟨nodup, by simp, fun x mem y isAnchor => ?_⟩
        obtain ⟨via, inside, rfl⟩ := mem_map.1 mem
        obtain rfl : y = closest.column := by simpa using isAnchor
        intro same
        -- An anchor that is read is in the map under its cache.
        obtain ⟨⟨i, there⟩, -⟩ := anchored.vias via inside
        have isCache := (anchored.maps there).1
        rw [same, distance] at isCache
        obtain rfl : cache = i := Option.some.inj isCache
        obtain ⟨entry, here, rfl, isCol⟩ := there
        rw [same] at isCol
        unfold addUniqueColToMap at added
        rw [if_pos (any_eq_true.2 ⟨entry, here, by simp [isCol]⟩)] at added
        cases added
      · exact nodup
    · exact nodup

/-- The anchors that `FillRow` reads, if there are positional maps. -/
theorem fillRow_readViaPM (byValue : Nat → Bool) (request : RowRequest) (measured : Measured node cols)
    (available : (cols.any fun c => (node c).closest.isSome) = true) :
    (fillRow byValue cols request node).readViaPM.length = nreadViaPM byValue cols request node ∧
      ((fillRow byValue cols request node).readViaPM.map (·.col)).Nodup ∧
      (fillRow byValue cols request node).collectFromFile = [] := by
  have filled := foldl_fillColumn byValue request node cols
  unfold fillRow nreadViaPM
  generalize cols.foldl (fillColumn byValue request node) ({}, []) = acc at filled
  obtain ⟨r, collect⟩ := acc
  simp only [if_pos available]
  have within : Measured node collect := fun c mem => measured c (filled.collect.1 mem).1
  have widened := foldl_widen within
  obtain ⟨anchored, same⟩ := foldl_readAnchor node (collect.foldl (widen node) fun _ => {}) collect
    filled.others.2
  have noMap : r.mapReadFromPM = [] := filled.others.2.1
  have noVia : r.readViaPM = [] := filled.others.2.2
  have nodup : ((collect.foldl (readAnchor node (collect.foldl (widen node) fun _ => {})) r).readViaPM.map
      (·.col)).Nodup := by
    refine (Lists.foldl_invariant (fun done (r' : FillRowReply) =>
      Anchored node (collect.foldl (widen node) fun _ => {}) done r' ∧ (r'.readViaPM.map (·.col)).Nodup)
      ⟨⟨?_, ?_, by simp⟩, ?_⟩ fun {_ col _} _ inv => ⟨inv.1.readAnchor col, inv.1.nodup_readAnchor inv.2 col⟩).2
    · simp [noMap]
    · simp [noVia]
    · simp [noVia]
  obtain ⟨seen, nodupSeen, length, anchors⟩ := (foldl_countAnchor within).seen
  refine ⟨?_, nodup, by rw [same]; exact filled.others.1⟩
  -- Both list every anchor once.
  rw [← length, ← length_map (f := fun via : ReadViaPM => via.col)]
  refine ((perm_ext_iff_of_nodup nodup nodupSeen).2 fun x => ?_).length_eq
  rw [anchors, mem_map]
  constructor
  · rintro ⟨via, mem, rfl⟩
    obtain ⟨⟨i, there⟩, -⟩ := anchored.vias via mem
    obtain ⟨c, inside, b, found, column, -⟩ := widened.cache (anchored.maps there).1
    exact ⟨c, inside, b, found, column⟩
  · rintro ⟨c, inside, b, found, rfl⟩
    exact ⟨_, anchored.covers c inside b found (widened.covers c inside b found).1, rfl⟩

/-- **Anchors reach every column.**  Whenever `FillRow` finds positional maps for a node of a matrix that
`BuildMatrix` has built, it fills as many entries as it has counted, no anchor occurs twice, each is
read from a positional map that holds it, and every column that is to be converted, or whose position is
to be stored, lies within the range of one of them. -/
theorem fillRow_anchors (byValue : Nat → Bool) (q : QueryInfo) {rows : List Nat}
    (increasing : rows.Pairwise (· < ·)) {caches : List (Cache D)} (shaped : AllShaped caches) {a : Nat}
    (inside : a < rows.length - 1) (request : RowRequest)
    (available : (q.cols.any fun c => ((buildMatrix q rows caches).matrix a c).closest.isSome) = true) :
    let node := (buildMatrix q rows caches).matrix a
    let r := fillRow byValue q.cols request node
    r.readViaPM.length = nreadViaPM byValue q.cols request node ∧ (r.readViaPM.map (·.col)).Nodup ∧
      (∀ via ∈ r.readViaPM, ∃ entry ∈ r.mapReadFromPM, via.col ∈ entry.cols ∧ ∃ cache,
        caches[entry.cache]? = some cache ∧ cache.type = .positions ∧ via.col ∈ cache.cols) ∧
      ∀ c, (c ∈ r.convert ∨ ∃ entry ∈ r.mapPositionsAdd, c ∈ entry.cols) → ∃ via ∈ r.readViaPM,
        (via.col : Int) - via.backward ≤ c ∧ (c : Int) ≤ via.col + via.forward := by
  intro node r
  have measured : Measured node q.cols := fun c _ b found => (anchor_known increasing shaped.packed inside found).2
  obtain ⟨length, nodup, noFile⟩ := fillRow_readViaPM byValue request measured available
  have filled := fillRow_spec byValue request measured fun c _ c' mem isSome =>
    anchor_all increasing shaped inside isSome mem
  refine ⟨length, nodup, ?_⟩
  rcases filled.access with ⟨-, noVia, needs⟩ | ⟨-, maps, vias, covers⟩
  · -- Nothing is needed.
    have idle : ∀ c ∈ q.cols, ¬ Needs request node c := fun c mem need => by
      have there := (needs c).2 ⟨mem, need⟩
      rw [noFile] at there
      cases there
    refine ⟨fun via mem => ?_, fun c isNeeded => ?_⟩
    · change via ∈ (fillRow byValue q.cols request node).readViaPM at mem
      rw [noVia] at mem
      cases mem
    · rcases isNeeded with convert | ⟨entry, there, mem⟩
      · obtain ⟨isCol, converts⟩ := filled.convert.1 convert
        exact absurd (.inl converts) (idle c isCol)
      · obtain ⟨isCol, writes, mark⟩ := filled.addPositions.1 ⟨entry, there, rfl, mem⟩
        exact absurd (.inr ⟨writes, _, mark⟩) (idle c isCol)
  · refine ⟨fun via mem => ?_, fun c isNeeded => ?_⟩
    · obtain ⟨⟨i, entry, there, isCache, isCol⟩, -⟩ := vias via mem
      refine ⟨entry, there, isCol, ?_⟩
      obtain ⟨c, -, b, found, column, cache⟩ := maps ⟨entry, there, isCache, isCol⟩
      obtain ⟨book, here, type, inBook, -⟩ := lane_claims_iff.1 (anchor_known increasing shaped.packed inside found).1
      rw [isCache, ← cache, ← column]
      exact ⟨book, here, type, inBook⟩
    · have isNeeded : c ∈ q.cols ∧ Needs request node c := by
        rcases isNeeded with convert | ⟨entry, there, mem⟩
        · obtain ⟨isCol, converts⟩ := filled.convert.1 convert
          exact ⟨isCol, .inl converts⟩
        · obtain ⟨isCol, writes, mark⟩ := filled.addPositions.1 ⟨entry, there, rfl, mem⟩
          exact ⟨isCol, .inr ⟨writes, _, mark⟩⟩
      obtain ⟨via, mem, first, last⟩ := covers c isNeeded.1 isNeeded.2
      exact ⟨via, mem, by omega, by omega⟩

/-- Planning leaves no cache without columns. -/
theorem AllShaped.buildMatrix (q : QueryInfo) (rows : List Nat) (shaped : AllShaped base) :
    AllShaped (buildMatrix q rows base).caches := by
  have missed : AllShaped (handleMisses q rows ⟨base, markHits q rows base⟩).caches :=
    handleMisses_induction (I := fun p => AllShaped p.caches) shaped fun _ _ shaped outcome => outcome.shaped shaped
  exact growToLastRow_induction (I := AllShaped) q _ _ _ missed fun i shaped => shaped.grow i _

end

/-! ### One positional map -/

/-- A positional map that has the column for the first two rows. -/
def positionRows (col : Nat) : Cache Nat :=
  noDBCacheSetUsedRows (noDBCacheAddColumn (noDBCacheInit .positions 0 64) col 4).2 2

theorem shaped_positionRows (col : Nat) : AllShaped [positionRows col] := by
  have added := addedColumn_noDBCacheInit (D := Nat) .positions 0 col
  refine forall_mem_singleton.2 ⟨⟨added.packed.map_isSome, added.packed.parts⟩, ?_⟩
  exact ne_of_eq_of_ne added.cols (cons_ne_nil col [])

/-- A query for two columns that are not in the positional map. -/
def otherColumns : QueryInfo := ⟨0, [], [1, 2], [1, 2], [1, 2]⟩

theorem closest_position_known_positionRows :
    ((buildMatrix otherColumns [0, 2] [positionRows 0]).matrix 0 2).closest = some ⟨0, 0, 2⟩ ∧
      ∃ cache, [positionRows 0][0]? = some cache ∧ cache.type = .positions ∧ cache.hasRow 0 = true ∧
        0 ∈ cache.cols := by
  have found : ((buildMatrix otherColumns [0, 2] [positionRows 0]).matrix 0 2).closest = some ⟨0, 0, 2⟩ := by decide
  obtain ⟨cache, here, type, hasRow, mem, -⟩ := closest_position_known otherColumns (by decide)
    (shaped_positionRows 0).packed (by decide) found
  exact ⟨found, cache, here, type, hasRow, mem⟩

theorem fillRow_anchors_positionRows :
    (fillRow (fun _ => true) otherColumns.cols ⟨[1, 2], [1, 2], [1, 2]⟩
        ((buildMatrix otherColumns [0, 2] [positionRows 0]).matrix 0)).readViaPM = [⟨0, 2, 0⟩] ∧
      (fillRow (fun _ => true) otherColumns.cols ⟨[1, 2], [1, 2], [1, 2]⟩
        ((buildMatrix otherColumns [0, 2] [positionRows 0]).matrix 0)).readViaPM.length =
        nreadViaPM (fun _ => true) otherColumns.cols ⟨[1, 2], [1, 2], [1, 2]⟩
          ((buildMatrix otherColumns [0, 2] [positionRows 0]).matrix 0) :=
  ⟨by decide, (fillRow_anchors (fun _ => true) otherColumns (by decide) (shaped_positionRows 0) (by decide)
    ⟨[1, 2], [1, 2], [1, 2]⟩ (by decide)).1⟩

end PostgresRaw
