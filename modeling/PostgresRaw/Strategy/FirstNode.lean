import PostgresRaw.Strategy.Build

/-!
# Columns that are added in the first node

At row 0 no cache can grow.  A column that is missing there is added to a cache that begins at row 0 and
has room for it, and gets a new cache if there is none.  If the query has a limit, caches that end behind
it are left alone.

For a plan of one node `buildMatrix_first` says which of the caches that were there may get a column, and
that one of them does as soon as there is such a cache and a column is missing.
-/

namespace PostgresRaw

open List

section

variable {D : Type} {q : QueryInfo} {last : Nat} {caches : List (Cache D)} {p : Planning D}

/-- The caches that a column of the type may be added to in the first node. -/
def firstCandidates (q : QueryInfo) (caches : List (Cache D)) (t : CacheType) : List Nat :=
  getCachesFreeColumns caches t q.limit 0 (columnSize t)

theorem mem_firstCandidates {t : CacheType} {i : Nat} :
    i ∈ firstCandidates q caches t ↔ ∃ cache, caches[i]? = some cache ∧ cache.type = t ∧ cache.startRow = 0 ∧
      columnSize t ≤ cache.rowFree ∧ (q.limit = 0 ∨ cache.endRow ≤ q.limit) :=
  mem_getCachesFreeColumns

/-! ### The caches that were there -/

/-- Caches that are as they were, with no more room than before, and others behind them. -/
structure Narrows (caches caches' : List (Cache D)) : Prop where
  length : caches.length ≤ caches'.length
  old : ∀ {i : Nat} {cache : Cache D}, caches[i]? = some cache → ∃ cache', caches'[i]? = some cache' ∧
    cache'.type = cache.type ∧ cache'.startRow = cache.startRow ∧ cache'.usedRows = cache.usedRows ∧
    cache'.rowFree ≤ cache.rowFree

theorem Narrows.refl (caches : List (Cache D)) : Narrows caches caches :=
  ⟨le_rfl, fun here => ⟨_, here, rfl, rfl, rfl, le_rfl⟩⟩

theorem Narrows.trans {a b c : List (Cache D)} (first : Narrows a b) (second : Narrows b c) : Narrows a c where
  length := le_trans first.length second.length
  old here := by
    obtain ⟨cache', here', type, start, used, room⟩ := first.old here
    obtain ⟨cache'', here'', type', start', used', room'⟩ := second.old here'
    exact ⟨cache'', here'', type'.trans type, start'.trans start, used'.trans used, le_trans room' room⟩

theorem narrows_addColumn (t : CacheType) (rows : List Nat) (rowIdx col i : Nat) :
    Narrows p.caches (addColumn p t rows rowIdx col i).caches where
  length := le_of_eq (length_modify ..).symm
  old {j cache} here := by
    rw [getElem?_addColumn, here, Option.map_some]
    refine ⟨_, rfl, ?_⟩
    split
    · exact noDBCacheAddColumn_narrows cache col (columnSize t)
    · exact ⟨rfl, rfl, rfl, le_rfl⟩

theorem narrows_newCache (t : CacheType) (row rowIdx col : Nat) :
    Narrows p.caches (newCache p t row rowIdx col).caches where
  length := by
    change _ ≤ (p.caches ++ [_]).length
    rw [length_append]
    omega
  old {j cache} here := by
    refine ⟨cache, ?_, rfl, rfl, rfl, le_rfl⟩
    change (p.caches ++ [_])[j]? = _
    rw [List.getElem?_append_left (List.getElem?_eq_some_iff.1 here).1, here]

/-- A cache that a column may be added to now could have got one before. -/
theorem Narrows.mem_firstCandidates {caches' : List (Cache D)} (narrows : Narrows caches caches') {t : CacheType}
    {i : Nat} (there : i < caches.length) (mem : i ∈ firstCandidates q caches' t) : i ∈ firstCandidates q caches t := by
  obtain ⟨cache', here', type', start', room', limit⟩ := PostgresRaw.mem_firstCandidates.1 mem
  obtain ⟨cache'', here'', type, start, used, room⟩ := narrows.old (getElem?_eq_getElem there)
  obtain rfl : cache'' = cache' := Option.some.inj (here''.symm.trans here')
  refine PostgresRaw.mem_firstCandidates.2 ⟨_, getElem?_eq_getElem there, type.symm.trans type', start.symm.trans start',
    le_trans room' room, ?_⟩
  rwa [Cache.endRow, ← start, ← used]

/-- Caches of the other type do not matter. -/
theorem mem_firstCandidates_addColumn {t t' : CacheType} (different : t ≠ t') {rows : List Nat} {rowIdx col i : Nat}
    (chosen : i ∈ firstCandidates q p.caches t') (j : Nat) :
    j ∈ firstCandidates q (addColumn p t' rows rowIdx col i).caches t ↔ j ∈ firstCandidates q p.caches t := by
  obtain ⟨cache, here, type, -⟩ := PostgresRaw.mem_firstCandidates.1 chosen
  rw [PostgresRaw.mem_firstCandidates, PostgresRaw.mem_firstCandidates]
  rw [getElem?_addColumn]
  by_cases same : i = j
  · -- The cache is of the other type, before and after.
    subst same
    rw [here, Option.map_some, if_pos rfl]
    refine iff_of_false ?_ ?_
    · rintro ⟨cache', here', type', -⟩
      rw [← Option.some.inj here', (noDBCacheAddColumn_narrows cache col (columnSize t')).1, type] at type'
      exact different type'.symm
    · rintro ⟨cache', here', type', -⟩
      rw [← Option.some.inj here', type] at type'
      exact different type'.symm
  · simp only [same, if_false, Option.map_id_fun', id_eq]

theorem mem_firstCandidates_newCache {t t' : CacheType} (different : t ≠ t') {row rowIdx col : Nat} (j : Nat) :
    j ∈ firstCandidates q (newCache p t' row rowIdx col).caches t ↔ j ∈ firstCandidates q p.caches t := by
  rw [PostgresRaw.mem_firstCandidates, PostgresRaw.mem_firstCandidates]
  constructor
  · rintro ⟨cache, here, type, rest⟩
    refine ⟨cache, ?_, type, rest⟩
    rw [← here]
    refine (getElem?_append_left (Nat.lt_of_not_le fun behind => ?_)).symm
    change (p.caches ++ [_])[j]? = _ at here
    rw [getElem?_append_right behind, getElem?_singleton] at here
    split at here
    · cases here
      exact different ((noDBCacheAddColumn_narrows _ col _).1.symm.trans type).symm
    · cases here
  · rintro ⟨cache, here, rest⟩
    refine ⟨cache, ?_, rest⟩
    change (p.caches ++ [_])[j]? = _
    rw [List.getElem?_append_left (List.getElem?_eq_some_iff.1 here).1, here]

/-! ### The second pass on the first node -/

variable (q caches) in
/-- **What has been added**, when the columns `handled` of the type are done: a cache that was there has
got a column only if it was a candidate, and one of the candidates has got one, unless no column was
missing. -/
structure FirstAdds (t : CacheType) (handled : Nat → Prop) (p : Planning D) : Prop where
  narrows : Narrows caches p.caches
  adds : ∀ {c i}, (p.matrix 0 c).mark t = .add i → i < caches.length → i ∈ firstCandidates q caches t
  first : firstCandidates q caches t ≠ [] →
    (∃ c i, (p.matrix 0 c).mark t = .add i ∧ i < caches.length) ∨
      (∀ i, i ∈ firstCandidates q p.caches t ↔ i ∈ firstCandidates q caches t) ∧
        (∀ c i, (p.matrix 0 c).mark t ≠ .add i) ∧
        ∀ c, handled c → c ∈ q.write t → (p.matrix 0 c).mark t ≠ .unknown

namespace FirstAdds

variable {t t' : CacheType} {handled : Nat → Prop} {col : Nat}

/-- The mark of a column that had none. -/
theorem mark_setMark {m : Matrix} {n : Nat} {v : Mark} (c : Nat) :
    ((m.setMark t' 0 n [col] v) 0 c).mark t = if t = t' ∧ c = col then v else (m 0 c).mark t := by
  rw [Matrix.setMark_mark]
  exact if_congr (by simp) rfl rfl

/-- A mark for a column that had none. -/
theorem setMark (adds : FirstAdds q caches t handled p) (unknown : (p.matrix 0 col).mark t' = .unknown)
    {caches' : List (Cache D)} (narrows : Narrows p.caches caches') {n : Nat} {v : Mark}
    (old : t = t' → ∀ i, v = .add i → i < caches.length → i ∈ firstCandidates q caches t)
    (first : t = t' → firstCandidates q caches t ≠ [] →
      (∀ i, i ∈ firstCandidates q p.caches t ↔ i ∈ firstCandidates q caches t) →
        (∃ i, v = .add i ∧ i < caches.length) ∨ v = .miss ∧ caches' = p.caches)
    (same : t ≠ t' → ∀ i, i ∈ firstCandidates q caches' t ↔ i ∈ firstCandidates q p.caches t) :
    FirstAdds q caches t (fun c => handled c ∨ t = t' ∧ c = col) ⟨caches', p.matrix.setMark t' 0 n [col] v⟩ where
  narrows := adds.narrows.trans narrows
  adds {c i} mark there := by
    rw [mark_setMark] at mark
    split at mark
    · next here => exact old here.1 i mark there
    · exact adds.adds mark there
  first some := by
    rcases adds.first some with ⟨c, i, mark, there⟩ | ⟨candidates, none, done⟩
    · refine .inl ⟨c, i, ?_, there⟩
      rw [mark_setMark, if_neg]
      · exact mark
      · rintro ⟨rfl, rfl⟩
        rw [unknown] at mark
        cases mark
    · by_cases type : t = t'
      · rcases first type some candidates with ⟨i, add, there⟩ | ⟨rfl, rfl⟩
        · exact .inl ⟨col, i, by rw [mark_setMark, if_pos ⟨type, rfl⟩, add], there⟩
        · refine .inr ⟨candidates, fun c i => ?_, fun c isHandled writes => ?_⟩
          · rw [mark_setMark]
            split
            · nofun
            · exact none c i
          · rw [mark_setMark]
            split
            · nofun
            · next other => exact done c (isHandled.resolve_right other) writes
      · refine .inr ⟨fun i => (same type i).trans (candidates i), fun c i => ?_, fun c isHandled writes => ?_⟩
        · rw [mark_setMark, if_neg fun here => type here.1]
          exact none c i
        · rw [mark_setMark, if_neg fun here => type here.1]
          exact done c (isHandled.resolve_right fun here => type here.1) writes

theorem missCell (adds : FirstAdds q caches t handled p) (candidates : List Nat) (col : Nat) (t' : CacheType) :
    FirstAdds q caches t (fun c => handled c ∨ t = t' ∧ c = col) (missCell q [0, last] 0 candidates col t' p) := by
  have outcome := missCell_outcome q [0, last] 0 candidates col t' p
  generalize PostgresRaw.missCell q [0, last] 0 candidates col t' p = p' at outcome
  cases outcome with
  | settled settled =>
    refine ⟨adds.narrows, adds.adds, fun some => (adds.first some).imp_right ?_⟩
    rintro ⟨same, none, done⟩
    refine ⟨same, none, fun c isHandled writes => ?_⟩
    rcases isHandled with before | ⟨rfl, rfl⟩
    · exact done c before writes
    · exact mark_ne_unknown settled writes
  | miss unknown =>
    exact adds.setMark unknown (.refl _) (fun _ _ => nofun) (fun _ _ _ => .inr ⟨rfl, rfl⟩) fun _ _ => Iff.rfl
  | grow _ _ choice => exact absurd rfl (mem_getCachesCanGrow.1 choice).1
  | @add unknown writes i chosen =>
    refine adds.setMark unknown (narrows_addColumn t' [0, last] 0 col i) ?_ ?_ fun different =>
      mem_firstCandidates_addColumn different chosen
    · rintro rfl j same there
      obtain rfl := Mark.add.inj same
      exact adds.narrows.mem_firstCandidates there chosen
    · rintro rfl some same
      obtain ⟨cache, here, -⟩ := PostgresRaw.mem_firstCandidates.1 ((same i).1 chosen)
      exact .inl ⟨i, rfl, (List.getElem?_eq_some_iff.1 here).1⟩
  | create unknown writes none =>
    refine adds.setMark unknown (narrows_newCache t' 0 0 col) ?_ ?_ fun different => mem_firstCandidates_newCache different
    · rintro rfl j same there
      obtain rfl := Mark.add.inj same
      exact absurd adds.narrows.length (not_le.2 there)
    · rintro rfl some same
      obtain ⟨i, mem⟩ := exists_mem_of_ne_nil _ some
      have mem := (same i).2 mem
      rw [show firstCandidates q p.caches t = [] from none] at mem
      cases mem

end FirstAdds

theorem firstAdds_handleMisses (packed : AllPacked caches) (t : CacheType) :
    FirstAdds q caches t (· ∈ q.cols) (handleMisses q [0, last] ⟨caches, markHits q [0, last] caches⟩) := by
  have noAdd := fun c => markHits_ne_add q [0, last] packed 0 c t
  refine Lists.foldl_invariant (fun handled p => FirstAdds q caches t (· ∈ handled) p) ?_
    fun {handled col p} _ adds => ?_
  · exact ⟨.refl _, fun mark => absurd mark (noAdd _ _), fun _ => .inr ⟨fun _ => Iff.rfl, noAdd, nofun⟩⟩
  · have data := @adds.missCell _ _ last _ _ _ _ (growCandidates q (markHits q [0, last] caches) .data 0) col .data
    have both := @data.missCell _ _ last _ _ _ _ (growCandidates q (markHits q [0, last] caches) .positions 0) col .positions
    refine ⟨both.narrows, both.adds, fun some => (both.first some).imp_right ?_⟩
    rintro ⟨same, none, done⟩
    refine ⟨same, none, fun c mem => done c ?_⟩
    rcases mem_append.1 mem with before | now
    · exact .inl (.inl before)
    · cases t with
      | data => exact .inl (.inr ⟨rfl, mem_singleton.1 now⟩)
      | positions => exact .inr ⟨rfl, mem_singleton.1 now⟩

/-- **The caches that get a column in a plan of one node.**  One that was there is a candidate for its type;
and one of the candidates gets a column if a column is missing. -/
theorem buildMatrix_first (increasing : [0, last].Pairwise (· < ·)) (shaped : AllShaped caches)
    (tidy : ∀ t, (lane caches t).Tidy) (aligned : ∀ t, (lane caches t).Aligned (cutsOf [0, last] increasing))
    (t : CacheType) : (∀ {c i}, ((buildMatrix q [0, last] caches).matrix 0 c).mark t = .add i → i < caches.length →
      i ∈ firstCandidates q caches t) ∧
    (firstCandidates q caches t ≠ [] → ∀ c ∈ q.write t, ¬ (lane caches t).Covers c 0 →
      ∃ c i, ((buildMatrix q [0, last] caches).matrix 0 c).mark t = .add i ∧ i < caches.length) := by
  have adds := @firstAdds_handleMisses D q last caches shaped.packed t
  have built := buildMatrix_spec q increasing shaped tidy aligned
  have missed := handleMisses_spec q increasing shaped tidy aligned
  have mark := buildMatrix_mark q [0, last] caches 0
  refine ⟨fun {c i} add => ?_, fun some c writes missing => ?_⟩
  · rw [mark] at add
    exact adds.adds add
  · rcases adds.first some with ⟨c, i, add, there⟩ | ⟨-, none, done⟩
    · exact ⟨c, i, by rw [mark, add], there⟩
    · exfalso
      cases state : ((buildMatrix q [0, last] caches).matrix 0 c).mark t with
      | hit j => exact missing ⟨j, built.hit state⟩
      | unknown =>
        rw [mark] at state
        exact done c (q.write_subset_cols t writes) writes state
      | miss =>
        rw [mark] at state
        exact missed.misses state writes
      | add i =>
        rw [mark] at state
        exact none c i state

end

end PostgresRaw
