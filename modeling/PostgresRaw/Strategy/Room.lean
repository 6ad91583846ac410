import PostgresRaw.Strategy.Covering

/-!
# Room for the rows of a node

`BuildMatrix` marks caches to be written in every node, but allocates rows in few places: a cache
that grows gets the first row of the node, a cache that is created gets none, and
`GrowToLastRow` sees to the last node only.  So what can be said about the buffers is said about
the last node; `buildMatrix_fits` therefore asks that nothing is missing before it.
-/

namespace PostgresRaw

open List

section

variable {D : Type}

/-- Every cache marked in a node has a buffer that reaches the end of the node. -/
def WrittenRowsFit (rows : List Nat) (p : Planning D) : Prop :=
  ∀ k < rows.length - 1, ∀ {c t j}, (p.matrix k c).mark t = .add j →
    ∃ cache maxRows, p.caches[j]? = some cache ∧ cache.maxRows = some maxRows ∧
      rows.getD (k + 1) 0 - cache.startRow ≤ maxRows

/-- The columns that the query may write are in caches in use at the first row of each node
before the last one. -/
def MissingInLastOnly (q : QueryInfo) (rows : List Nat) (caches : List (Cache D)) : Prop :=
  ∀ k, k + 1 < rows.length - 1 → ∀ t, ∀ c ∈ q.write t, ∃ cache ∈ caches,
    cache.type = t ∧ cache.hasColumn c = true ∧ cache.hasRow (rows.getD k 0) = true

/-! ### No marks before the last node -/

variable (q : QueryInfo) (rows : List Nat) (caches : List (Cache D))

/-- The second pass has added nothing before the last node, and marks only caches that are there,
for columns to be written. -/
structure AddsInLast (p : Planning D) : Prop where
  early : ∀ {a}, a + 1 < rows.length - 1 → ∀ c t,
    (p.matrix a c).mark t = (markHits q rows caches a c).mark t ∨ (p.matrix a c).mark t = .miss
  adds : ∀ {a c t j}, (p.matrix a c).mark t = .add j → c ∈ q.write t ∧ j < p.caches.length

variable {q rows caches} {p : Planning D}

/-- What is to be written is a hit before the last node. -/
theorem MissingInLastOnly.isHit (missing : MissingInLastOnly q rows caches) (packed : AllPacked caches)
    {k : Nat} (early : k + 1 < rows.length - 1) {t : CacheType} {c : Nat} (writes : c ∈ q.write t) :
    ((markHits q rows caches k c).mark t).isHit = true := by
  obtain ⟨cache, mem, type, hasColumn, hasRow⟩ := missing k early t c writes
  obtain ⟨i, here⟩ := getElem?_of_mem mem
  exact isHit_markHits packed (by omega) writes
    ⟨i, lane_claims_iff.2 ⟨cache, here, type, (packed.hasColumn here c).1 hasColumn, hasRow⟩⟩

/-- A step that marks columns in the last node, and behind it. -/
theorem AddsInLast.setMark (inLast : AddsInLast q rows caches p) {caches' : List (Cache D)}
    (length : p.caches.length ≤ caches'.length) {t : CacheType} {lo n j : Nat} {cols : List Nat}
    (isLast : rows.length - 1 ≤ lo + 1) (writes : ∀ c ∈ cols, c ∈ q.write t) (there : j < caches'.length) :
    AddsInLast q rows caches ⟨caches', p.matrix.setMark t lo n cols (.add j)⟩ where
  early {a} before c t' := by
    rw [Matrix.setMark_mark, if_neg (by omega)]
    exact inLast.early before c t'
  adds {a c t' j'} mark := by
    rw [Matrix.setMark_mark] at mark
    split at mark
    · next inside =>
      obtain rfl : j = j' := Mark.add.inj mark
      exact ⟨inside.1 ▸ writes c inside.2.2.2, there⟩
    · obtain ⟨writes', there'⟩ := inLast.adds mark
      exact ⟨writes', lt_of_lt_of_le there' length⟩

theorem AddsInLast.miss (inLast : AddsInLast q rows caches p) (t : CacheType) (a col : Nat) :
    AddsInLast q rows caches { p with matrix := p.matrix.setMark t a 0 [col] .miss } where
  early {a'} before c t' := by
    rw [Matrix.setMark_mark]
    split
    · exact .inr rfl
    · exact inLast.early before c t'
  adds {a' c t' j} mark := by
    rw [Matrix.setMark_mark] at mark
    split at mark
    · cases mark
    · exact inLast.adds mark

section

variable (packed : AllPacked caches) (missing : MissingInLastOnly q rows caches)

include packed missing

theorem AddsInLast.step (inLast : AddsInLast q rows caches p)
    {a col : Nat} {m : Matrix} {t : CacheType} {p' : Planning D}
    (outcome : MissOutcome q rows a (growCandidates q m t a) col t p p') : AddsInLast q rows caches p' := by
  have isLast : (p.matrix a col).mark t = .unknown → col ∈ q.write t → rows.length - 1 ≤ a + 1 := by
    intro unknown writes
    by_contra early
    have hit := missing.isHit packed (not_le.1 early) writes
    rcases inLast.early (not_le.1 early) col t with same | miss
    · rw [← same, unknown] at hit
      cases hit
    · rw [unknown] at miss
      cases miss
  cases outcome with
  | settled => exact inLast
  | miss => exact inLast.miss t a col
  | grow unknown writes choice =>
    obtain ⟨-, cache, here, -⟩ := mem_getCachesCanGrow.1 choice
    exact inLast.setMark (by simp) (isLast unknown writes)
      (fun c mem => (mem_growCandidates_iff.1 (mem_filter.1 mem).1).1)
      (by simpa using (List.getElem?_eq_some_iff.1 here).1)
  | add unknown writes choice =>
    obtain ⟨cache, here, -⟩ := mem_getCachesFreeColumns.1 choice
    exact inLast.setMark (by simp) (isLast unknown writes) (forall_mem_singleton.2 writes)
      (by simpa using (List.getElem?_eq_some_iff.1 here).1)
  | create unknown writes =>
    exact inLast.setMark (by simp) (isLast unknown writes) (forall_mem_singleton.2 writes) (by simp)

theorem addsInLast_handleMisses :
    AddsInLast q rows caches (handleMisses q rows ⟨caches, markHits q rows caches⟩) :=
  handleMisses_induction ⟨fun _ _ _ => .inl rfl, fun mark => absurd mark (markHits_ne_add q rows packed _ _ _ _)⟩
    fun _ _ inLast outcome => inLast.step packed missing outcome

/-- The caches marked by `BuildMatrix` have room for the rows of their node, if nothing is missing
before the last one. -/
theorem buildMatrix_fits :
    WrittenRowsFit rows (buildMatrix q rows caches) := by
  have inLast := addsInLast_handleMisses packed missing
  unfold buildMatrix
  generalize handleMisses q rows ⟨caches, markHits q rows caches⟩ = p at inLast ⊢
  simp only
  have mark := foldl_closestRow_mark q rows p.caches p.matrix (rows.length - 1)
  generalize (List.range (rows.length - 1)).foldl (closestRow q rows p.caches) p.matrix = m at mark ⊢
  have room := growToLastRow_marked
    (Q := fun cache => ∃ maxRows, cache.maxRows = some maxRows ∧
      rows.getD (rows.length - 1) 0 - cache.startRow ≤ maxRows) q m (rows.length - 2)
    (rows.getD (rows.length - 1) 0 - 1) p.caches fun cache => by
      obtain ⟨maxRows, isMax, enough, -⟩ := maxRows_noDBCacheGrow cache (rows.getD (rows.length - 1) 0 - 1)
      refine ⟨maxRows, isMax, ?_⟩
      change rows.getD (rows.length - 1) 0 - cache.startRow ≤ maxRows
      omega
  have length : (growToLastRow q m (rows.length - 2) (rows.getD (rows.length - 1) 0 - 1) p.caches).length =
      p.caches.length :=
    growToLastRow_induction (I := fun caches => caches.length = p.caches.length) q m _ _ rfl
      fun _ same => by rw [length_modify, same]
  intro k inside c t j isAdd
  have isAdd' := isAdd
  rw [mark] at isAdd'
  obtain ⟨writes, there⟩ := inLast.adds isAdd'
  obtain rfl : k = rows.length - 2 := by
    by_contra other
    rcases inLast.early (show k + 1 < rows.length - 1 by omega) c t with same | miss
    · rw [isAdd'] at same
      rcases (markHits_spec q rows packed).mark_cases t k c with unknown | ⟨i, hit, -⟩
      · rw [unknown] at same
        cases same
      · rw [hit] at same
        cases same
    · rw [isAdd'] at miss
      cases miss
  obtain ⟨cache, here⟩ : ∃ cache, (growToLastRow q m (rows.length - 2)
      (rows.getD (rows.length - 1) 0 - 1) p.caches)[j]? = some cache :=
    ⟨_, getElem?_eq_getElem (by rw [length]; exact there)⟩
  obtain ⟨maxRows, isMax, enough⟩ := room c (q.write_subset_cols t writes) t j cache isAdd here
  refine ⟨cache, maxRows, here, isMax, ?_⟩
  rwa [show rows.length - 2 + 1 = rows.length - 1 by omega]

end

end

end PostgresRaw
