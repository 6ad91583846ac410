import PostgresRaw.Library.LedgerRun
import PostgresRaw.Library.Lists
import PostgresRaw.Strategy.Matrix

/-!
# What planning finds in the caches

The caches of one type form a ledger: a cache is a book that claims the rows `startRow ..` of
its columns.  `markHits_spec` says what the first pass of `BuildMatrix` marks: hits are claims
of the ledger, and every claim of a data cache is found.

The third pass looks for the closest known position; `closestRow_spec` says that what it finds
is a claim of a positional map that the node does not write.
-/

namespace PostgresRaw

open List

section

variable {D : Type}

/-! ### Caches as a ledger -/

/-- The caches of a type as a ledger: which rows of which columns they claim. -/
def lane (caches : List (Cache D)) (t : CacheType) : Ledger Nat Nat where
  start i := caches[i]?.elim 0 (·.startRow)
  stop i := caches[i]?.elim 0 (·.endRow)
  has i c := ∃ cache, caches[i]? = some cache ∧ cache.type = t ∧ c ∈ cache.cols

variable {cache : Cache D} {t : CacheType} {caches : List (Cache D)} {i c : Nat}

theorem lane_start (here : caches[i]? = some cache) : (lane caches t).start i = cache.startRow := by
  simp [lane, here]

theorem lane_stop {caches : List (Cache D)} {t : CacheType} {i : Nat} {cache : Cache D}
    (here : caches[i]? = some cache) : (lane caches t).stop i = cache.endRow := by
  simp [lane, here]

theorem lane_has (here : caches[i]? = some cache) : (lane caches t).has i c ↔ cache.type = t ∧ c ∈ cache.cols := by
  simp [lane, here]

theorem Cache.hasRow_iff {r : Nat} : cache.hasRow r = true ↔ cache.startRow ≤ r ∧ r < cache.endRow := by
  simp [Cache.hasRow, Cache.endRow]

theorem lane_claims_iff {r : Nat} : (lane caches t).Claims i c r ↔
      ∃ cache, caches[i]? = some cache ∧ cache.type = t ∧ c ∈ cache.cols ∧ cache.hasRow r := by
  constructor
  · rintro ⟨⟨cache, here, type, mem⟩, first, last⟩
    rw [lane_start here] at first
    rw [lane_stop here] at last
    exact ⟨cache, here, type, mem, Cache.hasRow_iff.2 ⟨first, last⟩⟩
  · rintro ⟨cache, here, type, mem, row⟩
    obtain ⟨first, last⟩ := Cache.hasRow_iff.1 row
    exact ⟨⟨cache, here, type, mem⟩, by rwa [lane_start here], by rwa [lane_stop here]⟩

/-- The layouts of all caches are as adding columns leaves them. -/
def AllPacked (caches : List (Cache D)) : Prop := ∀ cache ∈ caches, cache.Packed

theorem AllPacked.hasColumn (packed : AllPacked caches) (here : caches[i]? = some cache) (c : Nat) :
    cache.hasColumn c = true ↔ c ∈ cache.cols :=
  (packed cache (mem_of_getElem? here)).map_isSome c

/-! ### Choosing -/

theorem mem_selectCaches {p : Cache D → Bool} :
    i ∈ selectCaches caches p ↔ ∃ cache, caches[i]? = some cache ∧ p cache = true := by
  rw [selectCaches, mem_filter, mem_range]
  constructor
  · rintro ⟨-, chosen⟩
    cases here : caches[i]? with
    | none => simp [here] at chosen
    | some cache => exact ⟨cache, rfl, by simpa [here] using chosen⟩
  · rintro ⟨cache, here, chosen⟩
    exact ⟨(List.getElem?_eq_some_iff.1 here).1, by simpa [here] using chosen⟩

/-- What the choice loop knows after the candidates `done`. -/
def BestSoFar (score : Nat → Nat) (candidates done : List Nat) : Option Nat × Nat → Prop
  | (some i, n) => i ∈ candidates ∧ 0 < score i ∧ n = score i
  | (none, n) => n = 0 ∧ ∀ i ∈ done, score i = 0

theorem bestSoFar_bestBy (score : Nat → Nat) (candidates : List Nat) :
    ∃ n, BestSoFar score candidates candidates (bestBy score candidates, n) := by
  refine ⟨_, Lists.foldl_invariant (BestSoFar score candidates) ⟨rfl, by simp⟩ ?_⟩
  rintro done i ⟨best, n⟩ mem inv
  dsimp only
  by_cases better : n < score i
  · rw [if_pos better]
    exact ⟨mem, by omega, rfl⟩
  · rw [if_neg better]
    cases best with
    | some j => exact inv
    | none =>
      obtain ⟨rfl, zero⟩ := inv
      refine ⟨rfl, fun j mem' => ?_⟩
      rcases mem_append.1 mem' with old | new
      · exact zero j old
      · obtain rfl : j = i := by simpa using new
        omega

/-- The choice loop ends with a candidate of positive score. -/
theorem mem_of_bestBy {score : Nat → Nat} {candidates : List Nat} (choice : bestBy score candidates = some i) :
    i ∈ candidates ∧ 0 < score i := by
  obtain ⟨n, best⟩ := bestSoFar_bestBy score candidates
  rw [choice] at best
  exact ⟨best.1, best.2.1⟩

theorem eq_zero_of_bestBy {score : Nat → Nat} {candidates : List Nat} (none : bestBy score candidates = none)
    (mem : i ∈ candidates) : score i = 0 := by
  obtain ⟨n, best⟩ := bestSoFar_bestBy score candidates
  rw [none] at best
  exact best.2 i mem

theorem mem_cacheCols (packed : AllPacked caches) {cols : List Nat} (here : caches[i]? = some cache) :
    c ∈ cacheCols caches i cols ↔ c ∈ cols ∧ c ∈ cache.cols := by
  simp [cacheCols, here, packed.hasColumn here]

/-! ### Marks -/

section

variable (m : Matrix) (cols : List Nat)

@[simp] theorem Matrix.setMark_mark (t t' : CacheType) (lo n : Nat)
    (v : Mark) (a c : Nat) : (m.setMark t lo n cols v a c).mark t' =
      if t' = t ∧ lo ≤ a ∧ a ≤ lo + n ∧ c ∈ cols then v else (m a c).mark t' := by
  unfold Matrix.setMark
  by_cases inside : lo ≤ a ∧ a ≤ lo + n ∧ c ∈ cols
  · by_cases same : t' = t
    · subst same; simp [inside]
    · simp [inside, same]
  · simp [inside]

@[simp] theorem Matrix.setMark_closest (t : CacheType) (lo n : Nat)
    (v : Mark) (a c : Nat) : (m.setMark t lo n cols v a c).closest = (m a c).closest := by
  unfold Matrix.setMark
  split <;> rfl

@[simp] theorem Matrix.setClosest_mark (i : Nat) (closest : Nat → Closest) (a c : Nat) :
    (m.setClosest i cols closest a c).mark = (m a c).mark := by
  unfold Matrix.setClosest
  split <;> rfl

@[simp] theorem Matrix.setClosest_closest (i : Nat)
    (closest : Nat → Closest) (a c : Nat) : (m.setClosest i cols closest a c).closest =
      if a = i ∧ c ∈ cols then some (closest c) else (m a c).closest := by
  unfold Matrix.setClosest
  split <;> rfl

@[simp] theorem markHit_mark (t t' : CacheType) (a : Nat) (i a' c : Nat) :
    (markHit m t a cols i a' c).mark t' =
      if t' = t ∧ a' = a ∧ c ∈ cols then .hit i else (m a' c).mark t' := by
  have here : a ≤ a' ∧ a' ≤ a + 0 ∧ c ∈ cols ↔ a' = a ∧ c ∈ cols := by
    rw [← and_assoc, show a ≤ a' ∧ a' ≤ a + 0 ↔ a' = a by omega]
  cases t <;> simp only [markHit, Matrix.setMark_mark, Matrix.setClosest_mark, here]

@[simp] theorem markHit_closest (t : CacheType) (a : Nat) (i a' c : Nat) : (markHit m t a cols i a' c).closest =
      if .positions = t ∧ a' = a ∧ c ∈ cols then some ⟨i, c, 0⟩ else (m a' c).closest := by
  cases t <;> simp [markHit]

end

/-! ### The first pass -/

/-- What the first pass has marked after handling some cells: hits are claims, a hit of a
positional map is its own closest position, and in the cells handled a claim is found.  A claim
of a positional map counts only if the data is not cached or the position is to be written. -/
structure Hits (q : QueryInfo) (rows : List Nat) (caches : List (Cache D)) (m : Matrix)
    (handled : CacheType → Nat → Nat → Prop) : Prop where
  data : ∀ a c, (m a c).mark .data = .unknown ∨
    ∃ i, (m a c).mark .data = .hit i ∧ (lane caches .data).Claims i c (rows.getD a 0)
  positions : ∀ a c, ((m a c).mark .positions = .unknown ∧ (m a c).closest = none) ∨
    ∃ i, (m a c).mark .positions = .hit i ∧ (m a c).closest = some ⟨i, c, 0⟩ ∧
      (lane caches .positions).Claims i c (rows.getD a 0)
  found : ∀ {t a c}, handled t a c → (lane caches t).Covers c (rows.getD a 0) →
    (t = .data ∨ ¬ (lane caches .data).Covers c (rows.getD a 0) ∨ c ∈ q.writePositions) →
      ((m a c).mark t).isHit = true

namespace Hits

variable {q : QueryInfo} {rows : List Nat} {caches : List (Cache D)} {m : Matrix}
  {handled : CacheType → Nat → Nat → Prop}

section

variable (hits : Hits q rows caches m handled)

include hits

theorem mark_cases (t : CacheType) (a c : Nat) : (m a c).mark t = .unknown ∨
      ∃ i, (m a c).mark t = .hit i ∧ (lane caches t).Claims i c (rows.getD a 0) := by
  cases t with
  | data => exact hits.data a c
  | positions =>
    rcases hits.positions a c with ⟨unknown, -⟩ | ⟨i, hit, -, claims⟩
    · exact .inl unknown
    · exact .inr ⟨i, hit, claims⟩

theorem mono {handled' : CacheType → Nat → Nat → Prop}
    (fewer : ∀ {t a c}, handled' t a c → handled t a c) : Hits q rows caches m handled' where
  __ := hits
  found isHandled := hits.found (fewer isHandled)

/-- Marking a hit on columns that the cache claims. -/
theorem markHit {t : CacheType} {a i : Nat} (cols : List Nat)
    (claims : ∀ c ∈ cols, (lane caches t).Claims i c (rows.getD a 0)) :
    Hits q rows caches (markHit m t a cols i) fun t' a' c => handled t' a' c ∨ t' = t ∧ a' = a ∧ c ∈ cols := by
  refine ⟨fun a' c => ?_, fun a' c => ?_, fun {t' a' c} => ?_⟩
  · rw [markHit_mark]
    by_cases inside : .data = t ∧ a' = a ∧ c ∈ cols
    · obtain ⟨rfl, rfl, mem⟩ := inside
      exact .inr ⟨i, if_pos ⟨rfl, rfl, mem⟩, claims c mem⟩
    · rw [if_neg inside]
      exact hits.data a' c
  · rw [markHit_mark, markHit_closest]
    by_cases inside : .positions = t ∧ a' = a ∧ c ∈ cols
    · obtain ⟨rfl, rfl, mem⟩ := inside
      exact .inr ⟨i, if_pos ⟨rfl, rfl, mem⟩, if_pos ⟨rfl, rfl, mem⟩, claims c mem⟩
    · rw [if_neg inside, if_neg inside]
      exact hits.positions a' c
  · rintro old covers counts
    rw [markHit_mark]
    by_cases inside : t' = t ∧ a' = a ∧ c ∈ cols
    · rw [if_pos inside]
      rfl
    · rw [if_neg inside]
      rcases old with old | new
      · exact hits.found old covers counts
      · exact absurd new inside

/-- The first pass on one cell. -/
theorem hitCell (packed : AllPacked caches) (t : CacheType) (a col : Nat) :
    Hits q rows caches (hitCell q caches (rows.getD a 0) a col t m) fun t' a' c =>
      handled t' a' c ∨ t' = t ∧ a' = a ∧ c = col := by
  have withRow : ∀ {i}, i ∈ getCachesWithRow caches t (rows.getD a 0) ↔
      ∃ cache, caches[i]? = some cache ∧ cache.type = t ∧ cache.hasRow (rows.getD a 0) := by
    simp [getCachesWithRow, mem_selectCaches]
  unfold PostgresRaw.hitCell
  by_cases todo : unsettled q m t a col = true
  · rw [if_pos todo]
    cases choice : getBestCacheHit caches (getCachesWithRow caches t (rows.getD a 0)) col q.readCols with
    | none =>
      refine { hits with found := ?_ }
      rintro t' a' c (old | ⟨rfl, rfl, rfl⟩) covers counts
      · exact hits.found old covers counts
      · exfalso
        obtain ⟨i, claims⟩ := covers
        obtain ⟨cache, here, type, mem, row⟩ := lane_claims_iff.1 claims
        have := eq_zero_of_bestBy choice (withRow.2 ⟨cache, here, type, row⟩)
        simp [here, (packed.hasColumn here c).2 mem] at this
    | some i =>
      obtain ⟨mem, score⟩ := mem_of_bestBy choice
      obtain ⟨cache, here, type, row⟩ := withRow.1 mem
      have hasCol : col ∈ cache.cols := by
        rw [← packed.hasColumn here]
        by_contra absent
        simp [here, absent] at score
      refine (hits.markHit (t := t) (a := a) (i := i) (col :: cacheCols caches i q.readCols)
        fun c inside => ?_).mono ?_
      · refine lane_claims_iff.2 ⟨cache, here, type, ?_, row⟩
        rcases mem_cons.1 inside with rfl | other
        · exact hasCol
        · exact ((mem_cacheCols packed here).1 other).2
      · rintro t' a' c (old | ⟨rfl, rfl, rfl⟩)
        · exact .inl old
        · exact .inr ⟨rfl, rfl, mem_cons_self⟩
  · rw [if_neg todo]
    refine { hits with found := ?_ }
    rintro t' a' c (old | ⟨rfl, rfl, rfl⟩) covers counts
    · exact hits.found old covers counts
    · rcases hits.mark_cases t' a' c with unknown | ⟨i, hit, -⟩
      · exfalso
        apply todo
        rcases counts with rfl | uncached | written
        · simp [unsettled, unknown]
        · have : ((m a' c).mark .data).isHit = false := by
            rcases hits.data a' c with none | ⟨i, -, claims⟩
            · simp [none, Mark.isHit]
            · exact absurd ⟨i, claims⟩ uncached
          simp [unsettled, unknown, this]
        · simp [unsettled, unknown, written]
      · simp [hit, Mark.isHit]

end

end Hits

/-- **The first pass.** -/
theorem markHits_spec (q : QueryInfo) (rows : List Nat) (packed : AllPacked caches) :
    Hits q rows caches (markHits q rows caches) fun _ a c => a < rows.length - 1 ∧ c ∈ q.cols := by
  refine Lists.foldl_range_invariant
    (fun n m => Hits q rows caches m fun _ a c => a < n ∧ c ∈ q.cols) ?_ fun {n m} _ hits => ?_
  · refine ⟨fun _ _ => .inl rfl, fun _ _ => .inl ⟨rfl, rfl⟩, fun handled => ?_⟩
    omega
  · refine (Lists.foldl_invariant
      (fun done m => Hits q rows caches m fun _ a c => (a < n ∧ c ∈ q.cols) ∨ a = n ∧ c ∈ done)
      (hits.mono fun handled => by simpa using handled) fun {done col m} _ inv => ?_).mono ?_
    · refine ((inv.hitCell packed .data n col).hitCell packed .positions n col).mono ?_
      rintro (- | -) a c (old | ⟨same, mem⟩)
      · exact .inl (.inl (.inl old))
      · rcases mem_append.1 mem with old | new
        · exact .inl (.inl (.inr ⟨same, old⟩))
        · exact .inl (.inr ⟨rfl, same, by simpa using new⟩)
      · exact .inl (.inl (.inl old))
      · rcases mem_append.1 mem with old | new
        · exact .inl (.inl (.inr ⟨same, old⟩))
        · exact .inr ⟨rfl, same, by simpa using new⟩
    · rintro _ a c ⟨less, mem⟩
      by_cases same : a = n
      · exact .inr ⟨same, mem⟩
      · exact .inl ⟨by omega, mem⟩

/-- The first pass marks no column for writing. -/
theorem markHits_ne_add (q : QueryInfo) (rows : List Nat) (packed : AllPacked caches) (a c : Nat) (t : CacheType)
    (i : Nat) : (markHits q rows caches a c).mark t ≠ .add i := by
  intro add
  rcases (markHits_spec q rows packed).mark_cases t a c with unknown | ⟨j, hit, -⟩
  · rw [unknown] at add
    cases add
  · rw [hit] at add
    cases add

end

end PostgresRaw
