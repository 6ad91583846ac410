import PostgresRaw.Strategy.Planned

/-!
# What `BuildMatrix` gives

`buildMatrix_spec`: the matrix is a coherent plan for the caches of both types, its hits are
claims of the caches that were there, and so are the closest positions, because those that the
node is about to write are excluded.  The caches written in the last node have room for its
rows; nothing of the kind is said about the other nodes.
-/

namespace PostgresRaw

open List

section

variable {D : Type}

/-! ### The closest position -/

/-- What the search for the closest position knows after the positions `done`. -/
def ClosestSoFar (known : List (Nat × Nat)) (col : Nat) (done : List (Nat × Nat)) : Option Closest → Prop
  | none => done = []
  | some b => (b.cache, b.column) ∈ known ∧ b.distance = (col : Int) - b.column

theorem closestPosition_cases (known : List (Nat × Nat)) (col : Nat) :
    match closestPosition known col with
    | none => known = []
    | some b => (b.cache, b.column) ∈ known ∧ b.distance = (col : Int) - b.column := by
  have loop : ClosestSoFar known col known (closestPosition known col) := by
    refine Lists.foldl_invariant (ClosestSoFar known col) rfl ?_
    rintro done ⟨i, c⟩ best mem inv
    cases best with
    | none => exact ⟨mem, rfl⟩
    | some b =>
      dsimp only
      by_cases closer : ((col : Int) - c).natAbs < b.distance.natAbs
      · rw [if_pos closer]
        exact ⟨mem, rfl⟩
      · rw [if_neg closer]
        exact inv
  exact loop

theorem mem_knownPositions {caches : List (Cache D)} {row i c : Nat} {excludeCols : List Nat} :
    (i, c) ∈ knownPositions caches row excludeCols ↔ (lane caches .positions).Claims i c row ∧ c ∉ excludeCols := by
  simp only [knownPositions, mem_flatMap, mem_reverse, mem_map, mem_filter,
    decide_eq_true_eq, Prod.mk.injEq, getCachesWithRow, mem_selectCaches, Bool.and_eq_true]
  constructor
  · rintro ⟨j, ⟨cache, here, type, row'⟩, c', ⟨mem, fresh⟩, rfl, rfl⟩
    rw [here] at mem
    exact ⟨lane_claims_iff.2 ⟨cache, here, type, mem, row'⟩, fresh⟩
  · rintro ⟨claims, fresh⟩
    obtain ⟨cache, here, type, mem, row'⟩ := lane_claims_iff.1 claims
    exact ⟨i, ⟨cache, here, type, row'⟩, c, ⟨by rw [here]; exact mem, fresh⟩, rfl, rfl⟩

section

variable (q : QueryInfo) (rows : List Nat) (caches : List (Cache D))

/-- The third pass does not change marks. -/
theorem closestRow_mark (m : Matrix) (n a c : Nat) : (closestRow q rows caches m n a c).mark = (m a c).mark:= by
  unfold closestRow
  simp only
  split
  · split <;> rfl
  · rfl

theorem closestRow_of_ne (m : Matrix) {n a : Nat} (other : a ≠ n) : closestRow q rows caches m n a = m a:= by
  funext c
  unfold closestRow
  simp [other]

theorem closestRow_congr {m m' : Matrix}
    {n : Nat} (same : m n = m' n) : closestRow q rows caches m n n = closestRow q rows caches m' n n := by
  unfold closestRow
  simp only [same]

/-- Each node is handled once, from the marks that the second pass left. -/
theorem foldl_closestRow (m : Matrix) (n a : Nat) :
    (List.range n).foldl (closestRow q rows caches) m a =
      if a < n then closestRow q rows caches m a a else m a := by
  refine Lists.foldl_range_invariant
    (fun n (m' : Matrix) => m' a = if a < n then closestRow q rows caches m a a else m a) (by simp)
    fun {i m'} _ inv => ?_
  by_cases here : a = i
  · subst here
    rw [if_pos (Nat.lt_add_one a)]
    rw [if_neg (lt_irrefl a)] at inv
    exact closestRow_congr q rows caches inv
  · rw [closestRow_of_ne q rows caches m' here, inv]
    exact if_congr (by omega) rfl rfl

theorem foldl_closestRow_mark (m : Matrix) (n a c : Nat) :
    ((List.range n).foldl (closestRow q rows caches) m a c).mark = (m a c).mark := by
  rw [foldl_closestRow]
  split
  · exact closestRow_mark ..
  · rfl

/-- The marks are those of the second pass. -/
theorem buildMatrix_mark (a c : Nat) :
    ((buildMatrix q rows caches).matrix a c).mark =
      ((handleMisses q rows ⟨caches, markHits q rows caches⟩).matrix a c).mark :=
  foldl_closestRow_mark ..

end

/-! ### Allocating the last node -/

/-- The caches have at least the rows up to `lastRow` allocated, if the mark is to write them. -/
def HasRoom (lastRow : Nat) (v : Mark) (caches : List (Cache D)) : Prop :=
  ∀ (j : Nat) (cache : Cache D), v = .add j → caches[j]? = some cache →
    lastRow + 1 - cache.startRow ≤ cache.maxRows.getD 0

/-- The list of caches differs in what is allocated only. -/
structure Reallocated (caches caches' : List (Cache D)) : Prop where
  widened : Extends caches caches'
  length : ∀ {j : Nat}, caches[j]? = none → caches'[j]? = none
  lanes : ∀ t, lane caches' t = lane caches t
  shaped : AllShaped caches'

theorem Reallocated.trans {a b c : List (Cache D)} (first : Reallocated a b) (second : Reallocated b c) :
    Reallocated a c where
  widened := first.widened.trans second.widened
  length none := second.length (first.length none)
  lanes t := (second.lanes t).trans (first.lanes t)
  shaped := second.shaped

theorem reallocated_grow {caches : List (Cache D)} (shaped : AllShaped caches) (i row : Nat) :
    Reallocated caches (caches.modify i fun cache => noDBCacheGrow cache row) where
  widened := extends_modify fun _ => widens_noDBCacheGrow _ _
  length none := by rw [getElem?_modify, none]; rfl
  lanes _ := lane_modify (fun _ => rfl) (fun _ => rfl) (fun _ => rfl) (fun _ => rfl)
  shaped := shaped.grow i row

/-- The body of the loop of `GrowToLastRow`. -/
def growMarked (lastRow : Nat) (caches : List (Cache D)) : Mark → List (Cache D)
  | .add i => caches.modify i fun cache => noDBCacheGrow cache lastRow
  | _ => caches

theorem growToLastRow_eq (q : QueryInfo) (m : Matrix) (lastRowIdx lastRow : Nat) (caches : List (Cache D)) :
    growToLastRow q m lastRowIdx lastRow caches = q.cols.foldl
        (fun caches c => growMarked lastRow (growMarked lastRow caches ((m lastRowIdx c).mark .data))
          ((m lastRowIdx c).mark .positions)) caches :=
  rfl

/-- `GrowToLastRow` does nothing but allocate rows. -/
theorem growToLastRow_induction {I : List (Cache D) → Prop} (q : QueryInfo) (m : Matrix)
    (lastRowIdx lastRow : Nat) {caches : List (Cache D)} (start : I caches)
    (step : ∀ {caches} i, I caches → I (caches.modify i fun cache => noDBCacheGrow cache lastRow)) :
    I (growToLastRow q m lastRowIdx lastRow caches) := by
  have keeps : ∀ (caches : List (Cache D)) (v : Mark), I caches → I (growMarked lastRow caches v) := by
    intro caches v inv
    cases v with
    | add i => exact step i inv
    | _ => exact inv
  rw [growToLastRow_eq]
  exact Lists.foldl_invariant (fun (_ : List Nat) (caches : List (Cache D)) => I caches) start
    fun _ inv => keeps _ _ (keeps _ _ inv)

theorem growToLastRow_of_unmarked (q : QueryInfo) {m : Matrix} {lastRowIdx : Nat} (lastRow : Nat)
    (caches : List (Cache D)) (unmarked : ∀ c t j, (m lastRowIdx c).mark t ≠ .add j) :
    growToLastRow q m lastRowIdx lastRow caches = caches := by
  have none : ∀ (caches : List (Cache D)) c t, growMarked lastRow caches ((m lastRowIdx c).mark t) = caches := by
    intro caches c t
    cases mark : (m lastRowIdx c).mark t with
    | add j => exact absurd mark (unmarked c t j)
    | _ => rfl
  rw [growToLastRow_eq]
  refine Lists.foldl_invariant (fun (_ : List Nat) (caches' : List (Cache D)) => caches' = caches) rfl ?_
  rintro _ c caches' - rfl
  exact (none _ c .positions).trans (none _ c .data)

/-- What allocating the last row gives, the caches written in the last node have. -/
theorem growToLastRow_marked {Q : Cache D → Prop} (q : QueryInfo) (m : Matrix) (lastRowIdx lastRow : Nat)
    (caches : List (Cache D)) (makes : ∀ cache, Q (noDBCacheGrow cache lastRow)) :
    ∀ c ∈ q.cols, ∀ t j cache, (m lastRowIdx c).mark t = .add j →
      (growToLastRow q m lastRowIdx lastRow caches)[j]? = some cache → Q cache := by
  have grown : ∀ (caches : List (Cache D)) (v v' : Mark),
      (v = v' ∨ ∀ j cache, v = .add j → caches[j]? = some cache → Q cache) →
        ∀ j cache, v = .add j → (growMarked lastRow caches v')[j]? = some cache → Q cache := by
    rintro caches v v' inv j cache rfl here
    cases v' with
    | add i =>
      rw [growMarked, getElem?_modify] at here
      obtain ⟨cache', here', rfl⟩ := Option.map_eq_some_iff.1 here
      split
      · exact makes cache'
      · next other => exact (inv.resolve_left fun same => other (Mark.add.inj same).symm) j cache' rfl here'
    | _ => exact (inv.resolve_left (by simp)) j cache rfl here
  rw [growToLastRow_eq]
  refine Lists.foldl_invariant (fun (done : List Nat) (caches : List (Cache D)) =>
    ∀ c ∈ done, ∀ t j cache, (m lastRowIdx c).mark t = .add j → caches[j]? = some cache → Q cache)
    (by simp) ?_
  intro done c caches _ inv c' mem t
  rcases mem_append.1 mem with old | new
  · exact grown _ _ _ (.inr (grown _ _ _ (.inr (inv c' old t))))
  · obtain rfl : c' = c := by simpa using new
    cases t with
    | data => exact grown _ _ _ (.inr (grown _ _ _ (.inl rfl)))
    | positions => exact grown _ _ _ (.inl rfl)

/-- `GrowToLastRow` allocates the rows of the last node for the caches written there. -/
theorem hasRoom_growToLastRow (q : QueryInfo) (m : Matrix) (lastRowIdx lastRow : Nat)
    (caches : List (Cache D)) {c : Nat} (mem : c ∈ q.cols) (t : CacheType) :
    HasRoom lastRow ((m lastRowIdx c).mark t) (growToLastRow q m lastRowIdx lastRow caches) :=
  growToLastRow_marked (Q := fun cache => lastRow + 1 - cache.startRow ≤ cache.maxRows.getD 0) q m
    lastRowIdx lastRow caches (fun cache => by
      obtain ⟨maxRows, isMax, enough, -⟩ := maxRows_noDBCacheGrow cache lastRow
      rw [isMax]
      exact enough) c mem t

/-- What `GrowToLastRow` leaves as it is. -/
theorem growToLastRow_spec (q : QueryInfo) (m : Matrix) (lastRowIdx lastRow : Nat)
    {caches : List (Cache D)} (shaped : AllShaped caches) :
    Reallocated caches (growToLastRow q m lastRowIdx lastRow caches) ∧
      ∀ c ∈ q.cols, ∀ t, HasRoom lastRow ((m lastRowIdx c).mark t) (growToLastRow q m lastRowIdx lastRow caches) :=
  ⟨growToLastRow_induction (I := fun caches' => Reallocated caches caches') q m lastRowIdx lastRow
    ⟨.refl _, fun none => none, fun _ => rfl, shaped⟩
    fun i same => same.trans (reallocated_grow same.shaped i lastRow),
    fun _ mem t => hasRoom_growToLastRow q m lastRowIdx lastRow caches mem t⟩

/-! ### The matrix -/

variable (q : QueryInfo) {rows : List Nat} (increasing : rows.Pairwise (· < ·))
  {caches : List (Cache D)}

variable (caches) in
/-- What is known about a matrix and the caches after it has been built. -/
structure Built (p : Planning D) : Prop where
  planned : ∀ t, BookPlan.Planned (lane caches t) (cutsOf rows increasing) (· ∈ q.write t) (p.plan t)
    (rows.length - 1) fun _ => False
  widened : Extends caches p.caches
  shaped : AllShaped p.caches
  hit : ∀ {t a c j}, (p.matrix a c).mark t = .hit j →
    (lane caches t).Claims j c ((cutsOf rows increasing).row a)
  cached : ∀ {a c}, a < rows.length - 1 → c ∈ q.cols →
    (lane caches .data).Covers c ((cutsOf rows increasing).row a) →
      ∃ j, (p.matrix a c).mark .data = .hit j
  closest : ∀ {a c b}, a < rows.length - 1 → (p.matrix a c).closest = some b →
    (lane caches .positions).Claims b.cache b.column ((cutsOf rows increasing).row a) ∧
      b.distance = (c : Int) - b.column
  /-- if one column of a node has a closest position, they all have -/
  allClosest : ∀ {a c c'}, a < rows.length - 1 → c ∈ q.cols → c' ∈ q.cols →
    (p.matrix a c).closest.isSome → (p.matrix a c').closest.isSome
  room : ∀ {c t}, HasRoom (rows.getD (rows.length - 1) 0 - 1) ((p.matrix (rows.length - 2) c).mark t)
    p.caches

section

variable {q increasing} {p : Planning D} {done : CacheType → Nat → Prop}

/-- The columns whose position a node writes. -/
def excluded (q : QueryInfo) (m : Matrix) (a : Nat) : List Nat :=
  q.cols.filter fun c => ((m a c).mark .positions).isAdd

section

variable (missed : Missed q rows increasing caches p (rows.length - 1) done)

include missed

/-- What is known about positions apart from those to be written has been claimed before. -/
theorem Missed.claims_of_known {a j c : Nat} (inside : a < rows.length - 1)
    (mem : (j, c) ∈ knownPositions p.caches (rows.getD a 0) (excluded q p.matrix a)) :
    (lane caches .positions).Claims j c ((cutsOf rows increasing).row a) := by
  obtain ⟨⟨has, first, last⟩, notWritten⟩ := mem_knownPositions.1 mem
  change _ ≤ (cutsOf rows increasing).row a at first
  have planned := missed.planned .positions
  by_cases old : (lane caches .positions).has j c
  · obtain ⟨start', stop'⟩ := planned.same old
    exact ⟨old, by rwa [← start'], by rwa [← stop']⟩
  · exfalso
    obtain ⟨a', -, begins, mark', rest⟩ := planned.registered has old
    have marked : (p.plan .positions).mark a c = some j := by
      change (p.plan .positions).start j ≤ _ at first
      rcases lt_trichotomy a' a with less | rfl | greater
      · exact rest less inside last
      · exact mark'
      · have := (cutsOf rows increasing).increasing greater (le_of_lt (planned.add mark').2.1)
        omega
    apply notWritten
    rw [excluded, mem_filter]
    exact ⟨q.write_subset_cols .positions (planned.add marked).1, by
      rw [Mark.added_eq_some.1 marked]; rfl⟩

/-- The closest position of a column that is not a hit itself. -/
theorem Missed.closest_of_not_hit (packed : AllPacked caches) {a c : Nat}
    (noHit : ((p.matrix a c).mark .positions).isHit = false) : (closestRow q rows p.caches p.matrix a a c).closest =
      if c ∈ q.cols then
        closestPosition (knownPositions p.caches (rows.getD a 0) (excluded q p.matrix a)) c
      else none := by
  have none : (p.matrix a c).closest = none := by
    rw [missed.closest]
    rcases (markHits_spec q rows packed).positions a c with ⟨-, none⟩ | ⟨j, hit, -⟩
    · exact none
    · rw [missed.hits.2 hit] at noHit
      cases noHit
  unfold closestRow
  by_cases mem : c ∈ q.cols
  · simp only [mem, noHit, and_self, if_true]
    rw [← excluded]
    cases closestPosition (knownPositions p.caches (rows.getD a 0) (excluded q p.matrix a)) c with
    | none => exact none
    | some b => rfl
  · simp only [mem, false_and, and_false, if_false]
    exact none

/-- The closest position of a hit. -/
theorem Missed.closest_of_hit (packed : AllPacked caches) {a c : Nat}
    (isHit : ((p.matrix a c).mark .positions).isHit = true) :
    ∃ j, (closestRow q rows p.caches p.matrix a a c).closest = some ⟨j, c, 0⟩ ∧
      (lane caches .positions).Claims j c ((cutsOf rows increasing).row a) := by
  rcases (markHits_spec q rows packed).positions a c with ⟨unknown, -⟩ | ⟨j, hit, closest, claims⟩
  · cases mark : (p.matrix a c).mark .positions with
    | hit j =>
      rw [missed.hits, unknown] at mark
      cases mark
    | unknown => rw [mark] at isHit; cases isHit
    | miss => rw [mark] at isHit; cases isHit
    | add j => rw [mark] at isHit; cases isHit
  · refine ⟨j, ?_, claims⟩
    unfold closestRow
    simp only [isHit, Bool.true_eq_false, and_false, if_false]
    rw [missed.closest, closest]

end

end

/-- **Planning.** -/
theorem buildMatrix_spec (shaped : AllShaped caches) (tidy : ∀ t, (lane caches t).Tidy)
    (aligned : ∀ t, (lane caches t).Aligned (cutsOf rows increasing)) :
    Built q increasing caches (buildMatrix q rows caches) := by
  have missed := handleMisses_spec q increasing shaped tidy aligned
  have hits := markHits_spec q rows shaped.packed
  unfold buildMatrix
  generalize handleMisses q rows ⟨caches, markHits q rows caches⟩ = p at missed ⊢
  simp only
  have row := foldl_closestRow q rows p.caches p.matrix (rows.length - 1)
  have mark := foldl_closestRow_mark q rows p.caches p.matrix (rows.length - 1)
  generalize (List.range (rows.length - 1)).foldl (closestRow q rows p.caches) p.matrix = m at row mark ⊢
  obtain ⟨same, room⟩ := growToLastRow_spec q m (rows.length - 2)
    (rows.getD (rows.length - 1) 0 - 1) missed.shaped
  have planned : ∀ t, BookPlan.Planned (lane caches t) (cutsOf rows increasing) (· ∈ q.write t)
      (Planning.plan ⟨growToLastRow q m (rows.length - 2) (rows.getD (rows.length - 1) 0 - 1) p.caches,
        m⟩ t) (rows.length - 1) fun _ => False := by
    intro t
    have plan : Planning.plan ⟨growToLastRow q m (rows.length - 2)
        (rows.getD (rows.length - 1) 0 - 1) p.caches, m⟩ t = p.plan t := by
      simp only [Planning.plan, same.lanes, mark]
    rw [plan]
    exact missed.planned t
  refine ⟨planned, missed.widened.trans same.widened, same.shaped, ?_, ?_, ?_, ?_, ?_⟩
  · intro t a c j isHit
    rw [mark, missed.hits] at isHit
    rcases hits.mark_cases t a c with unknown | ⟨j', same', claims⟩
    · rw [unknown] at isHit; cases isHit
    · rw [same'] at isHit
      cases isHit
      exact claims
  · intro a c inside mem covers
    have found := hits.found (t := .data) ⟨inside, mem⟩ covers (.inl rfl)
    cases isHit : (markHits q rows caches a c).mark .data with
    | hit j => exact ⟨j, by rw [mark]; exact missed.hits.2 isHit⟩
    | unknown => rw [isHit] at found; cases found
    | miss => rw [isHit] at found; cases found
    | add j => rw [isHit] at found; cases found
  · intro a c b inside closest
    change (m a c).closest = some b at closest
    rw [row, if_pos inside] at closest
    by_cases isHit : ((p.matrix a c).mark .positions).isHit = true
    · obtain ⟨j, same', claims⟩ := missed.closest_of_hit shaped.packed isHit
      rw [same'] at closest
      cases closest
      exact ⟨claims, by simp⟩
    · rw [missed.closest_of_not_hit shaped.packed (by simpa using isHit)] at closest
      split at closest
      · have found := closestPosition_cases
          (knownPositions p.caches (rows.getD a 0) (excluded q p.matrix a)) c
        rw [closest] at found
        exact ⟨missed.claims_of_known inside found.1, found.2⟩
      · cases closest
  · intro a c c' inside mem mem' some
    change (m a c).closest.isSome at some
    change (m a c').closest.isSome
    rw [row, if_pos inside] at some ⊢
    by_cases isHit' : ((p.matrix a c').mark .positions).isHit = true
    · obtain ⟨j, same', -⟩ := missed.closest_of_hit shaped.packed isHit'
      rw [same']
      rfl
    · -- Something is known: the position that `c` goes by, or `c` itself if it is a hit.
      have nonempty : knownPositions p.caches (rows.getD a 0) (excluded q p.matrix a) ≠ [] := by
        by_cases isHit : ((p.matrix a c).mark .positions).isHit = true
        · obtain ⟨j, -, has, first, last⟩ := missed.closest_of_hit shaped.packed isHit
          obtain ⟨start', stop'⟩ := (missed.planned .positions).same has
          refine ne_nil_of_mem (mem_knownPositions.2
            ⟨⟨(missed.planned .positions).keeps has, ?_, ?_⟩, ?_⟩ : (j, c) ∈ _)
          · rw [← start'] at first; exact first
          · rw [← stop'] at last; exact last
          · intro written
            have isAdd := (mem_filter.1 written).2
            cases mark' : (p.matrix a c).mark .positions with
            | hit j => rw [mark'] at isAdd; cases isAdd
            | unknown => rw [mark'] at isAdd; cases isAdd
            | miss => rw [mark'] at isAdd; cases isAdd
            | add j => rw [mark'] at isHit; cases isHit
        · intro empty
          rw [missed.closest_of_not_hit shaped.packed (by simpa using isHit), empty] at some
          simp [closestPosition] at some
      have found := closestPosition_cases
        (knownPositions p.caches (rows.getD a 0) (excluded q p.matrix a)) c'
      rw [missed.closest_of_not_hit shaped.packed (by simpa using isHit'), if_pos mem']
      cases result : closestPosition
          (knownPositions p.caches (rows.getD a 0) (excluded q p.matrix a)) c' with
      | none => rw [result] at found; exact absurd found nonempty
      | some b => rfl
  · intro c t j cache isAdd here
    have marked : (p.plan t).mark (rows.length - 2) c = some j := by
      change Mark.added _ = _
      rw [← mark, isAdd]
      rfl
    exact room c (q.write_subset_cols t ((missed.planned t).add marked).1) t j cache isAdd here

end

end PostgresRaw
