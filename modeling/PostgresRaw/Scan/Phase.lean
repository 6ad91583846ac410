import PostgresRaw.Scan.Node

/-!
# Executing one plan

A scan plans in phases: first for all rows that caches know of, then for 10000 rows at a time
behind them.  A phase is given by the caches it was planned from and the rows that cut it into
nodes.  `Progress` says how far its execution has got: the caches end where the plan says after
the rows before `e`, and everything that was claimed before, or that the plan marks in the rows
before `pos`, holds the right slots.

Setting the ends of the caches at the end of a node, or where the scan stops, moves `e` up to
`pos` (`Progress.finalize`); the ledger rules then say that the caches are tidy and sound.
-/

namespace PostgresRaw

open List

section

variable {D : Type}

/-- The caches that a plan is made from, and the rows that it is cut at. -/
structure Phase (D : Type) where
  base : List (Cache D)
  rows : List Nat

def Phase.row (phase : Phase D) (a : Nat) : Nat := phase.rows.getD a 0

/-- The number of nodes. -/
def Phase.count (phase : Phase D) : Nat := phase.rows.length - 1

/-- What `BuildMatrix` makes of it. -/
def Phase.planning (phase : Phase D) (task : Task D) : Planning D :=
  buildMatrix task.info phase.rows phase.base

/-- The strategy nodes. -/
def Phase.node (phase : Phase D) (byValue : Nat → Bool) (task : Task D) (j : Nat) : Strategy :=
  strategyNode byValue task.info (phase.row j) (phase.row (j + 1) - phase.row j)
    ((phase.planning task).matrix j)

variable {rel : Relation D} {records : List (PlainRecord rel.fmt rel.natts)} {task : Task D}
  {phase : Phase D}

variable (rel records task) in
/-- A phase that a plan can be made for. -/
structure Phase.Valid (phase : Phase D) : Prop where
  increasing : phase.rows.Pairwise (· < ·)
  twoRows : 2 ≤ phase.rows.length
  nodes : ∀ {a}, a < phase.count → phase.row a < records.length
  shaped : AllShaped phase.base
  sound : Sound rel records phase.base
  tidy : ∀ t, (lane phase.base t).Tidy
  aligned : ∀ t, (lane phase.base t).Aligned (cutsOf phase.rows increasing)
  before : ∀ {t c r}, c ∈ task.info.write t → r < phase.row 0 → (lane phase.base t).Covers c r
  buffers : ∀ {i : Nat} {cache : Cache D}, phase.base[i]? = some cache →
    cache.usedRows ≤ cache.maxRows.getD 0
  ends : ∀ {i : Nat} {cache : Cache D}, phase.base[i]? = some cache →
    cache.endRow ≤ max task.known (phase.row 0)

namespace Phase.Valid

def cuts (valid : phase.Valid rel records task) : Cuts := cutsOf phase.rows valid.increasing

variable (valid : phase.Valid rel records task)

theorem built : Built task.info valid.increasing phase.base (phase.planning task) :=
  buildMatrix_spec task.info valid.increasing valid.shaped valid.tidy valid.aligned

theorem ready (t : CacheType) : BookPlan.Ready (lane phase.base t) valid.cuts (· ∈ task.info.write t)
    ((phase.planning task).plan t) where
  tidy := valid.tidy t
  aligned := valid.aligned t
  before writes := valid.before writes
  planned := valid.built.planned t

include valid in
theorem count_pos : 0 < phase.count := by
  have := valid.twoRows
  rw [Phase.count]
  omega

include valid in
theorem row_lt {a a' : Nat} (less : a < a') (inside : a' ≤ phase.count) : phase.row a < phase.row a' :=
  valid.cuts.increasing less inside

include valid in
theorem row_le {a a' : Nat} (le : a ≤ a') (inside : a' ≤ phase.count) : phase.row a ≤ phase.row a' :=
  valid.cuts.row_le le inside

end Phase.Valid

/-! ### Caches that differ in used rows and slots -/

/-- A cache without what execution changes. -/
def Cache.erase (cache : Cache D) : Cache D :=
  { cache with usedRows := 0, cells := fun _ _ => .unwritten }

/-- Two lists of caches that differ in used rows and slots only. -/
def SameShape (caches caches' : List (Cache D)) : Prop := caches.map Cache.erase = caches'.map Cache.erase

namespace SameShape

variable {a b c : List (Cache D)}

theorem refl (caches : List (Cache D)) : SameShape caches caches := rfl

theorem symm (same : SameShape a b) : SameShape b a := Eq.symm same

theorem trans (first : SameShape a b) (second : SameShape b c) : SameShape a c := Eq.trans first second

section

variable (same : SameShape a b)
include same

theorem exists_of_getElem? {i : Nat} {cache : Cache D} (here : a[i]? = some cache) :
    ∃ cache', b[i]? = some cache' ∧ cache'.type = cache.type ∧ cache'.startRow = cache.startRow ∧
      cache'.maxRows = cache.maxRows ∧ cache'.cols = cache.cols ∧ (cache.Packed → cache'.Packed) := by
  have eq := congrArg (·[i]?) same
  simp only [getElem?_map, here, Option.map_some] at eq
  obtain ⟨cache', here', erased⟩ := Option.map_eq_some_iff.1 eq.symm
  obtain ⟨type', startRow', used', maxRows', rowSize', rowFree', cols', offset', map', list', cells'⟩ := cache'
  obtain ⟨rfl, rfl, rfl, rfl, rfl, rfl, rfl, rfl, rfl⟩ := erased
  exact ⟨_, here', rfl, rfl, rfl, rfl, fun packed => ⟨packed.map_isSome, packed.parts⟩⟩

theorem lane_has {t : CacheType} {i col : Nat} :
    (lane a t).has i col ↔ (lane b t).has i col := by
  have half : ∀ {a b : List (Cache D)}, SameShape a b → (lane a t).has i col → (lane b t).has i col := by
    rintro a b same ⟨cache, here, type, mem⟩
    obtain ⟨cache', here', type', -, -, cols, -⟩ := same.exists_of_getElem? here
    exact ⟨cache', here', type'.trans type, cols ▸ mem⟩
  exact ⟨half same, half same.symm⟩

theorem lane_start (t : CacheType) (i : Nat) : (lane a t).start i = (lane b t).start i := by
  cases here : a[i]? with
  | some cache =>
    obtain ⟨cache', here', -, start, -⟩ := same.exists_of_getElem? here
    rw [PostgresRaw.lane_start here, PostgresRaw.lane_start here', start]
  | none =>
    cases here' : b[i]? with
    | some cache' =>
      obtain ⟨cache, found, -⟩ := same.symm.exists_of_getElem? here'
      rw [found] at here
      cases here
    | none => simp [lane, here, here']

theorem allPacked (packed : AllPacked a) : AllPacked b := by
  intro cache' mem
  obtain ⟨i, here'⟩ := getElem?_of_mem mem
  obtain ⟨cache, here, -⟩ := same.symm.exists_of_getElem? here'
  obtain ⟨cache'', here'', -, -, -, -, keeps⟩ := same.exists_of_getElem? here
  obtain rfl : cache'' = cache' := Option.some.inj (here''.symm.trans here')
  exact keeps (packed cache (mem_of_getElem? here))

theorem allShaped (shaped : AllShaped a) : AllShaped b := by
  intro cache' mem
  obtain ⟨i, here'⟩ := getElem?_of_mem mem
  obtain ⟨cache, here, -, -, -, cols, -⟩ := same.symm.exists_of_getElem? here'
  exact ⟨same.allPacked shaped.packed cache' mem, cols ▸ (shaped cache (mem_of_getElem? here)).2⟩

end

/-- The caches of a plan as a ledger, after execution. -/
theorem lane_after {p : Planning D} {caches : List (Cache D)} (same : SameShape p.caches caches)
    (t : CacheType) : lane caches t = (p.plan t).after (lane caches t).stop := by
  have start : (lane caches t).start = (lane p.caches t).start :=
    funext fun i => (same.lane_start t i).symm
  have has : (lane caches t).has = (lane p.caches t).has :=
    funext fun i => funext fun c => propext same.lane_has.symm
  change lane caches t = ⟨(lane p.caches t).start, (lane caches t).stop, (lane p.caches t).has⟩
  rw [← start, ← has]

end SameShape

theorem Improves.sameShape {caches caches' : List (Cache D)} (improves : Improves rel records caches caches') :
    SameShape caches caches' := by
  refine ext_getElem? fun i => ?_
  rw [getElem?_map, getElem?_map]
  cases here : caches[i]? with
  | some cache =>
    obtain ⟨cells, here', -⟩ := improves.cells here
    rw [here']
    rfl
  | none =>
    have : caches'[i]? = none := by
      rw [getElem?_eq_none_iff] at here ⊢
      rw [improves.length]
      exact here
    rw [this]

/-- The ends do not change when slots are written. -/
theorem Improves.lane_stop {caches caches' : List (Cache D)} (improves : Improves rel records caches caches')
    (t : CacheType) : (lane caches' t).stop = (lane caches t).stop := by
  funext i
  cases here : caches[i]? with
  | some cache =>
    obtain ⟨cells, here', -⟩ := improves.cells here
    rw [PostgresRaw.lane_stop here, PostgresRaw.lane_stop here']
    rfl
  | none =>
    have : caches'[i]? = none := by
      rw [getElem?_eq_none_iff] at here ⊢
      rw [improves.length]
      exact here
    simp [lane, here, this]

/-! ### Progress -/

/-- **How far a plan has been executed**: the ends of the caches are those after the rows before
`e`, and the slots are written up to the row `pos`. -/
structure Progress (valid : phase.Valid rel records task) (caches : List (Cache D)) (e pos : Nat) :
    Prop where
  shape : SameShape (phase.planning task).caches caches
  executed : ∀ t, BookPlan.Executed valid.cuts ((phase.planning task).plan t) e (lane caches t).stop
  old : ∀ {t i c r}, (lane phase.base t).Claims i c r →
    CellRight rel records t c r (cellAt caches i c r)
  new : ∀ {t a c i r}, ((phase.planning task).plan t).mark a c = some i → valid.cuts.InNode a r →
    r < pos → CellRight rel records t c r (cellAt caches i c r)
  used : ∀ {i : Nat} {cache : Cache D}, caches[i]? = some cache → cache.usedRows ≤ cache.maxRows.getD 0

namespace Progress

variable {valid : phase.Valid rel records task} {caches caches' : List (Cache D)} {e pos j : Nat}

/-- Nothing has been executed. -/
theorem start (valid : phase.Valid rel records task) :
    Progress valid (phase.planning task).caches (phase.row 0) (phase.row 0) where
  shape := .refl _
  executed _ := BookPlan.executed_zero
  old {t i c r} claims := by
    obtain ⟨cache, here, -⟩ := claims.1
    obtain ⟨cache', here', widens⟩ := valid.built.widened.old here
    rw [cellAt_eq here', widens.cells, ← cellAt_eq here]
    exact valid.sound claims
  new {t a c i r} mark node less := by
    have zero := valid.row_le (Nat.zero_le a) (Nat.le_of_lt ((valid.ready t).planned.add mark).2.1)
    have first : phase.row a ≤ r := node.1
    omega
  used {i cache'} here' := by
    cases here : phase.base[i]? with
    | some cache =>
      obtain ⟨cache'', here'', widens⟩ := valid.built.widened.old here
      obtain rfl : cache' = cache'' := Option.some.inj (here'.symm.trans here'')
      rw [widens.usedRows]
      exact Nat.le_trans (valid.buffers here) widens.maxRows
    | none =>
      rw [(valid.built.widened.new here here').1]
      exact Nat.zero_le _

variable {t : CacheType} {c i : Nat}

section

variable (progress : Progress valid caches e pos)
include progress

/-- A cache that the plan has a column in is there, with its type. -/
theorem exists_cache (has : ((phase.planning task).plan t).has i c) :
    ∃ cache, caches[i]? = some cache ∧ cache.type = t := by
  obtain ⟨cache, here, type, -⟩ := progress.shape.lane_has.1 has
  exact ⟨cache, here, type⟩

theorem exists_marked {a : Nat}
    (mark : ((phase.planning task).plan t).mark a c = some i) : ∃ cache, caches[i]? = some cache ∧ cache.type = t :=
  progress.exists_cache ((valid.ready t).planned.add mark).2.2.2.1

/-- What was claimed when the plan was made can be read. -/
theorem readable {r : Nat} (claims : (lane phase.base t).Claims i c r) :
    Readable rel records caches t i c r := by
  have right := progress.old claims
  obtain ⟨cache, here, -, -, row⟩ := lane_claims_iff.1 claims
  obtain ⟨first, last⟩ := Cache.hasRow_iff.1 row
  obtain ⟨cache', here', widens⟩ := valid.built.widened.old here
  obtain ⟨cache'', here'', -, start, maxRows, -⟩ := progress.shape.exists_of_getElem? here'
  refine ⟨cache'', here'', ?_, by rwa [cellAt_eq here''] at right⟩
  have := valid.buffers here
  have := widens.maxRows
  have := widens.startRow
  rw [Cache.endRow] at last
  simp only [Cache.hasBuffer, Bool.and_eq_true, decide_eq_true_eq, start, maxRows]
  omega

/-- Writing the slots of the next row. -/
theorem write (inside : j < phase.count)
    (node : valid.cuts.InNode j pos) (improves : Improves rel records caches caches')
    (right : ∀ {t c i}, ((phase.planning task).plan t).mark j c = some i →
      CellRight rel records t c pos (cellAt caches' i c pos)) : Progress valid caches' e (pos + 1) where
  shape := progress.shape.trans improves.sameShape
  executed t := by
    rw [improves.lane_stop t]
    exact progress.executed t
  old {t i c r} claims := by
    obtain ⟨cache, here, type⟩ := progress.exists_cache ((valid.ready t).planned.keeps claims.1)
    exact improves.right here type (progress.old claims)
  new {t a c i r} mark node' less := by
    obtain ⟨cache, here, type⟩ := progress.exists_marked mark
    by_cases before : r < pos
    · exact improves.right here type (progress.new mark node' before)
    · obtain rfl : r = pos := by omega
      obtain rfl : a = j :=
        valid.cuts.node_unique ((valid.ready t).planned.add mark).2.1 inside node' node
      exact right mark
  used {i cache'} here' := by
    obtain ⟨cache, cells, here, rfl⟩ := improves.exists_before here'
    have bound := progress.used here
    exact bound

/-- The caches as a ledger after execution. -/
theorem lane_eq (t : CacheType) :
    lane caches t = ((phase.planning task).plan t).after (lane caches t).stop :=
  progress.shape.lane_after t

end

/-! ### Tidy and sound caches -/

section

variable {q : Nat} (progress : Progress valid caches q q)
  (stops : ∀ t, BookPlan.StopsWell valid.cuts ((phase.planning task).plan t) q)

include progress stops

theorem tidy (first : phase.row 0 ≤ q) (last : q ≤ phase.row phase.count) (t : CacheType) : (lane caches t).Tidy := by
  rw [progress.lane_eq t]
  exact (valid.ready t).tidy_after (stops t) (progress.executed t) first last

/-- A claim of the caches is a claim from before the plan, or has been executed. -/
theorem claims_cases {t : CacheType} {i c r : Nat} (claims : (lane caches t).Claims i c r) :
    (lane phase.base t).Claims i c r ∨ ∃ a, a < phase.count ∧ valid.cuts.InNode a r ∧ r < q ∧
      ((phase.planning task).plan t).mark a c = some i := by
  rw [progress.lane_eq t] at claims
  exact (valid.ready t).claims_cases (progress.executed t) (stops t) claims

theorem sound : Sound rel records caches := by
  intro t i c r claims
  rcases progress.claims_cases stops claims with old | ⟨a, -, node, before, mark⟩
  · exact progress.old old
  · exact progress.new mark node before

/-- Ends lie before `q`, or before an end from before the plan. -/
theorem ends (first : phase.row 0 ≤ q) (last : q ≤ phase.row phase.count) {t : CacheType} {i c : Nat}
    (has : (lane caches t).has i c) : (lane caches t).stop i ≤ q ∨
      (lane phase.base t).has i c ∧ (lane caches t).stop i ≤ (lane phase.base t).stop i := by
  have range := (progress.tidy stops first last t).nonempty has
  rcases progress.claims_cases stops (r := (lane caches t).stop i - 1) ⟨has, by omega, by omega⟩ with
    ⟨old, -, before⟩ | ⟨-, -, -, before, -⟩
  · exact .inr ⟨old, by omega⟩
  · exact .inl (by omega)

end

end Progress

/-! ### Setting the ends -/

/-- The node writes to the cache. -/
def Strategy.writesTo (n : Strategy) (i : Nat) : Bool :=
  (n.writeToCacheByRef ++ n.writeToCacheByValue ++ n.writeToPM).any fun entry => entry.cache = i

theorem getElem?_noDBFinalizeStrategy (n : Strategy) (q : Nat) (caches : List (Cache D)) (i : Nat) :
    (noDBFinalizeStrategy n q caches)[i]? = caches[i]?.map fun cache =>
      if n.writesTo i then noDBCacheSetUsedRows cache (q - cache.startRow) else cache := by
  unfold noDBFinalizeStrategy Strategy.writesTo
  generalize n.writeToCacheByRef ++ n.writeToCacheByValue ++ n.writeToPM = entries
  induction entries generalizing caches with
  | nil => simp
  | cons entry entries ih =>
    rw [foldl_cons, ih, getElem?_modify, any_cons]
    cases caches[i]? with
    | none => rfl
    | some cache =>
      by_cases same : entry.cache = i
      · by_cases again : entries.any fun entry => entry.cache = i
        · simp [same, again, noDBCacheSetUsedRows]
        · simp [same, again]
      · simp [same]

theorem sameShape_noDBFinalizeStrategy (n : Strategy) (q : Nat) (caches : List (Cache D)) :
    SameShape caches (noDBFinalizeStrategy n q caches) := by
  refine ext_getElem? fun i => ?_
  rw [getElem?_map, getElem?_map, getElem?_noDBFinalizeStrategy, Option.map_map]
  refine congrArg (Option.map · caches[i]?) (funext fun cache => ?_)
  split <;> rfl

theorem cellAt_noDBFinalizeStrategy (n : Strategy) (q : Nat) (caches : List (Cache D)) (i c r : Nat) :
    cellAt (noDBFinalizeStrategy n q caches) i c r = cellAt caches i c r := by
  rw [cellAt, cellAt, getElem?_noDBFinalizeStrategy]
  cases caches[i]? with
  | none => rfl
  | some cache =>
    split <;> rfl

/-- Ends that are where they should be stay. -/
theorem noDBFinalizeStrategy_eq_self {n : Strategy} {q : Nat} {caches : List (Cache D)}
    (same : ∀ {i cache}, n.writesTo i = true → caches[i]? = some cache →
      cache.usedRows = q - cache.startRow) : noDBFinalizeStrategy n q caches = caches := by
  refine ext_getElem? fun i => ?_
  rw [getElem?_noDBFinalizeStrategy]
  cases here : caches[i]? with
  | none => rfl
  | some cache =>
    rw [Option.map_some]
    split
    · next writes => rw [noDBCacheSetUsedRows, ← same writes here]
    · rfl

section

variable {q : QueryInfo} {rows : List Nat} {increasing : rows.Pairwise (· < ·)} {base caches : List (Cache D)}
  {p : Planning D} {byValue : Nat → Bool} {j pos : Nat}

variable {nrows startRow : Nat}

section

variable (built : Built q increasing base p) (inside : j < rows.length - 1)

include built inside

/-- The caches that a node writes to are those that the plan marks in it. -/
theorem Built.writesTo_iff {i : Nat} :
    (strategyNode byValue q startRow nrows (p.matrix j)).writesTo i = true ↔ ∃ t, (p.plan t).Writes j i := by
  have filled := built.firstReply byValue inside
  have noEmpty := noEmpty_fillRow byValue q.cols q.firstRequest (p.matrix j)
  have as : WritesAs (strategyNode byValue q startRow nrows (p.matrix j)) _ := strategyNode_writesAs
  rw [Strategy.writesTo, as.byRef, as.byValue, as.positions, any_eq_true]
  simp only [mem_append, decide_eq_true_eq]
  constructor
  · rintro ⟨entry, (byRef | byValue) | positions, rfl⟩
    · obtain ⟨c, mem⟩ := exists_mem_of_ne_nil _ (noEmpty.addByRef entry byRef)
      exact ⟨.data, c, Mark.added_eq_some.2 (filled.addByRef.1 ⟨entry, byRef, rfl, mem⟩).2.2.1⟩
    · obtain ⟨c, mem⟩ := exists_mem_of_ne_nil _ (noEmpty.addByValue entry byValue)
      exact ⟨.data, c, Mark.added_eq_some.2 (filled.addByValue.1 ⟨entry, byValue, rfl, mem⟩).2.2.1⟩
    · obtain ⟨c, mem⟩ := exists_mem_of_ne_nil _ (noEmpty.addPositions entry positions)
      exact ⟨.positions, c, Mark.added_eq_some.2 (filled.addPositions.1 ⟨entry, positions, rfl, mem⟩).2.2⟩
  · rintro ⟨t, c, marked⟩
    have mark := Mark.added_eq_some.1 marked
    obtain ⟨-, writes, mem, -⟩ := built.mark_add mark
    cases t with
    | data =>
      by_cases pass : byValue c = true
      · obtain ⟨entry, mem', same, -⟩ := filled.addByValue.2 ⟨mem, writes, mark, pass⟩
        exact ⟨entry, .inl (.inr mem'), same⟩
      · obtain ⟨entry, mem', same, -⟩ := filled.addByRef.2 ⟨mem, writes, mark, by simpa using pass⟩
        exact ⟨entry, .inl (.inl mem'), same⟩
    | positions =>
      obtain ⟨entry, mem', same, -⟩ := filled.addPositions.2 ⟨mem, writes, mark⟩
      exact ⟨entry, .inr mem', same⟩

/-- A cache is only written through the plan of its own type. -/
theorem Built.writes_of_writesTo (shape : SameShape p.caches caches)
    {t : CacheType} {i : Nat} {cache : Cache D} (here : caches[i]? = some cache)
    (type : cache.type = t) (writes : (strategyNode byValue q startRow nrows (p.matrix j)).writesTo i = true) :
    (p.plan t).Writes j i := by
  obtain ⟨t', c, mark⟩ := (built.writesTo_iff inside).1 writes
  obtain ⟨cache', here', type', -⟩ := shape.lane_has.1 ((built.planned t').add mark).2.2.2.1
  obtain rfl : cache = cache' := Option.some.inj (here.symm.trans here')
  obtain rfl : t' = t := type'.symm.trans type
  exact ⟨c, mark⟩

/-- **Setting the ends** of the caches that a node has written executes the node. -/
theorem Built.executed_finalize (shape : SameShape p.caches caches) {t : CacheType}
    (executed : BookPlan.Executed (cutsOf rows increasing) (p.plan t) (rows.getD j 0) (lane caches t).stop)
    (first : rows.getD j 0 < pos) (last : pos ≤ rows.getD (j + 1) 0) :
    BookPlan.Executed (cutsOf rows increasing) (p.plan t) pos (lane (noDBFinalizeStrategy
      (strategyNode byValue q startRow nrows (p.matrix j)) pos caches) t).stop := by
  refine executed.node inside first last (fun mark => ((built.planned t).add mark).2.2.2.1) ?_ ?_
  · rintro i ⟨c, mark⟩
    obtain ⟨-, -, -, has, starts⟩ := (built.planned t).add mark
    obtain ⟨cache, here, -⟩ := shape.lane_has.1 has
    have starts : (lane p.caches t).start i ≤ rows.getD j 0 := starts
    rw [shape.lane_start t i, lane_start here] at starts
    have writes : (strategyNode byValue q startRow nrows (p.matrix j)).writesTo i = true :=
      (built.writesTo_iff inside).2 ⟨t, c, mark⟩
    rw [@lane_stop D _ t i (noDBCacheSetUsedRows cache (pos - cache.startRow)) (by
      rw [getElem?_noDBFinalizeStrategy, here, Option.map_some, if_pos writes])]
    change cache.startRow + (pos - cache.startRow) = pos
    omega
  · intro i c has unwritten
    obtain ⟨cache, here, type, -⟩ := shape.lane_has.1 has
    rw [lane_stop here, @lane_stop D _ t i cache (by
      rw [getElem?_noDBFinalizeStrategy, here, Option.map_some, if_neg fun writes =>
        unwritten (built.writes_of_writesTo inside shape here type writes)])]

end

end

section

variable {valid : phase.Valid rel records task} {byValue : Nat → Bool} {j : Nat}

/-- The caches that a node writes to are those that the plan marks in it. -/
theorem Phase.Valid.writesTo_iff (valid : phase.Valid rel records task) (inside : j < phase.count)
    {i : Nat} : (phase.node byValue task j).writesTo i = true ↔ ∃ t, ((phase.planning task).plan t).Writes j i :=
  valid.built.writesTo_iff inside

namespace Progress

variable {caches : List (Cache D)} {pos : Nat}

/-- **Setting the ends** of the caches that a node has written. -/
theorem finalize (progress : Progress valid caches (phase.row j) pos) (inside : j < phase.count)
    (first : phase.row j < pos) (last : pos ≤ phase.row (j + 1))
    (room : ∀ {t i cache}, ((phase.planning task).plan t).Writes j i → caches[i]? = some cache →
      pos ≤ cache.startRow + cache.maxRows.getD 0) :
    Progress valid (noDBFinalizeStrategy (phase.node byValue task j) pos caches) pos pos where
  shape := progress.shape.trans (sameShape_noDBFinalizeStrategy ..)
  executed t := valid.built.executed_finalize inside progress.shape (progress.executed t) first last
  old claims := by
    rw [cellAt_noDBFinalizeStrategy]
    exact progress.old claims
  new mark node less := by
    rw [cellAt_noDBFinalizeStrategy]
    exact progress.new mark node less
  used {i cache'} here' := by
    rw [getElem?_noDBFinalizeStrategy] at here'
    obtain ⟨cache, here, result⟩ := Option.map_eq_some_iff.1 here'
    have bound := progress.used here
    by_cases writes : (phase.node byValue task j).writesTo i = true
    · rw [if_pos writes] at result
      obtain ⟨t, writes⟩ := (valid.writesTo_iff inside).1 writes
      have enough := room writes here
      rw [← result]
      change pos - cache.startRow ≤ cache.maxRows.getD 0
      omega
    · rw [if_neg writes] at result
      rw [← result]
      exact bound

/-- The ends of the caches that a node writes are set already if the scan is at the start of the
node, unless a cache begins there. -/
theorem finalize_at_start (progress : Progress valid caches (phase.row j) pos) (inside : j < phase.count)
    (stops : ∀ t, BookPlan.StopsWell valid.cuts ((phase.planning task).plan t) (phase.row j)) :
    noDBFinalizeStrategy (phase.node byValue task j) (phase.row j) caches = caches := by
  refine noDBFinalizeStrategy_eq_self fun {i cache} writes here => ?_
  obtain ⟨t, c, mark⟩ := (valid.writesTo_iff inside).1 writes
  have starts := ((valid.ready t).planned.add mark).2.2.2.2
  have begun := stops t inside ⟨c, mark⟩ le_rfl
  have ends := (valid.ready t).stop_of_writes (progress.executed t) ⟨c, mark⟩ (by omega)
  rw [lane_stop here, Cache.endRow] at ends
  change cache.startRow + cache.usedRows = phase.row j at ends
  omega

/-- They are set already if this has been done. -/
theorem finalize_again (progress : Progress valid caches (phase.row (j + 1)) pos) (inside : j < phase.count) :
    noDBFinalizeStrategy (phase.node byValue task j) (phase.row (j + 1)) caches = caches := by
  refine noDBFinalizeStrategy_eq_self fun {i cache} writes here => ?_
  obtain ⟨t, c, mark⟩ := (valid.writesTo_iff inside).1 writes
  have ends := (progress.executed t).touched inside (valid.row_lt (Nat.lt_add_one j) inside) ⟨c, mark⟩
    fun {a'} less inside' before => by
      have := valid.row_le (show j + 1 ≤ a' from less) (le_of_lt inside')
      have before : phase.row a' < phase.row (j + 1) := before
      omega
  rw [lane_stop here, Cache.endRow] at ends
  change cache.startRow + cache.usedRows = min (phase.row (j + 1)) (phase.row (j + 1)) at ends
  omega

end Progress

end

end

end PostgresRaw
