import PostgresRaw.Scan.Locks
import PostgresRaw.Scan.Reached
import PostgresRaw.Scan.Rows

/-!
# Between two scans

The world that a scan finds and leaves.  `Tended` says that the caches are tidy and sound, and end
within the rows whose lengths are known; a scan that starts in such a world is `Executing` its first
phase (`Tended.start`), and leaves such a world if no cache is registered for a node that it does not
get to (`Halted.tended`).  This is the case at the end of the data (`Halted.stops_at_end`).

An empty file is treated apart: its scans register columns in caches that never get a row
(`Unfilled`).
-/

namespace PostgresRaw

open List

section

variable {D : Type}

/-- What a scan that starts in the world is to do. -/
def World.task (w : World D) (q : Query D) : Task D where
  query := q
  writeData := unlockedCols w.cacheLock q.readAll
  writePositions := unlockedCols w.pmLock q.readAll
  known := w.eol.usedRows

/-- The first phase of a scan that starts in the world. -/
def World.phase (w : World D) : Phase D where
  base := w.caches
  rows := if getInterestingRows w.caches = [] then [0, defaultRows] else getInterestingRows w.caches

/-- The locks while a scan runs that has started in the world. -/
def World.frame (w : World D) (q : Query D) (tight : Prop) (stop : Nat) : Frame where
  cacheLock := takeLocks w.cacheLock (unlockedCols w.cacheLock q.readAll)
  pmLock := takeLocks w.pmLock (unlockedCols w.pmLock q.readAll)
  tight := tight
  stop := stop

theorem startAndRun_eq (rel : Relation D) (n : Nat) (w : World D) (q : Query D) :
    startAndRun rel n w q = runRows rel n (noDBScanStateInit rel w q).1 (noDBScanStateInit rel w q).2 := rfl

/-- No column is locked. -/
def World.Unlocked (w : World D) : Prop := ∀ c, w.cacheLock c = false ∧ w.pmLock c = false

theorem World.Unlocked.mem_task {w : World D} (unlocked : w.Unlocked) (q : Query D) (t : CacheType) {c : Nat} :
    c ∈ (w.task q).info.write t ↔ c ∈ q.readAll := by
  cases t with
  | data => exact LockState.mem_unlockedCols.trans (and_iff_left (unlocked c).1)
  | positions => exact LockState.mem_unlockedCols.trans (and_iff_left (unlocked c).2)

/-- The columns that a query reads behind its qual are not locked. -/
def World.Free (w : World D) (q : Query D) : Prop := q.filter = [] ∨ ∀ c ∈ q.rest, w.cacheLock c = false

theorem World.Unlocked.free {w : World D} (unlocked : w.Unlocked) (q : Query D) : w.Free q :=
  .inr fun c _ => (unlocked c).1

/-- A query is a proper task if its columns are not locked. -/
theorem Query.Formed.proper {w : World D} {q : Query D} {natts : Nat} (formed : q.Formed natts) (free : w.Free q) :
    (w.task q).Proper natts where
  query := formed
  data _ mem := (LockState.mem_unlockedCols.1 mem).1
  positions _ mem := (LockState.mem_unlockedCols.1 mem).1
  unlocked := free.imp_right fun free c mem => LockState.mem_unlockedCols.2 ⟨Query.mem_rest mem, free c mem⟩

variable {rel : Relation D} {header : List Byte} {records : List (PlainRecord rel.fmt rel.natts)} {w : World D}

/-- Without rows in use the first phase has one node of the default size. -/
theorem firstStrategy_of_unused {q : Query D} (none : getInterestingRows w.caches = []) :
    firstStrategy rel.byValue (w.task q).info w.caches =
      (w.phase.iterator rel.byValue (w.task q) 0, (w.phase.planning (w.task q)).caches) := by
  have rows : w.phase.rows = [0, 0 + defaultRows] := by
    rw [zero_add]
    exact if_pos none
  unfold firstStrategy noDBScanStrategyIterator
  simp only [none]
  rw [Phase.iterator, Phase.planning, rows]
  exact if_pos rfl

/-- `NoDBScanStateInit`, if the iterator is at the first node of the first phase. -/
theorem noDBScanStateInit_eq {q : Query D} (count : 0 < w.phase.count)
    (first : firstStrategy rel.byValue (w.task q).info w.caches =
      (w.phase.iterator rel.byValue (w.task q) 0, (w.phase.planning (w.task q)).caches)) :
    noDBScanStateInit rel w q =
      ({ w with
          caches := (w.phase.planning (w.task q)).caches
          eolCache := some (noDBInitEOLCache w.eolCache (w.phase.node rel.byValue (w.task q) 0).nrows)
          cacheLock := takeLocks w.cacheLock (w.task q).writeData
          pmLock := takeLocks w.pmLock (w.task q).writePositions },
        { query := q
          lastfield := q.readAll.getLast?.getD 0
          writeDataCols := (w.task q).writeData
          writePositionCols := (w.task q).writePositions
          plan := noDBPlanStateInit (w.phase.iterator rel.byValue (w.task q) 0) w.eol.usedRows
          execPlan := noDBGetExecPlan q (w.phase.node rel.byValue (w.task q) 0)
          processed := 0
          values := fun _ => .null
          attributes := Function.update rel.junkAttribute 0 { rel.junkAttribute 0 with pointer := 0 }
          input := .fresh (noDBInitEOLCache w.eolCache (w.phase.node rel.byValue (w.task q) 0).nrows) }) := by
  have used : ∀ nrows, (noDBInitEOLCache w.eolCache nrows).usedRows = w.eol.usedRows := by
    intro nrows
    unfold World.eol
    cases w.eolCache <;> rfl
  rw [← Phase.current_iterator count, ← used (w.phase.iterator rel.byValue (w.task q) 0).current.nrows]
  unfold noDBScanStateInit
  change firstStrategy rel.byValue (q.info (unlockedCols w.cacheLock q.readAll) (unlockedCols w.pmLock q.readAll))
    w.caches = _ at first
  simp only [first]
  rfl

/-- The EOL cache is set up if it is not there. -/
theorem EolRight.init (right : EolRight rel.plainSource header (recordLines records) w.eol w.eol.usedRows 0)
    (nrows : Nat) : EolRight rel.plainSource header (recordLines records) (noDBInitEOLCache w.eolCache nrows)
      w.eol.usedRows 0 := by
  unfold World.eol at right ⊢
  generalize w.eolCache = eolCache at right ⊢
  cases eolCache with
  | some eol => exact right
  | none => exact ⟨right.known_le, right.used_le, right.lengths, right.headerSize⟩

variable (header records) in
/-- **A world with tidy and sound caches**, over a file with at least one record. -/
structure Tended (w : World D) : Prop where
  nonempty : records ≠ []
  shaped : AllShaped w.caches
  tidy : ∀ t, (lane w.caches t).Tidy
  sound : Sound rel records w.caches
  buffers : ∀ {i : Nat} {cache : Cache D}, w.caches[i]? = some cache → cache.usedRows ≤ cache.maxRows.getD 0
  ends : ∀ {i : Nat} {cache : Cache D}, w.caches[i]? = some cache → cache.endRow ≤ w.eol.usedRows
  eol : EolRight rel.plainSource header (recordLines records) w.eol w.eol.usedRows 0

/-- Nothing is known in the beginning. -/
theorem eolRight_initial : EolRight rel.plainSource header (recordLines records) (World.initial : World D).eol
    (World.initial : World D).eol.usedRows 0 :=
  ⟨le_rfl, Nat.zero_le _, fun _ _ less => absurd less (Nat.not_lt_zero _),
    fun _ positive => absurd positive (lt_irrefl 0)⟩

theorem tended_initial (some : records ≠ []) : Tended header records World.initial where
  nonempty := some
  shaped := nofun
  tidy t := by
    have none : ∀ {i c}, ¬ (lane ([] : List (Cache D)) t).has i c := by
      rintro i c ⟨cache, here, -⟩
      cases here
    exact ⟨fun has => absurd has none, fun claims => absurd claims.1 none, fun ⟨_, claims⟩ => absurd claims.1 none⟩
  sound claims := by
    obtain ⟨cache, here, -⟩ := claims.1
    cases here
  buffers here := by cases here
  ends here := by cases here
  eol := eolRight_initial

/-! ### Starting a scan -/

namespace Tended

variable {q : Query D} (tended : Tended header records w)

include tended

theorem used_le : w.eol.usedRows ≤ records.length := by
  have := tended.eol.used_le
  rwa [recordLines_length] at this

/-- What the caches claim, cache by cache. -/
theorem right {cache : Cache D} (mem : cache ∈ w.caches) {c r : Nat} (hasColumn : cache.hasColumn c = true)
    (hasRow : cache.hasRow r = true) : CellRight rel records cache.type c r (cache.cells c r) := by
  obtain ⟨i, here⟩ := getElem?_of_mem mem
  have isCol := (tended.shaped.packed.hasColumn here c).1 hasColumn
  rw [← cellAt_eq here]
  exact tended.sound (lane_claims_iff.2 ⟨cache, here, rfl, isCol, hasRow⟩)

/-- All caches are in use. -/
theorem used {cache : Cache D} (mem : cache ∈ w.caches) : 0 < cache.usedRows := by
  obtain ⟨i, here⟩ := getElem?_of_mem mem
  obtain ⟨c, has⟩ := exists_mem_of_ne_nil _ (tended.shaped cache mem).2
  have range := (tended.tidy cache.type).nonempty ((lane_has here).2 ⟨rfl, has⟩)
  rw [lane_start here, lane_stop here, Cache.endRow] at range
  omega

/-- Without caches the first phase has one node of the default size. -/
theorem interesting_eq_nil : getInterestingRows w.caches = [] ↔ w.caches = [] := by
  constructor
  · intro none
    by_contra some
    obtain ⟨cache, mem⟩ := exists_mem_of_ne_nil _ some
    obtain ⟨-, interesting⟩ := getInterestingRows_spec ⟨cache, mem, tended.used mem⟩
    have := (interesting 0).2 (.inl rfl)
    rw [none] at this
    cases this
  · intro none
    exact getInterestingRows_of_unused fun cache mem => by
      rw [none] at mem
      cases mem

/-- Its rows, if there are caches. -/
theorem mem_interesting (some : w.caches ≠ []) :
    (getInterestingRows w.caches).Pairwise (· < ·) ∧ ∀ r, r ∈ getInterestingRows w.caches ↔
      r = 0 ∨ ∃ cache ∈ w.caches, r = cache.startRow ∨ r = cache.endRow := by
  obtain ⟨cache, mem⟩ := exists_mem_of_ne_nil _ some
  obtain ⟨sorted, interesting⟩ := getInterestingRows_spec ⟨cache, mem, tended.used mem⟩
  refine ⟨sorted, fun r => (interesting r).trans (or_congr_right ?_)⟩
  exact ⟨fun ⟨cache, mem, _, isEnd⟩ => ⟨cache, mem, isEnd⟩,
    fun ⟨cache, mem, isEnd⟩ => ⟨cache, mem, tended.used mem, isEnd⟩⟩

theorem twoRows : 2 ≤ w.phase.rows.length := by
  unfold World.phase
  split
  · exact Nat.le_refl 2
  · next some =>
    rw [tended.interesting_eq_nil] at some
    obtain ⟨sorted, interesting⟩ := tended.mem_interesting some
    obtain ⟨cache, mem⟩ := exists_mem_of_ne_nil _ some
    have used := tended.used mem
    have first := (interesting 0).2 (.inl rfl)
    have last := (interesting cache.endRow).2 (.inr ⟨cache, mem, .inr rfl⟩)
    have positive : 0 < cache.endRow := by
      rw [Cache.endRow]
      omega
    generalize getInterestingRows w.caches = rows at first last
    rcases rows with _ | ⟨r, _ | ⟨r', rest⟩⟩
    · cases first
    · rw [mem_singleton] at first last
      omega
    · simp

/-- Its rows end where the lengths are known, if there are caches. -/
theorem row_le_known {a : Nat} (some : w.caches ≠ []) : w.phase.row a ≤ w.eol.usedRows := by
  obtain ⟨-, interesting⟩ := tended.mem_interesting some
  have rows : w.phase.rows = getInterestingRows w.caches :=
    if_neg fun none => some (tended.interesting_eq_nil.1 none)
  rw [Phase.row, rows, getD_eq_getElem?_getD]
  cases here : (getInterestingRows w.caches)[a]? with
  | none => exact Nat.zero_le _
  | some r =>
    rw [Option.getD_some]
    rcases (interesting r).1 (mem_of_getElem? here) with rfl | ⟨cache, mem, isEnd⟩
    · exact Nat.zero_le _
    · obtain ⟨i, there⟩ := getElem?_of_mem mem
      have := tended.ends there
      rw [Cache.endRow] at this isEnd
      omega

theorem row_zero : w.phase.row 0 = 0 := by
  unfold Phase.row World.phase
  simp only
  split
  · rfl
  · next some =>
    rw [tended.interesting_eq_nil] at some
    obtain ⟨sorted, interesting⟩ := tended.mem_interesting some
    exact getD_zero_of_mem_zero sorted ((interesting 0).2 (.inl rfl))

/-- Caches that begin at row 0 and end together make one node. -/
theorem rows_eq (some : w.caches ≠ []) {n : Nat} (range : ∀ cache ∈ w.caches, cache.startRow = 0 ∧ cache.endRow = n) :
    w.phase.rows = [0, n] := by
  obtain ⟨sorted, interesting⟩ := tended.mem_interesting some
  obtain ⟨cache, mem⟩ := exists_mem_of_ne_nil _ some
  have rows : w.phase.rows = getInterestingRows w.caches :=
    if_neg fun none => some (tended.interesting_eq_nil.1 none)
  have same : ∀ r, r ∈ getInterestingRows w.caches ↔ r ∈ [0, n] := by
    intro r
    rw [interesting, mem_pair]
    constructor
    · rintro (rfl | ⟨cache, mem, rfl | rfl⟩)
      · exact .inl rfl
      · exact .inl (range cache mem).1
      · exact .inr (range cache mem).2
    · rintro (rfl | rfl)
      · exact .inl rfl
      · exact .inr ⟨cache, mem, .inr (range cache mem).2.symm⟩
  have sorted' : [0, n].Pairwise (· < ·) := by
    have used := tended.used mem
    have := (range cache mem).2
    rw [Cache.endRow] at this
    simp only [pairwise_pair]
    omega
  rw [rows]
  exact ((perm_ext_iff_of_nodup (sorted.imp ne_of_lt) (sorted'.imp ne_of_lt)).2 same).eq_of_pairwise
    (fun a b _ _ less less' => absurd less (Nat.lt_asymm less')) sorted sorted'

theorem plannable (info : QueryInfo) : Plannable info w.phase.rows w.caches := by
  have planned := plannable_interesting info tended.shaped tended.tidy
  unfold World.phase
  simp only
  split
  · next none =>
    rw [tended.interesting_eq_nil] at none
    have unregistered : ∀ {t i c}, ¬ (lane w.caches t).has i c := by
      rintro t i c ⟨cache, here, -⟩
      rw [none] at here
      cases here
    exact ⟨by simp [defaultRows], tended.shaped, tended.tidy,
      fun t => ⟨fun has => absurd has unregistered, fun has => absurd has unregistered⟩,
      fun _ before => absurd before (Nat.not_lt_zero _)⟩
  · exact planned

/-- **The first phase of a scan.** -/
theorem valid (q : Query D) : w.phase.Valid rel records (w.task q) where
  increasing := (tended.plannable (w.task q).info).increasing
  twoRows := tended.twoRows
  nodes {a} inside := by
    have positive : 0 < records.length := length_pos_of_ne_nil tended.nonempty
    by_cases some : w.caches = []
    · obtain rfl : a = 0 := by
        have : w.phase.count = 1 := by
          rw [Phase.count, World.phase, if_pos (tended.interesting_eq_nil.2 some)]
          rfl
        omega
      rw [tended.row_zero]
      exact positive
    · have le := tended.row_le_known (a := a + 1) some
      have used := tended.used_le
      have rising := (cutsOf _ (tended.plannable (w.task q).info).increasing).increasing (Nat.lt_add_one a) inside
      change w.phase.row a < w.phase.row (a + 1) at rising
      omega
  shaped := tended.shaped
  sound := tended.sound
  tidy := tended.tidy
  aligned := (tended.plannable (w.task q).info).aligned
  before := (tended.plannable (w.task q).info).before
  buffers := tended.buffers
  ends here := Nat.le_trans (tended.ends here) (Nat.le_max_left _ _)

/-- The iterator of a scan is at the first node of its first phase. -/
theorem firstStrategy_eq : firstStrategy rel.byValue (w.task q).info w.caches =
    (w.phase.iterator rel.byValue (w.task q) 0, (w.phase.planning (w.task q)).caches) := by
  by_cases none : getInterestingRows w.caches = []
  · exact firstStrategy_of_unused none
  · have two := tended.twoRows
    have rows : w.phase.rows = getInterestingRows w.caches := if_neg none
    unfold firstStrategy noDBScanStrategyIterator
    rw [Phase.iterator, Phase.planning, rows]
    rw [rows] at two
    generalize getInterestingRows w.caches = rows at none two
    have notEnded : 0 ≠ (buildStrategy rel.byValue (w.task q).info rows w.caches).1.length := by
      rw [length_buildStrategy]
      omega
    cases rows with
    | nil => exact absurd rfl none
    | cons r rest =>
      simp only
      rw [noDBScanStrategyIteratorGet, if_neg notEnded]
      rfl

/-- **Starting a scan.** -/
theorem start (q : Query D) {tight : Prop} {stop : Nat} (plain : PlainRelation rel header records)
    (smooth : rel.headerLine = true → w.phase.Smooth rel.byValue (w.task q) records.length stop)
    (fits : tight ∨ w.phase.Fits (w.task q)) :
    Executing header (w.frame q tight stop) (tended.valid q) 0 0 (noDBScanStateInit rel w q).1
      (noDBScanStateInit rel w q).2 := by
  have count : 0 < w.phase.count := (tended.valid q).count_pos
  have current : (w.phase.iterator rel.byValue (w.task q) 0).current = w.phase.node rel.byValue (w.task q) 0 :=
    Phase.current_iterator count
  have rising := (tended.valid q).row_lt (Nat.lt_add_one 0) count
  have zero := tended.row_zero
  rw [noDBScanStateInit_eq count tended.firstStrategy_eq]
  have waiting := Waiting.fresh (tended.eol.init (w.phase.node rel.byValue (w.task q) 0).nrows)
  exact {
    query := rfl
    lastfield := rfl
    inside := count
    node := ⟨le_of_eq zero, show 0 < w.phase.row (0 + 1) by omega⟩
    within := Nat.zero_le _
    iterator := rfl
    exec := rfl
    counters := ⟨0, by
      refine Counters.start (by rw [Phase.node_nrows, zero]) (by omega) ?_ rfl ?_ ?_ rfl
      · exact congrArg (fun n => (n.nrows : Int)) current
      · exact congrArg (rowsAhead · _) current
      · exact congrArg (rowsAhead · _) current⟩
    progress := by
      have start := Progress.start (tended.valid q)
      rwa [zero] at start ⊢
    room := fun less => absurd less (Nat.not_lt_zero _)
    waiting := fun _ => zero.symm ▸ waiting
    reader := fun _ => waiting.readerAt plain.layout (.inr (.inl rfl))
    seen := Nat.zero_le _
    start := by simp
    nulls := fun _ _ => rfl
    smooth := smooth
    fits := fits
    locks := ⟨rfl, rfl⟩ }

end Tended

/-! ### Leaving a scan -/

/-- **Executed caches are tended**, if no cache is registered for a node behind. -/
theorem Progress.tended {task : Task D} {phase : Phase D} {valid : phase.Valid rel records task} {e : Nat}
    (progress : Progress valid w.caches e e)
    (stops : ∀ t, BookPlan.StopsWell valid.cuts ((phase.planning task).plan t) e) (first : phase.row 0 ≤ e)
    (last : e ≤ phase.row phase.count) (seen : e ≤ w.eol.usedRows) (known : task.known ≤ w.eol.usedRows)
    (eol : EolRight rel.plainSource header (recordLines records) w.eol w.eol.usedRows 0) : Tended header records w where
  nonempty none := by
    have := valid.nodes valid.count_pos
    rw [none] at this
    cases this
  shaped := progress.shape.allShaped valid.built.shaped
  tidy := progress.tidy stops first last
  sound := progress.sound stops
  buffers := progress.used
  ends {i cache} here := by
    have shaped := progress.shape.allShaped valid.built.shaped
    obtain ⟨c, mem⟩ := exists_mem_of_ne_nil _ (shaped cache (mem_of_getElem? here)).2
    have has : (lane w.caches cache.type).has i c := (lane_has here).2 ⟨rfl, mem⟩
    rw [← lane_stop (t := cache.type) here]
    rcases progress.ends stops first last has with before | ⟨⟨old, there, type, -⟩, le⟩
    · omega
    · have bound := valid.ends there
      rw [lane_stop there] at le
      omega
  eol := eol

/-- The end of a query releases the locks that its scan has taken. -/
theorem unlocked_endQuery {w w' : World D} {q : Query D} {s : Scan D} (unlocked : w.Unlocked) (query : s.query = q)
    (cacheLock : w'.cacheLock = takeLocks w.cacheLock (unlockedCols w.cacheLock q.readAll))
    (pmLock : w'.pmLock = takeLocks w.pmLock (unlockedCols w.pmLock q.readAll)) : (endQuery w' s).Unlocked := by
  have free : ∀ {lock : Nat → Bool}, (∀ c, lock c = false) → ∀ c,
      releaseLocks (takeLocks lock (unlockedCols lock q.readAll)) q.readAll c = false := by
    intro lock free c
    by_contra locked
    obtain ⟨taken, other⟩ := LockState.releaseLocks_iff.1 (by simpa using locked)
    rcases LockState.takeLocks_iff.1 taken with old | new
    · rw [free c] at old
      cases old
    · exact other (LockState.mem_unlockedCols.1 new).1
  intro c
  change releaseLocks w'.cacheLock s.query.readAll c = false ∧ releaseLocks w'.pmLock s.query.readAll c = false
  rw [cacheLock, pmLock, query]
  exact ⟨free (fun c => (unlocked c).1) c, free (fun c => (unlocked c).2) c⟩

namespace Halted

variable {task : Task D} {phase : Phase D} {frame : Frame} {valid : phase.Valid rel records task} {j : Nat}
  {s : Scan D}

/-- No cache is registered for a row behind the end of the data. -/
theorem stops_at_end (valid : phase.Valid rel records task) {pos : Nat} (ended : pos = records.length) (t : CacheType) :
    BookPlan.StopsWell valid.cuts ((phase.planning task).plan t) pos := by
  intro a b inside _ behind
  have less := valid.nodes inside
  have behind : pos ≤ phase.row a := behind
  omega

section

variable (halted : Halted header frame valid j w s)
  (stops : ∀ t, BookPlan.StopsWell valid.cuts ((phase.planning task).plan t) s.processed)

include halted stops

/-- **The end-of-query branch** sets the ends of the caches that the current node has written. -/
theorem progress : Progress valid (endQuery w s).caches s.processed s.processed := by
  change Progress valid (noDBFinalizeStrategy s.plan.curStrategy s.processed w.caches) _ _
  rw [halted.current]
  rcases halted.caches with ⟨progress, room⟩ | ⟨ends, progress⟩
  · rcases lt_or_eq_of_le halted.first with less | same
    · exact progress.finalize halted.inside less halted.last (room less)
    · rw [← same] at stops progress ⊢
      rw [progress.finalize_at_start halted.inside stops]
      exact progress
  · rw [ends] at progress ⊢
    rw [progress.finalize_again halted.inside]
    exact progress

/-- **What a scan leaves is tended**, if no cache is registered for a node that it does not get to. -/
theorem tended : Tended header records (endQuery w s) :=
  (halted.progress stops).tended (w := endQuery w s) stops
    (le_trans (valid.row_le (Nat.zero_le j) (le_of_lt halted.inside)) halted.first)
    (le_trans halted.last (valid.row_le halted.inside le_rfl)) halted.seen halted.known halted.eol

end

/-- The locks of the query are released. -/
theorem unlocked {w₀ : World D} {q : Query D} {tight : Prop} {stop : Nat} (unlocked : w₀.Unlocked)
    {valid : phase.Valid rel records (w₀.task q)} (halted : Halted header (w₀.frame q tight stop) valid j w s) :
    (endQuery w s).Unlocked :=
  unlocked_endQuery unlocked halted.query halted.locks.1 halted.locks.2

end Halted

/-! ### Empty files -/

variable (header records) in
/-- **A world whose caches have no rows**, over a file without records. -/
structure Unfilled (w : World D) : Prop where
  empty : records = []
  packed : AllPacked w.caches
  unused : ∀ cache ∈ w.caches, cache.usedRows = 0
  eol : EolRight rel.plainSource header (recordLines records) w.eol w.eol.usedRows 0

theorem unfilled_initial (empty : records = []) : Unfilled header records World.initial :=
  ⟨empty, nofun, nofun, eolRight_initial⟩

/-- A node of caches only has a cache with its rows. -/
theorem Strategy.CoveredBy.exists_hasRow {n : Strategy} {caches : List (Cache D)} (covered : n.CoveredBy caches)
    (cacheOnly : noDBReadFromCacheOnly n = true) :
    ∃ cache ∈ caches, ∀ r, n.startRow ≤ r → r < n.startRow + n.nrows → cache.hasRow r = true := by
  have some := (noDBReadFromCacheOnly_iff.1 cacheOnly).2.2.2.2.2
  have read : ∃ entry, entry ∈ n.readPreFilterWithCache ++ n.readPostFilterWithCache ++ n.readPreFilterWithPM ++
      n.readPostFilterWithPM := by
    rcases some with post | pre
    · obtain ⟨entry, mem⟩ := exists_mem_of_ne_nil _ post
      exact ⟨entry, by simp [mem]⟩
    · obtain ⟨entry, mem⟩ := exists_mem_of_ne_nil _ pre
      exact ⟨entry, by simp [mem]⟩
  obtain ⟨entry, mem⟩ := read
  obtain ⟨cache, here, -, rows⟩ := covered entry mem
  exact ⟨cache, mem_of_getElem? here, rows⟩

namespace Unfilled

variable {q : Query D} (unfilled : Unfilled header records w)

include unfilled

theorem interesting : getInterestingRows w.caches = [] := getInterestingRows_of_unused unfilled.unused

theorem rows : w.phase.rows = [0, defaultRows] := if_pos unfilled.interesting

/-- Nothing is claimed. -/
theorem right {cache : Cache D} (mem : cache ∈ w.caches) {c r : Nat} (hasRow : cache.hasRow r = true) :
    CellRight rel records cache.type c r (cache.cells c r) := by
  have := Cache.hasRow_iff.1 hasRow
  rw [Cache.endRow, unfilled.unused cache mem] at this
  omega

/-- What planning leaves has no rows. -/
theorem planned : AllPacked (w.phase.planning (w.task q)).caches ∧
    ∀ cache ∈ (w.phase.planning (w.task q)).caches, cache.usedRows = 0 := by
  obtain ⟨widened, packed, -⟩ := buildMatrix_reads (w.task q).info w.phase.rows unfilled.packed
  refine ⟨packed, fun cache mem => ?_⟩
  obtain ⟨i, here⟩ := getElem?_of_mem mem
  cases old : w.caches[i]? with
  | none => exact (widened.new old here).1
  | some cache₀ =>
    obtain ⟨cache', here', widens⟩ := widened.old old
    obtain rfl : cache' = cache := Option.some.inj (here'.symm.trans here)
    rw [widens.usedRows]
    exact unfilled.unused cache₀ (mem_of_getElem? old)

/-- The only node reads the file. -/
theorem file : noDBReadFromCacheOnly (w.phase.node rel.byValue (w.task q) 0) = false := by
  by_contra cacheOnly
  obtain ⟨-, -, reads⟩ := buildMatrix_reads (w.task q).info w.phase.rows unfilled.packed
  have inside : 0 < w.phase.rows.length - 1 := by
    rw [unfilled.rows]
    decide
  have noRow : ∀ {cache : Cache D}, cache ∈ (w.phase.planning (w.task q)).caches → ∀ r, cache.hasRow r = false := by
    intro cache mem r
    have unused := (unfilled.planned (q := q)).2 cache mem
    simp only [Cache.hasRow, unused, Bool.and_eq_false_iff, decide_eq_false_iff_not]
    omega
  have covered := (reads 0 inside).strategyNode
    (show NoneEndsInside _ _ (w.phase.row 1 - w.phase.row 0) from fun cache mem hasRow => by
      rw [noRow mem] at hasRow
      cases hasRow) rel.byValue (w.task q).info
  obtain ⟨cache, mem, hasRow⟩ := covered.exists_hasRow (Bool.eq_true_of_not_eq_false cacheOnly)
  have first := hasRow 0 (by simp [unfilled.rows]) (by simp [Phase.row, unfilled.rows, defaultRows])
  rw [noRow mem] at first
  cases first

/-- What the end of a query leaves. -/
theorem endQuery {w' : World D} {s : Scan D} (packed : AllPacked w'.caches)
    (unused : ∀ cache ∈ w'.caches, cache.usedRows = 0) (processed : s.processed = 0) {known t : Nat}
    (right : EolRight rel.plainSource header (recordLines records) w'.eol known t) :
    Unfilled header records (PostgresRaw.endQuery w' s) where
  empty := unfilled.empty
  packed := (cachesKept_allPacked rel.byValue).finalize _ _ packed
  unused cache' mem := by
    obtain ⟨i, here'⟩ := getElem?_of_mem mem
    change (noDBFinalizeStrategy s.plan.curStrategy s.processed w'.caches)[i]? = _ at here'
    rw [getElem?_noDBFinalizeStrategy] at here'
    obtain ⟨cache, here, result⟩ := Option.map_eq_some_iff.1 here'
    rw [processed] at result
    split at result
    · rw [← result]
      exact Nat.zero_sub _
    · rw [← result]
      exact unused cache (mem_of_getElem? here)
  eol := right.leave

/-- **A query over an empty file** gives no tuple, and gets to the end of the data if a row is asked
for. -/
theorem run (q : Query D) (plain : PlainRelation rel header records) (n : Nat) :
    let run := startAndRun rel n w q
    run.tuples = [] ∧ run.ending = (if n = 0 then none else some .done) ∧ run.scan.query = q ∧
      run.world.cacheLock = (w.frame q False 0).cacheLock ∧ run.world.pmLock = (w.frame q False 0).pmLock ∧
      Unfilled header records (PostgresRaw.endQuery run.world run.scan) := by
  have count : 0 < w.phase.count := by
    rw [Phase.count, unfilled.rows]
    decide
  have zero : w.eol.usedRows = 0 := by
    have := unfilled.eol.used_le
    rw [recordLines_length, unfilled.empty] at this
    exact Nat.le_zero.1 this
  obtain ⟨packed, unused⟩ := unfilled.planned (q := q)
  have right := unfilled.eol.init (w.phase.node rel.byValue (w.task q) 0).nrows
  have init := @noDBScanStateInit_eq _ rel w q count (firstStrategy_of_unused unfilled.interesting)
  cases n with
  | zero =>
    rw [startAndRun_eq, init]
    exact ⟨rfl, rfl, rfl, rfl, rfl, unfilled.endQuery packed unused rfl right⟩
  | succ n =>
    have reader : ReaderAt rel.plainSource header (recordLines records) w.eol.usedRows
        ((noDBScanStateInit rel w q).2.reader (noDBScanStateInit rel w q).1) records.length := by
      rw [init, unfilled.empty]
      have waiting := Waiting.fresh right
      rw [unfilled.empty] at waiting
      refine waiting.readerAt ?_ (.inr (.inl rfl))
      rw [← unfilled.empty]
      exact plain.layout
    obtain ⟨input, read, right', -⟩ := readLine_done plain (by
      rw [init]
      rw [zero]
      rfl) reader
    have step := execNoDBPlan_done (by
      rw [init]
      rw [noDBGetExecPlan_of_file unfilled.file]
      split
      · exact .inl rfl
      · exact .inr rfl) read
    rw [startAndRun_eq, runRows_of_done step, init]
    exact ⟨rfl, rfl, rfl, rfl, rfl, unfilled.endQuery packed unused rfl right'⟩

end Unfilled

/-! ### Both kinds of files -/

variable (header records) in
/-- **The caches between queries** are tended, or have no rows. -/
structure Stocked (w : World D) : Prop where
  unfilled : records = [] → Unfilled header records w
  tended : records ≠ [] → Tended header records w

theorem stocked_initial : Stocked header records World.initial :=
  ⟨unfilled_initial, tended_initial⟩

theorem Unfilled.stocked (unfilled : Unfilled header records w) : Stocked header records w :=
  ⟨fun _ => unfilled, fun nonempty => absurd unfilled.empty nonempty⟩

theorem Tended.stocked (tended : Tended header records w) : Stocked header records w :=
  ⟨fun empty => absurd empty tended.nonempty, fun _ => tended⟩

/-- What the caches claim is right. -/
theorem Stocked.right (stocked : Stocked header records w) {cache : Cache D} (mem : cache ∈ w.caches) {c r : Nat}
    (hasColumn : cache.hasColumn c = true) (hasRow : cache.hasRow r = true) :
    CellRight rel records cache.type c r (cache.cells c r) := by
  by_cases empty : records = []
  · exact (stocked.unfilled empty).right mem hasRow
  · exact (stocked.tended empty).right mem hasColumn hasRow

variable (header records) in
/-- **The world between queries**, when nothing is locked. -/
structure Kept (w : World D) : Prop extends Stocked header records w where
  unlocked : w.Unlocked

theorem kept_initial : Kept header records World.initial :=
  ⟨stocked_initial, fun _ => ⟨rfl, rfl⟩⟩

theorem Kept.proper (kept : Kept header records w) {q : Query D} (formed : q.Formed rel.natts) :
    (w.task q).Proper rel.natts :=
  formed.proper (kept.unlocked.free q)

end

/-! ### Three rows -/

/-- The records of `threeRows`. -/
def threeRecords : List (PlainRecord threeRows.fmt threeRows.natts) :=
  [⟨[[49], [50], [51]], rfl, by decide, by decide, by decide +kernel, by decide⟩,
    ⟨[[52], [53], [54]], rfl, by decide, by decide, by decide +kernel, by decide⟩,
    ⟨[[55], [56], [57]], rfl, by decide, by decide, by decide +kernel, by decide⟩]

theorem plain_threeRows : PlainRelation threeRows [] threeRecords where
  file := by decide
  noHeader _ := rfl
  header := nofun
  transcoding := rfl

theorem acceptsAll_threeRows : AcceptsAll threeRows threeRecords := fun _ _ _ _ => ⟨_, rfl⟩

theorem proper_selectColumn {col : Nat} (inside : col < 3) (limit : Nat) : (selectColumn col limit).Proper 3 where
  sorted := pairwise_singleton _ _
  inside c mem := by rwa [mem_singleton.1 mem]
  filterRead := nofun
  filtered := nofun
  pure := nofun

end PostgresRaw
