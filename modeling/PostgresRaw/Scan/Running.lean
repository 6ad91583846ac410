import PostgresRaw.Scan.Counters
import PostgresRaw.Scan.Growth

/-!
# A scan that runs

The invariant of a scan over a plain file, from any state that tidy and sound caches can lead to.
`Executing` ties together the strategy iterator, the counters, the position in the file, the EOL
cache and the caches; the rows before `done` have been read and written.  A row step works on the row
and then counts it: `Executing.cacheRow` and `Executing.fileRow` are the first half, `Executing.advance`
the second.

Three things can keep a scan from its next row: an input function rejects a field, a cache has no
buffer for the row (`Frame.tight`), or the data has ended (`Ended`).  With a header the relative seek
leads astray, so `Phase.Smooth` asks that rows served from caches are followed by such rows, or by
none.
-/

namespace PostgresRaw

open List

section

variable {D : Type}

/-! ### The nodes of a phase -/

/-- The iterator at a node. -/
def Phase.iterator (phase : Phase D) (byValue : Nat → Bool) (task : Task D) (j : Nat) : StrategyIterator :=
  ⟨task.info, (buildStrategy byValue task.info phase.rows phase.base).1, j⟩

theorem Phase.current_iterator {phase : Phase D} {byValue : Nat → Bool} {task : Task D} {j : Nat}
    (inside : j < phase.count) : (phase.iterator byValue task j).current = phase.node byValue task j := by
  rw [Phase.iterator, StrategyIterator.current, getD_eq_getElem?_getD]
  have inside : j < phase.rows.length - 1 := inside
  simp [buildStrategy, inside, Phase.node, Phase.row, Phase.planning]

@[simp] theorem Phase.node_nrows (phase : Phase D) (byValue : Nat → Bool) (task : Task D) (j : Nat) :
    (phase.node byValue task j).nrows = phase.row (j + 1) - phase.row j :=
  strategyNode_nrows ..

/-- The caches that a node writes have room for its rows. -/
def Phase.Fits (phase : Phase D) (task : Task D) : Prop :=
  ∀ {j c t}, j < phase.count →
    HasRoom (phase.row (j + 1) - 1) (((phase.planning task).matrix j c).mark t) (phase.planning task).caches

/-- A phase of one node has room. -/
theorem Phase.Valid.fits {rel : Relation D} {records : List (PlainRecord rel.fmt rel.natts)} {task : Task D}
    {phase : Phase D} (valid : phase.Valid rel records task) (one : phase.count = 1) : phase.Fits task := by
  intro j c t inside
  have two : phase.rows.length = 2 := by
    rw [Phase.count] at one
    omega
  obtain rfl : j = 0 := by omega
  have room := valid.built.room (c := c) (t := t)
  rw [two] at room
  exact room

/-- Up to the row `stop` a node of caches only is followed by such a node, or by the end of the data. -/
def Phase.Smooth (phase : Phase D) (byValue : Nat → Bool) (task : Task D) (count stop : Nat) : Prop :=
  ∀ {j}, j < phase.count → phase.cacheOnly byValue task j = true → phase.row (j + 1) ≤ stop →
    phase.row (j + 1) = count ∨ j + 1 < phase.count ∧ phase.cacheOnly byValue task (j + 1) = true

/-- What stays the same while a scan runs, apart from its task. -/
structure Frame where
  cacheLock : Nat → Bool
  pmLock : Nat → Bool
  /-- whether a node of the first plan may lack room -/
  tight : Prop
  /-- no row behind this one is asked for -/
  stop : Nat

/-! ### Rows as a query gives them -/

/-- The tuple of a record: columns that are not read are null. -/
def Query.row (q : Query D) {fmt : CsvFormat} {natts : Nat} (input : InputFunctions D)
    (record : PlainRecord fmt natts) : Nat → Value D :=
  fun c => if c ∈ q.readAll then record.value input c else .null

/-- The answer to a query: the tuples of the records, in order, that satisfy the qual. -/
def Query.answer (q : Query D) {fmt : CsvFormat} {natts : Nat} (input : InputFunctions D)
    (records : List (PlainRecord fmt natts)) : List (Nat → Value D) :=
  (records.map (q.row input)).filter (execQual q)

variable {rel : Relation D} {header : List Byte} {records : List (PlainRecord rel.fmt rel.natts)}
  {task : Task D} {phase : Phase D}

variable (rel) in
/-- The values and the verdict of a row step are those of the record. -/
structure Gives (q : Query D) (record : PlainRecord rel.fmt rel.natts) (values : Nat → Value D) (pass : Bool) :
    Prop where
  values : pass = true → values = q.row rel.input record
  pass : q.Proper rel.natts → pass = execQual q (q.row rel.input record)

theorem RowRead.gives {record : PlainRecord rel.fmt rel.natts} {node : Nat → Node} {old new : RowState D}
    {pass : Bool} (read : RowRead rel task record node old new pass)
    (nulls : ∀ c ∉ task.query.readAll, old.values c = .null) : Gives rel task.query record new.values pass where
  values passes := by
    funext c
    by_cases mem : c ∈ task.query.readAll
    · rw [Query.row, if_pos mem, read.all passes c mem]
    · rw [Query.row, if_neg mem, read.others c mem, nulls c mem]
  pass proper := by
    have qual := read.qual
    by_cases isNone : task.query.qual = none
    · rw [if_pos (by simp [Query.filter, isNone])] at qual
      rw [qual, execQual, isNone]
      rfl
    · obtain ⟨f, isSome⟩ := Option.ne_none_iff_exists'.1 isNone
      have filter : task.query.filter = task.query.filterAtts := if_pos (by simp [isSome])
      rw [if_neg (by rw [filter]; exact proper.filtered (by simp [isSome])), filter] at qual
      obtain ⟨seen, verdict, right⟩ := qual
      rw [verdict, execQual, execQual, isSome]
      refine proper.pure f isSome fun c mem => ?_
      rw [right c mem, Query.row, if_pos (proper.filterRead c mem)]

/-! ### The invariant -/

variable (header) in
/-- **A scan at a row of a node**, with the rows before `done` read and written. -/
structure Executing (frame : Frame) (valid : phase.Valid rel records task) (j done : Nat) (w : World D)
    (s : Scan D) : Prop where
  query : s.query = task.query
  lastfield : s.lastfield = task.query.readAll.getLast?.getD 0
  inside : j < phase.count
  node : valid.cuts.InNode j s.processed
  within : done ≤ records.length
  iterator : s.plan.iterator = phase.iterator rel.byValue task j
  exec : s.execPlan = noDBGetExecPlan task.query (phase.node rel.byValue task j)
  counters : ∃ p₀, Counters task.known (phase.cacheOnly rel.byValue task j) (phase.row (j + 1)) p₀ s.processed s.plan
  progress : Progress valid w.caches (phase.row j) done
  room : phase.row j < done → ∀ {t i cache}, ((phase.planning task).plan t).Writes j i →
    w.caches[i]? = some cache → done ≤ cache.startRow + cache.maxRows.getD 0
  waiting : phase.cacheOnly rel.byValue task j = true →
    Waiting header rel.plainSource (recordLines records) task.known (s.reader w) (phase.row j)
  reader : phase.cacheOnly rel.byValue task j = false →
    ReaderAt rel.plainSource header (recordLines records) task.known (s.reader w) done
  seen : done ≤ w.eol.usedRows
  start : (s.attributes 0).pointer = 0
  nulls : ∀ c ∉ task.query.readAll, s.values c = .null
  smooth : rel.headerLine = true → phase.Smooth rel.byValue task records.length frame.stop
  fits : frame.tight ∨ phase.Fits task
  locks : w.cacheLock = frame.cacheLock ∧ w.pmLock = frame.pmLock

variable (header) in
/-- A scan whose last node ended with the data. -/
structure Ended (frame : Frame) (valid : phase.Valid rel records task) (j : Nat) (w : World D) (s : Scan D) :
    Prop where
  query : s.query = task.query
  inside : j < phase.count
  iterator : s.plan.iterator = phase.iterator rel.byValue task j
  processed : s.processed = records.length
  last : phase.row (j + 1) = records.length
  exec : s.execPlan = .plan
  readFile : s.plan.readFile = .fromFile
  progress : Progress valid w.caches records.length records.length
  reader : ReaderAt rel.plainSource header (recordLines records) task.known (s.reader w) records.length
  seen : records.length ≤ w.eol.usedRows
  locks : w.cacheLock = frame.cacheLock ∧ w.pmLock = frame.pmLock

variable (header) in
/-- **A scan that is left**, at a row of a node or behind its last one.  What has been written in the
node still waits for its end to be set, or this has been done. -/
structure Halted (frame : Frame) (valid : phase.Valid rel records task) (j : Nat) (w : World D) (s : Scan D) :
    Prop where
  query : s.query = task.query
  inside : j < phase.count
  iterator : s.plan.iterator = phase.iterator rel.byValue task j
  first : phase.row j ≤ s.processed
  last : s.processed ≤ phase.row (j + 1)
  within : s.processed ≤ records.length
  caches : (Progress valid w.caches (phase.row j) s.processed ∧
      (phase.row j < s.processed → ∀ {t i cache}, ((phase.planning task).plan t).Writes j i →
        w.caches[i]? = some cache → s.processed ≤ cache.startRow + cache.maxRows.getD 0)) ∨
    s.processed = phase.row (j + 1) ∧ Progress valid w.caches s.processed s.processed
  eol : EolRight rel.plainSource header (recordLines records) w.eol w.eol.usedRows 0
  known : task.known ≤ w.eol.usedRows
  seen : s.processed ≤ w.eol.usedRows
  locks : w.cacheLock = frame.cacheLock ∧ w.pmLock = frame.pmLock

variable {frame : Frame} {valid : phase.Valid rel records task} {j done : Nat} {w : World D} {s : Scan D}

theorem Halted.current (halted : Halted header frame valid j w s) :
    s.plan.curStrategy = phase.node rel.byValue task j := by
  rw [PlanState.curStrategy, halted.iterator, Phase.current_iterator halted.inside]

/-- What is known about the lengths when a scan is left. -/
theorem EolRight.leave {src : Source} {contents : List (List Byte)} {eol : EolCache} {known t : Nat}
    (right : EolRight src header contents eol known t) : EolRight src header contents eol eol.usedRows 0 :=
  ⟨le_rfl, right.used_le, fun r content less => right.lengths r content (by omega), right.headerSize⟩

namespace Executing

theorem current (executing : Executing header frame valid j done w s) :
    s.plan.curStrategy = phase.node rel.byValue task j := by
  rw [PlanState.curStrategy, executing.iterator, Phase.current_iterator executing.inside]

theorem eol (executing : Executing header frame valid j done w s) :
    task.known ≤ w.eol.usedRows ∧ w.eol.usedRows ≤ records.length := by
  have length := recordLines_length records
  cases cacheOnly : phase.cacheOnly rel.byValue task j with
  | true =>
    have right := (executing.waiting cacheOnly).eol
    exact ⟨right.known_le, length ▸ right.used_le⟩
  | false =>
    have right := (executing.reader cacheOnly).eol
    exact ⟨right.known_le, length ▸ right.used_le⟩

/-- A scan may be left at any row. -/
theorem halt (executing : Executing header frame valid j s.processed w s) {w' : World D} {s' : Scan D} {t : Nat}
    (caches : w'.caches = w.caches) (locks : w'.cacheLock = w.cacheLock ∧ w'.pmLock = w.pmLock)
    (same : SameScan s s') (right : EolRight rel.plainSource header (recordLines records) w'.eol task.known t)
    (seen : s.processed ≤ w'.eol.usedRows) : Halted header frame valid j w' s' where
  query := same.query.trans executing.query
  inside := executing.inside
  iterator := by rw [same.plan, executing.iterator]
  first := same.processed ▸ executing.node.1
  last := same.processed ▸ Nat.le_of_lt executing.node.2
  within := same.processed ▸ executing.within
  caches := by
    rw [caches, same.processed]
    exact .inl ⟨executing.progress, executing.room⟩
  eol := right.leave
  known := right.known_le
  seen := same.processed ▸ seen
  locks := ⟨locks.1.trans executing.locks.1, locks.2.trans executing.locks.2⟩

theorem halted (executing : Executing header frame valid j s.processed w s) : Halted header frame valid j w s := by
  cases cacheOnly : phase.cacheOnly rel.byValue task j with
  | true => exact executing.halt rfl ⟨rfl, rfl⟩ (.refl s) (executing.waiting cacheOnly).eol executing.seen
  | false => exact executing.halt rfl ⟨rfl, rfl⟩ (.refl s) (executing.reader cacheOnly).eol executing.seen

/-! ### The work on a row -/

variable {record : PlainRecord rel.fmt rel.natts}

section

variable (executing : Executing header frame valid j s.processed w s)
include executing

/-- A row of a node of caches only. -/
theorem cacheRow (proper : task.Proper rel.natts)
    (cacheOnly : phase.cacheOnly rel.byValue task j = true) (here : records[s.processed]? = some record) :
    ∃ s' pass, execNoDBPlan rel w s = advance rel w s' pass ∧ s'.processed = s.processed ∧
      Executing header frame valid j (s.processed + 1) w s' ∧ Gives rel task.query record s'.values pass := by
  obtain ⟨values, pass, step, read⟩ := cacheRow_eq executing.progress proper executing.inside executing.node here
    executing.query executing.current executing.exec executing.start cacheOnly
  have cached := valid.allCached proper executing.inside cacheOnly
  have idle : ∀ {t c i}, ((phase.planning task).plan t).mark j c ≠ some i := fun mark =>
    cached.idle _ _ _ (Mark.added_eq_some.1 mark)
  have last := valid.row_le_known proper executing.inside cacheOnly
  have less : s.processed < phase.row (j + 1) := executing.node.2
  have eol := executing.eol
  refine ⟨{ s with values := values }, pass, step, rfl, ?_, read.gives executing.nulls⟩
  exact { executing with
    within := by omega
    progress := executing.progress.write executing.inside executing.node (.refl _) fun mark => absurd mark idle
    room := fun _ {t i cache} writes _ => by
      obtain ⟨c, mark⟩ := writes
      exact absurd mark idle
    reader := fun file => by
      rw [cacheOnly] at file
      cases file
    seen := by omega
    nulls := fun c none => (read.others c none).trans (executing.nulls c none) }

/-- Reading the next line. -/
theorem readLine (plain : PlainRelation rel header records)
    (file : phase.cacheOnly rel.byValue task j = false) (here : records[s.processed]? = some record) :
    ∃ input, readLine rel w s = (.line, { w with eolCache := some input.eolCache }, { s with input := input }) ∧
      input.lineBuf = record.line ∧
      ReaderAt rel.plainSource header (recordLines records) task.known input (s.processed + 1) ∧
      s.processed + 1 ≤ input.eolCache.usedRows := by
  obtain ⟨p₀, counters⟩ := executing.counters
  rw [file] at counters
  have readFile := counters.readFile_eq
  have reader := executing.reader file
  have line := recordLines_getElem? here
  unfold PostgresRaw.readLine
  rw [readFile, plain.source w]
  by_cases before : s.processed < task.known
  · obtain ⟨input, read, lineBuf, next, used⟩ := reader.line_withEOL plain.layout before line
    have known := next.eol.known_le
    rw [if_pos before]
    simp only [read]
    exact ⟨input, rfl, lineBuf, next, by omega⟩
  · obtain ⟨input, read, lineBuf, next, used⟩ := reader.line plain.layout (not_lt.1 before) line
    rw [if_neg before]
    simp only [read]
    exact ⟨input, rfl, lineBuf, next, le_of_eq used.symm⟩

/-- The caches that a node writes have a buffer for its rows, if there is room. -/
theorem hasBuffer (fits : phase.Fits task)
    {t : CacheType} {c i : Nat} {cache : Cache D} (mark : ((phase.planning task).matrix j c).mark t = .add i)
    (here : w.caches[i]? = some cache) : cache.hasBuffer s.processed = true := by
  obtain ⟨cache', here', -, start, maxRows, -⟩ := executing.progress.shape.symm.exists_of_getElem? here
  have room := fits executing.inside i cache' mark here'
  have first : phase.row j ≤ s.processed := executing.node.1
  have last : s.processed < phase.row (j + 1) := executing.node.2
  have begun : ((phase.planning task).plan t).start i ≤ phase.row j :=
    ((valid.ready t).planned.add (Mark.added_eq_some.2 mark)).2.2.2.2
  change (lane (phase.planning task).caches t).start i ≤ phase.row j at begun
  rw [lane_start here'] at begun
  simp only [Cache.hasBuffer, Bool.and_eq_true, decide_eq_true_eq]
  rw [start, maxRows] at *
  omega

/-- A row that is read from the file. -/
theorem fileRow (proper : task.Proper rel.natts)
    (plain : PlainRelation rel header records) (file : phase.cacheOnly rel.byValue task j = false)
    (here : records[s.processed]? = some record) : (∃ w' s', execNoDBPlan rel w s = (.fault, w', s') ∧ frame.tight) ∨
      (∃ w' s', execNoDBPlan rel w s = (.error .rejectedInput, w', s') ∧ s'.processed = s.processed ∧
        Halted header frame valid j w' s' ∧ ∃ c ∈ task.query.readAll, ¬ record.Accepts rel.input c) ∨
      ∃ w' s' pass, execNoDBPlan rel w s = advance rel w' s' pass ∧ s'.processed = s.processed ∧
        Executing header frame valid j (s.processed + 1) w' s' ∧ Gives rel task.query record s'.values pass := by
  obtain ⟨input, read, line, reader, seen⟩ := executing.readLine plain file here
  rcases fileRow_cases executing.progress proper executing.inside executing.node here executing.query
      executing.current executing.exec executing.start executing.lastfield file read rfl
      ⟨rfl, rfl, rfl, rfl, rfl, rfl⟩ line with ⟨fails, rejects⟩ | ⟨r, pass, step, rowRead⟩
  · refine .inr (.inl ⟨_, _, fails, rfl, ?_, rejects⟩)
    exact executing.halt rfl ⟨rfl, rfl⟩ ⟨rfl, rfl, rfl, rfl, rfl, rfl⟩ reader.eol (Nat.le_of_succ_le seen)
  rw [step]
  have inside := (List.getElem?_eq_some_iff.1 here).1
  have current : s.plan.curStrategy = phase.node rel.byValue task j := executing.current
  have typed : ∀ {t c i}, ((phase.planning task).matrix j c).mark t = .add i →
      ∃ cache, w.caches[i]? = some cache ∧ cache.type = t := fun mark =>
    executing.progress.exists_marked (Mark.added_eq_some.2 mark)
  rcases writeCaches_cases (n := s.plan.curStrategy) (r := s.processed) (valid.built.firstReply rel.byValue executing.inside)
      (noEmpty_fillRow rel.byValue _ _ _) (by rw [current]; exact strategyNode_writesAs)
      (fun c mem => proper.query.inside c (proper.mem_cols.1 mem)) here typed rowRead.data rowRead.positions with
    ⟨fails, t, c, i, cache, -, mark, there, lacks⟩ | ⟨caches, done, improves, readable⟩
  · refine .inl ⟨_, _, finishRow_of_none fails, executing.fits.resolve_right fun fits => ?_⟩
    rw [executing.hasBuffer fits mark there] at lacks
    cases lacks
  · refine .inr (.inr ⟨_, _, pass, finishRow_of_some done, rfl, ?_, rowRead.gives executing.nulls⟩)
    have marked : ∀ {t c i}, ((phase.planning task).plan t).mark j c = some i →
        Readable rel records caches t i c s.processed := by
      intro t c i mark
      obtain ⟨-, write, mem, -⟩ := valid.built.mark_add (Mark.added_eq_some.1 mark)
      refine readable mem ?_ (Mark.added_eq_some.1 mark)
      cases t <;> exact write
    exact { executing with
      within := inside
      progress := executing.progress.write executing.inside executing.node improves fun mark => (marked mark).right
      room := fun _ {t i cache} writes there => by
        obtain ⟨c, mark⟩ := writes
        obtain ⟨cache', there', buffer, -⟩ := marked mark
        obtain rfl : cache = cache' := Option.some.inj (there.symm.trans there')
        simp only [Cache.hasBuffer, Bool.and_eq_true, decide_eq_true_eq] at buffer
        omega
      waiting := fun cacheOnly => by
        rw [file] at cacheOnly
        cases cacheOnly
      reader := fun _ => reader.setLineBuf r.lineBuf
      seen := seen
      start := rowRead.start
      nulls := fun c none => (rowRead.others c none).trans (executing.nulls c none) }

end

end Executing

/-! ### The end of a node -/

/-- The phase behind the last node. -/
def Phase.next (phase : Phase D) (caches : List (Cache D)) : Phase D :=
  ⟨caches, [phase.row phase.count, phase.row phase.count + defaultRows]⟩

/-- A scan stays with its phase, or goes on with the next one when it has executed all nodes. -/
def Phase.Valid.Follows (valid : phase.Valid rel records task) (phase' : Phase D) : Prop :=
  phase' = phase ∨ phase.row phase.count < records.length ∧ ∃ caches, phase' = phase.next caches ∧
    Progress valid caches (phase.row phase.count) (phase.row phase.count)

variable {caches : List (Cache D)}

section

variable (progress : Progress valid caches (phase.row phase.count) (phase.row phase.count))

include progress

theorem Progress.nodesDone (byValue : Nat → Bool) :
    NodesDone byValue task.info phase.rows phase.base (phase.rows.length - 1)
      (phase.iterator byValue task phase.count, caches) where
  plannable := ⟨valid.increasing, valid.shaped, valid.tidy, valid.aligned, valid.before⟩
  inside := Nat.le_refl _
  firstRow short := absurd valid.twoRows (by omega)
  iterator := rfl
  shape := progress.shape
  executed := progress.executed

/-- The caches do not reach behind the last node. -/
theorem Progress.endRow_le {i : Nat}
    {cache : Cache D} (here : caches[i]? = some cache) : cache.endRow ≤ phase.row phase.count := by
  have stops : ∀ t, BookPlan.StopsWell valid.cuts ((phase.planning task).plan t) (phase.row phase.count) := by
    intro t a b inside _ behind
    exact absurd behind (not_le.2 (valid.row_lt inside le_rfl))
  have shaped := progress.shape.allShaped valid.built.shaped
  obtain ⟨c, mem⟩ := exists_mem_of_ne_nil _ (shaped cache (mem_of_getElem? here)).2
  have has : (lane caches cache.type).has i c := (lane_has here).2 ⟨rfl, mem⟩
  rw [← lane_stop (t := cache.type) here]
  rcases progress.ends stops (valid.row_le (Nat.zero_le _) le_rfl) le_rfl has with before |
    ⟨old, le⟩
  · exact before
  · rcases (valid.aligned cache.type).stops old with early | ⟨a, inside, ends⟩
    · exact le_trans le (le_trans early (valid.row_le (Nat.zero_le _) le_rfl))
    · exact le_trans le (le_trans (le_of_eq ends) (valid.row_le inside le_rfl))

/-- **Behind the last node** there is another phase. -/
theorem Progress.valid_next
    (more : phase.row phase.count < records.length) : (phase.next caches).Valid rel records task := by
  have stops : ∀ t, BookPlan.StopsWell valid.cuts ((phase.planning task).plan t) (phase.row phase.count) := by
    intro t a b inside _ behind
    exact absurd behind (not_le.2 (valid.row_lt inside le_rfl))
  have done := progress.nodesDone rel.byValue
  have next := done.plannable_next
  rw [done.nextRow] at next
  have first : (phase.next caches).row 0 = phase.row phase.count := rfl
  exact {
    increasing := next.increasing
    twoRows := Nat.le_refl 2
    nodes := fun {a} inside => by
      obtain rfl : a = 0 := by
        have : a < 1 := inside
        omega
      rwa [first]
    shaped := next.shaped
    sound := progress.sound stops
    tidy := next.tidy
    aligned := next.aligned
    before := next.before
    buffers := progress.used
    ends := fun here => by
      have := progress.endRow_le here
      omega }

end

namespace Executing

/-- **The reader at the end of a node**, when it has been moved to the row and has looked ahead. -/
theorem lookAhead (executing : Executing header frame valid j (phase.row (j + 1)) w s)
    (proper : task.Proper rel.natts) (plain : PlainRelation rel header records)
    (stop : phase.row (j + 1) ≤ frame.stop) :
    ∃ input, PostgresRaw.lookAhead rel w (seekToRow rel.headerLine (phase.row (j + 1)) (s.reader w)) =
        some (decide (phase.row (j + 1) = records.length), input) ∧ input.eolCache = w.eol ∧
      (phase.row (j + 1) ≠ records.length → j + 1 < phase.count → phase.cacheOnly rel.byValue task (j + 1) = true →
          Waiting header rel.plainSource (recordLines records) task.known input (phase.row (j + 1))) ∧
      ((phase.row (j + 1) ≠ records.length → j + 1 < phase.count → phase.cacheOnly rel.byValue task (j + 1) = false) →
          ReaderAt rel.plainSource header (recordLines records) task.known input (phase.row (j + 1))) := by
  have eol := executing.eol
  have rising := valid.row_lt (Nat.lt_add_one j) executing.inside
  have length := recordLines_length records
  -- A node of caches only that follows is one whose lengths are known.
  have nextKnown : j + 1 < phase.count → phase.cacheOnly rel.byValue task (j + 1) = true →
      phase.row (j + 1) < w.eol.usedRows := by
    intro more next
    have := valid.row_le_known proper more next
    have := valid.row_lt (Nat.lt_add_one (j + 1)) more
    omega
  -- Looking ahead with a reader that is where it should be.
  have look : ∀ {input : RawInput}, input.eolCache = w.eol → input.tupleRead = phase.row (j + 1) →
      (w.eol.usedRows ≤ phase.row (j + 1) →
        ReaderAt rel.plainSource header (recordLines records) task.known input (phase.row (j + 1))) →
      ∃ input', PostgresRaw.lookAhead rel w input = some (decide (phase.row (j + 1) = records.length), input') ∧
        input'.eolCache = w.eol ∧
        (phase.row (j + 1) < w.eol.usedRows → input' = input) ∧
        (w.eol.usedRows ≤ phase.row (j + 1) →
          ReaderAt rel.plainSource header (recordLines records) task.known input' (phase.row (j + 1))) := by
    intro input same isRead reader
    unfold PostgresRaw.lookAhead
    rw [same, isRead, plain.source w]
    by_cases known : w.eol.usedRows ≤ phase.row (j + 1)
    · rw [if_pos known]
      obtain ⟨input', refilled, reader', same'⟩ := (reader known).tryReFill (by omega) (.inr (by omega))
      rw [length] at refilled
      exact ⟨input', refilled, same'.trans same, fun less => absurd known (not_le.2 less), fun _ => reader'⟩
    · rw [if_neg known, decide_eq_false (by omega)]
      exact ⟨input, rfl, same, fun _ => rfl, fun le => absurd le known⟩
  cases cacheOnly : phase.cacheOnly rel.byValue task j with
  | false =>
    have reader := executing.reader cacheOnly
    have unmoved : seekToRow rel.headerLine (phase.row (j + 1)) (s.reader w) = s.reader w := by
      rw [seekToRow, if_neg fun moved => moved.1 reader.tupleRead]
    rw [unmoved]
    obtain ⟨input, looked, same, kept, moved⟩ := look rfl reader.tupleRead fun _ => reader
    refine ⟨input, looked, same, fun _ more next => ?_, fun _ => ?_⟩
    · rw [valid.cacheOnly_of_next proper more next] at cacheOnly
      cases cacheOnly
    · rcases lt_or_ge (phase.row (j + 1)) w.eol.usedRows with known | unknown
      · rw [kept known]
        exact reader
      · exact moved unknown
  | true =>
    have known := valid.row_le_known proper executing.inside cacheOnly
    obtain ⟨waiting, same⟩ := (executing.waiting cacheOnly).seek (p := phase.row (j + 1)) plain.layout (by omega)
      (by change _ ≤ w.eol.usedRows; omega)
    have usable : (phase.row (j + 1) ≠ records.length → j + 1 < phase.count →
        phase.cacheOnly rel.byValue task (j + 1) = false) →
        ReaderAt rel.plainSource header (recordLines records) task.known
          (seekToRow rel.headerLine (phase.row (j + 1)) (s.reader w)) (phase.row (j + 1)) := by
      intro noNext
      refine waiting.readerAt plain.layout ?_
      by_cases isHeader : rel.headerLine = true
      · refine .inr (.inr ?_)
        rw [length]
        rcases executing.smooth isHeader executing.inside cacheOnly stop with ended | ⟨more, next⟩
        · exact ended
        · by_contra notEnded
          rw [noNext notEnded more] at next
          cases next
      · exact .inl (Bool.eq_false_of_not_eq_true isHeader)
    obtain ⟨input, looked, same', kept, moved⟩ := look same waiting.tupleRead fun unknown => usable fun _ more => by
      by_contra next
      have := nextKnown more (by simpa using next)
      omega
    refine ⟨input, looked, same', fun _ more next => ?_, fun noNext => ?_⟩
    · rw [kept (nextKnown more next)]
      exact waiting
    · rcases lt_or_ge (phase.row (j + 1)) w.eol.usedRows with known | unknown
      · rw [kept known]
        exact usable noNext
      · exact moved unknown

/-- **Going on to a node**: the next one of the phase, or the first one of the next phase. -/
theorem nextStrategy {phase' : Phase D} {valid' : phase'.Valid rel records task} {j' : Nat} {caches : List (Cache D)}
    (query : s.query = task.query) (lastfield : s.lastfield = task.query.readAll.getLast?.getD 0)
    (inside : j' < phase'.count) (row : phase'.row j' = s.processed) (within : s.processed ≤ records.length)
    (get : noDBScanStrategyIteratorGet rel.byValue (noDBScanStrategyIteratorNext s.plan.iterator) w.caches =
      (phase'.iterator rel.byValue task j', caches)) (nEOL : s.plan.nEOL = ((task.known - s.processed : Nat) : Int))
    (readFile : s.plan.readFile = noDBGetReadFile s.plan.nEOL)
    (progress : Progress valid' caches s.processed s.processed) (waiting : phase'.cacheOnly rel.byValue task j' = true →
      Waiting header rel.plainSource (recordLines records) task.known (s.reader w) s.processed)
    (reader : phase'.cacheOnly rel.byValue task j' = false →
      ReaderAt rel.plainSource header (recordLines records) task.known (s.reader w) s.processed)
    (seen : s.processed ≤ w.eol.usedRows) (start : (s.attributes 0).pointer = 0)
    (nulls : ∀ c ∉ task.query.readAll, s.values c = .null)
    (smooth : rel.headerLine = true → phase'.Smooth rel.byValue task records.length frame.stop)
    (fits : frame.tight ∨ phase'.Fits task) (locks : w.cacheLock = frame.cacheLock ∧ w.pmLock = frame.pmLock) :
    Executing header frame valid' j' s.processed (nextStrategy rel w s).1 (nextStrategy rel w s).2 := by
  have current : (phase'.iterator rel.byValue task j').current = phase'.node rel.byValue task j' :=
    Phase.current_iterator inside
  have rising := valid'.row_lt (Nat.lt_add_one j') inside
  have step : PostgresRaw.nextStrategy rel w s =
      ({ w with
          caches := caches
          eolCache := some (extendEol w.eol s.processed (phase'.node rel.byValue task j').nrows) }, { s with
          execPlan := noDBGetExecPlan s.query (phase'.node rel.byValue task j')
          plan := { s.plan with
            iterator := phase'.iterator rel.byValue task j'
            nRows := (phase'.node rel.byValue task j').nrows
            nMin := rowsAhead (phase'.node rel.byValue task j') s.plan.nEOL
            tuplesToRead := rowsAhead (phase'.node rel.byValue task j') s.plan.nEOL } }) := by
    unfold PostgresRaw.nextStrategy
    rw [get]
    simp only [current]
  rw [step]
  exact {
    query := query
    lastfield := lastfield
    inside := inside
    node := ⟨le_of_eq row, show s.processed < phase'.row (j' + 1) by omega⟩
    within := within
    iterator := rfl
    exec := by rw [query]
    counters := ⟨s.processed, Counters.start (by rw [Phase.node_nrows, row]) (by omega) rfl nEOL rfl rfl readFile⟩
    progress := row ▸ progress
    room := fun less => absurd less (by omega)
    waiting := fun cacheOnly => row ▸ (waiting cacheOnly).extend s.processed (phase'.node rel.byValue task j').nrows
    reader := fun file => (reader file).extend s.processed (phase'.node rel.byValue task j').nrows
    seen := by
      change _ ≤ (extendEol w.eol _ _).usedRows
      rw [extendEol_usedRows]
      exact seen
    start := start
    nulls := nulls
    smooth := smooth
    fits := fits
    locks := locks }

/-- Going on within the phase. -/
theorem get_next (executing : Executing header frame valid j done w s) (more : j + 1 < phase.count)
    (caches : List (Cache D)) :
    noDBScanStrategyIteratorGet rel.byValue (noDBScanStrategyIteratorNext s.plan.iterator) caches =
      (phase.iterator rel.byValue task (j + 1), caches) := by
  have next : noDBScanStrategyIteratorNext s.plan.iterator = phase.iterator rel.byValue task (j + 1) := by
    rw [executing.iterator]
    rfl
  rw [next, noDBScanStrategyIteratorGet, if_neg]
  change j + 1 ≠ (buildStrategy rel.byValue task.info phase.rows phase.base).1.length
  rw [length_buildStrategy]
  exact ne_of_lt more

/-- Going on to the next phase. -/
theorem get_phase (executing : Executing header frame valid j done w s) (last : j + 1 = phase.count)
    {caches : List (Cache D)} (progress : Progress valid caches (phase.row phase.count) (phase.row phase.count)) :
    noDBScanStrategyIteratorGet rel.byValue (noDBScanStrategyIteratorNext s.plan.iterator) caches =
      ((phase.next caches).iterator rel.byValue task 0, ((phase.next caches).planning task).caches) := by
  have next : noDBScanStrategyIteratorNext s.plan.iterator = phase.iterator rel.byValue task phase.count := by
    rw [executing.iterator, ← last]
    rfl
  have row : (phase.iterator rel.byValue task phase.count).nextRow = phase.row phase.count :=
    (progress.nodesDone rel.byValue).nextRow
  have ended : (phase.iterator rel.byValue task phase.count).cur =
      (phase.iterator rel.byValue task phase.count).strategy.length := length_buildStrategy.symm
  rw [next, noDBScanStrategyIteratorGet, if_pos ended, row]
  rfl

section

variable (executing : Executing header frame valid j (s.processed + 1) w s) (proper : task.Proper rel.natts)
  (plain : PlainRelation rel header records) (stop : s.processed + 1 ≤ frame.stop)

include executing proper plain stop

/-- **The end of a node**: the data has ended, or the scan goes on with the next node. -/
theorem endNode (ends : s.processed + 1 = phase.row (j + 1))
    (nEOL : s.counted.countDown.plan.nEOL = ((task.known - (s.processed + 1) : Nat) : Int))
    (readFile : s.counted.countDown.plan.readFile = noDBGetReadFile s.counted.countDown.plan.nEOL) :
    ∃ w' s', PostgresRaw.endNode rel w s.counted.countDown = some (w', s') ∧ s'.processed = s.processed + 1 ∧
      s'.values = s.values ∧ ((∃ (phase' : Phase D) (valid' : phase'.Valid rel records task) (j' : Nat),
          valid.Follows phase' ∧ Executing header frame valid' j' s'.processed w' s') ∨
        Ended header frame valid j w' s') := by
  have rising := valid.row_lt (Nat.lt_add_one j) executing.inside
  have within := executing.within
  obtain ⟨input, looked, eol, waiting, reader⟩ := (ends ▸ executing).lookAhead proper plain (ends ▸ stop)
  -- The caches, with the ends of those written in the node set.
  have progress : Progress valid (noDBFinalizeStrategy (phase.node rel.byValue task j) (s.processed + 1) w.caches)
      (s.processed + 1) (s.processed + 1) :=
    executing.progress.finalize executing.inside (by omega) (le_of_eq ends) (executing.room (by omega))
  rw [← executing.current] at progress
  have seen : s.processed + 1 ≤ input.eolCache.usedRows := by
    rw [eol]
    exact executing.seen
  have step : PostgresRaw.endNode rel w s.counted.countDown = some
      (let ws := storeReader (finalizeNode w s.counted.countDown) s.counted.countDown input
      if phase.row (j + 1) = records.length then (ws.1, ws.2.atEnd) else PostgresRaw.nextStrategy rel ws.1 ws.2) := by
    rw [PostgresRaw.endNode, show s.counted.countDown.processed = phase.row (j + 1) from ends,
      show s.counted.countDown.reader w = s.reader w from rfl, looked, Option.map_some]
    simp only [decide_eq_true_eq]
  rw [step]
  by_cases ended : phase.row (j + 1) = records.length
  · rw [if_pos ended]
    refine ⟨_, _, rfl, rfl, rfl, .inr ?_⟩
    have length : s.processed + 1 = records.length := ends.trans ended
    have known := executing.eol
    exact {
      query := executing.query
      inside := executing.inside
      iterator := executing.iterator
      processed := length
      last := ended
      exec := rfl
      readFile := by
        change noDBGetReadFile s.counted.countDown.plan.nEOL = .fromFile
        rw [nEOL, noDBGetReadFile_eq, if_neg (by omega)]
      progress := by
        rw [← length]
        exact progress
      reader := by
        rw [← ended]
        exact reader fun different => absurd ended different
      seen := length ▸ seen
      locks := executing.locks }
  · rw [if_neg ended]
    refine ⟨_, _, rfl, rfl, rfl, .inl ?_⟩
    let w' := (storeReader (finalizeNode w s.counted.countDown) s.counted.countDown input).1
    let s' := (storeReader (finalizeNode w s.counted.countDown) s.counted.countDown input).2
    by_cases more : j + 1 < phase.count
    · refine ⟨phase, valid, j + 1, .inl rfl, Executing.nextStrategy (w := w') (s := s') executing.query executing.lastfield more
        ends.symm within (executing.get_next more _) nEOL readFile progress (fun cacheOnly => ?_) (fun file => ?_)
        seen executing.start executing.nulls executing.smooth executing.fits executing.locks⟩
      · change Waiting header rel.plainSource _ _ input (s.processed + 1)
        rw [ends]
        exact waiting ended more cacheOnly
      · change ReaderAt rel.plainSource header _ _ input (s.processed + 1)
        rw [ends]
        exact reader fun _ _ => file
    · have last : j + 1 = phase.count := by
        have := executing.inside
        omega
      have row : phase.row phase.count = s.processed + 1 := by rw [ends, last]
      have final : Progress valid w'.caches (phase.row phase.count) (phase.row phase.count) := by
        rw [row]
        exact progress
      have behind : phase.row phase.count < records.length := by rw [← last]; omega
      have valid' := final.valid_next behind
      have file : ∀ {j'}, j' < (phase.next w'.caches).count →
          (phase.next w'.caches).cacheOnly rel.byValue task j' = false :=
        fun inside => valid'.not_cacheOnly proper inside fun here => final.endRow_le here
      refine ⟨_, valid', 0, .inr ⟨behind, w'.caches, rfl, final⟩, Executing.nextStrategy (w := w') (s := s') executing.query executing.lastfield
        (Nat.lt_add_one 0) row within (executing.get_phase last final) nEOL readFile
        ?_ (fun cacheOnly => ?_) (fun _ => ?_) seen executing.start executing.nulls
        (fun _ _ inside cacheOnly => ?_) (.inr (valid'.fits rfl)) executing.locks⟩
      · have start := Progress.start valid'
        rwa [show (phase.next w'.caches).row 0 = s.processed + 1 from row] at start
      · rw [file (Nat.lt_add_one 0)] at cacheOnly
        cases cacheOnly
      · change ReaderAt rel.plainSource header _ _ input (s.processed + 1)
        rw [ends]
        exact reader fun _ more' => absurd more' more
      · rw [file inside] at cacheOnly
        cases cacheOnly

/-- **Counting a row.** -/
theorem advance (pass : Bool) :
    ∃ w' s', PostgresRaw.advance rel w s pass = (.tuple s.values pass, w', s') ∧ s'.processed = s.processed + 1 ∧
      ((∃ (phase' : Phase D) (valid' : phase'.Valid rel records task) (j' : Nat),
          valid.Follows phase' ∧ Executing header frame valid' j' s'.processed w' s') ∨
        Ended header frame valid j w' s') := by
  obtain ⟨p₀, counters⟩ := executing.counters
  have less := counters.lt_end
  have first : phase.row j ≤ s.processed := executing.node.1
  by_cases due : s.plan.nMin - 1 = 0
  · have updated := noDBUpdateStrategy_eq rel w s.counted
    obtain ⟨nRows, nEOL, readFile, rest⟩ := counters.look due fun cacheOnly =>
      valid.row_le_known proper executing.inside cacheOnly
    by_cases ends : s.processed + 1 = phase.row (j + 1)
    · obtain ⟨w', s', ended, processed, values, result⟩ := executing.endNode proper plain stop ends nEOL readFile
      rw [if_pos (by change s.countDown.plan.nRows = 0; rw [nRows]; omega), ended] at updated
      exact ⟨w', s', by rw [advance_of_update due updated, values], processed, result⟩
    · obtain ⟨behind, file⟩ := rest ends
      rw [if_neg (by change ¬ s.countDown.plan.nRows = 0; rw [nRows]; omega)] at updated
      have step : PostgresRaw.advance rel w s pass = _ := advance_of_update due updated
      refine ⟨_, s.counted.countDown.restOfNode, step, rfl, .inl ⟨phase, valid, j, .inl rfl, ?_⟩⟩
      exact { executing with
        node := ⟨show phase.row j ≤ s.processed + 1 by omega, show s.processed + 1 < phase.row (j + 1) by omega⟩
        counters := ⟨s.processed + 1, Counters.rest (s := s.counted.countDown) nRows nEOL readFile behind (by omega)⟩
        waiting := fun cacheOnly => by
          rw [file] at cacheOnly
          cases cacheOnly }
  · have next := counters.next due
    have more := next.lt_end
    refine ⟨_, _, advance_of_more due, rfl, .inl ⟨phase, valid, j, .inl rfl, ?_⟩⟩
    exact { executing with
      node := ⟨show phase.row j ≤ s.processed + 1 by omega, more⟩
      counters := ⟨p₀, next⟩ }

end

end Executing

end

end PostgresRaw
