import PostgresRaw.Scan.Tended
import PostgresRaw.Strategy.Regrowth

/-!
# Sessions of completed queries

Queries that run until the executor sees the end of the data, over a plain file.  Their caches all begin
at row 0 and end at the last row (`Completed`): a scan either reads the file for the first time, and
grows what it has created until the data ends, or finds one node with all rows.  So a first plan never
has a second node, no cache lacks a buffer, and every query gets to the end of the data with the answer
that the file gives (`session_answers`).  Nothing is read from the file behind rows that are served from
caches, so that a header line does no harm (`Completed.smooth`).

A column never leaves the cache it is in (`cachesKept_columns`), so what completed queries have put
into caches stays there (`completed_query_keeps_coverage`).
-/

namespace PostgresRaw

open List

section

variable {D : Type} {rel : Relation D} {header : List Byte} {records : List (PlainRecord rel.fmt rel.natts)}
  {task : Task D} {phase : Phase D}

/-! ### Phases whose caches end together -/

variable (rel records task) in
/-- A phase of one node whose caches begin at row 0, and end where the node does or begins. -/
inductive Phase.Even (phase : Phase D) : Prop where
  /-- the file has been read before -/
  | whole (rows : phase.rows = [0, records.length])
      (range : ∀ cache ∈ phase.base, cache.startRow = 0 ∧ cache.endRow = records.length)
  /-- the first rows of a file that is read for the first time -/
  | first (rows : phase.rows = [0, defaultRows]) (none : phase.base = [])
  /-- the next rows -/
  | later {row : Nat} (rows : phase.rows = [row, row + defaultRows]) (grow : AllGrow task.info row phase.base)

namespace Phase.Even

variable (even : phase.Even rel records task)

include even

theorem count_eq : phase.count = 1 := by
  rw [Phase.count]
  cases even with
  | whole rows => rw [rows]; rfl
  | first rows => rw [rows]; rfl
  | later rows => rw [rows]; rfl

/-- The caches that were there before the plan. -/
theorem base_range {cache : Cache D} (mem : cache ∈ phase.base) :
    cache.startRow = 0 ∧ (cache.endRow = phase.row 0 ∨ phase.row 1 = records.length ∧ cache.endRow = records.length) := by
  cases even with
  | whole rows range =>
    refine ⟨(range cache mem).1, .inr ⟨?_, (range cache mem).2⟩⟩
    rw [Phase.row, rows]
    rfl
  | first rows none =>
    rw [none] at mem
    cases mem
  | later rows grow =>
    refine ⟨(grow.range cache mem).1, .inl ?_⟩
    rw [(grow.range cache mem).2, Phase.row, rows]
    rfl

section

variable (valid : phase.Valid rel records task)
include valid

/-- A cache that is created begins at row 0. -/
theorem new_start {i : Nat} {cache : Cache D} (new : phase.base[i]? = none)
    (here : (phase.planning task).caches[i]? = some cache) : cache.startRow = 0 := by
  have count := even.count_eq
  obtain ⟨c, mem⟩ := exists_mem_of_ne_nil _ (valid.built.shaped cache (mem_of_getElem? here)).2
  have has : ((phase.planning task).plan cache.type).has i c := (lane_has here).2 ⟨rfl, mem⟩
  obtain ⟨a, inside, starts, -⟩ := (valid.ready cache.type).registered has (by
    rintro ⟨old, there, -⟩
    rw [new] at there
    cases there)
  obtain rfl : a = 0 := by
    have inside : a < phase.count := inside
    omega
  change (lane (phase.planning task).caches cache.type).start i = phase.row 0 at starts
  rw [lane_start here] at starts
  cases even with
  | whole rows => rw [starts, Phase.row, rows]; rfl
  | first rows => rw [starts, Phase.row, rows]; rfl
  | later rows grow =>
    have planned : SameButRoom (phase.planning task).caches phase.base := by
      rw [Phase.planning, rows]
      exact buildMatrix_of_allGrow grow _
    obtain ⟨old, there, -⟩ := planned.exists_of_getElem? here
    rw [new] at there
    cases there

/-- **Caches that end where the node begins are written.** -/
theorem writes {i : Nat} {cache old : Cache D}
    (there : phase.base[i]? = some old) (ends : old.endRow = phase.row 0)
    (here : (phase.planning task).caches[i]? = some cache) (less : phase.row 0 ≠ records.length) :
    ((phase.planning task).plan cache.type).Writes 0 i := by
  have mem := mem_of_getElem? there
  cases even with
  | whole rows range =>
    have := (range old mem).2
    omega
  | first rows none =>
    rw [none] at there
    cases there
  | @later row rows grow =>
    have zero : phase.row 0 = row := by
      rw [Phase.row, rows]
      rfl
    have planned : SameButRoom (phase.planning task).caches phase.base := by
      rw [Phase.planning, rows]
      exact buildMatrix_of_allGrow grow _
    obtain ⟨old', there', alike⟩ := planned.exists_of_getElem? here
    obtain rfl : old' = old := Option.some.inj (there'.symm.trans there)
    have type : cache.type = old'.type := (congrArg Cache.type alike).symm
    obtain ⟨c, has⟩ := exists_mem_of_ne_nil _ (valid.shaped old' mem).2
    rw [type]
    -- The column is missing, so it is marked for some cache, which can be no other.
    have missing : ¬ (lane phase.base old'.type).Covers c (phase.row 0) := by
      rintro ⟨k, claims⟩
      obtain ⟨other, found, -, -, hasRow⟩ := lane_claims_iff.1 claims
      have := (grow.range other (mem_of_getElem? found)).2
      have := (Cache.hasRow_iff.1 hasRow).2
      omega
    obtain ⟨k, mark⟩ := (valid.ready old'.type).mark_of_missing (a := 0) (grow.written old' mem c has) (by
      change 0 < phase.rows.length - 1
      rw [rows]
      exact Nat.zero_lt_one) missing
    obtain ⟨other, found, sameType, inside⟩ := ((valid.ready old'.type).planned.add mark).2.2.2.1
    obtain ⟨first, found', alike'⟩ := planned.exists_of_getElem? found
    have cols : first.unallocated.cols = other.unallocated.cols := by rw [alike']
    have types : first.type = old'.type := (congrArg Cache.type alike').trans sameType
    have inside : c ∈ first.cols := by
      change c ∈ first.unallocated.cols
      rw [cols]
      exact inside
    have claims : ∀ {j : Nat} {book : Cache D}, phase.base[j]? = some book → book.type = old'.type → c ∈ book.cols →
        (lane phase.base old'.type).Claims j c (row - 1) := by
      intro j book place isType isCol
      obtain ⟨begins, stops⟩ := grow.range book (mem_of_getElem? place)
      have := grow.positive
      refine lane_claims_iff.2 ⟨book, place, isType, isCol, Cache.hasRow_iff.2 ⟨by omega, by omega⟩⟩
    obtain rfl : k = i := (valid.tidy old'.type).disjoint (claims found' types inside) (claims there rfl has)
    exact ⟨c, mark⟩

/-- **The caches end together** when rows up to `q` have been executed. -/
theorem range {caches : List (Cache D)} {q : Nat}
    (progress : Progress valid caches q q) (behind : phase.row 0 < q) (within : q ≤ phase.row 1)
    (ended : phase.row 1 = records.length → q = records.length) {cache : Cache D} (mem : cache ∈ caches) :
    cache.startRow = 0 ∧ cache.endRow = q := by
  have count := even.count_eq
  obtain ⟨i, here⟩ := getElem?_of_mem mem
  obtain ⟨cache', here', type, start, -, cols, -⟩ := progress.shape.symm.exists_of_getElem? here
  obtain ⟨c, inside⟩ := exists_mem_of_ne_nil _ (valid.built.shaped cache' (mem_of_getElem? here')).2
  have has : ((phase.planning task).plan cache'.type).has i c := (lane_has here').2 ⟨rfl, inside⟩
  have only : ∀ {a}, a < phase.count → a = 0 := by omega
  -- A cache that is written ends with the rows.
  have touched : ((phase.planning task).plan cache'.type).Writes 0 i → cache.endRow = q := by
    intro writes
    have stop := (progress.executed cache'.type).touched (a := 0) (show 0 < phase.count by omega) behind writes
      fun {a'} less more => by
        have := only more
        omega
    rw [lane_stop here] at stop
    rw [stop]
    exact min_eq_left within
  cases old : phase.base[i]? with
  | none =>
    refine ⟨start.symm.trans (even.new_start valid old here'), touched ?_⟩
    obtain ⟨a, less, -, mark, -⟩ := (valid.ready cache'.type).registered has (by
      rintro ⟨book, there, -⟩
      rw [old] at there
      cases there)
    rw [only less] at mark
    exact ⟨c, mark⟩
  | some book =>
    obtain ⟨begins, ends⟩ := even.base_range (mem_of_getElem? old)
    obtain ⟨cache'', here'', widens⟩ := valid.built.widened.old old
    obtain rfl : cache'' = cache' := Option.some.inj (here''.symm.trans here')
    refine ⟨start.symm.trans (widens.startRow.trans begins), ?_⟩
    rcases ends with ends | ⟨isEnd, ends⟩
    · refine touched (even.writes valid old ends here' fun atEnd => ?_)
      have := valid.nodes (show 0 < phase.count by omega)
      omega
    · by_cases writes : ((phase.planning task).plan cache''.type).Writes 0 i
      · exact touched writes
      · have stop := (progress.executed cache''.type).untouched has fun {a} less _ => by
          rw [only less]
          exact writes
        rw [lane_stop here] at stop
        rw [stop, ended isEnd]
        change (lane (phase.planning task).caches cache''.type).stop i = _
        rw [lane_stop here', Cache.endRow, widens.startRow, widens.usedRows, ← Cache.endRow]
        exact ends

/-- What a phase of a file that is read for the first time leaves can grow. -/
theorem allGrow {caches : List (Cache D)}
    (progress : Progress valid caches (phase.row 1) (phase.row 1)) (more : phase.row 1 < records.length) :
    AllGrow task.info (phase.row 1) caches := by
  have count := even.count_eq
  have rising : phase.row 0 < phase.row 1 := valid.row_lt (Nat.lt_add_one 0) (by omega)
  have shaped := progress.shape.allShaped valid.built.shaped
  refine ⟨shaped.packed, by omega, fun cache mem => ?_, fun cache mem c inside => ?_, fun t c writes => ?_⟩
  · exact even.range valid progress rising le_rfl (fun same => by omega) mem
  · obtain ⟨i, here⟩ := getElem?_of_mem mem
    have has : ((phase.planning task).plan cache.type).has i c := progress.shape.lane_has.2 ((lane_has here).2 ⟨rfl, inside⟩)
    by_cases old : (lane phase.base cache.type).has i c
    · obtain ⟨book, there, type, isCol⟩ := old
      cases even with
      | whole rows range =>
        rw [Phase.row, rows] at more
        exact absurd more (lt_irrefl _)
      | first rows none =>
        rw [none] at there
        cases there
      | later rows grow =>
        rw [← type]
        exact grow.written book (mem_of_getElem? there) c isCol
    · obtain ⟨a, -, -, mark, -⟩ := (valid.ready cache.type).registered has old
      exact ((valid.ready cache.type).planned.add mark).1
  · have covers := (valid.ready t).covers_of_lt (progress.executed t) (show phase.row 1 ≤ phase.row phase.count by
      rw [count]) writes (show 0 < phase.row 1 by omega)
    rw [← progress.lane_eq t] at covers
    obtain ⟨i, claims⟩ := covers
    obtain ⟨cache, here, type, isCol, -⟩ := lane_claims_iff.1 claims
    exact ⟨cache, mem_of_getElem? here, type, isCol⟩

end

end Phase.Even

theorem goesOn_even : GoesOn rel records task (Phase.Even rel records task) := by
  rintro phase phase' valid even (rfl | ⟨more, caches, rfl, progress⟩)
  · exact even
  · rw [even.count_eq] at more progress
    have rows : (phase.next caches).rows = [phase.row 1, phase.row 1 + defaultRows] := by
      rw [Phase.next, even.count_eq]
    exact .later rows (even.allGrow valid progress more)

/-! ### Completed queries -/

variable {w : World D} {q : Query D}

variable (header records) in
/-- **The world after completed queries**: all caches begin at row 0 and end at the last row. -/
structure Completed (w : World D) : Prop extends Kept header records w where
  range : records ≠ [] → ∀ cache ∈ w.caches, cache.startRow = 0 ∧ cache.endRow = records.length

theorem completed_initial : Completed header records World.initial :=
  ⟨kept_initial, nofun⟩

/-- A record has at least the bytes of its terminator. -/
theorem PlainRelation.length_le (plain : PlainRelation rel header records) : records.length ≤ rel.file.length := by
  have lines : records.length ≤ (records.map (·.line ++ [newline])).flatten.length := by
    clear plain
    induction records with
    | nil => exact Nat.zero_le _
    | cons record rest ih =>
      rw [map_cons, flatten_cons, length_append, length_append, length_cons, length_singleton]
      omega
  rw [plain.file, length_append]
  omega

/-- The rows before the end of the data. -/
theorem Underway.processed_le {frame : Frame} {keep : Phase D → Prop} {s : Scan D}
    (underway : Underway header records frame task keep w s) : s.processed ≤ records.length := by
  obtain ⟨phase, valid, j, -, executing | ended⟩ := underway
  · exact executing.within
  · exact le_of_eq ended.processed

namespace Completed

variable (completed : Completed header records w)

include completed

/-- The first phase of the next query. -/
theorem even (nonempty : records ≠ []) (task : Task D) : w.phase.Even rel records task := by
  have tended := completed.tended nonempty
  by_cases none : w.caches = []
  · exact .first (if_pos (tended.interesting_eq_nil.2 none)) none
  · exact .whole (tended.rows_eq none (completed.range nonempty)) (completed.range nonempty)

/-- If rows are served from caches, all are. -/
theorem smooth (nonempty : records ≠ []) {q : Query D} (formed : q.Formed rel.natts) (stop : Nat) :
    w.phase.Smooth rel.byValue (w.task q) records.length stop := by
  intro j inside cacheOnly _
  have even := completed.even nonempty (w.task q)
  obtain rfl : j = 0 := by
    have := even.count_eq
    omega
  by_cases whole : w.phase.row 1 = records.length
  · exact .inl whole
  · have fromFile := ((completed.tended nonempty).valid q).not_cacheOnly (completed.proper formed) inside fun here =>
      le_of_eq ((even.base_range (mem_of_getElem? here)).2.resolve_right fun ends => whole ends.1)
    rw [fromFile] at cacheOnly
    cases cacheOnly

/-- The scan of the next query. -/
theorem underway (nonempty : records ≠ []) (plain : PlainRelation rel header records) {q : Query D}
    (formed : q.Formed rel.natts) (stop : Nat) :
    Underway header records (w.frame q False stop) (w.task q) (Phase.Even rel records (w.task q))
      (noDBScanStateInit rel w q).1 (noDBScanStateInit rel w q).2 := by
  have even := completed.even nonempty (w.task q)
  refine ⟨w.phase, (completed.tended nonempty).valid q, 0, even, .inl ?_⟩
  refine (completed.tended nonempty).start q plain (fun _ => completed.smooth nonempty formed stop) (.inr ?_)
  exact ((completed.tended nonempty).valid q).fits even.count_eq

/-- **What a query that gets to the end of the data leaves.** -/
theorem left {q : Query D} {stop : Nat} {w' : World D} {s' : Scan D}
    (left : Left header records (w.frame q False stop) (w.task q) (Phase.Even rel records (w.task q)) w' s')
    (ended : s'.processed = records.length) : Completed header records (endQuery w' s') ∧
      ∀ t, ∀ c ∈ q.readAll, ∀ r < records.length, (lane (endQuery w' s').caches t).Covers c r := by
  obtain ⟨phase, valid, j, even, halted⟩ := left
  have stops := Halted.stops_at_end valid ended
  have progress := halted.progress stops
  have count := even.count_eq
  obtain rfl : j = 0 := by
    have := halted.inside
    omega
  have last := halted.last
  rw [ended] at progress last
  have nodes := valid.nodes (show 0 < phase.count by omega)
  refine ⟨⟨⟨(halted.tended stops).stocked, halted.unlocked completed.unlocked⟩, fun _ cache mem => ?_⟩,
    fun t c mem r less => ?_⟩
  · exact even.range valid progress nodes last (fun _ => rfl) mem
  · rw [progress.lane_eq t]
    exact (valid.ready t).covers_of_lt (progress.executed t) (show _ ≤ phase.row phase.count by
      rw [count]
      exact last) ((completed.unlocked.mem_task q t).2 mem) less

/-- **A query that gets to the end of the data** leaves its columns in caches for all rows. -/
theorem of_done (plain : PlainRelation rel header records) {q : Query D} (formed : q.Formed rel.natts)
    (done : (startAndRun rel (enoughRows rel) w q).ending = some .done) :
    let run := startAndRun rel (enoughRows rel) w q
    Completed header records (endQuery run.world run.scan) ∧
      (∀ t, ∀ c ∈ q.readAll, ∀ r < records.length, (lane (endQuery run.world run.scan).caches t).Covers c r) ∧
      (q.Proper rel.natts → run.tuples = q.answer rel.input records) := by
  by_cases empty : records = []
  · obtain ⟨tuples, -, query, cacheLock, pmLock, unfilled⟩ :=
      (completed.unfilled empty).run q plain (enoughRows rel)
    refine ⟨⟨⟨unfilled.stocked, ?_⟩, fun nonempty => absurd empty nonempty⟩, fun _ _ _ r less => ?_, fun _ => ?_⟩
    · exact unlocked_endQuery completed.unlocked query cacheLock pmLock
    · rw [empty] at less
      exact absurd less (Nat.not_lt_zero r)
    · rw [tuples, empty]
      rfl
  · have going := completed.underway empty plain formed (enoughRows rel)
    obtain ⟨ends, tuples⟩ := going.run (n := enoughRows rel) goesOn_even (completed.proper formed) plain
      (le_of_eq (zero_add _))
    change RunEnds header records _ _ _ 0 _ (startAndRun rel (enoughRows rel) w q) at ends
    change TuplesRight records _ 0 (startAndRun rel (enoughRows rel) w q) at tuples
    rcases ends with ⟨-, tight⟩ | ⟨ending, -⟩ | ⟨ending, -, processed, left⟩ | ⟨ending, -⟩
    · exact absurd tight id
    · rw [ending] at done
      cases done
    · obtain ⟨completed', covers⟩ := completed.left left processed
      refine ⟨completed', covers, fun proper => ?_⟩
      obtain ⟨-, answer⟩ := tuples proper (by rw [ending]; nofun)
      rw [answer, processed, Nat.sub_zero, drop_zero, take_length]
      rfl
    · rw [ending] at done
      cases done

/-- Every query gets to the end of the data, if the input functions accept the fields. -/
theorem done (plain : PlainRelation rel header records) (accepts : AcceptsAll rel records) {q : Query D}
    (formed : q.Formed rel.natts) : (startAndRun rel (enoughRows rel) w q).ending = some .done := by
  by_cases empty : records = []
  · obtain ⟨-, ending, -⟩ := (completed.unfilled empty).run q plain (enoughRows rel)
    rwa [if_neg (show enoughRows rel ≠ 0 from Nat.succ_ne_zero _)] at ending
  · have going := completed.underway empty plain formed (enoughRows rel)
    obtain ⟨ends, -⟩ := going.run (n := enoughRows rel) goesOn_even (completed.proper formed) plain
      (le_of_eq (zero_add _))
    have enough := plain.length_le
    rcases ends with ⟨-, tight⟩ | ⟨-, processed, underway⟩ | ⟨ending, -⟩ | ⟨-, -, -, rejects⟩
    · exact absurd tight id
    · have := underway.processed_le
      rw [processed, enoughRows] at this
      omega
    · exact ending
    · obtain ⟨record, here, c, mem, rejected⟩ := rejects
      exact absurd (accepts record (mem_of_getElem? here) c (formed.inside c mem)) rejected

/-- **A completed query** gives the answer, and leaves its columns in caches for all rows. -/
theorem runToEnd (plain : PlainRelation rel header records) (accepts : AcceptsAll rel records) {q : Query D}
    (proper : q.Proper rel.natts) :
    ∃ w', PostgresRaw.runToEnd rel w q = some (q.answer rel.input records, w') ∧ Completed header records w' ∧
      ∀ t, ∀ c ∈ q.readAll, ∀ r < records.length, (lane w'.caches t).Covers c r := by
  have done := completed.done plain accepts proper.toFormed
  obtain ⟨completed', covers, answer⟩ := completed.of_done plain proper.toFormed done
  exact ⟨_, by rw [runToEnd_of_done done, answer proper], completed', covers⟩

end Completed

/-- Queries that are run one after the other. -/
theorem Completed.session (plain : PlainRelation rel header records) (accepts : AcceptsAll rel records)
    {qs : List (Query D)} (proper : ∀ q ∈ qs, q.Proper rel.natts) (completed : Completed header records w) :
    ∃ w', PostgresRaw.session rel w qs = some (qs.map (·.answer rel.input records), w') ∧ Completed header records w' := by
  induction qs generalizing w with
  | nil => exact ⟨w, rfl, completed⟩
  | cons q qs ih =>
    rw [forall_mem_cons] at proper
    obtain ⟨w₁, run, completed₁, -⟩ := completed.runToEnd plain accepts proper.1
    obtain ⟨w', rest, completed'⟩ := ih proper.2 completed₁
    refine ⟨w', ?_, completed'⟩
    rw [session_cons run, rest]
    rfl

/-- **Caches are transparent to completed queries**: over a plain file without header, whose fields the
input functions accept, every query of a session gets to the end of the data and gives the lines in
order, parsed field by field and restricted to those that satisfy the qual. -/
theorem session_answers (plain : PlainRelation rel header records) (_noHeader : rel.headerLine = false)
    (accepts : AcceptsAll rel records) {qs : List (Query D)} (proper : ∀ q ∈ qs, q.Proper rel.natts) :
    (session rel World.initial qs).map Prod.fst = some (qs.map (·.answer rel.input records)) := by
  obtain ⟨w', run, -⟩ := completed_initial.session plain accepts proper
  rw [run]
  rfl

end

/-- `SELECT` columns 0 and 1 `WHERE` column 0 has one byte. -/
def selectShort : Query Nat := ⟨[0, 1], [0], some fun values => decide (values 0 = .datum 1), 0⟩

theorem proper_selectShort : selectShort.Proper 3 where
  sorted := by decide
  inside := by decide
  filterRead := by decide
  filtered _ := by decide
  pure qual isQual v v' same := by
    obtain rfl : (fun values => decide (values 0 = .datum 1)) = qual := Option.some.inj isQual
    simp only [same 0 (by decide)]

theorem session_answers_threeRows :
    (session threeRows World.initial [selectColumn 0 0, selectShort, selectColumn 1 0]).map Prod.fst =
      some ([selectColumn 0 0, selectShort, selectColumn 1 0].map (·.answer threeRows.input threeRecords)) :=
  session_answers plain_threeRows rfl acceptsAll_threeRows (by
    simp only [forall_mem_cons, not_mem_nil, false_implies, implies_true, and_true]
    exact ⟨proper_selectColumn (by decide) 0, proper_selectShort, proper_selectColumn (by decide) 0⟩)

section

variable {D : Type} {rel : Relation D} {header : List Byte} {records : List (PlainRecord rel.fmt rel.natts)}
  {w : World D}

/-! ### Repeated queries -/

/-- The executor functions that call `plan->readFile`, which is one of the two file readers. -/
def Scan.callsReader (s : Scan D) : Bool := decide (s.execPlan = .plan) || decide (s.execPlan = .withFilters)

/-- One node, if there are caches. -/
theorem Completed.rows (completed : Completed header records w) (nonempty : records ≠ []) (caches : w.caches ≠ []) :
    w.phase.rows = [0, records.length] :=
  (completed.tended nonempty).rows_eq caches (completed.range nonempty)

/-- **A scan that finds caches** never leaves its first phase. -/
theorem Completed.runEnds (completed : Completed header records w) (plain : PlainRelation rel header records)
    (nonempty : records ≠ []) (caches : w.caches ≠ []) {q : Query D} (formed : q.Formed rel.natts) (k : Nat) :
    RunEnds header records (w.frame q False k) (w.task q) (· = w.phase) 0 k (startAndRun rel k w q) := by
  have tended := completed.tended nonempty
  have rows := completed.rows nonempty caches
  have count : w.phase.count = 1 := by
    rw [Phase.count, rows]
    rfl
  have goesOn : GoesOn rel records (w.task q) (· = w.phase) := by
    rintro phase phase' valid rfl (same | ⟨more, -⟩)
    · exact same
    · rw [count, Phase.row, rows] at more
      exact absurd more (lt_irrefl _)
  have start : Underway header records (w.frame q False k) (w.task q) (· = w.phase)
      (noDBScanStateInit rel w q).1 (noDBScanStateInit rel w q).2 := by
    refine ⟨w.phase, tended.valid q, 0, rfl, .inl ?_⟩
    exact tended.start q plain (fun _ => completed.smooth nonempty formed _) (.inr ((tended.valid q).fits count))
  exact (start.run (n := k) goesOn (completed.proper formed) plain (le_of_eq (zero_add k))).1

/-- **A scan whose columns are in caches** is served from them row by row. -/
theorem Completed.served (completed : Completed header records w) (plain : PlainRelation rel header records)
    (accepts : AcceptsAll rel records) (nonempty : records ≠ []) {q : Query D}
    (formed : q.Formed rel.natts) (cols : q.readAll ≠ [])
    (covers : ∀ t, ∀ c ∈ q.readAll, (lane w.caches t).Covers c 0) {k : Nat} (within : k ≤ records.length) :
    (startAndRun rel k w q).ending = none ∧
      (∀ node ∈ (startAndRun rel k w q).scan.plan.iterator.strategy, noDBReadFromCacheOnly node = true) ∧
      (k < records.length → (startAndRun rel k w q).scan.callsReader = false) := by
  have tended := completed.tended nonempty
  have proper := completed.proper formed
  obtain ⟨c, mem⟩ := exists_mem_of_ne_nil _ cols
  have caches : w.caches ≠ [] := by
    obtain ⟨i, ⟨cache, here, -⟩, -⟩ := covers .data c mem
    intro none
    rw [none] at here
    cases here
  have rows := completed.rows nonempty caches
  have count : w.phase.count = 1 := by
    rw [Phase.count, rows]
    rfl
  have cacheOnly : w.phase.cacheOnly rel.byValue (w.task q) 0 = true := by
    refine (tended.valid q).cacheOnly_of_covers proper (by omega) cols (fun c mem => ?_) fun t c writes => ?_
    · rw [tended.row_zero]
      exact covers .data c mem
    · rw [tended.row_zero]
      exact covers t c ((completed.unlocked.mem_task q t).1 writes)
  have nodes : ∀ {j : Nat}, ∀ node ∈ (w.phase.iterator rel.byValue (w.task q) j).strategy,
      noDBReadFromCacheOnly node = true := by
    intro j node inside
    obtain ⟨a, less, rfl⟩ := mem_map.1 inside
    obtain rfl : a = 0 := by
      have : a < w.phase.rows.length - 1 := mem_range.1 less
      rw [rows] at this
      exact Nat.lt_one_iff.1 this
    exact cacheOnly
  rcases completed.runEnds plain nonempty caches formed k with ⟨-, tight⟩ |
    ⟨ending, processed, phase, valid, j, rfl, executing | ended⟩ | ⟨-, few, -⟩ | ⟨-, -, -, record, here, c, mem, rejected⟩
  · exact absurd tight id
  · refine ⟨ending, by rw [executing.iterator]; exact nodes, fun _ => ?_⟩
    obtain rfl : j = 0 := by
      have := executing.inside
      omega
    rw [Scan.callsReader, executing.exec, noDBGetExecPlan_of_cacheOnly cacheOnly]
    split <;> rfl
  · refine ⟨ending, by rw [ended.iterator]; exact nodes, fun less => ?_⟩
    have := ended.processed
    omega
  · omega
  · exact absurd (accepts record (mem_of_getElem? here) c (formed.inside c mem)) rejected

/-- **A repeated query is served from the caches.**  After completed queries, a query over some columns
leaves them in data caches and in positional maps for every row; when it is run again, all its
strategy nodes read from caches only, and no file reader is called before the last row. -/
theorem repeated_query_from_caches (plain : PlainRelation rel header records) (_noHeader : rel.headerLine = false)
    (accepts : AcceptsAll rel records) (nonempty : records ≠ []) {qs : List (Query D)}
    (proper : ∀ q ∈ qs, q.Proper rel.natts) {answers : List (List (Nat → Value D))}
    (before : session rel World.initial qs = some (answers, w)) {q : Query D} (properQ : q.Proper rel.natts)
    (cols : q.readAll ≠ []) :
    ∃ tuples w', runToEnd rel w q = some (tuples, w') ∧
      (∀ t, ∀ c ∈ q.readAll, ∀ r < records.length, (lane w'.caches t).Covers c r) ∧
      ∀ k ≤ records.length, (startAndRun rel k w' q).ending = none ∧
        (∀ node ∈ (startAndRun rel k w' q).scan.plan.iterator.strategy, noDBReadFromCacheOnly node = true) ∧
        (k < records.length → (startAndRun rel k w' q).scan.callsReader = false) := by
  obtain ⟨w₀, run, completed⟩ := completed_initial.session plain accepts proper
  obtain rfl : w₀ = w := (Prod.mk.inj (Option.some.inj (run.symm.trans before))).2
  obtain ⟨w', run', completed', covers⟩ := completed.runToEnd plain accepts properQ
  refine ⟨_, w', run', covers, fun k within => ?_⟩
  exact completed'.served plain accepts nonempty properQ.toFormed cols
    (fun t c mem => covers t c mem 0 (length_pos_of_ne_nil nonempty)) within

end

/-- The world after column 0 has been read. -/
theorem repeated_query_from_caches_threeRows :
    ∃ answers w tuples w', session threeRows World.initial [selectColumn 0 0] = some (answers, w) ∧
      runToEnd threeRows w selectShort = some (tuples, w') ∧
      (∀ t, ∀ c ∈ [0, 1], ∀ r < 3, (lane w'.caches t).Covers c r) ∧
      ∀ k ≤ 3, (startAndRun threeRows k w' selectShort).ending = none ∧
        (∀ node ∈ (startAndRun threeRows k w' selectShort).scan.plan.iterator.strategy,
          noDBReadFromCacheOnly node = true) ∧
        (k < 3 → (startAndRun threeRows k w' selectShort).scan.callsReader = false) := by
  have proper : ∀ q ∈ [selectColumn 0 0], q.Proper threeRows.natts := by
    intro q mem
    rw [mem_singleton.1 mem]
    exact proper_selectColumn (by decide) 0
  obtain ⟨w, before, -⟩ := completed_initial.session plain_threeRows acceptsAll_threeRows proper
  obtain ⟨tuples, w', run, result⟩ := repeated_query_from_caches plain_threeRows rfl acceptsAll_threeRows (by decide)
    proper before proper_selectShort (by decide)
  exact ⟨_, w, tuples, w', before, run, result⟩

section

variable {D : Type} {rel : Relation D} {header : List Byte} {records : List (PlainRecord rel.fmt rel.natts)}
  {w w' : World D}

/-! ### What completed queries keep -/

/-- **No column leaves its cache**, whatever a scan does. -/
theorem cachesKept_columns (byValue : Nat → Bool) (base : List (Cache D)) :
    CachesKept byValue fun caches : List (Cache D) =>
      AllPacked caches ∧ ∀ t {i c}, (lane base t).has i c → (lane caches t).has i c where
  write written kept :=
    ⟨(cachesKept_allPacked byValue).write written kept.1,
      fun t _ _ has => (sameShape_writeCaches written).lane_has.1 (kept.2 t has)⟩
  finalize n processed _ kept :=
    ⟨(cachesKept_allPacked byValue).finalize n processed kept.1,
      fun t _ _ has => (sameShape_noDBFinalizeStrategy n processed _).lane_has.1 (kept.2 t has)⟩
  plan q rows _ kept := by
    obtain ⟨widened, packed, -⟩ := buildMatrix_reads q rows kept.1
    refine ⟨packed, fun t i c has => ?_⟩
    obtain ⟨cache, here, type, mem⟩ := kept.2 t has
    obtain ⟨cache', here', widens⟩ := widened.old here
    exact ⟨cache', here', widens.type.trans type, widens.cols c mem⟩

/-- The columns that were in caches before a query are in the same caches after it. -/
theorem has_endQuery (packed : AllPacked w.caches) {n : Nat} {q : Query D} (t : CacheType) {i c : Nat}
    (has : (lane w.caches t).has i c) :
    (lane (endQuery (startAndRun rel n w q).world (startAndRun rel n w q).scan).caches t).has i c := by
  have kept := (cachesKept_columns rel.byValue w.caches).world.startAndRun n q
    (show _ ∧ _ from ⟨packed, fun t _ _ has => has⟩)
  exact ((cachesKept_columns rel.byValue w.caches).finalize _ _ kept).2 t has

theorem Kept.allPacked (kept : Kept header records w) : AllPacked w.caches := by
  by_cases empty : records = []
  · exact (kept.unfilled empty).packed
  · exact (kept.tended empty).shaped.packed

/-- A row that a cache has is a row of the file. -/
theorem Completed.row_lt (completed : Completed header records w) {t : CacheType} {i c r : Nat}
    (claims : (lane w.caches t).Claims i c r) : r < records.length := by
  obtain ⟨cache, here, -, -, hasRow⟩ := lane_claims_iff.1 claims
  have mem := mem_of_getElem? here
  obtain ⟨-, less⟩ := Cache.hasRow_iff.1 hasRow
  by_cases empty : records = []
  · have unused := (completed.unfilled empty).unused cache mem
    obtain ⟨first, -⟩ := Cache.hasRow_iff.1 hasRow
    rw [Cache.endRow, unused] at less
    omega
  · rwa [(completed.range empty cache mem).2] at less

/-- After completed queries, a cache has every row of the file for every column that is in it. -/
theorem Completed.claims (completed : Completed header records w) {t : CacheType} {i c r : Nat}
    (has : (lane w.caches t).has i c) (less : r < records.length) : (lane w.caches t).Claims i c r := by
  have nonempty : records ≠ [] := ne_nil_of_length_pos (by omega)
  obtain ⟨cache, here, type, mem⟩ := has
  obtain ⟨start, stop⟩ := completed.range nonempty cache (mem_of_getElem? here)
  exact lane_claims_iff.2 ⟨cache, here, type, mem, Cache.hasRow_iff.2 ⟨by omega, by omega⟩⟩

theorem Completed.of_session (plain : PlainRelation rel header records) {qs : List (Query D)}
    (formed : ∀ q ∈ qs, q.Formed rel.natts) (completed : Completed header records w)
    {answers : List (List (Nat → Value D))} (run : PostgresRaw.session rel w qs = some (answers, w')) :
    Completed header records w' := by
  induction qs generalizing w answers with
  | nil =>
    cases run
    exact completed
  | cons q qs ih =>
    rw [forall_mem_cons] at formed
    obtain ⟨tuples, w₁, rest, first, later⟩ := session_cons_eq_some run
    obtain ⟨done, -, rfl⟩ := runToEnd_eq_some first
    exact ih formed.2 (completed.of_done plain formed.1 done).1 later

/-- **Completed queries only add to the caches.**  After any session of completed queries, one more
keeps every pair of a column and a row that some data cache, or some positional map, has: no column
leaves its cache, and although the used rows are set at the end of every node that writes, they are
those of the whole file in the end. -/
theorem completed_query_keeps_coverage (plain : PlainRelation rel header records) (_noHeader : rel.headerLine = false)
    {qs : List (Query D)} (formed : ∀ q ∈ qs, q.Formed rel.natts) {answers : List (List (Nat → Value D))}
    (before : session rel World.initial qs = some (answers, w)) {q : Query D} (formedQ : q.Formed rel.natts)
    {tuples : List (Nat → Value D)} (run : runToEnd rel w q = some (tuples, w')) (t : CacheType) {c r : Nat}
    (covers : (lane w.caches t).Covers c r) : (lane w'.caches t).Covers c r := by
  have completed : Completed header records w := completed_initial.of_session plain formed before
  obtain ⟨done, -, rfl⟩ := runToEnd_eq_some run
  obtain ⟨completed', -⟩ := completed.of_done plain formedQ done
  obtain ⟨i, claims⟩ := covers
  exact ⟨i, completed'.claims (has_endQuery completed.allPacked t claims.1) (completed.row_lt claims)⟩

end

/-- Column 0 stays in its cache when column 1 is read. -/
theorem completed_query_keeps_coverage_threeRows :
    ∃ answers w tuples w', session threeRows World.initial [selectColumn 0 0] = some (answers, w) ∧
      runToEnd threeRows w (selectColumn 1 0) = some (tuples, w') ∧
      (∀ r < 3, (lane w.caches .data).Covers 0 r) ∧ ∀ r < 3, (lane w'.caches .data).Covers 0 r := by
  have properZero : (selectColumn 0 0).Proper threeRows.natts := proper_selectColumn (by decide) 0
  have properOne : (selectColumn 1 0).Proper threeRows.natts := proper_selectColumn (by decide) 0
  obtain ⟨w, first, completed, covers⟩ :=
    completed_initial.runToEnd plain_threeRows acceptsAll_threeRows properZero
  have before : session threeRows World.initial [selectColumn 0 0] = _ := session_cons first
  obtain ⟨w', run, -⟩ := completed.runToEnd plain_threeRows acceptsAll_threeRows properOne
  refine ⟨_, w, _, w', before, run, covers .data 0 (by decide), fun r less => ?_⟩
  refine completed_query_keeps_coverage plain_threeRows rfl (fun q mem => ?_) before properOne.toFormed run .data
    (covers .data 0 (by decide) r less)
  rw [mem_singleton.1 mem]
  exact properZero.toFormed

end PostgresRaw
