import PostgresRaw.Executor.Limit
import PostgresRaw.Session.Completed
import PostgresRaw.Session.Stopped
import PostgresRaw.Strategy.FirstNode

/-!
# Limited queries after completed ones

A scan below a `LIMIT` stops in the middle of its node, and the ends of all caches that the node writes are
then set to where it has stopped.  The hint of the limit is to keep longer caches out of this: a column is
added only to a cache that ends within the limit (`firstCandidates`).

After completed queries the first plan has one node, so that a cache that was there ends where the scan has
stopped if it is written, and at the last row otherwise (`Completed.usedRows_left`).  The hint does what it
is for unless the count is 0, which says that there is no limit.  `limit_keeps_usedRows_iff` says when a
cache is shortened then.
-/

namespace PostgresRaw

open List

section

variable {D : Type}

/-- Every cache has at least the rows that it had. -/
def KeepsUsedRows (before after : List (Cache D)) : Prop :=
  ∀ {i : Nat} {cache : Cache D}, before[i]? = some cache →
    ∃ cache', after[i]? = some cache' ∧ cache.usedRows ≤ cache'.usedRows

/-- **A limited query keeps the caches**, whenever it is executed to its end. -/
def LimitKeeps (db : Database D) (count offset : Nat) (scan : PlanScan D) (columns : Option (List ColumnDescriptor))
    (st : ExecState D) : Prop :=
  ∀ {fuel numberTuples : Nat} {d : Pull.Delivery (LimitState D × ExecState D) (Nat → Value D)},
    executePlan2 db (limitPlan count offset scan columns) fuel numberTuples (.initial, st) = some d →
      d.ending = .ended →
        KeepsUsedRows (st.worlds scan.relation).caches (d.config.2.worlds scan.relation).caches

/-- A cache has room for a column, and one of the columns is in no cache of its type. -/
def RoomForMissing (caches : List (Cache D)) (cols : List Nat) : Prop :=
  ∃ cache ∈ caches, columnSize cache.type ≤ cache.rowFree ∧
    ∃ c ∈ cols, ∀ other ∈ caches, other.type = cache.type → c ∉ other.cols

instance (caches : List (Cache D)) (cols : List Nat) : Decidable (RoomForMissing caches cols) :=
  inferInstanceAs (Decidable (∃ cache ∈ caches, _ ∧ ∃ c ∈ cols, ∀ other ∈ caches, other.type = cache.type → c ∉ other.cols))

variable {rel : Relation D} {header : List Byte} {records : List (PlainRecord rel.fmt rel.natts)} {w w' : World D}
  {q : Query D} {s' : Scan D}

/-- No cache goes away, whatever a scan does. -/
theorem cachesKept_there (byValue : Nat → Bool) (i : Nat) :
    CachesKept byValue fun caches : List (Cache D) => AllPacked caches ∧ ∃ cache, caches[i]? = some cache where
  write written kept := by
    obtain ⟨packed, cache, here⟩ := kept
    obtain ⟨cache', here', -⟩ := (sameShape_writeCaches written).exists_of_getElem? here
    exact ⟨(cachesKept_allPacked byValue).write written packed, cache', here'⟩
  finalize n processed _ kept := by
    obtain ⟨packed, cache, here⟩ := kept
    obtain ⟨cache', here', -⟩ := (sameShape_noDBFinalizeStrategy n processed _).exists_of_getElem? here
    exact ⟨(cachesKept_allPacked byValue).finalize n processed packed, cache', here'⟩
  plan q rows _ kept := by
    obtain ⟨packed, cache, here⟩ := kept
    obtain ⟨widened, packed', -⟩ := buildMatrix_reads q rows packed
    obtain ⟨cache', here', -⟩ := widened.old here
    exact ⟨packed', cache', here'⟩

namespace Completed

variable (completed : Completed header records w)

include completed

section

variable (nonempty : records ≠ [])
include nonempty

/-- **What the scan leaves of a cache that was there.** -/
theorem usedRows_left (caches : w.caches ≠ []) {frame : Frame}
    (left : Left header records frame (w.task q) (· = w.phase) w' s') {i : Nat} {cache : Cache D}
    (here : w.caches[i]? = some cache) : ∃ cache', (endQuery w' s').caches[i]? = some cache' ∧ cache'.usedRows =
      if (w.phase.node rel.byValue (w.task q) 0).writesTo i then s'.processed else records.length := by
  obtain ⟨phase, valid, j, rfl, halted⟩ := left
  have rows := completed.rows nonempty caches
  have count : w.phase.count = 1 := by
    rw [Phase.count, rows]
    rfl
  obtain rfl : j = 0 := by
    have := halted.inside
    omega
  obtain ⟨start, stop⟩ := completed.range nonempty cache (mem_of_getElem? here)
  obtain ⟨planned, there, widens⟩ := valid.built.widened.old here
  obtain ⟨e, pos, progress⟩ : ∃ e pos, Progress valid w'.caches e pos := by
    rcases halted.caches with ⟨progress, -⟩ | ⟨-, progress⟩
    · exact ⟨_, _, progress⟩
    · exact ⟨_, _, progress⟩
  obtain ⟨last, found, type, begins, -⟩ := progress.shape.exists_of_getElem? there
  have begins : last.startRow = 0 := begins.trans (widens.startRow.trans start)
  change ∃ cache', (noDBFinalizeStrategy s'.plan.curStrategy s'.processed w'.caches)[i]? = some cache' ∧ _
  rw [getElem?_noDBFinalizeStrategy, found, Option.map_some, halted.current]
  refine ⟨_, rfl, ?_⟩
  split
  · rw [noDBCacheSetUsedRows, begins, Nat.sub_zero]
  · next unwritten =>
    obtain ⟨c, inside⟩ := exists_mem_of_ne_nil _ (valid.built.shaped planned (mem_of_getElem? there)).2
    have kept := (progress.executed planned.type).untouched ((lane_has there).2 ⟨rfl, inside⟩) fun {a} less _ writes => by
      obtain rfl : a = 0 := by
        have less : a < w.phase.count := less
        omega
      exact unwritten ((valid.writesTo_iff halted.inside).2 ⟨_, writes⟩)
    rw [lane_stop found] at kept
    change last.endRow = (lane (w.phase.planning (w.task q)).caches planned.type).stop i at kept
    rw [lane_stop there, Cache.endRow, Cache.endRow, widens.startRow, widens.usedRows] at kept
    rw [Cache.endRow] at stop
    omega

/-- A column has the first row in the caches that it is in. -/
theorem covers_zero_iff {t : CacheType} {c : Nat} :
    (lane w.caches t).Covers c 0 ↔ ∃ cache ∈ w.caches, cache.type = t ∧ c ∈ cache.cols := by
  have positive : 0 < records.length := length_pos_of_ne_nil nonempty
  constructor
  · rintro ⟨i, claims⟩
    obtain ⟨cache, here, type, mem, -⟩ := lane_claims_iff.1 claims
    exact ⟨cache, mem_of_getElem? here, type, mem⟩
  · rintro ⟨cache, mem, type, inside⟩
    obtain ⟨i, here⟩ := getElem?_of_mem mem
    obtain ⟨start, stop⟩ := completed.range nonempty cache mem
    exact ⟨i, lane_claims_iff.2 ⟨cache, here, type, inside, Cache.hasRow_iff.2 ⟨by omega, by omega⟩⟩⟩

/-- The caches that get a column in the plan of the next query. -/
theorem firstNode (caches : w.caches ≠ []) (q : Query D) (t : CacheType) :
    (∀ {c i}, ((w.phase.planning (w.task q)).plan t).mark 0 c = some i → i < w.caches.length →
      i ∈ firstCandidates (w.task q).info w.caches t) ∧
    (firstCandidates (w.task q).info w.caches t ≠ [] → ∀ c ∈ q.readAll, ¬ (lane w.caches t).Covers c 0 →
      ∃ c i, ((w.phase.planning (w.task q)).plan t).mark 0 c = some i ∧ i < w.caches.length) := by
  have tended := completed.tended nonempty
  have rows := completed.rows nonempty caches
  have plannable := tended.plannable (w.task q).info
  rw [rows] at plannable
  obtain ⟨only, some⟩ := buildMatrix_first plannable.increasing tended.shaped tended.tidy plannable.aligned t
  have planning : w.phase.planning (w.task q) = buildMatrix (w.task q).info [0, records.length] w.caches := by
    rw [Phase.planning, rows]
    rfl
  rw [planning]
  refine ⟨fun mark => only (Mark.added_eq_some.1 mark), fun free c mem missing => ?_⟩
  obtain ⟨c', i, mark, there⟩ := some free c ((completed.unlocked.mem_task q t).2 mem) missing
  exact ⟨c', i, Mark.added_eq_some.2 mark, there⟩

/-- **A cache that is written** has room for a column, and ends within the limit if there is one. -/
theorem of_written {i : Nat} {cache : Cache D} (here : w.caches[i]? = some cache)
    (written : (w.phase.node rel.byValue (w.task q) 0).writesTo i = true) :
    RoomForMissing w.caches q.readAll ∧ (q.limit = 0 ∨ records.length ≤ q.limit) := by
  have caches : w.caches ≠ [] := ne_nil_of_mem (mem_of_getElem? here)
  have valid := (completed.tended nonempty).valid q
  obtain ⟨t, c, mark⟩ := (valid.writesTo_iff valid.count_pos).1 written
  obtain ⟨cache', here', rfl, -, room, limit⟩ := mem_firstCandidates.1
    ((completed.firstNode nonempty caches q t).1 mark (List.getElem?_eq_some_iff.1 here).1)
  obtain rfl : cache' = cache := Option.some.inj (here'.symm.trans here)
  have mem := mem_of_getElem? here
  obtain ⟨writes, -, missing, -⟩ := (valid.ready cache'.type).planned.add mark
  refine ⟨⟨cache', mem, room, c, (completed.unlocked.mem_task q _).1 writes, fun other there type inside => missing ?_⟩, ?_⟩
  · change (lane w.caches cache'.type).Covers c (w.phase.row 0)
    rw [(completed.tended nonempty).row_zero, completed.covers_zero_iff nonempty]
    exact ⟨other, there, type, inside⟩
  · rw [(completed.range nonempty cache' mem).2] at limit
    exact limit

/-- **Without a limit** a cache is written as soon as one has room for a column that is missing. -/
theorem exists_written (noLimit : q.limit = 0) (room : RoomForMissing w.caches q.readAll) :
    ∃ i cache, w.caches[i]? = some cache ∧ (w.phase.node rel.byValue (w.task q) 0).writesTo i = true := by
  obtain ⟨cache, mem, free, c, read, missing⟩ := room
  have valid := (completed.tended nonempty).valid q
  obtain ⟨i, here⟩ := getElem?_of_mem mem
  have candidate : i ∈ firstCandidates (w.task q).info w.caches cache.type :=
    mem_firstCandidates.2 ⟨cache, here, rfl, (completed.range nonempty cache mem).1, free, .inl noLimit⟩
  obtain ⟨c', i', mark, there⟩ := (completed.firstNode nonempty (ne_nil_of_mem mem) q cache.type).2
    (ne_nil_of_mem candidate) c read fun covers => by
      obtain ⟨other, there, type, inside⟩ := (completed.covers_zero_iff nonempty).1 covers
      exact missing other there type inside
  exact ⟨i', _, getElem?_eq_getElem there, (valid.writesTo_iff valid.count_pos).2 ⟨cache.type, c', mark⟩⟩

end

/-- **A query that is stopped** keeps the rows of every cache, if none that is longer is written. -/
theorem keepsUsedRows (plain : PlainRelation rel header records) (formed : q.Formed rel.natts) {k : Nat}
    (ends : (startAndRun rel k w q).reachesEnd = true)
    (short : ∀ {i cache}, w.caches[i]? = some cache → (w.phase.node rel.byValue (w.task q) 0).writesTo i = true →
      records.length ≤ (startAndRun rel k w q).scan.processed) :
    KeepsUsedRows w.caches (endQuery (startAndRun rel k w q).world (startAndRun rel k w q).scan).caches := by
  intro i cache here
  by_cases empty : records = []
  · have kept := (cachesKept_there rel.byValue i).world.startAndRun k q
      (show _ ∧ _ from ⟨completed.allPacked, cache, here⟩)
    obtain ⟨-, cache', here'⟩ := (cachesKept_there rel.byValue i).finalize _ _ kept
    exact ⟨cache', here', (completed.unfilled empty).unused cache (mem_of_getElem? here) ▸ Nat.zero_le _⟩
  · have caches : w.caches ≠ [] := ne_nil_of_mem (mem_of_getElem? here)
    obtain ⟨cache', here', used⟩ := completed.usedRows_left empty caches
      ((completed.runEnds plain empty caches formed k).left ends) here
    refine ⟨cache', here', ?_⟩
    obtain ⟨start, stop⟩ := completed.range empty cache (mem_of_getElem? here)
    rw [Cache.endRow] at stop
    rw [used]
    split
    · next written =>
      have := short here written
      omega
    · omega

end Completed

section

variable {db : Database D} {count offset : Nat} {scan : PlanScan D} {columns : Option (List ColumnDescriptor)}
  {st : ExecState D} {header : List Byte}
  {records : List (PlainRecord (db.rel scan.relation).fmt (db.rel scan.relation).natts)}

section

variable (completed : Completed header records (st.worlds scan.relation))
  (plain : PlainRelation (db.rel scan.relation) header records)

include completed plain

/-- **A count of 0** empties a cache that has room for a column that is missing. -/
theorem Completed.not_limitKeeps (nonempty : records ≠ [])
    (formedQ : (limitQuery db 0 scan columns st.descriptor).Formed (db.rel scan.relation).natts)
    (limit : (limitQuery db 0 scan columns st.descriptor).limit = 0)
    (room : RoomForMissing (st.worlds scan.relation).caches (limitQuery db 0 scan columns st.descriptor).readAll) :
    ¬ LimitKeeps db 0 offset scan columns st := by
  intro keeps
  obtain ⟨i, cache, here, written⟩ := completed.exists_written nonempty limit room
  have mem := mem_of_getElem? here
  obtain ⟨d, run, ended, world⟩ := @limitPlan_zero D db offset scan columns st
  obtain ⟨cache', here', le⟩ := keeps run ended here
  have runEnds := completed.runEnds plain nonempty (ne_nil_of_mem mem) formedQ 0
  obtain ⟨cache'', here'', used⟩ := completed.usedRows_left nonempty (ne_nil_of_mem mem) (runEnds.left rfl) here
  rw [world] at here'
  obtain rfl : cache'' = cache' := Option.some.inj (here''.symm.trans here')
  rw [if_pos written, runEnds.processed_of_going rfl] at used
  have rows := completed.range nonempty cache mem
  have positive := length_pos_of_ne_nil nonempty
  rw [Cache.endRow] at rows
  omega

/-- **Otherwise** a cache that is written ends within the rows that have been read. -/
theorem Completed.limitKeeps
    (formedQ : (limitQuery db count scan columns st.descriptor).Formed (db.rel scan.relation).natts)
    (limit : (limitQuery db count scan columns st.descriptor).limit = count) (condition : count ≠ 0 ∨ records = [] ∨
      ¬ RoomForMissing (st.worlds scan.relation).caches (limitQuery db count scan columns st.descriptor).readAll) :
    LimitKeeps db count offset scan columns st := by
  intro fuel numberTuples d run ended
  obtain ⟨k, reads, world⟩ := limitPlan_ended run ended
  rw [world]
  refine completed.keepsUsedRows plain formedQ ?_ fun {i cache} here written => ?_
  · rcases reads with ⟨-, rfl⟩ | done | ⟨-, going, -⟩
    · rfl
    · rw [RowRun.reachesEnd, done]
    · rw [RowRun.reachesEnd, going]
  · by_cases empty : records = []
    · rw [empty]
      exact Nat.zero_le _
    · have runEnds := completed.runEnds plain empty (ne_nil_of_mem (mem_of_getElem? here)) formedQ k
      obtain ⟨room, short⟩ := completed.of_written empty here written
      rcases reads with ⟨none, -⟩ | done | ⟨some, going, enough⟩
      · exact absurd room ((condition.resolve_left fun some => some none).resolve_left empty)
      · exact le_of_eq (runEnds.processed_of_done done).symm
      · rw [limit] at short
        have tuples := length_tuples_startAndRun_le (db.rel scan.relation) k (st.worlds scan.relation)
          (limitQuery db count scan columns st.descriptor)
        have processed := runEnds.processed_of_going going
        omega

end

end

end

/-- A relation `t` with columns `a`, `b` and `c`. -/
def threeTable : Database Nat := ⟨fun _ => threeRows, fun _ => "t", fun _ => ["a", "b", "c"]⟩

/-- A session that has executed `SELECT a FROM t`, and has parsed `SELECT b FROM t LIMIT ...`. -/
def parsedB : ExecState Nat where
  descriptor := QueryDescriptor.empty.addColumnInformation ⟨some "b", none, none, none, false⟩
  worlds := fun _ => ((runToEnd threeRows World.initial (selectColumn 0 0)).map Prod.snd).getD World.initial
  scans := []

theorem limitQuery_parsedB (count : Nat) :
    limitQuery threeTable count ⟨0, none⟩ none parsedB.descriptor = selectColumn 1 count := by
  have readAll : parsedB.descriptor.getQueryAttributes ["a", "b", "c"] "t" = [1] := by decide +kernel
  have filterAtts : parsedB.descriptor.getQueryFilterAttributes ["a", "b", "c"] "t" = [] := by decide +kernel
  rw [selectColumn, ← readAll, ← filterAtts]
  rfl

theorem session_parsedB : ∃ answers, session threeRows World.initial [selectColumn 0 0] = some (answers, parsedB.worlds 0) := by
  obtain ⟨w, run, -⟩ := completed_initial.runToEnd plain_threeRows acceptsAll_threeRows
    (proper_selectColumn (show 0 < 3 by decide) 0)
  have world : parsedB.worlds 0 = w := by
    change ((runToEnd threeRows World.initial (selectColumn 0 0)).map Prod.snd).getD World.initial = w
    rw [run]
    rfl
  rw [world]
  exact ⟨_, session_cons run⟩

end PostgresRaw
