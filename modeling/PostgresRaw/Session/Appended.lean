import PostgresRaw.Session.Completed
import PostgresRaw.Session.Stopped

/-!
# Files that grow

Lines are appended to the file between queries.  What the caches and the EOL cache hold is about the first
lines, and these stay as they are (`Kept.append`).  So caches remain right for the file as it is when queries
alternate with appended lines (`growing_sound`), and a query behind completed ones serves the rows that are
known and then reads the new ones (`appended_lines_answered`): all caches end at the same row, its plan
has one node for them, and no cache is created for a later node.
-/

namespace PostgresRaw

open List

section

variable {D : Type} {rel : Relation D} {records : List (PlainRecord rel.fmt rel.natts)} {w : World D} {q : Query D}

/-- The relation over a file of these records. -/
def Relation.holding (rel : Relation D) (records : List (PlainRecord rel.fmt rel.natts)) : Relation D :=
  { rel with file := (records.map (·.line ++ [newline])).flatten }

theorem plain_holding (noHeader : rel.headerLine = false) (transcoding : rel.needTranscoding = false)
    (records : List (PlainRecord rel.fmt rel.natts)) : PlainRelation (rel.holding records) [] records where
  file := (nil_append _).symm
  noHeader _ := rfl
  header isHeader := by
    cases noHeader.symm.trans isHeader
  transcoding := transcoding

/-! ### What stays right -/

theorem CellRight.append {t : CacheType} {c r : Nat} {cell : Cell D} (right : CellRight rel records t c r cell)
    (more : List (PlainRecord rel.fmt rel.natts)) : CellRight rel (records ++ more) t c r cell := by
  obtain ⟨record, here, rest⟩ := right
  refine ⟨record, ?_, rest⟩
  rw [getElem?_append_left (List.getElem?_eq_some_iff.1 here).1, here]

theorem EolRight.append {src src' : Source} {header : List Byte} {contents : List (List Byte)} {eol : EolCache}
    {known t : Nat} (right : EolRight src header contents eol known t) (inside : t ≤ contents.length)
    (same : src'.headerLine = src.headerLine) (more : List (List Byte)) :
    EolRight src' header (contents ++ more) eol known t where
  known_le := right.known_le
  used_le := by
    rw [length_append]
    exact Nat.le_add_right_of_le right.used_le
  lengths r content less here := by
    have used := right.used_le
    rw [getElem?_append_left (by omega)] at here
    exact right.lengths r content less here
  headerSize isHeader := right.headerSize (same.symm.trans isHeader)

/-- **Appended lines keep the world.** -/
theorem Kept.append (kept : @Kept D (rel.holding records) [] records w) (nonempty : records ≠ [])
    (more : List (PlainRecord rel.fmt rel.natts)) :
    @Kept D (rel.holding (records ++ more)) [] (records ++ more) w := by
  have tended := kept.tended nonempty
  have sound : Sound rel records w.caches := tended.sound
  have sound' : Sound rel (records ++ more) w.caches := fun claims => (sound claims).append more
  refine ⟨Tended.stocked ⟨append_ne_nil_of_left_ne_nil nonempty _, tended.shaped, tended.tidy, sound', tended.buffers,
    tended.ends, ?_⟩, kept.unlocked⟩
  have lines : recordLines (records ++ more) = recordLines records ++ recordLines more := map_append
  have same : (rel.holding (records ++ more)).plainSource.headerLine = (rel.holding records).plainSource.headerLine := rfl
  exact lines ▸ tended.eol.append (Nat.zero_le _) same (recordLines more)

/-! ### Sessions -/

variable (rel) in
/-- **The worlds of sessions over a file that grows.**  The stops are clean, and the file is not empty when
lines are appended. -/
inductive Growing : List (PlainRecord rel.fmt rel.natts) → World D → Prop where
  | initial (records : List (PlainRecord rel.fmt rel.natts)) : Growing records .initial
  | query {records : List (PlainRecord rel.fmt rel.natts)} {w : World D} (growing : Growing records w) {q : Query D}
      (formed : q.Formed rel.natts) (n : Nat) (ends : (startAndRun (rel.holding records) n w q).reachesEnd = true)
      (clean : (startAndRun (rel.holding records) n w q).StopsClean) :
      Growing records (endQuery (startAndRun (rel.holding records) n w q).world
        (startAndRun (rel.holding records) n w q).scan)
  | append {records : List (PlainRecord rel.fmt rel.natts)} {w : World D} (growing : Growing records w)
      (nonempty : records ≠ []) (more : List (PlainRecord rel.fmt rel.natts)) : Growing (records ++ more) w

section

variable (noHeader : rel.headerLine = false) (transcoding : rel.needTranscoding = false)

include noHeader transcoding

theorem Growing.kept (growing : Growing rel records w) : @Kept D (rel.holding records) [] records w := by
  induction growing with
  | initial => exact kept_initial
  | @query records _ _ _ formed n ends clean ih =>
    exact ih.query (plain_holding noHeader transcoding records) formed
      (fun isHeader => by cases noHeader.symm.trans isHeader) ends clean
  | append _ nonempty more ih => exact ih.append nonempty more

end

/-- **Appended lines are picked up**: the query behind completed ones gives the old lines and then the new ones. -/
theorem appended_lines_answered (noHeader : rel.headerLine = false) (transcoding : rel.needTranscoding = false)
    (nonempty : records ≠ []) {more : List (PlainRecord rel.fmt rel.natts)} (accepts : AcceptsAll rel (records ++ more))
    {qs : List (Query D)} (before : ∀ q ∈ qs, q.Proper rel.natts) (proper : q.Proper rel.natts) :
    ∃ w, session (rel.holding records) .initial qs = some (qs.map (·.answer rel.input records), w) ∧
      ∀ n, (startAndRun (rel.holding (records ++ more)) n w q).reachesEnd = true ∧
        (startAndRun (rel.holding (records ++ more)) n w q).tuples = q.answer rel.input ((records ++ more).take n) := by
  obtain ⟨w, run, completed⟩ := completed_initial.session (plain_holding noHeader transcoding records)
    (fun record mem => accepts record (mem_append_left more mem)) before
  have kept := completed.toKept.append nonempty more
  have longer : records ++ more ≠ [] := append_ne_nil_of_left_ne_nil nonempty _
  refine ⟨w, run, fun n => kept.answers (plain_holding noHeader transcoding _) accepts proper n
    (fun isHeader => by cases noHeader.symm.trans isHeader) fun _ => ?_⟩
  exact ((kept.tended longer).valid q).fits (completed.even nonempty (w.task q)).count_eq

end

/-- Column 0 of the first two of three rows has been read. -/
def readTwo : World Nat :=
  endQuery (startAndRun (threeRows.holding (threeRecords.take 2)) 2 .initial (selectColumn 0 0)).world
    (startAndRun (threeRows.holding (threeRecords.take 2)) 2 .initial (selectColumn 0 0)).scan

/-- The third row is appended after column 0 has been read. -/
theorem appended_lines_answered_threeRecords :
    ∃ w, session (threeRows.holding (threeRecords.take 2)) .initial [selectColumn 0 0] =
        some ([(selectColumn 0 0).answer threeRows.input (threeRecords.take 2)], w) ∧
      ∀ n, (startAndRun (threeRows.holding threeRecords) n w (selectColumn 1 0)).reachesEnd = true ∧
        (startAndRun (threeRows.holding threeRecords) n w (selectColumn 1 0)).tuples =
          (selectColumn 1 0).answer threeRows.input (threeRecords.take n) :=
  appended_lines_answered rfl rfl (show threeRecords.take 2 ≠ [] from cons_ne_nil _ _)
    (show AcceptsAll threeRows (threeRecords.take 2 ++ threeRecords.drop 2) from acceptsAll_threeRows)
    (forall_mem_singleton.2 (proper_selectColumn (by decide) 0)) (proper_selectColumn (by decide) 0)

end PostgresRaw
