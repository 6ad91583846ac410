import PostgresRaw.Reader.EolCounts
import PostgresRaw.Scan.Outcome
import PostgresRaw.Scan.Reached

/-!
# Two scans of one relation

A self join has two scans of its relation.  They share the caches, the EOL cache and the locks, and each
has its own row counter, its own strategy and its own place in the file.  The nodes above ask them for
rows in any order.

The EOL cache does not survive that: a scan that started when no lengths were known sets the used rows
from its own row counter (`usedRows_step`), so that one that is behind the other takes lengths away
again.  `usedRows_le_of_steps` says that nothing else does.
-/

namespace PostgresRaw

section

variable {D : Type} {rel : Relation D} {w w' : World D} {s s' : Scan D}

/-! ### The used rows of the EOL cache -/

theorem sameRows_seekToRow (headerLine : Bool) (row : Nat) (input : RawInput) :
    input.eolCache.SameRows (seekToRow headerLine row input).eolCache := by
  unfold seekToRow
  split
  · exact .refl _
  · exact .refl _

theorem sameRows_lookAhead {input input' : RawInput} {ended : Bool}
    (looked : lookAhead rel w input = some (ended, input')) : input.eolCache.SameRows input'.eolCache := by
  unfold lookAhead at looked
  split at looked
  · exact sameRows_noDBTryReFillRawBuf looked
  · cases looked
    exact .refl _

/-- Updating the strategy leaves the used rows. -/
theorem noDBUpdateStrategy_usedRows (updated : noDBUpdateStrategy rel w s = some (w', s')) :
    w'.eol.usedRows = w.eol.usedRows := by
  obtain ⟨-, rfl, -⟩ | ⟨-, ended, input, looked, result⟩ := noDBUpdateStrategy_cases updated
  · rfl
  · have same : input.eolCache.usedRows = w.eol.usedRows :=
      ((sameRows_seekToRow ..).trans (sameRows_lookAhead looked)).usedRows
    cases ended with
    | true =>
      cases result
      exact same
    | false =>
      cases result
      exact (extendEol_usedRows ..).trans same

theorem advance_usedRows (rel : Relation D) (w : World D) (s : Scan D) (pass : Bool) :
    (advance rel w s pass).2.1.eol.usedRows = w.eol.usedRows := by
  rcases advance_cases rel w s pass with ⟨-, result⟩ | ⟨-, -, result⟩ | ⟨-, w', s', updated, result⟩
  · rw [result]
  · rw [result]
  · rw [result]
    exact noDBUpdateStrategy_usedRows updated

/-- **What reading a line does to the EOL cache.** -/
theorem readLine_rows {result : ReadResult} (read : readLine rel w s = (result, w', s')) :
    (¬ (s.plan.readFile = .fromFile ∧ result = .line) ∧ w.eol.SameRows w'.eol) ∨
      (s.plan.readFile = .fromFile ∧ result = .line ∧ w'.eol.usedRows = s.processed + 1 ∧
        w'.eol.maxRows = w.eol.maxRows) := by
  cases mode : s.plan.readFile with
  | fromFile =>
    simp only [readLine, mode] at read
    have rows := noDBGetNextTupleFromFile_rows (rel.source w) s.processed (s.reader w)
    generalize noDBGetNextTupleFromFile (rel.source w) s.processed (s.reader w) = call at read rows
    cases read
    rcases rows with ⟨other, same⟩ | ⟨line, used, max, -⟩
    · exact .inl ⟨fun both => other both.2, same⟩
    · exact .inr ⟨rfl, line, used, max⟩
  | fromFileWithEOL =>
    simp only [readLine, mode] at read
    have same := sameRows_noDBGetNextTupleFromFileWithEOL (rel.source w) s.processed (s.reader w)
    generalize noDBGetNextTupleFromFileWithEOL (rel.source w) s.processed (s.reader w) = call at read same
    cases read
    exact .inl ⟨nofun, same⟩

/-- **What a row step does to the used rows**: nothing, or it sets them from the row counter. -/
theorem usedRows_step (rel : Relation D) (w : World D) (s : Scan D) :
    (execNoDBPlan rel w s).2.1.eol.usedRows = w.eol.usedRows ∨
      (s.execPlan.isCacheOnly = false ∧ s.plan.readFile = .fromFile ∧
        (execNoDBPlan rel w s).2.1.eol.usedRows = s.processed + 1) := by
  have reading : ∀ {result w₁ s₁}, s.execPlan.isCacheOnly = false → readLine rel w s = (result, w₁, s₁) →
      w₁.eol.usedRows = w.eol.usedRows ∨
        (s.execPlan.isCacheOnly = false ∧ s.plan.readFile = .fromFile ∧ w₁.eol.usedRows = s.processed + 1) := by
    intro result w₁ s₁ file read
    rcases readLine_rows read with ⟨-, same⟩ | ⟨plain, -, used, -⟩
    · exact .inl same.usedRows
    · exact .inr ⟨file, plain, used⟩
  have outcome := execNoDBPlan_outcome rel w s
  generalize execNoDBPlan rel w s = out at outcome
  cases outcome with
  | outside => exact .inl rfl
  | cached _ values pass => exact .inl (advance_usedRows ..)
  | ended file read => exact reading file read
  | failed file read => exact reading file read
  | unwritten file read => exact reading file read
  | row file read row pass =>
    rw [advance_usedRows]
    exact (reading file read :)

/-! ### Two scans -/

inductive Side where
  | first
  | second
deriving DecidableEq

/-- Two scans of one relation, and what they share. -/
structure SelfJoin (D : Type) where
  world : World D
  scans : Side → Scan D

namespace SelfJoin

/-- The scans are set up one after the other. -/
def start (rel : Relation D) (w : World D) (first second : Query D) : SelfJoin D :=
  let (w, s₁) := noDBScanStateInit rel w first
  let (w, s₂) := noDBScanStateInit rel w second
  ⟨w, fun
    | .first => s₁
    | .second => s₂⟩

/-- One of the scans is asked for a row. -/
def step (rel : Relation D) (join : SelfJoin D) (side : Side) : SelfJoin D :=
  let (_, w, s) := execNoDBPlan rel join.world (join.scans side)
  ⟨w, Function.update join.scans side s⟩

/-- The used rows of the EOL cache. -/
def usedRows (join : SelfJoin D) : Nat := join.world.eol.usedRows

/-- The scan reads the file without lengths, and lengths are known of lines behind its next one. -/
def Behind (join : SelfJoin D) (side : Side) : Prop :=
  (join.scans side).execPlan.isCacheOnly = false ∧ (join.scans side).plan.readFile = .fromFile ∧
    (join.scans side).processed + 1 < join.usedRows

/-- Row steps in any order, none of them of a scan that is behind. -/
inductive Steps (rel : Relation D) (join : SelfJoin D) : SelfJoin D → Prop where
  | refl : Steps rel join join
  | step {join' : SelfJoin D} (before : Steps rel join join') {side : Side} (even : ¬ join'.Behind side) :
      Steps rel join (join'.step rel side)

theorem usedRows_le_step {join : SelfJoin D} {side : Side} (even : ¬ join.Behind side) :
    join.usedRows ≤ (join.step rel side).usedRows := by
  rcases usedRows_step rel join.world (join.scans side) with same | ⟨file, plain, used⟩
  · exact le_of_eq same.symm
  · by_contra fewer
    refine even ⟨file, plain, ?_⟩
    have now : (join.step rel side).usedRows = (join.scans side).processed + 1 := used
    omega

/-- **The used rows of the EOL cache never decrease** while no scan that is behind reads the file
without lengths. -/
theorem usedRows_le_of_steps {join join' : SelfJoin D} (steps : Steps rel join join') :
    join.usedRows ≤ join'.usedRows := by
  induction steps with
  | refl => exact Nat.le_refl _
  | step _ even ih => exact Nat.le_trans ih (usedRows_le_step even)

end SelfJoin

end

/-- `SELECT` of column 0 from both sides of a self join of the three rows. -/
def joinedRows : SelfJoin Nat := .start threeRows .initial (selectColumn 0 0) (selectColumn 0 0)

/-- The scans take turns. -/
theorem SelfJoin.usedRows_le_of_steps_turns :
    joinedRows.usedRows ≤ ((joinedRows.step threeRows .first).step threeRows .second).usedRows := by
  refine SelfJoin.usedRows_le_of_steps (.step (.step .refl ?_) ?_)
  · rintro ⟨-, -, behind⟩
    exact absurd behind (by decide +kernel)
  · rintro ⟨-, -, behind⟩
    exact absurd behind (by decide +kernel)

/-- The first scan reads two rows; when the second one reads its first row, one length is left. -/
theorem SelfJoin.not_usedRows_le_behind :
    let ahead := (joinedRows.step threeRows .first).step threeRows .first
    ¬ ahead.usedRows ≤ (ahead.step threeRows .second).usedRows := by
  have two : ((joinedRows.step threeRows .first).step threeRows .first).usedRows = 2 := by decide +kernel
  have one : (((joinedRows.step threeRows .first).step threeRows .first).step threeRows .second).usedRows = 1 := by
    decide +kernel
  intro ahead
  rw [two, one]
  decide

end PostgresRaw
