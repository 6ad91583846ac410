import PostgresRaw.Scan.Outcome
import PostgresRaw.Scan.Run

/-!
# What row steps do to the world

Whatever a scan does, it does one of five things to the world: it writes slots of caches, sets
their used rows, plans the next node, stores the EOL cache, and takes locks when it starts.
`RowsKeep` collects the first four and `WorldKept` all of them, so that a property of the world is
followed through a run by looking at these only.
-/

namespace PostgresRaw

section

variable {D : Type}

/-- A property of the world that writing slots, setting used rows, planning and storing the EOL cache
keep: the rows of a scan keep it. -/
structure RowsKeep (rel : Relation D) (I : World D → Prop) : Prop where
  write : ∀ {n : Strategy} {row : Nat} {values : Nat → Value D} {attributes : Nat → PMPair} {w : World D}
    {caches : List (Cache D)}, writeCaches n row values attributes w.caches = some caches →
      I w → I { w with caches := caches }
  finalize : ∀ (n : Strategy) (processed : Nat) {w : World D}, I w →
    I { w with caches := noDBFinalizeStrategy n processed w.caches }
  plan : ∀ (q : QueryInfo) (rows : List Nat) {w : World D}, I w →
    I { w with caches := (buildStrategy rel.byValue q rows w.caches).2 }
  eol : ∀ (eol : EolCache) {w : World D}, I w → I { w with eolCache := some eol }

/-- A property that taking locks keeps as well. -/
structure WorldKept (rel : Relation D) (I : World D → Prop) : Prop extends RowsKeep rel I where
  locks : ∀ (cacheLock pmLock : Nat → Bool) {w : World D}, I w →
    I { w with cacheLock := cacheLock, pmLock := pmLock }

/-- Reading a line changes nothing but the EOL cache. -/
theorem readLine_world {rel : Relation D} {w w' : World D} {s s' : Scan D} {result : ReadResult}
    (read : readLine rel w s = (result, w', s')) : ∃ eol, w' = { w with eolCache := some eol } :=
  ⟨_, (congrArg (fun read : ReadResult × World D × Scan D => read.2.1) read).symm⟩

namespace RowsKeep

variable {rel : Relation D} {I : World D → Prop} {w : World D} {s : Scan D}

section

variable (kept : RowsKeep rel I)
include kept

theorem get (it : StrategyIterator) (inv : I w) :
    I { w with caches := (noDBScanStrategyIteratorGet rel.byValue it w.caches).2 } := by
  unfold noDBScanStrategyIteratorGet
  split
  · exact kept.plan _ _ inv
  · exact inv

theorem firstStrategy (q : QueryInfo) (inv : I w) :
    I { w with caches := (firstStrategy rel.byValue q w.caches).2 } := by
  have created : I { w with caches := (noDBScanStrategyIterator rel.byValue q w.caches).2 } := by
    unfold noDBScanStrategyIterator
    split
    · exact inv
    · exact kept.plan _ _ inv
  have got := kept.get (noDBScanStrategyIterator rel.byValue q w.caches).1 created
  exact got

theorem noDBUpdateStrategy (inv : I w) {w' : World D} {s' : Scan D}
    (updated : noDBUpdateStrategy rel w s = some (w', s')) : I w' := by
  have final : I (finalizeNode w s) := kept.finalize s.plan.curStrategy s.processed inv
  obtain ⟨-, rfl, -⟩ | ⟨-, ended, input, -, result⟩ := noDBUpdateStrategy_cases updated
  · exact inv
  · cases ended with
    | true =>
      cases result
      exact kept.eol _ final
    | false =>
      cases result
      exact kept.eol _ (kept.get _ (kept.eol _ final))

theorem advance (inv : I w) (pass : Bool) : I (advance rel w s pass).2.1 := by
  rcases advance_cases rel w s pass with ⟨-, result⟩ | ⟨-, -, result⟩ | ⟨-, w', s', updated, result⟩
  · rw [result]
    exact inv
  · rw [result]
    exact inv
  · rw [result]
    exact kept.noDBUpdateStrategy inv updated

theorem readLine (inv : I w) {w' : World D} {s' : Scan D} {result : ReadResult}
    (read : readLine rel w s = (result, w', s')) : I w' := by
  obtain ⟨eol, rfl⟩ := readLine_world read
  exact kept.eol eol inv

/-- One row step. -/
theorem execNoDBPlan (inv : I w) : I (execNoDBPlan rel w s).2.1 := by
  have outcome := execNoDBPlan_outcome rel w s
  generalize PostgresRaw.execNoDBPlan rel w s = out at outcome
  cases outcome with
  | outside => exact inv
  | cached _ values pass => exact kept.advance inv pass
  | ended _ read => exact kept.readLine inv read
  | failed _ read => exact kept.readLine inv read
  | unwritten _ read => exact kept.readLine inv read
  | row _ read row pass written => exact kept.advance (kept.write written (kept.readLine inv read)) pass

theorem runRows (n : Nat) (inv : I w) : I (runRows rel n w s).world := by
  induction n generalizing w s with
  | zero => exact inv
  | succ n ih =>
    have step : I (PostgresRaw.execNoDBPlan rel w s).2.1 := kept.execNoDBPlan inv
    unfold PostgresRaw.runRows
    split
    · next result =>
      rw [result] at step
      exact ih step
    · next result =>
      rw [result] at step
      exact step

end

end RowsKeep

namespace WorldKept

variable {rel : Relation D} {I : World D → Prop} {w : World D}

theorem noDBScanStateInit (kept : WorldKept rel I) (q : Query D) (inv : I w) : I (noDBScanStateInit rel w q).1 := by
  have planned := kept.firstStrategy
    (q.info (unlockedCols w.cacheLock q.readAll) (unlockedCols w.pmLock q.readAll)) inv
  exact kept.locks _ _ (kept.eol _ planned)

theorem startAndRun (kept : WorldKept rel I) (n : Nat) (q : Query D) (inv : I w) : I (startAndRun rel n w q).world :=
  kept.runRows n (kept.noDBScanStateInit q inv)

end WorldKept

/-- Scans do not touch the flag that switches the conversion off. -/
theorem worldKept_transcodingDisabled (rel : Relation D) (b : Bool) :
    WorldKept rel fun w => w.transcodingDisabled = b where
  write _ same := same
  finalize _ _ _ same := same
  plan _ _ _ same := same
  eol _ _ same := same
  locks _ _ _ same := same

end

end PostgresRaw
