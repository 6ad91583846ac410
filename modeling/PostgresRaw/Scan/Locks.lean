import PostgresRaw.Library.Runs
import PostgresRaw.Scan.State

/-!
# Write locks

`CacheLock` and `PMLock` are to give each column of a relation one scan that writes it.  A scan
takes the locks that are free when it starts, a rescan releases and takes them again, and the end
of a query releases them.  A lock does not say who holds it, and what is released are the locks
of all columns that the scan reads, whoever holds them; a query that is stopped by its tuple count
releases nothing.  `exclusive_iff` says that these two break exclusivity, and nothing else does.
-/

namespace PostgresRaw

/-- The part of `NoDBScanStateReInit` that asks for a new writing set: the columns to write, and
the locks.  The old columns are kept if no lock has been released. -/
def renewLocks (lock : Nat → Bool) (readAll held : List Nat) : List Nat × (Nat → Bool) :=
  let changed := readAll.any lock
  let lock := releaseLocks lock readAll
  if changed then (unlockedCols lock readAll, takeLocks lock (unlockedCols lock readAll))
  else (held, lock)

/-- An active scan: `readAllAtts`, and `writeDataCols` or `writePositionCols`. -/
structure ScanLocks where
  readAll : List Nat
  write : CacheType → List Nat

/-- `CacheLock` and `PMLock` of a relation, and its active scans. -/
structure LockState where
  lock : CacheType → Nat → Bool
  scans : Nat → Option ScanLocks

/-- Before the first scan. -/
def LockState.initial : LockState where
  lock := fun _ _ => false
  scans := fun _ => none

inductive LockEvent where
  /-- `NoDBScanStateInit` for a new scan -/
  | init (id : Nat) (readAll : List Nat)
  /-- `NoDBScanStateReInit`, which returns early if the file has not been read to its end -/
  | rescan (id : Nat) (restarts : Bool)
  /-- the end of a query with these scans: `ExecutePlan2` has got its last tuple -/
  | endQuery (ids : List Nat)
  /-- the end of a query that `ExecutePlan2` has left at `numberTuples` -/
  | stopQuery (ids : List Nat)

namespace LockState

/-- The columns that a scan reads. -/
def readAll (s : LockState) (id : Nat) : List Nat := (s.scans id).elim [] (·.readAll)

/-- What an event does, if its scans are there. -/
def step (s : LockState) : LockEvent → Option LockState
  | .init id readAll =>
    match s.scans id with
    | some _ => none
    | none =>
      some {
        lock := fun t => takeLocks (s.lock t) (unlockedCols (s.lock t) readAll)
        scans := Function.update s.scans id (some ⟨readAll, fun t => unlockedCols (s.lock t) readAll⟩) }
  | .rescan id restarts =>
    match s.scans id with
    | none => none
    | some scan =>
      if restarts then
        some {
          lock := fun t => (renewLocks (s.lock t) scan.readAll (scan.write t)).2
          scans := Function.update s.scans id
            (some ⟨scan.readAll, fun t => (renewLocks (s.lock t) scan.readAll (scan.write t)).1⟩) }
      else some s
  | .endQuery ids =>
    if ids.all fun id => (s.scans id).isSome then
      some {
        lock := fun t => ids.foldl (fun lock id => releaseLocks lock (s.readAll id)) (s.lock t)
        scans := fun id => if id ∈ ids then none else s.scans id }
    else none
  | .stopQuery ids =>
    if ids.all fun id => (s.scans id).isSome then
      some { s with scans := fun id => if id ∈ ids then none else s.scans id }
    else none

/-- The scan is active and has the column among those that it writes. -/
def Holds (s : LockState) (t : CacheType) (id c : Nat) : Prop := ∃ scan, s.scans id = some scan ∧ c ∈ scan.write t

/-- **Write locks are exclusive**: a column is written by one scan at most, and locked if there is
one. -/
structure Exclusive (s : LockState) : Prop where
  unique : ∀ {t id id' c}, s.Holds t id c → s.Holds t id' c → id = id'
  locked : ∀ {t c}, s.lock t c = true ↔ ∃ id, s.Holds t id c

/-- Scans write columns that they read. -/
def WritesRead (s : LockState) : Prop := ∀ {t id c}, s.Holds t id c → c ∈ s.readAll id

/-- The event releases no lock of a scan that goes on without it, and leaves none of a scan that
is over. -/
def ReleasesOwn (s : LockState) : LockEvent → Prop
  | .init _ _ => True
  | .rescan id restarts => restarts = true → ∀ t, ∀ id' ≠ id, ∀ c ∈ s.readAll id, ¬ s.Holds t id' c
  | .endQuery ids => ∀ t, ∀ id' ∉ ids, ∀ id ∈ ids, ∀ c ∈ s.readAll id, ¬ s.Holds t id' c
  | .stopQuery ids => ∀ t, ∀ id ∈ ids, ∀ c, ¬ s.Holds t id c

/-! ### Taking and releasing -/

variable {cols ids : List Nat} {c id : Nat} {lock : Nat → Bool}

theorem mem_unlockedCols : c ∈ unlockedCols lock cols ↔ c ∈ cols ∧ lock c = false := by
  simp [unlockedCols]

theorem takeLocks_iff : takeLocks lock cols c = true ↔ lock c = true ∨ c ∈ cols := by
  simp [takeLocks]

theorem releaseLocks_iff : releaseLocks lock cols c = true ↔ lock c = true ∧ c ∉ cols := by
  simp [releaseLocks]

theorem foldl_releaseLocks {s : LockState} : ids.foldl (fun lock id => releaseLocks lock (s.readAll id)) lock c = true ↔
      lock c = true ∧ ∀ id ∈ ids, c ∉ s.readAll id := by
  induction ids generalizing lock with
  | nil => simp
  | cons id ids ih =>
    rw [List.foldl_cons, ih, releaseLocks_iff, List.forall_mem_cons, and_assoc]

/-- What a rescan leaves: its columns are all locked and its own if one of them was locked, and
otherwise nothing has changed. -/
theorem renewLocks_cases (lock : Nat → Bool) (readAll held : List Nat) :
    ((∃ c ∈ readAll, lock c = true) ∧ (∀ c, c ∈ (renewLocks lock readAll held).1 ↔ c ∈ readAll) ∧
        ∀ c, (renewLocks lock readAll held).2 c = true ↔ lock c = true ∨ c ∈ readAll) ∨
      ((∀ c ∈ readAll, lock c = false) ∧ (renewLocks lock readAll held).1 = held ∧
        ∀ c, (renewLocks lock readAll held).2 c = true ↔ lock c = true) := by
  unfold renewLocks
  simp only
  by_cases changed : readAll.any lock = true
  · rw [if_pos changed]
    have all : ∀ c, c ∈ unlockedCols (releaseLocks lock readAll) readAll ↔ c ∈ readAll := by
      intro c
      rw [mem_unlockedCols, and_iff_left_iff_imp]
      intro mem
      simp [releaseLocks, mem]
    refine .inl ⟨List.any_eq_true.1 changed, all, fun c => ?_⟩
    rw [takeLocks_iff, releaseLocks_iff, all]
    tauto
  · rw [if_neg changed]
    have none : ∀ c ∈ readAll, lock c = false := by simpa using changed
    refine .inr ⟨none, rfl, fun c => ?_⟩
    rw [releaseLocks_iff, and_iff_left_iff_imp]
    intro locked mem
    rw [none c mem] at locked
    cases locked

/-! ### One event -/

variable {s s' : LockState}

theorem step_init (taken : s.step (.init id cols) = some s') : (∀ t c, ¬ s.Holds t id c) ∧
      (∀ t id' c, s'.Holds t id' c ↔ s.Holds t id' c ∨ id' = id ∧ c ∈ cols ∧ s.lock t c = false) ∧
      (∀ t c, s'.lock t c = true ↔ s.lock t c = true ∨ c ∈ cols) ∧
      ∀ id', s'.readAll id' = if id' = id then cols else s.readAll id' := by
  simp only [step] at taken
  split at taken
  · cases taken
  · next new =>
    cases taken
    refine ⟨fun t c => ?_, fun t id' c => ?_, fun t c => ?_, fun id' => ?_⟩
    · rintro ⟨scan, active, -⟩
      rw [new] at active
      cases active
    · by_cases same : id' = id
      · subst same
        simp [Holds, new, mem_unlockedCols]
      · simp [Holds, same]
    · rw [takeLocks_iff, mem_unlockedCols]
      cases s.lock t c <;> simp
    · by_cases same : id' = id
      · simp [readAll, same]
      · simp [readAll, same]

theorem step_rescan_false (taken : s.step (.rescan id false) = some s') : s' = s := by
  simp only [step] at taken
  split at taken
  · cases taken
  · cases taken
    rfl

theorem step_rescan (taken : s.step (.rescan id true) = some s') :
    ∃ scan, s.scans id = some scan ∧ s.readAll id = scan.readAll ∧ (∀ t id' c, s'.Holds t id' c ↔
        if id' = id then c ∈ (renewLocks (s.lock t) scan.readAll (scan.write t)).1 else s.Holds t id' c) ∧
      (∀ t, s'.lock t = (renewLocks (s.lock t) scan.readAll (scan.write t)).2) ∧
      ∀ id', s'.readAll id' = s.readAll id' := by
  simp only [step] at taken
  split at taken
  · cases taken
  · next scan active =>
    cases taken
    refine ⟨scan, active, by simp [readAll, active], fun t id' c => ?_, fun t => rfl, fun id' => ?_⟩
    · by_cases same : id' = id
      · subst same
        simp [Holds]
      · simp [Holds, same]
    · by_cases same : id' = id
      · subst same
        simp [readAll, active]
      · simp [readAll, same]

theorem step_endQuery (taken : s.step (.endQuery ids) = some s') :
    (∀ t id' c, s'.Holds t id' c ↔ s.Holds t id' c ∧ id' ∉ ids) ∧
      (∀ t c, s'.lock t c = true ↔ s.lock t c = true ∧ ∀ id ∈ ids, c ∉ s.readAll id) ∧
      ∀ id' ∉ ids, s'.readAll id' = s.readAll id' := by
  simp only [step] at taken
  split at taken
  · cases taken
    refine ⟨fun t id' c => ?_, fun t c => foldl_releaseLocks, fun id' other => ?_⟩
    · by_cases ended : id' ∈ ids
      · simp [Holds, ended]
      · simp [Holds, ended]
    · simp [readAll, other]
  · cases taken

theorem step_stopQuery (taken : s.step (.stopQuery ids) = some s') :
    (∀ t id' c, s'.Holds t id' c ↔ s.Holds t id' c ∧ id' ∉ ids) ∧ s'.lock = s.lock ∧
      ∀ id' ∉ ids, s'.readAll id' = s.readAll id' := by
  simp only [step] at taken
  split at taken
  · cases taken
    refine ⟨fun t id' c => ?_, rfl, fun id' other => ?_⟩
    · by_cases ended : id' ∈ ids
      · simp [Holds, ended]
      · simp [Holds, ended]
    · simp [readAll, other]
  · cases taken

/-- Scans go on writing columns that they read. -/
theorem WritesRead.step {e : LockEvent} (reads : s.WritesRead) (taken : s.step e = some s') : s'.WritesRead := by
  intro t id' c holds
  cases e with
  | init id cols =>
    obtain ⟨free, held, -, read⟩ := step_init taken
    rw [read]
    rcases (held t id' c).1 holds with old | ⟨rfl, mem, -⟩
    · have other : id' ≠ id := by
        rintro rfl
        exact free t c old
      rw [if_neg other]
      exact reads old
    · rw [if_pos rfl]
      exact mem
  | rescan id restarts =>
    cases restarts with
    | false =>
      rw [step_rescan_false taken] at holds ⊢
      exact reads holds
    | true =>
      obtain ⟨scan, active, same, held, -, read⟩ := step_rescan taken
      rw [read]
      rw [held] at holds
      split at holds
      · next here =>
        subst here
        rw [same]
        rcases renewLocks_cases (s.lock t) scan.readAll (scan.write t) with
          ⟨-, all, -⟩ | ⟨-, kept, -⟩
        · exact (all c).1 holds
        · rw [kept] at holds
          rw [← same]
          exact reads ⟨scan, active, holds⟩
      · exact reads holds
  | endQuery ids =>
    obtain ⟨held, -, read⟩ := step_endQuery taken
    obtain ⟨old, other⟩ := (held t id' c).1 holds
    rw [read id' other]
    exact reads old
  | stopQuery ids =>
    obtain ⟨held, -, read⟩ := step_stopQuery taken
    obtain ⟨old, other⟩ := (held t id' c).1 holds
    rw [read id' other]
    exact reads old

section

variable (exclusive : s.Exclusive)
include exclusive

/-- Starting a scan takes free locks only. -/
theorem Exclusive.init (taken : s.step (.init id cols) = some s') : s'.Exclusive := by
  obtain ⟨-, held, locked, -⟩ := step_init taken
  have unheld : ∀ {t c}, s.lock t c = false → ∀ id, ¬ s.Holds t id c := by
    intro t c unlocked id holds
    rw [exclusive.locked.2 ⟨id, holds⟩] at unlocked
    cases unlocked
  refine ⟨fun {t id₁ id₂ c} first second => ?_, fun {t c} => ?_⟩
  · rcases (held t id₁ c).1 first with old | ⟨rfl, -, unlocked⟩
    · rcases (held t id₂ c).1 second with old' | ⟨rfl, -, unlocked⟩
      · exact exclusive.unique old old'
      · exact absurd old (unheld unlocked _)
    · rcases (held t id₂ c).1 second with old' | ⟨rfl, -, -⟩
      · exact absurd old' (unheld unlocked _)
      · rfl
  · rw [locked]
    constructor
    · rintro (old | mem)
      · obtain ⟨id', holds⟩ := exclusive.locked.1 old
        exact ⟨id', (held t id' c).2 (.inl holds)⟩
      · cases lock : s.lock t c with
        | true =>
          obtain ⟨id', holds⟩ := exclusive.locked.1 lock
          exact ⟨id', (held t id' c).2 (.inl holds)⟩
        | false => exact ⟨id, (held t id c).2 (.inr ⟨rfl, mem, lock⟩)⟩
    · rintro ⟨id', holds⟩
      rcases (held t id' c).1 holds with old | ⟨-, mem, -⟩
      · exact .inl (exclusive.locked.2 ⟨id', old⟩)
      · exact .inr mem

/-- A rescan keeps locks exclusive if it releases none of another scan, and only then: such a lock
it takes itself. -/
theorem Exclusive.rescan_iff (reads : s.WritesRead)
    (taken : s.step (.rescan id true) = some s') :
    s'.Exclusive ↔ ∀ t, ∀ id' ≠ id, ∀ c ∈ s.readAll id, ¬ s.Holds t id' c := by
  obtain ⟨scan, active, same, held, locked, -⟩ := step_rescan taken
  rw [same]
  have own : ∀ {t c}, c ∈ scan.write t → c ∈ scan.readAll := by
    intro t c mem
    rw [← same]
    exact reads ⟨scan, active, mem⟩
  constructor
  · intro exclusive' t id' other c mem holds
    refine other (exclusive'.unique ((held t id' c).2 (by rwa [if_neg other])) ((held t id c).2 ?_))
    rw [if_pos rfl]
    rcases renewLocks_cases (s.lock t) scan.readAll (scan.write t) with ⟨-, all, -⟩ | ⟨none, -, -⟩
    · exact (all c).2 mem
    · have := exclusive.locked.2 ⟨id', holds⟩
      rw [none c mem] at this
      cases this
  · intro apart
    -- What the scan holds afterwards are all its columns, or it held none of them.
    have mine : ∀ {t c}, s'.Holds t id c → c ∈ scan.readAll := by
      intro t c holds
      rw [held, if_pos rfl] at holds
      rcases renewLocks_cases (s.lock t) scan.readAll (scan.write t) with ⟨-, all, -⟩ | ⟨-, kept, -⟩
      · exact (all c).1 holds
      · rw [kept] at holds
        exact own holds
    refine ⟨fun {t id₁ id₂ c} first second => ?_, fun {t c} => ?_⟩
    · by_cases here₁ : id₁ = id
      · by_cases here₂ : id₂ = id
        · rw [here₁, here₂]
        · subst here₁
          have old := (held t id₂ c).1 second
          rw [if_neg here₂] at old
          exact absurd old (apart t id₂ here₂ c (mine first))
      · have old₁ := (held t id₁ c).1 first
        rw [if_neg here₁] at old₁
        by_cases here₂ : id₂ = id
        · subst here₂
          exact absurd old₁ (apart t id₁ here₁ c (mine second))
        · have old₂ := (held t id₂ c).1 second
          rw [if_neg here₂] at old₂
          exact exclusive.unique old₁ old₂
    · rw [locked]
      rcases renewLocks_cases (s.lock t) scan.readAll (scan.write t) with
        ⟨-, all, lock⟩ | ⟨none, kept, lock⟩
      · rw [lock]
        constructor
        · intro isLocked
          by_cases mem : c ∈ scan.readAll
          · exact ⟨id, (held t id c).2 (by rw [if_pos rfl]; exact (all c).2 mem)⟩
          · obtain ⟨id', holds⟩ := exclusive.locked.1 (isLocked.resolve_right mem)
            have other : id' ≠ id := by
              rintro rfl
              exact mem (same ▸ reads holds)
            exact ⟨id', (held t id' c).2 (by rwa [if_neg other])⟩
        · rintro ⟨id', holds⟩
          by_cases here : id' = id
          · subst here
            exact .inr (mine holds)
          · rw [held, if_neg here] at holds
            exact .inl (exclusive.locked.2 ⟨id', holds⟩)
      · rw [lock, exclusive.locked]
        have unchanged : ∀ id', s'.Holds t id' c ↔ s.Holds t id' c := by
          intro id'
          rw [held]
          split
          · next here =>
            subst here
            rw [kept]
            constructor
            · exact fun mem => ⟨scan, active, mem⟩
            · rintro ⟨scan', active', mem⟩
              rw [active] at active'
              cases active'
              exact mem
          · exact Iff.rfl
        exact exists_congr fun id' => (unchanged id').symm

/-- The end of a query keeps locks exclusive if it releases none of a scan that goes on, and only
then. -/
theorem Exclusive.endQuery_iff (reads : s.WritesRead)
    (taken : s.step (.endQuery ids) = some s') :
    s'.Exclusive ↔ ∀ t, ∀ id' ∉ ids, ∀ id ∈ ids, ∀ c ∈ s.readAll id, ¬ s.Holds t id' c := by
  obtain ⟨held, locked, -⟩ := step_endQuery taken
  constructor
  · intro exclusive' t id' other id ended c mem holds
    have lock := exclusive'.locked.2 ⟨id', (held t id' c).2 ⟨holds, other⟩⟩
    exact ((locked t c).1 lock).2 id ended mem
  · intro apart
    refine ⟨fun first second => exclusive.unique ((held ..).1 first).1 ((held ..).1 second).1, fun {t c} => ?_⟩
    rw [locked, exclusive.locked]
    constructor
    · rintro ⟨⟨id', holds⟩, kept⟩
      refine ⟨id', (held t id' c).2 ⟨holds, fun ended => kept id' ended (reads holds)⟩⟩
    · rintro ⟨id', holds⟩
      obtain ⟨old, other⟩ := (held t id' c).1 holds
      exact ⟨⟨id', old⟩, fun id ended mem => apart t id' other id ended c mem old⟩

/-- A query that is stopped keeps locks exclusive only if it has none: nobody releases them. -/
theorem Exclusive.stopQuery_iff (taken : s.step (.stopQuery ids) = some s') :
    s'.Exclusive ↔ ∀ t, ∀ id ∈ ids, ∀ c, ¬ s.Holds t id c := by
  obtain ⟨held, locked, -⟩ := step_stopQuery taken
  constructor
  · intro exclusive' t id ended c holds
    have lock : s'.lock t c = true := by
      rw [locked]
      exact exclusive.locked.2 ⟨id, holds⟩
    obtain ⟨id', holds'⟩ := exclusive'.locked.1 lock
    obtain ⟨old, other⟩ := (held t id' c).1 holds'
    exact other (exclusive.unique old holds ▸ ended)
  · intro none
    have unchanged : ∀ t id c, s'.Holds t id c ↔ s.Holds t id c := by
      intro t id c
      rw [held, and_iff_left_iff_imp]
      exact fun holds ended => none t id ended c holds
    refine ⟨fun first second => exclusive.unique ((unchanged ..).1 first) ((unchanged ..).1 second), fun {t c} => ?_⟩
    rw [locked, exclusive.locked]
    exact exists_congr fun id => (unchanged t id c).symm

theorem Exclusive.step_iff {e : LockEvent} (reads : s.WritesRead)
    (taken : s.step e = some s') : s'.Exclusive ↔ s.ReleasesOwn e := by
  cases e with
  | init id cols => exact iff_of_true (exclusive.init taken) trivial
  | rescan id restarts =>
    cases restarts with
    | false =>
      rw [step_rescan_false taken]
      exact iff_of_true exclusive nofun
    | true =>
      rw [exclusive.rescan_iff reads taken]
      exact ⟨fun apart _ => apart, fun apart => apart rfl⟩
  | endQuery ids => exact exclusive.endQuery_iff reads taken
  | stopQuery ids => exact exclusive.stopQuery_iff taken

end

theorem not_holds_initial {t : CacheType} : ¬ initial.Holds t id c := by
  rintro ⟨scan, none, -⟩
  cases none

theorem writesRead_initial : initial.WritesRead := fun holds => absurd holds not_holds_initial

theorem exclusive_initial : initial.Exclusive where
  unique := fun holds => absurd holds not_holds_initial
  locked := iff_of_false nofun fun ⟨_, holds⟩ => not_holds_initial holds

/-- **Write locks are exclusive** in every state of a run exactly if no event releases a lock of a
scan that goes on without it, or leaves one of a scan that is over. -/
theorem exclusive_iff (events : List LockEvent) :
    Runs.AllAlong step Exclusive .initial events ↔ Runs.AllMeet step ReleasesOwn .initial events :=
  Runs.allAlong_iff_allMeet (I := WritesRead) (fun reads _ taken => reads.step taken)
    (fun reads exclusive taken => exclusive.step_iff reads taken)
    writesRead_initial exclusive_initial events

/-- A self join on column 0: the rescan of the second scan takes the lock of the first. -/
theorem not_exclusive_rescan :
    ¬ Runs.AllAlong step Exclusive .initial [.init 0 [0], .init 1 [0], .rescan 1 true] := by
  rw [Runs.AllAlong]
  rintro ⟨-, later⟩
  obtain ⟨-, later⟩ := later _ rfl
  obtain ⟨-, last⟩ := later _ rfl
  have both := last _ rfl
  have same : 0 = 1 := @Exclusive.unique _ both .data 0 1 0 ⟨_, rfl, by decide⟩ ⟨_, rfl, by decide⟩
  exact absurd same (by decide)

end LockState

end PostgresRaw
