import PostgresRaw.Executor.Plan
import PostgresRaw.Scan.Reached
import Mathlib.Data.PNat.Basic

/-!
# Chunked execution

A cursor or a row-limited portal calls `ExecutePlan2` several times.  Every call starts the scans
again at row 0, so that a later call may deliver what an earlier one has delivered.  The calls
together deliver what one call would if the later ones ask no scan for rows, as it is with a node
above the scans that has read all its input in the first call.
-/

namespace PostgresRaw

open Option List

section

variable {D σ T : Type} (db : Database D) (plan : Plan D σ T)

/-- Calls with these counts deliver these tuples. -/
def Delivers (c : σ × ExecState D) (counts : List ℕ+) (tuples : List T) : Prop :=
  ∃ fuel, executeRuns db plan fuel (counts.map PNat.val) c = some tuples

/-- What the nodes above the scans do as long as they ask nothing of a scan. -/
def Plan.own (s : σ) : Pull.Output σ T :=
  match plan.demand s with
  | .deliver tuple next => .item tuple next
  | .finish next => .last next
  | _ => .failed s

/-- Calls with these counts ask nothing of a scan, and those behind the end of the plan deliver
nothing. -/
def Plan.Quiet : (ended : Bool) → List Nat → σ → Prop
  | _, [], _ => True
  | ended, n :: ns, s => ∃ fuel d, Pull.run plan.own fuel n s = some d ∧ d.ending ≠ .failed ∧
      (ended = true → d.items = []) ∧ Plan.Quiet (ended || d.ending = .ended) ns d.config

variable {plan}

theorem step_of_own (st : ExecState D) (s : σ) (alone : (plan.own s).isFailed = false) :
    plan.step db (s, st) = (plan.own s).map fun s => (s, st) := by
  unfold Plan.own at alone ⊢
  unfold Plan.step
  cases demand : plan.demand s with
  | row i resume =>
    rw [demand] at alone
    cases alone
  | rescan i next =>
    rw [demand] at alone
    cases alone
  | deliver tuple next => rfl
  | finish next => rfl

variable {db}

variable {fuel n fuel' : Nat} {d : Pull.Delivery (σ × ExecState D) T} {c : σ × ExecState D} {counts : List Nat}
  {tuples : List T}

theorem executePlan2_mono (result : executePlan2 db plan fuel n c = some d) (more : Nat) :
    executePlan2 db plan (fuel + more) n c = some d := by
  obtain ⟨d', run, rfl⟩ := map_eq_some_iff.1 result
  rw [executePlan2, Pull.run_mono run more]
  rfl

theorem executePlan2_unique {d' : Pull.Delivery (σ × ExecState D) T} (first : executePlan2 db plan fuel n c = some d)
    (second : executePlan2 db plan fuel' n c = some d') : d = d' := by
  have more := executePlan2_mono first fuel'
  rw [add_comm, executePlan2_mono second fuel] at more
  exact (Option.some.inj more).symm

theorem executeRuns_mono (result : executeRuns db plan fuel counts c = some tuples) (more : Nat) :
    executeRuns db plan (fuel + more) counts c = some tuples := by
  induction counts generalizing c tuples with
  | nil => exact result
  | cons n ns ih =>
    rw [executeRuns] at result ⊢
    split at result
    · cases result
    · next d first =>
      rw [executePlan2_mono first more]
      simp only
      split at result
      · next failed =>
        rw [if_pos failed]
        exact result
      · next succeeded =>
        rw [if_neg succeeded]
        obtain ⟨rest, later, rfl⟩ := map_eq_some_iff.1 result
        rw [ih later]
        rfl

/-- A call that asks nothing of a scan delivers what the nodes above the scans have. -/
theorem executePlan2_of_own {s : σ} {d : Pull.Delivery σ T} (result : Pull.run plan.own fuel n s = some d)
    (alone : d.ending ≠ .failed) (st : ExecState D) :
    ∃ st', executePlan2 db plan fuel n (s, st) = some ⟨d.items, d.ending, d.config, st'⟩ := by
  have run := Pull.run_embed (step_of_own db (enterPlan db plan st)) result alone
  rw [executePlan2, run, map_some]
  split
  · exact ⟨_, rfl⟩
  · exact ⟨_, rfl⟩

variable (db) in
/-- **Quiet calls** deliver what one call would, and nothing behind the end of the plan. -/
theorem Plan.Quiet.runs {ended : Bool} {s : σ} (quiet : plan.Quiet ended counts s) (st : ExecState D) :
    ∃ fuel tuples, executeRuns db plan fuel counts (s, st) = some tuples ∧ (ended = true → tuples = []) ∧
      (ended = false → ∀ st', ∃ fuel' d,
        Pull.run (plan.step db) fuel' counts.sum (s, st') = some d ∧ d.items = tuples) := by
  induction counts generalizing ended s st with
  | nil => exact ⟨0, [], rfl, fun _ => rfl, fun _ st' => ⟨0, _, Pull.run_zero .., rfl⟩⟩
  | cons n ns ih =>
    obtain ⟨fuel, d, own, alone, nothing, later⟩ := quiet
    obtain ⟨st₁, first⟩ := executePlan2_of_own own alone st
    obtain ⟨fuel₂, rest, runs, spent, going⟩ := ih later st₁
    refine ⟨fuel + fuel₂, d.items ++ rest, ?_, ?_, ?_⟩
    · rw [executeRuns, executePlan2_mono first fuel₂]
      simp only
      rw [if_neg alone, add_comm, executeRuns_mono runs fuel]
      rfl
    · intro isEnded
      rw [nothing isEnded, spent (by rw [isEnded]; rfl)]
      rfl
    · rintro rfl st'
      have run := Pull.run_embed (step_of_own db st') own alone
      rw [sum_cons]
      cases ending : d.ending with
      | failed => exact absurd ending alone
      | stopped =>
        rw [ending] at going
        obtain ⟨fuel', d', second, items⟩ := going rfl st'
        exact ⟨_, _, Pull.run_add run ending second, by rw [items]⟩
      | ended =>
        rw [ending] at spent
        rw [spent rfl, append_nil]
        refine ⟨_, _, Pull.run_add_of_not_stopped run ?_ _, rfl⟩
        rw [ending]
        decide

/-- Runs that come to an end agree. -/
theorem executeRuns_unique {tuples' : List T} (first : executeRuns db plan fuel counts c = some tuples)
    (second : executeRuns db plan fuel' counts c = some tuples') : tuples = tuples' := by
  have more := executeRuns_mono first fuel'
  rw [add_comm, executeRuns_mono second fuel] at more
  exact (Option.some.inj more).symm

/-- The tuples of one call. -/
theorem executeRuns_singleton : executeRuns db plan fuel [n] c = some tuples ↔
      ∃ d, Pull.run (plan.step db) fuel n (c.1, enterPlan db plan c.2) = some d ∧ d.items = tuples := by
  rw [executeRuns, executePlan2]
  cases run : Pull.run (plan.step db) fuel n (c.1, enterPlan db plan c.2) with
  | none => simp
  | some d =>
    by_cases ended : d.ending = .ended
    · simp [ended, executeRuns]
    · by_cases failed : d.ending = .failed
      · simp [failed]
      · simp [ended, failed, executeRuns]

/-- A first call, and the calls behind it. -/
theorem executeRuns_cons {ns : List Nat} {rest : List T} (first : executePlan2 db plan fuel n c = some d)
    (succeeded : d.ending ≠ .failed) (later : executeRuns db plan fuel' ns d.config = some rest) :
    executeRuns db plan (fuel + fuel') (n :: ns) c = some (d.items ++ rest) := by
  rw [executeRuns, executePlan2_mono first]
  simp only
  rw [if_neg succeeded, add_comm, executeRuns_mono later]
  rfl

/-- Calls whose later ones are quiet, and one call for all, both come to an end with the same
tuples, as soon as a run for the first count comes to an end. -/
theorem exists_executeRuns {ns : List Nat}
    (quiet : ∀ fuel d, executePlan2 db plan fuel n c = some d → d.ending ≠ .failed →
      plan.Quiet (d.ending = .ended) ns d.config.1)
    (run : Pull.run (plan.step db) fuel n (c.1, enterPlan db plan c.2) = some d) :
    ∃ fuel₁ fuel₂ tuples, executeRuns db plan fuel₁ (n :: ns) c = some tuples ∧
      executeRuns db plan fuel₂ [n + ns.sum] c = some tuples := by
  have first : executePlan2 db plan fuel n c =
      some (if d.ending = .ended then { d with config := (d.config.1, leavePlan plan d.config.2) } else d) := by
    rw [executePlan2, run]
    rfl
  cases ending : d.ending with
  | failed =>
    rw [ending, if_neg (by decide)] at first
    have whole := Pull.run_add_of_not_stopped run (by rw [ending]; decide) ns.sum
    refine ⟨fuel, fuel, d.items, ?_, executeRuns_singleton.2 ⟨d, whole, rfl⟩⟩
    rw [executeRuns, first]
    simp only
    rw [if_pos ending]
  | stopped =>
    rw [ending, if_neg (by decide)] at first
    have succeeded : d.ending ≠ .failed := by rw [ending]; decide
    have later := quiet fuel d first succeeded
    rw [ending] at later
    obtain ⟨fuel₂, rest, runs, -, going⟩ := later.runs db d.config.2
    obtain ⟨fuel₃, d', second, items⟩ := going rfl d.config.2
    have whole := Pull.run_add run ending second
    exact ⟨_, _, _, executeRuns_cons first succeeded runs, executeRuns_singleton.2 ⟨_, whole, by rw [items]⟩⟩
  | ended =>
    rw [ending, if_pos rfl] at first
    have later := quiet fuel _ first nofun
    obtain ⟨fuel₂, rest, runs, spent, -⟩ := later.runs db (leavePlan plan d.config.2)
    have whole := Pull.run_add_of_not_stopped run (by rw [ending]; decide) ns.sum
    have chunks := executeRuns_cons first nofun runs
    rw [spent rfl, append_nil] at chunks
    exact ⟨_, _, _, chunks, executeRuns_singleton.2 ⟨d, whole, rfl⟩⟩

theorem coe_foldl_add (n : ℕ+) (ns : List ℕ+) : (ns.foldl (· + ·) n : ℕ+).val = n.val + (ns.map PNat.val).sum := by
  induction ns generalizing n with
  | nil => rfl
  | cons m ns ih => rw [foldl_cons, ih, map_cons, sum_cons, PNat.add_coe, add_assoc]

/-- **Chunked execution equals one-shot execution** if the calls after the first one ask no scan
for rows. -/
theorem delivers_iff_oneShot {c : σ × ExecState D} {n : ℕ+} {ns : List ℕ+}
    (quiet : ∀ fuel d, executePlan2 db plan fuel n c = some d → d.ending ≠ .failed →
      plan.Quiet (d.ending = .ended) (ns.map PNat.val) d.config.1) (tuples : List T) :
    Delivers db plan c (n :: ns) tuples ↔ Delivers db plan c [ns.foldl (· + ·) n] tuples := by
  unfold Delivers
  rw [map_cons, map_singleton, coe_foldl_add]
  constructor
  · rintro ⟨fuel, chunks⟩
    have started : ∃ d, executePlan2 db plan fuel n c = some d := by
      rw [executeRuns] at chunks
      split at chunks
      · cases chunks
      · exact ⟨_, ‹_›⟩
    obtain ⟨d, first⟩ := started
    obtain ⟨d', run, -⟩ := map_eq_some_iff.1 first
    obtain ⟨fuel₁, fuel₂, delivered, chunks', oneShot⟩ := exists_executeRuns quiet run
    exact ⟨fuel₂, by rw [oneShot, executeRuns_unique chunks chunks']⟩
  · rintro ⟨fuel, oneShot⟩
    obtain ⟨whole, run, -⟩ := executeRuns_singleton.1 oneShot
    obtain ⟨d, run⟩ := Pull.exists_run_of_add run
    obtain ⟨fuel₁, fuel₂, delivered, chunks, oneShot'⟩ := exists_executeRuns quiet run
    exact ⟨fuel₁, by rw [chunks, executeRuns_unique oneShot oneShot']⟩

end

/-! ### A cursor over a scan -/

/-- A plan that is a scan, with a projection. -/
inductive ScanNode (D : Type) where
  | ask
  | got (values : Nat → Value D)
  | over

def scanPlan {D T : Type} (project : (Nat → Value D) → T) : Plan D (ScanNode D) T where
  visits := []
  scans := [⟨0, none⟩]
  demand
    | .ask => .row 0 fun
      | some values => .got values
      | none => .over
    | .got values => .deliver (project values) .ask
    | .over => .finish .ask

/-- A plan with a node that reads all rows before it returns the first. -/
inductive MaterialNode (T : Type) where
  | reading (rows : List T)
  | sending (rows : List T)
deriving DecidableEq

def materialPlan {D T : Type} (project : (Nat → Value D) → T) : Plan D (MaterialNode T) T where
  visits := []
  scans := [⟨0, none⟩]
  demand
    | .reading rows => .row 0 fun
      | some values => .reading (rows ++ [project values])
      | none => .sending rows
    | .sending [] => .finish (.sending [])
    | .sending (row :: rows) => .deliver row (.sending rows)

/-- A relation `t` with columns `a`, `b` and `c`, whose values are the bytes of the file. -/
def byteTable : Database Nat where
  rel := fun _ => { threeRows with input := fun _ bytes => some (bytes.headD 0).toNat }
  name := fun _ => "t"
  attrs := fun _ => ["a", "b", "c"]

/-- A session that has parsed `SELECT a FROM t`. -/
def parsedA : ExecState Nat where
  descriptor := QueryDescriptor.empty.addColumnInformation ⟨some "a", none, none, none, false⟩
  worlds := fun _ => .initial
  scans := []

/-- Above a node that has read its input, two calls for one tuple deliver what one call for two
delivers. -/
theorem delivers_iff_oneShot_material :
    Delivers byteTable (materialPlan fun values => values 0) (.reading [], parsedA) [1, 1]
        [.datum 49, .datum 52] ↔
      Delivers byteTable (materialPlan fun values => values 0) (.reading [], parsedA) [2]
        [.datum 49, .datum 52] :=
  @delivers_iff_oneShot _ _ _ _ _ _ 1 [1] (by
    intro fuel d first _
    have known : (executePlan2 byteTable (materialPlan fun values => values 0) 10 1
        (.reading [], parsedA)).map (fun d => (d.ending, d.config.1)) =
          some (.stopped, .sending [.datum 52, .datum 55]) := by
      decide +kernel
    obtain ⟨d', second, same⟩ := map_eq_some_iff.1 known
    obtain ⟨ending, node⟩ := Prod.mk.inj same
    rw [executePlan2_unique first second, ending, node]
    exact ⟨1, _, rfl, by decide, nofun, trivial⟩) _

/-- Two calls for one tuple deliver the first row twice. -/
theorem not_delivers_iff_oneShot_scan :
    Delivers byteTable (scanPlan fun values => values 0) (.ask, parsedA) [1, 1] [.datum 49, .datum 49] ∧
      Delivers byteTable (scanPlan fun values => values 0) (.ask, parsedA) [2] [.datum 49, .datum 52] :=
  ⟨⟨10, by decide +kernel⟩, ⟨10, by decide +kernel⟩⟩

end PostgresRaw
