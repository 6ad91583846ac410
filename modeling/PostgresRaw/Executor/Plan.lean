import PostgresRaw.Library.Pull
import PostgresRaw.Scan.Rescan
import PostgresRaw.Scan.Run
import PostgresRaw.Snooping.QueryDescriptor

/-!
# Plans

`ExecutePlan2` for any plan over registered relations.  The nodes above the scans are a machine
that asks scans for rows, rescans them, delivers tuples and finishes; its state is the part of
`planstate` that outlives a call of `ExecutePlan2`.  The scans do not: every call sets them up
anew from the query descriptor, and only the exit at the end of the plan cleans them up.
-/

namespace PostgresRaw

/-- The registered relations, with the names that the query descriptor knows them by. -/
structure Database (D : Type) where
  rel : Nat → Relation D
  name : Nat → String
  attrs : Nat → List String

/-- A scan node over a registered relation. -/
structure PlanScan (D : Type) where
  relation : Nat
  qual : Option ((Nat → Value D) → Bool)

/-- What `traversePlanTree` tells the query descriptor about: a `LIMIT` directly above a scan, and
the columns that it gets to see when it deparses the qual of a scan. -/
inductive PlanVisit where
  | limit (count : Nat)
  | qual (columns : List ColumnDescriptor)

/-- What the nodes above the scans do next. -/
inductive Demand (D σ T : Type) where
  /-- ask `ExecScan` for the next row -/
  | row (scan : Nat) (resume : Option (Nat → Value D) → σ)
  | rescan (scan : Nat) (next : σ)
  | deliver (tuple : T) (next : σ)
  /-- the plan returns an empty slot -/
  | finish (next : σ)

/-- A plan: what `traversePlanTree` meets, in its order, and the nodes above the scans. -/
structure Plan (D σ T : Type) where
  visits : List PlanVisit
  scans : List (PlanScan D)
  demand : σ → Demand D σ T

/-- What calls of `ExecutePlan2` share besides the nodes above the scans: the query descriptor and
what outlives the scans, by relation; and the scans of the current call. -/
structure ExecState (D : Type) where
  descriptor : QueryDescriptor
  worlds : Nat → World D
  scans : List (Scan D)

section

variable {D σ T : Type} (db : Database D) (plan : Plan D σ T)

/-- `traversePlanTree`. -/
def traversePlanTree (visits : List PlanVisit) (d : QueryDescriptor) : QueryDescriptor :=
  visits.foldl
    (fun d visit =>
      match visit with
      | .limit count => d.setQueryLimit count
      | .qual columns => d.visitQual columns)
    d

/-- What a scan is to read, from the query descriptor. -/
def scanQuery (d : QueryDescriptor) (scan : PlanScan D) : Query D where
  readAll := d.getQueryAttributes (db.attrs scan.relation) (db.name scan.relation)
  filterAtts := d.getQueryFilterAttributes (db.attrs scan.relation) (db.name scan.relation)
  qual := scan.qual
  limit := d.limit

/-- `NoDBScanOperatorInit` for the scans of the plan. -/
def startScans (scans : List (PlanScan D)) (st : ExecState D) : ExecState D :=
  scans.foldl
    (fun st scan =>
      let (w, s) := noDBScanStateInit (db.rel scan.relation) (st.worlds scan.relation)
        (scanQuery db st.descriptor scan)
      { st with worlds := Function.update st.worlds scan.relation w, scans := st.scans ++ [s] })
    { st with scans := [] }

/-- The set-up at the top of `ExecutePlan2`. -/
def enterPlan (st : ExecState D) : ExecState D :=
  startScans db plan.scans { st with descriptor := traversePlanTree plan.visits st.descriptor }

/-- The exit of `ExecutePlan2` that has seen the end of the plan. -/
def leavePlan (st : ExecState D) : ExecState D where
  descriptor := .empty
  worlds := (plan.scans.zip st.scans).foldl
    (fun worlds (scan, s) => Function.update worlds scan.relation (endQuery (worlds scan.relation) s)) st.worlds
  scans := []

/-- Store what a scan leaves. -/
def ExecState.store (st : ExecState D) (scan relation : Nat) (w : World D) (s : Scan D) : ExecState D :=
  { st with worlds := Function.update st.worlds relation w, scans := st.scans.set scan s }

/-- One step of the plan.  `ExecScan` asks again if a row does not pass the qual. -/
def Plan.step (c : σ × ExecState D) : Pull.Output (σ × ExecState D) T :=
  match plan.demand c.1 with
  | .row i resume =>
    match plan.scans[i]?, c.2.scans[i]? with
    | some scan, some s =>
      match execNoDBPlan (db.rel scan.relation) (c.2.worlds scan.relation) s with
      | (.tuple values true, w, s) => .silent (resume (some values), c.2.store i scan.relation w s)
      | (.tuple _ false, w, s) => .silent (c.1, c.2.store i scan.relation w s)
      | (.done, w, s) => .silent (resume none, c.2.store i scan.relation w s)
      | (_, w, s) => .failed (c.1, c.2.store i scan.relation w s)
    | _, _ => .failed c
  | .rescan i next =>
    match plan.scans[i]?, c.2.scans[i]? with
    | some scan, some s =>
      match noDBScanStateReInit (db.rel scan.relation) (c.2.worlds scan.relation) s with
      | some (w, s) => .silent (next, c.2.store i scan.relation w s)
      | none => .failed c
    | _, _ => .failed c
  | .deliver tuple next => .item tuple (next, c.2)
  | .finish next => .last (next, c.2)

/-- `ExecutePlan2` with a tuple count, which is not 0. -/
def executePlan2 (fuel numberTuples : Nat) (c : σ × ExecState D) :
    Option (Pull.Delivery (σ × ExecState D) T) :=
  (Pull.run (plan.step db) fuel numberTuples (c.1, enterPlan db plan c.2)).map fun d =>
    if d.ending = .ended then { d with config := (d.config.1, leavePlan plan d.config.2) } else d

/-- Calls of `ExecutePlan2` with these counts on one query descriptor: the tuples delivered.  An
error ends the query. -/
def executeRuns (fuel : Nat) : List Nat → σ × ExecState D → Option (List T)
  | [], _ => some []
  | n :: ns, c =>
    match executePlan2 db plan fuel n c with
    | none => none
    | some d =>
      if d.ending = .failed then some d.items
      else (executeRuns fuel ns d.config).map (d.items ++ ·)

end

end PostgresRaw
