import PostgresRaw.Scan.Kept
import PostgresRaw.Scan.Phase
import PostgresRaw.Strategy.Room

/-!
# Reachable caches

What a session of queries with one scan each can leave behind: `Reached`.  A query runs until the
executor sees the end of the data, or is stopped by the node above its scan; a query that ends
with an error gets no clean-up and is not one of them.

A row step changes `NoDBCaches` in three ways: slots are written, used rows are set, and the next
node is planned.  `Reached.caches_induction` makes a rule for properties of `NoDBCaches` of this.
-/

namespace PostgresRaw

open Option List

section

variable {D : Type}

/-- The steps got to where they were to be stopped, or to the end of the data. -/
def RowRun.reachesEnd (run : RowRun D) : Bool :=
  match run.ending with
  | none => true
  | some .done => true
  | _ => false

/-- The worlds that sequences of queries leave behind. -/
inductive Reached (rel : Relation D) : World D → Prop where
  | initial : Reached rel .initial
  | query {w : World D} (reached : Reached rel w) (q : Query D) (n : Nat)
      (ends : (startAndRun rel n w q).reachesEnd = true) :
      Reached rel (endQuery (startAndRun rel n w q).world (startAndRun rel n w q).scan)

/-! ### What happens to the caches -/

/-- A property of `NoDBCaches` that writing slots, setting used rows and planning keep. -/
structure CachesKept (byValue : Nat → Bool) (I : List (Cache D) → Prop) : Prop where
  write : ∀ {n : Strategy} {row : Nat} {values : Nat → Value D} {attributes : Nat → PMPair}
    {caches caches' : List (Cache D)}, writeCaches n row values attributes caches = some caches' →
      I caches → I caches'
  finalize : ∀ (n : Strategy) (processed : Nat) {caches : List (Cache D)}, I caches →
    I (noDBFinalizeStrategy n processed caches)
  plan : ∀ (q : QueryInfo) (rows : List Nat) {caches : List (Cache D)}, I caches →
    I (buildStrategy byValue q rows caches).2

variable {I : List (Cache D) → Prop} {rel : Relation D} {caches : List (Cache D)}

theorem CachesKept.world (kept : CachesKept rel.byValue I) :
    WorldKept rel fun w => I w.caches where
  write := kept.write
  finalize n processed _ inv := kept.finalize n processed inv
  plan q rows _ inv := kept.plan q rows inv
  eol _ _ inv := inv
  locks _ _ _ inv := inv

/-- **A property that every step keeps holds of all reachable caches.** -/
theorem Reached.caches_induction (kept : CachesKept rel.byValue I) (empty : I []) {w : World D}
    (reached : Reached rel w) : I w.caches := by
  induction reached with
  | initial => exact empty
  | query _ q n _ ih => exact kept.finalize _ _ (kept.world.startAndRun n q ih)

/-! ### Row layouts -/

theorem writeEntries_induction {set : Cache D → List Nat → Option (Cache D)} {entries : List ColumnsPerCache}
    {caches' : List (Cache D)} (written : writeEntries set entries caches = some caches') (start : I caches)
    (step : ∀ {caches i cache cols cache'}, caches[i]? = some cache → set cache cols = some cache' →
      I caches → I (caches.set i cache')) : I caches' := by
  refine Lists.foldlM_invariant (fun _ caches => I caches) start written ?_
  intro _ entry caches caches' _ inv result
  obtain ⟨cache, here, result⟩ := bind_eq_some_iff.1 result
  obtain ⟨cache', stored, result⟩ := bind_eq_some_iff.1 result
  cases result
  exact step here stored inv

theorem sameShape_set {i : Nat} {cache cache' : Cache D} (here : caches[i]? = some cache)
    (alike : cache'.erase = cache.erase) : SameShape caches (caches.set i cache') := by
  refine ext_getElem? fun k => ?_
  rw [getElem?_map, getElem?_map]
  by_cases same : i = k
  · subst same
    have inside := (List.getElem?_eq_some_iff.1 here).1
    rw [getElem?_set_self inside, here, map_some, map_some, alike]
  · rw [getElem?_set_ne same]

/-- Writing slots keeps the shape. -/
theorem sameShape_writeCaches {n : Strategy} {row : Nat} {values : Nat → Value D} {attributes : Nat → PMPair}
    {caches' : List (Cache D)} (written : writeCaches n row values attributes caches = some caches') :
    SameShape caches caches' := by
  have keeps : ∀ {cell : Nat → Cell D} {list : List (Cache D)} {i cache cols cache'},
      list[i]? = some cache → cache.setCells cols row cell = some cache' → SameShape caches list →
        SameShape caches (list.set i cache') := by
    intro cell list i cache cols cache' here stored same
    refine same.trans (sameShape_set here ?_)
    unfold Cache.setCells at stored
    split at stored
    · cases stored
      rfl
    · cases stored
  obtain ⟨first, byValue, written⟩ := bind_eq_some_iff.1 written
  obtain ⟨second, byRef, positions⟩ := bind_eq_some_iff.1 written
  exact writeEntries_induction positions
    (writeEntries_induction byRef (writeEntries_induction byValue (.refl caches) keeps) keeps) keeps

/-- The layouts are those that adding columns leaves. -/
theorem cachesKept_allPacked (byValue : Nat → Bool) : CachesKept byValue (AllPacked (D := D)) where
  write written packed := (sameShape_writeCaches written).allPacked packed
  finalize n processed _ packed := (sameShape_noDBFinalizeStrategy n processed _).allPacked packed
  plan q rows _ packed := (buildMatrix_reads q rows packed).2.1

theorem Reached.allPacked {w : World D} (reached : Reached rel w) : AllPacked w.caches :=
  reached.caches_induction (cachesKept_allPacked rel.byValue) nofun

end

/-! ### A cache without a buffer -/

/-- The caches after column 0 has been read up to the second row, and column 1 to the end. -/
def twoEnds : World Nat :=
  let first := startAndRun threeRows 2 .initial (selectColumn 0 0)
  let second := startAndRun threeRows 4 (endQuery first.world first.scan) (selectColumn 1 0)
  endQuery second.world second.scan

theorem reached_twoEnds : Reached threeRows twoEnds :=
  .query (.query .initial (selectColumn 0 0) 2 (by decide +kernel)) (selectColumn 1 0) 4 (by decide +kernel)

end PostgresRaw
