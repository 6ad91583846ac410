import PostgresRaw.Snooping.QueryDescriptor

/-!
# Parsing and executing statements

There is one query descriptor for all statements of a session.  Parsing a statement adds to it,
and the end of any execution empties it.  So an execution sees what the statements parsed since
the last execution have collected, and the columns of its own quals, which the executor adds;
`seesItsColumns_iff` says exactly when these include the columns that it refers to.
-/

namespace PostgresRaw

open List QueryDescriptor

/-- What the parser and the rewriter call while they resolve the names of a statement. -/
inductive ParseCall where
  | status (newStatus : ParseStatus)
  | column (c : ColumnDescriptor)
  | tableAlias (entry : AliasMapEntry)
deriving DecidableEq

namespace ParseCall

def apply (d : QueryDescriptor) : ParseCall → QueryDescriptor
  | .status newStatus => changeParseStatus newStatus d
  | .column c => addColumnInformation c d
  | .tableAlias entry => addTableAliasInformation entry d

/-- The references among the calls. -/
def columns (calls : List ParseCall) : List ColumnDescriptor :=
  calls.filterMap fun
    | .column c => some c
    | _ => none

/-- The aliases among the calls. -/
def aliases (calls : List ParseCall) : List AliasMapEntry :=
  calls.filterMap fun
    | .tableAlias entry => some entry
    | _ => none

/-- The alias map that the calls leave: it takes the first fifty different aliases. -/
def aliasMap (calls : List ParseCall) : List AliasMapEntry := (aliases calls).foldl addAlias []

end ParseCall

/-- The relations and their columns. -/
structure Catalog where
  attrs : String → List String
  distinct : ∀ relation, (attrs relation).Nodup

/-- A statement: the calls made when it is parsed, the columns of the quals of its scans, which
the executor names when it deparses them, and the columns that it refers to, with their relations. -/
structure Statement (catalog : Catalog) where
  calls : List ParseCall
  quals : List (List ColumnDescriptor)
  refers : List (String × String)
  resolved : ∀ ref ∈ refers, ref.2 ∈ catalog.attrs ref.1
  /-- parsing calls `addColumnInformation` for every reference, and `addTableAliasInformation` for
  the aliases used in them -/
  collected : ∀ ref ∈ refers, ∃ c ∈ ParseCall.columns calls, Names (ParseCall.aliases calls) c ref.1 ref.2

inductive SessionEvent (catalog : Catalog) where
  | parse (s : Statement catalog)
  /-- run a statement that has been parsed to its end -/
  | execute (s : Statement catalog)

variable {catalog : Catalog}

/-- What events do to the descriptor: the end of an execution is `resetQueryDescriptor`. -/
def SessionEvent.apply (d : QueryDescriptor) : SessionEvent catalog → QueryDescriptor
  | .parse s => s.calls.foldl ParseCall.apply d
  | .execute _ => .empty

/-- The descriptor after a sequence of events. -/
def descriptorAfter (events : List (SessionEvent catalog)) : QueryDescriptor :=
  events.foldl SessionEvent.apply .empty

/-- The part of `traversePlanTree` that deparses the quals of the scans. -/
def traverseQuals (quals : List (List ColumnDescriptor)) (d : QueryDescriptor) : QueryDescriptor :=
  quals.foldl (fun d columns => visitQual columns d) d

/-- **An execution sees its columns**: for every relation, `getQueryAttributes` finds those that
the statement refers to. -/
def SeesItsColumns (d : QueryDescriptor) (s : Statement catalog) : Prop :=
  ∀ ref ∈ s.refers, ∀ j, (catalog.attrs ref.1)[j]? = some ref.2 →
    j ∈ getQueryAttributes (catalog.attrs ref.1) ref.1 (traverseQuals s.quals d)

/-- The calls of the statements that have been parsed since the last execution. -/
def pending (events : List (SessionEvent catalog)) : List ParseCall :=
  events.foldl
    (fun calls event =>
      match event with
      | .parse s => calls ++ s.calls
      | .execute _ => [])
    []

/-! ### What the descriptor holds -/

theorem descriptorAfter_eq (events : List (SessionEvent catalog)) :
    descriptorAfter events = (pending events).foldl ParseCall.apply .empty := by
  have run : ∀ (d : QueryDescriptor) (calls : List ParseCall), d = calls.foldl ParseCall.apply .empty →
      events.foldl SessionEvent.apply d =
        (events.foldl
          (fun calls event =>
            match event with
            | .parse s => calls ++ s.calls
            | .execute _ => [])
          calls).foldl ParseCall.apply .empty := by
    induction events with
    | nil => exact fun d calls same => same
    | cons event events ih =>
      intro d calls same
      rw [foldl_cons, foldl_cons]
      refine ih _ _ ?_
      cases event with
      | parse s => rw [SessionEvent.apply, same, foldl_append]
      | execute s => rfl
  exact run .empty [] rfl

theorem mem_foldl_apply {calls : List ParseCall} {d : QueryDescriptor} {c : ColumnDescriptor} :
    c ∈ (calls.foldl ParseCall.apply d).allAttributes ↔ c ∈ d.allAttributes ∨ c ∈ ParseCall.columns calls := by
  induction calls generalizing d with
  | nil => simp [ParseCall.columns]
  | cons call calls ih =>
    rw [foldl_cons, ih]
    cases call with
    | status newStatus => simp [ParseCall.apply, changeParseStatus, ParseCall.columns]
    | column c' => simp [ParseCall.apply, mem_addColumnInformation, ParseCall.columns, or_assoc]
    | tableAlias entry => simp [ParseCall.apply, addTableAliasInformation, ParseCall.columns]

theorem foldl_apply_aliasMap (calls : List ParseCall) (d : QueryDescriptor) :
    (calls.foldl ParseCall.apply d).aliasMap = (ParseCall.aliases calls).foldl addAlias d.aliasMap := by
  induction calls generalizing d with
  | nil => rfl
  | cons call calls ih =>
    rw [foldl_cons, ih]
    cases call with
    | status newStatus => rfl
    | column c =>
      rw [ParseCall.apply, addColumnInformation_aliasMap]
      rfl
    | tableAlias entry =>
      rw [ParseCall.apply, addTableAliasInformation_aliasMap]
      rfl

/-- Deparsing the quals adds their columns. -/
theorem traverseQuals_spec (quals : List (List ColumnDescriptor)) (d : QueryDescriptor) :
    (traverseQuals quals d).aliasMap = d.aliasMap ∧
      ∀ c, c ∈ (traverseQuals quals d).allAttributes ↔ c ∈ d.allAttributes ∨ c ∈ quals.flatten := by
  unfold traverseQuals
  induction quals generalizing d with
  | nil => exact ⟨rfl, by simp⟩
  | cons columns quals ih =>
    obtain ⟨aliasMap, attributes⟩ := ih (visitQual columns d)
    refine ⟨aliasMap.trans (visitQual_spec columns d).1, fun c => ?_⟩
    rw [foldl_cons, attributes, (visitQual_spec columns d).2, flatten_cons, mem_append, or_assoc]

/-! ### What an execution sees -/

/-- The columns of a relation that an execution finds. -/
theorem mem_getQueryAttributes_after (before : List (SessionEvent catalog)) (quals : List (List ColumnDescriptor))
    {relation column : String} {j : Nat} (here : (catalog.attrs relation)[j]? = some column) :
    j ∈ getQueryAttributes (catalog.attrs relation) relation (traverseQuals quals (descriptorAfter before)) ↔
      ∃ c ∈ ParseCall.columns (pending before) ++ quals.flatten,
        Names (ParseCall.aliasMap (pending before)) c relation column := by
  obtain ⟨aliasMap, attributes⟩ := traverseQuals_spec quals (descriptorAfter before)
  have recorded : (descriptorAfter before).aliasMap = ParseCall.aliasMap (pending before) := by
    rw [descriptorAfter_eq, foldl_apply_aliasMap]
    rfl
  have collected : ∀ c, c ∈ (descriptorAfter before).allAttributes ↔
      c ∈ ParseCall.columns (pending before) := by
    intro c
    rw [descriptorAfter_eq, mem_foldl_apply]
    exact or_iff_right not_mem_nil
  rw [mem_getQueryAttributes (catalog.distinct relation) here, aliasMap, recorded]
  refine exists_congr fun c => and_congr_left fun _ => ?_
  rw [attributes, collected, mem_append]

/-- **Every execution sees its own columns** exactly if each of them is named by a reference of a
statement that has been parsed since the last execution, or by a qual of the statement itself. -/
theorem seesItsColumns_iff (before : List (SessionEvent catalog)) (s : Statement catalog) :
    SeesItsColumns (descriptorAfter before) s ↔
      ∀ ref ∈ s.refers, ∃ c ∈ ParseCall.columns (pending before) ++ s.quals.flatten,
        Names (ParseCall.aliasMap (pending before)) c ref.1 ref.2 := by
  constructor
  · intro sees ref mem
    obtain ⟨j, here⟩ := getElem?_of_mem (s.resolved ref mem)
    exact (mem_getQueryAttributes_after before s.quals here).1 (sees ref mem j here)
  · intro named ref mem j here
    exact (mem_getQueryAttributes_after before s.quals here).2 (named ref mem)

theorem mem_foldl_addAlias {entries aliasMap : List AliasMapEntry}
    (room : aliasMap.length + entries.length ≤ numberOfRelations) {entry : AliasMapEntry}
    (mem : entry ∈ aliasMap ∨ entry ∈ entries) : entry ∈ entries.foldl addAlias aliasMap := by
  induction entries generalizing aliasMap with
  | nil => exact mem.resolve_right not_mem_nil
  | cons next entries ih =>
    rw [length_cons] at room
    rw [foldl_cons]
    rw [mem_cons] at mem
    unfold addAlias
    split
    · next known =>
      refine ih (by omega) (mem.elim .inl fun h => h.elim (fun same => .inl ?_) .inr)
      obtain ⟨other, there, equal⟩ := any_eq_true.1 known
      have : other = next := by
        cases other
        cases next
        simp_all
      rw [same, ← this]
      exact there
    · rw [if_pos (by omega)]
      refine ih (by rw [length_append, length_singleton]; omega) ?_
      rw [mem_append, mem_singleton, or_assoc]
      exact mem

/-- A statement that is executed before another execution has ended sees its columns, as long as
the alias map has room. -/
theorem seesItsColumns_of_pending {before : List (SessionEvent catalog)} {s : Statement catalog}
    (parsed : ∀ call ∈ s.calls, call ∈ pending before)
    (room : (ParseCall.aliases (pending before)).length ≤ numberOfRelations) :
    SeesItsColumns (descriptorAfter before) s := by
  intro ref mem j here
  obtain ⟨c, collected, names⟩ := s.collected ref mem
  obtain ⟨call, there, isColumn⟩ := mem_filterMap.1 collected
  refine (mem_getQueryAttributes_after before s.quals here).2 ⟨c, mem_append_left _ (mem_filterMap.2 ⟨call, parsed call there, isColumn⟩),
    names.mono fun entry recorded => ?_⟩
  obtain ⟨call, there, isAlias⟩ := mem_filterMap.1 recorded
  exact mem_foldl_addAlias (by rw [length_nil, Nat.zero_add]; exact room)
    (.inr (mem_filterMap.2 ⟨call, parsed call there, isAlias⟩))

/-! ### A statement that is executed twice -/

/-- A relation `t` with a column `a`. -/
def oneColumn : Catalog where
  attrs := fun relation => if relation = "t" then ["a"] else []
  distinct := by
    intro relation
    split <;> decide

/-- `SELECT a FROM t`. -/
def selectA : Statement oneColumn where
  calls := [.status .targetList, .column ⟨some "a", none, none, none, false⟩]
  quals := []
  refers := [("t", "a")]
  resolved := by decide
  collected := by
    intro ref mem
    rw [mem_singleton.1 mem]
    exact ⟨_, mem_singleton_self _, rfl, .inr rfl⟩

/-- The first execution sees the column, the second one sees none. -/
theorem not_seesItsColumns_twice :
    SeesItsColumns (descriptorAfter [.parse selectA]) selectA ∧
      ¬ SeesItsColumns (descriptorAfter [.parse selectA, .execute selectA]) selectA := by
  constructor
  · exact seesItsColumns_of_pending (fun call mem => mem) (by decide)
  · intro sees
    have found := sees ("t", "a") (mem_singleton_self _) 0 (by decide)
    exact absurd found (by decide)

end PostgresRaw
