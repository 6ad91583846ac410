import PostgresRaw.Executor.Plan

/-!
# The scans of a plan

`traversePlanTree` goes through a tree of plan states and its plans in parallel, collects the scan states,
and tells the query descriptor about quals and limits on its way.  It is a copy of the executor's own
walker, `planstate_tree_walker`, but two kinds of nodes have been left out: the member plans of a
`MergeAppend` and of a `CustomScan` are not visited.

Both are one recursion with a different choice of the nodes whose member plans are visited
(`PlanStateTree.collect`).  `traversePlanTree_once_iff` says that the scans below members of the two kinds
are the only ones that are missed.
-/

namespace PostgresRaw

open List

/-- The kinds of plan nodes. -/
inductive PlanTag where
  | result | modifyTable | append | mergeAppend | recursiveUnion | bitmapAnd | bitmapOr
  | seqScan | sampleScan | indexScan | indexOnlyScan | bitmapIndexScan | bitmapHeapScan | tidScan
  | subqueryScan | functionScan | valuesScan | cteScan | workTableScan | foreignScan | customScan
  | nestLoop | mergeJoin | hashJoin | material | sort | group | agg | windowAgg | unique | gather | hash
  | setOp | lockRows | limit
deriving DecidableEq, Repr

/-- What is read of one plan state and its plan. -/
structure PlanStateHead where
  tag : PlanTag
  /-- which plan state it is -/
  id : Nat
  /-- an index scan with runtime keys that are not ready -/
  keysPending : Bool
  /-- the columns that deparsing the qual reports, if there is one -/
  qual : Option (List ColumnDescriptor)
  /-- `count` of a `LimitState` after `recompute_limits` -/
  count : Nat

/-- A plan state with the plan states below it.  The members are those of `ModifyTable`, `Append`,
`MergeAppend`, `BitmapAnd`, `BitmapOr` and `CustomScan`, and the subplan of `SubqueryScan`. -/
inductive PlanStateTree where
  | null
  | node (head : PlanStateHead) (initPlan : List PlanStateTree) (lefttree righttree : PlanStateTree)
      (members subPlan : List PlanStateTree)

/-- The kind of the node, if there is one. -/
def PlanStateTree.tag : PlanStateTree → Option PlanTag
  | .null => none
  | .node head .. => some head.tag

section

variable {α β : Type} (visits : PlanTag → Bool) (own : PlanStateHead → PlanStateTree → List α)

mutual

/-- Collect something from every plan state in the order of the executor; the members of a node are
visited if its kind is one of those given. -/
def PlanStateTree.collect : PlanStateTree → List α
  | .null => []
  | .node head initPlan lefttree righttree members subPlan =>
    own head lefttree ++ collectAll initPlan ++ lefttree.collect ++ righttree.collect ++
      (if visits head.tag then collectAll members else []) ++ collectAll subPlan

def PlanStateTree.collectAll : List PlanStateTree → List α
  | [] => []
  | tree :: trees => tree.collect ++ PlanStateTree.collectAll trees

end

end

/-! ### The two walks -/

/-- The nodes whose members `planstate_tree_walker` visits. -/
def PlanTag.walked : PlanTag → Bool
  | .modifyTable | .append | .mergeAppend | .bitmapAnd | .bitmapOr | .subqueryScan | .customScan => true
  | _ => false

/-- The nodes whose members `traversePlanTree` visits. -/
def PlanTag.traversed : PlanTag → Bool
  | .modifyTable | .append | .bitmapAnd | .bitmapOr | .subqueryScan => true
  | _ => false

/-- The scan nodes that `traversePlanTree` looks at. -/
def PlanTag.isScan : PlanTag → Bool
  | .indexScan | .seqScan | .bitmapHeapScan | .tidScan | .subqueryScan | .functionScan | .valuesScan | .cteScan
  | .workTableScan => true
  | _ => false

/-- `getProperScanState` for one of these nodes. -/
def getProperScanState (head : PlanStateHead) : Option PlanStateHead :=
  if head.tag = .indexScan ∧ head.keysPending then none else some head

namespace PlanStateTree

/-- `traversePlanTree`: the scan states. -/
def traversePlanTree (tree : PlanStateTree) : List PlanStateHead :=
  tree.collect PlanTag.traversed fun head _ => if head.tag.isScan then (getProperScanState head).toList else []

/-- `traversePlanTree`: what the query descriptor is told.  The limit is the one of a `Limit` node without
a right tree above a sequential scan. -/
def visits (tree : PlanStateTree) : List PlanVisit :=
  tree.collect PlanTag.traversed fun head lefttree =>
    if head.tag.isScan then (head.qual.map PlanVisit.qual).toList
    else if head.tag = .limit ∧ lefttree.tag = some .seqScan then [.limit head.count]
    else []

/-- The plan state is one of a sequential scan. -/
def seqScanId (head : PlanStateHead) : Option Nat := if head.tag = .seqScan then some head.id else none

/-- The sequential scans that `planstate_tree_walker` meets. -/
def seqScans (tree : PlanStateTree) : List Nat :=
  tree.collect PlanTag.walked fun head _ => (seqScanId head).toList

def seqScansAll (trees : List PlanStateTree) : List Nat :=
  collectAll PlanTag.walked (fun head _ => (seqScanId head).toList) trees

/-! ### Comparing them -/

section

variable {α β : Type} {own : PlanStateHead → PlanStateTree → List α}

mutual

theorem filterMap_collect (visits : PlanTag → Bool) (f : α → Option β) (tree : PlanStateTree) :
    (tree.collect visits own).filterMap f = tree.collect visits fun head left => (own head left).filterMap f := by
  cases tree with
  | null => rfl
  | node head initPlan lefttree righttree members subPlan =>
    simp only [collect, filterMap_append, filterMap_collectAll visits f initPlan,
      filterMap_collect visits f lefttree, filterMap_collect visits f righttree, filterMap_collectAll visits f subPlan]
    split
    · rw [filterMap_collectAll visits f members]
    · rfl

theorem filterMap_collectAll (visits : PlanTag → Bool) (f : α → Option β) (trees : List PlanStateTree) :
    (collectAll visits own trees).filterMap f = collectAll visits (fun head left => (own head left).filterMap f) trees := by
  cases trees with
  | nil => rfl
  | cons tree trees =>
    simp only [collectAll, filterMap_append, filterMap_collect visits f tree, filterMap_collectAll visits f trees]

end

end

theorem traversed_walked {tag : PlanTag} (traversed : tag.traversed = true) : tag.walked = true := by
  cases tag <;> first | rfl | cases traversed

/-- The sequential scans that `traversePlanTree` finds. -/
def found (tree : PlanStateTree) : List Nat := tree.collect PlanTag.traversed fun head _ => (seqScanId head).toList

def foundAll (trees : List PlanStateTree) : List Nat :=
  collectAll PlanTag.traversed (fun head _ => (seqScanId head).toList) trees

theorem filterMap_traversePlanTree (tree : PlanStateTree) : tree.traversePlanTree.filterMap seqScanId = tree.found := by
  rw [traversePlanTree, filterMap_collect, found]
  congr
  funext head _
  unfold seqScanId
  split
  · split
    · next isScan isSeqScan =>
      rw [getProperScanState, if_neg fun both => by rw [isSeqScan] at both; exact absurd both.1 (by decide)]
      simp [isSeqScan]
    · unfold getProperScanState
      split <;> simp [*]
  · next noScan =>
    rw [if_neg]
    · rfl
    · intro isSeqScan
      rw [isSeqScan] at noScan
      exact noScan rfl

mutual

/-- **No sequential scan is below a member plan that is not visited.** -/
def AllVisited : PlanStateTree → Prop
  | .null => True
  | .node head initPlan lefttree righttree members subPlan =>
    AllVisitedIn initPlan ∧ lefttree.AllVisited ∧ righttree.AllVisited ∧
      (if head.tag.traversed then AllVisitedIn members else head.tag.walked = true → seqScansAll members = []) ∧
      AllVisitedIn subPlan

def AllVisitedIn : List PlanStateTree → Prop
  | [] => True
  | tree :: trees => tree.AllVisited ∧ AllVisitedIn trees

end

/-- The members of one node, given what is found below them. -/
theorem members_spec (tag : PlanTag) {found all : List Nat} {visited : Prop}
    (below : found.Sublist all ∧ (found.length = all.length ↔ visited)) :
    (if tag.traversed then found else []).Sublist (if tag.walked then all else []) ∧
      ((if tag.traversed then found else []).length = (if tag.walked then all else []).length ↔
        if tag.traversed then visited else tag.walked = true → all = []) := by
  by_cases traversed : tag.traversed = true
  · simp only [if_pos traversed, if_pos (traversed_walked traversed)]
    exact below
  · simp only [if_neg traversed]
    refine ⟨nil_sublist _, ?_⟩
    by_cases walked : tag.walked = true
    · rw [if_pos walked, length_nil, eq_comm, length_eq_zero_iff]
      exact ⟨fun none _ => none, fun none => none walked⟩
    · rw [if_neg walked]
      exact iff_of_true rfl fun isWalked => absurd isWalked walked

mutual

/-- What is found are some of the scans, and all of them only if none is below such a member plan. -/
theorem found_spec (tree : PlanStateTree) :
    tree.found.Sublist tree.seqScans ∧ (tree.found.length = tree.seqScans.length ↔ tree.AllVisited) := by
  cases tree with
  | null => exact ⟨.refl _, iff_of_true rfl trivial⟩
  | node head initPlan lefttree righttree members subPlan =>
    obtain ⟨initSub, initLength⟩ := foundAll_spec initPlan
    obtain ⟨leftSub, leftLength⟩ := found_spec lefttree
    obtain ⟨rightSub, rightLength⟩ := found_spec righttree
    obtain ⟨subSub, subLength⟩ := foundAll_spec subPlan
    obtain ⟨memberSub, memberLength⟩ := members_spec head.tag (foundAll_spec members)
    refine ⟨((((List.Sublist.refl _).append initSub).append leftSub).append rightSub |>.append memberSub).append subSub, ?_⟩
    have := initSub.length_le
    have := leftSub.length_le
    have := rightSub.length_le
    have := memberSub.length_le
    have := subSub.length_le
    change (_ ++ foundAll initPlan ++ lefttree.found ++ righttree.found ++
      (if head.tag.traversed then foundAll members else []) ++ foundAll subPlan).length =
        (_ ++ seqScansAll initPlan ++ lefttree.seqScans ++ righttree.seqScans ++
          (if head.tag.walked then seqScansAll members else []) ++ seqScansAll subPlan).length ↔ _ ∧ _ ∧ _ ∧ _ ∧ _
    rw [← initLength, ← leftLength, ← rightLength, ← memberLength, ← subLength]
    simp only [length_append]
    omega

theorem foundAll_spec (trees : List PlanStateTree) : (foundAll trees).Sublist (seqScansAll trees) ∧
      ((foundAll trees).length = (seqScansAll trees).length ↔ AllVisitedIn trees) := by
  cases trees with
  | nil => exact ⟨.refl _, iff_of_true rfl trivial⟩
  | cons tree trees =>
    obtain ⟨headSub, headLength⟩ := found_spec tree
    obtain ⟨tailSub, tailLength⟩ := foundAll_spec trees
    refine ⟨headSub.append tailSub, ?_⟩
    have := headSub.length_le
    have := tailSub.length_le
    change (tree.found ++ foundAll trees).length = (tree.seqScans ++ seqScansAll trees).length ↔ _ ∧ _
    rw [← headLength, ← tailLength, length_append, length_append]
    omega

end

end PlanStateTree

/-! ### Two plans -/

/-- A plan state without quals. -/
def plainHead (tag : PlanTag) (id : Nat) : PlanStateHead := ⟨tag, id, false, none, 0⟩

def seqScanNode (id : Nat) : PlanStateTree := .node (plainHead .seqScan id) [] .null .null [] []

def sortNode (id : Nat) (input : PlanStateTree) : PlanStateTree := .node (plainHead .sort id) [] input .null [] []

/-- A union of two tables. -/
def appendPlan : PlanStateTree := .node (plainHead .append 0) [] .null .null [seqScanNode 1, seqScanNode 2] []

/-- A union of two tables that is sorted by merging them. -/
def mergeAppendPlan : PlanStateTree :=
  .node (plainHead .mergeAppend 0) [] .null .null [sortNode 1 (seqScanNode 2), sortNode 3 (seqScanNode 4)] []

end PostgresRaw
