import PostgresRaw.Library.Links
import PostgresRaw.Library.Lists
import Mathlib.Algebra.Ring.Nat
import Mathlib.Data.List.Pairwise

/-!
# Arenas

`NoDBArena.c` hands out memory from four arenas.  The blocks of an arena are chained from a static head block, which
has no room; the last one is where memory is taken from.  Freeing an arena puts its chain in front of the free list,
which all arenas share, and `NoDBArenaAlloc` takes blocks from there before it asks `malloc`.  A block from the free
list may be too small; then it stays in the chain, and the next one is taken.

Addresses and sizes are 64-bit words.  `roundUp`, the test for room and the size of a new block are computed modulo
`2 ^ 64`, as the machine does.  `malloc` is not part of the program: `Malloc` is what it promises.

`Separated` says what the arenas are for: every block is in exactly one of the five lists, and no two allocations
that are still valid overlap.  **What is load-bearing** is that sizes do not wrap.  For sizes of up to `2 ^ 63` bytes it
holds in every state that calls can lead to (`ArenaRun.separated`).
-/

namespace PostgresRaw

open Function List

/-- `NoDBArena_t`. -/
inductive ArenaName where
  | strategy
  | iterator
  | query
  | cache
deriving DecidableEq, Repr

/-- Where a block is: one of the static blocks `first`, or at an address that `malloc` has returned. -/
inductive BlockRef where
  | first (a : ArenaName)
  | heap (address : Nat)
deriving DecidableEq, Repr

/-- `ArenaBlock_t`.  `limit` and `avail` are addresses; `next` is never one of the static blocks. -/
structure ArenaBlock where
  limit : Nat
  avail : Nat
  next : Option Nat
deriving DecidableEq, Repr

/-- The variables of the module.  `mallocs` records what has been obtained from `malloc`: addresses and sizes. -/
structure ArenaState where
  block : BlockRef → ArenaBlock
  arena : ArenaName → BlockRef
  freeBlocks : Option Nat
  mallocs : List (Nat × Nat)

/-- `sizeof(Align_t)`. -/
def alignSize : Nat := 8

/-- `sizeof(Header_t)`. -/
def headerSize : Nat := 24

/-- `arenaBlockSize`. -/
def arenaBlockSize : ArenaName → Nat
  | .strategy | .iterator | .query => 1024 * 1024
  | .cache => 16 * 1024 * 1024

/-- `RoundUp`, for a power of two. -/
def roundUp (x n : Nat) : Nat :=
  let y := (x + (n - 1)) % 2 ^ 64
  y - y % n

/-- **What `malloc` promises**: the memory that it returns is inside the address space of a process, and outside the
blocks that have been returned before. -/
structure Malloc where
  address : (blocks : List (Nat × Nat)) → (size : Nat) → Option Nat
  positive : ∀ {blocks size p}, address blocks size = some p → 0 < p
  inside : ∀ {blocks size p}, address blocks size = some p → p + size < 2 ^ 63
  outside : ∀ {blocks size p}, address blocks size = some p → ∀ b ∈ blocks, b.1 + b.2 ≤ p ∨ p + size ≤ b.1

namespace ArenaState

/-- The variables are initialised statically. -/
def initial : ArenaState where
  block _ := ⟨0, 0, none⟩
  arena := .first
  freeBlocks := none
  mallocs := []

/-- Store the member `next` of a block. -/
def link (s : ArenaState) (r : BlockRef) (next : Option Nat) : ArenaState :=
  { s with block := Function.update s.block r { s.block r with next := next } }

/-- Store the member `avail` of a block. -/
def setAvail (s : ArenaState) (r : BlockRef) (avail : Nat) : ArenaState :=
  { s with block := Function.update s.block r { s.block r with avail := avail } }

/-- The last block of the arena has no room for so many bytes. -/
def Full (s : ArenaState) (a : ArenaName) (size : Nat) : Prop :=
  (s.block (s.arena a)).limit < ((s.block (s.arena a)).avail + size) % 2 ^ 64

instance (s : ArenaState) (a : ArenaName) (size : Nat) : Decidable (s.Full a size) := inferInstanceAs (Decidable (_ < _))

/-- The body of the loop when there is a free block. -/
def reuse (s : ArenaState) (a : ArenaName) (p : Nat) : ArenaState :=
  let s := s.link (s.arena a) (some p)
  let s := { s with freeBlocks := (s.block (.heap p)).next }
  let s := s.setAvail (.heap p) (p + headerSize)
  let s := s.link (.heap p) none
  { s with arena := Function.update s.arena a (.heap p) }

/-- The body of the loop when there is none, with the block that `malloc` has returned. -/
def extend (s : ArenaState) (a : ArenaName) (p size : Nat) : ArenaState :=
  let s := s.link (s.arena a) (some p)
  { s with
    block := Function.update s.block (.heap p) ⟨p + size, p + headerSize, none⟩
    arena := Function.update s.arena a (.heap p)
    mallocs := (p, size) :: s.mallocs }

end ArenaState

/-- The loop of `NoDBArenaAlloc`; `none` is lack of fuel, or `malloc` has failed. -/
def arenaAllocLoop (malloc : Malloc) (a : ArenaName) (size : Nat) : (fuel : Nat) → ArenaState → Option ArenaState
  | 0, _ => none
  | fuel + 1, s =>
    if s.Full a size then
      match s.freeBlocks with
      | some p => arenaAllocLoop malloc a size fuel (s.reuse a p)
      | none =>
        let m := (headerSize + size + arenaBlockSize a) % 2 ^ 64
        match malloc.address s.mallocs m with
        | some p => arenaAllocLoop malloc a size fuel (s.extend a p m)
        | none => none
    else some s

/-- `NoDBArenaAlloc`: the address that it returns, and what it leaves. -/
def noDBArenaAlloc (malloc : Malloc) (fuel : Nat) (a : ArenaName) (size : Nat) (s : ArenaState) :
    Option (Nat × ArenaState) :=
  let size := roundUp size alignSize
  (arenaAllocLoop malloc a size fuel s).map fun s =>
    let avail := ((s.block (s.arena a)).avail + size) % 2 ^ 64
    ((avail + 2 ^ 64 - size) % 2 ^ 64, s.setAvail (s.arena a) avail)

/-- `NoDBArenaFree`. -/
def noDBArenaFree (a : ArenaName) (s : ArenaState) : ArenaState :=
  let s := s.link (s.arena a) s.freeBlocks
  let s := { s with freeBlocks := (s.block (.first a)).next }
  let s := s.link (.first a) none
  { s with arena := Function.update s.arena a (.first a) }

/-! ### Runs -/

/-- What a call of `NoDBArenaAlloc` has returned. -/
structure Allocation where
  arena : ArenaName
  address : Nat
  size : Nat
deriving DecidableEq, Repr

/-- **Calls in any order**, with sizes of at most `largest` bytes: what they lead to, and the allocations whose arenas have
not been freed since. -/
inductive ArenaRun (malloc : Malloc) (largest : Nat) : ArenaState → List Allocation → Prop where
  | start : ArenaRun malloc largest .initial []
  | alloc {s s' : ArenaState} {valid : List Allocation} (run : ArenaRun malloc largest s valid) (a : ArenaName) {size : Nat}
      (positive : 0 < size) (small : size ≤ largest) {fuel p : Nat}
      (returned : noDBArenaAlloc malloc fuel a size s = some (p, s')) : ArenaRun malloc largest s' (⟨a, p, size⟩ :: valid)
  | free {s : ArenaState} {valid : List Allocation} (run : ArenaRun malloc largest s valid) (a : ArenaName) :
      ArenaRun malloc largest (noDBArenaFree a s) (valid.filter fun x => x.arena ≠ a)

/-- The block in front of a list: `some a` is the chain of an arena, and `none` is the free list. -/
def ArenaState.head (s : ArenaState) : Option ArenaName → Option Nat
  | some a => (s.block (.first a)).next
  | none => s.freeBlocks

/-- Two ranges of memory do not overlap. -/
def Allocation.Apart (x y : Allocation) : Prop := x.address + x.size ≤ y.address ∨ y.address + y.size ≤ x.address

/-- **Blocks and allocations are never shared.** -/
structure Separated (s : ArenaState) (valid : List Allocation) : Prop where
  /-- every block is in exactly one of the five lists, and these end -/
  lists : ∃ lists : Option ArenaName → List Nat,
    (∀ place, Links.Chain (fun p => (s.block (.heap p)).next) (s.head place) (lists place) ∧ (lists place).Nodup) ∧
      (∀ b ∈ s.mallocs, ∃! place, b.1 ∈ lists place) ∧ ∀ place, ∀ p ∈ lists place, ∃ b ∈ s.mallocs, b.1 = p
  /-- an allocation is in the data part of a block -/
  inside : ∀ x ∈ valid, ∃ b ∈ s.mallocs, b.1 + headerSize ≤ x.address ∧ x.address + x.size ≤ b.1 + b.2
  apart : valid.Pairwise Allocation.Apart

/-! ### Storing a member -/

namespace ArenaState

/-- The link of a block. -/
def follow (s : ArenaState) (r : BlockRef) : Option BlockRef := (s.block r).next.map .heap

variable (s : ArenaState) (r x : BlockRef)

theorem follow_link (next : Option Nat) : (s.link r next).follow = Function.update s.follow r (next.map .heap) := by
  funext x
  by_cases here : x = r
  · subst here
    simp only [follow, link, update_self]
  · simp only [follow, link, update_of_ne here]

theorem follow_setAvail (avail : Nat) : (s.setAvail r avail).follow = s.follow := by
  funext x
  by_cases here : x = r
  · subst here
    simp only [follow, setAvail, update_self]
  · simp only [follow, setAvail, update_of_ne here]

theorem avail_link (next : Option Nat) : ((s.link r next).block x).avail = (s.block x).avail := by
  by_cases here : x = r
  · subst here
    simp only [link, update_self]
  · simp only [link, update_of_ne here]

theorem limit_link (next : Option Nat) : ((s.link r next).block x).limit = (s.block x).limit := by
  by_cases here : x = r
  · subst here
    simp only [link, update_self]
  · simp only [link, update_of_ne here]

theorem limit_setAvail (avail : Nat) : ((s.setAvail r avail).block x).limit = (s.block x).limit := by
  by_cases here : x = r
  · subst here
    simp only [setAvail, update_self]
  · simp only [setAvail, update_of_ne here]

theorem avail_setAvail (avail : Nat) :
    ((s.setAvail r avail).block x).avail = if x = r then avail else (s.block x).avail := by
  by_cases here : x = r
  · subst here
    simp only [setAvail, update_self, if_true]
  · simp only [setAvail, update_of_ne here, if_neg here]

end ArenaState

/-! ### The five lists -/

namespace ArenaState

/-- The blocks of an arena, with its static one. -/
def nodes (lists : Option ArenaName → List Nat) (a : ArenaName) : List BlockRef := .first a :: (lists (some a)).map .heap

/-- **Where the blocks are**: chained from the static blocks, of which the last one is in use, or free; no block is in two
lists. -/
structure Tidy (s : ArenaState) (lists : Option ArenaName → List Nat) : Prop where
  chain : ∀ a, Links.Chain s.follow (some (.first a)) (nodes lists a)
  free : Links.Chain s.follow (s.freeBlocks.map .heap) ((lists none).map .heap)
  last : ∀ a, ∃ front, nodes lists a = front ++ [s.arena a]
  known : ∀ place, ∀ p ∈ lists place, ∃ b ∈ s.mallocs, b.1 = p
  listed : ∀ b ∈ s.mallocs, ∃ place, b.1 ∈ lists place
  once : ∀ {p place place'}, p ∈ lists place → p ∈ lists place' → place = place'

variable {a b : ArenaName} {p : Nat} {lists : Option ArenaName → List Nat}

theorem heap_mem_nodes : .heap p ∈ nodes lists a ↔ p ∈ lists (some a) := by
  simp [nodes]

theorem heap_mem_map {ps : List Nat} : BlockRef.heap p ∈ ps.map .heap ↔ p ∈ ps := by
  simp

namespace Tidy

variable {s s' : ArenaState} {lists : Option ArenaName → List Nat} {a b : ArenaName} {p : Nat}

theorem arena_mem (tidy : s.Tidy lists) (a : ArenaName) : s.arena a ∈ nodes lists a := by
  obtain ⟨front, nodes⟩ := tidy.last a
  rw [nodes]
  exact mem_append_right _ (mem_singleton_self _)

/-- No block is in the chains of two arenas. -/
theorem notMem_nodes (tidy : s.Tidy lists) (different : b ≠ a) {r : BlockRef} (mem : r ∈ nodes lists a) :
    r ∉ nodes lists b := by
  intro other
  cases r with
  | first c =>
    simp only [nodes, mem_cons, mem_map, reduceCtorEq, and_false, exists_false, or_false,
      BlockRef.first.injEq] at mem other
    exact different (other.symm.trans mem)
  | heap p => exact different (Option.some.inj (tidy.once (heap_mem_nodes.1 other) (heap_mem_nodes.1 mem)))

/-- No block of an arena is free. -/
theorem notMem_free (tidy : s.Tidy lists) {r : BlockRef} (mem : r ∈ nodes lists a) : r ∉ (lists none).map .heap := by
  intro free
  obtain ⟨p, inFree, rfl⟩ := mem_map.1 free
  cases tidy.once inFree (heap_mem_nodes.1 mem)

end Tidy

/-- The lists when a block has been appended to the chain of an arena, with what is left of the free list. -/
def appended (lists : Option ArenaName → List Nat) (a : ArenaName) (p : Nat) (free : List Nat) : Option ArenaName → List Nat
  | none => free
  | some b => if b = a then lists (some a) ++ [p] else lists (some b)

theorem nodes_appended_self (lists : Option ArenaName → List Nat) (a : ArenaName) (p : Nat) (free : List Nat) :
    nodes (appended lists a p free) a = nodes lists a ++ [.heap p] := by
  simp [nodes, appended]

theorem nodes_appended_ne (different : b ≠ a) (p : Nat) (free : List Nat) :
    nodes (appended lists a p free) b = nodes lists b := by
  simp [nodes, appended, different]

theorem mem_appended {q : Nat} {free : List Nat} :
    q ∈ appended lists a p free (some b) ↔ q ∈ lists (some b) ∨ b = a ∧ q = p := by
  by_cases same : b = a
  · subst same
    simp [appended]
  · simp [appended, same]

/-- **A block is appended**: a new one, or the first one of the free list. -/
structure Appends (s s' : ArenaState) (lists : Option ArenaName → List Nat) (a : ArenaName) (p : Nat) (free : List Nat) :
    Prop where
  absent : ∀ b, p ∉ lists (some b)
  notFree : p ∉ free
  left : ∀ q ∈ free, q ∈ lists none
  freeChain : Links.Chain s.follow (s'.freeBlocks.map .heap) (free.map .heap)
  follow : s'.follow = Function.update (Function.update s.follow (s.arena a) (some (.heap p))) (.heap p) none
  arena : s'.arena = Function.update s.arena a (.heap p)
  mallocs : ∀ q, (∃ b ∈ s'.mallocs, b.1 = q) ↔ q = p ∨ q ∈ free ∨ ∃ b, q ∈ lists (some b)

namespace Tidy

variable {s s' : ArenaState} {lists : Option ArenaName → List Nat} {a b : ArenaName} {p : Nat} {free : List Nat}

theorem append (tidy : s.Tidy lists) (appends : Appends s s' lists a p free) : s'.Tidy (appended lists a p free) where
  chain b := by
    have outside : ∀ b, .heap p ∉ nodes lists b := fun b mem => appends.absent b (heap_mem_nodes.1 mem)
    rw [appends.follow]
    by_cases same : b = a
    · subst same
      obtain ⟨front, nodes⟩ := tidy.last b
      have different : s.arena b ≠ .heap p := fun same => outside b (same ▸ tidy.arena_mem b)
      have old := (tidy.chain b).update (outside b) none
      rw [nodes] at old
      have new : Links.Chain (Function.update s.follow (.heap p) none) (some (.heap p)) [.heap p] :=
        ⟨rfl, update_self ..⟩
      rw [nodes_appended_self, nodes, update_comm different]
      exact old.splice new fun mem => different (mem_singleton.1 mem)
    · rw [nodes_appended_ne same]
      exact ((tidy.chain b).update (tidy.notMem_nodes same (tidy.arena_mem a)) _).update (outside b) none
  free := by
    rw [appends.follow]
    refine (appends.freeChain.update (fun mem => ?_) _).update (fun mem => appends.notFree (heap_mem_map.1 mem)) none
    obtain ⟨q, inFree, same⟩ := mem_map.1 mem
    exact tidy.notMem_free (tidy.arena_mem a) (same ▸ heap_mem_map.2 (appends.left q inFree))
  last b := by
    rw [appends.arena]
    by_cases same : b = a
    · subst same
      rw [nodes_appended_self, update_self]
      exact ⟨_, rfl⟩
    · rw [nodes_appended_ne same, update_of_ne same]
      exact tidy.last b
  known place q mem := by
    refine (appends.mallocs q).2 ?_
    cases place with
    | none => exact .inr (.inl mem)
    | some b =>
      rcases mem_appended.1 mem with old | ⟨-, new⟩
      · exact .inr (.inr ⟨b, old⟩)
      · exact .inl new
  listed b mem := by
    rcases (appends.mallocs b.1).1 ⟨b, mem, rfl⟩ with new | free | ⟨c, old⟩
    · exact ⟨some a, mem_appended.2 (.inr ⟨rfl, new⟩)⟩
    · exact ⟨none, free⟩
    · exact ⟨some c, mem_appended.2 (.inl old)⟩
  once {q place place'} mem mem' := by
    cases place with
    | none =>
      cases place' with
      | none => rfl
      | some c =>
        rcases mem_appended.1 mem' with old | ⟨-, rfl⟩
        · exact tidy.once (appends.left q mem) old
        · exact absurd mem appends.notFree
    | some b =>
      cases place' with
      | none =>
        rcases mem_appended.1 mem with old | ⟨-, rfl⟩
        · exact tidy.once old (appends.left q mem')
        · exact absurd mem' appends.notFree
      | some c =>
        rcases mem_appended.1 mem with old | ⟨rfl, rfl⟩
        · rcases mem_appended.1 mem' with old' | ⟨rfl, rfl⟩
          · exact tidy.once old old'
          · exact absurd old (appends.absent b)
        · rcases mem_appended.1 mem' with old' | ⟨rfl, -⟩
          · exact absurd old' (appends.absent c)
          · rfl

/-- The first block of the free list. -/
theorem free_cons (tidy : s.Tidy lists) (head : s.freeBlocks = some p) : ∃ rest, lists none = p :: rest := by
  have chain := tidy.free
  rw [head] at chain
  cases free : lists none with
  | nil =>
    rw [free] at chain
    cases chain
  | cons q rest =>
    rw [free] at chain
    cases chain.1
    exact ⟨rest, rfl⟩

end Tidy

/-! ### The body of the loop -/

section

variable (s : ArenaState) (a : ArenaName) (p size : Nat)

theorem follow_reuse : (s.reuse a p).follow =
    Function.update (Function.update s.follow (s.arena a) (some (.heap p))) (.heap p) none := by
  change ((((s.link (s.arena a) (some p)).setAvail (.heap p) (p + headerSize)).link (.heap p) none)).follow = _
  rw [follow_link, follow_setAvail, follow_link]
  rfl

theorem avail_reuse (x : BlockRef) :
    ((s.reuse a p).block x).avail = if x = .heap p then p + headerSize else (s.block x).avail := by
  change (((((s.link (s.arena a) (some p)).setAvail (.heap p) (p + headerSize)).link (.heap p) none)).block x).avail = _
  rw [avail_link, avail_setAvail, avail_link]

theorem limit_reuse (x : BlockRef) : ((s.reuse a p).block x).limit = (s.block x).limit := by
  change (((((s.link (s.arena a) (some p)).setAvail (.heap p) (p + headerSize)).link (.heap p) none)).block x).limit = _
  rw [limit_link, limit_setAvail, limit_link]

theorem freeBlocks_reuse : (s.reuse a p).freeBlocks.map .heap = (s.link (s.arena a) (some p)).follow (.heap p) := rfl

theorem block_extend (x : BlockRef) : (s.extend a p size).block x =
    if x = .heap p then ⟨p + size, p + headerSize, none⟩ else (s.link (s.arena a) (some p)).block x :=
  update_apply ..

theorem follow_extend : (s.extend a p size).follow =
    Function.update (Function.update s.follow (s.arena a) (some (.heap p))) (.heap p) none := by
  funext x
  rw [follow, block_extend, update_apply]
  split
  · rfl
  · exact congrFun (follow_link s (s.arena a) (some p)) x

end

/-- **A free block is taken.** -/
theorem appends_reuse {s : ArenaState} (tidy : s.Tidy lists) (a : ArenaName) {rest : List Nat}
    (head : s.freeBlocks = some p) (free : lists none = p :: rest) : Appends s (s.reuse a p) lists a p rest := by
  have inFree : p ∈ lists none := by
    rw [free]
    exact mem_cons_self
  have absent : ∀ b, p ∉ lists (some b) := fun b mem => by cases tidy.once inFree mem
  have chain := tidy.free
  rw [head, free] at chain
  have nodup := chain.nodup
  rw [map_cons, nodup_cons, heap_mem_map] at nodup
  have different : .heap p ≠ s.arena a := fun same => absent a (heap_mem_nodes.1 (same ▸ tidy.arena_mem a))
  refine ⟨absent, nodup.1, fun q mem => ?_, ?_, s.follow_reuse a p, rfl, fun q => ?_⟩
  · rw [free]
    exact mem_cons_of_mem p mem
  · rw [freeBlocks_reuse, follow_link, update_of_ne different]
    exact chain.2
  · constructor
    · rintro ⟨b, mem, rfl⟩
      obtain ⟨place, listed⟩ := tidy.listed b mem
      cases place with
      | none =>
        rw [free] at listed
        rcases mem_cons.1 listed with new | old
        · exact .inl new
        · exact .inr (.inl old)
      | some c => exact .inr (.inr ⟨c, listed⟩)
    · rintro (rfl | old | ⟨c, listed⟩)
      · exact tidy.known none q inFree
      · exact tidy.known none q (by rw [free]; exact mem_cons_of_mem _ old)
      · exact tidy.known (some c) q listed

/-- **A new block.** -/
theorem appends_extend {s : ArenaState} {lists : Option ArenaName → List Nat} (tidy : s.Tidy lists) (a : ArenaName)
    {p size : Nat} (new : ∀ b ∈ s.mallocs, b.1 ≠ p) : Appends s (s.extend a p size) lists a p (lists none) := by
  have unlisted : ∀ place, p ∉ lists place := by
    intro place mem
    obtain ⟨b, there, same⟩ := tidy.known place p mem
    exact new b there same
  refine ⟨fun b => unlisted (some b), unlisted none, fun q mem => mem, tidy.free, s.follow_extend a p size, rfl, fun q => ?_⟩
  constructor
  · rintro ⟨b, mem, rfl⟩
    rcases mem_cons.1 mem with rfl | old
    · exact .inl rfl
    · obtain ⟨place, listed⟩ := tidy.listed b old
      cases place with
      | none => exact .inr (.inl listed)
      | some c => exact .inr (.inr ⟨c, listed⟩)
  · have old : ∀ place, q ∈ lists place → ∃ b ∈ (s.extend a p size).mallocs, b.1 = q := by
      intro place mem
      obtain ⟨b, there, same⟩ := tidy.known place q mem
      exact ⟨b, mem_cons_of_mem _ there, same⟩
    rintro (rfl | free | ⟨c, listed⟩)
    · exact ⟨(q, size), mem_cons_self, rfl⟩
    · exact old none free
    · exact old (some c) listed

/-! ### Freeing an arena -/

/-- The lists when an arena has been freed. -/
def freed (lists : Option ArenaName → List Nat) (a : ArenaName) : Option ArenaName → List Nat
  | none => lists (some a) ++ lists none
  | some b => if b = a then [] else lists (some b)

theorem follow_noDBArenaFree (s : ArenaState) (a : ArenaName) : (noDBArenaFree a s).follow =
    Function.update (Function.update s.follow (s.arena a) (s.freeBlocks.map .heap)) (.first a) none := by
  change ((s.link (s.arena a) s.freeBlocks).link (.first a) none).follow = _
  rw [follow_link, follow_link]
  rfl

theorem mem_freed : p ∈ freed lists a (some b) ↔ b ≠ a ∧ p ∈ lists (some b) := by
  by_cases same : b = a
  · simp [freed, same]
  · simp [freed, same]

namespace Tidy

variable {s : ArenaState} {lists : Option ArenaName → List Nat}

theorem noDBArenaFree (tidy : s.Tidy lists) (a : ArenaName) : (noDBArenaFree a s).Tidy (freed lists a) where
  chain b := by
    rw [follow_noDBArenaFree]
    by_cases same : b = a
    · subst same
      rw [show nodes (freed lists b) b = [.first b] by simp [nodes, freed]]
      exact ⟨rfl, update_self ..⟩
    · rw [show nodes (freed lists a) b = nodes lists b by simp [nodes, freed, same]]
      refine ((tidy.chain b).update (tidy.notMem_nodes same (tidy.arena_mem a)) _).update ?_ none
      exact tidy.notMem_nodes same mem_cons_self
  free := by
    obtain ⟨front, last⟩ := tidy.last a
    have chain := tidy.chain a
    rw [last] at chain
    -- the chain of the arena, from its static block, is now followed by the free list
    have joined := chain.splice tidy.free (tidy.notMem_free (tidy.arena_mem a))
    rw [← last, nodes, cons_append, ← map_append] at joined
    rw [follow_noDBArenaFree]
    have free : (PostgresRaw.noDBArenaFree a s).freeBlocks.map .heap =
        Function.update s.follow (s.arena a) (s.freeBlocks.map .heap) (.first a) := by
      rw [← follow_link]
      rfl
    rw [free]
    refine joined.2.update (fun mem => ?_) none
    obtain ⟨p, -, same⟩ := mem_map.1 mem
    cases same
  last b := by
    change ∃ front, nodes (freed lists a) b = front ++ [Function.update s.arena a (.first a) b]
    by_cases same : b = a
    · subst same
      rw [update_self]
      exact ⟨[], by simp [nodes, freed]⟩
    · rw [update_of_ne same, show nodes (freed lists a) b = nodes lists b by simp [nodes, freed, same]]
      exact tidy.last b
  known place p mem := by
    cases place with
    | none =>
      rcases mem_append.1 mem with inArena | inFree
      · exact tidy.known (some a) p inArena
      · exact tidy.known none p inFree
    | some b => exact tidy.known (some b) p (mem_freed.1 mem).2
  listed b mem := by
    obtain ⟨place, listed⟩ := tidy.listed b mem
    cases place with
    | none => exact ⟨none, mem_append_right _ listed⟩
    | some c =>
      by_cases same : c = a
      · subst same
        exact ⟨none, mem_append_left _ listed⟩
      · exact ⟨some c, mem_freed.2 ⟨same, listed⟩⟩
  once {p place place'} mem mem' := by
    have origin : ∀ {place}, p ∈ freed lists a place →
        (place = none ∧ (p ∈ lists (some a) ∨ p ∈ lists none)) ∨ ∃ b, place = some b ∧ b ≠ a ∧ p ∈ lists (some b) := by
      intro place mem
      cases place with
      | none => exact .inl ⟨rfl, mem_append.1 mem⟩
      | some b => exact .inr ⟨b, rfl, mem_freed.1 mem⟩
    rcases origin mem with ⟨rfl, old⟩ | ⟨b, rfl, different, old⟩
    · rcases origin mem' with ⟨rfl, -⟩ | ⟨c, rfl, different, old'⟩
      · rfl
      · rcases old with inArena | inFree
        · exact absurd (Option.some.inj (tidy.once old' inArena)) different
        · cases tidy.once old' inFree
    · rcases origin mem' with ⟨rfl, old'⟩ | ⟨c, rfl, -, old'⟩
      · rcases old' with inArena | inFree
        · exact absurd (Option.some.inj (tidy.once old inArena)) different
        · cases tidy.once old inFree
      · exact tidy.once old old'

end Tidy

/-! ### The memory of the blocks -/

/-- **The memory of the blocks**: blocks do not overlap, and what is in use of a block begins behind its header. -/
structure Roomy (s : ArenaState) (lists : Option ArenaName → List Nat) : Prop where
  static : ∀ a, (s.block (.first a)).limit = 0 ∧ (s.block (.first a)).avail = 0
  limit : ∀ b ∈ s.mallocs, (s.block (.heap b.1)).limit = b.1 + b.2 ∧ headerSize ≤ b.2 ∧ b.1 + b.2 < 2 ^ 63
  disjoint : s.mallocs.Pairwise fun b c => b.1 + b.2 ≤ c.1 ∨ c.1 + c.2 ≤ b.1
  avail : ∀ a, ∀ p ∈ lists (some a),
    p + headerSize ≤ (s.block (.heap p)).avail ∧ (s.block (.heap p)).avail ≤ (s.block (.heap p)).limit

/-- **Allocations are in the blocks of their arena**, below what is free, and do not overlap. -/
structure Holds (s : ArenaState) (lists : Option ArenaName → List Nat) (valid : List Allocation) : Prop where
  inside : ∀ x ∈ valid, ∃ p ∈ lists (some x.arena),
    p + headerSize ≤ x.address ∧ x.address + x.size ≤ (s.block (.heap p)).avail
  apart : valid.Pairwise Allocation.Apart

/-- The invariant of the arenas. -/
structure Sound (s : ArenaState) (lists : Option ArenaName → List Nat) (valid : List Allocation) : Prop
  extends s.Tidy lists, s.Roomy lists, s.Holds lists valid

theorem sound_initial : initial.Sound (fun _ => []) [] where
  chain _ := ⟨rfl, rfl⟩
  free := rfl
  last _ := ⟨[], rfl⟩
  known _ _ mem := absurd mem not_mem_nil
  listed _ mem := absurd mem not_mem_nil
  once mem := absurd mem not_mem_nil
  static _ := ⟨rfl, rfl⟩
  limit _ mem := absurd mem not_mem_nil
  disjoint := .nil
  avail _ _ mem := absurd mem not_mem_nil
  inside _ mem := absurd mem not_mem_nil
  apart := .nil

namespace Sound

variable {s : ArenaState} {lists : Option ArenaName → List Nat} {valid : List Allocation}

variable {p : Nat}

section

variable (sound : s.Sound lists valid)
include sound

/-- Two blocks of the lists are the same or do not overlap. -/
theorem disjoint_blocks {q : Nat} {place place' : Option ArenaName}
    (inP : p ∈ lists place) (inQ : q ∈ lists place') (different : p ≠ q) :
    (s.block (.heap p)).limit ≤ q ∨ (s.block (.heap q)).limit ≤ p := by
  obtain ⟨b, knownB, rfl⟩ := sound.known place p inP
  obtain ⟨c, knownC, rfl⟩ := sound.known place' q inQ
  rw [(sound.limit b knownB).1, (sound.limit c knownC).1]
  have symmetric : Std.Symm fun b c : Nat × Nat => b.1 + b.2 ≤ c.1 ∨ c.1 + c.2 ≤ b.1 := ⟨fun _ _ apart => apart.symm⟩
  exact sound.disjoint.forall knownB knownC fun same => different (congrArg Prod.fst same)

/-- Appending a block leaves the allocations where they are. -/
theorem append {s' : ArenaState} {a : ArenaName} {free : List Nat}
    (appends : Appends s s' lists a p free) (roomy : s'.Roomy (appended lists a p free))
    (avail : ∀ q, q ≠ p → (s'.block (.heap q)).avail = (s.block (.heap q)).avail) :
    s'.Sound (appended lists a p free) valid where
  toTidy := sound.toTidy.append appends
  toRoomy := roomy
  inside x mem := by
    obtain ⟨q, listed, inside⟩ := sound.inside x mem
    refine ⟨q, mem_appended.2 (.inl listed), ?_⟩
    rw [avail q fun same => appends.absent x.arena (same ▸ listed)]
    exact inside
  apart := sound.apart

/-- **A free block is taken.** -/
theorem reuse (a : ArenaName) {rest : List Nat} (head : s.freeBlocks = some p)
    (free : lists none = p :: rest) : (s.reuse a p).Sound (appended lists a p rest) valid := by
  have appends := appends_reuse sound.toTidy a head free
  refine sound.append appends ⟨fun b => ?_, fun b mem => ?_, sound.disjoint, fun b q mem => ?_⟩ fun q different => ?_
  · rw [limit_reuse, avail_reuse, if_neg (by simp)]
    exact sound.static b
  · rw [limit_reuse]
    exact sound.limit b mem
  · rw [limit_reuse, avail_reuse]
    rcases mem_appended.1 mem with old | ⟨-, rfl⟩
    · have different : BlockRef.heap q ≠ .heap p := by
        rintro ⟨⟩
        exact appends.absent b old
      rw [if_neg different]
      exact sound.avail b q old
    · obtain ⟨c, known, rfl⟩ := sound.known none q (by rw [free]; exact mem_cons_self)
      have limit := sound.limit c known
      rw [if_pos rfl, limit.1]
      omega
  · rw [avail_reuse, if_neg fun same => different (BlockRef.heap.inj same)]

/-- **A new block is appended.** -/
theorem extend (a : ArenaName) {malloc : Malloc} {size : Nat} (header : headerSize ≤ size)
    (returned : malloc.address s.mallocs size = some p) :
    (s.extend a p size).Sound (appended lists a p (lists none)) valid := by
  have outside := malloc.outside returned
  have new : ∀ b ∈ s.mallocs, b.1 ≠ p := by
    rintro b mem rfl
    have limit := sound.limit b mem
    have := outside b mem
    rw [headerSize] at *
    omega
  have old : ∀ q, q ≠ p → (s.extend a p size).block (.heap q) = (s.link (s.arena a) (some p)).block (.heap q) :=
    fun q different => by rw [block_extend, if_neg fun same => different (BlockRef.heap.inj same)]
  have here : (s.extend a p size).block (.heap p) = ⟨p + size, p + headerSize, none⟩ := by rw [block_extend, if_pos rfl]
  have appends := @appends_extend s lists sound.toTidy a p size new
  refine sound.append appends ⟨fun b => ?_, fun b mem => ?_, ?_, fun b q mem => ?_⟩ fun q different => ?_
  · rw [block_extend, if_neg (by simp), limit_link, avail_link]
    exact sound.static b
  · rcases mem_cons.1 mem with rfl | there
    · rw [here]
      exact ⟨rfl, header, malloc.inside returned⟩
    · rw [old _ (new b there), limit_link]
      exact sound.limit b there
  · refine pairwise_cons.2 ⟨fun b mem => ?_, sound.disjoint⟩
    exact (outside b mem).symm
  · rcases mem_appended.1 mem with listed | ⟨-, rfl⟩
    · rw [old q fun same => appends.absent b (same ▸ listed), limit_link, avail_link]
      exact sound.avail b q listed
    · rw [here]
      exact ⟨le_rfl, Nat.add_le_add_left header q⟩
  · rw [old q different, avail_link]

/-- **Memory is taken** from the last block of an arena that is not full. -/
theorem take {a : ArenaName} {size rounded : Nat} (positive : 0 < rounded)
    (small : rounded ≤ 2 ^ 63) (covers : size ≤ rounded) (room : ¬ s.Full a rounded) :
    let avail := (s.block (s.arena a)).avail
    (avail + rounded) % 2 ^ 64 = avail + rounded ∧
      (s.setAvail (s.arena a) (avail + rounded)).Sound lists (⟨a, avail, size⟩ :: valid) := by
  -- the static block is always full
  obtain ⟨p, here, listed⟩ : ∃ p, s.arena a = .heap p ∧ p ∈ lists (some a) := by
    have mem := sound.arena_mem a
    cases last : s.arena a with
    | first b =>
      rw [Full, last, (sound.static b).1, (sound.static b).2] at room
      omega
    | heap p => exact ⟨p, rfl, heap_mem_nodes.1 (last ▸ mem)⟩
  rw [Full, here] at room
  rw [here]
  intro avail
  obtain ⟨begins, ends⟩ := sound.avail a p listed
  obtain ⟨c, known, rfl⟩ := sound.known (some a) p listed
  have limit := sound.limit c known
  have fits : avail + rounded < 2 ^ 64 := by omega
  have enough : avail + rounded ≤ (s.block (.heap c.1)).limit := by
    rw [Nat.mod_eq_of_lt fits] at room
    omega
  refine ⟨Nat.mod_eq_of_lt fits, ?_⟩
  have grows : ∀ q, (s.block (.heap q)).avail ≤ ((s.setAvail (.heap c.1) (avail + rounded)).block (.heap q)).avail := by
    intro q
    rw [avail_setAvail]
    split
    · next same =>
      rw [same]
      exact Nat.le_add_right _ _
    · exact le_rfl
  refine { toTidy := ?_, toRoomy := ⟨fun b => ?_, fun b mem => ?_, sound.disjoint, fun b q mem => ?_⟩, inside := ?_, apart := ?_ }
  · refine { sound.toTidy with chain := fun b => ?_, free := ?_ }
    · rw [follow_setAvail]
      exact sound.chain b
    · rw [follow_setAvail]
      exact sound.free
  · rw [limit_setAvail, avail_setAvail, if_neg (by simp)]
    exact sound.static b
  · rw [limit_setAvail]
    exact sound.limit b mem
  · rw [limit_setAvail, avail_setAvail]
    split
    · next same =>
      cases same
      exact ⟨by omega, enough⟩
    · exact sound.avail b q mem
  · refine forall_mem_cons.2 ⟨⟨c.1, listed, begins, ?_⟩, fun x mem => ?_⟩
    · rw [avail_setAvail, if_pos rfl]
      exact Nat.add_le_add_left covers _
    · obtain ⟨q, inQ, starts, stops⟩ := sound.inside x mem
      exact ⟨q, inQ, starts, le_trans stops (grows q)⟩
  · refine pairwise_cons.2 ⟨fun x mem => ?_, sound.apart⟩
    obtain ⟨q, inQ, starts, stops⟩ := sound.inside x mem
    change avail + size ≤ x.address ∨ x.address + x.size ≤ avail
    by_cases same : q = c.1
    · subst same
      exact .inr stops
    · have := sound.disjoint_blocks inQ listed same
      have := sound.avail x.arena q inQ
      omega

/-- **An arena is freed.** -/
theorem noDBArenaFree (a : ArenaName) :
    (PostgresRaw.noDBArenaFree a s).Sound (freed lists a) (valid.filter fun x => x.arena ≠ a) := by
  have avail : ∀ r, ((PostgresRaw.noDBArenaFree a s).block r).avail = (s.block r).avail := by
    intro r
    change (((s.link (s.arena a) s.freeBlocks).link (.first a) none).block r).avail = _
    rw [avail_link, avail_link]
  have limit : ∀ r, ((PostgresRaw.noDBArenaFree a s).block r).limit = (s.block r).limit := by
    intro r
    change (((s.link (s.arena a) s.freeBlocks).link (.first a) none).block r).limit = _
    rw [limit_link, limit_link]
  refine { toTidy := sound.toTidy.noDBArenaFree a, toRoomy := ?_, inside := fun x mem => ?_, apart := sound.apart.filter _ }
  · refine ⟨fun b => ?_, fun b mem => ?_, sound.disjoint, fun b p mem => ?_⟩
    · rw [limit, avail]
      exact sound.static b
    · rw [limit]
      exact sound.limit b mem
    · rw [limit, avail]
      exact sound.avail b p (mem_freed.1 mem).2
  · obtain ⟨old, other⟩ := mem_filter.1 mem
    obtain ⟨p, listed, inside⟩ := sound.inside x old
    refine ⟨p, mem_freed.2 ⟨of_decide_eq_true other, listed⟩, ?_⟩
    rw [avail]
    exact inside

end

end Sound

end ArenaState

/-! ### The calls -/

open ArenaState

variable {size : Nat} {s : ArenaState} {valid : List Allocation} {malloc : Malloc} {lists : Option ArenaName → List Nat}

theorem roundUp_alignSize (small : size ≤ 2 ^ 63) :
    size ≤ roundUp size alignSize ∧ roundUp size alignSize ≤ 2 ^ 63 := by
  simp only [roundUp, alignSize]
  omega

/-- **The loop** keeps the invariant, and leaves room. -/
theorem sound_arenaAllocLoop {a : ArenaName} {fuel : Nat} {s' : ArenaState} (sound : s.Sound lists valid)
    (small : size ≤ 2 ^ 63) (loop : arenaAllocLoop malloc a size fuel s = some s') :
    ∃ lists', s'.Sound lists' valid ∧ ¬ s'.Full a size := by
  induction fuel generalizing s lists with
  | zero => cases loop
  | succ fuel ih =>
    simp only [arenaAllocLoop] at loop
    split at loop
    · split at loop
      · next p head =>
        obtain ⟨rest, free⟩ := sound.toTidy.free_cons head
        exact ih (sound.reuse a head free) loop
      · split at loop
        · next p returned =>
          refine ih (sound.extend a ?_ returned) loop
          have : arenaBlockSize a ≤ 16 * 1024 * 1024 := by cases a <;> decide
          rw [headerSize]
          omega
        · cases loop
    · next room =>
      cases loop
      exact ⟨lists, sound, room⟩

/-- **Every run keeps the invariant.** -/
theorem ArenaRun.sound (run : ArenaRun malloc (2 ^ 63) s valid) : ∃ lists, s.Sound lists valid := by
  induction run with
  | start => exact ⟨_, sound_initial⟩
  | free run a ih =>
    obtain ⟨lists, sound⟩ := ih
    exact ⟨_, sound.noDBArenaFree a⟩
  | @alloc s s' valid run a size positive small fuel p returned ih =>
    obtain ⟨lists, sound⟩ := ih
    obtain ⟨s₁, loop, same⟩ := Option.map_eq_some_iff.1 returned
    obtain ⟨covers, rounded⟩ := roundUp_alignSize small
    obtain ⟨lists', sound', room⟩ := sound_arenaAllocLoop sound rounded loop
    obtain ⟨noWrap, taken⟩ := sound'.take (lt_of_lt_of_le positive covers) rounded covers room
    refine ⟨lists', ?_⟩
    simp only [noWrap] at same
    cases same
    rw [show ((s₁.block (s₁.arena a)).avail + roundUp size alignSize + 2 ^ 64 - roundUp size alignSize) % 2 ^ 64 =
      (s₁.block (s₁.arena a)).avail by omega]
    exact taken

/-- What the invariant says about the lists and the allocations. -/
theorem ArenaState.Sound.keepsApart (sound : s.Sound lists valid) : Separated s valid where
  lists := by
    have injective : Function.Injective BlockRef.heap := fun _ _ same => BlockRef.heap.inj same
    have follow : ∀ p, s.follow (.heap p) = ((fun p => (s.block (.heap p)).next) p).map .heap := fun _ => rfl
    have chain : ∀ place, Links.Chain (fun p => (s.block (.heap p)).next) (s.head place) (lists place) := by
      intro place
      refine (Links.chain_map injective follow).1 ?_
      cases place with
      | none => exact sound.free
      | some a => exact (sound.chain a).2
    refine ⟨lists, fun place => ⟨chain place, (chain place).nodup⟩, fun b mem => ?_, sound.known⟩
    obtain ⟨place, listed⟩ := sound.listed b mem
    exact ⟨place, listed, fun _ other => sound.once other listed⟩
  inside x mem := by
    obtain ⟨p, listed, starts, stops⟩ := sound.inside x mem
    obtain ⟨b, known, rfl⟩ := sound.known _ p listed
    refine ⟨b, known, starts, ?_⟩
    rw [← (sound.limit b known).1]
    exact le_trans stops (sound.avail x.arena b.1 listed).2
  apart := sound.apart

/-- **Blocks and allocations are never shared**, if sizes are at most `2 ^ 63` bytes. -/
theorem ArenaRun.separated {malloc : Malloc} {s : ArenaState} {valid : List Allocation}
    (run : ArenaRun malloc (2 ^ 63) s valid) : Separated s valid := by
  obtain ⟨lists, sound⟩ := run.sound
  exact sound.keepsApart

/-! ### Calls return -/

/-- **`NoDBArenaAlloc` returns**, unless `malloc` fails: at most all free blocks and a new one are tried. -/
theorem ArenaState.Sound.exists_noDBArenaAlloc (sound : s.Sound lists valid) (a : ArenaName) (small : size ≤ 2 ^ 63)
    (serves : ∃ p, malloc.address s.mallocs (headerSize + roundUp size alignSize + arenaBlockSize a) = some p) :
    ∃ p s', noDBArenaAlloc malloc ((lists none).length + 2) a size s = some (p, s') := by
  obtain ⟨covers, rounded⟩ := roundUp_alignSize small
  have noWrap : (headerSize + roundUp size alignSize + arenaBlockSize a) % 2 ^ 64 =
      headerSize + roundUp size alignSize + arenaBlockSize a := by
    have : arenaBlockSize a ≤ 16 * 1024 * 1024 := by cases a <;> decide
    rw [headerSize]
    omega
  suffices ∃ s', arenaAllocLoop malloc a (roundUp size alignSize) ((lists none).length + 2) s = some s' by
    obtain ⟨s', loop⟩ := this
    exact ⟨_, _, by rw [noDBArenaAlloc, loop]; rfl⟩
  generalize free : lists none = blocks
  induction blocks generalizing s lists with
  | nil =>
    have none : s.freeBlocks = none := by
      have chain := sound.free
      rw [free] at chain
      exact Option.map_eq_none_iff.1 chain
    obtain ⟨p, returned⟩ := serves
    have inside := malloc.inside returned
    have room : ¬ (s.extend a p (headerSize + roundUp size alignSize + arenaBlockSize a)).Full a (roundUp size alignSize) := by
      have last : (s.extend a p (headerSize + roundUp size alignSize + arenaBlockSize a)).arena a = .heap p :=
        update_self ..
      rw [Full, last, block_extend, if_pos rfl]
      dsimp only
      rw [headerSize] at inside ⊢
      omega
    simp only [length_nil, arenaAllocLoop, none, noWrap, returned, if_neg room]
    split
    · exact ⟨_, rfl⟩
    · exact ⟨_, rfl⟩
  | cons p rest ih =>
    have head : s.freeBlocks = some p := by
      have chain := sound.free
      rw [free] at chain
      obtain ⟨q, isHead, same⟩ := Option.map_eq_some_iff.1 chain.1
      cases same
      exact isHead
    obtain ⟨s', loop⟩ := ih (sound.reuse a head free) serves rfl
    rw [length_cons, arenaAllocLoop]
    split
    · rw [head]
      exact ⟨s', loop⟩
    · exact ⟨s, rfl⟩

/-- **Calls return after every run**, if `malloc` has a block for them. -/
theorem ArenaRun.alloc_returns {malloc : Malloc} {s : ArenaState} {valid : List Allocation}
    (run : ArenaRun malloc (2 ^ 63) s valid) (a : ArenaName) {size : Nat} (small : size ≤ 2 ^ 63)
    (serves : ∃ p, malloc.address s.mallocs (headerSize + roundUp size alignSize + arenaBlockSize a) = some p) :
    ∃ fuel p s', noDBArenaAlloc malloc fuel a size s = some (p, s') := by
  obtain ⟨lists, sound⟩ := run.sound
  exact ⟨_, sound.exists_noDBArenaAlloc a small serves⟩

/-! ### Two runs -/

/-- The first address behind all blocks, from 4096 on. -/
def highest (blocks : List (Nat × Nat)) : Nat := blocks.foldl (fun top b => max top (b.1 + b.2)) 4096

theorem le_highest (blocks : List (Nat × Nat)) : 4096 ≤ highest blocks ∧ ∀ b ∈ blocks, b.1 + b.2 ≤ highest blocks := by
  refine Lists.foldl_invariant (fun (done : List (Nat × Nat)) (top : Nat) => 4096 ≤ top ∧ ∀ b ∈ done, b.1 + b.2 ≤ top) ?_ ?_
  · exact ⟨le_rfl, fun _ mem => absurd mem not_mem_nil⟩
  · rintro done b top - ⟨low, old⟩
    refine ⟨le_trans low (Nat.le_max_left ..), fun c mem => ?_⟩
    rcases mem_append.1 mem with before | new
    · exact le_trans (old c before) (Nat.le_max_left ..)
    · rw [mem_singleton.1 new]
      exact Nat.le_max_right ..

/-- A `malloc` that returns memory behind all blocks. -/
def growingMalloc : Malloc where
  address blocks size := if highest blocks + size < 2 ^ 63 then some (highest blocks) else none
  positive {blocks size p} returned := by
    obtain ⟨-, ⟨⟩⟩ := Option.ite_none_right_eq_some.1 returned
    exact Nat.lt_of_lt_of_le (by decide) (le_highest blocks).1
  inside {blocks size p} returned := by
    obtain ⟨inside, ⟨⟩⟩ := Option.ite_none_right_eq_some.1 returned
    exact inside
  outside {blocks size p} returned b mem := by
    obtain ⟨-, ⟨⟩⟩ := Option.ite_none_right_eq_some.1 returned
    exact .inl ((le_highest blocks).2 b mem)

theorem alloc_returns_freed :
    ∃ fuel p s', noDBArenaAlloc growingMalloc fuel .query 10 (noDBArenaFree .query .initial) = some (p, s') :=
  (ArenaRun.start.free .query).alloc_returns .query (by decide) ⟨4096, by decide +kernel⟩

/-- Two allocations in one block. -/
theorem separated_twoAllocations :
    ∃ s, Separated s [⟨.query, 4096 + 24 + 16, 5⟩, ⟨.query, 4096 + 24, 10⟩] := by
  have first : ∃ s, noDBArenaAlloc growingMalloc 2 .query 10 .initial = some (4096 + 24, s) ∧
      ∃ s', noDBArenaAlloc growingMalloc 1 .query 5 s = some (4096 + 24 + 16, s') := ⟨_, rfl, _, rfl⟩
  obtain ⟨s, first, s', second⟩ := first
  exact ⟨s', ((ArenaRun.start.alloc .query (by decide) (by decide) first).alloc .query (by decide) (by decide)
    second).separated⟩

/-- **A size of `2 ^ 64 - 1` bytes is rounded up to nothing**, and the address of the static block's room is returned. -/
theorem not_separated_wrap :
    ¬ ∀ {s : ArenaState} {valid : List Allocation}, ArenaRun growingMalloc (2 ^ 64 - 1) s valid → Separated s valid := by
  intro separated
  have returned : ∃ s, noDBArenaAlloc growingMalloc 1 .query (2 ^ 64 - 1) .initial = some (0, s) ∧ s.mallocs = [] :=
    ⟨_, rfl, rfl⟩
  obtain ⟨s, returned, noBlocks⟩ := returned
  have run := ArenaRun.start.alloc .query (show 0 < 2 ^ 64 - 1 by decide) (Nat.le_refl _) returned
  obtain ⟨b, mem, -⟩ := (separated run).inside _ mem_cons_self
  rw [noBlocks] at mem
  exact absurd mem not_mem_nil

end PostgresRaw
