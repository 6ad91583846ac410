import Mathlib.Algebra.Ring.Nat
import Mathlib.Data.List.Basic

/-!
# Typed access to a byte buffer

A buffer is a list of bytes, and a byte is a piece of the value that was stored over it last.  So nothing
depends on how a value is represented, only on where it is: `load` gives back a value if all its pieces are
still there.  An access outside the buffer is `none`.

`CellLoop` is the rule for a loop that stores one cell after another: if the cells do not overlap, at the end
each of them reads as it was stored, and every byte outside the cells is what it was.
-/

namespace Memory

open List

/-- A byte of a buffer: nothing that has been stored, or byte `i` of a value. -/
inductive MemByte (V : Type) where
  | unset
  | piece (v : V) (i : Nat)
deriving DecidableEq

section

variable {V : Type}

/-- Store a value of `n` bytes. -/
def store (buf : List (MemByte V)) (pos n : Nat) (v : V) : Option (List (MemByte V)) :=
  if pos + n ≤ buf.length then
    some (buf.take pos ++ ((List.range n).map (MemByte.piece v) ++ buf.drop (pos + n)))
  else none

/-- Load a value of `n` bytes. -/
def load [DecidableEq V] (buf : List (MemByte V)) (pos n : Nat) : Option V :=
  match buf[pos]? with
  | some (.piece v 0) => if ∀ i < n, buf[pos + i]? = some (.piece v i) then some v else none
  | _ => none

/-- The second buffer is the first, apart from the bytes from `lo` to `hi`. -/
structure SameOutside (lo hi : Nat) (buf buf' : List (MemByte V)) : Prop where
  length : buf'.length = buf.length
  outside : ∀ k, k < lo ∨ hi ≤ k → buf'[k]? = buf[k]?

/-- The bytes from `lo` to `hi` are the same. -/
def SameInside (lo hi : Nat) (buf buf' : List (MemByte V)) : Prop := ∀ k, lo ≤ k → k < hi → buf'[k]? = buf[k]?

variable {a b buf : List (MemByte V)} {hi lo n pos : Nat}

theorem SameOutside.trans {c : List (MemByte V)} (first : SameOutside lo hi a b) (second : SameOutside lo hi b c) :
    SameOutside lo hi a c where
  length := second.length.trans first.length
  outside k out := (second.outside k out).trans (first.outside k out)

theorem SameOutside.widen {lo' hi' : Nat} (same : SameOutside lo hi a b) (le : lo' ≤ lo) (ge : hi ≤ hi') :
    SameOutside lo' hi' a b where
  length := same.length
  outside k out := same.outside k (by omega)

theorem SameOutside.inside {lo' hi' : Nat} (same : SameOutside lo hi a b) (apart : hi' ≤ lo ∨ hi ≤ lo') :
    SameInside lo' hi' a b :=
  fun k ge less => same.outside k (by omega)

/-- **A store inside the buffer** leaves the other bytes. -/
theorem store_of_fits (fits : pos + n ≤ buf.length) (v : V) :
    ∃ buf', store buf pos n v = some buf' ∧ SameOutside pos (pos + n) buf buf' ∧
      ∀ i < n, buf'[pos + i]? = some (.piece v i) := by
  have front : (buf.take pos).length = pos := length_take_of_le (by omega)
  have pieces : ((List.range n).map (MemByte.piece v)).length = n := by rw [length_map, length_range]
  refine ⟨_, if_pos fits, ⟨?_, fun k out => ?_⟩, fun i less => ?_⟩
  · simp only [length_append, front, pieces, length_drop]
    omega
  · rcases out with below | above
    · rw [getElem?_append_left (by omega), getElem?_take_of_lt below]
    · rw [getElem?_append_right (by omega), getElem?_append_right (by omega), getElem?_drop]
      congr 1
      omega
  · rw [getElem?_append_right (by omega), getElem?_append_left (by omega), getElem?_map, front,
      Nat.add_sub_cancel_left, getElem?_range less, Option.map_some]

variable [DecidableEq V]

/-- **What has been stored is loaded.** -/
theorem load_of_pieces {v : V} (nonempty : 0 < n) (pieces : ∀ i < n, buf[pos + i]? = some (.piece v i)) :
    load buf pos n = some v := by
  have first : buf[pos]? = some (.piece v 0) := pieces 0 nonempty
  rw [load, first]
  exact if_pos pieces

/-- A load depends on its bytes only. -/
theorem load_congr {buf' : List (MemByte V)} (nonempty : 0 < n) (same : SameInside pos (pos + n) buf buf') :
    load buf' pos n = load buf pos n := by
  have first : buf'[pos]? = buf[pos]? := same pos le_rfl (by omega)
  have all : ∀ v, (∀ i < n, buf'[pos + i]? = some (.piece v i)) ↔ ∀ i < n, buf[pos + i]? = some (.piece v i) := fun v =>
    forall₂_congr fun i less => by rw [same (pos + i) (by omega) (by omega)]
  simp only [load, first, all]

end

/-! ### Cells -/

section

variable {V σ κ : Type}

/-- A store into a cell, as a step of a loop over the keys of the cells.  `After` is what the steps do to the rest
of the state, and `Ready` what a step needs of it. -/
structure CellLoop (mem : σ → List (MemByte V)) (cell : Nat) (put : σ → Nat → κ → Option σ)
    (Reads : σ → Nat → κ → Prop) (After : σ → σ → Prop) (Ready : σ → κ → Prop) : Prop where
  refl : ∀ s, After s s
  trans : ∀ {s t u}, After s t → After t u → After s u
  ready : ∀ {s t c}, Ready s c → After s t → Ready t c
  put : ∀ {s pos c}, pos + cell ≤ (mem s).length → Ready s c → ∃ s', put s pos c = some s' ∧
    SameOutside pos (pos + cell) (mem s) (mem s') ∧ Reads s' pos c ∧ After s s'
  keeps : ∀ {s s' pos c}, Reads s pos c → After s s' → SameInside pos (pos + cell) (mem s) (mem s') → Reads s' pos c

variable {mem : σ → List (MemByte V)} {cell : Nat} {put : σ → Nat → κ → Option σ} {Reads : σ → Nat → κ → Prop}
  {After : σ → σ → Prop} {Ready : σ → κ → Prop}

/-- What holds after the cells of `done`. -/
structure CellLoop.Done (mem : σ → List (MemByte V)) (cell : Nat) (Reads : σ → Nat → κ → Prop) (After : σ → σ → Prop)
    (address : κ → Nat) (s : σ) (done : List κ) (s' : σ) : Prop where
  after : After s s'
  length : (mem s').length = (mem s).length
  reads : ∀ c ∈ done, Reads s' (address c) c
  outside : ∀ k, (∀ c ∈ done, k < address c ∨ address c + cell ≤ k) → (mem s')[k]? = (mem s)[k]?

/-- **A loop over cells** that do not overlap. -/
theorem CellLoop.loop (rule : CellLoop mem cell put Reads After Ready) {address : κ → Nat} {cells : List κ} {s : σ}
    (inside : ∀ c ∈ cells, address c + cell ≤ (mem s).length) (ready : ∀ c ∈ cells, Ready s c)
    (apart : ∀ c ∈ cells, ∀ d ∈ cells, c ≠ d → address c + cell ≤ address d ∨ address d + cell ≤ address c) :
    ∃ s', cells.foldlM (fun s c => put s (address c) c) s = some s' ∧
      CellLoop.Done mem cell Reads After address s cells s' := by
  suffices run : ∀ (todo done : List κ) (t : σ), (∀ c ∈ done ++ todo, c ∈ cells) →
      CellLoop.Done mem cell Reads After address s done t →
      ∃ s', todo.foldlM (fun s c => put s (address c) c) t = some s' ∧
        CellLoop.Done mem cell Reads After address s (done ++ todo) s' by
    exact run cells [] s (fun _ mem => mem)
      ⟨rule.refl s, rfl, fun _ mem => absurd mem not_mem_nil, fun _ _ => rfl⟩
  intro todo
  induction todo with
  | nil => exact fun done t _ sofar => ⟨t, rfl, by rwa [append_nil]⟩
  | cons c todo ih =>
    intro done t known sofar
    have isCell : c ∈ cells := known c (by simp)
    obtain ⟨u, stored, same, reads, after⟩ := rule.put
      (by rw [sofar.length]; exact inside c isCell) (rule.ready (ready c isCell) sofar.after)
    have next : CellLoop.Done mem cell Reads After address s (done ++ [c]) u := by
      refine ⟨rule.trans sofar.after after, same.length.trans sofar.length, fun d memd => ?_, fun k out => ?_⟩
      · by_cases this : d = c
        · rw [this]
          exact reads
        · have old : d ∈ done := by simpa [this] using memd
          exact rule.keeps (sofar.reads d old) after
            (same.inside (apart d (known d (by simp [old])) c isCell this))
      · rw [same.outside k (out c (by simp)), sofar.outside k fun d memd => out d (by simp [memd])]
    obtain ⟨s', run, finished⟩ := ih (done ++ [c]) u (by simpa using known) next
    exact ⟨s', by rw [foldlM_cons, stored]; exact run, by simpa using finished⟩

end

end Memory
