import Mathlib.Algebra.BigOperators.Group.List.Basic
import Mathlib.Algebra.Ring.Nat
import Mathlib.Data.List.Basic
import Mathlib.Data.List.Chain
import Mathlib.Data.List.Pairwise

/-!
# Parts of a range

A range is cut into parts, each of which is free or belongs to an owner.  `slots` lists what the owners
have: where a part begins and how long it is.  Slots never overlap (`pairwise_slots`), whatever the list
looks like.

Two operations change the list: a free part is carved, so that its front gets an owner, and a part is
released, which joins it with a free part behind it.  Both leave the slots of all others where they are.
-/

namespace Parts

open List

/-- A part of the range. -/
structure Extent (α : Type) where
  size : Nat
  owner : Option α

/-- What an owner has. -/
structure Slot (α : Type) where
  owner : α
  offset : Nat
  size : Nat

variable {α : Type}

/-- The length of the range. -/
def total (parts : List (Extent α)) : Nat := (parts.map (·.size)).sum

/-- How much of the range is free. -/
def free (parts : List (Extent α)) : Nat := ((parts.filter fun p => p.owner.isNone).map (·.size)).sum

/-- The slots of a range that begins at `base`. -/
def slots : (base : Nat) → List (Extent α) → List (Slot α)
  | _, [] => []
  | base, ⟨n, none⟩ :: parts => slots (base + n) parts
  | base, ⟨n, some a⟩ :: parts => ⟨a, base, n⟩ :: slots (base + n) parts

@[simp] theorem total_nil : total ([] : List (Extent α)) = 0 := rfl

@[simp] theorem total_cons (p : Extent α) (parts : List (Extent α)) : total (p :: parts) = p.size + total parts := by
  simp [total]

@[simp] theorem total_append (front back : List (Extent α)) : total (front ++ back) = total front + total back := by
  simp [total]

@[simp] theorem free_nil : free ([] : List (Extent α)) = 0 := rfl

@[simp] theorem free_cons_none (n : Nat) (parts : List (Extent α)) : free (⟨n, none⟩ :: parts) = n + free parts := by
  simp [free]

@[simp] theorem free_cons_some (n : Nat) (a : α) (parts : List (Extent α)) : free (⟨n, some a⟩ :: parts) = free parts := by
  simp [free]

@[simp] theorem free_append (front back : List (Extent α)) : free (front ++ back) = free front + free back := by
  simp [free]

/-- The slots of a range that is cut in two. -/
theorem slots_append (base : Nat) (front back : List (Extent α)) :
    slots base (front ++ back) = slots base front ++ slots (base + total front) back := by
  induction front generalizing base with
  | nil => rfl
  | cons p front ih =>
    obtain ⟨n, owner⟩ := p
    cases owner <;> simp [slots, ih, add_assoc]

variable {parts back front : List (Extent α)} {base n : Nat} {s : Slot α} {a : α}

/-- Slots are inside the range. -/
theorem bounds_of_mem_slots (mem : s ∈ slots base parts) :
    base ≤ s.offset ∧ s.offset + s.size ≤ base + total parts := by
  induction parts generalizing base with
  | nil => cases mem
  | cons p parts ih =>
    obtain ⟨n, owner⟩ := p
    rw [total_cons]
    cases owner with
    | none =>
      have := ih mem
      dsimp only
      omega
    | some a =>
      rcases mem_cons.1 mem with rfl | mem
      · dsimp only
        omega
      · have := ih mem
        dsimp only
        omega

/-- **Slots do not overlap**: each begins behind those in front of it. -/
theorem pairwise_slots (base : Nat) (parts : List (Extent α)) :
    (slots base parts).Pairwise fun s t => s.offset + s.size ≤ t.offset := by
  induction parts generalizing base with
  | nil => exact .nil
  | cons p parts ih =>
    obtain ⟨n, owner⟩ := p
    cases owner with
    | none => exact ih _
    | some a => exact pairwise_cons.2 ⟨fun t mem => (bounds_of_mem_slots mem).1, ih _⟩

/-- Two slots do not overlap. -/
def Slot.Apart (s t : Slot α) : Prop := s.offset + s.size ≤ t.offset ∨ t.offset + t.size ≤ s.offset

instance : Std.Symm (Slot.Apart (α := α)) := ⟨fun _ _ => Or.symm⟩

theorem apart_of_mem_slots {t : Slot α} (hs : s ∈ slots base parts) (ht : t ∈ slots base parts)
    (different : s.owner ≠ t.owner) : s.Apart t :=
  ((pairwise_slots base parts).imp .inl : (slots base parts).Pairwise Slot.Apart).forall hs ht
    fun same => different (by rw [same])

/-! ### Carving and releasing -/

/-- What a free part of length `n` is replaced by when its front goes to `a`. -/
def carve (n size : Nat) (a : α) : List (Extent α) :=
  if n = size then [⟨size, some a⟩] else [⟨size, some a⟩, ⟨n - size, none⟩]

section

variable {n size : Nat} {a : α}

theorem total_carve (fits : size ≤ n) : total (carve n size a) = n := by
  rw [carve]
  split <;> simp [total] <;> omega

theorem free_carve : free (carve n size a) = n - size := by
  rw [carve]
  split
  · rw [free_cons_some, free_nil]
    omega
  · rw [free_cons_some, free_cons_none, free_nil, add_zero]

theorem slots_carve (base : Nat) : slots base (carve n size a) = [⟨a, base, size⟩] := by
  rw [carve]
  split <;> rfl

theorem size_pos_of_mem_carve (fits : size ≤ n) (positive : 0 < size) {p : Extent α} (mem : p ∈ carve n size a) : 0 < p.size := by
  rw [carve] at mem
  split at mem
  · rw [mem_singleton.1 mem]
    exact positive
  · rcases mem_cons.1 mem with rfl | mem
    · exact positive
    · rw [mem_singleton.1 mem]
      dsimp only
      omega

theorem slots_append_free (front back : List (Extent α)) (n : Nat) :
    slots 0 (front ++ ⟨n, none⟩ :: back) = slots 0 front ++ slots (total front + n) back := by
  rw [slots_append, zero_add, slots]

theorem slots_append_carve (front back : List (Extent α)) (fits : size ≤ n) :
    slots 0 (front ++ (carve n size a ++ back)) = slots 0 front ++ ⟨a, total front, size⟩ :: slots (total front + n) back := by
  rw [slots_append, slots_append, slots_carve, total_carve fits, zero_add, singleton_append]

/-- **Carving** adds a slot and leaves the others. -/
theorem mem_slots_carve {front back : List (Extent α)} (fits : size ≤ n) {s : Slot α} :
    s ∈ slots 0 (front ++ (carve n size a ++ back)) ↔
      s = ⟨a, total front, size⟩ ∨ s ∈ slots 0 (front ++ ⟨n, none⟩ :: back) := by
  rw [slots_append_carve front back fits, slots_append_free, mem_append, mem_append, mem_cons]
  exact or_left_comm

end

/-- What a part of length `n` and those behind it become when it is released: the free part behind it is
joined with it. -/
def release (n : Nat) : List (Extent α) → List (Extent α)
  | ⟨k, none⟩ :: back => ⟨n + k, none⟩ :: back
  | back => ⟨n, none⟩ :: back

theorem total_release (n : Nat) (back : List (Extent α)) : total (release n back) = n + total back := by
  unfold release
  split <;> simp [add_assoc]

theorem free_release (n : Nat) (back : List (Extent α)) : free (release n back) = n + free back := by
  unfold release
  split <;> simp [add_assoc]

theorem slots_release (base n : Nat) (back : List (Extent α)) : slots base (release n back) = slots (base + n) back := by
  unfold release
  split <;> simp [slots, add_assoc]

theorem size_pos_of_mem_release (nonempty : 0 < n) (positive : ∀ p ∈ back, 0 < p.size) {p : Extent α}
    (mem : p ∈ release n back) : 0 < p.size := by
  unfold release at mem
  split at mem
  · rcases mem_cons.1 mem with rfl | mem
    · exact Nat.add_pos_left nonempty _
    · exact positive p (mem_cons_of_mem _ mem)
  · rcases mem_cons.1 mem with rfl | mem
    · exact nonempty
    · exact positive p mem

theorem slots_append_owned (front back : List (Extent α)) (n : Nat) (a : α) :
    slots 0 (front ++ ⟨n, some a⟩ :: back) = slots 0 front ++ ⟨a, total front, n⟩ :: slots (total front + n) back := by
  rw [slots_append, zero_add, slots]

theorem slots_append_release (front back : List (Extent α)) (n : Nat) :
    slots 0 (front ++ release n back) = slots 0 front ++ slots (total front + n) back := by
  rw [slots_append, zero_add, slots_release]

/-- **Releasing** takes away a slot and leaves the others. -/
theorem mem_slots_release : s ∈ slots 0 (front ++ ⟨n, some a⟩ :: back) ↔
      s = ⟨a, total front, n⟩ ∨ s ∈ slots 0 (front ++ release n back) := by
  rw [slots_append_owned, slots_append_release, mem_append, mem_append, mem_cons]
  exact or_left_comm

/-- The part of a slot. -/
theorem exists_part_of_mem_slots (mem : s ∈ slots base parts) :
    ∃ front back, parts = front ++ ⟨s.size, some s.owner⟩ :: back ∧ s.offset = base + total front := by
  induction parts generalizing base with
  | nil => cases mem
  | cons p parts ih =>
    obtain ⟨n, owner⟩ := p
    cases owner with
    | none =>
      obtain ⟨front, back, rfl, start⟩ := ih mem
      exact ⟨⟨n, none⟩ :: front, back, rfl, by rw [start, total_cons, add_assoc]⟩
    | some a =>
      rcases mem_cons.1 mem with rfl | mem
      · exact ⟨[], parts, rfl, rfl⟩
      · obtain ⟨front, back, rfl, start⟩ := ih mem
        exact ⟨⟨n, some a⟩ :: front, back, rfl, by rw [start, total_cons, add_assoc]⟩

/-! ### Adjacent free parts -/

/-- No two free parts are next to each other. -/
def Separated (parts : List (Extent α)) : Prop := parts.IsChain fun p q => p.owner.isSome = true ∨ q.owner.isSome = true

theorem Separated.carve {size : Nat} (separated : Separated (front ++ ⟨n, none⟩ :: back)) :
    Separated (front ++ (carve n size a ++ back)) := by
  obtain ⟨chain, behind, -⟩ := isChain_append.1 separated
  obtain ⟨next, rest⟩ := isChain_cons.1 behind
  refine isChain_append.2 ⟨chain, ?_, fun p _ q first => .inr ?_⟩
  · rw [Parts.carve]
    split
    · exact isChain_cons.2 ⟨fun _ _ => .inl rfl, rest⟩
    · refine isChain_cons.2 ⟨fun _ _ => .inl rfl, isChain_cons.2 ⟨fun q first => ?_, rest⟩⟩
      exact .inr ((next q first).resolve_left (by simp))
  · rw [Parts.carve] at first
    split at first <;> cases first <;> rfl

theorem isChain_release (separated : Separated back) : Separated (release n back) := by
  unfold release
  split
  · next k rest =>
    obtain ⟨next, rest⟩ := isChain_cons.1 separated
    exact isChain_cons.2 ⟨fun q first => .inr ((next q first).resolve_left (by simp)), rest⟩
  · next other =>
    refine isChain_cons.2 ⟨fun q first => .inr ?_, separated⟩
    obtain ⟨k, owner⟩ := q
    cases owner with
    | some a => rfl
    | none =>
      cases back with
      | nil => cases first
      | cons q back =>
        cases first
        exact absurd rfl (other k back)

/-- A released part is next to no free part, unless one is in front of it. -/
theorem separated_release_iff (separated : Separated (front ++ ⟨n, some a⟩ :: back)) :
    Separated (front ++ release n back) ↔ ∀ p ∈ front.getLast?, p.owner.isSome = true := by
  obtain ⟨chain, behind, -⟩ := isChain_append.1 separated
  have released := isChain_release (n := n) (isChain_cons.1 behind).2
  have free : ∃ q, q ∈ (release n back).head? ∧ q.owner = none := by
    unfold release
    split
    · exact ⟨_, rfl, rfl⟩
    · exact ⟨_, rfl, rfl⟩
  obtain ⟨q, first, noOwner⟩ := free
  refine ⟨fun joined p last => ?_, fun owned => isChain_append.2 ⟨chain, released, fun p last q _ => .inl (owned p last)⟩⟩
  exact ((isChain_append.1 joined).2.2 p last q first).resolve_right (by simp [noOwner])

end Parts
