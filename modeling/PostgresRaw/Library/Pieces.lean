import Mathlib.Algebra.BigOperators.Group.List.Basic
import Mathlib.Algebra.Ring.Nat
import Mathlib.Data.List.Basic

/-!
# Pieces of a list

Cut a list at the elements where a running state says so: quotes that hide separators, nesting, or
nothing at all.  `split` gives the pieces between the cuts, `start` where each of them begins.
`slice_start` says that the pieces stand in the list where `start` says.
-/

namespace Pieces

open List

variable {α σ : Type} {next : σ → α → σ} {cuts : σ → α → Bool} {s : σ}

/-- The pieces of a list, read with a running state.  The elements at the cuts belong to no piece. -/
def split (next : σ → α → σ) (cuts : σ → α → Bool) : σ → List α → List (List α)
  | _, [] => [[]]
  | s, a :: as =>
    if cuts s a then [] :: split next cuts (next s a) as
    else (split next cuts (next s a) as).modifyHead (a :: ·)

/-- Where piece `k` begins: behind the pieces before it and their cuts. -/
def start (pieces : List (List α)) (k : Nat) : Nat := ((pieces.take k).map (·.length + 1)).sum

@[simp] theorem start_zero (pieces : List (List α)) : start pieces 0 = 0 := by
  simp [start]

@[simp] theorem start_cons_succ (piece : List α) (pieces : List (List α)) (k : Nat) :
    start (piece :: pieces) (k + 1) = piece.length + 1 + start pieces k := by
  simp [start]

theorem split_of_cut {a : α} (cut : cuts s a = true) (as : List α) :
    split next cuts s (a :: as) = [] :: split next cuts (next s a) as := by
  rw [split, if_pos cut]

theorem split_of_uncut {a : α} (uncut : cuts s a = false) (as : List α) :
    split next cuts s (a :: as) = (split next cuts (next s a) as).modifyHead (a :: ·) := by
  rw [split, if_neg (by simp [uncut])]

/-- There is always a first piece. -/
theorem exists_split_eq_cons (s : σ) (as : List α) : ∃ piece pieces, split next cuts s as = piece :: pieces := by
  induction as generalizing s with
  | nil => exact ⟨[], [], rfl⟩
  | cons a as ih =>
    obtain ⟨piece, pieces, rest⟩ := ih (next s a)
    cases cut : cuts s a with
    | true => exact ⟨_, _, split_of_cut cut as⟩
    | false => exact ⟨a :: piece, pieces, by rw [split_of_uncut cut, rest]; rfl⟩

variable {as piece : List α} {k : Nat}

/-- **A piece stands where it begins.** -/
theorem slice_start (here : (split next cuts s as)[k]? = some piece) :
    (as.drop (start (split next cuts s as) k)).take piece.length = piece := by
  induction as generalizing s k piece with
  | nil =>
    cases k with
    | zero => simp_all [split]
    | succ k => simp [split] at here
  | cons a as ih =>
    obtain ⟨first, others, rest⟩ := @exists_split_eq_cons _ _ next cuts (next s a) as
    have ih := @ih (next s a)
    rw [rest] at ih
    cases cut : cuts s a with
    | true =>
      rw [split_of_cut cut, rest] at here ⊢
      cases k with
      | zero => simp_all
      | succ k =>
        rw [start_cons_succ, length_nil, zero_add, add_comm, drop_succ_cons]
        exact ih (by simpa using here)
    | false =>
      rw [split_of_uncut cut, rest] at here ⊢
      cases k with
      | zero =>
        obtain rfl : a :: first = piece := by simpa using here
        simpa using ih (k := 0) rfl
      | succ k =>
        have := ih (k := k + 1) (by simpa using here)
        rw [start_cons_succ] at this
        rw [modifyHead_cons, start_cons_succ, length_cons,
          show first.length + 1 + 1 + start others k = first.length + 1 + start others k + 1 by omega, drop_succ_cons]
        exact this

/-- Behind all pieces the list is at its end. -/
theorem start_length (s : σ) (as : List α) :
    start (split next cuts s as) (split next cuts s as).length = as.length + 1 := by
  induction as generalizing s with
  | nil => rfl
  | cons a as ih =>
    obtain ⟨first, others, rest⟩ := @exists_split_eq_cons _ _ next cuts (next s a) as
    have ih := ih (next s a)
    rw [rest, length_cons, start_cons_succ] at ih
    cases cut : cuts s a with
    | true =>
      rw [split_of_cut cut, rest, length_cons, start_cons_succ, length_cons, start_cons_succ, length_cons, length_nil]
      omega
    | false =>
      rw [split_of_uncut cut, rest, modifyHead_cons, length_cons, start_cons_succ, length_cons, length_cons]
      omega

theorem start_add_length_lt {pieces : List (List α)} (here : pieces[k]? = some piece) :
    start pieces k + piece.length < start pieces pieces.length := by
  induction pieces generalizing k with
  | nil => simp at here
  | cons first others ih =>
    cases k with
    | zero =>
      obtain rfl : first = piece := by simpa using here
      rw [length_cons, start_cons_succ, start_zero]
      omega
    | succ k =>
      have := ih (by simpa using here)
      rw [length_cons, start_cons_succ, start_cons_succ]
      omega

/-- The pieces are inside the list. -/
theorem start_add_length_le (here : (split next cuts s as)[k]? = some piece) :
    start (split next cuts s as) k + piece.length ≤ as.length := by
  have := start_add_length_lt here
  rw [start_length] at this
  omega

/-- A single piece is the whole list. -/
theorem eq_of_split_eq_singleton (single : split next cuts s as = [piece]) : as = piece := by
  have whole := @start_length _ _ next cuts s as
  have first := slice_start (show (split next cuts s as)[0]? = some piece by rw [single]; rfl)
  rw [single, length_singleton, start_cons_succ, start_zero, add_zero, Nat.add_right_cancel_iff] at whole
  rw [start_zero, drop_zero, whole, take_length] at first
  exact first

end Pieces
