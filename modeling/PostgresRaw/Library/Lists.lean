import Mathlib.Data.List.Induction
import Mathlib.Data.List.Sort
import Mathlib.Logic.Function.Basic

/-!
# Loops over lists

Invariant rules for `foldl` and `foldlM`, and the loops that choose an element of a list.
-/

namespace Lists

open List

universe u v

variable {α : Type u} {σ : Type v}

variable {l : List α} {s : σ}

/-- The invariant rule for a loop; the invariant may refer to the elements handled so far. -/
theorem foldl_invariant {f : σ → α → σ} (I : List α → σ → Prop) (start : I [] s)
    (step : ∀ {done x s}, x ∈ l → I done s → I (done ++ [x]) (f s x)) : I l (l.foldl f s) := by
  induction l using List.reverseRecOn with
  | nil => exact start
  | append_singleton l x ih =>
    rw [foldl_append]
    exact step (by simp) (ih fun mem => step (mem_append_left _ mem))

/-- The invariant rule for a counting loop. -/
theorem foldl_range_invariant {f : σ → Nat → σ} {n : Nat} (I : Nat → σ → Prop) (start : I 0 s)
    (step : ∀ {i s}, i < n → I i s → I (i + 1) (f s i)) : I n ((List.range n).foldl f s) := by
  induction n with
  | zero => exact start
  | succ n ih =>
    rw [range_succ, foldl_append]
    exact step (Nat.lt_add_one n) (ih fun less inv => step (Nat.lt_succ_of_lt less) inv)

/-- The invariant rule for a loop that can fail. -/
theorem foldlM_invariant {f : σ → α → Option σ} {s' : σ} (I : List α → σ → Prop) (start : I [] s)
    (run : l.foldlM f s = some s') (step : ∀ {done x s s'}, x ∈ l → I done s → f s x = some s' → I (done ++ [x]) s') :
    I l s' := by
  induction l using List.reverseRecOn generalizing s' with
  | nil =>
    cases run
    exact start
  | append_singleton l x ih =>
    rw [foldlM_append] at run
    obtain ⟨t, first, last⟩ := Option.bind_eq_some_iff.1 run
    exact step (by simp) (ih first fun mem => step (mem_append_left _ mem)) (by simpa using last)

/-- A loop that cannot fail in states with the invariant ends. -/
theorem foldlM_isSome {f : σ → α → Option σ} (I : σ → Prop) (start : I s)
    (step : ∀ {x s}, x ∈ l → I s → ∃ s', f s x = some s' ∧ I s') : ∃ s', l.foldlM f s = some s' ∧ I s' := by
  induction l generalizing s with
  | nil => exact ⟨s, rfl, start⟩
  | cons x l ih =>
    obtain ⟨t, first, inv⟩ := step mem_cons_self start
    obtain ⟨s', rest, inv'⟩ := ih inv fun mem inv => step (mem_cons_of_mem x mem) inv
    exact ⟨s', by rw [foldlM_cons, first]; exact rest, inv'⟩

/-- Setting one entry and then the listed ones is setting all of them. -/
theorem ite_mem_update [DecidableEq α] {β : Type v} (new old : α → β) (a : α) (l : List α) :
    (fun b => if b ∈ l then new b else Function.update old a (new a) b) =
      fun b => if b ∈ a :: l then new b else old b := by
  funext b
  by_cases later : b ∈ l <;> by_cases same : b = a <;> simp [later, same]

/-- In a strictly increasing list, the elements below a bound come first. -/
theorem getElem?_takeWhile_lt {l : List Nat} (sorted : l.Pairwise (· < ·)) (bound : Nat) {j : Nat} :
    j < (l.takeWhile (· < bound)).length ↔ ∃ r, l[j]? = some r ∧ r < bound := by
  induction l generalizing j with
  | nil => simp
  | cons x l ih =>
    rw [pairwise_cons] at sorted
    by_cases below : x < bound
    · rw [takeWhile_cons_of_pos (by simpa using below), length_cons]
      cases j with
      | zero => simp [below]
      | succ j => simpa using ih sorted.2
    · rw [takeWhile_cons_of_neg (by simpa using below)]
      simp only [length_nil, Nat.not_lt_zero, false_iff, not_exists, not_and]
      intro r here
      have : x ≤ r := by
        rcases mem_cons.1 (mem_of_getElem? here) with rfl | mem
        · exact le_rfl
        · exact le_of_lt (sorted.1 r mem)
      omega

/-- An element of a list that one has been put behind. -/
theorem getElem?_concat_eq_some {a b : α} {i : Nat} (here : (l ++ [a])[i]? = some b) :
    l[i]? = some b ∨ i = l.length ∧ a = b := by
  by_cases old : i < l.length
  · rw [getElem?_append_left old] at here
    exact .inl here
  · rw [getElem?_append_right (not_lt.1 old), getElem?_singleton] at here
    split at here
    · exact .inr ⟨by omega, Option.some.inj here⟩
    · cases here

/-- What holds of all elements still does when one of them is changed. -/
theorem forall_mem_modify {P : α → Prop} {f : α → α} {i : Nat} (all : ∀ a ∈ l, P a)
    (keeps : ∀ {a}, l[i]? = some a → P (f a)) : ∀ a ∈ l.modify i f, P a := by
  intro b mem
  obtain ⟨j, here⟩ := getElem?_of_mem mem
  rw [getElem?_modify] at here
  obtain ⟨a, old, rfl⟩ := Option.map_eq_some_iff.1 here
  by_cases same : i = j
  · subst same
    simpa using keeps old
  · simpa [same] using all a (mem_of_getElem? old)

theorem takeWhile_congr {p q : α → Bool} (same : ∀ x ∈ l, p x = q x) : l.takeWhile p = l.takeWhile q := by
  induction l with
  | nil => rfl
  | cons x l ih =>
    rw [forall_mem_cons] at same
    rw [takeWhile_cons, takeWhile_cons, same.1, ih same.2]

/-- How far a loop gets that starts behind the element `i` of a strictly increasing list and goes
on while the elements are below a bound. -/
theorem le_add_takeWhile_drop {l : List Nat} (sorted : l.Pairwise (· < ·)) {p : Nat → Bool}
    {i : Nat} (bound : Nat) (below : ∀ n, i < n → ∀ r, l[n]? = some r → (p r = true ↔ r < bound)) {a : Nat}
    (less : i < a) : a ≤ i + ((l.drop (i + 1)).takeWhile p).length ↔ ∃ r, l[a]? = some r ∧ r < bound := by
  have same : (l.drop (i + 1)).takeWhile p = (l.drop (i + 1)).takeWhile (· < bound) := by
    refine takeWhile_congr fun r mem => ?_
    obtain ⟨n, here⟩ := getElem?_of_mem mem
    rw [getElem?_drop] at here
    rw [Bool.eq_iff_iff, below _ (by omega) r here, decide_eq_true_eq]
  have index := getElem?_takeWhile_lt (sorted.sublist (drop_sublist (i + 1) l)) bound
    (j := a - (i + 1))
  rw [getElem?_drop, show i + 1 + (a - (i + 1)) = a by omega] at index
  rw [same, ← index]
  omega

end Lists
