import Mathlib.Data.List.Basic
import Mathlib.Data.List.Nodup
import Mathlib.Logic.Function.Basic

/-!
# Linked lists

Cells with a link to the next one.  `Chain next start cells` says that from `start` the links lead through `cells`
and end there.  A chain that ends is determined by its start, so it has no cycle (`Chain.nodup`), and links outside
it do not matter (`Chain.congr`).

Lists are changed by storing one link.  `Chain.splice` is the one case in which a chain is not left as it is: the
last cell of a chain gets the start of another one as its link.
-/

namespace Links

open List

universe u v

variable {α : Type u} {β : Type v}

/-- From `start` the links lead through the cells, and end. -/
def Chain (next : α → Option α) : (start : Option α) → List α → Prop
  | start, [] => start = none
  | start, x :: cells => start = some x ∧ Chain next (next x) cells

variable {next next' : α → Option α} {start start' : Option α} {x : α} {cells cells' : List α}

theorem chain_cons : Chain next start (x :: cells) ↔ start = some x ∧ Chain next (next x) cells := Iff.rfl

namespace Chain

/-- The cells are determined by the start. -/
theorem unique (first : Chain next start cells) (second : Chain next start cells') : cells = cells' := by
  induction cells generalizing start cells' with
  | nil =>
    cases cells' with
    | nil => rfl
    | cons y cells' => exact absurd (first.symm.trans second.1) (Option.some_ne_none y).symm
  | cons x cells ih =>
    cases cells' with
    | nil => exact absurd (second.symm.trans first.1) (Option.some_ne_none x).symm
    | cons y cells' =>
      obtain rfl := Option.some.inj (first.1.symm.trans second.1)
      rw [ih first.2 second.2]

/-- What is behind a cell is a chain. -/
theorem of_append (chain : Chain next start (cells ++ x :: cells')) : Chain next (next x) cells' := by
  induction cells generalizing start with
  | nil => exact chain.2
  | cons y cells ih => exact ih chain.2

/-- **There is no cycle.** -/
theorem nodup (chain : Chain next start cells) : cells.Nodup := by
  induction cells generalizing start with
  | nil => exact nodup_nil
  | cons x cells ih =>
    refine nodup_cons.2 ⟨fun again => ?_, ih chain.2⟩
    -- from a second occurrence of `x` the links would lead through the same cells, which are fewer
    obtain ⟨front, back, rfl⟩ := append_of_mem again
    have same := congrArg List.length (unique chain.2 (of_append chain.2))
    simp only [length_append, length_cons] at same
    omega

/-- Only the links of the cells matter. -/
theorem congr (chain : Chain next start cells) (same : ∀ x ∈ cells, next' x = next x) : Chain next' start cells := by
  induction cells generalizing start with
  | nil => exact chain
  | cons x cells ih =>
    rw [forall_mem_cons] at same
    refine ⟨chain.1, ?_⟩
    rw [same.1]
    exact ih chain.2 same.2

variable [DecidableEq α]

/-- A link that is stored outside the chain. -/
theorem update (chain : Chain next start cells) (outside : x ∉ cells) (link : Option α) :
    Chain (Function.update next x link) start cells := by
  refine chain.congr fun y mem => ?_
  have different : y ≠ x := fun same => outside (same ▸ mem)
  rw [Function.update_of_ne different]

/-- **The last cell is linked to another chain.** -/
theorem splice (first : Chain next start (cells ++ [x])) (second : Chain next start' cells') (outside : x ∉ cells') :
    Chain (Function.update next x start') start (cells ++ [x] ++ cells') := by
  induction cells generalizing start with
  | nil =>
    refine ⟨first.1, ?_⟩
    rw [Function.update_self]
    exact second.update outside start'
  | cons y cells ih =>
    have different : y ≠ x := by
      rintro rfl
      exact (nodup_cons.1 first.nodup).1 (mem_append_right _ (mem_singleton_self _))
    refine ⟨first.1, ?_⟩
    rw [Function.update_of_ne different]
    exact ih first.2

end Chain

/-- Cells under other names. -/
theorem chain_map {next : β → Option β} {names : List α} {f : α → β} (injective : Function.Injective f)
    {next' : α → Option α} (same : ∀ x, next (f x) = (next' x).map f) {start : Option α} :
    Chain next (start.map f) (names.map f) ↔ Chain next' start names := by
  induction names generalizing start with
  | nil => exact Option.map_eq_none_iff
  | cons x names ih =>
    rw [map_cons, chain_cons, chain_cons, same, ih]
    refine and_congr_left fun _ => ?_
    exact ⟨fun mapped => Option.map_injective injective mapped, fun start => congrArg (Option.map f) start⟩

end Links
