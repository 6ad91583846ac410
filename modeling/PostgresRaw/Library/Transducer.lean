import Mathlib.Data.List.Basic

/-!
# Partial transducers

A transducer reads its input from left to right.  At every symbol it moves to another state and emits some output, or
gives up.  `run_append` cuts a run where its input is cut, and `run_invariant` is the rule by which a property of what
has been read, the state and what has been emitted is carried along.
-/

namespace Transducer

open List

variable {σ α β : Type} {step : σ → α → Option (σ × List β)}

/-- The state and the output after the input has been read, if it can be. -/
def run (step : σ → α → Option (σ × List β)) : σ → List α → Option (σ × List β)
  | s, [] => some (s, [])
  | s, a :: input => (step s a).bind fun (t, first) => (run step t input).map fun (u, rest) => (u, first ++ rest)

theorem run_cons_eq_some {s u : σ} {a : α} {input : List α} {out : List β} : run step s (a :: input) = some (u, out) ↔
      ∃ t first rest, step s a = some (t, first) ∧ run step t input = some (u, rest) ∧ out = first ++ rest := by
  rw [run, Option.bind_eq_some_iff]
  constructor
  · rintro ⟨⟨t, first⟩, stepped, later⟩
    obtain ⟨⟨u', rest⟩, ran, same⟩ := Option.map_eq_some_iff.1 later
    cases same
    exact ⟨t, first, rest, stepped, ran, rfl⟩
  · rintro ⟨t, first, rest, stepped, ran, rfl⟩
    refine ⟨(t, first), stepped, ?_⟩
    simp only [ran, Option.map_some]

/-- **A run can be cut.** -/
theorem run_append {s u : σ} {xs ys : List α} {out : List β} : run step s (xs ++ ys) = some (u, out) ↔
      ∃ t first rest, run step s xs = some (t, first) ∧ run step t ys = some (u, rest) ∧ out = first ++ rest := by
  induction xs generalizing s out with
  | nil =>
    constructor
    · intro ran
      exact ⟨s, [], out, rfl, ran, rfl⟩
    · rintro ⟨t, first, rest, none, ran, rfl⟩
      cases none
      exact ran
  | cons a xs ih =>
    rw [cons_append, run_cons_eq_some]
    constructor
    · rintro ⟨t, first, rest, stepped, ran, rfl⟩
      obtain ⟨t', first', rest', before, after, rfl⟩ := ih.1 ran
      exact ⟨t', first ++ first', rest', run_cons_eq_some.2 ⟨t, first, first', stepped, before, rfl⟩, after,
        (append_assoc ..).symm⟩
    · rintro ⟨t', first, rest, ran, after, rfl⟩
      obtain ⟨t, first₁, first₂, stepped, before, rfl⟩ := run_cons_eq_some.1 ran
      exact ⟨t, first₁, first₂ ++ rest, stepped, ih.2 ⟨t', first₂, rest, before, after, rfl⟩, append_assoc ..⟩

/-- **A property that every step keeps** holds at the end of a run. -/
theorem run_invariant {P : List α → σ → List β → Prop} {s t : σ} {input : List α} {out : List β}
    (ran : run step s input = some (t, out)) (start : P [] s [])
    (keeps : ∀ {done u out a v more}, P done u out → a ∈ input → step u a = some (v, more) →
      P (done ++ [a]) v (out ++ more)) : P input t out := by
  suffices all : ∀ {before : List α} {emitted : List β} {u : σ} {rest : List α} {later : List β}, P before u emitted →
      before ++ rest = input → run step u rest = some (t, later) → P input t (emitted ++ later) from
    all start (nil_append _) ran
  intro before emitted u rest later holds cut ran
  induction rest generalizing before emitted u later with
  | nil =>
    cases ran
    rw [append_nil] at cut ⊢
    exact cut ▸ holds
  | cons a rest ih =>
    obtain ⟨v, first, more, stepped, after, rfl⟩ := run_cons_eq_some.1 ran
    have mem : a ∈ input := by
      rw [← cut]
      exact mem_append_right _ mem_cons_self
    rw [← append_assoc]
    exact ih (keeps holds mem stepped) (by rw [append_assoc]; exact cut) after

end Transducer
