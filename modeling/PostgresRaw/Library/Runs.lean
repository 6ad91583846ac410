import Mathlib.Data.Option.Basic

/-!
# Runs of events

A system takes events one after the other; an event that is not possible in a state has no
successor.  `AllAlong` says that a property holds in every state of a run, `AllMeet` that every
event meets a condition in the state that it finds.
-/

namespace Runs

universe u v

variable {σ : Type u} {ε : Type v} (step : σ → ε → Option σ)

/-- The property holds in the state, and in every state of the run from it. -/
def AllAlong (P : σ → Prop) : σ → List ε → Prop
  | s, [] => P s
  | s, e :: es => P s ∧ ∀ s', step s e = some s' → AllAlong P s' es

/-- Every event of the run meets the condition. -/
def AllMeet (C : σ → ε → Prop) : σ → List ε → Prop
  | _, [] => True
  | s, e :: es => ∀ s', step s e = some s' → C s e ∧ AllMeet C s' es

variable {step} {P I : σ → Prop} {C : σ → ε → Prop}

/-- **The run rule**: in states with the invariant, the condition on an event is what keeps the
property. -/
theorem allAlong_iff_allMeet (keeps : ∀ {s e s'}, I s → P s → step s e = some s' → I s')
    (exact : ∀ {s e s'}, I s → P s → step s e = some s' → (P s' ↔ C s e)) {s : σ} (inv : I s) (start : P s)
    (es : List ε) : AllAlong step P s es ↔ AllMeet step C s es := by
  induction es generalizing s with
  | nil => exact iff_of_true start trivial
  | cons e es ih =>
    constructor
    · rintro ⟨-, later⟩ s' taken
      have along := later s' taken
      have next : P s' := by
        cases es with
        | nil => exact along
        | cons _ _ => exact along.1
      exact ⟨(exact inv start taken).1 next, (ih (keeps inv start taken) next).1 along⟩
    · intro meet
      refine ⟨start, fun s' taken => ?_⟩
      obtain ⟨now, later⟩ := meet s' taken
      exact (ih (keeps inv start taken) ((exact inv start taken).2 now)).2 later

end Runs
