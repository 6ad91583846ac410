import Mathlib.Data.Option.Basic
import Mathlib.Data.List.Basic

/-!
# Machines that deliver items

A machine is stepped until it has delivered a number of items, has none left, or fails; `fuel`
bounds the steps in between.  A run for `n + m` items is a run for `n` followed by one for `m` from
where it stopped (`run_add`), and a run that makes no use of a part of the configuration is the
same whatever that part is (`run_embed`).
-/

namespace Pull

open Option

universe u v w

variable {γ : Type u} {γ' : Type w} {T : Type v}

/-- What one step of a machine comes to. -/
inductive Output (γ : Type u) (T : Type v) where
  | silent (next : γ)
  | item (t : T) (next : γ)
  | last (next : γ)
  | failed (next : γ)

/-- The same output of a machine with another configuration. -/
def Output.map (f : γ → γ') : Output γ T → Output γ' T
  | .silent next => .silent (f next)
  | .item t next => .item t (f next)
  | .last next => .last (f next)
  | .failed next => .failed (f next)

/-- The configuration that a step leads to. -/
def Output.next : Output γ T → γ
  | .silent next => next
  | .item _ next => next
  | .last next => next
  | .failed next => next

def Output.isFailed : Output γ T → Bool
  | .failed _ => true
  | _ => false

/-- Why a run has ended: it has delivered what was asked for, there is nothing left, or it has
failed. -/
inductive Ending where
  | stopped
  | ended
  | failed
deriving DecidableEq, Repr

/-- The items that a run has delivered, and where it has ended. -/
structure Delivery (γ : Type u) (T : Type v) where
  items : List T
  ending : Ending
  config : γ

/-- Put an item in front. -/
def Delivery.cons (t : T) (d : Delivery γ T) : Delivery γ T := { d with items := t :: d.items }

/-- Run a machine for up to `count` items. -/
def run (step : γ → Output γ T) : (fuel count : Nat) → γ → Option (Delivery γ T)
  | _, 0, c => some ⟨[], .stopped, c⟩
  | 0, _ + 1, _ => none
  | fuel + 1, count + 1, c =>
    match step c with
    | .silent next => run step fuel (count + 1) next
    | .item t next => (run step fuel count next).map (.cons t)
    | .last next => some ⟨[], .ended, next⟩
    | .failed next => some ⟨[], .failed, next⟩

variable {step : γ → Output γ T}

theorem run_zero (fuel : Nat) (c : γ) : run step fuel 0 c = some ⟨[], .stopped, c⟩ := by
  cases fuel <;> rfl

variable {d : Delivery γ T} {count fuel n : Nat} {c : γ}

/-- What every step keeps holds at the end of a run. -/
theorem run_invariant {P : γ → Prop} (kept : ∀ c, P c → P (step c).next) (start : P c)
    (result : run step fuel count c = some d) : P d.config := by
  induction fuel generalizing count c d with
  | zero =>
    cases count with
    | zero =>
      rw [run_zero] at result
      cases result
      exact start
    | succ count => cases result
  | succ fuel ih =>
    cases count with
    | zero =>
      rw [run_zero] at result
      cases result
      exact start
    | succ count =>
      have next := kept c start
      simp only [run] at result
      split at result
      · next output =>
        rw [output] at next
        exact ih next result
      · next output =>
        rw [output] at next
        obtain ⟨d', delivered, rfl⟩ := map_eq_some_iff.1 result
        exact ih (d := d') next delivered
      · next output =>
        rw [output] at next
        cases result
        exact next
      · next output =>
        rw [output] at next
        cases result
        exact next

/-- A run that has nothing left has stepped from a configuration that has what every step keeps. -/
theorem exists_last {P : γ → Prop} (silent : ∀ {c next}, P c → step c = .silent next → P next)
    (item : ∀ {c t next}, P c → step c = .item t next → P next) (start : P c) (result : run step fuel count c = some d)
    (ended : d.ending = .ended) : ∃ c', P c' ∧ step c' = .last d.config := by
  induction fuel generalizing count c d with
  | zero =>
    cases count with
    | zero =>
      rw [run_zero] at result
      cases result
      cases ended
    | succ count => cases result
  | succ fuel ih =>
    cases count with
    | zero =>
      rw [run_zero] at result
      cases result
      cases ended
    | succ count =>
      simp only [run] at result
      split at result
      · next output => exact ih (silent start output) result ended
      · next output =>
        obtain ⟨d', delivered, rfl⟩ := map_eq_some_iff.1 result
        exact ih (d := d') (item start output) delivered ended
      · next output =>
        cases result
        exact ⟨c, start, output⟩
      · cases result
        cases ended

/-- More fuel changes nothing. -/
theorem run_mono (result : run step fuel count c = some d) (more : Nat) : run step (fuel + more) count c = some d := by
  induction fuel generalizing count c d with
  | zero =>
    cases count with
    | zero => rw [run_zero] at result ⊢; exact result
    | succ count => cases result
  | succ fuel ih =>
    cases count with
    | zero => rw [run_zero] at result ⊢; exact result
    | succ count =>
      rw [Nat.succ_add]
      simp only [run] at result ⊢
      split at result
      · exact ih result
      · obtain ⟨d', delivered, rfl⟩ := map_eq_some_iff.1 result
        rw [ih delivered]
        rfl
      · exact result
      · exact result

/-- A run for fewer items comes to an end as well. -/
theorem exists_run_of_add {m : Nat} (result : run step fuel (n + m) c = some d) :
    ∃ d', run step fuel n c = some d' := by
  induction fuel generalizing n c d with
  | zero =>
    cases n with
    | zero => exact ⟨_, run_zero ..⟩
    | succ n => rw [Nat.succ_add] at result; cases result
  | succ fuel ih =>
    cases n with
    | zero => exact ⟨_, run_zero ..⟩
    | succ n =>
      rw [Nat.succ_add] at result
      simp only [run] at result ⊢
      split at result
      · rw [Nat.add_right_comm] at result
        exact ih result
      · obtain ⟨d', delivered, -⟩ := map_eq_some_iff.1 result
        obtain ⟨d'', shorter⟩ := ih delivered
        exact ⟨_, by rw [shorter]; rfl⟩
      · exact ⟨_, rfl⟩
      · exact ⟨_, rfl⟩

/-- **A run goes on where a shorter one has stopped.** -/
theorem run_add {fuel' m : Nat} {d' : Delivery γ T} (first : run step fuel n c = some d) (stopped : d.ending = .stopped)
    (second : run step fuel' m d.config = some d') :
    run step (fuel + fuel') (n + m) c = some { d' with items := d.items ++ d'.items } := by
  induction fuel generalizing n c d with
  | zero =>
    cases n with
    | zero =>
      rw [run_zero] at first
      cases first
      rw [Nat.zero_add, Nat.zero_add]
      exact second
    | succ n => cases first
  | succ fuel ih =>
    cases n with
    | zero =>
      rw [run_zero] at first
      cases first
      rw [Nat.zero_add, Nat.add_comm]
      exact run_mono second _
    | succ n =>
      rw [Nat.succ_add, Nat.succ_add]
      simp only [run] at first ⊢
      split at first
      · rw [Nat.add_right_comm]
        exact ih first stopped second
      · obtain ⟨d₁, delivered, rfl⟩ := map_eq_some_iff.1 first
        rw [ih delivered stopped second]
        rfl
      · cases first
        cases stopped
      · cases first
        cases stopped

/-- A run that has ended before its count is the same for any larger count. -/
theorem run_add_of_not_stopped (result : run step fuel n c = some d) (early : d.ending ≠ .stopped) (m : Nat) :
    run step fuel (n + m) c = some d := by
  induction fuel generalizing n c d with
  | zero =>
    cases n with
    | zero =>
      rw [run_zero] at result
      cases result
      exact absurd rfl early
    | succ n => cases result
  | succ fuel ih =>
    cases n with
    | zero =>
      rw [run_zero] at result
      cases result
      exact absurd rfl early
    | succ n =>
      rw [Nat.succ_add]
      simp only [run] at result ⊢
      split at result
      · rw [Nat.add_right_comm]
        exact ih result early
      · obtain ⟨d', delivered, rfl⟩ := map_eq_some_iff.1 result
        rw [ih delivered early]
        rfl
      · exact result
      · exact result

/-- **A run that a machine makes alone** is the same inside a larger one that takes the same steps. -/
theorem run_embed {own : γ → Output γ T} {step : γ' → Output γ' T} {embed : γ → γ'}
    (agree : ∀ c, (own c).isFailed = false → step (embed c) = (own c).map embed) (result : run own fuel n c = some d)
    (alone : d.ending ≠ .failed) : run step fuel n (embed c) = some ⟨d.items, d.ending, embed d.config⟩ := by
  induction fuel generalizing n c d with
  | zero =>
    cases n with
    | zero =>
      rw [run_zero] at result ⊢
      cases result
      rfl
    | succ n => cases result
  | succ fuel ih =>
    cases n with
    | zero =>
      rw [run_zero] at result ⊢
      cases result
      rfl
    | succ n =>
      have taken := agree c
      simp only [run] at result ⊢
      split at result
      · next output =>
        rw [output] at taken
        rw [taken rfl]
        exact ih result alone
      · next output =>
        rw [output] at taken
        rw [taken rfl]
        obtain ⟨d', delivered, rfl⟩ := map_eq_some_iff.1 result
        simp only [Output.map]
        rw [ih delivered alone]
        rfl
      · next output =>
        rw [output] at taken
        rw [taken rfl]
        cases result
        rfl
      · cases result
        exact absurd rfl alone

end Pull
