import Mathlib.Data.List.Basic
import Mathlib.Logic.Function.Basic
import Mathlib.Logic.Nontrivial.Basic

/-!
# Partial assignments of a vector

A computation on a vector `α → β` that may fail *assigns* a list of entries if it leaves the others
alone, and what it puts into them does not depend on the vector it starts from, nor does whether it
fails.  Assignments compose, and a loop of assignments is one.
-/

namespace Assigns

open Option List

variable {α β : Type}

/-- The computation sets the entries `keys`, and nothing else, to values of its own. -/
structure Sets (f : (α → β) → Option (α → β)) (keys : List α) : Prop where
  others : ∀ {v v' : α → β}, f v = some v' → ∀ {k}, k ∉ keys → v' k = v k
  own : ∀ {v v' : α → β}, f v = some v' → ∀ old, ∃ v'', f old = some v'' ∧ ∀ k ∈ keys, v'' k = v' k

variable {f g : (α → β) → Option (α → β)} {keys more : List α}

theorem Sets.nil : Sets (some : (α → β) → Option (α → β)) [] where
  others done _ _ := by
    cases done
    rfl
  own _ old := ⟨old, rfl, nofun⟩

/-- What always fails sets whatever one likes. -/
theorem Sets.fails (fails : ∀ v, f v = none) : Sets f keys :=
  ⟨fun done => absurd done (by simp [fails]), fun done => absurd done (by simp [fails])⟩

/-- One after the other. -/
theorem Sets.comp (first : Sets f keys) (second : Sets g more) : Sets (fun v => (f v).bind g) (keys ++ more) where
  others {v v'} done k absent := by
    obtain ⟨v₁, done₁, done₂⟩ := bind_eq_some_iff.1 done
    rw [mem_append, not_or] at absent
    exact (second.others done₂ absent.2).trans (first.others done₁ absent.1)
  own {v v'} done old := by
    obtain ⟨v₁, done₁, done₂⟩ := bind_eq_some_iff.1 done
    obtain ⟨u₁, again₁, same₁⟩ := first.own done₁ old
    obtain ⟨u₂, again₂, same₂⟩ := second.own done₂ u₁
    refine ⟨u₂, bind_eq_some_iff.2 ⟨u₁, again₁, again₂⟩, fun k mem => ?_⟩
    by_cases late : k ∈ more
    · exact same₂ k late
    · -- The second computation has not touched it.
      rw [second.others again₂ late, second.others done₂ late]
      exact same₁ k ((mem_append.1 mem).resolve_right late)

/-- A loop. -/
theorem Sets.foldlM {ι : Type} {step : (α → β) → ι → Option (α → β)} {entries : List ι} {keysOf : ι → List α}
    (each : ∀ entry ∈ entries, Sets (fun v => step v entry) (keysOf entry)) :
    Sets (fun v => entries.foldlM step v) (entries.flatMap keysOf) := by
  induction entries with
  | nil => exact .nil
  | cons entry entries ih =>
    have rest := ih fun other mem => each other (mem_cons_of_mem _ mem)
    exact (each entry (mem_cons_self ..)).comp rest

/-- One entry. -/
theorem Sets.update [DecidableEq α] (k : α) (value : Option β) :
    Sets (fun v : α → β => value.map (Function.update v k)) [k] where
  others {v v'} done k' absent := by
    obtain ⟨b, -, rfl⟩ := map_eq_some_iff.1 done
    exact Function.update_of_ne (fun same => absent (mem_singleton.2 same)) _ _
  own {v v'} done old := by
    obtain ⟨b, here, rfl⟩ := map_eq_some_iff.1 done
    refine ⟨Function.update old k b, by rw [here]; rfl, fun k' mem => ?_⟩
    rw [mem_singleton.1 mem, Function.update_self, Function.update_self]

/-- The entries that a computation sets do not depend on the vector; the others do. -/
theorem Sets.mem_iff [Nontrivial β] (sets : Sets f keys) {v v' : α → β} (done : f v = some v') (k : α) :
    k ∈ keys ↔ ∀ old v'', f old = some v'' → v'' k = v' k := by
  constructor
  · intro mem old v'' again
    obtain ⟨u, again', same⟩ := sets.own done old
    obtain rfl : u = v'' := Option.some.inj (again'.symm.trans again)
    exact same k mem
  · intro fixed
    classical
    by_contra absent
    -- Another value there before is another value there afterwards.
    obtain ⟨b, differs⟩ := exists_ne (v' k)
    obtain ⟨u, again, -⟩ := sets.own done (Function.update v k b)
    have kept := sets.others again absent
    rw [Function.update_self] at kept
    exact differs (kept.symm.trans (fixed _ u again))

end Assigns
