import Mathlib.Data.Finset.Card
import Mathlib.Data.List.Pairwise

/-!
# Tables of slots

An array of slots, each of which is free or has an owner.  An owner's slot is looked for first, and a free one is
taken if there is none (`search`).  Seen from outside such an array is a table: `get` gives the slot of an owner.

As long as no two slots have the same owner, a store into the slot that `search` finds changes the table at one
owner (`get_set_self`, `get_set_of_ne`), and there is a slot for everyone if there are not more owners than slots
(`exists_free`).
-/

namespace SlotTable

open List

universe u v

variable {σ : Type u} {κ : Type v} (owner : σ → Option κ)

/-- No two slots have the same owner. -/
structure Distinct (slots : List σ) : Prop where
  unique : ∀ {i j : Nat} {s t : σ} {k : κ}, slots[i]? = some s → slots[j]? = some t → owner s = some k →
    owner t = some k → i = j

variable {owner} {slots : List σ}

theorem Distinct.nodup_owners (distinct : Distinct owner slots) : (slots.filterMap owner).Nodup := by
  rw [List.Nodup, pairwise_filterMap, pairwise_iff_getElem]
  intro i j iIn jIn less k ofI k' ofJ same
  subst same
  have equal := distinct.unique (getElem?_eq_getElem iIn) (getElem?_eq_getElem jIn) ofI ofJ
  omega

variable [DecidableEq κ]

variable (owner) in
/-- The slot of an owner, or the first free one. -/
def search (slots : List σ) (k : κ) : Option Nat :=
  match slots.findIdx? (fun s => owner s = some k) with
  | some i => some i
  | none => slots.findIdx? (fun s => owner s = none)

variable (owner) in
/-- The slot of an owner. -/
def get (slots : List σ) (k : κ) : Option σ := slots.find? (fun s => owner s = some k)

variable {k : κ} {s : σ} {i : Nat}

theorem get_eq_none : get owner slots k = none ↔ ∀ s ∈ slots, owner s ≠ some k := by
  simp [get, find?_eq_none]

theorem of_get (found : get owner slots k = some s) : s ∈ slots ∧ owner s = some k := by
  have holds : decide (owner s = some k) = true := @find?_some _ (fun s => decide (owner s = some k)) _ _ found
  exact ⟨mem_of_find?_eq_some found, of_decide_eq_true holds⟩

/-- The slot of an owner is the one that has this owner, wherever it is. -/
theorem Distinct.get_eq_some (distinct : Distinct owner slots) :
    get owner slots k = some s ↔ ∃ i : Nat, slots[i]? = some s ∧ owner s = some k := by
  constructor
  · intro found
    obtain ⟨i, here⟩ := getElem?_of_mem (of_get found).1
    exact ⟨i, here, (of_get found).2⟩
  · rintro ⟨i, here, ofS⟩
    cases found : get owner slots k with
    | none => exact absurd ofS (get_eq_none.1 found s (mem_of_getElem? here))
    | some t =>
      obtain ⟨j, there⟩ := getElem?_of_mem (of_get found).1
      have same := distinct.unique here there ofS (of_get found).2
      rw [same, there] at here
      exact here

/-- **What `search` finds**: the slot of the owner, or a free one if there is none. -/
theorem search_eq_some (found : search owner slots k = some i) :
    ∃ s, slots[i]? = some s ∧ (owner s = some k ∨ owner s = none ∧ get owner slots k = none) := by
  rw [search] at found
  split at found
  · next j first =>
    cases found
    obtain ⟨inside, holds, -⟩ := findIdx?_eq_some_iff_getElem.1 first
    exact ⟨_, getElem?_eq_getElem inside, .inl (of_decide_eq_true holds)⟩
  · next absent =>
    obtain ⟨inside, holds, -⟩ := findIdx?_eq_some_iff_getElem.1 found
    refine ⟨_, getElem?_eq_getElem inside, .inr ⟨of_decide_eq_true holds, ?_⟩⟩
    exact get_eq_none.2 fun s mem => of_decide_eq_false (findIdx?_eq_none_iff.1 absent s mem)

theorem exists_search (room : ∃ s ∈ slots, owner s = some k ∨ owner s = none) : ∃ i, search owner slots k = some i := by
  rw [search]
  split
  · next j _ => exact ⟨j, rfl⟩
  · next absent =>
    obtain ⟨s, mem, ofS | free⟩ := room
    · exact absurd ofS (of_decide_eq_false (findIdx?_eq_none_iff.1 absent s mem))
    · cases found : slots.findIdx? fun s => owner s = none with
      | none => exact absurd free (of_decide_eq_false (findIdx?_eq_none_iff.1 found s mem))
      | some i => exact ⟨i, rfl⟩

/-! ### Storing a slot -/

section

variable (found : search owner slots k = some i) {new : σ} (ofNew : owner new = some k)

include found ofNew

/-- A slot of another owner is not the one that is stored. -/
theorem getElem?_set_of_ne {j : Nat} {t : σ} {k' : κ} (different : k' ≠ k) (ofT : owner t = some k') :
    (slots.set i new)[j]? = some t ↔ slots[j]? = some t := by
  by_cases here : i = j
  · subst here
    obtain ⟨s, old, ofS⟩ := search_eq_some found
    have inside := (List.getElem?_eq_some_iff.1 old).1
    rw [getElem?_set_self inside, old]
    constructor
    · rintro ⟨⟩
      exact absurd (Option.some.inj (ofNew.symm.trans ofT)).symm different
    · rintro ⟨⟩
      rcases ofS with ofK | ⟨free, -⟩
      · exact absurd (Option.some.inj (ofK.symm.trans ofT)).symm different
      · rw [free] at ofT
        cases ofT
  · rw [getElem?_set_ne here]

omit ofNew in
/-- The stored slot is the only one of its owner. -/
theorem index_of_set (distinct : Distinct owner slots) {j : Nat} {t : σ} (there : (slots.set i new)[j]? = some t)
    (ofT : owner t = some k) : j = i := by
  by_contra different
  rw [getElem?_set_ne (Ne.symm different)] at there
  obtain ⟨s, old, ofK | ⟨-, absent⟩⟩ := search_eq_some found
  · exact different (distinct.unique there old ofT ofK)
  · exact get_eq_none.1 absent t (mem_of_getElem? there) ofT

/-- **A store keeps the owners apart.** -/
theorem distinct_set (distinct : Distinct owner slots) : Distinct owner (slots.set i new) := by
  constructor
  intro a b s t k' atA atB ofS ofT
  by_cases same : k' = k
  · subst same
    rw [index_of_set found distinct atA ofS, index_of_set found distinct atB ofT]
  · rw [getElem?_set_of_ne found ofNew same ofS] at atA
    rw [getElem?_set_of_ne found ofNew same ofT] at atB
    exact distinct.unique atA atB ofS ofT

theorem get_set_self (distinct : Distinct owner slots) : get owner (slots.set i new) k = some new := by
  obtain ⟨s, old, -⟩ := search_eq_some found
  have inside := (List.getElem?_eq_some_iff.1 old).1
  exact (distinct_set found ofNew distinct).get_eq_some.2 ⟨i, List.getElem?_set_self inside, ofNew⟩

/-- **A store changes the table at one owner.** -/
theorem get_set_of_ne (distinct : Distinct owner slots) {k' : κ} (different : k' ≠ k) :
    get owner (slots.set i new) k' = get owner slots k' := by
  refine Option.ext fun t => ?_
  rw [(distinct_set found ofNew distinct).get_eq_some, distinct.get_eq_some]
  refine exists_congr fun j => and_congr_left fun ofT => ?_
  exact getElem?_set_of_ne found ofNew different ofT

end

/-! ### Room for everyone -/

/-- **There is a free slot** for an owner without one if there are not more owners than slots. -/
theorem Distinct.exists_free (distinct : Distinct owner slots) {keys : Finset κ}
    (known : ∀ s ∈ slots, ∀ k, owner s = some k → k ∈ keys) (mem : k ∈ keys) (absent : get owner slots k = none)
    (few : keys.card ≤ slots.length) : ∃ s ∈ slots, owner s = none := by
  by_contra full
  simp only [not_exists, not_and] at full
  -- with every slot taken there are as many owners as slots, and `k` comes on top
  have all : (slots.filterMap owner).length = slots.length :=
    filterMap_length_eq_length.2 fun s sIn => Option.isSome_iff_ne_none.2 (full s sIn)
  have fresh : k ∉ slots.filterMap owner := by
    intro owned
    obtain ⟨s, sIn, ofS⟩ := mem_filterMap.1 owned
    exact get_eq_none.1 absent s sIn ofS
  have nodup : (k :: slots.filterMap owner).Nodup := nodup_cons.2 ⟨fresh, distinct.nodup_owners⟩
  have inside : (k :: slots.filterMap owner).toFinset ⊆ keys := by
    intro k' mem'
    rcases mem_cons.1 (mem_toFinset.1 mem') with rfl | owned
    · exact mem
    · obtain ⟨s, sIn, ofS⟩ := mem_filterMap.1 owned
      exact known s sIn k' ofS
  have count := Finset.card_le_card inside
  rw [toFinset_card_of_nodup nodup, length_cons, all] at count
  omega

end SlotTable
