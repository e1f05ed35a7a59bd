import Mathlib.Order.BooleanAlgebra.Set
import Mathlib.Order.CompletePartialOrder
import Mathlib.Data.Set.Lattice
import Mathlib.Data.Set.Insert
import Mathlib.Logic.Equiv.Basic
import Mathlib.Logic.Function.Basic
import Mathlib.Tactic.Common

/-!
# Who holds which resource

Owners hold at most one resource each. `Exclusive` says that what is held is
open and held once; `Balanced` adds that nothing open is left without a holder.
The rules below cover the ways one owner's resource may change; they do not say
how a resource is obtained, only that it was not held by another owner. The last
section is about owners of any number of resources, to which new owners may come.
-/

namespace Sydn.Found.Ownership

variable {I R : Type*}

/-- What is held is open, and no two owners hold the same resource. -/
structure Exclusive (opened : Set R) (held : I → Option R) : Prop where
  live : ∀ i r, held i = some r → r ∈ opened
  unique : ∀ i j r, held i = some r → held j = some r → i = j

/-- Exclusive, and every open resource has a holder. -/
structure Balanced (opened : Set R) (held : I → Option R) : Prop
    extends Exclusive opened held where
  no_leak : ∀ r ∈ opened, ∃ i, held i = some r

theorem Balanced.mem_iff {opened : Set R} {held : I → Option R} (h : Balanced opened held)
    (r : R) : r ∈ opened ↔ ∃ i, held i = some r :=
  ⟨h.no_leak r, fun ⟨i, hi⟩ => h.live i r hi⟩

/-- The set with the one resource of `o`, if any. -/
def only (o : Option R) : Set R := {r | o = some r}

@[simp] theorem mem_only {o : Option R} {r : R} : r ∈ only o ↔ o = some r := Iff.rfl

@[simp] theorem only_none : only (none : Option R) = ∅ := by
  ext r
  simp

@[simp] theorem only_some (r : R) : only (some r) = {r} := by
  ext s
  simp [eq_comm]

theorem balanced_empty : Balanced (∅ : Set R) (fun _ : I => none) where
  live := by simp
  unique := by simp
  no_leak := by simp

/-- With no holder left, a balanced account has nothing open. -/
theorem Balanced.nothing_open {opened : Set R} {held : I → Option R} (h : Balanced opened held)
    (hnone : ∀ i, held i = none) : opened = ∅ := by
  ext r
  rw [h.mem_iff]
  simp [hnone]

variable [DecidableEq I] {opened opened' : Set R} {held : I → Option R} {i : I} {new : Option R}

/-- One owner's resource is exchanged: nothing that another owner holds is
closed, and what it now holds is open and held by no other owner. -/
theorem Exclusive.update (h : Exclusive opened held)
    (hkeep : ∀ j, j ≠ i → ∀ r, held j = some r → r ∈ opened')
    (hnew : ∀ r, new = some r → r ∈ opened' ∧ ∀ j, j ≠ i → held j ≠ some r) :
    Exclusive opened' (Function.update held i new) := by
  constructor
  · intro j r hj
    by_cases hji : j = i
    · subst hji
      rw [Function.update_self] at hj
      exact (hnew r hj).1
    · rw [Function.update_of_ne hji] at hj
      exact hkeep j hji r hj
  · intro j k r hj hk
    by_cases hji : j = i <;> by_cases hki : k = i
    · rw [hji, hki]
    · subst hji
      rw [Function.update_self] at hj
      rw [Function.update_of_ne hki] at hk
      exact absurd hk ((hnew r hj).2 k hki)
    · subst hki
      rw [Function.update_self] at hk
      rw [Function.update_of_ne hji] at hj
      exact absurd hj ((hnew r hk).2 j hji)
    · rw [Function.update_of_ne hji] at hj
      rw [Function.update_of_ne hki] at hk
      exact h.unique j k r hj hk

/-- The owner's old resource is closed and a fresh one, if any, is opened. -/
theorem Exclusive.replace (h : Exclusive opened held)
    (hfresh : ∀ r, new = some r → ∀ j, j ≠ i → held j ≠ some r) :
    Exclusive ((opened \ only (held i)) ∪ only new) (Function.update held i new) := by
  apply h.update
  · intro j hji r hj
    refine Or.inl ⟨h.live j r hj, ?_⟩
    intro hi
    exact hji (h.unique j i r hj hi)
  · intro r hr
    exact ⟨Or.inr hr, hfresh r hr⟩

/-- The owner's old resource is forgotten while it is open: it is no longer held
but stays open, which `Exclusive` does not notice and `Balanced` does. -/
theorem Exclusive.overwrite (h : Exclusive opened held)
    (hfresh : ∀ r, new = some r → ∀ j, j ≠ i → held j ≠ some r) :
    Exclusive (opened ∪ only new) (Function.update held i new) := by
  apply h.update
  · intro j _ r hj
    exact Or.inl (h.live j r hj)
  · intro r hr
    exact ⟨Or.inr hr, hfresh r hr⟩

/-- Closing the old resource of one owner and opening a fresh one keeps the
account balanced. -/
theorem Balanced.replace (h : Balanced opened held)
    (hfresh : ∀ r, new = some r → ∀ j, j ≠ i → held j ≠ some r) :
    Balanced ((opened \ only (held i)) ∪ only new) (Function.update held i new) := by
  refine ⟨h.toExclusive.replace hfresh, ?_⟩
  intro r h
  obtain ⟨hr, hne⟩ | hr := h
  · obtain ⟨j, hj⟩ := h.no_leak r hr
    have hji : j ≠ i := fun he => hne (he ▸ hj)
    exact ⟨j, by rw [Function.update_of_ne hji, hj]⟩
  · exact ⟨i, by rw [Function.update_self]; exact hr⟩

/-- Two owners exchange what they hold. -/
theorem Balanced.swap (h : Balanced opened held) (i j : I) :
    Balanced opened (held ∘ Equiv.swap i j) := by
  refine ⟨⟨fun k r hk => h.live _ r hk, ?_⟩, ?_⟩
  · intro k l r hk hl
    exact (Equiv.swap i j).injective (h.unique _ _ r hk hl)
  · intro r hr
    obtain ⟨k, hk⟩ := h.no_leak r hr
    exact ⟨Equiv.swap i j k, by simp [hk]⟩

/-! ## Owners of any number of resources -/

section Shares
variable {live closed opened' given : Set R} {own : List (Set R)} {A : Set R} {i : Nat} {r : R}

/-- The owner numbered `i` has the resource. -/
def Has (own : List (Set R)) (i : Nat) (r : R) : Prop := ∃ A, own[i]? = some A ∧ r ∈ A

/-- The resources that are live are divided among the owners. -/
structure Divided (live : Set R) (own : List (Set R)) : Prop where
  unique : ∀ i j r, Has own i r → Has own j r → i = j
  live_iff : ∀ r, r ∈ live ↔ ∃ i, Has own i r

theorem Divided.mem_iff (h : Divided live own) {r : R} : r ∈ live ↔ ∃ A ∈ own, r ∈ A := by
  rw [h.live_iff]
  constructor
  · intro hi
    obtain ⟨i, A, hA, hr⟩ := hi
    exact ⟨A, List.mem_of_getElem? hA, hr⟩
  · intro hA
    obtain ⟨A, hA, hr⟩ := hA
    obtain ⟨i, hi⟩ := List.mem_iff_getElem?.mp hA
    exact ⟨i, A, hi, hr⟩

theorem divided_singleton (live : Set R) : Divided live [live] := by
  have hzero : ∀ {i r}, Has [live] i r → i = 0 ∧ r ∈ live := by
    rintro (_ | i) r ⟨A, hA, hr⟩
    · cases hA
      exact ⟨rfl, hr⟩
    · cases hA
  constructor
  · intro i j r hi hj
    exact (hzero hi).1.trans (hzero hj).1.symm
  · intro r
    constructor
    · intro hr
      exact ⟨0, live, rfl, hr⟩
    · intro h
      obtain ⟨i, hi⟩ := h
      exact (hzero hi).2

theorem Divided.le (h : Divided live own) (hi : own[i]? = some A) : A ⊆ live := by
  intro r hr
  exact (h.live_iff r).mpr ⟨i, A, hi, hr⟩

theorem has_set {j : Nat} {B : Set R} (hi : own[i]? = some A) :
    Has (own.set i B) j r ↔ (j = i ∧ r ∈ B) ∨ (j ≠ i ∧ Has own j r) := by
  obtain ⟨hlt, _⟩ := List.getElem?_eq_some_iff.mp hi
  by_cases hj : j = i
  · subst hj
    simp [Has, List.getElem?_set_self hlt]
  · simp [Has, List.getElem?_set_ne (Ne.symm hj), hj]

theorem has_concat {j : Nat} :
    Has (own ++ [given]) j r ↔ Has own j r ∨ (j = own.length ∧ r ∈ given) := by
  rcases lt_trichotomy j own.length with hj | hj | hj
  · simp [Has, List.getElem?_append_left hj, hj.ne]
  · subst hj
    simp [Has]
  · have hnone : own[j]? = none := List.getElem?_eq_none hj.le
    have hpast : (own ++ [given])[j]? = none := by
      apply List.getElem?_eq_none
      rw [List.length_append, List.length_singleton]
      exact hj
    simp [Has, hnone, hpast, hj.ne']

/-- One owner gives up some resources and gets some that were not live. -/
theorem Divided.exchange (h : Divided live own) (hi : own[i]? = some A) (hclosed : closed ⊆ A)
    (hfresh : Disjoint opened' live) :
    Divided ((live \ closed) ∪ opened') (own.set i ((A \ closed) ∪ opened')) := by
  have hmine : ∀ {j r}, r ∈ A → Has own j r → j = i := by
    intro j r hr hj
    exact h.unique j i r hj ⟨A, hi, hr⟩
  have hnew : ∀ {j r}, r ∈ opened' → ¬ Has own j r := by
    intro j r hr hj
    exact Set.disjoint_left.mp hfresh hr ((h.live_iff r).mpr ⟨j, hj⟩)
  constructor
  · intro j k r hj hk
    rw [has_set hi] at hj hk
    obtain ⟨rfl, ⟨hjA, _⟩ | hjo⟩ | ⟨hji, hj⟩ := hj <;>
      obtain ⟨rfl, ⟨hkA, _⟩ | hko⟩ | ⟨hki, hk⟩ := hk
    · rfl
    · rfl
    · exact absurd (hmine hjA hk) hki
    · rfl
    · rfl
    · exact absurd hk (hnew hjo)
    · exact absurd (hmine hkA hj) hji
    · exact absurd hj (hnew hko)
    · exact h.unique j k r hj hk
  · intro r
    constructor
    · rintro (⟨hr, hnot⟩ | hr)
      · obtain ⟨j, hj⟩ := (h.live_iff r).mp hr
        by_cases hji : j = i
        · subst hji
          obtain ⟨B, hB, hrB⟩ := hj
          cases hi.symm.trans hB
          exact ⟨j, (has_set hi).mpr (Or.inl ⟨rfl, Or.inl ⟨hrB, hnot⟩⟩)⟩
        · exact ⟨j, (has_set hi).mpr (Or.inr ⟨hji, hj⟩)⟩
      · exact ⟨i, (has_set hi).mpr (Or.inl ⟨rfl, Or.inr hr⟩)⟩
    · rintro ⟨j, hj⟩
      rcases (has_set hi).mp hj with ⟨rfl, ⟨hr, hnot⟩ | hr⟩ | ⟨hji, hj⟩
      · exact Or.inl ⟨h.le hi hr, hnot⟩
      · exact Or.inr hr
      · exact Or.inl ⟨(h.live_iff r).mpr ⟨j, hj⟩, fun hr => hji (hmine (hclosed hr) hj)⟩

/-- One owner hands some of its resources over to a new one. -/
theorem Divided.hand (h : Divided live own) (hi : own[i]? = some A) (hgiven : given ⊆ A) :
    Divided live (own.set i (A \ given) ++ [given]) := by
  obtain ⟨hlt, _⟩ := List.getElem?_eq_some_iff.mp hi
  have hhas : ∀ {j r}, Has (own.set i (A \ given) ++ [given]) j r ↔
      (j = i ∧ r ∈ A \ given) ∨ (j ≠ i ∧ Has own j r) ∨ (j = own.length ∧ r ∈ given) := by
    intro j r
    rw [has_concat, has_set hi, List.length_set, or_assoc]
  have hmine : ∀ {j r}, r ∈ A → Has own j r → j = i := by
    intro j r hr hj
    exact h.unique j i r hj ⟨A, hi, hr⟩
  constructor
  · intro j k r hj hk
    rw [hhas] at hj hk
    obtain ⟨rfl, hjA, hjg⟩ | ⟨hji, hj⟩ | ⟨rfl, hjg⟩ := hj <;>
      obtain ⟨rfl, hkA, hkg⟩ | ⟨hki, hk⟩ | ⟨rfl, hkg⟩ := hk
    · rfl
    · exact absurd (hmine hjA hk) hki
    · exact absurd hkg hjg
    · exact absurd (hmine hkA hj) hji
    · exact h.unique j k r hj hk
    · exact absurd (hmine (hgiven hkg) hj) hji
    · exact absurd hjg hkg
    · exact absurd (hmine (hgiven hjg) hk) hki
    · rfl
  · intro r
    rw [h.live_iff r]
    constructor
    · rintro ⟨j, hj⟩
      by_cases hr : r ∈ given
      · exact ⟨own.length, hhas.mpr (Or.inr (Or.inr ⟨rfl, hr⟩))⟩
      · by_cases hji : j = i
        · subst hji
          obtain ⟨B, hB, hrB⟩ := hj
          cases hi.symm.trans hB
          exact ⟨j, hhas.mpr (Or.inl ⟨rfl, hrB, hr⟩)⟩
        · exact ⟨j, hhas.mpr (Or.inr (Or.inl ⟨hji, hj⟩))⟩
    · rintro ⟨j, hj⟩
      rcases hhas.mp hj with ⟨rfl, hr, _⟩ | ⟨_, hj⟩ | ⟨_, hr⟩
      · exact ⟨j, A, hi, hr⟩
      · exact ⟨j, hj⟩
      · exact ⟨i, A, hi, hgiven hr⟩

end Shares

end Sydn.Found.Ownership
