import Mathlib.Data.List.Basic
import Mathlib.Tactic.Common

/-!
# Strings that end with a terminator

A string in memory reaches to the first terminator, wherever that is; nothing else
bounds it. A bounded copy fills its field with the string and terminators behind it,
and leaves no room for one where the string is as long as the field.
-/

namespace Sydn.Found.CString

variable {α : Type*} [DecidableEq α] (nul : α)

/-- The string at the start of a memory; `none` where the memory ends before it does. -/
def cString : List α → Option (List α)
  | [] => none
  | a :: rest => if a = nul then some [] else (cString rest).map (a :: ·)

/-- The characters that a string shows to a reader that stops at the first terminator. -/
def shown : List α → List α
  | [] => []
  | a :: rest => if a = nul then [] else a :: shown rest

/-- What `strncpy` writes into a field of `n` characters. -/
def strncpy : Nat → List α → List α
  | 0, _ => []
  | n + 1, [] => nul :: strncpy n []
  | n + 1, a :: rest => if a = nul then nul :: strncpy n [] else a :: strncpy n rest

variable {nul} {l m s : List α} {n : Nat}

@[simp] theorem length_strncpy (n : Nat) (s : List α) : (strncpy nul n s).length = n := by
  induction n generalizing s with
  | zero => rfl
  | succ n ih =>
    cases s with
    | nil => simp [strncpy, ih]
    | cons a rest =>
      by_cases h : a = nul
      · simp [strncpy, h, ih]
      · simp [strncpy, h, ih]

theorem shown_of_not_mem (h : nul ∉ s) : shown nul s = s := by
  induction s with
  | nil => rfl
  | cons a s ih =>
    rw [List.mem_cons, not_or] at h
    rw [shown, if_neg (Ne.symm h.1), ih h.2]

theorem shown_append (h : nul ∉ s) (m : List α) : shown nul (s ++ nul :: m) = s := by
  induction s with
  | nil => exact if_pos rfl
  | cons a s ih =>
    rw [List.mem_cons, not_or] at h
    rw [List.cons_append, shown, if_neg (Ne.symm h.1), ih h.2]

theorem strncpy_nil (n : Nat) : strncpy nul n [] = List.replicate n nul := by
  induction n with
  | zero => rfl
  | succ n ih => rw [strncpy, ih, List.replicate_succ]

/-- A copy that fits is the string up to its first terminator, and terminators behind it. -/
theorem strncpy_eq (h : s.length ≤ n) :
    strncpy nul n s = shown nul s ++ List.replicate (n - (shown nul s).length) nul := by
  induction s generalizing n with
  | nil => exact strncpy_nil n
  | cons a s ih =>
    obtain ⟨n, rfl⟩ := Nat.exists_eq_succ_of_ne_zero (Nat.ne_zero_of_lt h)
    rw [strncpy, shown]
    by_cases ha : a = nul
    · rw [if_pos ha, if_pos ha, strncpy_nil, ← List.replicate_succ]
      rfl
    · rw [if_neg ha, if_neg ha, ih (Nat.le_of_succ_le_succ h), List.length_cons,
        Nat.succ_sub_succ, List.cons_append]

/-- What follows a string that ends does not matter. -/
theorem cString_append (h : cString nul l = some s) (m : List α) :
    cString nul (l ++ m) = some s := by
  induction l generalizing s with
  | nil => cases h
  | cons a l ih =>
    rw [List.cons_append]
    by_cases ha : a = nul
    · rw [cString, if_pos ha] at h ⊢
      exact h
    · rw [cString, if_neg ha] at h ⊢
      obtain ⟨s', hs, rfl⟩ := Option.map_eq_some_iff.mp h
      rw [ih hs]
      rfl

/-- A string that does not end goes on in what follows. -/
theorem cString_append_of_not_mem (h : nul ∉ l) (m : List α) :
    cString nul (l ++ m) = (cString nul m).map (l ++ ·) := by
  induction l with
  | nil => cases hm : cString nul m <;> simp [hm]
  | cons a l ih =>
    rw [List.mem_cons, not_or] at h
    rw [List.cons_append, cString, if_neg (Ne.symm h.1), ih h.2, Option.map_map]
    rfl

theorem cString_eq_none_iff : cString nul l = none ↔ nul ∉ l := by
  induction l with
  | nil => exact iff_of_true rfl List.not_mem_nil
  | cons a l ih =>
    by_cases ha : a = nul
    · rw [cString, if_pos ha, ha]
      simp
    · rw [cString, if_neg ha, Option.map_eq_none_iff, ih, List.mem_cons, not_or]
      exact (and_iff_right (Ne.symm ha)).symm

/-- A string that ends is read up to its end. -/
theorem cString_of_mem (h : nul ∈ l) : ∃ s, cString nul l = some s :=
  Option.ne_none_iff_exists'.mp fun hnone => cString_eq_none_iff.mp hnone h

theorem cString_strncpy_nil (hn : 0 < n) : cString nul (strncpy nul n []) = some [] := by
  cases n with
  | zero => exact absurd hn (Nat.lt_irrefl 0)
  | succ n => rw [strncpy, cString, if_pos rfl]

/-- A copy is read back exactly when the field has room for a terminator. -/
theorem cString_strncpy (n : Nat) (s : List α) : cString nul (strncpy nul n s) =
    if (shown nul s).length < n then some (shown nul s) else none := by
  induction n generalizing s with
  | zero => rfl
  | succ n ih =>
    have hpos : ([] : List α).length < n + 1 := n.succ_pos
    cases s with
    | nil =>
      rw [cString_strncpy_nil n.succ_pos, shown, if_pos hpos]
    | cons a rest =>
      by_cases ha : a = nul
      · rw [strncpy, shown, if_pos ha, if_pos ha, cString, if_pos rfl, if_pos hpos]
      · rw [strncpy, shown, if_neg ha, if_neg ha, cString, if_neg ha, ih, List.length_cons]
        by_cases hlen : (shown nul rest).length < n
        · rw [if_pos hlen, if_pos (by omega)]
          rfl
        · rw [if_neg hlen, if_neg (by omega)]
          rfl

end Sydn.Found.CString
