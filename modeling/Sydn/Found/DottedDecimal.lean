import Mathlib.Data.List.Basic
import Mathlib.Tactic.Common

/-!
# Dotted decimals

A list of octets as text: each in decimal without leading zeros, dots in between,
all in ASCII. Reading accepts nothing but what printing gives.
-/

namespace Sydn.Found.DottedDecimal

def dot : UInt8 := 46

def colon : UInt8 := 58

/-- The character of a digit. -/
def digit (d : UInt8) : UInt8 := 48 + d

def digits (n : UInt8) : List UInt8 :=
  if n < 10 then [n] else if n < 100 then [n / 10, n % 10] else [n / 100, n / 10 % 10, n % 10]

def decimal (n : UInt8) : List UInt8 := (digits n).map digit

/-- What digits stand for. -/
def value (s : List UInt8) : UInt8 := s.foldl (fun n c => 10 * n + (c - 48)) 0

def print (bs : List UInt8) : List UInt8 := [dot].intercalate (bs.map decimal)

def octet (s : List UInt8) : Option UInt8 :=
  if decimal (value s) = s then some (value s) else none

/-- The octets of a text with `n` of them. -/
def parse (n : Nat) (s : List UInt8) : Option (List UInt8) :=
  ((s.splitOn dot).mapM octet).filter fun bs => bs.length = n

@[simp] theorem digit_sub (d : UInt8) : digit d - 48 = d := by
  rw [digit, UInt8.add_comm, UInt8.add_sub_cancel]

/-! ## One octet -/

section Octet
variable {n c : UInt8} {s : List UInt8}

theorem value_decimal (n : UInt8) : value (decimal n) = n := by
  have hn := n.toNat_lt
  have hdiv : n.toNat / 10 / 10 = n.toNat / 100 := Nat.div_div_eq_div_mul ..
  apply UInt8.toNat_inj.mp
  unfold decimal digits
  split
  · simp [value]
  · split
    · simp [value]
      omega
    · simp [value]
      omega

theorem length_decimal_le (n : UInt8) : (decimal n).length ≤ 3 := by
  unfold decimal digits
  split
  · simp
  · split <;> simp

theorem digits_lt (hc : c ∈ digits n) : c < 10 := by
  have hn := n.toNat_lt
  unfold digits at hc
  split at hc
  · rename_i hlt
    rw [List.mem_singleton.mp hc]
    exact hlt
  · split at hc
    · rename_i hlt
      simp [UInt8.lt_iff_toNat_lt] at hlt hc ⊢
      rcases hc with rfl | rfl <;> simp <;> omega
    · simp [UInt8.lt_iff_toNat_lt] at hc ⊢
      rcases hc with rfl | rfl | rfl <;> simp <;> omega

/-- The characters of a decimal come after the dot. -/
theorem dot_lt_of_mem (hc : c ∈ decimal n) : dot < c := by
  obtain ⟨d, hd, rfl⟩ := List.mem_map.mp hc
  have hlt := digits_lt hd
  simp [UInt8.lt_iff_toNat_lt, dot, digit] at hlt ⊢
  omega

/-- No character of a decimal comes after the nine. -/
theorem lt_colon_of_mem_decimal (hc : c ∈ decimal n) : c < colon := by
  obtain ⟨d, hd, rfl⟩ := List.mem_map.mp hc
  have hlt := digits_lt hd
  simp [UInt8.lt_iff_toNat_lt, colon, digit] at hlt ⊢
  omega

theorem dot_not_mem (n : UInt8) : dot ∉ decimal n := by
  intro h
  exact absurd (dot_lt_of_mem h) (UInt8.lt_irrefl _)

theorem octet_eq_some : octet s = some n ↔ decimal n = s := by
  unfold octet
  constructor
  · intro h
    split at h
    · rename_i hs
      obtain rfl := Option.some.inj h
      exact hs
    · cases h
  · intro h
    rw [← h, value_decimal, if_pos rfl]

end Octet

/-! ## The whole text -/

section Text
variable {bs : List UInt8} {l : List (List UInt8)} {s : List UInt8} {n : Nat}

theorem mapM_octet : l.mapM octet = some bs ↔ bs.map decimal = l := by
  induction l generalizing bs with
  | nil => simp [eq_comm]
  | cons s l ih =>
    cases bs with
    | nil => simp [List.mapM_cons, Option.bind_eq_some_iff]
    | cons n bs => simp [List.mapM_cons, Option.bind_eq_some_iff, octet_eq_some, ih]

theorem splitOn_print (h : bs ≠ []) : (print bs).splitOn dot = bs.map decimal := by
  apply List.splitOn_intercalate
  · intro l hl
    obtain ⟨n, _, rfl⟩ := List.mem_map.mp hl
    exact dot_not_mem n
  · simpa using h

/-- What is read is what is printed. -/
theorem parse_eq_some (hn : n ≠ 0) : parse n s = some bs ↔ bs.length = n ∧ print bs = s := by
  rw [parse, Option.filter_eq_some_iff, mapM_octet]
  constructor
  · intro h
    obtain ⟨hmap, hlen⟩ := h
    refine ⟨by simpa using hlen, ?_⟩
    rw [print, hmap, List.intercalate_splitOn]
  · intro h
    obtain ⟨hlen, rfl⟩ := h
    have hne : bs ≠ [] := by
      intro hnil
      rw [hnil] at hlen
      exact hn hlen.symm
    exact ⟨(splitOn_print hne).symm, by simpa using hlen⟩

theorem print_singleton (n : UInt8) : print [n] = decimal n := List.intercalate_singleton

theorem print_cons (n : UInt8) (h : bs ≠ []) :
    print (n :: bs) = decimal n ++ dot :: print bs := by
  rw [print, List.map_cons, List.intercalate_cons_of_ne_nil (by simpa using h), print]
  simp

/-- The text has no character before the dot, so no terminator. -/
theorem dot_le_of_mem {c : UInt8} (hc : c ∈ print bs) : dot ≤ c := by
  induction bs with
  | nil => cases hc
  | cons n bs ih =>
    by_cases h : bs = []
    · rw [h, print_singleton] at hc
      exact UInt8.le_of_lt (dot_lt_of_mem hc)
    · rw [print_cons n h] at hc
      rcases List.mem_append.mp hc with hc | hc
      · exact UInt8.le_of_lt (dot_lt_of_mem hc)
      · rcases List.mem_cons.mp hc with rfl | hc
        · exact UInt8.le_refl _
        · exact ih hc

theorem length_print_le (h : bs ≠ []) : (print bs).length + 1 ≤ 4 * bs.length := by
  induction bs with
  | nil => exact absurd rfl h
  | cons n bs ih =>
    have hn := length_decimal_le n
    by_cases hbs : bs = []
    · rw [hbs, print_singleton, List.length_singleton]
      omega
    · have hlen := ih hbs
      rw [print_cons n hbs, List.length_append, List.length_cons, List.length_cons]
      omega

end Text

/-! ## Numbers -/

/-- A number in decimal. -/
def number (n : Nat) : List UInt8 := (Nat.toDigits 10 n).map fun c => UInt8.ofNat c.toNat

section Number

theorem digit_toNat {n : Nat} {c : Char} (hc : c ∈ Nat.toDigits 10 n) :
    48 ≤ c.toNat ∧ c.toNat ≤ 57 := by
  have hdigit := Nat.isDigit_of_mem_toDigits (by decide) (by decide) hc
  simpa [Char.isDigit, UInt32.le_iff_toNat_le] using hdigit

/-- The digits of a number from its text. -/
theorem map_number (n : Nat) :
    (number n).map (fun c => Char.ofNat c.toNat) = Nat.toDigits 10 n := by
  rw [number, List.map_map]
  refine (List.map_congr_left ?_).trans (List.map_id _)
  intro c hc
  have hlt : c.toNat < 2 ^ 8 := Nat.lt_of_le_of_lt (digit_toNat hc).2 (by decide)
  change Char.ofNat (UInt8.ofNat c.toNat).toNat = c
  rw [UInt8.toNat_ofNat', Nat.mod_eq_of_lt hlt, Char.ofNat_toNat]

theorem number_injective : Function.Injective number := by
  intro n m h
  have hdigits := congrArg (List.map fun c => Char.ofNat c.toNat) h
  rw [map_number, map_number] at hdigits
  have hvalue := congrArg (Nat.ofDigitChars 10 · 0) hdigits
  simpa using hvalue

/-- The characters of a text of octets come before the colon. -/
theorem lt_colon_of_mem {bs : List UInt8} {c : UInt8} (hc : c ∈ print bs) : c < colon := by
  induction bs with
  | nil => cases hc
  | cons n bs ih =>
    by_cases h : bs = []
    · rw [h, print_singleton] at hc
      exact lt_colon_of_mem_decimal hc
    · rw [print_cons n h] at hc
      rcases List.mem_append.mp hc with hc | hc
      · exact lt_colon_of_mem_decimal hc
      · rcases List.mem_cons.mp hc with rfl | hc
        · decide
        · exact ih hc

end Number

/-- What a separator divides can be told apart, if the first part does not have it. -/
theorem split_eq {s t u v : List UInt8} {sep : UInt8} (hs : sep ∉ s) (ht : sep ∉ t)
    (h : s ++ sep :: u = t ++ sep :: v) : s = t ∧ u = v := by
  induction s generalizing t with
  | nil =>
    cases t with
    | nil => exact ⟨rfl, (List.cons.inj h).2⟩
    | cons c t =>
      obtain rfl := (List.cons.inj h).1
      exact absurd List.mem_cons_self ht
  | cons c s ih =>
    cases t with
    | nil =>
      obtain rfl := (List.cons.inj h).1
      exact absurd List.mem_cons_self hs
    | cons d t =>
      obtain ⟨rfl, htail⟩ := List.cons.inj h
      obtain ⟨rfl, rfl⟩ := ih (List.not_mem_of_not_mem_cons hs) (List.not_mem_of_not_mem_cons ht)
        htail
      exact ⟨rfl, rfl⟩

end Sydn.Found.DottedDecimal
