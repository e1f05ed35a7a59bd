import Mathlib.Data.Finset.Card
import Mathlib.Logic.Function.Basic
import Mathlib.Tactic.Common

/-!
# Shared ownership

Holders share blocks, each with a count of its uses; who gives up the last use of a
block releases it. The counts are exact whatever the holders do, so a block is
released once, when nobody holds it any more.
-/

namespace Sydn.Found.Shared

variable {I B : Type*}

/-- The uses of each block, and the blocks made and released so far. -/
structure Ledger (B : Type*) where
  uses : B → Nat
  made : List B
  released : List B

namespace Ledger

def empty : Ledger B := ⟨fun _ => 0, [], []⟩

abbrev InUse (L : Ledger B) (b : B) : Prop := 0 < L.uses b

/-- The block that giving up a use releases. -/
def last (L : Ledger B) (x : Option B) : Option B := x.filter fun b => L.uses b = 1

theorem mem_last {L : Ledger B} {x : Option B} {b : B} :
    b ∈ (L.last x).toList ↔ x = some b ∧ L.uses b = 1 := by
  simp [last, Option.filter_eq_some_iff]

end Ledger

/-- The number of holders of a block. -/
def Counts (held : I → Option B) (b : B) (n : Nat) : Prop :=
  ∃ s : Finset I, (∀ i, i ∈ s ↔ held i = some b) ∧ s.card = n

/-- The counts of the blocks are those of their holders. -/
def Counted (held : I → Option B) (L : Ledger B) : Prop := ∀ b, Counts held b (L.uses b)

/-- What was made is in use or was released, once. -/
structure Accounted (L : Ledger B) : Prop where
  made_iff : ∀ b, b ∈ L.made ↔ L.InUse b ∨ b ∈ L.released
  unused : ∀ b ∈ L.released, L.uses b = 0
  once : L.released.Nodup

/-! ## What the counts say -/

section Account
variable {held : I → Option B} {L : Ledger B} {b : B} {i : I} {n : Nat}

theorem Counts.pos_iff (h : Counts held b n) : 0 < n ↔ ∃ i, held i = some b := by
  obtain ⟨s, hs, rfl⟩ := h
  rw [Finset.card_pos]
  exact exists_congr hs

theorem counted_empty : Counted (fun _ : I => none) (Ledger.empty : Ledger B) := by
  intro b
  exact ⟨∅, by simp, rfl⟩

theorem Counted.inUse_iff (h : Counted held L) : L.InUse b ↔ ∃ i, held i = some b :=
  (h b).pos_iff

theorem Counted.inUse (h : Counted held L) (hi : held i = some b) : L.InUse b :=
  h.inUse_iff.mpr ⟨i, hi⟩

theorem accounted_empty : Accounted (Ledger.empty : Ledger B) where
  made_iff b := by simp [Ledger.empty]
  unused b hb := by cases hb
  once := List.nodup_nil

/-- What was made is released exactly where nobody holds it. -/
theorem Accounted.released_iff (h : Accounted L) (hcount : Counted held L)
    (hb : b ∈ L.made) : b ∈ L.released ↔ ∀ i, held i ≠ some b := by
  constructor
  · intro hmem i hi
    have hpos := hcount.inUse hi
    have hzero := h.unused b hmem
    omega
  · intro hnone
    rcases (h.made_iff b).mp hb with hpos | hmem
    · obtain ⟨i, hi⟩ := hcount.inUse_iff.mp hpos
      exact absurd hi (hnone i)
    · exact hmem

end Account

/-! ## Taking and giving up uses -/

variable [DecidableEq B]

/-- The uses of a block in one holder. -/
def unit (x : Option B) (b : B) : Nat := if x = some b then 1 else 0

@[simp] theorem unit_none (b : B) : unit none b = 0 := rfl

theorem unit_self (b : B) : unit (some b) b = 1 := if_pos rfl

theorem unit_of_ne {x : Option B} {b : B} (h : x ≠ some b) : unit x b = 0 := if_neg h

theorem unit_pos {x : Option B} {b : B} : 0 < unit x b ↔ x = some b := by
  unfold unit
  split <;> simp [*]

namespace Ledger

/-- A new block with its first use. -/
def create (L : Ledger B) (b : B) : Ledger B where
  uses c := L.uses c + unit (some b) c
  made := b :: L.made
  released := L.released

def retain (L : Ledger B) (x : Option B) : Ledger B :=
  { L with uses := fun c => L.uses c + unit x c }

def drop (L : Ledger B) (x : Option B) : Ledger B where
  uses c := L.uses c - unit x c
  made := L.made
  released := (L.last x).toList ++ L.released

section InUse
variable {L : Ledger B} {b c : B} {x : Option B}

theorem inUse_create : (L.create b).InUse c ↔ c = b ∨ L.InUse c := by
  have hunit : 0 < unit (some b) c ↔ c = b := by
    rw [unit_pos, Option.some_inj, eq_comm]
  rw [← hunit]
  change 0 < L.uses c + unit (some b) c ↔ _
  omega

theorem inUse_retain (hx : ∀ b, x = some b → L.InUse b) : (L.retain x).InUse c ↔ L.InUse c := by
  have hunit := fun h => hx c (unit_pos.mp h)
  change 0 < L.uses c + unit x c ↔ _
  omega

theorem inUse_drop : (L.drop x).InUse c ↔ L.InUse c ∧ L.last x ≠ some c := by
  have hlast : L.last x = some c ↔ x = some c ∧ L.uses c = 1 := by
    rw [← mem_last, Option.mem_toList]
  rw [ne_eq, hlast]
  change 0 < L.uses c - unit x c ↔ _
  by_cases hc : x = some c
  · rw [hc, unit_self]
    simp
    omega
  · simp [unit_of_ne hc, hc]

end InUse

end Ledger

section Counting
variable [DecidableEq I] {held : I → Option B} {L : Ledger B} {b : B} {i : I} {n : Nat}
variable {x : Option B}

/-- One holder changes. -/
theorem Counts.update (h : Counts held b n) (i : I) (x : Option B) :
    ∃ m, Counts (Function.update held i x) b m ∧ m + unit (held i) b = n + unit x b := by
  obtain ⟨s, hs, rfl⟩ := h
  by_cases hx : x = some b
  · have hcount : Counts (Function.update held i x) b (insert i s).card := by
      refine ⟨insert i s, ?_, rfl⟩
      intro j
      rw [Finset.mem_insert]
      by_cases hj : j = i
      · rw [hj, Function.update_self]
        simp [hx]
      · rw [Function.update_of_ne hj, ← hs]
        simp [hj]
    refine ⟨_, hcount, ?_⟩
    rw [hx, unit_self]
    by_cases hi : i ∈ s
    · rw [Finset.insert_eq_of_mem hi, (hs i).mp hi, unit_self]
    · rw [Finset.card_insert_of_notMem hi, unit_of_ne (mt (hs i).mpr hi)]
  · have hcount : Counts (Function.update held i x) b (s.erase i).card := by
      refine ⟨s.erase i, ?_, rfl⟩
      intro j
      rw [Finset.mem_erase]
      by_cases hj : j = i
      · rw [hj, Function.update_self]
        simp [hx]
      · rw [Function.update_of_ne hj, ← hs]
        simp [hj]
    refine ⟨_, hcount, ?_⟩
    rw [unit_of_ne hx]
    by_cases hi : i ∈ s
    · rw [(hs i).mp hi, unit_self, Finset.card_erase_add_one hi, Nat.add_zero]
    · rw [Finset.erase_eq_of_notMem hi, unit_of_ne (mt (hs i).mpr hi)]

theorem Counted.create (h : Counted held L) (hi : held i = none) :
    Counted (Function.update held i (some b)) (L.create b) := by
  intro c
  obtain ⟨m, hm, heq⟩ := (h c).update i (some b)
  rw [hi, unit_none, Nat.add_zero] at heq
  rw [heq] at hm
  exact hm

/-- A holder takes one block in place of another. -/
theorem Counted.replace (h : Counted held L) (i : I) (x : Option B) :
    Counted (Function.update held i x) ((L.retain x).drop (held i)) := by
  intro c
  obtain ⟨m, hm, heq⟩ := (h c).update i x
  have huses : ((L.retain x).drop (held i)).uses c = m := by
    change L.uses c + unit x c - unit (held i) c = m
    omega
  rw [huses]
  exact hm

/-- A holder takes over what another one holds. -/
theorem Counted.transfer (h : Counted held L) {j : I} (hij : i ≠ j) :
    Counted (Function.update (Function.update held i (held j)) j none) (L.drop (held i)) := by
  intro c
  obtain ⟨m, hm, heq⟩ := (h c).update i (held j)
  obtain ⟨k, hk, heq'⟩ := hm.update j none
  rw [Function.update_of_ne hij.symm, unit_none] at heq'
  have huses : (L.drop (held i)).uses c = k := by
    change L.uses c - unit (held i) c = k
    omega
  rw [huses]
  exact hk

end Counting

/-! ## Releasing -/

namespace Accounted
variable {L : Ledger B} {b : B} {x : Option B}

theorem create (h : Accounted L) (hb : b ∉ L.made) : Accounted (L.create b) where
  made_iff c := by
    change c ∈ b :: L.made ↔ 0 < L.uses c + unit (some b) c ∨ c ∈ L.released
    by_cases hc : c = b
    · simp [hc, unit_self]
    · have hunit : unit (some b) c = 0 := unit_of_ne fun heq => hc (Option.some.inj heq).symm
      rw [List.mem_cons, or_iff_right hc, hunit, h.made_iff, Nat.add_zero]
  unused c hc := by
    have hne : b ≠ c := by
      rintro rfl
      exact hb ((h.made_iff b).mpr (Or.inr hc))
    have hunit : unit (some b) c = 0 := unit_of_ne fun heq => hne (Option.some.inj heq)
    change L.uses c + unit (some b) c = 0
    rw [hunit, h.unused c hc]
  once := h.once

theorem retain (h : Accounted L) (hx : ∀ b, x = some b → L.InUse b) : Accounted (L.retain x) where
  made_iff c := by
    change c ∈ L.made ↔ 0 < L.uses c + unit x c ∨ c ∈ L.released
    by_cases hc : x = some c
    · have hpos := hx c hc
      have hmade := (h.made_iff c).mpr (Or.inl hpos)
      exact iff_of_true hmade (Or.inl (by omega))
    · rw [unit_of_ne hc, Nat.add_zero]
      exact h.made_iff c
  unused c hc := by
    have hzero := h.unused c hc
    have hne : x ≠ some c := by
      intro heq
      have hpos := hx c heq
      omega
    change L.uses c + unit x c = 0
    rw [unit_of_ne hne, hzero]
  once := h.once

theorem drop (h : Accounted L) (hx : ∀ b, x = some b → L.InUse b) : Accounted (L.drop x) where
  made_iff c := by
    change c ∈ L.made ↔ 0 < L.uses c - unit x c ∨ c ∈ (L.last x).toList ++ L.released
    rw [h.made_iff, List.mem_append, Ledger.mem_last]
    by_cases hc : x = some c
    · have hpos := hx c hc
      rw [hc, unit_self]
      refine iff_of_true (Or.inl hpos) ?_
      by_cases hone : L.uses c = 1
      · exact Or.inr (Or.inl ⟨rfl, hone⟩)
      · exact Or.inl (by omega)
    · simp [unit_of_ne hc, hc]
  unused c hc := by
    change L.uses c - unit x c = 0
    rcases List.mem_append.mp hc with hlast | hold
    · obtain ⟨rfl, hone⟩ := Ledger.mem_last.mp hlast
      rw [unit_self, hone]
    · rw [h.unused c hold, Nat.zero_sub]
  once := by
    change ((L.last x).toList ++ L.released).Nodup
    cases hlast : L.last x with
    | none => exact h.once
    | some c =>
      obtain ⟨hc, hone⟩ := Ledger.mem_last.mp (Option.mem_toList.mpr hlast)
      refine List.nodup_cons.mpr ⟨?_, h.once⟩
      intro hmem
      have hzero := h.unused c hmem
      omega

end Accounted

end Sydn.Found.Shared
