import Mathlib.Data.List.Basic
import Mathlib.Data.Set.Basic
import Mathlib.Logic.Function.Basic
import Mathlib.Tactic.Common

/-!
# The free store

Blocks of bytes made by `new char[n]` and given back by `delete[]`. A pointer is null
or the number of one block, never used for a second one, so a pointer to a block
that was given back stays dangling. What new memory holds is left to the caller.
-/

namespace Sydn.Mem

/-- A `char` of the array. -/
abbrev Byte := UInt8

/-- Overwrite `old` with `bs` from position `i` on. -/
def patch {α : Type*} (i : Nat) (bs old : List α) : List α :=
  old.take i ++ bs ++ old.drop (i + bs.length)

section patch
variable {α β : Type*} {i : Nat} {bs old : List α}

theorem length_patch (h : i + bs.length ≤ old.length) : (patch i bs old).length = old.length := by
  simp only [patch, List.length_append, List.length_take, List.length_drop]
  omega

theorem map_patch (f : α → β) : (patch i bs old).map f = patch i (bs.map f) (old.map f) := by
  simp [patch]

theorem patch_append (h : i + bs.length ≤ old.length) (pad : List α) :
    patch i bs (old ++ pad) = patch i bs old ++ pad := by
  have hi : i ≤ old.length := by omega
  simp only [patch, List.append_assoc]
  rw [List.take_append_of_le_length hi, List.drop_append_of_le_length h]

theorem take_patch_zero : (patch 0 bs old).take bs.length = bs := by
  simp [patch]

theorem patch_zero_take {n : Nat} : patch 0 (old.take n) old = old := by
  by_cases hn : n ≤ old.length
  · simp [patch, Nat.min_eq_left hn]
  · simp [patch, List.take_of_length_le (Nat.le_of_not_le hn)]

theorem take_patch (bs : List α) (h : i ≤ old.length) : (patch i bs old).take i = old.take i := by
  have hlen : (old.take i).length = i := List.length_take_of_le h
  rw [patch, List.append_assoc]
  exact List.take_left' hlen

theorem drop_patch (h : i ≤ old.length) :
    (patch i bs old).drop i = bs ++ old.drop (i + bs.length) := by
  have hlen : (old.take i).length = i := List.length_take_of_le h
  rw [patch, List.append_assoc]
  exact List.drop_left' hlen

end patch

/-- What a new block of `n` bytes holds when memory holds `content`. -/
def fill (n : Nat) (content : Nat → Byte) : List Byte := (List.range n).map content

@[simp] theorem length_fill (n : Nat) (content : Nat → Byte) : (fill n content).length = n := by
  simp [fill]

/-- New memory can always be told from given bytes. -/
theorem exists_fill_ne {n : Nat} {bs : List Byte} (hn : 0 < n) (hbs : bs ≠ []) :
    ∃ content, (fill n content).take bs.length ≠ bs := by
  obtain ⟨b, bs, rfl⟩ := List.exists_cons_of_ne_nil hbs
  obtain ⟨n, rfl⟩ := Nat.exists_eq_succ_of_ne_zero hn.ne'
  refine ⟨fun _ => b + 1, fun heq => ?_⟩
  have hhead : b + 1 = b := by
    simp only [fill, List.range_succ_eq_map, List.map_cons, Nat.succ_eq_add_one, List.length_cons,
      List.take_succ_cons, List.cons.injEq] at heq
    exact heq.1
  simp at hhead

theorem take_fill {n k : Nat} (h : k ≤ n) (content : Nat → Byte) :
    (fill n content).take k = fill k content := by
  rw [fill, ← List.map_take, List.take_range, Nat.min_eq_left h, fill]

theorem drop_fill (n k : Nat) (content : Nat → Byte) :
    (fill n content).drop k = fill (n - k) fun i => content (i + k) := by
  apply List.ext_getElem
  · simp
  · intro i _ _
    simp [fill, Nat.add_comm]

/-- A `char *` that holds null or the start of a block. -/
inductive Ptr where
  | null
  | block (p : Nat)
  deriving DecidableEq

def Ptr.block? : Ptr → Option Nat
  | .null => none
  | .block p => some p

/-- Every block made so far is live or was given back, and none was given back twice. -/
structure Heap where
  /-- The bytes of the live blocks. -/
  blocks : Nat → Option (List Byte)
  /-- The number of the next block. -/
  next : Nat
  /-- The blocks given back so far, the latest first. -/
  released : List Nat
  unborn : ∀ p, next ≤ p → blocks p = none
  mem_released : ∀ p, p ∈ released ↔ p < next ∧ blocks p = none
  released_once : released.Nodup

namespace Heap

/-- The live blocks. -/
def live (h : Heap) : Set Nat := {p | h.blocks p ≠ none}

theorem mem_live {h : Heap} {p : Nat} : p ∈ h.live ↔ ∃ b, h.blocks p = some b :=
  Option.ne_none_iff_exists'

theorem lt_next {h : Heap} {p : Nat} {b : List Byte} (hp : h.blocks p = some b) : p < h.next := by
  by_contra hlt
  rw [h.unborn p (by omega)] at hp
  cases hp

def empty : Heap where
  blocks := fun _ => none
  next := 0
  released := []
  unborn := fun _ _ => rfl
  mem_released := by simp
  released_once := List.nodup_nil

@[simp] theorem live_empty : empty.live = ∅ := by
  ext p
  simp [live, empty]

/-- `new char[n]`: the block made is number `h.next`. -/
def new (h : Heap) (bytes : List Byte) : Heap where
  blocks := Function.update h.blocks h.next (some bytes)
  next := h.next + 1
  released := h.released
  unborn p hp := by
    rw [Function.update_of_ne (by omega)]
    exact h.unborn p (by omega)
  mem_released p := by
    by_cases hp : p = h.next
    · subst hp
      simp [h.mem_released]
    · rw [Function.update_of_ne hp, h.mem_released]
      constructor
      · intro h
        obtain ⟨hlt, hb⟩ := h
        exact ⟨by omega, hb⟩
      · intro h
        obtain ⟨hlt, hb⟩ := h
        exact ⟨by omega, hb⟩
  released_once := h.released_once

/-- `delete[]` of the live block `p`. -/
def free (h : Heap) (p : Nat) (hp : h.blocks p ≠ none) : Heap where
  blocks := Function.update h.blocks p none
  next := h.next
  released := p :: h.released
  unborn q hq := by
    by_cases hqp : q = p
    · rw [hqp, Function.update_self]
    · rw [Function.update_of_ne hqp]
      exact h.unborn q hq
  mem_released q := by
    obtain ⟨b, hb⟩ := Option.ne_none_iff_exists'.mp hp
    have hlt := lt_next hb
    by_cases hqp : q = p
    · subst hqp
      simp [hlt]
    · rw [Function.update_of_ne hqp, List.mem_cons, h.mem_released]
      simp [hqp]
  released_once := by
    refine List.nodup_cons.mpr ⟨fun hmem => ?_, h.released_once⟩
    exact hp ((h.mem_released p).mp hmem).2

/-- `delete[] p`: nothing where `p` is null, and otherwise defined only for a live block. -/
def delete (h : Heap) : Ptr → Option Heap
  | .null => some h
  | .block p => if hp : h.blocks p ≠ none then some (h.free p hp) else none

/-- Replace the bytes of the live block `p`. -/
def rewrite (h : Heap) (p : Nat) (hp : h.blocks p ≠ none) (bytes : List Byte) : Heap where
  blocks := Function.update h.blocks p (some bytes)
  next := h.next
  released := h.released
  unborn q hq := by
    obtain ⟨b, hb⟩ := Option.ne_none_iff_exists'.mp hp
    have hlt := lt_next hb
    rw [Function.update_of_ne (by omega)]
    exact h.unborn q hq
  mem_released q := by
    rw [h.mem_released]
    by_cases hqp : q = p
    · subst hqp
      simp [hp]
    · rw [Function.update_of_ne hqp]
  released_once := h.released_once

/-- Read the first `count` bytes at a pointer; at null there are none. -/
def load (h : Heap) (count : Nat) : Ptr → Option (List Byte)
  | .null => if count = 0 then some [] else none
  | .block p => (h.blocks p).bind fun b => if count ≤ b.length then some (b.take count) else none

/-- Write `bytes` from position `i` on, inside the block only; at null there is no room. -/
def store (h : Heap) (i : Nat) (bytes : List Byte) : Ptr → Option Heap
  | .null => if i + bytes.length = 0 then some h else none
  | .block p =>
      match hb : h.blocks p with
      | none => none
      | some b =>
          if i + bytes.length ≤ b.length then some (h.rewrite p (by simp [hb]) (patch i bytes b))
          else none

theorem delete_of_live {h : Heap} {p : Nat} (hp : h.blocks p ≠ none) :
    h.delete (.block p) = some (h.free p hp) := dif_pos hp

/-- A pointer to a block that is gone cannot be deleted. -/
theorem delete_of_dead {h : Heap} {p : Nat} (hp : h.blocks p = none) :
    h.delete (.block p) = none := dif_neg (not_not.mpr hp)

theorem load_of_live {h : Heap} {p count : Nat} {b : List Byte} (hb : h.blocks p = some b)
    (hfit : count ≤ b.length) : h.load count (.block p) = some (b.take count) := by
  rw [load, hb, Option.bind_some, if_pos hfit]

theorem store_of_live {h : Heap} {p i : Nat} {b bytes : List Byte} (hb : h.blocks p = some b)
    (hfit : i + bytes.length ≤ b.length) :
    h.store i bytes (.block p) = some (h.rewrite p (by simp [hb]) (patch i bytes b)) := by
  rw [store]
  split
  · rename_i hnone
    rw [hnone] at hb
    cases hb
  · rename_i b' hb'
    obtain rfl := Option.some.inj (hb'.symm.trans hb)
    rw [if_pos hfit]

/-- Writing bytes makes no block and gives none back. -/
theorem store_keeps {h h' : Heap} {p : Ptr} {i : Nat} {bytes : List Byte}
    (hstore : h.store i bytes p = some h') : h'.released = h.released ∧ h'.next = h.next := by
  unfold store at hstore
  split at hstore
  · split at hstore
    · cases hstore
      exact ⟨rfl, rfl⟩
    · cases hstore
  · split at hstore
    · cases hstore
    · split at hstore
      · cases hstore
        exact ⟨rfl, rfl⟩
      · cases hstore

end Heap

end Sydn.Mem
