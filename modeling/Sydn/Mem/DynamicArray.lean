import Sydn.Mem.Refinement
import Sydn.Found.Transition

/-!
# One `sdo` as a dynamic byte array

Runs of `resize`, `reserve` and writes on one object, with successful allocations
and arbitrary new memory. Moving to a larger block does not copy: what such a
call leaves of the old bytes is settled for every sequence of calls.
-/

namespace Sydn.Mem

open Sydn.Found.Transition

variable {N : Nat}

inductive ArrayOp where
  | resize (size : Nat)
  | reserve (capacity : Nat)
  | write (k : Nat) (b : Byte)

/-- One call on an object and the free store; writes stay below `size()`. -/
def ArrayOp.run (content : Nat → Byte) (s : Sdo N) (h : Heap) : ArrayOp → Outcome (Sdo N × Heap)
  | .resize size => s.resize size (some content) h
  | .reserve capacity => s.reserve capacity (some content) h
  | .write k b => if k < s.d_size then s.store k [b] h else .undefined

/-- The runs of one object from its default construction in any free store. -/
def arrayRuns (N : Nat) : LTS (Sdo N × Heap) ArrayOp where
  init s := s.1 = Sdo.init N
  step s op s' := ∃ content, op.run content s.1 s.2 = .returned s'

/-- What a dynamic byte array promises of one call. -/
def ArrayLaw (s : Sdo N × Heap) (op : ArrayOp) (s' : Sdo N × Heap) : Prop :=
  ∃ bs bs', s.1.contents s.2 = some bs ∧ s'.1.contents s'.2 = some bs' ∧
    match op with
    | .resize size => s'.1.d_size = size ∧ s'.1.d_size ≤ s'.1.d_capacity ∧
        bs'.take (min s.1.d_size size) = bs.take (min s.1.d_size size)
    | .reserve capacity => s'.1.d_size = s.1.d_size ∧ capacity ≤ s'.1.d_capacity ∧ bs' = bs
    | .write k b => s'.1.d_size = s.1.d_size ∧ bs' = bs.set k b

/-- The call needs no larger block, or there are no bytes to carry over. -/
def KeepsBlock (s : Sdo N × Heap) : ArrayOp → Prop
  | .resize n | .reserve n => n ≤ s.1.d_capacity ∨ s.1.d_size = 0
  | .write _ _ => True

/-! ## One call -/

theorem patch_singleton {α : Type*} {l : List α} {k : Nat} {b : α} (hk : k < l.length) :
    patch k [b] l = l.set k b := by
  rw [List.set_eq_take_append_cons_drop, if_pos hk, patch, List.append_assoc]
  rfl

/-- A larger block may hold other bytes than those to carry over. -/
theorem exists_block_ne {v : Owned N} {n : Nat} (h : ¬ (n ≤ v.capacity ∨ v.d_size = 0)) :
    v.capacity < n ∧ ∃ content, (fill n content).take v.bytes.length ≠ v.bytes := by
  rw [not_or, not_le] at h
  obtain ⟨hlt, hne⟩ := h
  exact ⟨hlt, exists_fill_ne (by omega) (Owned.bytes_ne_nil hne)⟩

namespace Rep
variable {h : Heap} {s : Sdo N} {v : Owned N}

theorem step_resize (hr : Rep h s v) {n : Nat} {s' : Sdo N × Heap}
    (hstep : (arrayRuns N).step (s, h) (.resize n) s') :
    ∃ content, Rep s'.2 s'.1 (v.resize n content) := by
  obtain ⟨content, hret⟩ := hstep
  obtain ⟨s₁, h₁, hret₁, hr₁, _⟩ := hr.resize n content
  obtain rfl := Outcome.unique hret₁ hret
  exact ⟨content, hr₁⟩

theorem step_reserve (hr : Rep h s v) {n : Nat} {s' : Sdo N × Heap}
    (hstep : (arrayRuns N).step (s, h) (.reserve n) s') :
    ∃ content, Rep s'.2 s'.1 (v.reserve n content) := by
  obtain ⟨content, hret⟩ := hstep
  obtain ⟨s₁, h₁, hret₁, hr₁, _⟩ := hr.reserve n content
  obtain rfl := Outcome.unique hret₁ hret
  exact ⟨content, hr₁⟩

/-- A write goes to a byte the array has. -/
theorem step_write (hr : Rep h s v) {k : Nat} {b : Byte} {s' : Sdo N × Heap}
    (hstep : (arrayRuns N).step (s, h) (.write k b) s') :
    k < v.d_size ∧ Rep s'.2 s'.1 (v.store k [b]) := by
  obtain ⟨content, hret⟩ := hstep
  by_cases hk : k < s.d_size
  · have hsize := v.size_le_capacity
    have hkv : k < v.d_size := by
      rw [← hr.size]
      exact hk
    have hfit : k + [b].length ≤ v.capacity := by
      rw [List.length_singleton]
      omega
    obtain ⟨s₁, h₁, hret₁, hr₁, _⟩ := hr.store hfit
    rw [ArrayOp.run, if_pos hk] at hret
    obtain rfl := Outcome.unique hret₁ hret
    exact ⟨hkv, hr₁⟩
  · rw [ArrayOp.run, if_neg hk] at hret
    cases hret

theorem resize_law (hr : Rep h s v) (n : Nat) :
    (∀ s', (arrayRuns N).step (s, h) (.resize n) s' → ArrayLaw (s, h) (.resize n) s') ↔
      KeepsBlock (s, h) (.resize n) := by
  have hsize := v.size_le_capacity
  simp only [KeepsBlock, hr.size, hr.capacity]
  constructor
  · intro hlaw
    by_contra hcon
    obtain ⟨hlt, content, hdiff⟩ := exists_block_ne hcon
    obtain ⟨s', h', hret, hr', _⟩ := hr.resize n content
    obtain ⟨bs, bs', hbs, hbs', _, _, htake⟩ := hlaw (s', h') ⟨content, hret⟩
    obtain rfl := Option.some.inj (hr.contents.symm.trans hbs)
    obtain rfl := Option.some.inj (hr'.contents.symm.trans hbs')
    apply hdiff
    have hmin : min s.d_size n = v.d_size := by
      rw [hr.size]
      omega
    rw [hmin, Owned.bytes, Owned.storage_resize_of_lt hlt, Owned.size_resize, List.take_take,
      Nat.min_eq_left (by omega : v.d_size ≤ n)] at htake
    rw [Owned.length_bytes, htake]
    exact List.take_of_length_le (by rw [Owned.length_bytes])
  · intro hkeep s' hstep
    obtain ⟨content, hr₁⟩ := hr.step_resize hstep
    refine ⟨_, _, hr.contents, hr₁.contents, ?_, ?_, ?_⟩
    · rw [hr₁.size, Owned.size_resize]
    · rw [hr₁.size, hr₁.capacity]
      exact Owned.size_le_capacity _
    · change List.take (min s.d_size n) _ = List.take (min s.d_size n) _
      rw [hr.size]
      rcases hkeep with hfit | hzero
      · rw [Owned.bytes, Owned.bytes, Owned.storage_resize_of_le hfit, Owned.size_resize,
          List.take_take, List.take_take]
        congr 1
        omega
      · rw [hzero, Nat.zero_min, List.take_zero, List.take_zero]

theorem reserve_law (hr : Rep h s v) (n : Nat) :
    (∀ s', (arrayRuns N).step (s, h) (.reserve n) s' → ArrayLaw (s, h) (.reserve n) s') ↔
      KeepsBlock (s, h) (.reserve n) := by
  have hsize := v.size_le_capacity
  simp only [KeepsBlock, hr.size, hr.capacity]
  constructor
  · intro hlaw
    by_contra hcon
    obtain ⟨hlt, content, hdiff⟩ := exists_block_ne hcon
    obtain ⟨s', h', hret, hr', _⟩ := hr.reserve n content
    obtain ⟨bs, bs', hbs, hbs', _, _, heq⟩ := hlaw (s', h') ⟨content, hret⟩
    obtain rfl := Option.some.inj (hr.contents.symm.trans hbs)
    obtain rfl := Option.some.inj (hr'.contents.symm.trans hbs')
    apply hdiff
    rw [Owned.length_bytes, ← heq, Owned.bytes, Owned.storage_reserve_of_lt hlt,
      Owned.size_reserve]
  · intro hkeep s' hstep
    obtain ⟨content, hr₁⟩ := hr.step_reserve hstep
    refine ⟨_, _, hr.contents, hr₁.contents, ?_, ?_, ?_⟩
    · rw [hr₁.size, hr.size, Owned.size_reserve]
    · rw [hr₁.capacity, Owned.capacity_reserve]
      exact le_max_right _ _
    · rcases hkeep with hfit | hzero
      · rw [Owned.reserve_of_le hfit]
      · rw [Owned.bytes, Owned.bytes, Owned.size_reserve, hzero, List.take_zero, List.take_zero]

theorem write_law (hr : Rep h s v) (k : Nat) (b : Byte) (s' : Sdo N × Heap)
    (hstep : (arrayRuns N).step (s, h) (.write k b) s') : ArrayLaw (s, h) (.write k b) s' := by
  obtain ⟨hk, hr₁⟩ := hr.step_write hstep
  have hsize := v.size_le_capacity
  have hfit : k + [b].length ≤ v.capacity := by
    rw [List.length_singleton]
    omega
  refine ⟨_, _, hr.contents, hr₁.contents, ?_, ?_⟩
  · rw [hr₁.size, hr.size, Owned.size_store]
  · rw [Owned.bytes, Owned.bytes, Owned.storage_store hfit, Owned.size_store,
      patch_singleton (by rw [Owned.length_storage]; omega), List.take_set]

/-- One call keeps the law, whatever new memory holds, exactly when it keeps the block. -/
theorem array_law (hr : Rep h s v) (op : ArrayOp) :
    (∀ s', (arrayRuns N).step (s, h) op s' → ArrayLaw (s, h) op s') ↔ KeepsBlock (s, h) op := by
  cases op with
  | resize n => exact hr.resize_law n
  | reserve n => exact hr.reserve_law n
  | write k b => exact iff_of_true (hr.write_law k b) trivial

/-- A call leaves an object that represents bytes again. -/
theorem array_step (hr : Rep h s v) {op : ArrayOp} {s' : Sdo N × Heap}
    (hstep : (arrayRuns N).step (s, h) op s') : ∃ v', Rep s'.2 s'.1 v' := by
  cases op with
  | resize n =>
    obtain ⟨content, hr₁⟩ := hr.step_resize hstep
    exact ⟨_, hr₁⟩
  | reserve n =>
    obtain ⟨content, hr₁⟩ := hr.step_reserve hstep
    exact ⟨_, hr₁⟩
  | write k b => exact ⟨_, (hr.step_write hstep).2⟩

end Rep

/-! ## Sequences of calls -/

/-- **Dynamic array.** A sequence of calls on a default-constructed object keeps what a
dynamic byte array promises, whatever new memory holds, exactly when each call of it
keeps the block it finds or finds no bytes to carry over. -/
theorem array_law_iff (N : Nat) (h : Heap) (ops : List ArrayOp) :
    (arrayRuns N).Along ArrayLaw (Sdo.init N, h) ops ↔
      (arrayRuns N).Along (fun s op _ => KeepsBlock s op) (Sdo.init N, h) ops := by
  refine LTS.along_iff (I := fun s => ∃ v, Rep s.2 s.1 v) ?_ ?_ ⟨_, rep_init h⟩ ops
  · rintro ⟨s, h⟩ op s' ⟨v, hr⟩ _ hstep
    exact hr.array_step hstep
  · rintro ⟨s, h⟩ op ⟨v, hr⟩
    exact hr.array_law op

/-- One written byte does not survive the step from sixteen to seventeen bytes. -/
theorem not_array_law :
    ¬ ∀ ops : List ArrayOp, (arrayRuns 16).Along ArrayLaw (Sdo.init 16, Heap.empty) ops := by
  intro hclaim
  have hlaw := hclaim [.resize 1, .write 0 1, .reserve 17]
  obtain ⟨_, hlaw⟩ := hlaw _ ⟨fun _ => 0, rfl⟩
  obtain ⟨_, hlaw⟩ := hlaw _ ⟨fun _ => 0, rfl⟩
  obtain ⟨⟨bs, bs', hbs, hbs', _, _, heq⟩, _⟩ := hlaw _ ⟨fun _ => 0, rfl⟩
  cases hbs
  cases hbs'
  cases heq

end Sydn.Mem
