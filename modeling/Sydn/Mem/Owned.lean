import Sydn.Mem.Sdo

/-!
# An `sdo` as its only holder sees it

No heap and no pointer: the bytes belong to the object. What the fields of an
`sdo` must satisfy is part of the type. The operations allocate exactly where
the source does; `content` is what new memory happens to hold and is read only
when an operation allocates.
-/

namespace Sydn.Mem

structure Owned (N : Nat) where
  d_size : Nat
  /-- The inline bytes; while a block is owned only those beyond the pointer matter. -/
  d_data : List Byte
  /-- The bytes of the owned block, if there is one. -/
  block : Option (List Byte)
  length_data : d_data.length = N
  lt_block : ∀ b, block = some b → N < b.length
  size_le : d_size ≤ (block.getD d_data).length

namespace Owned
variable {N : Nat}

/-- The bytes at `data()`, used or not. -/
def storage (v : Owned N) : List Byte := v.block.getD v.d_data

def capacity (v : Owned N) : Nat := v.storage.length

/-- The first `size()` bytes. -/
def bytes (v : Owned N) : List Byte := v.storage.take v.d_size

theorem size_le_capacity (v : Owned N) : v.d_size ≤ v.capacity := v.size_le

@[simp] theorem length_storage (v : Owned N) : v.storage.length = v.capacity := rfl

@[simp] theorem length_bytes (v : Owned N) : v.bytes.length = v.d_size := by
  rw [bytes, List.length_take, length_storage]
  exact Nat.min_eq_left v.size_le_capacity

theorem bytes_ne_nil {v : Owned N} (h : v.d_size ≠ 0) : v.bytes ≠ [] := by
  rw [← List.length_pos_iff, length_bytes]
  omega

theorem capacity_of_inline {v : Owned N} (h : v.block = none) : v.capacity = N := by
  rw [capacity, storage, h]
  exact v.length_data

theorem capacity_of_block {v : Owned N} {b : List Byte} (h : v.block = some b) :
    v.capacity = b.length := by
  rw [capacity, storage, h]
  rfl

theorem le_capacity (v : Owned N) : N ≤ v.capacity := by
  cases h : v.block with
  | none => exact (capacity_of_inline h).ge
  | some b =>
    rw [capacity_of_block h]
    exact (v.lt_block b h).le

/-- The capacity tells the storage mode. -/
theorem lt_capacity_iff (v : Owned N) : N < v.capacity ↔ ∃ b, v.block = some b := by
  cases h : v.block with
  | none => simp [capacity_of_inline h]
  | some b =>
    rw [capacity_of_block h]
    simpa using v.lt_block b h

def init (N : Nat) : Owned N where
  d_size := 0
  d_data := List.replicate N 0
  block := none
  length_data := List.length_replicate
  lt_block := by simp
  size_le := Nat.zero_le _

/-- Move to a new block that is larger than the capacity. -/
def grow (v : Owned N) (size capacity : Nat) (content : Nat → Byte)
    (hcap : v.capacity < capacity) (hsize : size ≤ capacity) : Owned N where
  d_size := size
  d_data := v.d_data
  block := some (fill capacity content)
  length_data := v.length_data
  lt_block := by
    intro b hb
    have hN := v.le_capacity
    obtain rfl := Option.some.inj hb
    rw [length_fill]
    omega
  size_le := by simpa using hsize

def reserve (v : Owned N) (capacity : Nat) (content : Nat → Byte) : Owned N :=
  if h : v.capacity < capacity then
    v.grow v.d_size capacity content h (v.size_le_capacity.trans h.le)
  else v

def resize (v : Owned N) (size : Nat) (content : Nat → Byte) : Owned N :=
  if h : v.capacity < size then v.grow size size content h le_rfl
  else { v with d_size := size, size_le := not_lt.mp h }

/-- Write `bs` at `data() + i`, inside the storage only. -/
def store (v : Owned N) (i : Nat) (bs : List Byte) : Owned N :=
  if h : i + bs.length ≤ v.capacity then
    match hb : v.block with
    | none =>
        { v with
          d_data := patch i bs v.d_data
          length_data := by
            rw [capacity_of_inline hb] at h
            rw [length_patch (by rw [v.length_data]; exact h), v.length_data]
          lt_block := by simp [hb]
          size_le := by
            rw [capacity_of_inline hb] at h
            have hs := v.size_le
            rw [hb] at hs ⊢
            rw [Option.getD_none, length_patch (by rw [v.length_data]; exact h)]
            exact hs }
    | some b =>
        { v with
          block := some (patch i bs b)
          lt_block := by
            intro b' hb'
            obtain rfl := Option.some.inj hb'
            rw [capacity_of_block hb] at h
            rw [length_patch h]
            exact v.lt_block b hb
          size_le := by
            rw [capacity_of_block hb] at h
            have hs := v.size_le
            rw [hb] at hs
            rw [Option.getD_some, length_patch h]
            exact hs }
  else v

/-- Copy assignment from another object. -/
def copyAssign (v other : Owned N) (content : Nat → Byte) : Owned N :=
  (v.resize other.d_size content).store 0 other.bytes

/-- `this` after the three exchanges of move assignment with `other`: the size and
the block come from `other`, of the inline bytes only those under the pointer. -/
def exchange (this other : Owned N) : Owned N where
  d_size := other.d_size
  d_data := other.d_data.take ptrSize ++ this.d_data.drop ptrSize
  block := other.block
  length_data := by
    have h := this.length_data
    have h' := other.length_data
    rw [List.length_append, List.length_take, List.length_drop]
    omega
  lt_block := other.lt_block
  size_le := by
    have h := other.size_le
    have ht := this.length_data
    have ho := other.length_data
    cases hb : other.block with
    | none =>
      rw [hb] at h
      rw [Option.getD_none] at h ⊢
      rw [List.length_append, List.length_take, List.length_drop]
      omega
    | some b =>
      rw [hb] at h
      exact h

/-! ## What the operations do to the size, the capacity and the storage -/

variable {v w : Owned N} {n i : Nat} {content : Nat → Byte} {bs : List Byte}

theorem ext_storage {v w : Owned N} (hsize : v.d_size = w.d_size) (hdata : v.d_data = w.d_data)
    (hblock : v.block = w.block) : v = w := by
  cases v
  cases w
  simp_all

theorem resize_of_le (content : Nat → Byte) (h : n ≤ v.capacity) :
    (v.resize n content).d_size = n ∧ (v.resize n content).d_data = v.d_data ∧
      (v.resize n content).block = v.block := by
  rw [resize, dif_neg (not_lt.mpr h)]
  exact ⟨rfl, rfl, rfl⟩

theorem resize_of_lt (h : v.capacity < n) : v.resize n content = v.grow n n content h le_rfl :=
  dif_pos h

theorem reserve_of_le (h : n ≤ v.capacity) : v.reserve n content = v := dif_neg (not_lt.mpr h)

theorem reserve_of_lt (h : v.capacity < n) :
    v.reserve n content = v.grow v.d_size n content h (v.size_le_capacity.trans h.le) := dif_pos h

@[simp] theorem size_resize : (v.resize n content).d_size = n := by
  by_cases h : n ≤ v.capacity
  · exact (resize_of_le content h).1
  · rw [resize_of_lt (not_le.mp h)]
    rfl

theorem storage_resize_of_le (h : n ≤ v.capacity) :
    (v.resize n content).storage = v.storage := by
  obtain ⟨_, hdata, hblock⟩ := resize_of_le content h
  rw [storage, hdata, hblock, storage]

theorem storage_resize_of_lt (h : v.capacity < n) :
    (v.resize n content).storage = fill n content := by
  rw [resize_of_lt h]
  rfl

@[simp] theorem capacity_resize : (v.resize n content).capacity = max v.capacity n := by
  by_cases h : n ≤ v.capacity
  · rw [capacity, storage_resize_of_le h, length_storage, Nat.max_eq_left h]
  · rw [capacity, storage_resize_of_lt (not_le.mp h), length_fill]
    omega

theorem resize_self (v : Owned N) (content : Nat → Byte) : v.resize v.d_size content = v := by
  obtain ⟨hsize, hdata, hblock⟩ := resize_of_le content v.size_le_capacity
  exact ext_storage hsize hdata hblock

@[simp] theorem size_reserve : (v.reserve n content).d_size = v.d_size := by
  by_cases h : n ≤ v.capacity
  · rw [reserve_of_le h]
  · rw [reserve_of_lt (not_le.mp h)]
    rfl

theorem storage_reserve_of_lt (h : v.capacity < n) :
    (v.reserve n content).storage = fill n content := by
  rw [reserve_of_lt h]
  rfl

@[simp] theorem capacity_reserve : (v.reserve n content).capacity = max v.capacity n := by
  by_cases h : n ≤ v.capacity
  · rw [reserve_of_le h, Nat.max_eq_left h]
  · rw [capacity, storage_reserve_of_lt (not_le.mp h), length_fill]
    omega

theorem store_inline (hb : v.block = none) (h : i + bs.length ≤ v.capacity) :
    (v.store i bs).block = none ∧ (v.store i bs).d_data = patch i bs v.d_data := by
  rw [store, dif_pos h]
  split
  · exact ⟨hb, rfl⟩
  · rename_i b hb'
    rw [hb] at hb'
    cases hb'

theorem store_block {b : List Byte} (hb : v.block = some b) (h : i + bs.length ≤ v.capacity) :
    (v.store i bs).block = some (patch i bs b) ∧ (v.store i bs).d_data = v.d_data := by
  rw [store, dif_pos h]
  split
  · rename_i hb'
    rw [hb] at hb'
    cases hb'
  · rename_i b' hb'
    obtain rfl := Option.some.inj (hb'.symm.trans hb)
    exact ⟨rfl, rfl⟩

@[simp] theorem size_store : (v.store i bs).d_size = v.d_size := by
  unfold store
  split
  · split <;> rfl
  · rfl

theorem storage_store (h : i + bs.length ≤ v.capacity) :
    (v.store i bs).storage = patch i bs v.storage := by
  cases hb : v.block with
  | none =>
    obtain ⟨hblock, hdata⟩ := store_inline hb h
    rw [storage, hblock, hdata, storage, hb]
    rfl
  | some b =>
    obtain ⟨hblock, hdata⟩ := store_block hb h
    rw [storage, hblock, hdata, storage, hb]
    rfl

@[simp] theorem capacity_store : (v.store i bs).capacity = v.capacity := by
  by_cases h : i + bs.length ≤ v.capacity
  · rw [capacity, storage_store h, length_patch h, length_storage]
  · rw [store, dif_neg h]

/-- The resize of a copy assignment makes room for the bytes of the other object. -/
theorem copy_fits (v w : Owned N) (content : Nat → Byte) :
    0 + w.bytes.length ≤ (v.resize w.d_size content).capacity := by
  rw [length_bytes, capacity_resize]
  omega

@[simp] theorem size_copyAssign : (v.copyAssign w content).d_size = w.d_size := by
  rw [copyAssign, size_store, size_resize]

@[simp] theorem bytes_copyAssign : (v.copyAssign w content).bytes = w.bytes := by
  rw [bytes, size_copyAssign, copyAssign,
    storage_store (v.copy_fits w content)]
  have htake : (patch 0 w.bytes (v.resize w.d_size content).storage).take w.bytes.length =
      w.bytes := take_patch_zero
  rw [length_bytes] at htake
  exact htake

/-- New memory is seen only where the object grows. -/
theorem resize_congr {content' : Nat → Byte} (h : v.capacity < n → content = content') :
    v.resize n content = v.resize n content' := by
  by_cases hn : v.capacity < n
  · rw [h hn]
  · obtain ⟨hsize, hdata, hblock⟩ := resize_of_le content (not_lt.mp hn)
    obtain ⟨hsize', hdata', hblock'⟩ := resize_of_le content' (not_lt.mp hn)
    exact ext_storage (hsize.trans hsize'.symm) (hdata.trans hdata'.symm)
      (hblock.trans hblock'.symm)

theorem reserve_congr {content' : Nat → Byte} (h : v.capacity < n → content = content') :
    v.reserve n content = v.reserve n content' := by
  by_cases hn : v.capacity < n
  · rw [h hn]
  · rw [reserve_of_le (not_lt.mp hn), reserve_of_le (not_lt.mp hn)]

theorem copyAssign_congr {content' : Nat → Byte}
    (h : v.capacity < w.d_size → content = content') :
    v.copyAssign w content = v.copyAssign w content' := by
  rw [copyAssign, copyAssign, resize_congr h]

/-- Writing back the bytes of the object itself changes nothing. -/
theorem copyAssign_self (v : Owned N) (content : Nat → Byte) : v.copyAssign v content = v := by
  have hfits : 0 + v.bytes.length ≤ v.capacity := by
    rw [length_bytes, Nat.zero_add]
    exact v.size_le_capacity
  rw [copyAssign, resize_self]
  cases hb : v.block with
  | none =>
    obtain ⟨hblock, hdata⟩ := store_inline hb hfits
    refine ext_storage size_store (hdata.trans ?_) (hblock.trans hb.symm)
    rw [bytes, storage, hb]
    exact patch_zero_take
  | some b =>
    obtain ⟨hblock, hdata⟩ := store_block hb hfits
    refine ext_storage size_store hdata (hblock.trans ?_)
    rw [hb, bytes, storage, hb]
    exact congrArg some patch_zero_take

/-- The target and the source after a move assignment. -/
def moveAssign (v w : Owned N) (content : Nat → Byte) : Owned N × Owned N :=
  match w.block with
  | none => (v.copyAssign w content, w)
  | some _ => (v.exchange w, w.exchange v)

theorem moveAssign_inline (hb : w.block = none) (content : Nat → Byte) :
    v.moveAssign w content = (v.copyAssign w content, w) := by
  rw [moveAssign, hb]

theorem moveAssign_block {b : List Byte} (hb : w.block = some b) (content : Nat → Byte) :
    v.moveAssign w content = (v.exchange w, w.exchange v) := by
  rw [moveAssign, hb]

end Owned

/-! ## All objects of a program -/

/-- The objects of a program as owned bytes. -/
abbrev Values (N : Nat) := Nat → Option (Owned N)

namespace Values
variable {N : Nat}

def copyAssign (V : Values N) (i j : Nat) (content : Nat → Byte) : Values N :=
  match V i, V j with
  | some v, some w => Function.update V i (some (v.copyAssign w content))
  | _, _ => V

def moveAssign (V : Values N) (i j : Nat) (content : Nat → Byte) : Values N :=
  match V i, V j with
  | some v, some w =>
      match w.block with
      | none => Function.update V i (some (v.copyAssign w content))
      | some _ =>
          Function.update (Function.update V i (some (v.exchange w))) j (some (w.exchange v))
  | _, _ => V

/-- A member function that is a map of the object's bytes. -/
def on (V : Values N) (i : Nat) (f : Owned N → Owned N) : Values N :=
  Function.update V i ((V i).map f)

def create (V : Values N) (i : Nat) : Values N := Function.update V i (some (Owned.init N))

def exec (content : Nat → Byte) (V : Values N) : Op → Values N
  | .create i size => (V.create i).on i (·.resize size content)
  | .copyCreate i j => (V.create i).copyAssign i j content
  | .moveCreate i j => (V.create i).moveAssign i j content
  | .copyAssign i j => V.copyAssign i j content
  | .moveAssign i j => V.moveAssign i j content
  | .resize i size => V.on i (·.resize size content)
  | .reserve i capacity => V.on i (·.reserve capacity content)
  | .write i k b => V.on i (·.store k [b])
  | .destroy i => Function.update V i none

section Assignments
variable {V : Values N} {i j : Nat} {v w : Owned N}

theorem copyAssign_eq (hi : V i = some v) (hj : V j = some w) (content : Nat → Byte) :
    V.copyAssign i j content = Function.update V i (some (v.copyAssign w content)) := by
  simp only [Values.copyAssign, hi, hj]

/-- A move assignment also of an object to itself. -/
theorem moveAssign_eq (hi : V i = some v) (hj : V j = some w) (content : Nat → Byte) :
    V.moveAssign i j content =
      Function.update (Function.update V i (some (v.moveAssign w content).1)) j
        (some (v.moveAssign w content).2) := by
  cases hb : w.block with
  | some b => simp only [Values.moveAssign, hi, hj, hb, Owned.moveAssign_block hb]
  | none =>
    simp only [Values.moveAssign, hi, hj, hb, Owned.moveAssign_inline hb]
    by_cases hji : j = i
    · subst hji
      obtain rfl := Option.some.inj (hi.symm.trans hj)
      rw [Owned.copyAssign_self, Function.update_idem]
    · have hkept : Function.update V i (some (v.copyAssign w content)) j = some w := by
        rw [Function.update_of_ne hji, hj]
      rw [← hkept, Function.update_eq_self]

/-- A new object and the one it is made from. -/
theorem create_pair (hi : V i = none) (hj : V j = some w) :
    V.create i i = some (Owned.init N) ∧ V.create i j = some w := by
  have hji : j ≠ i := by
    rintro rfl
    rw [hi] at hj
    cases hj
  exact ⟨Function.update_self _ _ _, (Function.update_of_ne hji _ _).trans hj⟩

theorem create_copyAssign (hi : V i = none) (hj : V j = some w) (content : Nat → Byte) :
    (V.create i).copyAssign i j content =
      Function.update V i (some ((Owned.init N).copyAssign w content)) := by
  obtain ⟨hnew, hsource⟩ := create_pair hi hj
  rw [copyAssign_eq hnew hsource, create, Function.update_idem]

theorem create_moveAssign (hi : V i = none) (hj : V j = some w) (content : Nat → Byte) :
    (V.create i).moveAssign i j content =
      Function.update (Function.update V i (some ((Owned.init N).moveAssign w content).1)) j
        (some ((Owned.init N).moveAssign w content).2) := by
  obtain ⟨hnew, hsource⟩ := create_pair hi hj
  rw [moveAssign_eq hnew hsource, create, Function.update_idem]

end Assignments

end Values
end Sydn.Mem
