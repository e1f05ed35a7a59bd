import Sydn.Mem.Owned
import Sydn.Net.Kernel

/-!
# Socket addresses

An `address` holds its bytes in an `sdo<32>`, taken here as its owned bytes. Its
size is zero or at least that of a `sockaddr`: `resize` asserts it, so it is part
of the type. New memory is asked for exactly where the source allocates, and an
allocation succeeds: what a failing one leaves behind is a matter of `sdo`.
-/

namespace Sydn.Net

open Sydn.Found.Interaction
open Sydn.Mem (Byte Owned patch)

def c_sdoSize : Nat := 32

/-- `sizeof(sockaddr)`. -/
def sizeofSockaddr : Nat := 16

def AF_UNSPEC : Nat := 0

/-- A `size_t` passed where a `socklen_t` is expected. -/
def socklen (n : Nat) : Nat := n % 2 ^ 32

/-- What `address::resize` asserts of its argument. -/
def SizeOk (n : Nat) : Prop := n = 0 ∨ sizeofSockaddr ≤ n

instance (n : Nat) : Decidable (SizeOk n) := inferInstanceAs (Decidable (_ ∨ _))

theorem sizeOk_sockaddr : SizeOk sizeofSockaddr := Or.inr (Nat.le_refl _)

structure Address where
  d_data : Owned c_sdoSize
  size_ok : SizeOk d_data.d_size

namespace Address

/-- `address()`. -/
def init : Address := ⟨Owned.init c_sdoSize, Or.inl rfl⟩

def size (a : Address) : Nat := a.d_data.d_size

def capacity (a : Address) : Nat := a.d_data.capacity

/-- The `size()` bytes of the address. -/
def bytes (a : Address) : List Byte := a.d_data.bytes

/-- The bytes behind `native()`, which is null for an empty address. -/
def native (a : Address) : Option (List Byte) := if a.size ≠ 0 then some a.bytes else none

/-- `native()` as a place to write to, with the length passed beside it. -/
def buffer (a : Address) (len : Nat) : Buffer :=
  ⟨if a.size ≠ 0 then some a.capacity else none, len⟩

/-- The `sa_family` field: the first two bytes, the low one first. -/
def family (a : Address) : Nat :=
  if a.size ≠ 0 then (a.bytes.getD 0 0).toNat + 256 * (a.bytes.getD 1 0).toNat else AF_UNSPEC

/-- `operator!=(std::nullptr_t)`. -/
def notNull (a : Address) : Bool := a.family != AF_UNSPEC

/-- The content of the memory that growing to `size` allocates; nothing reads it otherwise. -/
def allocate (a : Address) (size : Nat) : Syscall (Nat → Byte) :=
  if a.capacity < size then Prog.ask (S := Posix) (.new size) else .ret fun _ => 0

/-- The address with `size` bytes, the new memory of which holds `content`. -/
def resized (a : Address) (size : Nat) (content : Nat → Byte) (h : SizeOk size) : Address :=
  ⟨a.d_data.resize size content, by rw [Owned.size_resize]; exact h⟩

def resize (size : Nat) (a : Address) : Syscall Address :=
  if h : SizeOk size then do
    let content ← a.allocate size
    return a.resized size content h
  else .stop .assertion

def reserve (capacity : Nat) (a : Address) : Syscall Address := do
  let content ← a.allocate capacity
  return ⟨a.d_data.reserve capacity content, by rw [Owned.size_reserve]; exact a.size_ok⟩

def clear (a : Address) : Address := a.resized 0 (fun _ => 0) (Or.inl rfl)

/-- Copy assignment. -/
def copyAssign (a other : Address) : Syscall Address := do
  let content ← a.allocate other.size
  return ⟨a.d_data.copyAssign other.d_data content, by
    rw [Owned.copyAssign, Owned.size_store, Owned.size_resize]
    exact other.size_ok⟩

/-- The address after a copy assignment; new memory holds `content`. -/
def assigned (a other : Address) (content : Nat → Byte) : Address :=
  ⟨a.d_data.copyAssign other.d_data content, by
    rw [Owned.size_copyAssign]
    exact other.size_ok⟩

section Assigned
variable {a other : Address} {content : Nat → Byte}

@[simp] theorem size_assigned : (a.assigned other content).size = other.size :=
  Owned.size_copyAssign

@[simp] theorem bytes_assigned : (a.assigned other content).bytes = other.bytes :=
  Owned.bytes_copyAssign

end Assigned

/-- Move assignment, with both objects after it: inline bytes are copied, a block is
exchanged for what the target had. -/
def moveAssign (a other : Address) : Syscall (Address × Address) :=
  match other.d_data.block with
  | none => do
    let content ← a.allocate other.size
    return (a.assigned other content, other)
  | some _ => .ret (⟨a.d_data.exchange other.d_data, other.size_ok⟩,
      ⟨other.d_data.exchange a.d_data, a.size_ok⟩)

/-- The copy constructor. -/
def copy (other : Address) : Syscall Address := init.copyAssign other

/-- `*this = address()`: the temporary holds its bytes inline, so the move
assignment copies none of them and allocates nothing. -/
def reset (a : Address) : Address :=
  ⟨a.d_data.copyAssign (Owned.init c_sdoSize) fun _ => 0, by
    rw [Owned.copyAssign, Owned.size_store, Owned.size_resize]
    exact Or.inl rfl⟩

/-- The first bytes of the storage overwritten by the kernel. -/
def written (a : Address) (bs : List Byte) : Address :=
  ⟨a.d_data.store 0 bs, by rw [Owned.size_store]; exact a.size_ok⟩

/-- The bytes from `native() + i` on overwritten by a member function. -/
def stored (i : Nat) (bs : List Byte) (a : Address) : Address :=
  ⟨a.d_data.store i bs, by rw [Owned.size_store]; exact a.size_ok⟩

/-- What a successful call leaves in a buffer of `len` bytes at `native()`: the first
bytes of the name as far as they fit, and in the `socklen_t` the length of the name.
With a null pointer nothing is written and the length is left alone. -/
def received (a : Address) (len : Nat) (name : SockName) : Address × Nat :=
  if a.size = 0 then (a, len) else (a.written (name.bytes.take len), name.length)

/-- The same, where the storage holds as many bytes as it was said to. -/
def receive (a : Address) (len : Nat) (name : SockName) : Syscall (Address × Nat) :=
  if a.size ≠ 0 ∧ a.capacity < (name.bytes.take len).length then .stop .overrun
  else .ret (a.received len name)

/-- The effect of a call that was passed `native()` and the address of `len`. -/
def deliver (a : Address) (len : Nat) (r : Named) : Syscall (Address × Nat) :=
  if r.res = -1 then .ret (a, len) else a.receive len r.name

section Stored
variable {a b : Address} {i : Nat} {bs : List Byte}

theorem size_stored : (a.stored i bs).size = a.size := Owned.size_store

theorem storage_stored (h : i + bs.length ≤ a.capacity) :
    (a.stored i bs).d_data.storage = patch i bs a.d_data.storage := Owned.storage_store h

theorem bytes_getD {k : Nat} (h : k < a.size) : a.bytes.getD k 0 = a.d_data.storage.getD k 0 := by
  have htake : a.bytes[k]? = a.d_data.storage[k]? := List.getElem?_take_of_lt h
  rw [List.getD_eq_getElem?_getD, htake, List.getD_eq_getElem?_getD]

theorem family_congr (hsize : b.size = a.size) (hbytes : b.bytes = a.bytes) :
    b.family = a.family := by
  rw [family, family, hsize, hbytes]

/-- The family is in the first two bytes. -/
theorem family_of_take (hsize : b.size = a.size)
    (htake : b.d_data.storage.take 2 = a.d_data.storage.take 2) : b.family = a.family := by
  rcases a.size_ok with hzero | hle
  · have ha : a.family = AF_UNSPEC := if_neg (not_not.mpr hzero)
    have hb : b.family = AF_UNSPEC := if_neg (not_not.mpr (hsize.trans hzero))
    exact hb.trans ha.symm
  · change 16 ≤ a.size at hle
    have hget : ∀ k < 2, b.bytes.getD k 0 = a.bytes.getD k 0 := by
      intro k hk
      have hkth := congrArg (·[k]?) htake
      simp only [List.getElem?_take_of_lt hk] at hkth
      rw [bytes_getD (by omega), bytes_getD (by omega), List.getD_eq_getElem?_getD, hkth,
        List.getD_eq_getElem?_getD]
    rw [family, family, hsize, hget 0 (by omega), hget 1 (by omega)]

/-- A write behind the family leaves it. -/
theorem family_stored (hi : 2 ≤ i) (h : i + bs.length ≤ a.capacity) :
    (a.stored i bs).family = a.family := by
  have hlen : i ≤ a.d_data.storage.length := by
    rw [Owned.length_storage]
    exact (Nat.le_add_right i _).trans h
  apply family_of_take size_stored
  have htake := congrArg (List.take 2) (Sydn.Mem.take_patch bs hlen)
  rw [List.take_take, List.take_take, Nat.min_eq_left hi] at htake
  rw [storage_stored h]
  exact htake

end Stored

end Address

/-! ## The system calls -/

namespace Posix

def socket (domain : Nat) (type protocol : Int) : Syscall Status :=
  Prog.ask (S := Posix) (.socket domain type protocol)

def bind (fd : Int) (address : Address) : Syscall Status :=
  Prog.ask (S := Posix) (.bind fd address.native (socklen address.size))

def connect (fd : Int) (address : Address) : Syscall Status :=
  Prog.ask (S := Posix) (.connect fd address.native (socklen address.size))

def listen (fd backlog : Int) : Syscall Status := Prog.ask (S := Posix) (.listen fd backlog)

def close (fd : Int) : Syscall Unit := Prog.ask (S := Posix) (.close fd)

/-- `::accept(fd, nullptr, nullptr)`. -/
def accept (fd : Int) : Syscall Named := Prog.ask (S := Posix) (.accept fd none)

/-- `::accept(fd, address.native(), &len)`. -/
def acceptFrom (fd : Int) (address : Address) (len : Nat) :
    Syscall (Named × Address × Nat) := do
  let r ← Prog.ask (S := Posix) (.accept fd (some (address.buffer len)))
  let (address, len) ← address.deliver len r
  return (r, address, len)

/-- `::getsockname(fd, address.native(), &len)`. -/
def getsockname (fd : Int) (address : Address) (len : Nat) :
    Syscall (Named × Address × Nat) := do
  let r ← Prog.ask (S := Posix) (.getsockname fd (address.buffer len))
  let (address, len) ← address.deliver len r
  return (r, address, len)

section Bind
variable {α : Type} (fd : Int) (a : Address) (len : Nat) (f : Named × Address × Nat → Syscall α)

theorem acceptFrom_bind : (acceptFrom fd a len).bind f =
    .call (S := Posix) (.accept fd (some (a.buffer len))) fun r =>
      (a.deliver len r).bind fun b => f (r, b.1, b.2) := by
  refine congrArg (Prog.call (S := Posix) _) (funext fun r => ?_)
  exact Prog.bind_assoc (a.deliver len r) _ f

theorem getsockname_bind : (getsockname fd a len).bind f =
    .call (S := Posix) (.getsockname fd (a.buffer len)) fun r =>
      (a.deliver len r).bind fun b => f (r, b.1, b.2) := by
  refine congrArg (Prog.call (S := Posix) _) (funext fun r => ?_)
  exact Prog.bind_assoc (a.deliver len r) _ f

end Bind

def read (fd : Int) (count : Nat) : Syscall Received := Prog.ask (S := Posix) (.read fd count)

def write (fd : Int) (data : List Byte) : Syscall Status := Prog.ask (S := Posix) (.write fd data)

end Posix

end Sydn.Net
