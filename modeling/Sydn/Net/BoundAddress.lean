import Sydn.Net.PeerAddress

/-!
# The address a `listen_socket` says it listens on

The constructor gives its own address the size of the one passed in and lets the kernel
fill it. Neither `accept` nor `local_address` of the other classes stops there: they
resize to the length that was reported. The constructor does not.
-/

namespace Sydn.Net

open Sydn.Found.Interaction
open Sydn.Mem (Byte Owned)

/-- Where the kernel reports `name` for the socket and the socket ends okay, its
`local_address()` is exactly that. -/
def BoundExact (type : SocketType) (local_address : Address) (name : SockName) : Prop :=
  ∀ w t (this : ListenSocket),
    (ListenSocket.construct type local_address).Run Kernel.env w t (.ok this) →
    this.okay = true → (∀ q ∈ queries t, q.2.name = name) →
    ∀ w' t' a, this.local_address.Run Kernel.env w' t' (.ok a) →
      a.size = name.length ∧ a.bytes = name.bytes

/-- A copy has the size and the bytes of the original. -/
theorem Address.run_copy {a b : Address} {w : Kernel} {t : Trace}
    (hrun : a.copy.Run Kernel.env w t (.ok b)) : b.size = a.size ∧ b.bytes = a.bytes := by
  obtain ⟨content, _, rfl⟩ := Prog.run_map.mp hrun
  exact ⟨Owned.size_copyAssign, Owned.bytes_copyAssign⟩

theorem Address.exists_run_copy (a : Address) (w : Kernel) :
    ∃ t b, a.copy.Run Kernel.env w t (.ok b) := by
  have hallocate : ∃ t content, (init.allocate a.size).Run Kernel.env w t (.ok content) := by
    unfold allocate
    split
    · exact ⟨_, fun _ => 0, _, _, rfl, trivial, rfl, rfl⟩
    · exact ⟨_, _, rfl, rfl⟩
  obtain ⟨t, content, hrun⟩ := hallocate
  exact ⟨t, _, Prog.run_map.mpr ⟨content, hrun, rfl⟩⟩

section Bound
variable {type : SocketType} {a : Address} {name : SockName}

/-- A name of the size of the address fits and is read back as it is. -/
theorem Address.bytes_taken (hsize : a.size ≠ 0) (hcap : a.capacity < 2 ^ 32)
    (hlen : name.length = a.size) : (a.taken name).1.bytes = name.bytes := by
  have hfits : name.length ≤ a.capacity := hlen.le.trans a.d_data.size_le_capacity
  have htake : name.bytes.take (socklen a.capacity) = name.bytes := by
    rw [socklen, Nat.mod_eq_of_lt hcap]
    exact List.take_of_length_le hfits
  rw [taken_of_size_ne hsize, htake]
  have hstorage := storage_written name.bytes hfits
  have hwritten : (a.written name.bytes).d_data.d_size = name.bytes.length :=
    Owned.size_store.trans hlen.symm
  rw [bytes, Owned.bytes, hstorage, hwritten]
  exact Sydn.Mem.take_patch_zero

/-- The constructor's own address, filled with a name of the size it was given. -/
theorem Address.bytes_bound (h : SizeOk a.size) (content : Nat → Byte)
    (hmin : sizeofSockaddr ≤ a.size) (hlen : name.length = a.size) :
    ((init.resized a.size content h).taken name).1.bytes = name.bytes := by
  have hlt : name.length < 2 ^ 32 := name.lt_len
  refine bytes_taken ?_ ?_ ?_
  · rw [size_resized]
    unfold sizeofSockaddr at hmin
    omega
  · rw [capacity_resized, ← hlen]
    have hinit : init.capacity = 32 := rfl
    omega
  · rw [size_resized, hlen]

/-- Whatever the kernel reports, the size is that of the address passed in. -/
theorem BoundExact.length_eq (hnull : a.notNull = true) (h : BoundExact type a name) :
    name.length = a.size := by
  have hok : SizeOk a.size := a.size_ok
  have hfresh : Kernel.Fresh ⟨∅, ∅⟩ 3 := fresh_of_not_mem (by decide) (Set.notMem_empty 3)
  obtain ⟨t, hrun, hqueries⟩ := ListenSocket.construct_run type hnull hok name hfresh
  obtain ⟨t', b, hcopy⟩ := Address.exists_run_copy
    ((Address.init.resized a.size (fun _ => 0) hok).taken name).1 ⟨∅, ∅⟩
  have hname : ∀ q ∈ queries t, q.2.name = name := by
    rw [hqueries]
    intro q hq
    cases List.mem_singleton.mp hq
    rfl
  obtain ⟨hsize, _⟩ := h _ _ _ hrun rfl hname ⟨∅, ∅⟩ t' b hcopy
  rw [(Address.run_copy hcopy).1, Address.size_taken, Address.size_resized] at hsize
  exact hsize.symm

/-- **The bound address.** For every address that is not null and every name that the
kernel reports, whatever new memory holds, a socket that ends okay says exactly that
name if and only if it is as long as the address passed in. -/
theorem bound_exact_iff (hnull : a.notNull = true) :
    BoundExact type a name ↔ name.length = a.size := by
  refine ⟨BoundExact.length_eq hnull, ?_⟩
  intro hlen w t this hrun hokay hname w' t' b hcopy
  obtain ⟨hsize, hbytes⟩ := Address.run_copy hcopy
  rcases ListenSocket.run_construct hrun with ⟨hfail, _⟩ | hlistens
  · rw [hokay] at hfail
    cases hfail
  · obtain ⟨h, content, r, _, hmin, hqueries, haddress, hres⟩ := hlistens
    have hr : r.name = name := by
      apply hname ((Address.init.resized a.size content h).offer, r)
      rw [hqueries]
      exact List.mem_singleton_self _
    rw [Address.answered_taken (hres.mp hokay), hr] at haddress
    rw [hsize, hbytes, haddress, Address.size_taken, Address.size_resized, hlen]
    exact ⟨rfl, Address.bytes_bound h content hmin hlen⟩

end Bound

section Unix

/-- An IPv4 address is as long as its object. -/
theorem bound_exact_ipv4 : BoundExact .Stream ipv4Address ⟨ipv4Address.bytes, by decide⟩ :=
  (bound_exact_iff (by decide)).mpr (by decide)

/-- A Unix address of 110 bytes, with a path of fifteen. -/
def unixAddress : Address where
  d_data :=
    { d_size := 110
      d_data := List.replicate 32 0
      block := some (1 :: 0 :: (List.replicate 15 97 ++ List.replicate 93 0))
      length_data := by decide
      lt_block := by
        intro b hb
        obtain rfl := Option.some.inj hb
        decide
      size_le := by decide }
  size_ok := Or.inr (by decide)

/-- The kernel reports it without the bytes after the terminator: 18 of them. -/
theorem not_bound_exact : ¬ ∀ (type : SocketType) (a : Address) (name : SockName),
    a.notNull = true → sizeofSockaddr ≤ a.size → sizeofSockaddr ≤ name.length →
    BoundExact type a name := by
  intro hclaim
  have hexact := hclaim .Stream unixAddress
    ⟨1 :: 0 :: (List.replicate 15 97 ++ [0]), by decide⟩ (by decide) (by decide) (by decide)
  have hlen := hexact.length_eq (by decide)
  exact absurd hlen (by decide)

end Unix

end Sydn.Net
