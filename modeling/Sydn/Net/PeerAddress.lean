import Sydn.Net.Accepting

/-!
# The peer address that `accept` reports

The kernel writes as much of the peer's address as the buffer holds and reports
its full length. The address ends with the reported size; it ends with the peer's
bytes exactly when they fitted into the buffer of the first call. Otherwise the
second `resize` drops what was written, or leaves bytes the kernel never wrote.
-/

namespace Sydn.Net

open Sydn.Found.Interaction
open Sydn.Mem (Byte Owned fill patch)
open ErrorCondition (default_error_condition)

namespace Address
variable {a : Address} {n : Nat} {content : Nat → Byte} {name : SockName}

theorem taken_of_size_ne (h : a.size ≠ 0) :
    a.taken name = (a.written (name.bytes.take (socklen a.capacity)), name.length) := if_neg h

theorem size_taken : (a.taken name).1.size = a.size := by
  by_cases h : a.size = 0
  · rw [taken, received, if_pos h]
  · rw [taken_of_size_ne h]
    exact Owned.size_store

theorem size_answered {r : Named} : (a.answered r).1.size = a.size := by
  by_cases hres : r.res = -1
  · rw [answered_failed hres]
  · rw [answered_taken hres]
    exact size_taken

theorem capacity_answered {r : Named} : (a.answered r).1.capacity = a.capacity := by
  unfold answered taken received
  split
  · rfl
  · split
    · rfl
    · exact Owned.capacity_store

/-- What is written through the offered buffer stays inside the storage. -/
theorem storage_written (bs : List Byte) (h : bs.length ≤ a.capacity) :
    (a.written bs).d_data.storage = patch 0 bs a.d_data.storage :=
  Owned.storage_store (by rw [Nat.zero_add]; exact h)

theorem capacity_written (bs : List Byte) : (a.written bs).capacity = a.capacity :=
  Owned.capacity_store

theorem bytes_resized_of_le (h : SizeOk n) (hcap : n ≤ a.capacity) :
    (a.resized n content h).bytes = a.d_data.storage.take n := by
  unfold bytes resized Owned.bytes
  rw [Owned.size_resize, Owned.storage_resize_of_le hcap]

theorem bytes_resized_of_lt (h : SizeOk n) (hcap : a.capacity < n) :
    (a.resized n content h).bytes = (fill n content).take n := by
  unfold bytes resized Owned.bytes
  rw [Owned.size_resize, Owned.storage_resize_of_lt hcap]

/-- An address that fitted is read back as it is. -/
theorem bytes_of_fits (hsize : a.size ≠ 0) (hfits : name.length ≤ socklen a.capacity)
    (h : SizeOk (a.taken name).2) :
    ((a.taken name).1.resized (a.taken name).2 content h).bytes = name.bytes := by
  have hcap := socklen_le a.capacity
  have htake : name.bytes.take (socklen a.capacity) = name.bytes := List.take_of_length_le hfits
  simp only [taken_of_size_ne hsize, htake]
  rw [bytes_resized_of_le, storage_written]
  · exact Sydn.Mem.take_patch_zero
  · exact hfits.trans hcap
  · rw [capacity_written]
    exact hfits.trans hcap

/-- A `resize` that moves to new memory copies nothing. -/
theorem exists_resized_ne (a : Address) (name : SockName) (hcap : a.capacity < name.length) :
    ∃ content, ∀ h, (a.resized name.length content h).bytes ≠ name.bytes := by
  have hbytes : name.bytes ≠ [] := by
    intro hnil
    rw [SockName.length, hnil] at hcap
    exact absurd hcap (Nat.not_lt_zero _)
  obtain ⟨content, hdiff⟩ := Sydn.Mem.exists_fill_ne (Nat.zero_lt_of_lt hcap) hbytes
  refine ⟨content, fun h => ?_⟩
  rw [bytes_resized_of_lt h hcap]
  exact hdiff

/-- Beyond the length that was offered is what the memory of the first `resize` held. -/
theorem exists_unwritten_ne (hsize : SizeOk n) (hnew : a.capacity < n)
    (hlong : socklen n < name.length) (hfits : name.length ≤ n) :
    ∃ content, ∀ content' h, (((a.resized n content hsize).written
      (name.bytes.take (socklen n))).resized name.length content' h).bytes ≠ name.bytes := by
  have hmax : max a.capacity n = n := Nat.max_eq_right hnew.le
  have hgiven := socklen_le n
  have hdrop : name.bytes.drop (socklen n) ≠ [] := by
    rw [ne_eq, List.drop_eq_nil_iff, not_le]
    exact hlong
  have hroom : 0 < n - socklen n := by
    omega
  obtain ⟨content, hdiff⟩ := Sydn.Mem.exists_fill_ne hroom hdrop
  refine ⟨fun i => content (i - socklen n), fun content' h heq => hdiff ?_⟩
  have hlen : (name.bytes.take (socklen n)).length = socklen n :=
    List.length_take_of_le hlong.le
  have hstorage : (a.resized n (fun i => content (i - socklen n)) hsize).d_data.storage =
      fill n fun i => content (i - socklen n) := Owned.storage_resize_of_lt hnew
  rw [bytes_resized_of_le _ (by rw [capacity_written, capacity_resized]; omega),
    storage_written _ (by rw [capacity_resized, hlen, hmax]; exact hgiven), hstorage, patch,
    List.take_zero, List.nil_append, Nat.zero_add, hlen] at heq
  have hrest := congrArg (List.drop (socklen n)) heq
  rw [List.drop_take, List.drop_left' hlen, Sydn.Mem.drop_fill] at hrest
  simp only [Nat.add_sub_cancel] at hrest
  rw [List.length_drop]
  exact hrest

/-- The bytes of a longer one depend on what new memory holds. -/
theorem exists_bytes_ne (hsize : SizeOk n) (hne : n ≠ 0) (hcap : a.capacity < 2 ^ 32)
    (hlong : socklen (max a.capacity n) < name.length) :
    ∃ content content', ∀ h, (((a.resized n content hsize).taken name).1.resized
      ((a.resized n content hsize).taken name).2 content' h).bytes ≠ name.bytes := by
  have htaken : ∀ content, (a.resized n content hsize).taken name =
      ((a.resized n content hsize).written (name.bytes.take (socklen (max a.capacity n))),
        name.length) := by
    intro content
    rw [taken_of_size_ne (by rw [size_resized]; exact hne), capacity_resized]
  simp only [htaken]
  by_cases hgrow : max a.capacity n < name.length
  · obtain ⟨content', hdiff⟩ := exists_resized_ne ((a.resized n (fun _ => 0) hsize).written
        (name.bytes.take (socklen (max a.capacity n)))) name
      (by rw [capacity_written, capacity_resized]; exact hgrow)
    exact ⟨fun _ => 0, content', hdiff⟩
  · -- a capacity beyond `socklen_t` was passed reduced
    have hnew : a.capacity < n := by
      by_contra hle
      have hmax : max a.capacity n = a.capacity := Nat.max_eq_left (not_lt.mp hle)
      have hmod : socklen a.capacity = a.capacity := Nat.mod_eq_of_lt hcap
      rw [hmax] at hlong hgrow
      omega
    have hmax : max a.capacity n = n := Nat.max_eq_right hnew.le
    rw [hmax] at hlong hgrow
    simp only [hmax]
    obtain ⟨content, hdiff⟩ := exists_unwritten_ne hsize hnew hlong (not_lt.mp hgrow)
    exact ⟨content, fun _ => 0, hdiff _⟩

end Address

/-- An address `accept` reports for the peer `name` is exactly that. -/
def PeerExact (name : SockName) {α : Type} (address : α → Address) (p : Syscall α) : Prop :=
  ∀ w t a, p.Run Kernel.env w t (.ok a) → ∀ r ∈ accepts t, r.res ≠ -1 → r.name = name →
    (address a).size = name.length ∧ (address a).bytes = name.bytes

section Accept
variable {name : SockName} {address : Address} {fd target : Int} {provisional : Nat}
  {again : Int → Int}

theorem acceptAddressFd_exact (h : SizeOk provisional) (hne : provisional ≠ 0)
    (hfits : name.length ≤ socklen (max address.capacity provisional)) :
    PeerExact name (fun a => a.2.2)
      (acceptAddressFd fd target provisional again address) := by
  intro w t a hrun r hr hres hname
  obtain ⟨content, r', b, rfl, _, hcases⟩ := (run_acceptAddressFd h).mp hrun
  have hsize : (address.resized provisional content h).size ≠ 0 := by
    rw [Address.size_resized]
    exact hne
  rcases hcases with ⟨hres', rfl, _⟩ | ⟨_, u, rfl, hend⟩
  · simp at hr
    rw [hr] at hres
    exact absurd hres' hres
  · rcases hend with ⟨_, _, hstop⟩ | ⟨hok, content', rfl, hret⟩
    · cases hstop
    · cases hret
      simp at hr
      subst hr hname
      refine ⟨?_, Address.bytes_of_fits hsize ?_ hok⟩
      · rw [Address.size_resized, Address.taken_of_size_ne hsize]
      · rw [Address.capacity_resized]
        exact hfits

/-- Where the peer's address did not fit, some run reports other bytes. -/
theorem acceptAddressFd_exact_iff (h : SizeOk provisional) (hne : provisional ≠ 0)
    (hcap : address.capacity < 2 ^ 32) (hname : SizeOk name.length) (hfd : 0 ≤ fd) :
    PeerExact name (fun a => a.2.2) (acceptAddressFd fd target provisional again address) ↔
      name.length ≤ socklen (max address.capacity provisional) := by
  refine ⟨fun hexact => ?_, acceptAddressFd_exact h hne⟩
  by_contra hlong
  obtain ⟨content, content', hdiff⟩ :=
    Address.exists_bytes_ne h hne hcap (not_le.mp hlong)
  have hsize : SizeOk ((address.resized provisional content h).taken name).2 := by
    rw [Address.taken_of_size_ne (by rw [Address.size_resized]; exact hne)]
    exact hname
  have hpos : 0 ≤ fd + 1 := by omega
  have hres : fd + 1 ≠ -1 := by omega
  refine hdiff hsize (hexact ⟨{fd}, ∅⟩ _ _ ((run_acceptAddressFd h).mpr
    ⟨content, ⟨⟨fd + 1, 0⟩, name⟩, _, rfl, Or.inr ⟨⟨hpos, ?_⟩, hfd, Or.inl rfl⟩,
      Or.inr ⟨hres, _, rfl, Or.inr ⟨hsize, content', rfl, rfl⟩⟩⟩)
    ⟨⟨fd + 1, 0⟩, name⟩ ?_ hres rfl).2
  · intro h
    obtain ⟨_, hopen | hopen⟩ := h
    · have heq : fd + 1 = fd := hopen
      omega
    · cases hopen
  · simp

end Accept

theorem PeerExact.map {name : SockName} {α β : Type} {p : Syscall α} {g : α → β}
    {address : β → Address} :
    PeerExact name address (p.bind fun a => .ret (g a)) ↔ PeerExact name (address ∘ g) p := by
  constructor
  · intro h w t a hrun
    exact h w t (g a) (Prog.run_map.mpr ⟨a, hrun, rfl⟩)
  · intro h w t b hrun
    obtain ⟨a, hinner, rfl⟩ := Prog.run_map.mp hrun
    exact h w t a hinner

/-! ## Sockets that listen -/

/-- A call of `::listen` that succeeded. -/
def Listened (e : Event Posix) : Prop :=
  match e with
  | ⟨.listen .., r⟩ => r.res ≠ -1
  | _ => False

/-- The object is as a call of `listen` left it in which `::listen` succeeded. -/
def PosixSocketBuffer.Listens (this : PosixSocketBuffer) : Prop :=
  ∃ (before : PosixSocketBuffer) (type : SocketType) (local_address : Address) (w : Kernel)
    (t : Trace) (error : ErrorCondition),
    (before.listen type local_address).Run Kernel.env w t (.ok (this, error)) ∧ ∃ e ∈ t, Listened e

/-- The object is as its constructor left it, in which `::listen` succeeded. -/
def ListenSocket.Listens (this : ListenSocket) : Prop :=
  ∃ (type : SocketType) (local_address : Address) (w : Kernel) (t : Trace),
    (construct type local_address).Run Kernel.env w t (.ok this) ∧ ∃ e ∈ t, Listened e

theorem Address.size_of_notNull {a : Address} (h : a.notNull = true) : sizeofSockaddr ≤ a.size := by
  rcases a.size_ok with hzero | hsize
  · have hfamily : a.family = AF_UNSPEC := if_neg (not_not.mpr hzero)
    rw [notNull, hfamily] at h
    cases h
  · exact hsize

theorem fresh_nonneg {w : Kernel} {r : Status} (h : Kernel.Failed r ∨ w.Fresh r.res)
    (hres : r.res ≠ -1) : 0 ≤ r.res :=
  (h.resolve_left fun hfail => hres hfail.1).1

theorem PosixSocketBuffer.Listens.fd_nonneg {this : PosixSocketBuffer} (h : this.Listens) :
    0 ≤ this.d_fd := by
  obtain ⟨before, type, a, w, t, error, hrun, hlistened⟩ := h
  unfold listen at hrun
  split at hrun
  · obtain ⟨r, u, rfl, hr, hrun⟩ := hrun
    dsimp only [Prog.ret_bind] at hrun
    by_cases hres : r.res = -1
    · rw [if_pos hres] at hrun
      obtain ⟨rfl, _⟩ := hrun
      simp [Listened] at hlistened
    · rw [if_neg hres] at hrun
      obtain ⟨r₂, v, rfl, _, hrun⟩ := hrun
      dsimp only [Prog.ret_bind] at hrun
      by_cases hres₂ : r₂.res = -1
      · rw [if_pos hres₂] at hrun
        obtain ⟨rfl, _⟩ := hrun
        simp [Listened] at hlistened
      · rw [if_neg hres₂] at hrun
        obtain ⟨r₃, x, rfl, _, hrun⟩ := hrun
        dsimp only [Prog.ret_bind] at hrun
        have hthis : this = ⟨r.res⟩ := by
          split at hrun
          · cases hrun.2
            rfl
          · cases hrun.2
            rfl
        rw [hthis]
        exact fresh_nonneg hr hres
  · cases hrun.2

section Construct
variable {this : ListenSocket} {r : Status}

theorem ListenSocket.check_result_succeeded (h : r.res ≠ -1) :
    this.check_result r = (true, this) := if_neg h

theorem ListenSocket.check_result_failed (h : r.res = -1) : this.check_result r =
    (false, { this with d_last_error := default_error_condition r.errno }) := if_pos h

/-- A failed call leaves the socket not okay. -/
theorem ListenSocket.okay_failed (hfail : Kernel.Failed r) :
    okay { this with d_last_error := default_error_condition r.errno } = false :=
  hfail.not_okay

theorem failed_of_res {P : Prop} (h : Kernel.Failed r ∨ (r.res = 0 ∧ P)) (hres : r.res = -1) :
    Kernel.Failed r := by
  apply h.resolve_right
  intro hzero
  rw [hzero.1] at hres
  exact absurd hres (by decide)

end Construct

/-- The constructor fails before it listens, or it asks once for the address it is bound
to, into its own address of the size of the one passed in. -/
theorem ListenSocket.run_construct {type : SocketType} {a : Address} {w : Kernel} {t : Trace}
    {this : ListenSocket} (hrun : (construct type a).Run Kernel.env w t (.ok this)) :
    (this.okay = false ∧ ∀ e ∈ t, ¬ Listened e) ∨
      ∃ (h : SizeOk a.size) (content : Nat → Byte) (r : Named),
        0 ≤ this.d_fd ∧ sizeofSockaddr ≤ a.size ∧
        queries t = [((Address.init.resized a.size content h).offer, r)] ∧
        this.d_local_address = ((Address.init.resized a.size content h).answered r).1 ∧
        (this.okay = true ↔ r.res ≠ -1) := by
  unfold construct at hrun
  split at hrun
  · rename_i hnull
    obtain ⟨r, u, rfl, hr, hrun⟩ := hrun
    dsimp only [Prog.ret_bind] at hrun
    by_cases hres : r.res = -1
    · rw [check_result_failed hres] at hrun
      obtain ⟨rfl, hret⟩ := hrun
      cases hret
      refine Or.inl ⟨okay_failed (hr.resolve_right fun hfresh => ?_), by simp [Listened]⟩
      have hpos := hfresh.1
      omega
    rw [check_result_succeeded hres] at hrun
    obtain ⟨r₂, v, rfl, hr₂, hrun⟩ := hrun
    dsimp only [Prog.ret_bind] at hrun
    by_cases hres₂ : r₂.res = -1
    · rw [check_result_failed hres₂] at hrun
      obtain ⟨rfl, hret⟩ := hrun
      cases hret
      exact Or.inl ⟨okay_failed (failed_of_res hr₂ hres₂), by simp [Listened]⟩
    rw [check_result_succeeded hres₂] at hrun
    obtain ⟨r₃, x, rfl, hr₃, hrun⟩ := hrun
    dsimp only [Prog.ret_bind] at hrun
    by_cases hres₃ : r₃.res = -1
    · rw [check_result_failed hres₃] at hrun
      obtain ⟨rfl, hret⟩ := hrun
      cases hret
      exact Or.inl ⟨okay_failed (failed_of_res hr₃ hres₃), by simp [Listened, hres₃]⟩
    rw [check_result_succeeded hres₃] at hrun
    have hsize : SizeOk a.size := a.size_ok
    obtain ⟨content, y, rfl, hrest⟩ := (run_resize_bind hsize).mp hrun
    rw [Prog.bind_eq, Address.getsockname_offer_bind] at hrest
    obtain ⟨r₄, z, rfl, hr₄, rfl, hret⟩ := hrest
    have hqueries : queries ((Address.init.growth a.size content) ++
        [⟨.getsockname r.res (Address.init.resized a.size content hsize).offer, r₄⟩]) =
        [((Address.init.resized a.size content hsize).offer, r₄)] := by
      rw [queries_append, queries_growth]
      rfl
    have hpos : 0 ≤ r.res := fresh_nonneg hr hres
    by_cases hres₄ : r₄.res = -1
    · rw [check_result_failed hres₄] at hret
      cases hret
      refine Or.inr ⟨hsize, content, r₄, hpos, Address.size_of_notNull hnull, hqueries, rfl, ?_⟩
      have hfail : Kernel.Failed r₄.toStatus := failed_of_res hr₄ hres₄
      exact iff_of_false (Bool.eq_false_iff.mp (okay_failed hfail)) (not_not.mpr hres₄)
    · rw [check_result_succeeded hres₄] at hret
      cases hret
      exact Or.inr ⟨hsize, content, r₄, hpos, Address.size_of_notNull hnull, hqueries, rfl,
        iff_of_true rfl hres₄⟩
  · cases hrun.2

theorem ListenSocket.Listens.spec {this : ListenSocket} (h : this.Listens) :
    0 ≤ this.d_fd ∧ sizeofSockaddr ≤ this.d_local_address.size := by
  obtain ⟨type, a, w, t, hrun, e, he, hlistened⟩ := h
  rcases run_construct hrun with ⟨_, hnone⟩ | ⟨_, content, r, hfd, hsize, _, haddress, _⟩
  · exact absurd hlistened (hnone e he)
  · refine ⟨hfd, ?_⟩
    rw [haddress, Address.size_answered, Address.size_resized]
    exact hsize

section Classes
variable {name : SockName} {address : Address}

theorem PosixSocketBuffer.accept_exact_iff (hname : sizeofSockaddr ≤ name.length)
    (hcap : address.capacity < 2 ^ 32) {this : PosixSocketBuffer} (hfd : 0 ≤ this.d_fd)
    (same : Bool) (socket : PosixSocketBuffer) :
    PeerExact name (fun a => a.2.1) (this.acceptWithAddress same socket address) ↔
      name.length ≤ address.capacity := by
  have hmax : max address.capacity sizeofSockaddr = address.capacity := by
    have hinline : c_sdoSize ≤ address.capacity := address.d_data.le_capacity
    exact Nat.max_eq_left (le_trans (by decide) hinline)
  refine PeerExact.map.trans ((acceptAddressFd_exact_iff (Or.inr le_rfl) (by decide) hcap
    (Or.inr hname) hfd).trans ?_)
  rw [hmax, socklen, Nat.mod_eq_of_lt hcap]

theorem ListenSocket.accept_exact_iff (hname : sizeofSockaddr ≤ name.length)
    (hcap : address.capacity < 2 ^ 32) {this : ListenSocket} (hlistens : this.Listens)
    (socket : ConnectedSocket) :
    PeerExact name (fun a => a.2.2) (this.acceptWithAddress socket address) ↔
      name.length ≤ socklen (max address.capacity this.d_local_address.size) := by
  obtain ⟨hfd, hsize⟩ := hlistens.spec
  have hne : this.d_local_address.size ≠ 0 := by
    unfold sizeofSockaddr at hsize
    omega
  exact PeerExact.map.trans
    (acceptAddressFd_exact_iff (Or.inr hsize) hne hcap (Or.inr hname) hfd)

end Classes

/-- **The peer's address.** For a socket that listens and an address of any size,
content and capacity below `2 ^ 32`, what `accept` reports for a peer is exactly its
address, whatever the kernel and new memory hold, if and only if the peer's address
is no longer than the length passed to the kernel. -/
theorem peer_exact_iff (name : SockName) (address : Address)
    (hname : sizeofSockaddr ≤ name.length) (hcap : address.capacity < 2 ^ 32) :
    (∀ this : PosixSocketBuffer, this.Listens → ∀ same socket,
      (PeerExact name (fun a => a.2.1) (this.acceptWithAddress same socket address) ↔
        name.length ≤ address.capacity)) ∧
    ∀ this : ListenSocket, this.Listens → ∀ socket,
      (PeerExact name (fun a => a.2.2) (this.acceptWithAddress socket address) ↔
        name.length ≤ socklen (max address.capacity this.d_local_address.size)) := by
  constructor
  · intro this hlistens same socket
    exact PosixSocketBuffer.accept_exact_iff hname hcap hlistens.fd_nonneg same socket
  · intro this hlistens socket
    exact ListenSocket.accept_exact_iff hname hcap hlistens socket

section Peers

/-- A name of `n` bytes after its two of family. -/
def peerName (n : Nat) (h : n < 2 ^ 32 - 2) : SockName :=
  ⟨1 :: 0 :: List.replicate n 97, by simp; omega⟩

/-- A name one byte longer than the inline bytes of an address. -/
def longPeer : SockName := peerName 31 (by decide)

theorem listens_three : PosixSocketBuffer.Listens ⟨3⟩ := by
  have hfresh : Kernel.Fresh ⟨∅, ∅⟩ 3 := fresh_of_not_mem (by decide) (Set.notMem_empty 3)
  refine ⟨{}, .Stream, ipv4Address, ⟨∅, ∅⟩, _, {}, PosixSocketBuffer.listen_run {} hfresh, _,
    List.mem_cons_of_mem _ (List.mem_cons_of_mem _ List.mem_cons_self), ?_⟩
  show (0 : Int) ≠ -1
  decide

theorem peer_exact_iff_short : PeerExact (peerName 14 (by decide)) (fun a => a.2.1)
    (PosixSocketBuffer.acceptWithAddress false ⟨3⟩ {} Address.init) :=
  ((peer_exact_iff (peerName 14 (by decide)) Address.init (by decide) (by decide)).1
    ⟨3⟩ listens_three false {}).mpr (by decide)

/-- A peer whose address is one byte longer than the inline bytes. -/
theorem not_peer_exact : ¬ ∀ (name : SockName) (address : Address),
    sizeofSockaddr ≤ name.length → address.capacity < 2 ^ 32 →
    ∀ this : PosixSocketBuffer, this.Listens → ∀ same socket,
      PeerExact name (fun a => a.2.1) (this.acceptWithAddress same socket address) := by
  intro hclaim
  have hexact := hclaim (peerName 31 (by decide)) Address.init (by decide) (by decide)
    ⟨3⟩ listens_three false {}
  have hfits := (PosixSocketBuffer.accept_exact_iff (by decide) (by decide) (by decide) false
    {}).mp hexact
  exact absurd hfits (by decide)

end Peers

end Sydn.Net
