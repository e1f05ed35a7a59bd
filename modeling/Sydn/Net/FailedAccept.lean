import Sydn.Net.PeerAddress

/-!
# An `accept` that fails

The kernel takes no connection and the target keeps its descriptor. The address is
given its provisional size before the call and keeps that: it ends as that `resize`
leaves it, which is as it was only where it had that size.
-/

namespace Sydn.Net

open Sydn.Found.Interaction
open Sydn.Mem (Byte Owned)
open ErrorCondition (default_error_condition)

/-- The same size, family and bytes. -/
structure Unchanged (old new : Address) : Prop where
  size : new.size = old.size
  family : new.family = old.family
  bytes : new.bytes = old.bytes

/-- What `resize(n)` leaves of an address: `n` bytes of its storage, or of new memory
where that is too small. -/
structure LeftResized (n : Nat) (old new : Address) : Prop where
  size : new.size = n
  bytes : n ≤ old.capacity → new.bytes = old.d_data.storage.take n
  unchanged_iff : Unchanged old new ↔ old.size = n

theorem leftResized {n : Nat} (h : SizeOk n) (a : Address) (content : Nat → Byte) :
    LeftResized n a (a.resized n content h) := by
  refine ⟨Address.size_resized h, Address.bytes_resized_of_le h, ?_⟩
  constructor
  · intro hsame
    rw [← hsame.size, Address.size_resized]
  · intro hn
    have hcap : n ≤ a.capacity := by
      rw [← hn]
      exact a.d_data.size_le_capacity
    have hsize : (a.resized n content h).size = a.size := (Address.size_resized h).trans hn.symm
    have hbytes : (a.resized n content h).bytes = a.bytes := by
      rw [Address.bytes_resized_of_le h hcap, ← hn]
      rfl
    exact ⟨hsize, Address.family_congr hsize hbytes, hbytes⟩

/-- The kernel's `accept` failed in every call of the run. -/
def AcceptFails (t : Trace) : Prop := ∀ r ∈ accepts t, r.res = -1

section Runs
variable {w : Kernel} {t : Trace} {address : Address}

/-- Asking for memory and a call that fails open and close nothing. -/
theorem later_failed {n : Nat} {content : Nat → Byte} {fd : Int} {b : Option Buffer} {r : Named}
    (hres : r.res = -1) :
    Kernel.env.later w (address.growth n content ++ [⟨.accept fd b, r⟩]) = w := by
  have hgrowth : ∀ e ∈ address.growth n content, e.call.Neutral := by
    unfold Address.growth
    split
    · exact List.forall_mem_singleton.mpr trivial
    · exact List.forall_mem_nil _
  rw [Env.later_append, Kernel.later_neutral w hgrowth]
  exact if_pos hres

/-- What the shared body does where the call fails. -/
theorem run_acceptAddressFd_failed {fd target : Int} {provisional : Nat} {again : Int → Int}
    (h : SizeOk provisional) {o : Except Stop (Option ErrorCondition × Int × Address)}
    (hrun : (acceptAddressFd fd target provisional again address).Run Kernel.env w t o)
    (hfail : AcceptFails t) :
    ∃ e new, o = .ok (some e, target, new) ∧ e.okay = false ∧ Kernel.env.later w t = w ∧
      LeftResized provisional address new := by
  obtain ⟨content, r, a, rfl, hmay, hcases⟩ := (run_acceptAddressFd h).mp hrun
  rcases hcases with ⟨hres, rfl, rfl⟩ | ⟨hres, u, rfl, _⟩
  · have hnokay : (default_error_condition r.errno).okay = false := by
      rcases hmay with hfailed | ⟨hfresh, _⟩
      · exact hfailed.not_okay
      · have hpos := hfresh.1
        omega
    refine ⟨_, _, rfl, hnokay, ?_, leftResized h address content⟩
    exact later_failed hres
  · refine absurd (hfail r ?_) hres
    simp

end Runs

/-- **An `accept` that fails.** In every run of either class in which the kernel's `accept`
fails, nothing is opened or closed, the target keeps its descriptor and an error is
reported. The address is left resized: to the size of the listening address, or to that
of a `sockaddr`. It is unchanged if and only if it had that size. -/
theorem failed_accept :
    (∀ (this : ListenSocket) (socket : ConnectedSocket) (address : Address) w t o,
      (this.acceptWithAddress socket address).Run Kernel.env w t o → AcceptFails t →
      ∃ this' new, o = .ok (this', socket, new) ∧ this'.okay = false ∧
        Kernel.env.later w t = w ∧ LeftResized this.d_local_address.size address new) ∧
    ∀ (same : Bool) (this socket : PosixSocketBuffer) (address : Address) w t o,
      (this.acceptWithAddress same socket address).Run Kernel.env w t o → AcceptFails t →
      ∃ new e, o = .ok (socket, new, e) ∧ e.okay = false ∧
        Kernel.env.later w t = w ∧ LeftResized sizeofSockaddr address new := by
  constructor
  · intro this socket address w t o hrun hfail
    obtain ⟨o', hbody, rfl⟩ := Prog.run_mapped.mp hrun
    obtain ⟨e, new, rfl, hokay, hlater, hleft⟩ :=
      run_acceptAddressFd_failed this.d_local_address.size_ok hbody hfail
    exact ⟨_, new, rfl, hokay, hlater, hleft⟩
  · intro same this socket address w t o hrun hfail
    obtain ⟨o', hbody, rfl⟩ := Prog.run_mapped.mp hrun
    obtain ⟨e, new, rfl, hokay, hlater, hleft⟩ :=
      run_acceptAddressFd_failed sizeOk_sockaddr hbody hfail
    exact ⟨new, e, rfl, hokay, hlater, hleft⟩

/-- A call that would have blocked, on a descriptor that listens. -/
def blockedTrace : Trace := [⟨.accept 3 (some ⟨some 32, 32⟩), ⟨⟨-1, 11⟩, longPeer⟩⟩]

/-- The run of such a call that is given a new address. -/
theorem accept_blocks (socket : PosixSocketBuffer) :
    (PosixSocketBuffer.acceptWithAddress false ⟨3⟩ socket Address.init).Run Kernel.env ⟨{3}, ∅⟩
      blockedTrace (.ok (socket, Address.init.resized sizeofSockaddr (fun _ => 0) sizeOk_sockaddr,
        ⟨11⟩)) := by
  refine Prog.run_map.mpr ⟨(some ⟨11⟩, socket.d_fd, _), ?_, rfl⟩
  exact (run_acceptAddressFd sizeOk_sockaddr).mpr ⟨fun _ => 0, ⟨⟨-1, 11⟩, longPeer⟩, _, rfl,
    Or.inl ⟨rfl, by decide⟩, Or.inl ⟨rfl, rfl, rfl⟩⟩

theorem acceptFails_blocked : AcceptFails blockedTrace := by
  intro r hr
  obtain rfl := List.mem_singleton.mp hr
  rfl

theorem failed_accept_blocked : ∃ new e,
    (PosixSocketBuffer.acceptWithAddress false ⟨3⟩ {} Address.init).Run Kernel.env ⟨{3}, ∅⟩
      blockedTrace (.ok ({}, new, e)) ∧ LeftResized sizeofSockaddr Address.init new := by
  obtain ⟨new, e, heq, _, _, hleft⟩ :=
    failed_accept.2 _ _ _ _ _ _ _ (accept_blocks {}) acceptFails_blocked
  refine ⟨new, e, ?_, hleft⟩
  rw [← heq]
  exact accept_blocks {}

/-- A new address, which has no bytes before the call and 16 after it. -/
theorem not_failed_accept : ¬ ∀ (same : Bool) (this socket : PosixSocketBuffer)
    (address : Address) w t socket' new e,
    (this.acceptWithAddress same socket address).Run Kernel.env w t (.ok (socket', new, e)) →
    AcceptFails t → socket' = socket ∧ Unchanged address new := by
  intro hclaim
  have hsame := (hclaim _ _ _ _ _ _ _ _ _ (accept_blocks {}) acceptFails_blocked).2.size
  exact absurd hsame (by decide)

end Sydn.Net
