import Sydn.Net.Accepting

/-!
# The lengths the kernel reports and the assertion of `resize`

Every length a successful call reports is passed to `address::resize`, which
asserts that it is zero or at least that of a `sockaddr`. Reports between the two,
as of an unnamed socket, fail the assertion, and nothing else does.
-/

namespace Sydn.Net

open Sydn.Found.Interaction

/-- What a successful call leaves in its `socklen_t`. -/
def lengthLeft (b : Buffer) (r : Named) : Nat :=
  match b.room with
  | none => b.len
  | some _ => r.name.length

/-- A call that reports an address fails, or reports a length that `resize` admits. -/
def LengthOk (e : Event Posix) : Prop :=
  match e with
  | ⟨.accept _ (some b), r⟩ | ⟨.getsockname _ b, r⟩ => r.res ≠ -1 → SizeOk (lengthLeft b r)
  | _ => True

def LengthsOk (t : Trace) : Prop := ∀ e ∈ t, LengthOk e

/-- The runs of `p` fail the assertion exactly when a length is reported that is not admitted. -/
def Asserts {α : Type} (p : Syscall α) : Prop :=
  ∀ w, Ensures Kernel.env w p fun t o => o ≠ .error .assertion ↔ LengthsOk t

section Traces
variable {t u : Trace}

@[simp] theorem lengthsOk_nil : LengthsOk [] := List.forall_mem_nil _

@[simp] theorem lengthsOk_cons {e : Event Posix} :
    LengthsOk (e :: t) ↔ LengthOk e ∧ LengthsOk t := List.forall_mem_cons

@[simp] theorem lengthsOk_append : LengthsOk (t ++ u) ↔ LengthsOk t ∧ LengthsOk u :=
  List.forall_mem_append

@[simp] theorem lengthsOk_growth (a : Address) (n : Nat) (content : Nat → Sydn.Mem.Byte) :
    LengthsOk (a.growth n content) := by
  unfold Address.growth
  split
  · exact lengthsOk_cons.mpr ⟨trivial, lengthsOk_nil⟩
  · exact lengthsOk_nil

@[simp] theorem lengthsOk_closing (d_fd : Int) : LengthsOk (closing d_fd) := by
  unfold closing
  split
  · exact lengthsOk_nil
  · exact lengthsOk_cons.mpr ⟨trivial, lengthsOk_nil⟩

/-- The length an address is resized to after a call is the one the call left. -/
theorem Address.length_taken (a : Address) (r : Named) :
    (a.taken r.name).2 = lengthLeft a.offer r := by
  unfold taken received lengthLeft offer buffer
  by_cases h : a.size = 0
  · simp [h]
  · simp [h]

end Traces

namespace Asserts
variable {α β σ : Type}

theorem ret (a : α) : Asserts (.ret a) := by
  intro w
  simp

theorem bind {p : Syscall α} {f : α → Syscall β} (hp : Asserts p) (hf : ∀ a, Asserts (f a)) :
    Asserts (p.bind f) := by
  intro w
  refine Ensures.bind ((hp w).mono ?_)
  intro t o ht
  cases o with
  | error e => simpa using ht
  | ok a =>
    have htrace : LengthsOk t := ht.mp nofun
    refine (hf a _).mono fun u o' hu => ?_
    rw [lengthsOk_append, and_iff_right htrace]
    exact hu

theorem loop {body : σ → Syscall (σ ⊕ α)} (hbody : ∀ s, Asserts (body s)) (n : Nat) (s : σ) :
    Asserts (Prog.loop .fuel body n s) := by
  induction n generalizing s with
  | zero =>
    intro w
    simp [Prog.loop]
  | succ n ih =>
    apply bind (hbody s)
    intro x
    cases x with
    | inl s' => exact ih s'
    | inr a => exact ret a

/-- A `resize` whose argument is admitted does not fail. -/
theorem resize {n : Nat} (h : SizeOk n) (a : Address) : Asserts (a.resize n) := by
  intro w t o hrun
  have hbind : Prog.Run Kernel.env w ((a.resize n).bind .ret) t o := by
    rw [Prog.bind_ret]
    exact hrun
  obtain ⟨content, u, rfl, rfl, rfl⟩ := (run_resize_bind h).mp hbind
  simp

end Asserts

section Functions
variable {fd target : Int} {a : Address}

theorem acceptAddressFd_asserts {provisional : Nat} {again : Int → Int}
    (h : SizeOk provisional) :
    Asserts (acceptAddressFd fd target provisional again a) := by
  intro w t o hrun
  obtain ⟨content, r, b, rfl, _, hcases⟩ := (run_acceptAddressFd h).mp hrun
  rcases hcases with ⟨hres, rfl, rfl⟩ | ⟨hres, u, rfl, hend⟩
  · simp [LengthOk, hres]
  · have hevent : LengthOk ⟨.accept fd (some (a.resized provisional content h).offer), r⟩ ↔
        SizeOk ((a.resized provisional content h).taken r.name).2 := by
      rw [Address.length_taken]
      exact forall_prop_of_true hres
    rcases hend with ⟨hsize, rfl, rfl⟩ | ⟨hsize, content', rfl, rfl⟩
    · simp [hevent, hsize]
    · simp [hevent, hsize]

theorem localAddressTurn_asserts (fd : Int) (a : Address) : Asserts (localAddressTurn fd a) := by
  intro w
  unfold localAddressTurn
  rw [Prog.bind_eq, Address.getsockname_offer_bind]
  refine Ensures.call.mpr fun r _ => ?_
  by_cases hres : r.res = -1
  · simp [hres, LengthOk]
  · have hevent : LengthOk ⟨.getsockname fd a.offer, r⟩ ↔ SizeOk (a.taken r.name).2 := by
      rw [Address.length_taken]
      exact forall_prop_of_true hres
    rw [Address.answered_taken hres]
    dsimp only
    rw [if_neg hres]
    by_cases hsize : SizeOk (a.taken r.name).2
    · refine (Asserts.bind (Asserts.resize hsize _) (fun _ => Asserts.ret _) _).mono ?_
      intro t o ht
      show _ ↔ LengthsOk (⟨.getsockname fd a.offer, r⟩ :: t)
      rw [lengthsOk_cons, hevent, and_iff_right hsize]
      exact ht
    · rw [Address.resize_of_not_ok hsize]
      refine Ensures.stop.mpr ?_
      show _ ↔ LengthsOk [⟨.getsockname fd a.offer, r⟩]
      rw [lengthsOk_cons, hevent]
      simp [hsize]

theorem localAddressFd_asserts (fuel : Nat) : Asserts (localAddressFd fuel fd a) := by
  apply Asserts.bind (Asserts.resize (Or.inr le_rfl) a)
  intro b
  exact Asserts.loop (localAddressTurn_asserts fd) fuel b

end Functions

/-- **The assertion of `resize`.** Whatever the kernel answers and whatever the address
was, a run of one of the four functions fails the assertion exactly when the kernel
reports a length that is not zero and shorter than a `sockaddr`. -/
theorem assertion_iff {w : Kernel} {t : Trace} :
    (∀ (this : ListenSocket) socket address o,
      (this.acceptWithAddress socket address).Run Kernel.env w t o →
        (o ≠ .error .assertion ↔ LengthsOk t)) ∧
    (∀ (this : PosixSocketBuffer) same socket address o,
      (this.acceptWithAddress same socket address).Run Kernel.env w t o →
        (o ≠ .error .assertion ↔ LengthsOk t)) ∧
    (∀ (this : ConnectedSocket) fuel o, (this.local_address fuel).Run Kernel.env w t o →
        (o ≠ .error .assertion ↔ LengthsOk t)) ∧
    ∀ (this : PosixSocketBuffer) fuel address o,
      (this.local_address fuel address).Run Kernel.env w t o →
        (o ≠ .error .assertion ↔ LengthsOk t) := by
  refine ⟨?_, ?_, ?_, ?_⟩
  · intro this socket address o hrun
    refine Asserts.bind (acceptAddressFd_asserts ?_) (fun _ => Asserts.ret _) w t o hrun
    exact this.d_local_address.size_ok
  · intro this same socket address o hrun
    exact Asserts.bind (acceptAddressFd_asserts (Or.inr le_rfl)) (fun _ => Asserts.ret _) w t o hrun
  · intro this fuel o hrun
    exact Asserts.bind (localAddressFd_asserts fuel) (fun _ => Asserts.ret _) w t o hrun
  · intro this fuel address o hrun
    exact localAddressFd_asserts fuel w t o hrun

section Unnamed

/-- A peer on an unnamed Unix socket: the family alone, two bytes. -/
def unnamed : Named where
  res := 4
  errno := 0
  name := ⟨[1, 0], by decide⟩

/-- The calls of an `accept` of that peer by a socket that holds descriptor 3. -/
def unnamedTrace : Trace := [⟨.accept 3 (some ⟨some 32, 32⟩), unnamed⟩]

theorem unnamed_run : (PosixSocketBuffer.acceptWithAddress false ⟨3⟩ {} Address.init).Run
    Kernel.env ⟨{3}, ∅⟩ unnamedTrace (.error .assertion) := by
  refine Prog.run_bind.mpr (Or.inr ⟨_, rfl, ?_⟩)
  refine (run_acceptAddressFd (Or.inr le_rfl)).mpr ⟨fun _ => 0, unnamed, _, rfl, ?_, Or.inr ?_⟩
  · refine Or.inr ⟨⟨by decide, ?_⟩, by decide, Or.inl rfl⟩
    intro h
    obtain ⟨_, hopen | hopen⟩ := h
    · cases hopen
    · cases hopen
  · exact ⟨by decide, [], rfl, Or.inl ⟨by decide, rfl, rfl⟩⟩

theorem assertion_iff_unnamed : ¬ LengthsOk unnamedTrace := by
  intro hok
  obtain ⟨_, hposix, _, _⟩ := @assertion_iff ⟨{3}, ∅⟩ unnamedTrace
  exact (hposix _ _ _ _ _ unnamed_run).mpr hok rfl

/-- Two bytes are a length the kernel reports, and `resize` does not admit it. -/
theorem not_assertion_free :
    ¬ ∀ (this socket : PosixSocketBuffer) (same : Bool) (address : Address) (w : Kernel)
      (t : Trace) o, (this.acceptWithAddress same socket address).Run Kernel.env w t o →
      (∀ fd b r, ⟨.accept fd b, r⟩ ∈ t → r.res ≠ -1 → 2 ≤ r.name.length) →
      o ≠ .error .assertion := by
  intro hclaim
  refine hclaim _ _ _ _ _ _ _ unnamed_run ?_ rfl
  intro fd b r hmem _
  cases List.mem_singleton.mp hmem
  decide

end Unnamed

end Sydn.Net
