import Sydn.Net.Effects

/-!
# The runs of `accept`, call by call

Which calls an `accept` makes, in which order and with which result, for every
answer of the kernel. The branch that asks again for an address that did not fit
is never reached: `resize` has just made the capacity at least the length.
-/

namespace Sydn.Net

open Sydn.Found.Interaction
open Sydn.Mem (Byte Owned)
open ErrorCondition (default_error_condition)

namespace Address
variable {a : Address} {n : Nat} {content : Nat → Byte}

/-- The memory that is asked for to hold `n` bytes. -/
def growth (a : Address) (n : Nat) (content : Nat → Byte) : Trace :=
  if a.capacity < n then [⟨.new n, content⟩] else []

/-- The buffer an address is filled in through: all of its capacity. -/
def offer (a : Address) : Buffer := a.buffer (socklen a.capacity)

/-- What a successful call leaves in that buffer. -/
def taken (a : Address) (name : SockName) : Address × Nat :=
  a.received (socklen a.capacity) name

@[simp] theorem size_resized (h : SizeOk n) : (a.resized n content h).size = n :=
  Owned.size_resize

@[simp] theorem capacity_resized (h : SizeOk n) :
    (a.resized n content h).capacity = max a.capacity n :=
  Owned.capacity_resize

theorem socklen_le (n : Nat) : socklen n ≤ n := Nat.mod_le _ _

/-- The buffer offered is never longer than the storage, so nothing is overrun. -/
theorem deliver_offer (r : Named) : a.deliver (socklen a.capacity) r =
    .ret (if r.res = -1 then (a, socklen a.capacity) else a.taken r.name) := by
  have hlen := socklen_le a.capacity
  have htake := List.length_take_le (socklen a.capacity) r.name.bytes
  unfold deliver receive
  split
  · rfl
  · rw [if_neg]
    · rfl
    · omega

/-- What a call that is offered the storage makes of the address and the length. -/
def answered (a : Address) (r : Named) : Address × Nat :=
  if r.res = -1 then (a, socklen a.capacity) else a.taken r.name

theorem getsockname_offer_bind {α : Type} {fd : Int} {f : Named × Address × Nat → Syscall α} :
    (Posix.getsockname fd a (socklen a.capacity)).bind f =
      .call (S := Posix) (.getsockname fd a.offer) fun r => f (r, a.answered r) := by
  rw [Posix.getsockname_bind]
  refine congrArg (Prog.call (S := Posix) _) (funext fun r => ?_)
  rw [deliver_offer]
  rfl

theorem acceptFrom_offer_bind {α : Type} {fd : Int} {f : Named × Address × Nat → Syscall α} :
    (Posix.acceptFrom fd a (socklen a.capacity)).bind f =
      .call (S := Posix) (.accept fd (some a.offer)) fun r => f (r, a.answered r) := by
  rw [Posix.acceptFrom_bind]
  refine congrArg (Prog.call (S := Posix) _) (funext fun r => ?_)
  rw [deliver_offer]
  rfl

theorem answered_failed {r : Named} (h : r.res = -1) : a.answered r = (a, socklen a.capacity) :=
  if_pos h

theorem answered_taken {r : Named} (h : r.res ≠ -1) : a.answered r = a.taken r.name := if_neg h

theorem resize_of_not_ok (h : ¬ SizeOk n) : a.resize n = .stop .assertion := dif_neg h

theorem resize_bind {α : Type} {f : Address → Syscall α} (h : SizeOk n) :
    (a.resize n).bind f = (a.allocate n).bind fun content => f (a.resized n content h) := by
  rw [resize, dif_pos h]
  exact Prog.bind_assoc _ _ _

end Address

section Runs
variable {α : Type} {w : Kernel} {t : Trace} {o : Except Stop α} {a : Address} {n : Nat}

/-- A `resize` that does not fail asks at most for the new memory. -/
theorem run_resize_bind (h : SizeOk n) {f : Address → Syscall α} :
    ((a.resize n).bind f).Run Kernel.env w t o ↔ ∃ content u,
      t = a.growth n content ++ u ∧ (f (a.resized n content h)).Run Kernel.env w u o := by
  rw [Address.resize_bind h]
  unfold Address.allocate Address.growth
  by_cases hcap : a.capacity < n
  · simp only [if_pos hcap]
    constructor
    · intro h
      obtain ⟨content, u, rfl, _, hrun⟩ := h
      exact ⟨content, u, rfl, hrun⟩
    · intro h
      obtain ⟨content, u, rfl, hrun⟩ := h
      exact ⟨content, u, rfl, trivial, hrun⟩
  · simp only [if_neg hcap, Prog.ret_bind, List.nil_append]
    constructor
    · intro hrun
      exact ⟨_, t, rfl, hrun⟩
    · intro h
      obtain ⟨content, u, rfl, hrun⟩ := h
      -- no memory is asked for, so its content does not matter
      have hsame : a.resized n content h = a.resized n (fun _ => 0) h := by
        unfold Address.resized Owned.resize
        simp only [dif_neg (show ¬ a.d_data.capacity < n from hcap)]
      rw [← hsame]
      exact hrun

/-- The rule for `resize`, in any environment that the new memory is asked of. -/
theorem checked_resize_bind {W : Type} {E : Env Posix W} {P : W → Event Posix → Prop} {w : W}
    {Q : W → Except Stop α → Prop} {f : Address → Syscall α}
    (hP : ∀ content, P w ⟨.new n, content⟩) (hstop : ¬ SizeOk n → Q w (.error .assertion))
    (h : ∀ hn content,
      Checked E P (E.later w (a.growth n content)) (f (a.resized n content hn)) Q) :
    Checked E P w ((a.resize n).bind f) Q := by
  by_cases hn : SizeOk n
  · rw [Address.resize_bind hn]
    unfold Address.allocate
    unfold Address.growth at h
    by_cases hcap : a.capacity < n
    · simp only [if_pos hcap] at h ⊢
      exact Checked.call fun content _ => ⟨hP content, h hn content⟩
    · simp only [if_neg hcap] at h ⊢
      exact h hn fun _ => 0
  · rw [Address.resize_of_not_ok hn]
    exact Checked.stop.mpr (hstop hn)

/-- The calls by which the holder of `d_fd` gives it up. -/
def closing (d_fd : Int) : Trace := if d_fd = -1 then [] else [⟨.close d_fd, ()⟩]

theorem run_closeHeld_bind {d_fd : Int} {f : Unit → Syscall α} :
    ((closeHeld d_fd).bind f).Run Kernel.env w t o ↔ ∃ u,
      t = closing d_fd ++ u ∧ (f ()).Run Kernel.env (Kernel.env.later w (closing d_fd)) u o := by
  unfold closeHeld closing
  by_cases hfd : d_fd = -1
  · simp only [if_pos hfd, Prog.ret_bind, List.nil_append, exists_eq_left', Env.later_nil]
  · simp only [if_neg hfd]
    constructor
    · intro h
      obtain ⟨⟨⟩, u, rfl, _, hrun⟩ := h
      exact ⟨u, rfl, hrun⟩
    · intro h
      obtain ⟨u, rfl, hrun⟩ := h
      exact ⟨(), u, rfl, trivial, hrun⟩

theorem run_importFd_bind {d_fd fd : Int} {f : Int → Syscall α} :
    ((importFd d_fd fd).bind f).Run Kernel.env w t o ↔ ∃ u,
      t = closing d_fd ++ u ∧ (f fd).Run Kernel.env (Kernel.env.later w (closing d_fd)) u o := by
  unfold importFd
  rw [Prog.bind_eq, Prog.bind_assoc]
  exact run_closeHeld_bind

end Runs

/-- The answers of the `accept` calls of a trace. -/
def accepts (t : Trace) : List Named :=
  t.filterMap fun e =>
    match e with
    | ⟨.accept .., r⟩ => some r
    | _ => none

section Accepts
variable {t u : Trace}

@[simp] theorem accepts_nil : accepts [] = [] := rfl

@[simp] theorem accepts_append : accepts (t ++ u) = accepts t ++ accepts u :=
  List.filterMap_append

@[simp] theorem accepts_accept {fd : Int} {address : Option Buffer} {r : Named} :
    accepts (⟨.accept fd address, r⟩ :: t) = r :: accepts t := rfl

@[simp] theorem accepts_growth (a : Address) (n : Nat) (content : Nat → Byte) :
    accepts (a.growth n content) = [] := by
  unfold Address.growth
  split <;> rfl

@[simp] theorem accepts_closing (d_fd : Int) : accepts (closing d_fd) = [] := by
  unfold closing
  split <;> rfl

end Accepts

/-- The calls of `getsockname` of a trace: what was offered and what was answered. -/
def queries (t : Trace) : List (Buffer × Named) :=
  t.filterMap fun e =>
    match e with
    | ⟨.getsockname _ b, r⟩ => some (b, r)
    | _ => none

section Queries
variable {t u : Trace}

@[simp] theorem queries_nil : queries [] = [] := rfl

@[simp] theorem queries_append : queries (t ++ u) = queries t ++ queries u :=
  List.filterMap_append

@[simp] theorem queries_getsockname {fd : Int} {b : Buffer} {r : Named} :
    queries [⟨.getsockname fd b, r⟩] = [(b, r)] := rfl

@[simp] theorem queries_growth (a : Address) (n : Nat) (content : Nat → Byte) :
    queries (a.growth n content) = [] := by
  unfold Address.growth
  split <;> rfl

end Queries

section Accept
variable {w : Kernel} {t : Trace} {fd target : Int} {provisional : Nat} {again : Int → Int}
  {address : Address}

theorem run_acceptFd {o : Except Stop (Option ErrorCondition × Int)} :
    (acceptFd fd target).Run Kernel.env w t o ↔ ∃ r, w.may (.accept fd none) r ∧
      ((r.res = -1 ∧ t = [⟨.accept fd none, r⟩] ∧
          o = .ok (some (default_error_condition r.errno), target)) ∨
        (r.res ≠ -1 ∧ t = ⟨.accept fd none, r⟩ :: closing target ∧ o = .ok (none, r.res))) := by
  constructor
  · intro h
    obtain ⟨r, u, rfl, hr, hrun⟩ := h
    refine ⟨r, hr, ?_⟩
    dsimp only [Prog.ret_bind] at hrun
    by_cases hres : r.res = -1
    · rw [if_pos hres] at hrun
      obtain ⟨rfl, rfl⟩ := hrun
      exact Or.inl ⟨hres, rfl, rfl⟩
    · rw [if_neg hres] at hrun
      obtain ⟨v, rfl, rfl, rfl⟩ := run_importFd_bind.mp hrun
      exact Or.inr ⟨hres, by rw [List.append_nil], rfl⟩
  · intro h
    obtain ⟨r, hr, ⟨hres, rfl, rfl⟩ | ⟨hres, rfl, rfl⟩⟩ := h
    · refine ⟨r, [], rfl, hr, ?_⟩
      dsimp only [Prog.ret_bind]
      rw [if_pos hres]
      exact ⟨rfl, rfl⟩
    · refine ⟨r, closing target, rfl, hr, ?_⟩
      dsimp only [Prog.ret_bind]
      rw [if_neg hres]
      exact run_importFd_bind.mpr ⟨[], (List.append_nil _).symm, rfl, rfl⟩

/-- The final size of an address. The retry is never made: `resize` has just made room. -/
theorem run_settle {β : Type} {len : Nat} {a : Address} {retry : Address → Syscall β}
    {done : Address → β} {o : Except Stop β} :
    ((a.resize len).bind fun b => if len > b.capacity then retry b else .ret (done b)).Run
        Kernel.env w t o ↔
      (¬ SizeOk len ∧ t = [] ∧ o = .error .assertion) ∨
        ∃ hsize content, t = a.growth len content ∧
          o = .ok (done (a.resized len content hsize)) := by
  by_cases hsize : SizeOk len
  · have hroom : ∀ content, ¬ len > (a.resized len content hsize).capacity := by
      intro content
      rw [Address.capacity_resized]
      omega
    rw [run_resize_bind hsize]
    constructor
    · intro h
      obtain ⟨content, u, rfl, hlast⟩ := h
      rw [if_neg (hroom content)] at hlast
      obtain ⟨rfl, rfl⟩ := hlast
      exact Or.inr ⟨hsize, content, List.append_nil _, rfl⟩
    · intro h
      obtain ⟨hnot, _⟩ | ⟨_, content, rfl, rfl⟩ := h
      · exact absurd hsize hnot
      · refine ⟨content, [], (List.append_nil _).symm, ?_⟩
        rw [if_neg (hroom content)]
        exact ⟨rfl, rfl⟩
  · rw [Address.resize_of_not_ok hsize, Prog.stop_bind, Prog.run_stop]
    constructor
    · intro h
      exact Or.inl ⟨hsize, h⟩
    · intro h
      obtain ⟨_, h⟩ | ⟨hok, _⟩ := h
      · exact h
      · exact absurd hok hsize

/-- Every run of an `accept` with an address: the provisional size, the call, and
where it succeeded the exchange of descriptors and the final size. -/
theorem run_acceptAddressFd (h : SizeOk provisional)
    {o : Except Stop (Option ErrorCondition × Int × Address)} :
    (acceptAddressFd fd target provisional again address).Run Kernel.env w t o ↔
      ∃ content r a, a = address.resized provisional content h ∧
        w.may (.accept fd (some a.offer)) r ∧
        ((r.res = -1 ∧
            t = address.growth provisional content ++ [⟨.accept fd (some a.offer), r⟩] ∧
            o = .ok (some (default_error_condition r.errno), target, a)) ∨
          (r.res ≠ -1 ∧ ∃ u,
            t = address.growth provisional content ++
              ⟨.accept fd (some a.offer), r⟩ :: (closing target ++ u) ∧
            ((¬ SizeOk (a.taken r.name).2 ∧ u = [] ∧ o = .error .assertion) ∨
              ∃ hsize content', u = (a.taken r.name).1.growth (a.taken r.name).2 content' ∧
                o = .ok (none, r.res,
                  (a.taken r.name).1.resized (a.taken r.name).2 content' hsize)))) := by
  unfold acceptAddressFd
  rw [Prog.bind_eq, run_resize_bind h]
  constructor
  · intro h
    obtain ⟨content, u, rfl, hrun⟩ := h
    rw [Prog.bind_eq, Address.acceptFrom_offer_bind] at hrun
    obtain ⟨r, v, rfl, hr, hrun⟩ := hrun
    refine ⟨content, r, _, rfl, hr, ?_⟩
    generalize address.resized provisional content h = a at *
    dsimp only at hrun
    by_cases hres : r.res = -1
    · rw [if_pos hres, Address.answered_failed hres] at hrun
      obtain ⟨rfl, rfl⟩ := hrun
      exact Or.inl ⟨hres, rfl, rfl⟩
    · rw [if_neg hres, Address.answered_taken hres] at hrun
      obtain ⟨u, rfl, hrest⟩ := run_importFd_bind.mp hrun
      exact Or.inr ⟨hres, u, rfl, run_settle.mp hrest⟩
  · intro h
    obtain ⟨content, r, a, ha, hr, hcases⟩ := h
    have hprefix : ∃ v, t = address.growth provisional content ++
        ⟨.accept fd (some a.offer), r⟩ :: v := by
      rcases hcases with ⟨_, rfl, _⟩ | ⟨_, u, rfl, _⟩
      · exact ⟨[], rfl⟩
      · exact ⟨_, rfl⟩
    obtain ⟨v, rfl⟩ := hprefix
    refine ⟨content, _, rfl, ?_⟩
    rw [← ha, Prog.bind_eq, Address.acceptFrom_offer_bind]
    refine ⟨r, v, rfl, hr, ?_⟩
    dsimp only
    rcases hcases with ⟨hres, htrace, rfl⟩ | ⟨hres, u, htrace, hend⟩
    · rw [if_pos hres, Address.answered_failed hres]
      have hv := (List.append_cancel_left htrace)
      cases hv
      exact ⟨rfl, rfl⟩
    · rw [if_neg hres, Address.answered_taken hres]
      have hv := (List.append_cancel_left htrace)
      cases hv
      exact run_importFd_bind.mpr ⟨u, rfl, run_settle.mpr hend⟩

end Accept

/-! ## Runs that succeed -/

/-- An IPv4 address in the inline bytes. -/
def ipv4Address : Address where
  d_data :=
    { d_size := 16
      d_data := 2 :: List.replicate 31 0
      block := none
      length_data := by decide
      lt_block := nofun
      size_le := by decide }
  size_ok := Or.inr le_rfl

theorem fresh_of_not_mem {opened : Set Int} {fd : Int} (hpos : 0 ≤ fd) (h : fd ∉ opened) :
    Kernel.Fresh ⟨opened, ∅⟩ fd := by
  refine ⟨hpos, ?_⟩
  intro h
  obtain ⟨_, hmem | hmem⟩ := h
  · exact h hmem
  · cases hmem

theorem open_opening {w : Kernel} {fd : Int} (h : w.Fresh fd) : (w.opening fd).Open fd := by
  have hfd : fd ≠ -1 := by
    have hpos := h.1
    omega
  refine ⟨h.1, Or.inl ?_⟩
  rw [Kernel.opening, if_neg hfd]
  exact Or.inl rfl

/-- The calls of a `listen` that succeeds with a fresh descriptor. -/
def listenTrace (fd : Int) : Trace :=
  [⟨.socket 2 1 0, ⟨fd, 0⟩⟩, ⟨.bind fd ipv4Address.native 16, ⟨0, 0⟩⟩, ⟨.listen fd 128, ⟨0, 0⟩⟩]

theorem PosixSocketBuffer.listen_run (this : PosixSocketBuffer) {w : Kernel} {fd : Int}
    (h : w.Fresh fd) : (this.listen .Stream ipv4Address).Run Kernel.env w (listenTrace fd)
      (.ok (⟨fd⟩, {})) := by
  have hfd : fd ≠ -1 := by
    have hpos := h.1
    omega
  refine ⟨⟨fd, 0⟩, _, rfl, Or.inr h, ?_⟩
  dsimp only [Prog.ret_bind]
  rw [if_neg hfd]
  exact ⟨⟨0, 0⟩, _, rfl, Or.inr ⟨rfl, open_opening h⟩,
    ⟨0, 0⟩, _, rfl, Or.inr ⟨rfl, open_opening h⟩, rfl, rfl⟩

/-- The calls of a `connect` that succeeds with a fresh descriptor. -/
def connectTrace (fd : Int) : Trace :=
  [⟨.socket 2 1 0, ⟨fd, 0⟩⟩, ⟨.connect fd ipv4Address.native 16, ⟨0, 0⟩⟩]

theorem ConnectedSocket.connect_run {w : Kernel} {fd : Int} (h : w.Fresh fd) :
    (connect {} .Stream ipv4Address Address.init).Run Kernel.env w (connectTrace fd)
      (.ok (⟨fd⟩, {})) := by
  have hfd : fd ≠ -1 := by
    have hpos := h.1
    omega
  refine Prog.run_map.mpr ⟨(fd, {}), ?_, rfl⟩
  refine ⟨⟨fd, 0⟩, _, rfl, Or.inr h, ?_⟩
  dsimp only [Prog.ret_bind]
  rw [if_neg hfd]
  exact ⟨⟨0, 0⟩, _, rfl, Or.inr ⟨rfl, open_opening h⟩, rfl, rfl⟩

/-- A `listen_socket` is constructed on a fresh descriptor, to be told that it is bound
to `name`. -/
theorem ListenSocket.construct_run (type : SocketType) {a : Address} (hnull : a.notNull = true)
    (hsize : SizeOk a.size) (name : SockName) {w : Kernel} {fd : Int} (h : w.Fresh fd) :
    ∃ t, (construct type a).Run Kernel.env w t (.ok { d_fd := fd, d_local_address :=
        ((Address.init.resized a.size (fun _ => 0) hsize).taken name).1 }) ∧
      queries t = [((Address.init.resized a.size (fun _ => 0) hsize).offer, ⟨⟨0, 0⟩, name⟩)] := by
  have hfd : fd ≠ -1 := by
    have hpos := h.1
    omega
  have hopen : (w.opening fd).Open fd := open_opening h
  refine ⟨⟨.socket a.family type.toInt 0, ⟨fd, 0⟩⟩ ::
    ⟨.bind fd a.native (socklen a.size), ⟨0, 0⟩⟩ :: ⟨.listen fd c_listen_backlog, ⟨0, 0⟩⟩ ::
    (Address.init.growth a.size (fun _ => 0) ++ [⟨.getsockname fd
      (Address.init.resized a.size (fun _ => 0) hsize).offer, ⟨⟨0, 0⟩, name⟩⟩]), ?_, ?_⟩
  · unfold construct
    rw [if_pos hnull]
    refine ⟨⟨fd, 0⟩, _, rfl, Or.inr h, ?_⟩
    dsimp only [Prog.ret_bind, check_result]
    rw [if_neg hfd]
    refine ⟨⟨0, 0⟩, _, rfl, Or.inr ⟨rfl, hopen⟩, ⟨0, 0⟩, _, rfl, Or.inr ⟨rfl, hopen⟩, ?_⟩
    refine (run_resize_bind hsize).mpr ⟨fun _ => 0, _, rfl, ?_⟩
    rw [Prog.bind_eq, Address.getsockname_offer_bind]
    exact ⟨⟨⟨0, 0⟩, name⟩, [], rfl, Or.inr ⟨rfl, hopen⟩, rfl, rfl⟩
  · show queries (Address.init.growth a.size (fun _ => 0) ++ _) = _
    rw [queries_append, queries_growth]
    rfl

end Sydn.Net
