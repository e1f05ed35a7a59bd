import Sydn.Found.Transition
import Sydn.Net.Accepting
import Sydn.Net.Streams

/-!
# What the status says about the last call

Sequences of calls on one object, between which anything may happen to the
kernel. A reader and a writer report their last call, save that they are not okay
after one that would have blocked. A listening socket reports the last failure:
nothing clears it.
-/

namespace Sydn.Net

open Sydn.Found.Interaction
open Sydn.Found.Transition
open Sydn.Mem (Byte)
open ErrorCondition (default_error_condition EAGAIN EWOULDBLOCK)

/-- The errors after which a call may be tried again. -/
def WouldBlock (r : Status) : Prop :=
  r.res = -1 ∧ (r.errno = EAGAIN ∨ r.errno = EWOULDBLOCK)

/-! ## Readers and writers -/

/-- The results of the transfers of a trace. -/
def transfers (t : Trace) : List Status :=
  t.filterMap fun e =>
    match e with
    | ⟨.read .., r⟩ => some r.toStatus
    | ⟨.write .., r⟩ => some r
    | _ => none

/-- What the headers say of the status after a call with result `r`. -/
structure Documented (r : Status) (s : StreamStatus) : Prop where
  transferred : 0 ≤ r.res → r.res ≤ INT_MAX →
    s.okay = true ∧ s.error = {} ∧ (s.last_bytes : Int) = r.res
  failed : r.res = -1 →
    s.last_bytes = 0 ∧ s.error = default_error_condition r.errno ∧
      (s.would_have_blocked = true ↔ r.errno = EAGAIN ∨ r.errno = EWOULDBLOCK) ∧
      (s.okay = true ↔ WouldBlock r)

/-- The calls of a reader: the socket it refers to, the size of the span, the trace. -/
def reads : LTS ConnectedReader (ConnectedSocket × Nat × Trace) where
  init s := s = {}
  step s l s' := ∃ w data, (s.read l.1 l.2.1).Run Kernel.env w l.2.2 (.ok (s', data))

/-- The calls of a writer: the socket it refers to, the bytes, the trace. -/
def writes : LTS ConnectedWriter (ConnectedSocket × List Byte × Trace) where
  init s := s = {}
  step s l s' := ∃ w, (s.write l.1 l.2.1).Run Kernel.env w l.2.2 (.ok s')

theorem toInt_of_le {n : Int} (hpos : 0 ≤ n) (hmax : n ≤ INT_MAX) : toInt n = n := by
  unfold toInt INT_MAX at *
  rw [Int.bmod_def]
  omega

theorem toSize_of_nonneg {n : Int} (hpos : 0 ≤ n) (hmax : n ≤ INT_MAX) : (toSize n : Int) = n := by
  unfold toSize INT_MAX at *
  omega

/-- A call that does not fail is documented as it should be. -/
theorem documented_of_transfer {r : Status} {s : StreamStatus} (hres : r.res ≠ -1)
    (herror : s.d_last_error = {}) (hbytes : s.d_last_bytes = toSize (toInt r.res)) :
    Documented r s := by
  refine ⟨fun hpos hmax => ⟨?_, herror, ?_⟩, fun hfail => absurd hfail hres⟩
  · exact (ErrorCondition.okay_iff _).mpr herror
  · unfold StreamStatus.last_bytes
    rw [hbytes, toInt_of_le hpos hmax, toSize_of_nonneg hpos hmax]

/-- A call that failed is, exactly when it would not have blocked. -/
theorem documented_of_failure {r : Status} {s : StreamStatus} (hfail : Kernel.Failed r)
    (herror : s.d_last_error = default_error_condition r.errno) (hbytes : s.d_last_bytes = 0) :
    Documented r s ↔ ¬ WouldBlock r := by
  have hokay : s.okay = false := by
    unfold StreamStatus.okay
    rw [herror]
    exact hfail.not_okay
  constructor
  · intro h hblock
    have htrue := (h.failed hfail.1).2.2.2.mpr hblock
    rw [hokay] at htrue
    cases htrue
  · intro hblock
    refine ⟨fun hpos => absurd hfail.1 (by omega), fun _ => ⟨hbytes, herror, ?_, ?_⟩⟩
    · unfold StreamStatus.would_have_blocked
      rw [herror]
      exact ErrorCondition.blocked_iff _
    · rw [hokay]
      simp [hblock]

/-- What both classes keep of a result: they go by the `int` it is stored in. -/
structure Kept (r : Status) (s : StreamStatus) : Prop where
  failed : toInt r.res = -1 →
    s.d_last_error = default_error_condition r.errno ∧ s.d_last_bytes = 0
  transferred : toInt r.res ≠ -1 → s.d_last_error = {} ∧ s.d_last_bytes = toSize (toInt r.res)

/-- What is kept is documented exactly when the call would not have blocked. -/
theorem documented_iff {r : Status} {s : StreamStatus} (hmay : Kernel.Failed r ∨ 0 ≤ r.res)
    (h : Kept r s) : Documented r s ↔ ¬ WouldBlock r := by
  rcases hmay with hfail | hpos
  · have hint : toInt r.res = -1 := by
      rw [hfail.1]
      decide
    obtain ⟨herror, hbytes⟩ := h.failed hint
    exact documented_of_failure hfail herror hbytes
  · have hres : r.res ≠ -1 := by omega
    refine iff_of_true ?_ fun hblock => hres hblock.1
    by_cases hint : toInt r.res = -1
    · -- a count that does not fit an `int` is not documented
      refine ⟨fun _ hmax => ?_, fun hfail => absurd hfail hres⟩
      rw [toInt_of_le hpos hmax] at hint
      exact absurd hint hres
    · obtain ⟨herror, hbytes⟩ := h.transferred hint
      exact documented_of_transfer hres herror hbytes

/-- Each call makes one transfer and keeps its result. -/
def Keeps (t : Trace) (s : StreamStatus) : Prop :=
  ∃ r, transfers t = [r] ∧ (Kernel.Failed r ∨ 0 ≤ r.res) ∧ Kept r s

theorem read_keeps {s s' : ConnectedReader} {l : ConnectedSocket × Nat × Trace}
    (h : reads.step s l s') : Keeps l.2.2 s'.toStreamStatus := by
  obtain ⟨w, data, r, u, htrace, hr, hrun⟩ := h
  dsimp only [Prog.ret_bind] at hrun
  have hmay : Kernel.Failed r.toStatus ∨ 0 ≤ r.res := by
    apply hr.imp id
    intro h
    obtain ⟨hres, _, _⟩ := h
    omega
  by_cases hint : toInt r.res = -1
  · rw [if_pos hint] at hrun
    obtain ⟨rfl, hret⟩ := hrun
    cases hret
    exact ⟨r.toStatus, by rw [htrace]; rfl, hmay, fun _ => ⟨rfl, rfl⟩, fun hne => absurd hint hne⟩
  · rw [if_neg hint] at hrun
    split at hrun
    · cases hrun.2
    · obtain ⟨rfl, hret⟩ := hrun
      cases hret
      exact ⟨r.toStatus, by rw [htrace]; rfl, hmay, fun heq => absurd heq hint,
        fun _ => ⟨rfl, rfl⟩⟩

theorem write_keeps {s s' : ConnectedWriter} {l : ConnectedSocket × List Byte × Trace}
    (h : writes.step s l s') : Keeps l.2.2 s'.toStreamStatus := by
  obtain ⟨w, r, u, htrace, hr, hrun⟩ := h
  dsimp only [Prog.ret_bind] at hrun
  have hmay : Kernel.Failed r ∨ 0 ≤ r.res := hr.imp id And.left
  by_cases hint : toInt r.res = -1
  · rw [if_pos hint] at hrun
    obtain ⟨rfl, hret⟩ := hrun
    cases hret
    exact ⟨r, by rw [htrace]; rfl, hmay, fun _ => ⟨rfl, rfl⟩, fun hne => absurd hint hne⟩
  · rw [if_neg hint] at hrun
    obtain ⟨rfl, hret⟩ := hrun
    cases hret
    exact ⟨r, by rw [htrace]; rfl, hmay, fun heq => absurd heq hint, fun _ => ⟨rfl, rfl⟩⟩

theorem Keeps.documented_iff {t : Trace} {s : StreamStatus} (h : Keeps t s) :
    (∀ r ∈ transfers t, Documented r s) ↔ ∀ r ∈ transfers t, ¬ WouldBlock r := by
  obtain ⟨r, htransfers, hmay, hkept⟩ := h
  rw [htransfers, List.forall_mem_singleton, List.forall_mem_singleton]
  exact Net.documented_iff hmay hkept

/-- **The status of readers and writers.** Along every sequence of calls the status after
each is what the headers say of it if and only if no call would have blocked. -/
theorem stream_status_iff (reader : ConnectedReader) (writer : ConnectedWriter) :
    (∀ path, reads.Path reader path →
      (Throughout (fun _ l s' => ∀ r ∈ transfers l.2.2, Documented r s'.toStreamStatus) reader
          path ↔
        Throughout (fun _ l _ => ∀ r ∈ transfers l.2.2, ¬ WouldBlock r) reader path)) ∧
    ∀ path, writes.Path writer path →
      (Throughout (fun _ l s' => ∀ r ∈ transfers l.2.2, Documented r s'.toStreamStatus) writer
          path ↔
        Throughout (fun _ l _ => ∀ r ∈ transfers l.2.2, ¬ WouldBlock r) writer path) := by
  constructor
  · intro path hpath
    exact LTS.Path.throughout_iff (fun _ _ _ hstep => (read_keeps hstep).documented_iff) hpath
  · intro path hpath
    exact LTS.Path.throughout_iff (fun _ _ _ hstep => (write_keeps hstep).documented_iff) hpath

section Reads

/-- A read into eight bytes that fails. -/
def failedRead (errno : Int) : Trace := [⟨.read (-1) 8, { res := -1, errno, bytes := [] }⟩]

theorem reads_failed {this : ConnectedReader} {errno : Int} (h : 0 < errno) :
    reads.step this ({}, 8, failedRead errno)
      { d_last_error := default_error_condition errno, d_last_bytes := 0 } :=
  ⟨⟨∅, ∅⟩, [], _, [], rfl, Or.inl ⟨rfl, h⟩, rfl, rfl⟩

/-- A reset connection: an error that is not to be tried again. -/
theorem stream_status_reset :
    Throughout (fun _ l s' => ∀ r ∈ transfers l.2.2, Documented r s'.toStreamStatus)
      ({} : ConnectedReader)
      [(((⟨-1⟩ : ConnectedSocket), 8, failedRead 104), { d_last_error := ⟨104⟩ })] := by
  have hpath : reads.Path {} [((⟨-1⟩, 8, failedRead 104), { d_last_error := ⟨104⟩ })] :=
    ⟨reads_failed (by decide), trivial⟩
  refine ((stream_status_iff {} {}).1 _ hpath).mpr ⟨?_, trivial⟩
  intro r hr hblock
  cases List.mem_singleton.mp hr
  exact absurd hblock.2 (by decide)

/-- The headers say that a call that would have blocked leaves the reader okay. -/
theorem not_stream_status : ¬ ∀ (this : ConnectedReader) path, reads.Path this path →
    Throughout (fun _ l s' => ∀ r ∈ transfers l.2.2, Documented r s'.toStreamStatus) this path := by
  intro hclaim
  have hstep := @reads_failed {} EAGAIN (by decide)
  have hdocumented := (hclaim {} [(_, _)] ⟨hstep, trivial⟩).1 _ List.mem_cons_self
  have hokay := (hdocumented.failed rfl).2.2.2.mpr ⟨rfl, Or.inl rfl⟩
  exact absurd hokay (by decide)

end Reads

/-! ## Listening sockets -/

/-- The two overloads of `accept`. -/
inductive AcceptCall where
  | plain (socket : ConnectedSocket)
  | withAddress (socket : ConnectedSocket) (address : Address)

/-- The socket after a call. -/
def AcceptCall.exec (this : ListenSocket) : AcceptCall → Syscall ListenSocket
  | .plain socket => (this.accept socket).bind fun a => .ret a.1
  | .withAddress socket address => (this.acceptWithAddress socket address).bind fun a => .ret a.1

/-- The calls of `accept` on a socket that was constructed without an error. -/
def accepting : LTS ListenSocket (AcceptCall × Trace) where
  init this := ∃ type local_address w t,
    (ListenSocket.construct type local_address).Run Kernel.env w t (.ok this) ∧ this.okay = true
  step this l this' := ∃ w, (l.1.exec this).Run Kernel.env w l.2 (.ok this')

/-- The status is that of an `accept` with result `r`. -/
structure Reported (r : Named) (this : ListenSocket) : Prop where
  accepted : r.res ≠ -1 →
    this.error = {} ∧ this.okay = true ∧ this.would_have_blocked = false
  failed : r.res = -1 → this.error = default_error_condition r.errno ∧
    (this.would_have_blocked = true ↔ r.errno = EAGAIN ∨ r.errno = EWOULDBLOCK)

/-- The results of the calls of a path, in their order. -/
def outcomes (path : List ((AcceptCall × Trace) × ListenSocket)) : List Named :=
  path.flatMap fun step => accepts step.1.2

/-- The condition a call with result `r` reports. -/
def failureOf (r : Named) : Option ErrorCondition :=
  if r.res = -1 then some (default_error_condition r.errno) else none

/-- Either overload asks the kernel once, and only a failure touches the status. -/
theorem accepting_step {this this' : ListenSocket} {l : AcceptCall × Trace}
    (h : accepting.step this l this') :
    ∃ r, accepts l.2 = [r] ∧ (Kernel.Failed r.toStatus ∨ r.res ≠ -1) ∧
      this' = this.failed (failureOf r) := by
  have hmay {w : Kernel} {b : Option Buffer} {r : Named} (hr : w.may (.accept this.d_fd b) r) :
      Kernel.Failed r.toStatus ∨ r.res ≠ -1 := by
    apply hr.imp id
    intro h
    obtain ⟨hfresh, _⟩ := h
    have hpos := hfresh.1
    omega
  obtain ⟨call, t⟩ := l
  obtain ⟨w, hrun⟩ := h
  cases call with
  | plain socket =>
    obtain ⟨a, hcall, rfl⟩ := Prog.run_map.mp hrun
    obtain ⟨b, hbody, rfl⟩ := Prog.run_map.mp hcall
    obtain ⟨r, hr, ⟨hres, rfl, hb⟩ | ⟨hres, rfl, hb⟩⟩ := run_acceptFd.mp hbody
    · cases hb
      exact ⟨r, rfl, hmay hr, by rw [failureOf, if_pos hres]⟩
    · cases hb
      refine ⟨r, ?_, hmay hr, by rw [failureOf, if_neg hres]⟩
      rw [accepts_accept, accepts_closing]
  | withAddress socket address =>
    obtain ⟨a, hcall, rfl⟩ := Prog.run_map.mp hrun
    obtain ⟨b, hbody, rfl⟩ := Prog.run_map.mp hcall
    obtain ⟨content, r, a, _, hr, hcases⟩ :=
      (run_acceptAddressFd this.d_local_address.size_ok).mp hbody
    rcases hcases with ⟨hres, rfl, hb⟩ | ⟨hres, u, rfl, ⟨_, _, hb⟩ | ⟨_, content', rfl, hb⟩⟩
    · cases hb
      refine ⟨r, ?_, hmay hr, by rw [failureOf, if_pos hres]⟩
      rw [accepts_append, accepts_growth, accepts_accept]
      rfl
    · cases hb
    · cases hb
      refine ⟨r, ?_, hmay hr, by rw [failureOf, if_neg hres]⟩
      rw [accepts_append, accepts_growth, accepts_accept, accepts_append, accepts_closing,
        accepts_growth]
      rfl

/-- A failure is reported, and its condition is not empty. -/
theorem failed_reported (this : ListenSocket) {r : Named} (hfail : Kernel.Failed r.toStatus) :
    Reported r (this.failed (failureOf r)) ∧ (this.failed (failureOf r)).d_last_error ≠ {} := by
  rw [failureOf, if_pos hfail.1]
  refine ⟨⟨fun hres => absurd hfail.1 hres, fun _ => ⟨rfl, ErrorCondition.blocked_iff _⟩⟩, ?_⟩
  intro heq
  have hvalue := congrArg ErrorCondition.value heq
  exact hfail.2.ne' hvalue

/-- A success is reported exactly when there was no error to keep. -/
theorem succeeded_reported_iff {this : ListenSocket} {r : Named} (hres : r.res ≠ -1) :
    Reported r this ↔ this.d_last_error = {} := by
  constructor
  · intro h
    exact (h.accepted hres).1
  · intro hclear
    refine ⟨fun _ => ⟨hclear, (ErrorCondition.okay_iff _).mpr hclear, ?_⟩,
      fun hfail => absurd hfail hres⟩
    rw [ListenSocket.would_have_blocked, hclear]
    decide

/-- From any status: an error is never cleared, so every later success goes unreported. -/
theorem reported_throughout_iff {this : ListenSocket}
    {path : List ((AcceptCall × Trace) × ListenSocket)} (hpath : accepting.Path this path) :
    Throughout (fun _ l this' => ∀ r ∈ accepts l.2, Reported r this') this path ↔
      (this.d_last_error ≠ {} → ∀ r ∈ outcomes path, r.res = -1) ∧
        (outcomes path).Pairwise fun r r' => r.res = -1 → r'.res = -1 := by
  induction path generalizing this with
  | nil => exact iff_of_true trivial ⟨fun _ _ hr => absurd hr List.not_mem_nil, .nil⟩
  | cons step path ih =>
    obtain ⟨l, this'⟩ := step
    obtain ⟨hstep, hpath⟩ := hpath
    obtain ⟨r, haccepts, hmay, rfl⟩ := accepting_step hstep
    have houtcomes : outcomes ((l, this.failed (failureOf r)) :: path) = r :: outcomes path := by
      rw [outcomes, List.flatMap_cons, haccepts]
      rfl
    have hlaw : (∀ r' ∈ accepts l.2, Reported r' (this.failed (failureOf r))) ↔
        Reported r (this.failed (failureOf r)) := by
      rw [haccepts, List.forall_mem_singleton]
    rw [houtcomes, List.forall_mem_cons, List.pairwise_cons]
    apply (and_congr hlaw (ih hpath)).trans
    rcases hmay with hfail | hres
    · obtain ⟨hreported, herror⟩ := failed_reported this hfail
      have hres : r.res = -1 := hfail.1
      tauto
    · have hsame : this.failed (failureOf r) = this := by rw [failureOf, if_neg hres]; rfl
      rw [hsame, succeeded_reported_iff hres]
      tauto

/-- **The status of listening sockets.** Along every sequence of calls of `accept` the
status after each is that of the call if and only if none succeeds after one failed. -/
theorem accept_status_iff {this : ListenSocket}
    {path : List ((AcceptCall × Trace) × ListenSocket)} (hinit : accepting.init this)
    (hpath : accepting.Path this path) :
    Throughout (fun _ l this' => ∀ r ∈ accepts l.2, Reported r this') this path ↔
      (outcomes path).Pairwise fun r r' => r.res = -1 → r'.res = -1 := by
  obtain ⟨_, _, _, _, _, hokay⟩ := hinit
  have hclear : this.d_last_error = {} := (ErrorCondition.okay_iff _).mp hokay
  rw [reported_throughout_iff hpath]
  exact and_iff_right fun hne => absurd hclear hne

section Accepted

theorem constructed : ∃ this : ListenSocket, accepting.init this ∧ this.d_fd = 3 := by
  have hfresh : Kernel.Fresh ⟨∅, ∅⟩ 3 := fresh_of_not_mem (by decide) (Set.notMem_empty _)
  have hnull : ipv4Address.notNull = true := by decide
  obtain ⟨t, hrun, _⟩ := ListenSocket.construct_run .Stream hnull (Or.inr le_rfl)
    ⟨ipv4Address.bytes, by decide⟩ hfresh
  exact ⟨_, ⟨_, _, _, _, hrun, rfl⟩, rfl⟩

/-- What the kernel says to an `accept` without an address. -/
def answer (res errno : Int) : Named := ⟨⟨res, errno⟩, ⟨[], by decide⟩⟩

/-- The call that got it, on the socket that holds `fd`. -/
def acceptTrace (fd : Int) (r : Named) : Trace := [⟨.accept fd none, r⟩]

/-- An `accept` into a new `connected_socket`. -/
theorem accepting_plain {this : ListenSocket} {w : Kernel} {r : Named}
    (hr : w.may (.accept this.d_fd none) r) :
    accepting.step this (.plain {}, acceptTrace this.d_fd r) (this.failed (failureOf r)) := by
  refine ⟨w, Prog.run_map.mpr ⟨(this.failed (failureOf r), ⟨if r.res = -1 then -1 else r.res⟩),
    Prog.run_map.mpr ⟨(failureOf r, if r.res = -1 then -1 else r.res), run_acceptFd.mpr ⟨r, hr, ?_⟩,
      rfl⟩, rfl⟩⟩
  unfold failureOf
  by_cases hres : r.res = -1
  · rw [if_pos hres, if_pos hres]
    exact Or.inl ⟨hres, rfl, rfl⟩
  · rw [if_neg hres, if_neg hres]
    exact Or.inr ⟨hres, rfl, rfl⟩

theorem accepting_failed (this : ListenSocket) {errno : Int} (h : 0 < errno) :
    accepting.step this (.plain {}, acceptTrace this.d_fd (answer (-1) errno))
      (this.failed (some ⟨errno⟩)) :=
  accepting_plain (w := ⟨∅, ∅⟩) (Or.inl ⟨rfl, h⟩)

theorem accepting_succeeded {this : ListenSocket} (hfd : this.d_fd = 3) :
    accepting.step this (.plain {}, acceptTrace this.d_fd (answer 4 0)) this := by
  have hfresh : Kernel.Fresh ⟨{3}, ∅⟩ 4 := fresh_of_not_mem (by decide) (by decide)
  refine accepting_plain (w := ⟨{3}, ∅⟩) (Or.inr ⟨hfresh, ?_⟩)
  rw [hfd]
  exact ⟨by decide, Or.inl rfl⟩

/-- A connection is accepted, and then none is waiting. -/
theorem accept_status_then_failed : ∃ this : ListenSocket,
    Throughout (fun _ l this' => ∀ r ∈ accepts l.2, Reported r this') this
      [((AcceptCall.plain {}, acceptTrace this.d_fd (answer 4 0)), this),
        ((AcceptCall.plain {}, acceptTrace this.d_fd (answer (-1) EAGAIN)),
          this.failed (some ⟨EAGAIN⟩))] := by
  obtain ⟨this, hinit, hfd⟩ := constructed
  have hpath : accepting.Path this [((.plain {}, acceptTrace this.d_fd (answer 4 0)), this),
      ((.plain {}, acceptTrace this.d_fd (answer (-1) EAGAIN)), this.failed (some ⟨EAGAIN⟩))] :=
    ⟨accepting_succeeded hfd, accepting_failed this (by decide), trivial⟩
  refine ⟨this, (accept_status_iff hinit hpath).mpr ?_⟩
  apply List.pairwise_pair.mpr
  intro hres
  exact absurd hres (by decide)

/-- The connection arrives after the call that would have blocked. -/
theorem not_accept_status : ¬ ∀ (this : ListenSocket) path, accepting.init this →
    accepting.Path this path →
    Throughout (fun _ l this' => ∀ r ∈ accepts l.2, Reported r this') this path := by
  intro hclaim
  obtain ⟨this, hinit, hfd⟩ := constructed
  have hfailed := accepting_failed this (show 0 < EAGAIN by decide)
  have hlaw := hclaim this [(_, _), (_, _)] hinit ⟨hfailed, accepting_succeeded hfd, trivial⟩
  obtain ⟨herror, _, _⟩ := (hlaw.2.1 (answer 4 0) List.mem_cons_self).accepted (by decide)
  have hvalue : EAGAIN = 0 := congrArg ErrorCondition.value herror
  exact absurd hvalue (by decide)

end Accepted

end Sydn.Net
