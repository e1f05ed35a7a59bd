import Sydn.Net.Accepting

/-!
# What `connect` leaves behind

The calls that a `connect` makes and what they leave. The old descriptor is always given
up. A descriptor that was made stays with the object when `bind` or `connect` fails, and
is closed by the next `connect` or by the destructor.
-/

namespace Sydn.Net

open Sydn.Found.Interaction
open Sydn.Found.Ownership
open Sydn.Mem (Byte)
open ErrorCondition (default_error_condition)

/-- The results of the calls of `socket` of a trace. -/
def sockets (t : Trace) : List Int :=
  t.filterMap fun e =>
    match e with
    | ⟨.socket .., r⟩ => some r.res
    | _ => none

/-- The calls of `bind` of a trace, with their results. -/
def binds (t : Trace) : List (Int × Option (List Byte) × Nat × Int) :=
  t.filterMap fun e =>
    match e with
    | ⟨.bind fd address len, r⟩ => some (fd, address, len, r.res)
    | _ => none

/-- The calls of `connect` of a trace, with their results. -/
def connects (t : Trace) : List (Int × Option (List Byte) × Nat × Int) :=
  t.filterMap fun e =>
    match e with
    | ⟨.connect fd address len, r⟩ => some (fd, address, len, r.res)
    | _ => none

section Calls
variable {t u : Trace} {fd : Int} {domain type protocol : Int} {r : Status}

theorem filterMap_closing {β : Type} {f : Event Posix → Option β}
    (hf : ∀ fd, f ⟨.close fd, ()⟩ = none) : (closing fd).filterMap f = [] := by
  unfold closing
  split
  · rfl
  · rw [List.filterMap_cons_none (hf fd), List.filterMap_nil]

/-- Every `connect` starts with the old descriptor and a call of `socket`. -/
theorem sockets_made : sockets (closing fd ++ ⟨.socket domain type protocol, r⟩ :: u) =
    r.res :: sockets u := by
  rw [sockets, List.filterMap_append, filterMap_closing fun _ => rfl]
  rfl

theorem binds_made : binds (closing fd ++ ⟨.socket domain type protocol, r⟩ :: u) = binds u := by
  rw [binds, List.filterMap_append, filterMap_closing fun _ => rfl]
  rfl

theorem connects_made :
    connects (closing fd ++ ⟨.socket domain type protocol, r⟩ :: u) = connects u := by
  rw [connects, List.filterMap_append, filterMap_closing fun _ => rfl]
  rfl

/-- The descriptors that are open where nothing else is made. -/
theorem opened_made {w : Kernel} (h : ∀ e ∈ u, e.call.Neutral) :
    (Kernel.env.later w (closing fd ++ ⟨.socket domain type protocol, r⟩ :: u)).opened =
      (w.opened \ only (held fd)) ∪ only (held r.res) := by
  have hclosing : (Kernel.env.later w (closing fd)).opened = w.opened \ only (held fd) := by
    unfold closing held
    split
    · rw [only_none, Set.sdiff_empty]
      rfl
    · rw [only_some]
      rfl
  rw [Env.later_append, Env.later_cons, Kernel.later_neutral _ h, ← hclosing]
  exact opened_opening

end Calls

/-- The descriptor was bound to the address. -/
def BoundTo (t : Trace) (fd : Int) (a : Address) : Prop :=
  binds t = [(fd, a.native, socklen a.size, 0)]

/-- The descriptor was connected to the address. -/
def ConnectedTo (t : Trace) (fd : Int) (a : Address) : Prop :=
  connects t = [(fd, a.native, socklen a.size, 0)]

/-- What a `connect` leaves of an object that held `old` and now has `new`: the result of
its one call of `socket`, which is open unless that call failed. -/
structure ConnectOutcome (remote_address local_address : Address) (w : Kernel) (t : Trace)
    (old new : Int) (error : ErrorCondition) : Prop where
  success_iff : error = {} ↔ new ∈ (Kernel.env.later w t).opened ∧
    (local_address.notNull = true → BoundTo t new local_address) ∧
    ConnectedTo t new remote_address
  made : sockets t = [new]
  left_open : new ≠ -1 → new ∈ (Kernel.env.later w t).opened
  opened : (Kernel.env.later w t).opened = (w.opened \ only (held old)) ∪ only (held new)

/-- The calls of `bindLocal` where it succeeds. -/
def BindsLocal (fd : Int) (local_address : Address) (t : Trace) : Prop :=
  if local_address.notNull then ∃ r : Status, r.res = 0 ∧
    t = [⟨.bind fd local_address.native (socklen local_address.size), r⟩]
  else t = []

section Runs
variable {w : Kernel} {t : Trace} {d_fd : Int} {type : SocketType}
variable {remote_address local_address : Address}

theorem run_bindLocal_bind {α : Type} {f : Status → Syscall α} {o : Except Stop α}
    (h : ((bindLocal d_fd local_address).bind f).Run Kernel.env w t o) :
    (∃ r u, local_address.notNull = true ∧ Kernel.Failed r ∧
      t = ⟨.bind d_fd local_address.native (socklen local_address.size), r⟩ :: u ∧
      (f r).Run Kernel.env w u o) ∨
    ∃ r v u, r.res = 0 ∧ BindsLocal d_fd local_address v ∧ t = v ++ u ∧
      (f r).Run Kernel.env w u o := by
  unfold bindLocal at h
  unfold BindsLocal
  by_cases hnull : local_address.notNull = true
  · simp only [if_pos hnull] at h ⊢
    obtain ⟨r, u, rfl, hr, hrun⟩ := h
    rcases hr with hfailed | ⟨hres, _⟩
    · exact Or.inl ⟨r, u, hnull, hfailed, rfl, hrun⟩
    · exact Or.inr ⟨r, _, u, hres, ⟨r, hres, rfl⟩, rfl, hrun⟩
  · simp only [if_neg hnull] at h ⊢
    exact Or.inr ⟨⟨0, 0⟩, [], t, rfl, rfl, rfl, h⟩

/-- Every run of a `connect`: the call at which it ends and what it returns. -/
theorem run_connectFd {o : Except Stop (Int × ErrorCondition)}
    (h : (connectFd d_fd type remote_address local_address).Run Kernel.env w t o) :
    ∃ r u, t = closing d_fd ++ ⟨.socket remote_address.family type.toInt 0, r⟩ :: u ∧
      (Kernel.Failed r ∧ u = [] ∧ o = .ok (r.res, default_error_condition r.errno) ∨
      r.res ≠ -1 ∧
        ((∃ b : Status, local_address.notNull = true ∧ Kernel.Failed b ∧
          u = [⟨.bind r.res local_address.native (socklen local_address.size), b⟩] ∧
          o = .ok (r.res, default_error_condition b.errno)) ∨
        ∃ (c : Status) (v : Trace), BindsLocal r.res local_address v ∧
          u = v ++ [⟨.connect r.res remote_address.native (socklen remote_address.size), c⟩] ∧
          (Kernel.Failed c ∧ o = .ok (r.res, default_error_condition c.errno) ∨
            c.res = 0 ∧ o = .ok (r.res, {})))) := by
  unfold connectFd at h
  obtain ⟨_, rfl, hrun⟩ := run_closeHeld_bind.mp h
  obtain ⟨r, u, rfl, hr, hrun⟩ := hrun
  refine ⟨r, u, rfl, ?_⟩
  dsimp only [Prog.ret_bind] at hrun
  by_cases hres : r.res = -1
  · rw [if_pos hres] at hrun
    have hfailed : Kernel.Failed r := by
      rcases hr with hfailed | ⟨hpos, _⟩
      · exact hfailed
      · omega
    exact Or.inl ⟨hfailed, hrun⟩
  · rw [if_neg hres] at hrun
    refine Or.inr ⟨hres, ?_⟩
    obtain ⟨b, _, hnull, hb, rfl, hend⟩ | ⟨b, v, _, hb, hv, rfl, hcall⟩ := run_bindLocal_bind hrun
    · rw [if_pos hb.1] at hend
      obtain ⟨rfl, rfl⟩ := hend
      exact Or.inl ⟨b, hnull, hb, rfl, rfl⟩
    · rw [if_neg (by omega)] at hcall
      obtain ⟨c, _, rfl, hc, hend⟩ := hcall
      dsimp only [Prog.ret_bind] at hend
      refine Or.inr ⟨c, v, hv, ?_⟩
      rcases hc with hfailed | ⟨hzero, _⟩
      · rw [if_pos hfailed.1] at hend
        obtain ⟨rfl, rfl⟩ := hend
        exact ⟨rfl, Or.inl ⟨hfailed, rfl⟩⟩
      · rw [if_neg (by omega)] at hend
        obtain ⟨rfl, rfl⟩ := hend
        exact ⟨rfl, Or.inr ⟨hzero, rfl⟩⟩

/-- What `connect` leaves, from the calls after that of `socket`. -/
theorem connectOutcome {u : Trace} {r : Status} {error : ErrorCondition}
    (hneutral : ∀ e ∈ u, e.call.Neutral) (hsockets : sockets u = [])
    (hmade : error = {} → r.res ≠ -1)
    (hiff : error = {} ↔ (local_address.notNull = true → BoundTo u r.res local_address) ∧
      ConnectedTo u r.res remote_address) :
    ConnectOutcome remote_address local_address w
      (closing d_fd ++ ⟨.socket remote_address.family type.toInt 0, r⟩ :: u) d_fd r.res error := by
  have hleft : r.res ≠ -1 → r.res ∈ (Kernel.env.later w (closing d_fd ++
      ⟨.socket remote_address.family type.toInt 0, r⟩ :: u)).opened := by
    intro hres
    rw [opened_made hneutral]
    exact Or.inr (held_eq_some.mpr ⟨rfl, hres⟩)
  refine ⟨?_, ?_, hleft, opened_made hneutral⟩
  · unfold BoundTo ConnectedTo at hiff ⊢
    rw [binds_made, connects_made, ← hiff]
    constructor
    · intro hsuccess
      exact ⟨hleft (hmade hsuccess), hsuccess⟩
    · intro h
      exact h.2
  · rw [sockets_made, hsockets]

/-- Without a `connect` that succeeded there is no success. -/
theorem connectOutcome_failed {u : Trace} {r e : Status} (he : Kernel.Failed e)
    (hneutral : ∀ e ∈ u, e.call.Neutral) (hsockets : sockets u = [])
    (hconnects : ¬ ConnectedTo u r.res remote_address) :
    ConnectOutcome remote_address local_address w
      (closing d_fd ++ ⟨.socket remote_address.family type.toInt 0, r⟩ :: u) d_fd r.res
      (default_error_condition e.errno) := by
  apply connectOutcome hneutral hsockets
  · intro hnone
    exact absurd hnone he.condition_ne
  · apply iff_of_false he.condition_ne
    intro h
    exact hconnects h.2

/-- The calls from `bind` on, where `bind` did not fail. -/
theorem bindsLocal_connect {v : Trace} {fd : Int} (h : BindsLocal fd local_address v)
    (remote_address : Address) (c : Status) :
    (∀ e ∈ v ++ [(⟨.connect fd remote_address.native (socklen remote_address.size), c⟩ :
      Event Posix)], e.call.Neutral) ∧
    sockets (v ++ [⟨.connect fd remote_address.native (socklen remote_address.size), c⟩]) = [] ∧
    (local_address.notNull = true → BoundTo (v ++ [⟨.connect fd remote_address.native
      (socklen remote_address.size), c⟩]) fd local_address) ∧
    connects (v ++ [⟨.connect fd remote_address.native (socklen remote_address.size), c⟩]) =
      [(fd, remote_address.native, socklen remote_address.size, c.res)] := by
  unfold BindsLocal at h
  split at h
  · obtain ⟨r, hr, rfl⟩ := h
    refine ⟨List.forall_mem_cons.mpr ⟨trivial, List.forall_mem_singleton.mpr trivial⟩, rfl, ?_, rfl⟩
    intro _
    rw [BoundTo, ← hr]
    rfl
  · rename_i hnull
    rw [h]
    exact ⟨List.forall_mem_singleton.mpr trivial, rfl, fun hset => absurd hset hnull, rfl⟩

theorem connectFd_outcome {o : Except Stop (Int × ErrorCondition)}
    (h : (connectFd d_fd type remote_address local_address).Run Kernel.env w t o) :
    ∃ new error, o = .ok (new, error) ∧
      ConnectOutcome remote_address local_address w t d_fd new error := by
  obtain ⟨r, u, rfl, hcases⟩ := run_connectFd h
  obtain ⟨hr, rfl, rfl⟩ | ⟨hres, ⟨b, _, hb, rfl, rfl⟩ | ⟨c, v, hv, rfl, hend⟩⟩ := hcases
  · exact ⟨_, _, rfl, connectOutcome_failed hr (by simp) rfl nofun⟩
  · have hneutral : ∀ e ∈ [(⟨.bind r.res local_address.native (socklen local_address.size), b⟩ :
        Event Posix)], e.call.Neutral := List.forall_mem_singleton.mpr trivial
    exact ⟨_, _, rfl, connectOutcome_failed hb hneutral rfl nofun⟩
  · obtain ⟨hneutral, hsockets, hbinds, hconnects⟩ := bindsLocal_connect hv remote_address c
    obtain ⟨hc, rfl⟩ | ⟨hc, rfl⟩ := hend
    · refine ⟨_, _, rfl, connectOutcome_failed hc hneutral hsockets ?_⟩
      intro hconnected
      rw [ConnectedTo, hconnects, hc.1] at hconnected
      simp at hconnected
    · refine ⟨_, _, rfl, connectOutcome hneutral hsockets (fun _ => hres) ?_⟩
      apply iff_of_true rfl
      refine ⟨hbinds, ?_⟩
      rw [ConnectedTo, hconnects, hc]

end Runs

/-- **What `connect` leaves.** Every run of either class returns the empty condition exactly
when the object then has an open descriptor that was bound to the local address, if there
is one, and connected to the remote one. In every run the old descriptor is closed and the
object has the result of the one call of `socket`, which is open unless that call failed:
a failure of `bind` or `connect` does not close it. -/
theorem connect_outcome :
    (∀ (this : ConnectedSocket) type (remote_address local_address : Address) w t o,
      (this.connect type remote_address local_address).Run Kernel.env w t o →
      ∃ (new : ConnectedSocket) (error : ErrorCondition), o = .ok (new, error) ∧
        ConnectOutcome remote_address local_address w t this.d_fd new.d_fd error) ∧
    ∀ (this : PosixSocketBuffer) type (remote_address local_address : Address) w t o,
      (this.connect type remote_address local_address).Run Kernel.env w t o →
      ∃ (new : PosixSocketBuffer) (error : ErrorCondition), o = .ok (new, error) ∧
        ConnectOutcome remote_address local_address w t this.d_fd new.d_fd error := by
  constructor
  · intro this type remote_address local_address w t o hrun
    obtain ⟨_, hbody, rfl⟩ := Prog.run_mapped.mp hrun
    obtain ⟨new, error, rfl, houtcome⟩ := connectFd_outcome hbody
    exact ⟨⟨new⟩, error, rfl, houtcome⟩
  · intro this type remote_address local_address w t o hrun
    obtain ⟨_, hbody, rfl⟩ := Prog.run_mapped.mp hrun
    obtain ⟨new, error, rfl, houtcome⟩ := connectFd_outcome hbody
    exact ⟨⟨new⟩, error, rfl, houtcome⟩

/-- The calls of a `connect` that is refused. -/
def refusedTrace : Trace :=
  [⟨.socket 2 1 0, ⟨3, 0⟩⟩, ⟨.connect 3 ipv4Address.native 16, ⟨-1, 111⟩⟩]

theorem ConnectedSocket.connect_refused : (connect {} .Stream ipv4Address Address.init).Run
    Kernel.env ⟨∅, ∅⟩ refusedTrace (.ok (⟨3⟩, ⟨111⟩)) := by
  refine Prog.run_map.mpr ⟨(3, ⟨111⟩), ?_, rfl⟩
  refine ⟨⟨3, 0⟩, _, rfl, Or.inr (fresh_of_not_mem (by decide) (by simp)), ?_⟩
  exact ⟨⟨-1, 111⟩, _, rfl, Or.inl ⟨rfl, by decide⟩, rfl, rfl⟩

/-- The descriptor that a refused `connect` leaves open. -/
theorem connect_outcome_refused : ∃ (new : ConnectedSocket) (error : ErrorCondition),
    error ≠ {} ∧ new.d_fd = 3 ∧ 3 ∈ (Kernel.env.later ⟨∅, ∅⟩ refusedTrace).opened := by
  obtain ⟨new, error, heq, houtcome⟩ :=
    connect_outcome.1 _ _ _ _ _ _ _ ConnectedSocket.connect_refused
  cases heq
  exact ⟨⟨3⟩, ⟨111⟩, by decide, rfl, houtcome.left_open (by decide)⟩

theorem not_connect_outcome : ¬ ∀ (this : ConnectedSocket) type
    (remote_address local_address : Address) w t (new : ConnectedSocket) error,
    (this.connect type remote_address local_address).Run Kernel.env w t (.ok (new, error)) →
    error ≠ {} → new.d_fd = -1 := by
  intro hclaim
  have hclosed := hclaim _ _ _ _ _ _ _ _ ConnectedSocket.connect_refused (by decide)
  exact absurd hclosed (by decide)

end Sydn.Net
