import Sydn.Examples.Isolation

/-!
# The threads of the echo server do not meet

Whatever the interleaving, each open descriptor belongs to one thread: the listening
one to the first thread, and an accepted one to the thread of its session, which the
first thread hands it to.
-/

namespace Sydn.Examples.EchoServer

open Sydn.Found.Interaction
open Sydn.Found.Ownership
open Sydn.Found.Threads
open Sydn.Mem (Byte)
open Sydn.Net

/-! ## The system calls of each function -/

/-- A system call is about descriptors that are open. -/
def UsesOwn (w : Kernel) (e : Event Posix) : Prop := uses e.call ⊆ w.opened

/-- A call that asks for memory. -/
def IsNew : Sys → Prop
  | .new _ => True
  | _ => False

section Functions
variable {α : Type} {w : Kernel} {Q : Kernel → Except Stop α → Prop}

/-- A call that opens and closes nothing, on a descriptor of the thread's own. -/
theorem checked_own {c : Sys} {next : c.Answer → Syscall α} (hc : c.Neutral)
    (huses : uses c ⊆ w.opened)
    (h : ∀ r, w.may c r → Checked Kernel.env UsesOwn w (next r) Q) :
    Checked Kernel.env UsesOwn w (.call c next) Q := by
  refine Checked.call fun r hr => ⟨huses, ?_⟩
  change Checked Kernel.env UsesOwn (w.after c r) (next r) Q
  rw [w.after_neutral hc]
  exact h r hr

/-- A program that only asks for memory. -/
theorem checked_new {p : Syscall α} (hp : p.Uses IsNew) :
    Checked Kernel.env UsesOwn w p fun w' _ => w' = w := by
  refine Checked.of_uses ?_ hp w
  intro w c r hc
  cases c with
  | new n => exact ⟨Set.empty_subset _, rfl⟩
  | socket | bind | connect | listen | accept | getsockname | read | write | close => exact hc.elim

theorem allocate_new (a : Address) (n : Nat) : (a.allocate n).Uses IsNew := by
  unfold Address.allocate
  split
  · exact ⟨trivial, fun _ => trivial⟩
  · trivial

theorem resize_new (a : Address) (n : Nat) : (a.resize n).Uses IsNew := by
  unfold Address.resize
  split
  · exact Prog.uses_bind (allocate_new a n) fun _ => trivial
  · trivial

theorem copy_new (a : Address) : a.copy.Uses IsNew :=
  Prog.uses_bind (allocate_new _ _) fun _ => trivial

theorem server_construct_new (inet : Inet) : (Server.construct inet).Uses IsNew := by
  refine Prog.uses_bind (Prog.uses_bind (Prog.uses_bind ?_ fun _ => trivial) fun _ => trivial)
    fun _ => trivial
  exact resize_new _ _

theorem own_opening (w : Kernel) (fd : Int) : only (held fd) ⊆ (w.opening fd).opened := by
  rw [opened_opening]
  exact Set.subset_union_right

/-- The constructor of the listening socket opens the descriptor it ends up with. -/
theorem construct_own (type : SocketType) (a : Address) :
    Checked Kernel.env UsesOwn w (ListenSocket.construct type a) fun w' o =>
      ∀ l, o = .ok l → w'.opened = w.opened ∪ only (held l.d_fd) := by
  have hcalls : Checked Kernel.env UsesOwn w (ListenSocket.construct type a) fun _ _ => True := by
    unfold ListenSocket.construct
    split
    · refine Checked.call fun r _ => ⟨Set.empty_subset _, ?_⟩
      have hown := own_opening w r.res
      change Checked Kernel.env UsesOwn (w.opening r.res) _ _
      have hfd₁ := ListenSocket.check_result_fd { d_fd := r.res } r
      rw [Prog.ret_bind]
      generalize ListenSocket.check_result { d_fd := r.res } r = p₁ at hfd₁
      obtain ⟨okay₁, s₁⟩ := p₁
      dsimp only at hfd₁ ⊢
      split
      · exact Checked.ret.mpr trivial
      · refine checked_own trivial (by rw [hfd₁]; exact hown) fun r₂ _ => ?_
        have hfd₂ := ListenSocket.check_result_fd s₁ r₂
        rw [Prog.ret_bind]
        generalize s₁.check_result r₂ = p₂ at hfd₂
        obtain ⟨okay₂, s₂⟩ := p₂
        dsimp only at hfd₂ ⊢
        split
        · exact Checked.ret.mpr trivial
        · refine checked_own trivial (by rw [hfd₂, hfd₁]; exact hown) fun r₃ _ => ?_
          have hfd₃ := ListenSocket.check_result_fd s₂ r₃
          rw [Prog.ret_bind]
          generalize s₂.check_result r₃ = p₃ at hfd₃
          obtain ⟨okay₃, s₃⟩ := p₃
          dsimp only at hfd₃ ⊢
          split
          · exact Checked.ret.mpr trivial
          · refine Checked.bind ((checked_new (resize_new _ _)).mono ?_)
            rintro _ o rfl
            cases o with
            | error e => trivial
            | ok b =>
              dsimp only
              rw [Prog.bind_eq, Posix.getsockname_bind]
              refine checked_own trivial (by rw [hfd₃, hfd₂, hfd₁]; exact hown) fun r₄ _ => ?_
              unfold Address.deliver Address.receive
              split
              · exact Checked.ret.mpr trivial
              · split
                · exact Checked.stop.mpr trivial
                · exact Checked.ret.mpr trivial
    · exact Checked.stop.mpr trivial
  intro t o hrun
  refine ⟨(hcalls t o hrun).1, ?_⟩
  intro l hl
  have hreplaced := (ListenSocket.construct_replaces t o hrun).2 l hl
  rw [hreplaced.opened, only_none, Set.sdiff_empty]

theorem along_growth {a : Address} {n : Nat} {content : Nat → Byte} :
    Kernel.env.Along UsesOwn w (a.growth n content) := by
  unfold Address.growth
  split
  · exact ⟨Set.empty_subset _, trivial⟩
  · trivial

theorem later_growth {a : Address} {n : Nat} {content : Nat → Byte} :
    Kernel.env.later w (a.growth n content) = w := by
  unfold Address.growth
  split <;> rfl

/-- An `accept` into a new session opens the descriptor of the session and no other. -/
theorem accept_own {this : ListenSocket} (hfd : only (held this.d_fd) ⊆ w.opened)
    (address : Address) :
    Checked Kernel.env UsesOwn w (this.acceptWithAddress {} address) fun w' o =>
      ∀ x, o = .ok x → x.1.d_fd = this.d_fd ∧
        w'.opened = w.opened ∪ only (held x.2.1.d_fd) ∧
        Disjoint (only (held x.2.1.d_fd)) w.opened := by
  intro t o hrun
  constructor
  · obtain ⟨o', hbody, _⟩ := Prog.run_mapped.mp hrun
    obtain ⟨content, r, a, _, _, ⟨_, rfl, _⟩ | ⟨_, u, rfl, hend⟩⟩ :=
      (run_acceptAddressFd this.d_local_address.size_ok).mp hbody
    · rw [Env.along_append, later_growth]
      exact ⟨along_growth, hfd, trivial⟩
    · have hclosing : closing ({} : ConnectedSocket).d_fd = [] := rfl
      rw [Env.along_append, later_growth, hclosing, List.nil_append]
      refine ⟨along_growth, hfd, ?_⟩
      obtain ⟨_, rfl, _⟩ | ⟨_, content', rfl, _⟩ := hend
      · trivial
      · exact along_growth
  · intro x hx
    have hnone : ∀ k, held ({} : ConnectedSocket).d_fd = some k → k ∈ w.opened := nofun
    obtain ⟨hthis, hreplaced⟩ :=
      (ListenSocket.acceptWithAddress_replaces hnone t o hrun).2 x hx
    refine ⟨hthis, ?_, ?_⟩
    · have hopened := hreplaced.opened
      rw [show held ({} : ConnectedSocket).d_fd = none from rfl, only_none, Set.sdiff_empty]
        at hopened
      exact hopened
    · rw [Set.disjoint_left]
      intro fd hfd
      exact (hreplaced.fresh fd hfd).resolve_left nofun

theorem closeHeld_own {fd : Int} (hfd : only (held fd) ⊆ w.opened) :
    Checked Kernel.env UsesOwn w (closeHeld fd) fun w' _ =>
      w'.opened = w.opened \ only (held fd) := by
  unfold closeHeld
  split
  · rename_i hnone
    apply Checked.ret.mpr
    rw [hnone]
    change w.opened = w.opened \ only none
    rw [only_none, Set.sdiff_empty]
  · rename_i hne
    have hheld : only (held fd) = {fd} := by
      rw [held_eq_some.mpr ⟨rfl, hne⟩, only_some]
    rw [hheld] at hfd ⊢
    exact Checked.call fun r _ => ⟨hfd, Checked.ret.mpr rfl⟩

/-- The calls by which a session moves bytes. -/
def Transfers (fd : Int) : Sys → Prop
  | .read fd' _ | .write fd' _ => fd' = fd
  | _ => False

theorem read_transfers (reader : ConnectedReader) (d_socket : ConnectedSocket) (size : Nat) :
    (reader.read d_socket size).Uses (Transfers d_socket.d_fd) := by
  refine ⟨rfl, fun r => ?_⟩
  dsimp only [Prog.ret_bind]
  split
  · trivial
  · split <;> trivial

theorem write_transfers (writer : ConnectedWriter) (d_socket : ConnectedSocket)
    (data : List Byte) : (writer.write d_socket data).Uses (Transfers d_socket.d_fd) := by
  refine ⟨rfl, fun r => ?_⟩
  dsimp only [Prog.ret_bind]
  split <;> trivial

theorem run_transfers (this : ClientSession) (fuel : Nat) (content : Nat → Byte) :
    (this.run fuel content).Uses (Transfers this.d_socket.d_fd) := by
  refine Prog.uses_loop (fun s => ?_) _ _
  refine Prog.uses_bind (read_transfers _ _ _) fun x => ?_
  dsimp only
  split
  · refine Prog.uses_bind (write_transfers _ _ _) fun writer => ?_
    split <;> trivial
  · trivial

theorem run_own {this : ClientSession} (hfd : only (held this.d_socket.d_fd) ⊆ w.opened)
    (fuel : Nat) (content : Nat → Byte) :
    Checked Kernel.env UsesOwn w (this.run fuel content) fun w' _ => w' = w := by
  refine Checked.of_uses_in ?_ (run_transfers this fuel content)
  intro c r hc
  cases c with
  | read fd n | write fd data =>
    obtain rfl : fd = _ := hc
    exact ⟨hfd, rfl⟩
  | socket | bind | connect | listen | accept | getsockname | close | new => exact hc.elim

end Functions

/-! ## The programs of the threads -/

/-- A call of the process needs descriptors that are open. -/
def NeedsOwn (w : Kernel) (e : Event Process) : Prop := e.call.needs ⊆ w.opened

section Threads
variable {α β : Type} {w : Kernel} {Q : Kernel → Except Stop β → Prop}

/-- The rule for system calls among the calls of the process. -/
theorem checked_sys {p : Syscall α} {f : α → Code β} {R : Kernel → Except Stop α → Prop}
    (hp : Checked Kernel.env UsesOwn w p R) (hstop : ∀ w e, Q w (.error e))
    (hf : ∀ w' a, R w' (.ok a) → Checked alone NeedsOwn w' (f a) Q) :
    Checked alone NeedsOwn w ((sys p).bind f) Q := by
  refine Checked.bind ((hp.within alone_extends (R := NeedsOwn) fun _ _ h => h).mono ?_)
  intro w' o hR
  cases o with
  | error e => exact hstop w' e
  | ok a => exact hf w' a hR

theorem checked_cout {text : String} {f : Unit → Code β}
    (hf : Checked alone NeedsOwn w (f ()) Q) :
    Checked alone NeedsOwn w ((cout text).bind f) Q :=
  Checked.call fun _ _ => ⟨Set.empty_subset _, hf⟩

theorem checked_coutAddress {db : NetDb} {address : Address} {f : Unit → Code β}
    (hstop : ∀ w e, Q w (.error e)) (hf : Checked alone NeedsOwn w (f ()) Q) :
    Checked alone NeedsOwn w ((coutAddress db address).bind f) Q := by
  unfold coutAddress
  split
  · exact Checked.call fun _ _ => ⟨Set.empty_subset _, hf⟩
  · exact Checked.stop.mpr (hstop w _)

/-- The thread of a session uses its descriptor and closes it at the end. -/
theorem thread_keeps (inet : Inet) (db : NetDb) (fuel : Nat) (content : Nat → Byte)
    (session : Session) :
    (separation inet db).Keeps (some session) (session.thread db fuel content) := by
  have hown : only (held session.d_socket.d_fd) ⊆
      (⟨only (held session.d_socket.d_fd), ∅⟩ : Kernel).opened := subset_rfl
  change Checked alone NeedsOwn ⟨only (held session.d_socket.d_fd), ∅⟩
    (session.thread db fuel content) fun v o => o = .ok () → v.opened = ∅
  unfold Session.thread Session.run
  simp only [Prog.bind_eq, Prog.bind_assoc]
  have hstop : ∀ (v : Kernel) (e : Stop), (Except.error e : Except Stop Unit) = .ok () →
      v.opened = ∅ := nofun
  apply checked_cout
  apply checked_coutAddress hstop
  apply checked_cout
  refine checked_sys (run_own hown fuel content) hstop ?_
  rintro w' _ rfl
  apply checked_cout
  apply checked_coutAddress hstop
  apply checked_cout
  refine ((closeHeld_own hown).within alone_extends fun _ _ h => h).mono ?_
  intro w' o hw' _
  rw [hw', Set.sdiff_self]

/-- One turn of the server: what is accepted goes with the session. -/
theorem turn_keeps {listenSocket : ListenSocket} (hw : w.opened = only (held listenSocket.d_fd)) :
    Checked alone NeedsOwn w (Server.turn listenSocket) fun w' o => match o with
      | .ok (.inl listenSocket') =>
        listenSocket'.d_fd = listenSocket.d_fd ∧ w'.opened = only (held listenSocket'.d_fd)
      | .ok (.inr _) => False
      | .error _ => True := by
  refine checked_sys (accept_own hw.ge Address.init) (fun _ _ => trivial) ?_
  rintro w' ⟨listenSocket', d_socket, d_address⟩ hR
  obtain ⟨hthis, hopened, hfresh⟩ := hR _ rfl
  dsimp only at hthis hopened hfresh ⊢
  refine Checked.call fun _ _ => ⟨?_, Checked.ret.mpr ?_⟩
  · change only (held d_socket.d_fd) ⊆ w'.opened
    rw [hopened]
    exact Set.subset_union_right
  · refine ⟨hthis, ?_⟩
    change w'.opened \ only (held d_socket.d_fd) = only (held listenSocket'.d_fd)
    rw [hopened, Set.union_sdiff_right, hfresh.symm.sdiff_eq_left, hw, hthis]

theorem main_keeps (inet : Inet) (db : NetDb) (fuel : Nat) :
    (separation inet db).Keeps none (main inet db fuel) := by
  change Checked alone NeedsOwn ⟨∅, ∅⟩ (main inet db fuel) fun v o => o = .ok () → v.opened = ∅
  unfold main Server.run
  simp only [Prog.bind_eq, Prog.bind_assoc]
  have hstop : ∀ (v : Kernel) (e : Stop), (Except.error e : Except Stop Unit) = .ok () →
      v.opened = ∅ := nofun
  apply checked_cout
  apply checked_cout
  apply checked_cout
  refine checked_sys (checked_new (server_construct_new inet)) hstop ?_
  rintro _ server rfl
  refine checked_sys (construct_own _ _) hstop ?_
  intro w₁ listenSocket hlisten
  have hlisten := hlisten _ rfl
  rw [Set.empty_union] at hlisten
  split
  · -- the server could not listen: what its socket holds is closed
    refine Checked.call fun _ _ => ⟨Set.empty_subset _, ?_⟩
    change Checked alone NeedsOwn w₁ _ _
    simp only [Prog.ret_bind, Prog.pure_eq, Prog.bind_assoc]
    refine checked_sys (closeHeld_own hlisten.ge) hstop ?_
    intro w₂ _ hw₂
    refine Checked.call fun _ _ => ⟨Set.empty_subset _, Checked.ret.mpr ?_⟩
    intro _
    change w₂.opened = ∅
    rw [hw₂, hlisten, Set.sdiff_self]
  · simp only [Prog.bind_assoc]
    apply checked_cout
    refine checked_sys (checked_new (copy_new _)) hstop ?_
    rintro _ local_address rfl
    apply checked_coutAddress hstop
    apply checked_cout
    apply checked_cout
    refine Checked.bind (Checked.loop (I := fun _ v s => v.opened = only (held s.d_fd)) ?_ ?_
      hlisten)
    · intro n v s hv
      apply (turn_keeps hv).mono
      intro v' o ho
      match o, ho with
      | .ok (.inl _), ho => exact ho.2
      | .ok (.inr _), ho => exact ho.elim
      | .error _, _ => exact hstop _ _
    · exact fun _ _ _ => hstop _ _

end Threads

/-! ## A first session -/

section Calls
variable {t u : List (Event Process)}

@[simp] theorem calls_append : calls (t ++ u) = calls t ++ calls u := List.filterMap_append

@[simp] theorem calls_event (v : Trace) : calls (v.map posix.event) = v := by
  unfold calls
  rw [List.filterMap_map]
  exact List.filterMap_some

@[simp] theorem calls_cout {text : List Byte} {r : Unit} :
    calls (⟨.cout text, r⟩ :: t) = calls t := rfl

end Calls

/-- A `sockaddr_in`. -/
def IsInet (name : SockName) : Prop :=
  name.length = sizeofSockaddrIn ∧ name.bytes.take 2 = [2, 0]

/-- Where the kernel reports an address, it is one. -/
def ReportsInet (e : Event Posix) : Prop :=
  match e with
  | ⟨.accept .., r⟩ => r.res ≠ -1 → IsInet r.name
  | ⟨.getsockname .., r⟩ => r.res ≠ -1 → IsInet r.name
  | _ => True

def NoAccept : Sys → Prop
  | .accept .. => False
  | _ => True

theorem noAccept_of_isNew (c : Sys) (h : IsNew c) : NoAccept c := by
  cases c with
  | accept => exact h
  | socket | bind | connect | listen | getsockname | read | write | close | new => trivial

theorem construct_noAccept (type : SocketType) (a : Address) :
    (ListenSocket.construct type a).Uses NoAccept := by
  unfold ListenSocket.construct
  split
  · refine ⟨trivial, fun r => ?_⟩
    dsimp only [Prog.ret_bind]
    split
    · trivial
    · refine ⟨trivial, fun r => ?_⟩
      dsimp only [Prog.ret_bind]
      split
      · trivial
      · refine ⟨trivial, fun r => ?_⟩
        dsimp only [Prog.ret_bind]
        split
        · trivial
        · refine Prog.uses_bind (Prog.uses_mono noAccept_of_isNew (resize_new _ _)) fun b => ?_
          rw [Prog.bind_eq, Posix.getsockname_bind]
          refine ⟨trivial, fun r => Prog.uses_bind ?_ fun _ => trivial⟩
          unfold Address.deliver Address.receive
          split
          · trivial
          · split <;> trivial
  · trivial

theorem kernel_extends : posix.Extends kernel Kernel.env :=
  ⟨fun _ _ _ => Iff.rfl, fun _ _ _ => rfl⟩

/-- An address on the net, `10.0.0.1:8000`. -/
def peer : SockName := ⟨Ipv4Address.record 8000 [10, 0, 0, 1] (List.replicate 8 0), by decide⟩

/-- Where the kernel reports an address, it is that one. -/
def NamesPeer (e : Event Posix) : Prop :=
  match e with
  | ⟨.accept .., r⟩ => r.name = peer
  | ⟨.getsockname .., r⟩ => r.name = peer
  | _ => True

theorem NamesPeer.reportsInet {e : Event Posix} (h : NamesPeer e) : ReportsInet e := by
  have hpeer : IsInet peer := ⟨rfl, rfl⟩
  obtain ⟨c, r⟩ := e
  cases c with
  | accept =>
    intro _
    rw [show r.name = peer from h]
    exact hpeer
  | getsockname =>
    intro _
    rw [show r.name = peer from h]
    exact hpeer
  | socket | bind | connect | listen | read | write | close | new => trivial

theorem names_of_isNew {e : Event Posix} (h : IsNew e.call) : NamesPeer e := by
  obtain ⟨c, r⟩ := e
  cases c with
  | new => trivial
  | socket | bind | connect | listen | accept | getsockname | read | write | close => exact h.elim

theorem names_growth {a : Address} {n : Nat} {content : Nat → Byte} :
    ∀ e ∈ a.growth n content, NamesPeer e := by
  unfold Address.growth
  split
  · simp [NamesPeer]
  · simp

/-- It has a next call. -/
def Calling {α : Type} (p : Code α) : Prop := ∃ c next, p = .call c next

/-- From `p` the first thread may come to start its first session, and goes on. -/
def Comes {α : Type} (w : Kernel) (p : Code α) (session : Session) : Prop :=
  ∃ t next, p.Leads kernel w t (.call (.thread session) next) ∧
    (∀ e ∈ t, ∀ session, e.call ≠ .thread session) ∧ (∀ e ∈ calls t, NamesPeer e) ∧
      Calling (next ())

section Comes
variable {α β : Type} {w : Kernel} {session : Session}

theorem Comes.start {f : Unit → Code α} (hf : Calling (f ())) :
    Comes w (.call (.thread session) f) session :=
  ⟨[], f, .refl, nofun, nofun, hf⟩

theorem Comes.cout {text : String} {f : Unit → Code β} (h : Comes w (f ()) session) :
    Comes w ((cout text).bind f) session := by
  obtain ⟨t, next, hleads, hquiet, hend⟩ := h
  exact ⟨⟨.cout (ascii text), ()⟩ :: t, next, .call trivial hleads,
    List.forall_mem_cons.mpr ⟨fun _ => Action.noConfusion, hquiet⟩, hend⟩

theorem Comes.coutAddress {db : NetDb} {address : Address} {f : Unit → Code β} {text : List Byte}
    (htext : address.print db = some text) (h : Comes w (f ()) session) :
    Comes w ((coutAddress db address).bind f) session := by
  obtain ⟨t, next, hleads, hquiet, hend⟩ := h
  unfold EchoServer.coutAddress
  rw [htext]
  exact ⟨⟨.cout text, ()⟩ :: t, next, .call trivial hleads,
    List.forall_mem_cons.mpr ⟨fun _ => Action.noConfusion, hquiet⟩, hend⟩

theorem Comes.sys {p : Syscall α} {f : α → Code β} {u : Trace} {a : α}
    (hrun : p.Run Kernel.env w u (.ok a)) (hu : ∀ e ∈ u, NamesPeer e)
    (h : Comes (Kernel.env.later w u) (f a) session) : Comes w ((sys p).bind f) session := by
  obtain ⟨t, next, hleads, hquiet, hnames, hcalling⟩ := h
  have hsys : (EchoServer.sys p).Run kernel w (u.map posix.event) (.ok a) :=
    (run_within kernel_extends).mpr ⟨u, rfl, hrun⟩
  rw [← kernel_extends.later] at hleads
  refine ⟨u.map posix.event ++ t, next, .bind hsys hleads,
    List.forall_mem_append.mpr ⟨?_, hquiet⟩, ?_, hcalling⟩
  · intro e he session
    obtain ⟨e', _, rfl⟩ := List.mem_map.mp he
    exact Action.noConfusion
  · rw [calls_append, calls_event]
    exact List.forall_mem_append.mpr ⟨hu, hnames⟩

end Comes

/-- An `accept` starts with a call, of memory for the address or of the kernel. -/
theorem calling_turn (listenSocket : ListenSocket) {β : Type} (f : ListenSocket ⊕ Int → Code β) :
    Calling ((Server.turn listenSocket).bind f) := by
  have hok : SizeOk listenSocket.d_local_address.size := listenSocket.d_local_address.size_ok
  have haccept : ∃ c next, listenSocket.acceptWithAddress {} Address.init = .call c next := by
    unfold ListenSocket.acceptWithAddress acceptAddressFd Address.resize Address.allocate
    rw [dif_pos hok]
    split <;> exact ⟨_, _, rfl⟩
  obtain ⟨c, next, hcall⟩ := haccept
  unfold Server.turn
  rw [hcall]
  exact ⟨_, _, rfl⟩

/-- The address of the server. -/
def loopback : Address :=
  (Ipv4Address.set_address dottedQuads (ascii "127.0.0.1") (Ipv4Address.set_port 0 ipv4Zero)).2

theorem server_construct_run (w : Kernel) :
    (Server.construct dottedQuads).Run Kernel.env w [] (.ok ⟨loopback⟩) :=
  Prog.run_map.mpr ⟨_, Prog.run_map.mpr ⟨_, Prog.run_map.mpr ⟨_,
    (Address.run_resize sizeOk_sockaddr_in).mpr ⟨fun _ => 0, rfl, rfl⟩, rfl⟩, rfl⟩, rfl⟩

theorem foreign_later {w : Kernel} (h : w.foreign = ∅) (t : Trace) :
    (Kernel.env.later w t).foreign = ∅ := by
  induction t generalizing w with
  | nil => exact h
  | cons e t ih => exact ih (foreign_after h e.call e.answer)

/-- The server comes to listen on `fd`. -/
theorem exists_run_listen {fd : Int} (hfd : 0 ≤ fd) : ∃ t listenSocket,
    (ListenSocket.construct .Stream loopback).Run Kernel.env ⟨∅, ∅⟩ t (.ok listenSocket) ∧
      listenSocket.okay = true ∧ listenSocket.d_fd = fd ∧
        listenSocket.d_local_address.family ≠ AF_UNIX ∧
          listenSocket.d_local_address.size = sizeofSockaddrIn ∧ ∀ e ∈ t, NamesPeer e := by
  obtain ⟨t, hrun, hqueries⟩ := ListenSocket.construct_run .Stream (a := loopback) (by decide)
    (by decide) peer (fresh_of_not_mem hfd (Set.notMem_empty fd))
  have hfamily : ((Address.init.resized loopback.size (fun _ => 0) (by decide)).taken
      peer).1.family ≠ AF_UNIX := by decide
  have hsize : ((Address.init.resized loopback.size (fun _ => 0) (by decide)).taken
      peer).1.size = sizeofSockaddrIn := by decide
  refine ⟨t, _, hrun, rfl, rfl, hfamily, hsize, ?_⟩
  have hnone := ((Prog.Leads.of_run hrun).uses (construct_noAccept _ _)).1
  rintro ⟨c, r⟩ he
  cases c with
  | accept => exact (hnone _ he).elim
  | getsockname fd b =>
    have hmem : (b, r) ∈ queries t := List.mem_filterMap.mpr ⟨_, he, rfl⟩
    rw [hqueries] at hmem
    obtain ⟨rfl, rfl⟩ := Prod.mk.inj (List.mem_singleton.mp hmem)
    rfl
  | socket | bind | connect | listen | read | write | close | new => trivial

/-- The address that an `accept` from the peer leaves. -/
theorem taken_peer {n : Nat} (h : SizeOk n) (hn : n = sizeofSockaddrIn) :
    SizeOk ((Address.init.resized n (fun _ => 0) h).taken peer).2 ∧
      ∀ hsize, (((Address.init.resized n (fun _ => 0) h).taken peer).1.resized
        ((Address.init.resized n (fun _ => 0) h).taken peer).2 (fun _ => 0) hsize).family ≠
          AF_UNIX := by
  subst hn
  revert h
  decide

/-- It then accepts `k`. -/
theorem exists_run_accept {w : Kernel} {k : Int} {listenSocket : ListenSocket}
    (hopen : w.Open listenSocket.d_fd) (hk : w.Fresh k)
    (hlocal : listenSocket.d_local_address.size = sizeofSockaddrIn) :
    ∃ t x, (listenSocket.acceptWithAddress {} Address.init).Run Kernel.env w t (.ok x) ∧
      x.2.1.d_fd = k ∧ x.2.2.family ≠ AF_UNIX ∧ ∀ e ∈ t, NamesPeer e := by
  have hne : k ≠ -1 := by
    have hpos := hk.1
    omega
  have hsize : SizeOk listenSocket.d_local_address.size := listenSocket.d_local_address.size_ok
  obtain ⟨htaken, hfamily⟩ := taken_peer hsize hlocal
  refine ⟨_, _, Prog.run_map.mpr ⟨_, (run_acceptAddressFd hsize).mpr ⟨fun _ => 0,
    ⟨⟨k, 0⟩, peer⟩, _, rfl, Or.inr ⟨hk, hopen⟩, Or.inr ⟨hne, _, rfl,
      Or.inr ⟨htaken, fun _ => 0, rfl, rfl⟩⟩⟩, rfl⟩, rfl, hfamily htaken, ?_⟩
  refine List.forall_mem_append.mpr ⟨names_growth, List.forall_mem_cons.mpr ⟨rfl, ?_⟩⟩
  exact names_growth

/-- A server that listens on `fd` and has given `k` to a session. -/
theorem first_session (db : NetDb) (fd k : Int) (hfd : 0 ≤ fd) (hk : 0 ≤ k) (hne : k ≠ fd) :
    ∃ w first session, (server dottedQuads db).system.Reachable
      ⟨w, [first, ⟨some session, [], session.thread db 2 fun _ => 0⟩]⟩ ∧
        session.d_socket.d_fd = k ∧ (∀ e ∈ calls first.past, NamesPeer e) ∧
          Calling first.rest ∧ ∃ text, session.d_address.print db = some text := by
  obtain ⟨t₁, listenSocket, hlisten, hokay, rfl, hfamily, hlocal, ht₁⟩ := exists_run_listen hfd
  have hopened := (construct_own _ _ _ _ hlisten).2 _ rfl
  have hforeign := foreign_later (w := ⟨∅, ∅⟩) rfl t₁
  rw [Set.empty_union] at hopened
  have hfresh : (Kernel.env.later ⟨∅, ∅⟩ t₁).Fresh k := by
    refine ⟨hk, ?_⟩
    rintro ⟨_, hmem | hmem⟩
    · rw [hopened] at hmem
      exact hne (held_eq_some.mp hmem).1.symm
    · rw [hforeign] at hmem
      exact hmem
  have hopen : (Kernel.env.later ⟨∅, ∅⟩ t₁).Open listenSocket.d_fd := by
    refine ⟨hfd, Or.inl ?_⟩
    rw [hopened]
    exact held_eq_some.mpr ⟨rfl, by omega⟩
  obtain ⟨t₂, local_address, hcopy⟩ := listenSocket.d_local_address.exists_run_copy
    (Kernel.env.later ⟨∅, ∅⟩ t₁)
  obtain ⟨hsize, hbytes⟩ := Address.run_copy hcopy
  have halike : Address.PrintAlike db _ local_address :=
    Address.print_bytes hfamily hsize hbytes
  obtain ⟨text, _, htext⟩ := halike
  have ht₂ := (checked_new (copy_new listenSocket.d_local_address) _ _ hcopy).2
  have hnews := ((Prog.Leads.of_run hcopy).uses (copy_new _)).1
  obtain ⟨t₃, x, haccept, hx, hordinary, ht₃⟩ := exists_run_accept hopen hfresh hlocal
  have hcomes : Comes ⟨∅, ∅⟩ (main dottedQuads db 2) ⟨⟨x.2.1⟩, x.2.2⟩ := by
    unfold main Server.run
    simp only [Prog.bind_eq, Prog.bind_assoc]
    refine Comes.cout (Comes.cout (Comes.cout (Comes.sys (server_construct_run _) nofun ?_)))
    rw [Env.later_nil]
    refine Comes.sys hlisten ht₁ ?_
    rw [hokay, if_neg (by decide)]
    simp only [Prog.bind_assoc]
    refine Comes.cout (Comes.sys hcopy (fun e he => names_of_isNew (hnews e he)) ?_)
    rw [ht₂]
    refine Comes.coutAddress htext (Comes.cout (Comes.cout ?_))
    rw [Prog.loop, Prog.bind_assoc]
    unfold Server.turn
    simp only [Prog.bind_eq, Prog.bind_assoc]
    refine Comes.sys haccept ht₃ (.start ?_)
    -- the next turn
    change Calling ((Prog.loop .fuel Server.turn 1 x.1).bind _)
    rw [Prog.loop, Prog.bind_assoc]
    exact calling_turn _ _
  obtain ⟨t, next, hleads, hquiet, hnames, hcalling⟩ := hcomes
  have hinit : (server dottedQuads db).system.Reachable
      ⟨⟨∅, ∅⟩, [⟨none, [], main dottedQuads db 2⟩]⟩ := .init ⟨rfl, _, ⟨2, rfl⟩, rfl⟩
  have hnone : ∀ e ∈ t, (server dottedQuads db).starts e.call = none := by
    intro e he
    have hne := hquiet e he
    obtain ⟨c, r⟩ := e
    cases c with
    | thread session => exact absurd rfl (hne session)
    | sys | cout | cerr | exit => rfl
  have hwait : ∀ i, i ≠ 0 → ∀ th, [(⟨none, [], main dottedQuads db 2⟩ :
      Thread Process Stop Session)][i]? = some th → Calling th.rest := by
    intro i hi th hth
    rw [List.getElem?_singleton, if_neg hi] at hth
    cases hth
  have hfirst := reachable_goes (i := 0) hinit rfl hwait hleads hnone
  have hborn : (server dottedQuads db).Born (.thread ⟨⟨x.2.1⟩, x.2.2⟩)
      [⟨some ⟨⟨x.2.1⟩, x.2.2⟩, [], Session.thread db 2 (fun _ => 0) ⟨⟨x.2.1⟩, x.2.2⟩⟩] :=
    ⟨_, ⟨2, fun _ => 0, rfl⟩, rfl⟩
  have hrunning : ∀ th ∈ [(⟨none, [] ++ t, .call (.thread ⟨⟨x.2.1⟩, x.2.2⟩) next⟩ :
      Thread Process Stop Session)], Calling th.rest := by
    intro th hth
    obtain rfl := List.mem_singleton.mp hth
    exact ⟨_, next, rfl⟩
  obtain ⟨text, htext, _⟩ : Address.PrintAlike db x.2.2 x.2.2 :=
    Address.print_bytes hordinary rfl rfl
  refine ⟨_, _, _, .step (l := 0) hfirst
    ⟨running_of_calls hrunning, none, _, _, next, (), _, rfl, trivial, hborn, rfl⟩, hx, ?_,
      hcalling, text, htext⟩
  rw [calls_append, List.nil_append]
  exact List.forall_mem_append.mpr ⟨hnames, nofun⟩

/-! ## The account -/

/-- A call that neither opens a descriptor nor starts a thread. -/
def Settled : Action → Prop
  | .sys (.socket ..) | .sys (.accept ..) | .thread _ => False
  | _ => True

theorem coutAddress_settled (db : NetDb) (address : Address) :
    (coutAddress db address).Uses Settled := by
  unfold coutAddress
  split
  · exact ⟨trivial, fun _ => trivial⟩
  · trivial

theorem thread_settled (db : NetDb) (fuel : Nat) (content : Nat → Byte) (session : Session) :
    (session.thread db fuel content).Uses Settled := by
  have hcout : ∀ text, (cout text).Uses Settled := fun _ => ⟨trivial, fun _ => trivial⟩
  have hrun : (sys (session.toClientSession.run fuel content)).Uses Settled := by
    refine Prog.uses_within ?_ (run_transfers session.toClientSession fuel content)
    intro c hc
    cases c with
    | read | write => trivial
    | socket | bind | connect | listen | accept | getsockname | close | new => exact hc.elim
  have hclose : (sys session.d_socket.destroy).Uses Settled := by
    unfold ConnectedSocket.destroy closeHeld
    split
    · trivial
    · exact ⟨trivial, fun _ => trivial⟩
  refine Prog.uses_bind ?_ fun _ => hclose
  refine Prog.uses_bind (hcout _) fun _ => Prog.uses_bind (coutAddress_settled _ _) fun _ => ?_
  refine Prog.uses_bind (hcout _) fun _ => Prog.uses_bind hrun fun _ => ?_
  exact Prog.uses_bind (hcout _) fun _ => Prog.uses_bind (coutAddress_settled _ _) fun _ => hcout _

/-- Such calls leave a thread with no more than it had. -/
theorem later_settled {v : Kernel} {t : List (Event Process)} (h : ∀ e ∈ t, Settled e.call) :
    (alone.later v t).opened ⊆ v.opened := by
  induction t generalizing v with
  | nil => exact subset_rfl
  | cons e t ih =>
    obtain ⟨he, ht⟩ := List.forall_mem_cons.mp h
    refine (ih ht).trans ?_
    obtain ⟨c, r⟩ := e
    match c, r, he with
    | .sys (.close fd), _, _ => exact Set.sdiff_subset
    | .sys (.bind ..), _, _ | .sys (.connect ..), _, _ | .sys (.listen ..), _, _
    | .sys (.getsockname ..), _, _ | .sys (.read ..), _, _ | .sys (.write ..), _, _
    | .sys (.new _), _, _ | .cout _, _, _ | .cerr _, _, _ | .exit _, _, _ => exact subset_rfl

theorem server_keeps (inet : Inet) (db : NetDb) (j : Option Session) (p : Code Unit)
    (hp : (server inet db).body j p) : (separation inet db).Keeps j p := by
  cases j with
  | none =>
    obtain ⟨fuel, rfl⟩ := hp
    exact main_keeps inet db fuel
  | some session =>
    obtain ⟨fuel, content, rfl⟩ := hp
    exact thread_keeps inet db fuel content session

/-- **The account of the server.** At every moment each open descriptor belongs to one
thread; a thread's next call is about its own, a session never has more than the one it
was given, and a thread that has ended has none. -/
theorem server_account {inet : Inet} {db : NetDb} {σ : State Process Stop Kernel Session}
    (h : (server inet db).system.Reachable σ) :
    Divided σ.world.opened (σ.threads.map holds) ∧ ∀ th ∈ σ.threads,
      (∀ c next, th.rest = .call c next → c.needs ⊆ holds th) ∧
      (∀ session, th.job = some session → holds th ⊆ only (held session.d_socket.d_fd)) ∧
      (th.rest = .ret () → holds th = ∅) := by
  have hseparate := Separation.separate (server_keeps inet db) h
  refine ⟨hseparate.divided, fun th hth => ?_⟩
  have halone := hseparate.alone th hth
  refine ⟨fun c next => halone.needs (server_keeps inet db), ?_,
    halone.ended (server_keeps inet db)⟩
  intro session hjob
  obtain ⟨job, past, rest⟩ := th
  obtain rfl : job = some session := hjob
  obtain ⟨_, ⟨fuel, content, rfl⟩, hleads⟩ := halone
  exact later_settled (hleads.uses (thread_settled db fuel content session)).1

/-- Of a server that listens on 3 and has accepted 4, the session has 4 and is the only one
that has. -/
theorem server_account_first : ∃ σ : State Process Stop Kernel Session,
    ∃ th ∈ σ.threads, holds th = {4} ∧ Divided σ.world.opened (σ.threads.map holds) := by
  obtain ⟨w, first, session, hreach, hfd, _⟩ :=
    first_session noNames 3 4 (by decide) (by decide) (by decide)
  obtain ⟨hdivided, _⟩ := server_account hreach
  refine ⟨_, _, List.mem_cons_of_mem _ (List.mem_singleton.mpr rfl), ?_, hdivided⟩
  change only (held session.d_socket.d_fd) = {4}
  rw [hfd]
  exact only_some 4

end Sydn.Examples.EchoServer
