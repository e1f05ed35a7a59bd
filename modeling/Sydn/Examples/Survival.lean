import Sydn.Examples.Turns

/-!
# What may abort the server

The process is over when an assertion fails or a printed path has no end. Neither happens
while the addresses that the kernel reports are IPv4 addresses: the lengths then pass the
assertion of `resize`, and no session has a Unix address to print.
-/

namespace Sydn.Examples.EchoServer

open Sydn.Found.Interaction
open Sydn.Found.Threads
open Sydn.Mem (Byte length_fill)
open Sydn.Net

/-- An address that prints whatever is behind it. -/
def Ordinary (a : Address) : Prop := a.family ≠ AF_UNIX

section Addresses
variable {a b : Address} {name : SockName} {content : Nat → Byte}

theorem Ordinary.exists_print (h : Ordinary a) (db : NetDb) : ∃ text, a.print db = some text := by
  have halike : Address.PrintAlike db a a := Address.print_bytes h rfl rfl
  obtain ⟨text, htext, _⟩ := halike
  exact ⟨text, htext⟩

/-- The bytes of an IPv4 address make one. -/
theorem ordinary_of_bytes (hname : IsInet name) (hsize : a.size = name.length)
    (hbytes : a.bytes = name.bytes) : Ordinary a := by
  have hne : a.size ≠ 0 := by
    rw [hsize, hname.1]
    decide
  have hfamily : a.family = AF_INET := by
    apply (Address.family_iff hne 2 0).mpr
    rw [hbytes]
    exact hname.2
  unfold Ordinary
  rw [hfamily]
  decide

theorem ordinary_congr (hsize : b.size = a.size) (hbytes : b.bytes = a.bytes) (h : Ordinary a) :
    Ordinary b := by
  unfold Ordinary
  rw [Address.family_congr hsize hbytes]
  exact h

/-- The new address that was offered and not filled in. -/
theorem resized_unspec {n : Nat} (h : SizeOk n) (hn : n = sizeofSockaddrIn) :
    (Address.init.resized n content h).family = AF_UNSPEC := by
  subst hn
  have hinline : Address.init.resized sizeofSockaddrIn content h =
      Address.init.resized sizeofSockaddrIn (fun _ => 0) sizeOk_sockaddr_in := rfl
  rw [hinline]
  decide

/-- What an `accept` leaves of a new address: the zeros, where it failed. -/
inductive Told (r : Named) (a : Address) : Prop
  | failed : r.res = -1 → a.family = AF_UNSPEC → Told r a
  | reported : r.res ≠ -1 → IsInet r.name → a.size = r.name.length → a.bytes = r.name.bytes →
      Told r a

theorem Told.ordinary {r : Named} (h : Told r a) : Ordinary a := by
  cases h with
  | failed _ hfamily =>
    unfold Ordinary
    rw [hfamily]
    decide
  | reported _ hname hsize hbytes => exact ordinary_of_bytes hname hsize hbytes

end Addresses

/-! ## The functions of the server -/

/-- While the kernel reports IPv4 addresses, the function returns, with such a result. -/
def Returns {α : Type} (p : Syscall α) (R : α → Prop) : Prop :=
  ∀ w t o, p.Run Kernel.env w t o → (∀ e ∈ t, ReportsInet e) → ∃ a, o = .ok a ∧ R a

section Functions
variable {α : Type} {p : Syscall α} {R : α → Prop}

/-- A function without a stop returns. -/
theorem Returns.of_stops (hp : p.Stops fun _ => False)
    (h : ∀ w t a, p.Run Kernel.env w t (.ok a) → (∀ e ∈ t, ReportsInet e) → R a) :
    Returns p R := by
  intro w t o hrun hinet
  cases o with
  | error e => exact (hp.of_run hrun).elim
  | ok a => exact ⟨a, rfl, h w t a hrun hinet⟩

theorem allocate_stops (a : Address) (n : Nat) : (a.allocate n).Stops fun _ => False := by
  unfold Address.allocate
  split
  · exact fun _ => trivial
  · trivial

theorem resize_stops {n : Nat} (h : SizeOk n) (a : Address) :
    (a.resize n).Stops fun _ => False := by
  unfold Address.resize
  rw [dif_pos h]
  exact Prog.stops_bind (allocate_stops a n) fun _ => trivial

theorem copy_returns {a : Address} (ha : Ordinary a) : Returns a.copy Ordinary := by
  refine Returns.of_stops (Prog.stops_bind (allocate_stops _ _) fun _ => trivial) ?_
  intro w t b hrun _
  obtain ⟨hsize, hbytes⟩ := Address.run_copy hrun
  exact ordinary_congr hsize hbytes ha

theorem closeHeld_returns (d_fd : Int) : Returns (closeHeld d_fd) fun _ => True := by
  refine Returns.of_stops ?_ fun _ _ _ _ _ => trivial
  unfold closeHeld
  split
  · trivial
  · exact fun _ => trivial

/-- The address of the server is an IPv4 address. -/
theorem server_construct_address {inet : Inet} {w : Kernel} {t : Trace} {server : Server}
    (hrun : (Server.construct inet).Run Kernel.env w t (.ok server)) :
    server.d_serverAddress.size = sizeofSockaddrIn ∧ server.d_serverAddress.notNull = true := by
  obtain ⟨a, ha, rfl⟩ := Prog.run_map.mp hrun
  have hholds := (Ipv4Address.holds_agrees inet).made
    (.of ⟨ascii "127.0.0.1", by decide⟩ 0) a ⟨w, t, ha⟩
  refine ⟨hholds.size, ?_⟩
  show (a.family != AF_UNSPEC) = true
  rw [hholds.family]
  decide

theorem server_construct_returns (inet : Inet) : Returns (Server.construct inet) fun server =>
    server.d_serverAddress.size = sizeofSockaddrIn ∧
      server.d_serverAddress.notNull = true := by
  refine Returns.of_stops ?_ fun w t server hrun _ => server_construct_address hrun
  refine Prog.stops_bind (Prog.stops_bind (Prog.stops_bind ?_ fun _ => trivial) fun _ => trivial)
    fun _ => trivial
  exact resize_stops sizeOk_sockaddr_in _

theorem construct_stops {type : SocketType} {a : Address} (hnull : a.notNull = true) :
    (ListenSocket.construct type a).Stops fun _ => False := by
  unfold ListenSocket.construct
  rw [if_pos hnull]
  intro r
  dsimp only [Prog.ret_bind]
  split
  · trivial
  · intro r₂
    dsimp only [Prog.ret_bind]
    split
    · trivial
    · intro r₃
      dsimp only [Prog.ret_bind]
      split
      · trivial
      · refine Prog.stops_bind (resize_stops a.size_ok _) fun b => ?_
        rw [Prog.bind_eq, Address.getsockname_offer_bind]
        exact fun _ => trivial

theorem mem_of_queries {t : Trace} {b : Buffer} {r : Named} (h : (b, r) ∈ queries t) :
    ∃ fd, ⟨.getsockname fd b, r⟩ ∈ t := by
  obtain ⟨⟨c, r'⟩, he, hquery⟩ := List.mem_filterMap.mp h
  cases c with
  | getsockname fd b' =>
    obtain ⟨rfl, rfl⟩ := Prod.mk.inj (Option.some.inj hquery)
    exact ⟨fd, he⟩
  | socket | bind | connect | listen | accept | read | write | close | new => cases hquery

/-- A socket that listens was told its address, or it is not okay. -/
theorem construct_told {type : SocketType} {a : Address} {w : Kernel} {t : Trace}
    {this : ListenSocket} (hsize : a.size = sizeofSockaddrIn)
    (hrun : (ListenSocket.construct type a).Run Kernel.env w t (.ok this))
    (hinet : ∀ e ∈ t, ReportsInet e) (hokay : this.okay = true) :
    this.d_local_address.size = sizeofSockaddrIn ∧ ∃ fd b r, ⟨.getsockname fd b, r⟩ ∈ t ∧
      r.res ≠ -1 ∧ IsInet r.name ∧ this.d_local_address.bytes = r.name.bytes := by
  rcases ListenSocket.run_construct hrun with ⟨hfail, _⟩ | ⟨h, content, r, _, hmin, hqueries,
    haddress, hres⟩
  · rw [hokay] at hfail
    cases hfail
  · obtain ⟨fd, hmem⟩ := mem_of_queries (hqueries ▸ List.mem_singleton_self _)
    have hname : IsInet r.name := hinet _ hmem (hres.mp hokay)
    have hlen : r.name.length = a.size := hname.1.trans hsize.symm
    rw [haddress, Address.answered_taken (hres.mp hokay), Address.size_taken,
      Address.size_resized]
    exact ⟨hsize, fd, _, r, hmem, hres.mp hokay, hname,
      Address.bytes_bound h content hmin hlen⟩

theorem construct_returns {type : SocketType} {a : Address} (hnull : a.notNull = true)
    (hsize : a.size = sizeofSockaddrIn) : Returns (ListenSocket.construct type a) fun this =>
      this.okay = true →
        this.d_local_address.size = sizeofSockaddrIn ∧ Ordinary this.d_local_address := by
  refine Returns.of_stops (construct_stops hnull) ?_
  intro w t this hrun hinet hokay
  obtain ⟨hlocal, _, _, r, _, _, hname, hbytes⟩ := construct_told hsize hrun hinet hokay
  exact ⟨hlocal, ordinary_of_bytes hname (hlocal.trans hname.1.symm) hbytes⟩

theorem ListenSocket.failed_local_address (this : ListenSocket) (error : Option ErrorCondition) :
    (this.failed error).d_local_address = this.d_local_address := by
  cases error <;> rfl

theorem eq_of_accepts {t : Trace} {fd : Int} {b : Option Buffer} {r r' : Named}
    (h : accepts t = [r]) (hmem : ⟨.accept fd b, r'⟩ ∈ t) : r' = r := by
  have hr : r' ∈ accepts t := List.mem_filterMap.mpr ⟨_, hmem, rfl⟩
  rw [h] at hr
  exact List.mem_singleton.mp hr

/-- An `accept` returns, and leaves what it was told. -/
theorem accept_told {this : ListenSocket} {w : Kernel} {t : Trace}
    {o : Except Stop (ListenSocket × ConnectedSocket × Address)}
    (hsize : this.d_local_address.size = sizeofSockaddrIn)
    (hrun : (this.acceptWithAddress {} Address.init).Run Kernel.env w t o)
    (hinet : ∀ e ∈ t, ReportsInet e) :
    ∃ x, o = .ok x ∧ x.1.d_local_address.size = sizeofSockaddrIn ∧
      ∃ r, accepts t = [r] ∧ Told r x.2.2 := by
  obtain ⟨r', haccepts, _⟩ := accepts_of_accept hrun
  obtain ⟨o', hbody, rfl⟩ := Prog.run_mapped.mp hrun
  have hok : SizeOk this.d_local_address.size := this.d_local_address.size_ok
  obtain ⟨content, r, a, rfl, _, hcases⟩ := (run_acceptAddressFd hok).mp hbody
  have hne : (Address.init.resized this.d_local_address.size content hok).size ≠ 0 := by
    rw [Address.size_resized, hsize]
    decide
  rcases hcases with ⟨hres, rfl, rfl⟩ | ⟨hres, u, rfl, hend⟩
  · obtain rfl := eq_of_accepts haccepts (List.mem_append_right _ List.mem_cons_self)
    refine ⟨_, rfl, ?_, r, haccepts, .failed hres (resized_unspec hok hsize)⟩
    dsimp only
    rw [ListenSocket.failed_local_address, hsize]
  · obtain rfl := eq_of_accepts haccepts (List.mem_append_right _ List.mem_cons_self)
    have hname : IsInet r.name :=
      hinet _ (List.mem_append_right _ List.mem_cons_self) hres
    have htaken : ((Address.init.resized this.d_local_address.size content hok).taken r.name).2 =
        sizeofSockaddrIn := by
      rw [Address.taken_of_size_ne hne]
      exact hname.1
    rcases hend with ⟨hassert, _⟩ | ⟨hfinal, content', _, rfl⟩
    · rw [htaken] at hassert
      exact absurd sizeOk_sockaddr_in hassert
    · have hfits : r.name.length ≤ socklen
          (Address.init.resized this.d_local_address.size content hok).capacity := by
        rw [Address.capacity_resized, hsize, hname.1]
        decide
      refine ⟨_, rfl, ?_, r, haccepts,
        .reported hres hname ?_ (Address.bytes_of_fits hne hfits hfinal)⟩
      · dsimp only
        rw [ListenSocket.failed_local_address, hsize]
      · rw [Address.size_resized, htaken, hname.1]

/-- What it leaves can be printed. -/
theorem accept_returns {this : ListenSocket}
    (hsize : this.d_local_address.size = sizeofSockaddrIn) :
    Returns (this.acceptWithAddress {} Address.init) fun x =>
      x.1.d_local_address.size = sizeofSockaddrIn ∧ Ordinary x.2.2 := by
  intro w t o hrun hinet
  obtain ⟨x, rfl, hsize', r, _, htold⟩ := accept_told hsize hrun hinet
  exact ⟨x, rfl, hsize', htold.ordinary⟩

end Functions

/-! ## The programs -/

/-- The rest of the process does not report addresses. -/
def Informs (e : Event Process) : Prop :=
  match e with
  | ⟨.sys c, r⟩ => ReportsInet ⟨c, r⟩
  | _ => True

/-- A session is started with an address that prints. -/
def Shares (e : Event Process) : Prop := ∀ session, e.call = .thread session →
  Ordinary session.d_address

/-- The bound on the turns is the only reason to stop. -/
def Survives {β : Type} (o : Except Stop β) : Prop := ∀ e, o = .error e → e = .fuel

theorem informing_extends :
    posix.Extends (alone.restrict Informs) (Kernel.env.restrict ReportsInet) :=
  ⟨fun _ _ _ => Iff.rfl, fun _ _ _ => rfl⟩

theorem informing_answers : (alone.restrict Informs).Answers := by
  intro w c
  have hfailed : Kernel.Failed ⟨-1, 9⟩ := ⟨rfl, by decide⟩
  obtain ⟨r, hr⟩ := alone_answers w c
  match c, r, hr with
  | .sys (.accept ..), _, _ =>
    exact ⟨⟨⟨-1, 9⟩, ⟨[], by decide⟩⟩, Or.inl hfailed, fun hne => absurd rfl hne⟩
  | .sys (.getsockname ..), _, _ =>
    exact ⟨⟨⟨-1, 9⟩, ⟨[], by decide⟩⟩, Or.inl hfailed, fun hne => absurd rfl hne⟩
  | .sys (.socket ..), r, hr | .sys (.bind ..), r, hr | .sys (.connect ..), r, hr
  | .sys (.listen ..), r, hr | .sys (.read ..), r, hr | .sys (.write ..), r, hr
  | .sys (.close _), r, hr | .sys (.new _), r, hr | .cout _, r, hr | .cerr _, r, hr
  | .thread _, r, hr | .exit _, r, hr => exact ⟨r, hr, trivial⟩

section Programs
variable {α β : Type} {w : Kernel} {Q : Kernel → Except Stop β → Prop}

theorem survives_cout {text : String} {f : Unit → Code β}
    (hf : Checked (alone.restrict Informs) (fun _ => Shares) w (f ()) Q) :
    Checked (alone.restrict Informs) (fun _ => Shares) w ((cout text).bind f) Q :=
  Checked.call fun _ _ => ⟨fun _ => Action.noConfusion, hf⟩

theorem survives_coutAddress {db : NetDb} {address : Address} (ha : Ordinary address)
    {f : Unit → Code β} (hf : Checked (alone.restrict Informs) (fun _ => Shares) w (f ()) Q) :
    Checked (alone.restrict Informs) (fun _ => Shares) w ((coutAddress db address).bind f) Q := by
  obtain ⟨text, htext⟩ := ha.exists_print db
  unfold coutAddress
  rw [htext]
  exact Checked.call fun _ _ => ⟨fun _ => Action.noConfusion, hf⟩

theorem survives_sys {p : Syscall α} {R : α → Prop} (hp : Returns p R) {f : α → Code β}
    (hf : ∀ w a, R a → Checked (alone.restrict Informs) (fun _ => Shares) w (f a) Q) :
    Checked (alone.restrict Informs) (fun _ => Shares) w ((sys p).bind f) Q := by
  have hreturns : Checked (Kernel.env.restrict ReportsInet) (fun _ _ => True) w p
      fun _ o => ∃ a, o = .ok a ∧ R a :=
    Checked.of_restrict fun t o hrun hinet => hp w t o hrun hinet
  refine Checked.bind ((hreturns.within informing_extends (R := fun _ => Shares)
    fun _ _ _ _ => Action.noConfusion).mono ?_)
  rintro w' _ ⟨a, rfl, hR⟩
  exact hf w' a hR

/-- One turn keeps the size of the address that the next `accept` is given. -/
theorem turn_survives {listenSocket : ListenSocket}
    (hsize : listenSocket.d_local_address.size = sizeofSockaddrIn) :
    Checked (alone.restrict Informs) (fun _ => Shares) w (Server.turn listenSocket) fun _ o =>
      ∃ listenSocket', o = .ok (.inl listenSocket') ∧
        listenSocket'.d_local_address.size = sizeofSockaddrIn := by
  refine survives_sys (accept_returns hsize) ?_
  rintro w' ⟨listenSocket', d_socket, d_address⟩ ⟨hsize', haddress⟩
  refine Checked.call fun _ _ => ⟨?_, Checked.ret.mpr ⟨_, rfl, hsize'⟩⟩
  intro session hsession
  obtain rfl := Action.thread.inj hsession
  exact haddress

theorem main_survives (inet : Inet) (db : NetDb) (fuel : Nat) :
    Checked (alone.restrict Informs) (fun _ => Shares) w (main inet db fuel)
      fun _ => Survives := by
  have hret : Survives (.ok () : Except Stop Unit) := nofun
  unfold main Server.run
  simp only [Prog.bind_eq, Prog.bind_assoc]
  apply survives_cout
  apply survives_cout
  apply survives_cout
  refine survives_sys (server_construct_returns inet) ?_
  intro w₁ server hserver
  refine survives_sys (construct_returns hserver.2 hserver.1) ?_
  intro w₂ listenSocket hlisten
  split
  · refine Checked.call fun _ _ => ⟨fun _ => Action.noConfusion, ?_⟩
    simp only [Prog.ret_bind, Prog.pure_eq, Prog.bind_assoc]
    refine survives_sys (closeHeld_returns _) fun w₃ _ _ => ?_
    exact Checked.call fun _ _ => ⟨fun _ => Action.noConfusion, Checked.ret.mpr hret⟩
  · rename_i hokay
    obtain ⟨hsize, haddress⟩ := hlisten (by simpa using hokay)
    simp only [Prog.bind_assoc]
    apply survives_cout
    refine survives_sys (copy_returns haddress) ?_
    intro w₃ local_address hcopy
    apply survives_coutAddress hcopy
    apply survives_cout
    apply survives_cout
    refine Checked.bind (Checked.loop
      (I := fun _ _ s => s.d_local_address.size = sizeofSockaddrIn) ?_ ?_ hsize)
    · intro n v s hs
      apply (turn_survives hs).mono
      rintro v' _ ⟨listenSocket', rfl, hsize'⟩
      exact hsize'
    · intro v s _ e he
      exact (Except.error.inj he).symm

/-- The loop of a session has no other reason to stop than its bound. -/
theorem run_stops {this : ClientSession} {fuel : Nat} {content : Nat → Byte} {t : Trace}
    {o : Except Stop Unit} (hrun : (this.run fuel content).Run Kernel.env w t o) :
    Survives o := by
  have hchecked : Checked Kernel.env.remembering (fun w e => Echoing w.2 e) (w, [])
      (this.run fuel content) fun _ => Survives := by
    refine Checked.loop (I := fun _ w s => Before w s) ?_ ?_ ⟨⟨le_rfl, ?_, nofun⟩, length_fill _ _⟩
    · intro n w' s hbefore
      apply (turn_checked hbefore).mono
      intro w'' o ho
      match o, ho with
      | .ok (.inl s'), ho => exact ho
      | .ok (.inr ()), _ => exact nofun
      | .error e, ho => exact absurd ho id
    · intro w' s _ e he
      exact (Except.error.inj he).symm
    · exact iff_of_true rfl nofun
  exact (Checked.remembered hchecked hrun).2

theorem thread_survives (db : NetDb) (fuel : Nat) (content : Nat → Byte) {session : Session}
    (haddress : Ordinary session.d_address) :
    Checked (alone.restrict Informs) (fun _ => Shares) w (session.thread db fuel content)
      fun _ => Survives := by
  unfold Session.thread Session.run
  simp only [Prog.bind_eq, Prog.bind_assoc]
  apply survives_cout
  apply survives_coutAddress haddress
  apply survives_cout
  have hrun : Checked (Kernel.env.restrict ReportsInet) (fun _ _ => True) w
      (session.toClientSession.run fuel content) fun _ => Survives :=
    Checked.of_restrict fun t o hrun _ => run_stops hrun
  refine Checked.bind ((hrun.within informing_extends (R := fun _ => Shares)
    fun _ _ _ _ => Action.noConfusion).mono ?_)
  intro w' o hsurvives
  cases o with
  | error e =>
    intro e' he'
    obtain rfl := Except.error.inj he'
    exact hsurvives e rfl
  | ok a =>
    apply survives_cout
    apply survives_coutAddress haddress
    apply survives_cout
    have hclose := survives_sys (Q := fun _ => Survives) (f := Prog.ret) (w := w')
      (closeHeld_returns session.d_socket.d_fd) fun _ _ _ => Checked.ret.mpr nofun
    rw [Prog.bind_ret] at hclose
    exact hclose

end Programs

/-! ## The process -/

theorem mem_calls {t : List (Event Process)} {c : Sys} {r : c.Answer} (h : ⟨.sys c, r⟩ ∈ t) :
    (⟨c, r⟩ : Event Posix) ∈ calls t := List.mem_filterMap.mpr ⟨_, h, rfl⟩

theorem informs_of_calls {t : List (Event Process)} (h : ∀ e ∈ calls t, ReportsInet e) :
    ∀ e ∈ t, Informs e := by
  rintro ⟨c, r⟩ he
  cases c with
  | sys c => exact h _ (mem_calls he)
  | cout | cerr | thread | exit => trivial

/-- **The server does not abort.** As long as the kernel has reported IPv4 addresses only,
no thread has failed an assertion or printed beyond an address, in any interleaving: one
that has stopped has come to the bound on its turns. -/
theorem server_survives {inet : Inet} {db : NetDb} {σ : State Process Stop Kernel Session}
    (h : (server inet db).system.Reachable σ)
    (hinet : ∀ th ∈ σ.threads, ∀ e ∈ calls th.past, ReportsInet e) :
    ∀ th ∈ σ.threads, ∀ e, th.rest = .stop e → e = .fuel := by
  have halone := (Separation.separate (server_keeps inet db) h).alone
  obtain ⟨first, others, hthreads, hjob, hjobs, _⟩ := jobs_started body_starts h
  rw [started_eq] at hjobs
  have hfirst : first ∈ σ.threads := by
    rw [hthreads]
    exact List.mem_cons_self
  have hordinary : ∀ session, some session ∈ others.map Thread.job →
      Ordinary session.d_address := by
    intro session hsession
    rw [hjobs] at hsession
    obtain ⟨_, hmem, hsome⟩ := List.mem_map.mp hsession
    obtain rfl := Option.some.inj hsome
    obtain ⟨e, he, hstarted⟩ := List.mem_filterMap.mp hmem
    obtain ⟨p, hp, hleads⟩ := halone first hfirst
    rw [hjob] at hp hleads
    obtain ⟨fuel, rfl⟩ := hp
    have hshares := (main_survives inet db fuel).made informing_answers
      (hleads.restrict (informs_of_calls (hinet first hfirst)))
    refine Env.along_iff_forall.mp hshares e he _ ?_
    obtain ⟨c, r⟩ := e
    cases c with
    | thread session => exact congrArg Action.thread (Option.some.inj hstarted)
    | sys | cout | cerr | exit => cases hstarted
  intro th hth e hrest
  obtain ⟨p, hp, hleads⟩ := halone th hth
  rw [hrest] at hleads
  have hinforming := hleads.restrict (informs_of_calls (hinet th hth))
  rw [hthreads] at hth
  cases hj : th.job with
  | none =>
    rw [hj] at hp hinforming
    obtain ⟨fuel, rfl⟩ := hp
    exact (main_survives inet db fuel).stopped hinforming e rfl
  | some session =>
    rw [hj] at hp hinforming
    obtain ⟨fuel, content, rfl⟩ := hp
    refine (thread_survives db fuel content (hordinary session ?_)).stopped hinforming e rfl
    rcases List.mem_cons.mp hth with rfl | hmem
    · rw [hjob] at hj
      cases hj
    · exact List.mem_map.mpr ⟨th, hmem, hj⟩

theorem server_survives_first : ∃ (w : Kernel) (first th : Thread Process Stop Session),
    (server dottedQuads noNames).system.Reachable ⟨w, [first, th]⟩ ∧
      (∀ e, first.rest = .stop e → e = .fuel) ∧ ∀ e, th.rest = .stop e → e = .fuel := by
  obtain ⟨w, first, session, hreach, _, hnames, _⟩ :=
    first_session noNames 3 4 (by decide) (by decide) (by decide)
  have hsurvives := server_survives hreach (List.forall_mem_cons.mpr
    ⟨fun e he => (hnames e he).reportsInet, List.forall_mem_singleton.mpr nofun⟩)
  exact ⟨w, first, _, hreach, hsurvives _ List.mem_cons_self,
    hsurvives _ (List.mem_cons_of_mem _ List.mem_cons_self)⟩

end Sydn.Examples.EchoServer
