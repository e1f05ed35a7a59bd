import Sydn.Examples.Sessions

/-!
# The turns of the server

The first thread gives each `accept` a session with a thread of its own, in order, and
does not look whether the call succeeded. It only ends where the server could not listen.
-/

namespace Sydn.Examples.EchoServer

open Sydn.Found.Interaction
open Sydn.Found.Threads
open Sydn.Mem (Byte)
open Sydn.Net

/-- The answers of the calls of `accept`, in their order. -/
def accepted (t : List (Event Process)) : List Named := accepts (calls t)

/-- The sessions that were given a thread. -/
def sessions (t : List (Event Process)) : List Session :=
  t.filterMap fun e =>
    match e.call with
    | .thread session => some session
    | _ => none

/-- Every `accept` has had its session, but for the last one at most. -/
def Matched (R : Named → Session → Prop) (t : List (Event Process)) : Prop :=
  ∃ answers pending, pending.length ≤ 1 ∧ accepted t = answers ++ pending ∧
    List.Forall₂ R answers (sessions t)

/-- And a process that ends has accepted nothing. -/
structure Paired (R : Named → Session → Prop) (t : List (Event Process)) : Prop where
  matched : Matched R t
  exits : ∀ e ∈ t, ∀ status, e.call = .exit status → status = 1 ∧ accepted t = []

/-- As long as the answers meet `P`, it has had no other sessions than `R` allows. -/
def Pairs {α : Type} (P : Event Posix → Prop) (R : Named → Session → Prop) (p : Code α) : Prop :=
  ∀ w t q, p.Leads alone w t q → (∀ e ∈ calls t, P e) → Paired R t

/-- While the answers meet `P`, the listening socket meets `I` and the session of an `accept`
meets `R`. -/
structure Meets (P : Event Posix → Prop) (R : Named → Session → Prop)
    (I : ListenSocket → Prop) : Prop where
  listens : ∀ {inet : Inet} {server : Server} {w w' : Kernel} {u v : Trace} {this : ListenSocket},
    (Server.construct inet).Run Kernel.env w u (.ok server) →
    (ListenSocket.construct .Stream server.d_serverAddress).Run Kernel.env w' v (.ok this) →
    (∀ e ∈ v, P e) → this.okay = true → I this
  accepts : ∀ {this : ListenSocket} {w : Kernel} {v : Trace}
    {x : ListenSocket × ConnectedSocket × Address}, I this →
    (this.acceptWithAddress {} Address.init).Run Kernel.env w v (.ok x) → (∀ e ∈ v, P e) →
    I x.1 ∧ ∃ r, Net.accepts v = [r] ∧ R r { d_socket := x.2.1, d_address := x.2.2 }

section Pairs
variable {α β : Type} {t u : List (Event Process)} {f : α → Code β}
variable {P : Event Posix → Prop} {R : Named → Session → Prop}

theorem accepted_append : accepted (t ++ u) = accepted t ++ accepted u := by
  unfold accepted
  rw [calls_append, accepts_append]

theorem accepted_event (v : Trace) : accepted (v.map posix.event) = accepts v := by
  rw [accepted, calls_event]

theorem sessions_append : sessions (t ++ u) = sessions t ++ sessions u := List.filterMap_append

theorem sessions_event (v : Trace) : sessions (v.map posix.event) = [] := by
  unfold sessions
  rw [List.filterMap_map]
  exact List.filterMap_eq_nil_iff.mpr fun _ _ => rfl

theorem not_exit_event (v : Trace) : ∀ e ∈ v.map posix.event, ∀ status, e.call ≠ .exit status := by
  intro e he status
  obtain ⟨e', _, rfl⟩ := List.mem_map.mp he
  exact Action.noConfusion

theorem Paired.nil : Paired R [] := ⟨⟨[], [], Nat.zero_le _, rfl, .nil⟩, nofun⟩

/-- What neither accepts nor starts a session nor ends the process goes before anything. -/
theorem Paired.after (haccepted : accepted u = []) (hsessions : sessions u = [])
    (hexit : ∀ e ∈ u, ∀ status, e.call ≠ .exit status) (h : Paired R t) : Paired R (u ++ t) := by
  constructor
  · obtain ⟨answers, pending, hlength, hsplit, hmatched⟩ := h.matched
    refine ⟨answers, pending, hlength, ?_, ?_⟩
    · rw [accepted_append, haccepted]
      exact hsplit
    · rw [sessions_append, hsessions]
      exact hmatched
  · intro e he status hstatus
    rcases List.mem_append.mp he with he | he
    · exact absurd hstatus (hexit e he status)
    · rw [accepted_append, haccepted]
      exact h.exits e he status hstatus

theorem accepts_of_uses {v : Trace} (h : ∀ e ∈ v, NoAccept e.call) : accepts v = [] := by
  induction v with
  | nil => rfl
  | cons e v ih =>
    obtain ⟨he, hv⟩ := List.forall_mem_cons.mp h
    obtain ⟨c, r⟩ := e
    cases c with
    | accept => exact he.elim
    | socket | bind | connect | listen | getsockname | read | write | close | new => exact ih hv

theorem Paired.after_event {v : Trace} (hv : ∀ e ∈ v, NoAccept e.call) (h : Paired R t) :
    Paired R (v.map posix.event ++ t) := by
  refine Paired.after ?_ (sessions_event v) (not_exit_event v) h
  rw [accepted_event, accepts_of_uses hv]

theorem Paired.after_cout {text : List Byte} (h : Paired R t) :
    Paired R (⟨.cout text, ()⟩ :: t) :=
  h.after (u := [⟨.cout text, ()⟩]) rfl rfl (by simp)

theorem Pairs.sys {p : Syscall α} (hp : p.Uses NoAccept)
    (hf : ∀ w v a, p.Run Kernel.env w v (.ok a) → (∀ e ∈ v, P e) → Pairs P R (f a)) :
    Pairs P R ((sys p).bind f) := by
  intro w t q h hP
  obtain ⟨u, p', rfl, hu⟩ | ⟨u, v, a, rfl, hu, hrest⟩ := leads_sys h
  · have hpaired := Paired.nil.after_event (R := R) (hu.uses hp).1
    rw [List.append_nil] at hpaired
    exact hpaired
  · rw [calls_append, calls_event] at hP
    obtain ⟨hPu, hPv⟩ := List.forall_mem_append.mp hP
    exact (hf _ _ _ hu hPu _ _ _ hrest hPv).after_event ((Prog.Leads.of_run hu).uses hp).1

theorem Pairs.cout {text : String} {f : Unit → Code β} (hf : Pairs P R (f ())) :
    Pairs P R ((cout text).bind f) := by
  intro w t q h hP
  obtain rfl | ⟨v, rfl, hrest⟩ := leads_cout h
  · exact Paired.nil
  · exact (hf _ _ _ hrest hP).after_cout

theorem Pairs.coutAddress {db : NetDb} {address : Address} {f : Unit → Code β}
    (hf : Pairs P R (f ())) : Pairs P R ((coutAddress db address).bind f) := by
  intro w t q h hP
  obtain rfl | ⟨_, v, _, rfl, hrest⟩ := leads_coutAddress h
  · exact Paired.nil
  · exact (hf _ _ _ hrest hP).after_cout

theorem Pairs.cerr {error : ErrorCondition} {f : Unit → Code β} (hf : Pairs P R (f ())) :
    Pairs P R ((EchoServer.cerr error).bind f) := by
  intro w t q h hP
  obtain ⟨rfl, _⟩ | ⟨_, v, rfl, _, hrest⟩ := h.of_call
  · exact Paired.nil
  · exact (hf _ _ _ hrest hP).after (u := [⟨.cerr error, ()⟩]) rfl rfl (by simp)

theorem Pairs.exit : Pairs P R (Prog.ask (S := Process) (.exit 1) : Code Unit) := by
  intro w t q h _
  obtain ⟨rfl, _⟩ | ⟨_, v, rfl, _, hrest⟩ := h.of_call
  · exact Paired.nil
  · obtain ⟨rfl, _⟩ := hrest.of_ret
    refine ⟨⟨[], [], Nat.zero_le _, rfl, .nil⟩, ?_⟩
    intro e he status hstatus
    obtain rfl := List.mem_singleton.mp he
    exact ⟨(Action.exit.inj hstatus).symm, rfl⟩

end Pairs

/-! ## The first thread -/

section Uses

theorem closeHeld_noAccept (d_fd : Int) : (closeHeld d_fd).Uses NoAccept := by
  unfold closeHeld
  split
  · trivial
  · exact ⟨trivial, fun _ => trivial⟩

end Uses

section Loop
variable {w : Kernel} {listenSocket : ListenSocket}
variable {P : Event Posix → Prop} {R : Named → Session → Prop} {I : ListenSocket → Prop}

/-- There is one `accept` in each call of the function. -/
theorem accepts_of_accept {address : Address} {v : Trace}
    {o : Except Stop (ListenSocket × ConnectedSocket × Address)}
    (hrun : (listenSocket.acceptWithAddress {} address).Run Kernel.env w v o) :
    ∃ r, accepts v = [r] ∧ ∀ x, o = .ok x → x.2.1.d_fd = r.res := by
  obtain ⟨o', hbody, rfl⟩ := Prog.run_mapped.mp hrun
  obtain ⟨content, r, a, _, _, hcases⟩ :=
    (run_acceptAddressFd listenSocket.d_local_address.size_ok).mp hbody
  refine ⟨r, ?_, ?_⟩
  · rcases hcases with ⟨_, rfl, _⟩ | ⟨_, u, rfl, ⟨_, rfl, _⟩ | ⟨_, content', rfl, _⟩⟩
    · rw [accepts_append, accepts_growth, accepts_accept]
      rfl
    · rw [accepts_append, accepts_growth, accepts_accept, accepts_append, accepts_closing]
      rfl
    · rw [accepts_append, accepts_growth, accepts_accept, accepts_append, accepts_closing,
        accepts_growth]
      rfl
  · intro x hx
    rcases hcases with ⟨hres, _, rfl⟩ | ⟨_, _, _, ⟨_, _, rfl⟩ | ⟨_, _, _, rfl⟩⟩
    · obtain rfl := Except.ok.inj hx
      exact hres.symm
    · cases hx
    · obtain rfl := Except.ok.inj hx
      rfl

/-- The session of an `accept` has the descriptor that it returned. -/
theorem descriptors_meet :
    Meets (fun _ => True) (fun r session => session.d_socket.d_fd = r.res) fun _ => True := by
  refine ⟨fun _ _ _ _ => trivial, ?_⟩
  intro this w v x _ hrun _
  obtain ⟨r, haccepts, hfd⟩ := accepts_of_accept hrun
  exact ⟨trivial, r, haccepts, hfd x rfl⟩

/-- A turn that is done has given its `accept` a session. -/
theorem turn_paired (hmeets : Meets P R I) (hI : I listenSocket) {t : List (Event Process)}
    {x : ListenSocket ⊕ Int} (hrun : (Server.turn listenSocket).Run alone w t (.ok x))
    (hP : ∀ e ∈ calls t, P e) :
    (∃ listenSocket', x = .inl listenSocket' ∧ I listenSocket') ∧
      (∃ r session, accepted t = [r] ∧ sessions t = [session] ∧ R r session) ∧
        ∀ e ∈ t, ∀ status, e.call ≠ .exit status := by
  obtain ⟨u, v, y, rfl, haccept, hrest⟩ | ⟨_, hx, _⟩ := Prog.run_bind.mp hrun
  · obtain ⟨v', rfl, hrun'⟩ := (run_within alone_extends).mp haccept
    obtain ⟨_, _, rfl, _, rfl, hx⟩ := hrest
    rw [calls_append, calls_event] at hP
    obtain ⟨hI', r, haccepts, hR⟩ :=
      hmeets.accepts hI hrun' (List.forall_mem_append.mp hP).1
    refine ⟨⟨_, Except.ok.inj hx, hI'⟩, ⟨r, _, ?_, ?_, hR⟩, ?_⟩
    · rw [accepted_append, accepted_event, haccepts]
      rfl
    · rw [sessions_append, sessions_event]
      rfl
    · intro e he
      rcases List.mem_append.mp he with he | he
      · exact not_exit_event v' e he
      · obtain rfl := List.mem_singleton.mp he
        exact fun _ => Action.noConfusion
  · cases hx

/-- The first thread in the midst of its loop. -/
structure Ongoing (R : Named → Session → Prop) (t : List (Event Process)) : Prop where
  matched : Matched R t
  goes_on : ∀ e ∈ t, ∀ status, e.call ≠ .exit status

theorem turn_ongoing (hmeets : Meets P R I) (hI : I listenSocket) {t : List (Event Process)}
    {q : Code (ListenSocket ⊕ Int)} (h : (Server.turn listenSocket).Leads alone w t q)
    (hP : ∀ e ∈ calls t, P e) : Ongoing R t := by
  have hone : ∀ {v : Trace} {p'}, (listenSocket.acceptWithAddress {} Address.init).Leads
      Kernel.env w v p' → Ongoing R (v.map posix.event) := by
    intro v p' hleads
    obtain ⟨v', o, hrun⟩ := hleads.extends kernel_answers
    obtain ⟨r, haccepts, _⟩ := accepts_of_accept hrun
    have hlength := congrArg List.length haccepts
    rw [accepts_append, List.length_append, List.length_singleton] at hlength
    refine ⟨⟨[], accepts v, by omega, accepted_event v, ?_⟩, not_exit_event v⟩
    rw [sessions_event]
    exact .nil
  obtain ⟨u, p', rfl, hu⟩ | ⟨u, v, x, rfl, hu, hrest⟩ := leads_sys h
  · exact hone hu
  · obtain ⟨rfl, _⟩ | ⟨_, v', rfl, _, hret⟩ := hrest.of_call
    · rw [List.append_nil]
      exact hone (.of_run hu)
    · obtain ⟨rfl, rfl⟩ := hret.of_ret
      obtain ⟨_, ⟨r, session, haccepted, hsessions, hR⟩, hexit⟩ :=
        turn_paired hmeets hI h.run_ret hP
      refine ⟨⟨[r], [], Nat.zero_le _, haccepted, ?_⟩, hexit⟩
      rw [hsessions]
      exact .cons hR .nil

/-- The induction over the turns: those that are done are paired, and the loop goes on. -/
theorem loop_ongoing (hmeets : Meets P R I) (hI : I listenSocket) {β : Type} {f : Int → Code β}
    {n : Nat} {t : List (Event Process)} {q : Code β}
    (h : ((Prog.loop .fuel Server.turn n listenSocket).bind f).Leads alone w t q)
    (hP : ∀ e ∈ calls t, P e) : Ongoing R t := by
  induction n generalizing w listenSocket t with
  | zero =>
    rw [h.of_stop.1]
    exact ⟨Paired.nil.matched, nofun⟩
  | succ n ih =>
    rw [Prog.loop, Prog.bind_assoc] at h
    obtain ⟨p', hp', _⟩ | ⟨u, v, x, rfl, hrun, hrest⟩ := h.of_bind
    · exact turn_ongoing hmeets hI hp' hP
    · rw [calls_append] at hP
      obtain ⟨hPu, hPv⟩ := List.forall_mem_append.mp hP
      obtain ⟨⟨_, rfl, hI'⟩, ⟨r, session, haccepted, hsessions, hR⟩, hexit⟩ :=
        turn_paired hmeets hI hrun hPu
      obtain ⟨⟨answers, pending, hlength, hsplit, hmatched⟩, hgoes⟩ := ih hI' hrest hPv
      refine ⟨⟨r :: answers, pending, hlength, ?_, ?_⟩, List.forall_mem_append.mpr ⟨hexit, hgoes⟩⟩
      · rw [accepted_append, haccepted, hsplit]
        rfl
      · rw [sessions_append, hsessions]
        exact .cons hR hmatched

theorem main_pairs (hmeets : Meets P R I) (inet : Inet) (db : NetDb) (fuel : Nat) :
    Pairs P R (main inet db fuel) := by
  unfold main Server.run
  simp only [Prog.bind_eq, Prog.bind_assoc]
  apply Pairs.cout
  apply Pairs.cout
  apply Pairs.cout
  refine Pairs.sys (Prog.uses_mono noAccept_of_isNew (server_construct_new inet)) ?_
  intro w₁ u server hserver _
  refine Pairs.sys (construct_noAccept _ _) ?_
  intro w₂ v listenSocket hlisten hP
  split
  · apply Pairs.cerr
    simp only [Prog.bind_assoc]
    refine Pairs.sys (closeHeld_noAccept _) ?_
    intro _ _ _ _ _
    exact Pairs.exit
  · rename_i hokay
    have hI := hmeets.listens hserver hlisten hP (by simpa using hokay)
    simp only [Prog.bind_assoc]
    apply Pairs.cout
    refine Pairs.sys (Prog.uses_mono noAccept_of_isNew (copy_new _)) ?_
    intro w₃ _ local_address _ _
    apply Pairs.coutAddress
    apply Pairs.cout
    apply Pairs.cout
    intro w t q h hP
    obtain ⟨hmatched, hgoes⟩ := loop_ongoing hmeets hI h hP
    exact ⟨hmatched, fun e he status hstatus => absurd hstatus (hgoes e he status)⟩

end Loop

theorem started_eq (inet : Inet) (db : NetDb) (t : List (Event Process)) :
    (server inet db).started t = sessions t := rfl

/-- A session starts no other. -/
theorem body_starts {inet : Inet} {db : NetDb} (session : Session) (p : Code Unit)
    (hp : (server inet db).body (some session) p) :
    p.Uses fun c => (server inet db).starts c = none := by
  obtain ⟨fuel, content, rfl⟩ := hp
  refine Prog.uses_mono ?_ (thread_settled db fuel content session)
  intro c hc
  cases c with
  | thread => exact hc.elim
  | sys | cout | cerr | exit => rfl

/-- What is related to the sessions is related to the threads that were given them. -/
theorem forall₂_job {R : Named → Session → Prop} {answers : List Named} {served : List Session}
    {others : List (Thread Process Stop Session)} (h : List.Forall₂ R answers served)
    (hjobs : others.map Thread.job = served.map some) :
    List.Forall₂ (fun r th => ∃ session, th.job = some session ∧ R r session)
      answers others := by
  induction h generalizing others with
  | nil =>
    obtain rfl := List.map_eq_nil_iff.mp hjobs
    exact .nil
  | cons hR _ ih =>
    obtain ⟨th, others, rfl, hjob, hrest⟩ := List.map_eq_cons_iff.mp hjobs
    exact .cons ⟨_, hjob, hR⟩ (ih hrest)

/-- The threads of the sessions with the answers of `accept` that they were started for. -/
theorem answered {P : Event Posix → Prop} {R : Named → Session → Prop} {I : ListenSocket → Prop}
    (hmeets : Meets P R I) {inet : Inet} {db : NetDb} {σ : State Process Stop Kernel Session}
    (h : (server inet db).system.Reachable σ) (hP : ∀ th ∈ σ.threads, ∀ e ∈ calls th.past, P e) :
    ∃ (first : Thread Process Stop Session) (others : List (Thread Process Stop Session)),
      σ.threads = first :: others ∧ first.job = none ∧
      (∃ answers pending, pending.length ≤ 1 ∧ accepts (calls first.past) = answers ++ pending ∧
        List.Forall₂ (fun r th => ∃ session, th.job = some session ∧ R r session)
          answers others) ∧
      ∀ e ∈ first.past, ∀ status, e.call = .exit status → status = 1 ∧ others = [] := by
  obtain ⟨first, others, hthreads, hjob, hjobs, _⟩ := jobs_started body_starts h
  rw [started_eq] at hjobs
  have hfirst : first ∈ σ.threads := by
    rw [hthreads]
    exact List.mem_cons_self
  have halone := (Separation.separate (server_keeps inet db) h).alone first hfirst
  obtain ⟨job, past, rest⟩ := first
  obtain rfl : job = none := hjob
  obtain ⟨_, ⟨fuel, rfl⟩, hleads⟩ := halone
  obtain ⟨⟨answers, pending, hlength, hsplit, hmatched⟩, hexits⟩ :=
    main_pairs hmeets inet db fuel _ _ _ hleads (hP _ hfirst)
  have hothers := forall₂_job hmatched hjobs
  refine ⟨_, others, hthreads, rfl, ⟨answers, pending, hlength, hsplit, hothers⟩, ?_⟩
  intro e he status hstatus
  obtain ⟨hone, hnone⟩ := hexits e he status hstatus
  obtain rfl := (List.append_eq_nil_iff.mp (hsplit.symm.trans hnone)).1
  cases hothers with
  | nil => exact ⟨hone, rfl⟩

/-- **One session for each `accept`.** At every moment the threads of the sessions are those
of the calls of `accept` so far, in order and with the descriptor each returned, `-1` where
it failed; the last one may not be started yet. `main` returns only with status 1, and only
where no session was ever started. -/
theorem session_each {inet : Inet} {db : NetDb} {σ : State Process Stop Kernel Session}
    (h : (server inet db).system.Reachable σ) :
    ∃ (first : Thread Process Stop Session) (others : List (Thread Process Stop Session)),
      σ.threads = first :: others ∧ first.job = none ∧
      (∃ answers pending, pending.length ≤ 1 ∧ accepts (calls first.past) = answers ++ pending ∧
        List.Forall₂ (fun r th => ∃ session, th.job = some session ∧
          session.d_socket.d_fd = r.res) answers others) ∧
      ∀ e ∈ first.past, ∀ status, e.call = .exit status → status = 1 ∧ others = [] := by
  exact answered descriptors_meet h fun _ _ _ _ => trivial

theorem session_each_first : ∃ (first : Thread Process Stop Session) (session : Session)
    (r : Named) (pending : List Named), accepts (calls first.past) = r :: pending ∧ r.res = 4 ∧
      session.d_socket.d_fd = 4 := by
  obtain ⟨w, first, session, hreach, hfd, _⟩ :=
    first_session noNames 3 4 (by decide) (by decide) (by decide)
  obtain ⟨first', others, hthreads, _, ⟨answers, pending, _, hsplit, hmatched⟩, _⟩ :=
    session_each hreach
  obtain ⟨rfl, rfl⟩ := List.cons.inj hthreads
  cases hmatched with
  | cons hmet _ =>
    obtain ⟨session', hjob, hres⟩ := hmet
    obtain rfl := Option.some.inj hjob
    exact ⟨first, session, _, _, hsplit, hres.symm.trans hfd, hfd⟩

end Sydn.Examples.EchoServer
