import Mathlib.Data.List.Forall2
import Sydn.Examples.Survival
import Sydn.Net.Ipv4Text

/-!
# What the server prints

The first thread prints the address that it listens on, and the thread of a session the
address of its peer, twice. While the kernel reports IPv4 addresses these are the texts of
what it reported, through every resize, copy and thread in between; the session of an
`accept` that failed prints the address that was never filled in.
-/

namespace Sydn.Examples.EchoServer

open Sydn.Found.DottedDecimal
open Sydn.Found.Interaction
open Sydn.Found.Threads
open Sydn.Mem (Byte)
open Sydn.Net
open Sydn.Net.Ipv4Address (Numeric)

/-- The texts that were printed, in their order. -/
def couts (t : List (Event Process)) : List (List Byte) :=
  t.filterMap fun e =>
    match e.call with
    | .cout text => some text
    | _ => none

def Silent : Action → Prop
  | .cout _ => False
  | _ => True

/-- The text of a `sockaddr_in`. -/
def nameText (name : SockName) : List Byte :=
  Ipv4Address.text (print ((name.bytes.drop offsetofSinAddr).take 4))
    (ntohs ((name.bytes.drop offsetofSinPort).take 2))

/-- The text for the peer of a session, by what its `accept` reported. -/
def peerText (r : Named) : List Byte :=
  if r.res = -1 then printAddressUnspec else nameText r.name

def sessionLines (peer : List Byte) : List (List Byte) :=
  [ascii "Started session with: ", peer, ascii ".\n",
    ascii "Ended session with: ", peer, ascii ".\n"]

def sizeLine : List (List Byte) :=
  [ascii "Size: ", ascii (toString sizeofConnectedSocket), ascii ".\n"]

def serverLine (address : List Byte) : List (List Byte) :=
  [ascii "Echoserver running on: ", address, ascii ".", ascii "\n"]

section Texts
variable {db : NetDb} {a : Address} {name : SockName} {r : Named}

theorem print_inet (hdb : Numeric db) (hname : IsInet name) (hbytes : a.bytes = name.bytes) :
    a.print db = some (nameText name) := by
  have hrecord := Ipv4Address.eq_record hname.1 hname.2
  have hlen : ((name.bytes.drop offsetofSinAddr).take 4).length = 4 := by
    have hlength : name.bytes.length = 16 := hname.1
    simp [hlength, offsetofSinAddr]
  have hpad : (name.bytes.drop 8).length = 8 := by
    have hlength : name.bytes.length = 16 := hname.1
    simp [hlength]
  rw [Ipv4Address.print_record hdb hlen hpad (hbytes.trans hrecord),
    Nat.mod_eq_of_lt (Ipv4Address.ntohs_lt _)]
  rfl

theorem Told.print (hdb : Numeric db) (h : Told r a) : a.print db = some (peerText r) := by
  cases h with
  | failed hres hfamily => rw [peerText, if_pos hres, Address.print, if_pos hfamily]
  | reported hres hname _ hbytes =>
    rw [peerText, if_neg hres]
    exact print_inet hdb hname hbytes

end Texts

/-! ## The lines of a program -/

/-- At every moment it has printed some of these lines, from the first one on. -/
def Prints {α : Type} (p : Code α) (lines : List (List Byte)) : Prop :=
  ∀ w t q, p.Leads alone w t q → couts t <+: lines

section Prints
variable {α β : Type} {t u : List (Event Process)} {lines : List (List Byte)}

theorem couts_append : couts (t ++ u) = couts t ++ couts u := List.filterMap_append

theorem couts_event (v : Trace) : couts (v.map posix.event) = [] := by
  unfold couts
  rw [List.filterMap_map]
  exact List.filterMap_eq_nil_iff.mpr fun _ _ => rfl

theorem couts_of_silent (h : ∀ e ∈ t, Silent e.call) : couts t = [] := by
  apply List.filterMap_eq_nil_iff.mpr
  rintro ⟨c, r⟩ he
  have hsilent := h _ he
  cases c with
  | cout => exact hsilent.elim
  | sys | cerr | thread | exit => rfl

theorem Prints.of_silent {p : Code α} (hp : p.Uses Silent) : Prints p lines := by
  intro w t q h
  rw [couts_of_silent (h.uses hp).1]
  exact List.nil_prefix

theorem Prints.cout {text : String} {f : Unit → Code β} (hf : Prints (f ()) lines) :
    Prints ((cout text).bind f) (ascii text :: lines) := by
  intro w t q h
  obtain rfl | ⟨v, rfl, hrest⟩ := leads_cout h
  · exact List.nil_prefix
  · exact List.cons_prefix_cons.mpr ⟨rfl, hf _ _ _ hrest⟩

theorem Prints.coutAddress {db : NetDb} {address : Address} {text : List Byte}
    (htext : address.print db = some text) {f : Unit → Code β} (hf : Prints (f ()) lines) :
    Prints ((coutAddress db address).bind f) (text :: lines) := by
  intro w t q h
  obtain rfl | ⟨text', v, htext', rfl, hrest⟩ := leads_coutAddress h
  · exact List.nil_prefix
  · obtain rfl := Option.some.inj (htext.symm.trans htext')
    exact List.cons_prefix_cons.mpr ⟨rfl, hf _ _ _ hrest⟩

theorem Prints.sys {p : Syscall α} {f : α → Code β}
    (hf : ∀ w u a, p.Run Kernel.env w u (.ok a) → Prints (f a) lines) :
    Prints ((sys p).bind f) lines := by
  intro w t q h
  obtain ⟨u, p', rfl, _⟩ | ⟨u, v, a, rfl, hu, hrest⟩ := leads_sys h
  · rw [couts_event]
    exact List.nil_prefix
  · rw [couts_append, couts_event]
    exact hf _ _ _ hu _ _ _ hrest

end Prints

theorem sys_silent {α : Type} (p : Syscall α) : (sys p).Uses Silent :=
  Prog.uses_within (fun _ _ => trivial) (Prog.uses_of_forall (fun _ => trivial) p)

theorem thread_prints {db : NetDb} {fuel : Nat} {content : Nat → Byte} {session : Session}
    {text : List Byte} (htext : session.d_address.print db = some text) :
    Prints (session.thread db fuel content) (sessionLines text) := by
  unfold Session.thread Session.run
  simp only [Prog.bind_eq, Prog.bind_assoc]
  refine Prints.cout (Prints.coutAddress htext (Prints.cout (Prints.sys ?_)))
  intro _ _ _ _
  refine Prints.cout (Prints.coutAddress htext (Prints.cout ?_))
  exact Prints.of_silent (sys_silent _)

theorem loop_silent {β : Type} {f : Int → Code β} (hf : ∀ status, (f status).Uses Silent)
    (fuel : Nat) (listenSocket : ListenSocket) :
    ((Prog.loop .fuel Server.turn fuel listenSocket).bind f).Uses Silent := by
  refine Prog.uses_bind (Prog.uses_loop ?_ fuel listenSocket) hf
  intro s
  exact Prog.uses_bind (sys_silent _) fun _ => ⟨trivial, fun _ => trivial⟩

/-- The rest of the first thread, once it listens. -/
theorem listening_prints {db : NetDb} {text : List Byte} {listenSocket : ListenSocket}
    (htext : ∀ w u a, listenSocket.d_local_address.copy.Run Kernel.env w u (.ok a) →
      a.print db = some text)
    {f : Code Unit} (hf : f.Uses Silent) :
    Prints ((cout "Echoserver running on: ").bind fun _ =>
      (sys listenSocket.local_address).bind fun local_address =>
        (coutAddress db local_address).bind fun _ =>
          (cout ".").bind fun _ => (cout "\n").bind fun _ => f) (serverLine text) := by
  refine Prints.cout (Prints.sys ?_)
  intro w u a hcopy
  exact Prints.coutAddress (htext w u a hcopy) (Prints.cout (Prints.cout (Prints.of_silent hf)))

/-- It was told an address, the text of which it has printed so far as it got. -/
def Listens (t : List (Event Process)) : Prop :=
  ∃ fd b r, ⟨.getsockname fd b, r⟩ ∈ calls t ∧ r.res ≠ -1 ∧
    couts t <+: serverLine (nameText r.name)

theorem run_listens {server : Server} {db : NetDb} {fuel : Nat} {f : Int → Code Unit}
    (hf : ∀ status, (f status).Uses Silent) (hdb : Numeric db)
    (hsize : server.d_serverAddress.size = sizeofSockaddrIn) {w : Kernel}
    {t : List (Event Process)} {q : Code Unit}
    (h : ((server.run db fuel).bind f).Leads alone w t q)
    (hinet : ∀ e ∈ calls t, ReportsInet e) : couts t = [] ∨ Listens t := by
  unfold Server.run at h
  simp only [Prog.bind_eq, Prog.bind_assoc] at h
  obtain ⟨u, p', rfl, _⟩ | ⟨u, v, listenSocket, rfl, hlisten, hrest⟩ := leads_sys h
  · exact Or.inl (couts_event u)
  rw [calls_append, calls_event] at hinet
  have hcouts : couts (u.map posix.event ++ v) = couts v := by
    rw [couts_append, couts_event]
    rfl
  rw [hcouts]
  split at hrest
  · refine Or.inl (couts_of_silent (hrest.uses ?_).1)
    simp only [Prog.bind_assoc]
    refine Prog.uses_bind ⟨trivial, fun _ => trivial⟩ ?_
    intro _
    exact Prog.uses_bind (sys_silent _) fun _ => hf 1
  · rename_i hokay
    simp only [Prog.bind_assoc] at hrest
    obtain ⟨_, fd, b, r, hmem, hres, hname, hbytes⟩ := construct_told hsize hlisten
      (List.forall_mem_append.mp hinet).1 (by simpa using hokay)
    refine Or.inr ⟨fd, b, r, ?_, hres, ?_⟩
    · rw [calls_append, calls_event]
      exact List.mem_append_left _ hmem
    · rw [hcouts]
      refine listening_prints ?_ (loop_silent hf fuel listenSocket) _ _ _ hrest
      intro w u a hcopy
      obtain ⟨_, hcopied⟩ := Address.run_copy hcopy
      exact print_inet hdb hname (hcopied.trans hbytes)

/-- What the first thread has printed: a second line only with the address it was told. -/
def Opens (t : List (Event Process)) : Prop :=
  couts t <+: sizeLine ∨ ∃ fd b r, ⟨.getsockname fd b, r⟩ ∈ calls t ∧ r.res ≠ -1 ∧
    couts t <+: sizeLine ++ serverLine (nameText r.name)

/-- The line with the size comes before. -/
theorem Opens.of_rest {t u : List (Event Process)} (ht : couts t = sizeLine)
    (h : couts u = [] ∨ Listens u) : Opens (t ++ u) := by
  unfold Opens
  rw [couts_append, ht, calls_append]
  rcases h with hnone | ⟨fd, b, r, hmem, hres, hprefix⟩
  · have hsize : sizeLine ++ couts u = sizeLine := by rw [hnone, List.append_nil]
    exact Or.inl ⟨[], (List.append_nil _).trans hsize⟩
  · refine Or.inr ⟨fd, b, r, List.mem_append_right _ hmem, hres, ?_⟩
    exact (List.prefix_append_right_inj _).mpr hprefix

theorem main_opens {inet : Inet} {db : NetDb} {fuel : Nat} (hdb : Numeric db) {w : Kernel}
    {t : List (Event Process)} {q : Code Unit} (h : (main inet db fuel).Leads alone w t q)
    (hinet : ∀ e ∈ calls t, ReportsInet e) : Opens t := by
  unfold main at h
  simp only [Prog.bind_eq] at h
  obtain rfl | ⟨t₁, rfl, h₁⟩ := leads_cout h
  · exact Or.inl List.nil_prefix
  obtain rfl | ⟨t₂, rfl, h₂⟩ := leads_cout h₁
  · exact Or.inl (List.prefix_append [_] _)
  obtain rfl | ⟨t₃, rfl, h₃⟩ := leads_cout h₂
  · exact Or.inl (List.prefix_append [_, _] _)
  refine Opens.of_rest (t := [⟨.cout (ascii "Size: "), ()⟩,
    ⟨.cout (ascii (toString sizeofConnectedSocket)), ()⟩, ⟨.cout (ascii ".\n"), ()⟩]) rfl ?_
  obtain ⟨u, p', rfl, _⟩ | ⟨u, v, server, rfl, hserver, hrest⟩ := leads_sys h₃
  · exact Or.inl (couts_event u)
  · rw [couts_append, couts_event, List.nil_append]
    have hexit : ∀ status, (Prog.ask (S := Process) (.exit status) : Code Unit).Uses Silent :=
      fun _ => ⟨trivial, fun _ => trivial⟩
    have hv : ∀ e ∈ calls v, ReportsInet e := by
      intro e he
      apply hinet
      rw [calls_cout, calls_cout, calls_cout, calls_append]
      exact List.mem_append_right _ he
    rcases run_listens hexit hdb (server_construct_address hserver).1 hrest hv with
      hnone | ⟨fd, b, r, hmem, hres, hprefix⟩
    · exact Or.inl hnone
    · refine Or.inr ⟨fd, b, r, ?_, hres, ?_⟩
      · rw [calls_append]
        exact List.mem_append_right _ hmem
      · rw [couts_append, couts_event, List.nil_append]
        exact hprefix

/-- **What the server prints.** While the kernel reports IPv4 addresses, the first thread
prints on `std::cout` the address that it was told after it began to listen, and the thread
of each session the peer that its own `accept` reported, where that failed an unspecified
address, first when it starts and again when it has ended; at every moment of every
interleaving these lines so far as the thread has come, and no others there. What goes to
`std::cerr` when the server cannot listen is not among them. -/
theorem server_prints {inet : Inet} {db : NetDb} (hdb : Numeric db)
    {σ : State Process Stop Kernel Session} (h : (server inet db).system.Reachable σ)
    (hinet : ∀ th ∈ σ.threads, ∀ e ∈ calls th.past, ReportsInet e) :
    ∃ (first : Thread Process Stop Session) (others : List (Thread Process Stop Session)),
      σ.threads = first :: others ∧ Opens first.past ∧
      ∃ answers pending, pending.length ≤ 1 ∧ accepts (calls first.past) = answers ++ pending ∧
        List.Forall₂ (fun r th => couts th.past <+: sessionLines (peerText r)) answers others := by
  have hmeets : Meets ReportsInet (fun r session => Told r session.d_address)
      fun this => this.d_local_address.size = sizeofSockaddrIn := by
    constructor
    · intro inet server w w' u v this hserver hlisten hv hokay
      exact (construct_told (server_construct_address hserver).1 hlisten hv hokay).1
    · intro this w v x hsize hrun hv
      obtain ⟨_, hx, hsize', r, haccepts, htold⟩ := accept_told hsize hrun hv
      obtain rfl := Except.ok.inj hx
      exact ⟨hsize', r, haccepts, htold⟩
  have halone := (Separation.separate (server_keeps inet db) h).alone
  obtain ⟨first, others, hthreads, hjob, ⟨answers, pending, hlength, hsplit, hmatched⟩, _⟩ :=
    answered hmeets h hinet
  have hfirst : first ∈ σ.threads := by
    rw [hthreads]
    exact List.mem_cons_self
  refine ⟨first, others, hthreads, ?_, answers, pending, hlength, hsplit, ?_⟩
  · obtain ⟨p, hp, hleads⟩ := halone first hfirst
    rw [hjob] at hp hleads
    obtain ⟨fuel, rfl⟩ := hp
    exact main_opens hdb hleads (hinet first hfirst)
  · have hothers : ∀ th ∈ others, th ∈ σ.threads := by
      intro th hth
      rw [hthreads]
      exact List.mem_cons_of_mem _ hth
    have hboth := (List.forall₂_and_left others answers).mpr ⟨hothers, hmatched.flip⟩
    refine (hboth.imp ?_).flip
    rintro th r ⟨hth, session, hsession, htold⟩
    obtain ⟨p, hp, hleads⟩ := halone th hth
    rw [hsession] at hp hleads
    obtain ⟨fuel, content, rfl⟩ := hp
    exact thread_prints (htold.print hdb) _ _ _ hleads

theorem couts_greeted (k : Int) (text : List Byte) :
    couts (greeted k text) = sessionLines text := by
  unfold greeted
  rw [couts_append, couts_append, couts_append, couts_event, couts_event]
  rfl

/-- What a session does reports no address. -/
theorem greeted_inet (k : Int) (text : List Byte) :
    ∀ e ∈ calls (greeted k text), ReportsInet e := by
  rw [calls_greeted]
  refine List.forall_mem_append.mpr ⟨by simp [greeting, ReportsInet], ?_⟩
  unfold closing
  split <;> simp [ReportsInet]

/-- A session that has come to its end has printed its peer twice. -/
theorem server_prints_first : ∃ (first th : Thread Process Stop Session) (r : Named)
    (pending : List Named), accepts (calls first.past) = r :: pending ∧ r.res = 4 ∧
      nameText peer = ascii "10.0.0.1:8000" ∧ Opens first.past ∧
        couts th.past = sessionLines (nameText peer) := by
  obtain ⟨w, first, session, text, hreach, hfd, hnames⟩ := first_echo numericNames
    3 4 (by decide) (by decide) (by decide)
  obtain ⟨first', others, hthreads, hopens, answers, pending, _, hsplit, hmatched⟩ :=
    server_prints numeric_names hreach (List.forall_mem_cons.mpr
      ⟨fun e he => (hnames e he).reportsInet, List.forall_mem_singleton.mpr (greeted_inet 4 text)⟩)
  obtain ⟨rfl, rfl⟩ := List.cons.inj hthreads
  obtain ⟨_, _, hthreads', _, ⟨answers', _, _, hsplit', hmet⟩, _⟩ :=
    answered descriptors_meet hreach fun _ _ _ _ => trivial
  obtain ⟨rfl, rfl⟩ := List.cons.inj hthreads'
  cases hmatched with
  | @cons r th answers _ hprefix _ =>
    cases hmet with
    | @cons r' th answers' _ hdescriptor _ =>
      obtain ⟨_, hjob, hres⟩ := hdescriptor
      obtain rfl := Option.some.inj hjob
      obtain ⟨rfl, _⟩ := List.cons.inj (hsplit.symm.trans hsplit')
      have hmem : r ∈ accepts (calls first.past) := by
        rw [hsplit]
        exact List.mem_cons_self
      have hname : r.name = peer := by
        obtain ⟨⟨c, r'⟩, he, haccept⟩ := List.mem_filterMap.mp hmem
        cases c with
        | accept =>
          obtain rfl := Option.some.inj haccept
          exact hnames _ he
        | socket | bind | connect | listen | getsockname | read | write | close | new =>
          cases haccept
      have hfour : r.res = 4 := hres.symm.trans hfd
      have hpeer : peerText r = nameText peer := by
        rw [peerText, hfour, hname, if_neg (by decide)]
      have hlines := hprefix.eq_of_length (by rw [couts_greeted]; rfl)
      rw [hpeer] at hlines
      exact ⟨first, _, r, _, hsplit, hfour, by decide, hopens, hlines⟩

end Sydn.Examples.EchoServer
