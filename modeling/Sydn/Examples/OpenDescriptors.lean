import Mathlib.Data.Set.Card
import Sydn.Examples.Turns
import Sydn.Net.Connecting

/-!
# What the server has open

The descriptors of a thread, from what it has done so far: the first one has that on which
it listens and that of an `accept` whose session it has not started, and a session has its
own until it has ended.
-/

namespace Sydn.Examples.EchoServer

open Sydn.Found.Interaction
open Sydn.Found.Ownership
open Sydn.Found.Threads
open Sydn.Mem (Byte)
open Sydn.Net

/-- Such a call changes nothing of what is open, nor of the pairing. -/
def Idle : Action → Prop
  | .sys c => c.Neutral
  | .thread _ => False
  | .cout _ | .cerr _ | .exit _ => True

/-- The answers of `accept` that have no session so far. -/
def waiting (t : List (Event Process)) : List Named := (accepted t).drop (sessions t).length

def descriptors (answers : List Named) : Set Int := {fd | ∃ r ∈ answers, held r.res = some fd}

/-- The thread has not ended. -/
def running (th : Thread Process Stop Session) : Bool :=
  match th.rest with
  | .ret _ => false
  | _ => true

/-- The descriptor that a session was started with. -/
def descriptorOf (th : Thread Process Stop Session) : Int :=
  match th.job with
  | some session => session.d_socket.d_fd
  | none => -1

section Idle
variable {α β : Type} {w : Kernel} {t u : List (Event Process)} {d : Option Int}

theorem later_idle (h : ∀ e ∈ t, Idle e.call) : alone.later w t = w := by
  induction t generalizing w with
  | nil => rfl
  | cons e t ih =>
    obtain ⟨he, ht⟩ := List.forall_mem_cons.mp h
    have hafter : alone.after w e.call e.answer = w := by
      obtain ⟨c, r⟩ := e
      cases c with
      | sys c => exact w.after_neutral he r
      | thread => exact he.elim
      | cout | cerr | exit => rfl
    rw [Env.later_cons, hafter, ih ht]

theorem paired_idle (h : ∀ e ∈ t, Idle e.call) : accepted t = [] ∧ sessions t = [] := by
  induction t with
  | nil => exact ⟨rfl, rfl⟩
  | cons e t ih =>
    obtain ⟨he, ht⟩ := List.forall_mem_cons.mp h
    obtain ⟨haccepted, hsessions⟩ := ih ht
    obtain ⟨c, r⟩ := e
    match c, r, he with
    | .sys (.bind ..), _, _ | .sys (.connect ..), _, _ | .sys (.listen ..), _, _
    | .sys (.getsockname ..), _, _ | .sys (.read ..), _, _ | .sys (.write ..), _, _
    | .sys (.new _), _, _ | .cout _, _, _ | .cerr _, _, _ | .exit _, _, _ =>
      exact ⟨haccepted, hsessions⟩

/-- What is open is `d` and what waits for a session. -/
def Account (w : Kernel) (t : List (Event Process)) (d : Option Int) : Prop :=
  (alone.later w t).opened = only d ∪ descriptors (waiting t)

theorem Account.nil (hw : w.opened = only d) : Account w [] d := by
  have hnone : descriptors (waiting []) = ∅ := by simp [waiting, descriptors, accepted, calls]
  rw [Account, hnone, Set.union_empty]
  exact hw

theorem Account.after (hu : ∀ e ∈ u, Idle e.call) (h : Account w t d) : Account w (u ++ t) d := by
  obtain ⟨haccepted, hsessions⟩ := paired_idle hu
  rw [Account, Env.later_append, later_idle hu, waiting, accepted_append, sessions_append,
    haccepted, hsessions]
  exact h

theorem Account.idle (hw : w.opened = only d) (hu : ∀ e ∈ u, Idle e.call) : Account w u d := by
  have h := (Account.nil hw).after hu
  rw [List.append_nil] at h
  exact h

theorem Account.event {v : Trace} (hv : accepts v = []) (h : Account (Kernel.env.later w v) t d) :
    Account w (v.map posix.event ++ t) d := by
  rw [Account, Env.later_append, alone_extends.later, waiting, accepted_append, accepted_event, hv,
    sessions_append, sessions_event]
  exact h

/-- What is open is at most one descriptor that `socket` returned and what waits; there is
one where something was accepted. -/
def Owns (w : Kernel) (t : List (Event Process)) : Prop :=
  ∃ d : Option Int, (∀ fd, d = some fd → fd ∈ sockets (calls t)) ∧
    (d = none → accepted t = []) ∧ Account w t d

theorem Owns.after (hu : ∀ e ∈ u, Idle e.call) (h : Owns w t) : Owns w (u ++ t) := by
  obtain ⟨d, hd, hnone, haccount⟩ := h
  refine ⟨d, fun fd hfd => ?_, fun hd => ?_, haccount.after hu⟩
  · rw [calls_append, sockets, List.filterMap_append]
    exact List.mem_append_right _ (hd fd hfd)
  · rw [accepted_append, (paired_idle hu).1, hnone hd, List.nil_append]

/-- The rule for a program that opens and closes nothing, for what such calls keep. -/
theorem goes_on {M : List (Event Process) → Prop} (hnil : M [])
    (hafter : ∀ u v, (∀ e ∈ u, Idle e.call) → M v → M (u ++ v)) {p : Code α} (hp : p.Uses Idle)
    {f : α → Code β} {q : Code β} (h : (p.bind f).Leads alone w t q)
    (hf : ∀ v a, (f a).Leads alone w v q → M v) : M t := by
  obtain ⟨p', hp', _⟩ | ⟨u, v, a, rfl, hrun, hrest⟩ := h.of_bind
  · have hidle := hafter t [] (hp'.uses hp).1 hnil
    rw [List.append_nil] at hidle
    exact hidle
  · have hu := ((Prog.Leads.of_run hrun).uses hp).1
    rw [later_idle hu] at hrest
    exact hafter u v hu (hf v a hrest)

theorem Account.of_leads {p : Code α} (hw : w.opened = only d) (hp : p.Uses Idle) {f : α → Code β}
    {q : Code β} (h : (p.bind f).Leads alone w t q)
    (hf : ∀ v a, (f a).Leads alone w v q → Account w v d) : Account w t d :=
  goes_on (M := fun v => Account w v d) (.nil hw) (fun _ _ => .after) hp h hf

theorem Owns.of_leads {p : Code α} (hw : w.opened = ∅) (hp : p.Uses Idle) {f : α → Code β}
    {q : Code β} (h : (p.bind f).Leads alone w t q)
    (hf : ∀ v a, (f a).Leads alone w v q → Owns w v) : Owns w t :=
  goes_on (M := fun v => Owns w v) ⟨none, nofun, fun _ => rfl, .nil (hw.trans only_none.symm)⟩
    (fun _ _ => .after) hp h hf

theorem cout_idle (text : String) : (cout text).Uses Idle := ⟨trivial, fun _ => trivial⟩

theorem coutAddress_idle (db : NetDb) (address : Address) : (coutAddress db address).Uses Idle := by
  unfold coutAddress
  split
  · exact ⟨trivial, fun _ => trivial⟩
  · trivial

theorem cerr_idle (error : ErrorCondition) : (cerr error).Uses Idle := ⟨trivial, fun _ => trivial⟩

theorem exit_idle (status : Int) : (Prog.ask (S := Process) (.exit status) : Code Unit).Uses Idle :=
  ⟨trivial, fun _ => trivial⟩

theorem sys_idle {p : Syscall α} (hp : p.Uses Sys.Neutral) : (sys p).Uses Idle :=
  Prog.uses_within (fun _ h => h) hp

theorem neutral_of_isNew (c : Sys) (hc : IsNew c) : c.Neutral := by
  cases c with
  | new => trivial
  | socket | bind | connect | listen | accept | getsockname | read | write | close => exact hc.elim

theorem neutral_of_transfers {fd : Int} (c : Sys) (hc : Transfers fd c) : c.Neutral := by
  cases c with
  | read | write => trivial
  | socket | bind | connect | listen | accept | getsockname | new | close => exact hc.elim

end Idle

/-! ## The thread of a session -/

section Sessions
variable {w : Kernel} {t : List (Event Process)} {q : Code Unit}

theorem session_idle (db : NetDb) (fuel : Nat) (content : Nat → Byte) (session : Session) :
    (session.run db fuel content).Uses Idle := by
  have hrun := run_transfers session.toClientSession fuel content
  refine Prog.uses_bind (cout_idle _) fun _ => Prog.uses_bind (coutAddress_idle _ _) fun _ => ?_
  refine Prog.uses_bind (cout_idle _) fun _ => Prog.uses_bind
    (sys_idle (Prog.uses_mono neutral_of_transfers hrun)) fun _ => ?_
  exact Prog.uses_bind (cout_idle _) fun _ => Prog.uses_bind (coutAddress_idle _ _) fun _ =>
    cout_idle _

/-- The close is the last step of a session. -/
theorem thread_idle {db : NetDb} {fuel : Nat} {content : Nat → Byte} {session : Session}
    (h : (session.thread db fuel content).Leads alone w t q) :
    (∀ e ∈ t, Idle e.call) ∨ q = .ret () := by
  obtain ⟨p', hp', _⟩ | ⟨u, v, _, rfl, hrun, hrest⟩ := h.of_bind
  · exact Or.inl (hp'.uses (session_idle db fuel content session)).1
  · have hu := ((Prog.Leads.of_run hrun).uses (session_idle db fuel content session)).1
    obtain ⟨v', p', rfl, hq, hclose⟩ := hrest.of_within alone_extends
    unfold ConnectedSocket.destroy closeHeld at hclose
    split at hclose
    · obtain ⟨rfl, _⟩ := hclose.of_ret
      rw [List.map_nil, List.append_nil]
      exact Or.inl hu
    · obtain ⟨rfl, _⟩ | ⟨_, v'', rfl, _, hret⟩ := hclose.of_call
      · rw [List.map_nil, List.append_nil]
        exact Or.inl hu
      · obtain ⟨rfl, rfl⟩ := hret.of_ret
        exact Or.inr hq

end Sessions

/-! ## The first thread -/

section First
variable {w : Kernel} {listenSocket : ListenSocket} {u : Trace} {t : List (Event Process)}

/-- A call that opens at most what it accepts. -/
def Accepting : Sys → Prop
  | .socket .. | .close _ => False
  | _ => True

theorem opened_accepting (hu : ∀ e ∈ u, Accepting e.call) :
    (Kernel.env.later w u).opened = w.opened ∪ descriptors (accepts u) := by
  induction u generalizing w with
  | nil =>
    have hnone : descriptors (accepts []) = ∅ := by simp [descriptors]
    rw [hnone, Set.union_empty]
    rfl
  | cons e u ih =>
    obtain ⟨he, hu⟩ := List.forall_mem_cons.mp hu
    rw [Env.later_cons, ih hu]
    obtain ⟨c, r⟩ := e
    match c, r, he with
    | .accept fd b, r, _ =>
      have hcons : descriptors (accepts (⟨.accept fd b, r⟩ :: u)) =
          only (held r.res) ∪ descriptors (accepts u) := by
        ext k
        rw [accepts_accept]
        simp [descriptors, eq_comm]
      rw [hcons, ← Set.union_assoc]
      exact congrArg (· ∪ _) opened_opening
    | .bind .., _, _ | .connect .., _, _ | .listen .., _, _ | .getsockname .., _, _
    | .read .., _, _ | .write .., _, _ | .new _, _, _ => rfl

theorem growth_accepting (a : Address) (n : Nat) (content : Nat → Byte) :
    ∀ e ∈ a.growth n content, Accepting e.call := by
  unfold Address.growth
  split
  · intro e he
    obtain rfl := List.mem_singleton.mp he
    trivial
  · nofun

/-- The session to be has no descriptor that an `accept` into it would close. -/
theorem accept_accepting {address : Address}
    {q : Syscall (ListenSocket × ConnectedSocket × Address)}
    (h : (listenSocket.acceptWithAddress {} address).Leads Kernel.env w u q) :
    ∀ e ∈ u, Accepting e.call := by
  obtain ⟨v, o, hrun⟩ := h.extends kernel_answers
  obtain ⟨o', hbody, rfl⟩ := Prog.run_mapped.mp hrun
  obtain ⟨content, r, a, _, _, hcases⟩ :=
    (run_acceptAddressFd listenSocket.d_local_address.size_ok).mp hbody
  have hgrowth := growth_accepting address listenSocket.d_local_address.size content
  have hclosing : closing ({} : ConnectedSocket).d_fd = [] := rfl
  have hall : ∀ e ∈ u ++ v, Accepting e.call := by
    rcases hcases with ⟨_, ht, _⟩ | ⟨_, v', ht, hend⟩
    · rw [ht]
      exact List.forall_mem_append.mpr ⟨hgrowth, List.forall_mem_singleton.mpr trivial⟩
    · rw [ht, hclosing, List.nil_append]
      refine List.forall_mem_append.mpr ⟨hgrowth, List.forall_mem_cons.mpr ⟨trivial, ?_⟩⟩
      rcases hend with ⟨_, rfl, _⟩ | ⟨_, content', rfl, _⟩
      · nofun
      · exact growth_accepting _ _ _
  exact fun e he => hall e (List.mem_append_left _ he)

/-- An `accept` that is under way, or that is done and has no session. -/
theorem account_accepting {d : Option Int} (hw : w.opened = only d)
    (hu : ∀ e ∈ u, Accepting e.call) : Account w (u.map posix.event) d := by
  rw [Account, alone_extends.later, opened_accepting hu, hw, waiting, accepted_event,
    sessions_event]
  rfl

theorem turn_account (hw : w.opened = only (held listenSocket.d_fd))
    {q : Code (ListenSocket ⊕ Int)} (h : (Server.turn listenSocket).Leads alone w t q) :
    Account w t (held listenSocket.d_fd) := by
  obtain ⟨u, p', rfl, hu⟩ | ⟨u, v, x, rfl, hu, hrest⟩ := leads_sys h
  · exact account_accepting hw (accept_accepting hu)
  · obtain ⟨rfl, _⟩ | ⟨_, v', rfl, _, hret⟩ := hrest.of_call
    · rw [List.append_nil]
      exact account_accepting hw (accept_accepting (.of_run hu))
    · obtain ⟨rfl, rfl⟩ := hret.of_ret
      obtain ⟨_, ⟨r, session, haccepted, hsessions, _⟩, _⟩ :=
        turn_paired descriptors_meet trivial h.run_ret fun _ _ => trivial
      obtain ⟨hthis, hopened⟩ := (turn_keeps hw _ _ h.run_ret).2
      have hnone : descriptors (([r] : List Named).drop 1) = ∅ := by simp [descriptors]
      rw [Account, hopened, hthis, waiting, haccepted, hsessions]
      change _ = only (held listenSocket.d_fd) ∪ descriptors (([r] : List Named).drop 1)
      rw [hnone, Set.union_empty]

/-- The induction over the turns: each one that is done leaves the listening socket alone. -/
theorem loop_account (hw : w.opened = only (held listenSocket.d_fd)) {β : Type} {f : Int → Code β}
    {n : Nat} {q : Code β}
    (h : ((Prog.loop .fuel Server.turn n listenSocket).bind f).Leads alone w t q) :
    Account w t (held listenSocket.d_fd) := by
  induction n generalizing w listenSocket t with
  | zero =>
    rw [h.of_stop.1]
    exact .nil hw
  | succ n ih =>
    rw [Prog.loop, Prog.bind_assoc] at h
    obtain ⟨p', hp', _⟩ | ⟨u, v, x, rfl, hrun, hrest⟩ := h.of_bind
    · exact turn_account hw hp'
    · obtain ⟨⟨listenSocket', rfl, _⟩, ⟨r, session, haccepted, hsessions, _⟩, _⟩ :=
        turn_paired descriptors_meet trivial hrun fun _ _ => trivial
      obtain ⟨hthis, hopened⟩ := (turn_keeps hw _ _ hrun).2
      have haccount := ih hopened hrest
      have hwaiting : waiting (u ++ v) = waiting v := by
        rw [waiting, accepted_append, sessions_append, haccepted, hsessions, List.length_append,
          List.length_singleton, Nat.add_comm]
        rfl
      rw [Account, Env.later_append, hwaiting, ← hthis]
      exact haccount

/-- The constructor makes its call of `socket` first, and nothing later opens or closes. -/
theorem construct_leads {type : SocketType} {a : Address} {q : Syscall ListenSocket}
    (h : (ListenSocket.construct type a).Leads Kernel.env w u q) :
    u = [] ∨ ∃ domain type protocol r v, u = ⟨.socket domain type protocol, r⟩ :: v ∧
      ∀ e ∈ v, e.call.Neutral := by
  unfold ListenSocket.construct at h
  split at h
  · obtain ⟨rfl, _⟩ | ⟨r, v, rfl, _, hrest⟩ := h.of_call
    · exact Or.inl rfl
    refine Or.inr ⟨_, _, _, r, v, rfl, (hrest.uses ?_).1⟩
    dsimp only [Prog.ret_bind]
    split
    · trivial
    · refine ⟨trivial, fun r => ?_⟩
      dsimp only [Prog.ret_bind]
      split
      · trivial
      · refine ⟨trivial, fun r => ?_⟩
        dsimp only [Prog.ret_bind]
        split
        · trivial
        · refine Prog.uses_bind (Prog.uses_mono neutral_of_isNew (resize_new _ _)) fun b => ?_
          rw [Prog.bind_eq, Posix.getsockname_bind]
          refine ⟨trivial, fun r => Prog.uses_bind ?_ fun _ => trivial⟩
          unfold Address.deliver Address.receive
          split
          · trivial
          · split <;> trivial
  · exact Or.inl h.of_stop.1

/-- It has opened what its call of `socket` returned. -/
theorem construct_opened {type : SocketType} {a : Address} {q : Syscall ListenSocket}
    (hw : w.opened = ∅) (h : (ListenSocket.construct type a).Leads Kernel.env w u q) :
    accepts u = [] ∧ ∃ d : Option Int, (∀ fd, d = some fd → fd ∈ sockets u) ∧
      (Kernel.env.later w u).opened = only d := by
  refine ⟨accepts_of_uses (h.uses (construct_noAccept _ _)).1, ?_⟩
  obtain rfl | ⟨domain, type, protocol, r, v, rfl, hv⟩ := construct_leads h
  · exact ⟨none, nofun, hw.trans only_none.symm⟩
  · refine ⟨held r.res, ?_, ?_⟩
    · intro fd hfd
      obtain ⟨rfl, _⟩ := held_eq_some.mp hfd
      exact List.mem_cons_self
    · rw [Env.later_cons, Kernel.later_neutral _ hv]
      change (w.opening r.res).opened = _
      rw [opened_opening, hw, Set.empty_union]

theorem opened_closing {d_fd : Int} (hw : w.opened = only (held d_fd)) :
    (Kernel.env.later w (closing d_fd)).opened = only none := by
  unfold closing
  split
  · rename_i hnone
    have hheld : held d_fd = none := if_pos hnone
    rw [hheld] at hw
    exact hw
  · rename_i hne
    have hheld : held d_fd = some d_fd := if_neg hne
    change w.opened \ {d_fd} = _
    rw [hw, hheld, only_some, Set.sdiff_self, only_none]

/-- Where the server could not listen it closes its socket. -/
theorem failing_account (hw : w.opened = only (held listenSocket.d_fd)) {f : Unit → Code Unit}
    (hf : (f ()).Uses Idle) {q : Code Unit}
    (h : ((sys listenSocket.destroy).bind f).Leads alone w t q) :
    accepted t = [] ∧ (Account w t (held listenSocket.d_fd) ∨ Account w t none) := by
  have hclose : ∀ {u v}, (u = [] ∨ u = closing listenSocket.d_fd) → (∀ e ∈ v, Idle e.call) →
      accepted (u.map posix.event ++ v) = [] ∧
        (Account w (u.map posix.event ++ v) (held listenSocket.d_fd) ∨
          Account w (u.map posix.event ++ v) none) := by
    intro u v hu hv
    rw [accepted_append, accepted_event, (paired_idle hv).1, List.append_nil]
    rcases hu with rfl | rfl
    · exact ⟨rfl, Or.inl (Account.idle hw hv)⟩
    · have hidle := Account.idle (opened_closing hw) hv
      exact ⟨accepts_closing _, Or.inr (Account.event (accepts_closing _) hidle)⟩
  obtain ⟨u, p', rfl, hu⟩ | ⟨u, v, _, rfl, hu, hrest⟩ := leads_sys h
  · have haccount := hclose (v := []) (leads_closeHeld hu) nofun
    rw [List.append_nil] at haccount
    exact haccount
  · exact hclose (leads_closeHeld (.of_run hu)) (hrest.uses hf).1

/-- It prints the reason before. -/
theorem reported_account {error : ErrorCondition}
    (hw : w.opened = only (held listenSocket.d_fd)) {f : Unit → Code Unit} (hf : (f ()).Uses Idle)
    {q : Code Unit}
    (h : ((cerr error).bind fun _ => (sys listenSocket.destroy).bind f).Leads alone w t q) :
    accepted t = [] ∧ (Account w t (held listenSocket.d_fd) ∨ Account w t none) := by
  refine goes_on (M := fun v => accepted v = [] ∧ (Account w v (held listenSocket.d_fd) ∨
    Account w v none)) ⟨rfl, Or.inl (.nil hw)⟩ ?_ (cerr_idle error) h fun _ _ hrest =>
      failing_account hw hf hrest
  intro u v hu hv
  rw [accepted_append, (paired_idle hu).1, hv.1]
  exact ⟨rfl, hv.2.imp (.after hu) (.after hu)⟩

theorem run_account {server : Server} {db : NetDb} {fuel : Nat} {f : Int → Code Unit}
    (hf : ∀ status, (f status).Uses Idle) (hw : w.opened = ∅) {q : Code Unit}
    (h : ((server.run db fuel).bind f).Leads alone w t q) : Owns w t := by
  unfold Server.run at h
  simp only [Prog.bind_eq, Prog.bind_assoc] at h
  obtain ⟨u, p', rfl, hu⟩ | ⟨u, v, listenSocket, rfl, hu, hrest⟩ := leads_sys h
  · obtain ⟨haccepts, d, hd, hopened⟩ := construct_opened hw hu
    have haccount := Account.event haccepts (.nil hopened)
    rw [List.append_nil] at haccount
    refine ⟨d, ?_, fun _ => ?_, haccount⟩
    · rw [calls_event]
      exact hd
    · rw [accepted_event, haccepts]
  obtain ⟨haccepts, d, hd, hopened⟩ := construct_opened hw (.of_run hu)
  have hheld := (construct_own _ _ _ _ hu).2 _ rfl
  rw [hw, Set.empty_union] at hheld
  have hsocket : ∀ fd, held listenSocket.d_fd = some fd → fd ∈ sockets (calls
      (u.map posix.event ++ v)) := by
    intro fd hfd
    have hmem : fd ∈ only d := by
      rw [← hopened, hheld]
      exact hfd
    rw [calls_append, calls_event, sockets, List.filterMap_append]
    exact List.mem_append_left _ (hd fd hmem)
  have haccepted : accepted (u.map posix.event ++ v) = accepted v := by
    rw [accepted_append, accepted_event, haccepts, List.nil_append]
  split at hrest
  · simp only [Prog.bind_assoc] at hrest
    obtain ⟨hnone, h | h⟩ := reported_account hheld (hf 1) hrest
    · exact ⟨_, hsocket, fun _ => haccepted.trans hnone, Account.event haccepts h⟩
    · exact ⟨none, fun _ hfd => absurd hfd.symm (Option.some_ne_none _),
        fun _ => haccepted.trans hnone, Account.event haccepts h⟩
  · rename_i hokay
    simp only [Prog.bind_assoc] at hrest
    have hlistens : 0 ≤ listenSocket.d_fd := by
      obtain ⟨hfailed, _⟩ | ⟨_, _, _, hpos, _⟩ := ListenSocket.run_construct hu
      · rw [hfailed] at hokay
        exact absurd rfl hokay
      · exact hpos
    have hsome : held listenSocket.d_fd ≠ none := by
      rw [held_eq_some.mpr ⟨rfl, by omega⟩]
      exact Option.some_ne_none _
    refine ⟨_, hsocket, fun hd => absurd hd hsome, Account.event haccepts ?_⟩
    refine Account.of_leads hheld (cout_idle _) hrest fun _ _ hrest => ?_
    refine Account.of_leads hheld (sys_idle (Prog.uses_mono neutral_of_isNew
      (copy_new _))) hrest fun _ _ hrest => ?_
    refine Account.of_leads hheld (coutAddress_idle _ _) hrest fun _ _ hrest => ?_
    refine Account.of_leads hheld (cout_idle _) hrest fun _ _ hrest => ?_
    refine Account.of_leads hheld (cout_idle _) hrest fun _ _ hrest => ?_
    exact loop_account hheld hrest

/-- **The first thread.** It has what its call of `socket` returned, until it gives up, and
what it has accepted for the session that comes next. -/
theorem main_account {inet : Inet} {db : NetDb} {fuel : Nat} (hw : w.opened = ∅) {q : Code Unit}
    (h : (main inet db fuel).Leads alone w t q) : Owns w t := by
  unfold main at h
  simp only [Prog.bind_eq] at h
  refine Owns.of_leads hw (cout_idle _) h fun _ _ h => ?_
  refine Owns.of_leads hw (cout_idle _) h fun _ _ h => ?_
  refine Owns.of_leads hw (cout_idle _) h fun _ _ h => ?_
  refine Owns.of_leads hw (sys_idle (Prog.uses_mono neutral_of_isNew
    (server_construct_new _))) h fun _ _ h => ?_
  exact run_account exit_idle hw h

end First

/-! ## The process -/

section Process
variable {inet : Inet} {db : NetDb} {σ : State Process Stop Kernel Session}

/-- A session that has not ended has its descriptor, and one that has ended none. -/
theorem holds_session (h : (server inet db).system.Reachable σ) {th : Thread Process Stop Session}
    (hth : th ∈ σ.threads) {session : Session} (hjob : th.job = some session) :
    holds th = if running th then only (held session.d_socket.d_fd) else ∅ := by
  have halone := (Separation.separate (server_keeps inet db) h).alone th hth
  have hended := halone.ended (server_keeps inet db)
  obtain ⟨job, past, rest⟩ := th
  obtain rfl : job = some session := hjob
  obtain ⟨_, ⟨fuel, content, rfl⟩, hleads⟩ := halone
  have hrest : rest = .ret () → holds ⟨some session, past, rest⟩ = ∅ := hended
  cases rest with
  | ret => exact hrest rfl
  | stop | call =>
    have hidle := (thread_idle hleads).resolve_right nofun
    change (alone.later (begins (some session)) past).opened = _
    rw [later_idle hidle]
    rfl

/-- The first thread has what it listens on and what waits, of which there is one at most, and
nothing once it has returned. -/
theorem holds_first (h : (server inet db).system.Reachable σ) {th : Thread Process Stop Session}
    (hth : th ∈ σ.threads) (hjob : th.job = none) :
    (waiting th.past).length ≤ 1 ∧ ∃ listening : Option Int,
      (∀ fd, listening = some fd → fd ∈ sockets (calls th.past)) ∧
      (listening = none → accepted th.past = []) ∧
      (th.rest = .ret () → listening = none) ∧
      ∀ fd, fd ∈ holds th ↔
        listening = some fd ∨ ∃ r ∈ waiting th.past, held r.res = some fd := by
  have halone := (Separation.separate (server_keeps inet db) h).alone th hth
  have hended : th.rest = .ret () → holds th = ∅ := halone.ended (server_keeps inet db)
  obtain ⟨p, hp, hleads⟩ := halone
  obtain ⟨job, past, rest⟩ := th
  obtain rfl : job = none := hjob
  obtain ⟨fuel, rfl⟩ := hp
  obtain ⟨answers, pending, hlength, hsplit, hmatched⟩ :=
    (main_pairs descriptors_meet inet db fuel _ _ _ hleads fun _ _ => trivial).matched
  obtain ⟨listening, hsocket, hnone, haccount⟩ := main_account rfl hleads
  have hwaiting : waiting past = pending := by
    have hdrop : (answers ++ pending).drop (sessions past).length = pending := by
      rw [← hmatched.length_eq, List.drop_left]
    rw [waiting]
    exact (congrArg _ hsplit).trans hdrop
  have hholds : holds ⟨none, past, rest⟩ = only listening ∪ descriptors (waiting past) := haccount
  refine ⟨?_, listening, hsocket, hnone, fun hret => ?_, fun fd => ?_⟩
  · rw [hwaiting]
    exact hlength
  · have hempty := (Set.union_empty_iff.mp (hholds.symm.trans (hended hret))).1
    apply Option.eq_none_iff_forall_ne_some.mpr
    intro fd hfd
    exact Set.eq_empty_iff_forall_notMem.mp hempty fd hfd
  · rw [hholds]
    exact Iff.rfl

/-- What is open belongs to one of the threads, and to it as long as it has not ended. -/
theorem opened_iff (h : (server inet db).system.Reachable σ) {first : Thread Process Stop Session}
    {others : List (Thread Process Stop Session)} (hthreads : σ.threads = first :: others)
    (hjobs : others.map Thread.job = (sessions first.past).map some) (fd : Int) :
    fd ∈ σ.world.opened ↔ fd ∈ holds first ∨ ∃ th ∈ others, running th ∧
      ∃ session, th.job = some session ∧ held session.d_socket.d_fd = some fd := by
  have hdivided := (Separation.separate (server_keeps inet db) h).divided
  have hother : ∀ th ∈ others, fd ∈ holds th ↔ running th ∧
      ∃ session, th.job = some session ∧ held session.d_socket.d_fd = some fd := by
    intro th hth
    have hjob : th.job ∈ (sessions first.past).map some := by
      rw [← hjobs]
      exact List.mem_map_of_mem hth
    obtain ⟨session, _, hsession⟩ := List.mem_map.mp hjob
    have hmem : th ∈ σ.threads := by
      rw [hthreads]
      exact List.mem_cons_of_mem _ hth
    rw [holds_session h hmem hsession.symm, ← hsession]
    cases running th <;> simp
  have hmem : fd ∈ σ.world.opened ↔ ∃ th ∈ σ.threads, fd ∈ holds th := by
    refine hdivided.mem_iff.trans ⟨?_, ?_⟩
    · rintro ⟨_, hA, hfd⟩
      obtain ⟨th, hth, rfl⟩ := List.mem_map.mp hA
      exact ⟨th, hth, hfd⟩
    · rintro ⟨th, hth, hfd⟩
      exact ⟨_, List.mem_map_of_mem hth, hfd⟩
  rw [hmem, hthreads, List.exists_mem_cons_iff]
  exact or_congr_right (exists_congr fun th => and_congr_right (hother th))

theorem encard_le_length {s : Set Int} {l : List Int} (h : ∀ fd ∈ s, fd ∈ l) :
    s.encard ≤ l.length := by
  have hsubset : s ⊆ (l.toFinset : Set Int) := fun fd hfd => by
    rw [List.coe_toFinset]
    exact h fd hfd
  calc s.encard ≤ (l.toFinset : Set Int).encard := Set.encard_le_encard hsubset
    _ = l.toFinset.card := Set.encard_coe_eq_coe_finsetCard _
    _ ≤ l.length := Nat.cast_le.mpr l.toFinset_card_le

/-- **What is open.** At every moment of every interleaving the server has open the socket
that the first thread made, until that gives up, the descriptor that it has accepted for the
session which comes next, and those of the sessions that have not ended: no descriptor is
left behind, and none is closed before. -/
theorem server_open (h : (server inet db).system.Reachable σ) :
    ∃ (first : Thread Process Stop Session) (others : List (Thread Process Stop Session))
      (listening : Option Int), σ.threads = first :: others ∧
      (∀ fd, listening = some fd → fd ∈ sockets (calls first.past)) ∧
      (listening = none → accepted first.past = []) ∧
      (first.rest = .ret () → listening = none) ∧
      (waiting first.past).length ≤ 1 ∧
      (∀ fd, fd ∈ σ.world.opened ↔ listening = some fd ∨
        (∃ r ∈ waiting first.past, held r.res = some fd) ∨
        ∃ th ∈ others, running th ∧ ∃ session, th.job = some session ∧
          held session.d_socket.d_fd = some fd) ∧
      σ.world.opened.encard ≤ 2 + others.countP running := by
  obtain ⟨first, others, hthreads, hjob, hjobs, _⟩ := jobs_started body_starts h
  rw [started_eq] at hjobs
  have hfirst : first ∈ σ.threads := by
    rw [hthreads]
    exact List.mem_cons_self
  obtain ⟨hwaiting, listening, hsocket, hnone, hreturned, hholds⟩ := holds_first h hfirst hjob
  have hiff : ∀ fd, fd ∈ σ.world.opened ↔ listening = some fd ∨
      (∃ r ∈ waiting first.past, held r.res = some fd) ∨
      ∃ th ∈ others, running th ∧ ∃ session, th.job = some session ∧
        held session.d_socket.d_fd = some fd := by
    intro fd
    rw [opened_iff h hthreads hjobs, hholds, or_assoc]
  refine ⟨first, others, listening, hthreads, hsocket, hnone, hreturned, hwaiting, hiff, ?_⟩
  -- one place for the listening socket and one for the latest `accept`
  have hlist : ∀ fd ∈ σ.world.opened, fd ∈ listening.toList ++
      (waiting first.past).map (fun r => r.res) ++ (others.filter running).map descriptorOf := by
    intro fd hfd
    rcases (hiff fd).mp hfd with hlisten | ⟨r, hr, hheld⟩ |
      ⟨th, hth, hrun, session, hsession, hheld⟩
    · simp [hlisten]
    · obtain ⟨rfl, _⟩ := held_eq_some.mp hheld
      exact List.mem_append_left _ (List.mem_append_right _ (List.mem_map_of_mem hr))
    · obtain ⟨rfl, _⟩ := held_eq_some.mp hheld
      have hfd : descriptorOf th = session.d_socket.d_fd := by rw [descriptorOf, hsession]
      rw [← hfd]
      exact List.mem_append_right _ (List.mem_map_of_mem (List.mem_filter.mpr ⟨hth, hrun⟩))
  have hone : listening.toList.length ≤ 1 := by cases listening <;> simp
  refine (encard_le_length hlist).trans ?_
  rw [List.length_append, List.length_append, List.length_map, List.length_map,
    List.countP_eq_length_filter]
  norm_cast
  omega

theorem server_open_first : ∃ σ : State Process Stop Kernel Session,
    4 ∈ σ.world.opened ∧ σ.world.opened.encard ≤ 2 + 1 := by
  obtain ⟨w, first, session, hreach, hfd, _⟩ :=
    first_session noNames 3 4 (by decide) (by decide) (by decide)
  obtain ⟨first', others, listening, hthreads, _, _, _, _, hiff, hbound⟩ := server_open hreach
  obtain ⟨rfl, rfl⟩ := List.cons.inj hthreads
  have hheld : held session.d_socket.d_fd = some 4 := by
    rw [hfd]
    rfl
  exact ⟨_, (hiff 4).mpr (Or.inr (Or.inr
    ⟨_, List.mem_singleton.mpr rfl, rfl, session, rfl, hheld⟩)), hbound⟩

end Process

end Sydn.Examples.EchoServer
