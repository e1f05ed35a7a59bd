import Sydn.Examples.ServerAccount
import Sydn.Found.Likeness

/-!
# What the threads of the echo server have done

Because the threads do not meet, what one of them has done at any moment is what its
program does alone. A session only sends what it has read, in its order; the first
thread has started one session for each `accept`, those that failed included.
-/

namespace Sydn.Examples.EchoServer

open Sydn.Found.Interaction
open Sydn.Found.Ownership
open Sydn.Found.Threads
open Sydn.Mem (Byte fill patch length_fill length_patch take_patch_zero)
open Sydn.Net
open ErrorCondition (default_error_condition)

/-! ## The bytes of a session -/

/-- Nothing is sent that was not read, in its order; and nothing is left out before what
is sent, as long as no write was cut short before a read. -/
structure Echoes (t : Trace) : Prop where
  sublist : (sent t).Sublist (received t)
  none_lost : AtEach (fun u e => IsRead e → AllWritten u) t → sent t <+: received t

section Bytes
variable {past : Trace} {fd fd' : Int} {size : Nat}

theorem Echoes.nil : Echoes [] := ⟨List.Sublist.refl _, fun _ => List.prefix_rfl⟩

/-- What a read adds comes after what was sent. -/
theorem Echoes.read (h : Kept past) (hsub : (sent past).Sublist (received past)) (r : Received) :
    Echoes (past ++ [⟨.read fd size, r⟩]) := by
  have hsent : sent (past ++ [⟨.read fd size, r⟩]) = sent past := by
    rw [sent_append, sent_read, List.append_nil]
  constructor
  · rw [hsent, received_append]
    exact hsub.trans (List.sublist_append_left _ _)
  · intro hfull
    have hall : AllWritten past := hfull past _ [] rfl trivial
    rw [hsent, received_append, h.echoed_iff.mpr hall]
    exact List.prefix_append _ _

/-- What a write sends of the bytes just read comes after what was sent before. -/
theorem Echoes.write (h : Kept past) (hsub : (sent past).Sublist (received past)) {r : Received}
    (hr : r.res = r.bytes.length) (r' : Status) :
    Echoes (past ++ [⟨.read fd size, r⟩] ++ [⟨.write fd' r.bytes, r'⟩]) := by
  have hres : r.res ≠ -1 := by omega
  have hsent : sent (past ++ [⟨.read fd size, r⟩] ++ [⟨.write fd' r.bytes, r'⟩]) =
      sent past ++ r.bytes.take r'.res.toNat := by
    rw [sent_append, sent_append, sent_read, sent_write, List.append_nil]
  have hreceived : received (past ++ [⟨.read fd size, r⟩] ++ [⟨.write fd' r.bytes, r'⟩]) =
      received past ++ r.bytes := by
    rw [received_append, received_append, received_read hres, received_write, List.append_nil]
  constructor
  · rw [hsent, hreceived]
    exact hsub.append (List.take_sublist _ _)
  · intro hfull
    have hall : AllWritten past :=
      hfull past _ [⟨.write fd' r.bytes, r'⟩] (List.append_assoc _ _ _) trivial
    rw [hsent, hreceived, h.echoed_iff.mpr hall, List.prefix_append_right_inj]
    exact List.take_prefix _ _

/-- A call that moves no bytes changes nothing. -/
theorem Echoes.closing {t : Trace} (h : Echoes t) (d_fd : Int) : Echoes (t ++ closing d_fd) := by
  unfold Net.closing
  split
  · rw [List.append_nil]
    exact h
  · have hsent : sent (t ++ [⟨.close d_fd, ()⟩]) = sent t := by
      rw [sent_append]
      exact List.append_nil _
    have hreceived : received (t ++ [⟨.close d_fd, ()⟩]) = received t := by
      rw [received_append]
      exact List.append_nil _
    refine ⟨by rw [hsent, hreceived]; exact h.sublist, fun hfull => ?_⟩
    rw [hsent, hreceived]
    refine h.none_lost fun u e v ht hread => ?_
    exact hfull u e (v ++ [⟨.close d_fd, ()⟩]) (by rw [ht, List.append_assoc]; rfl) hread

end Bytes

section Loop
variable {w : Kernel × Trace} {s : Variables} {this : ClientSession}

/-- What holds before each turn. -/
def Ahead (w : Kernel × Trace) (s : Variables) : Prop :=
  Before w s ∧ (sent w.2).Sublist (received w.2)

theorem turn_echoes (h : Ahead w s) :
    Checked Kernel.env.remembering (fun w e => Echoes (w.2 ++ [e])) w (this.turn s) fun w' o =>
      match o with
      | .ok (.inl s') => Ahead w' s'
      | _ => True := by
  obtain ⟨⟨hkept, hbuffer⟩, hsub⟩ := h
  have hsize : (s.buffer.length : Int) ≤ INT_MAX := by
    rw [hbuffer]
    decide
  refine read_bind s.reader hsize (fun r => Echoes.read hkept hsub r) ?_ ?_
  · intro r reader data hokay
    dsimp only
    rw [if_neg (Bool.eq_false_iff.mp hokay)]
    exact Checked.ret.mpr trivial
  · intro r hres hle
    have hdata : (patch 0 r.bytes s.buffer).take r.bytes.length = r.bytes := take_patch_zero
    have hpatch : (patch 0 r.bytes s.buffer).length = c_bufferSize := by
      rw [length_patch (by rw [Nat.zero_add]; exact hle), hbuffer]
    show Checked _ _ _ ((s.writer.write this.d_socket
      ((patch 0 r.bytes s.buffer).take r.bytes.length)).bind _) _
    rw [hdata]
    refine write_bind s.writer (by omega) (fun r' => Echoes.write hkept hsub hres r') ?_ ?_
    · intro r' writer hokay
      rw [hokay, Bool.false_and, if_neg Bool.false_ne_true]
      exact Checked.ret.mpr trivial
    · intro r' n hcount hn
      by_cases hzero : n = 0
      · rw [hzero]
        exact Checked.ret.mpr trivial
      · rw [if_pos]
        · have hpos : 0 < r'.res := by omega
          have hle : r'.res ≤ r.bytes.length := by omega
          refine Checked.ret.mpr ⟨⟨hkept.turn hres hpos hle, hpatch⟩, ?_⟩
          exact (Echoes.write hkept hsub hres r').sublist
        · show (0 != n) = true
          exact bne_iff_ne.mpr (Ne.symm hzero)

theorem run_echoes (fuel : Nat) (content : Nat → Byte) (w : Kernel) :
    Checked Kernel.env.remembering (fun w e => Echoes (w.2 ++ [e])) (w, [])
      (this.run fuel content) fun _ _ => True := by
  refine Checked.loop (I := fun _ w s => Ahead w s) ?_ (fun _ _ _ => trivial)
    ⟨⟨⟨le_rfl, ?_, nofun⟩, length_fill _ _⟩, List.Sublist.refl _⟩
  · intro n w' s hahead
    apply (turn_echoes hahead).mono
    intro w'' o ho
    match o, ho with
    | .ok (.inl s'), ho => exact ho
    | .ok (.inr ()), _ | .error _, _ => trivial
  · exact iff_of_true rfl nofun

end Loop

/-- What holds of the events of every run so far holds of all of it. -/
theorem leads_echoes {w : Kernel} {this : ClientSession} {fuel : Nat} {content : Nat → Byte}
    {t : Trace} {q : Syscall Unit} (h : (this.run fuel content).Leads Kernel.env w t q) :
    Echoes t := by
  obtain ⟨u, o, hrun⟩ := h.extends kernel_answers
  obtain ⟨heach, _⟩ := Checked.remembered (P := fun u e => Echoes (u ++ [e]))
    (run_echoes fuel content w) hrun
  rcases List.eq_nil_or_concat t with rfl | ⟨t, e, rfl⟩
  · exact Echoes.nil
  · rw [List.concat_eq_append] at heach ⊢
    exact heach t e u (by simp)

/-- On `-1` a session makes one call at most, and it fails. -/
theorem leads_unconnected {w : Kernel} {fuel : Nat} {content : Nat → Byte} {t : Trace}
    {this : ClientSession} (hfd : this.d_socket.d_fd = -1) {q : Syscall Unit}
    (h : (this.run fuel content).Leads Kernel.env w t q) :
    t = [] ∨ ∃ n r, t = [⟨.read (-1) n, r⟩] ∧ r.res = -1 := by
  obtain ⟨⟨d_fd⟩⟩ := this
  obtain rfl : d_fd = -1 := hfd
  cases fuel with
  | zero => exact Or.inl h.of_stop.1
  | succ fuel =>
    obtain ⟨rfl, _⟩ | ⟨r, u, rfl, hr, hrest⟩ := h.of_call
    · exact Or.inl rfl
    · have hfailed : Kernel.Failed r.toStatus := by
        rcases hr with hfailed | ⟨_, _, hopen⟩
        · exact hfailed
        · exact absurd hopen.1 (by decide)
      have hint : toInt r.res = -1 := by
        rw [hfailed.1]
        decide
      have hokay : ¬ (⟨default_error_condition r.errno, 0⟩ : StreamStatus).okay = true :=
        Bool.eq_false_iff.mp hfailed.not_okay
      dsimp only [Prog.ret_bind] at hrest
      rw [if_pos hint, Prog.pure_eq, Prog.ret_bind] at hrest
      dsimp only at hrest
      rw [if_neg hokay] at hrest
      obtain ⟨rfl, _⟩ := hrest.of_ret
      exact Or.inr ⟨_, r, rfl, hfailed.1⟩

/-! ## The calls of a thread -/

section Calls
variable {α β : Type} {w : Kernel} {t u : List (Event Process)} {q : Code β}

theorem leads_cout {text : String} {f : Unit → Code β}
    (h : ((cout text).bind f).Leads alone w t q) :
    t = [] ∨ ∃ v, t = ⟨.cout (ascii text), ()⟩ :: v ∧ (f ()).Leads alone w v q := by
  obtain ⟨rfl, _⟩ | ⟨_, v, rfl, _, hrest⟩ := h.of_call
  · exact Or.inl rfl
  · exact Or.inr ⟨v, rfl, hrest⟩

theorem leads_coutAddress {db : NetDb} {address : Address} {f : Unit → Code β}
    (h : ((coutAddress db address).bind f).Leads alone w t q) :
    t = [] ∨ ∃ text v, address.print db = some text ∧ t = ⟨.cout text, ()⟩ :: v ∧
      (f ()).Leads alone w v q := by
  unfold coutAddress at h
  split at h
  · rename_i text htext
    obtain ⟨rfl, _⟩ | ⟨_, v, rfl, _, hrest⟩ := h.of_call
    · exact Or.inl rfl
    · exact Or.inr ⟨text, v, htext, rfl, hrest⟩
  · exact Or.inl h.of_stop.1

/-- System calls are made as they are made without the rest of the process. -/
theorem leads_sys {p : Syscall α} {f : α → Code β} (h : ((sys p).bind f).Leads alone w t q) :
    (∃ u p', t = u.map posix.event ∧ p.Leads Kernel.env w u p') ∨
      ∃ u v a, t = u.map posix.event ++ v ∧ p.Run Kernel.env w u (.ok a) ∧
        (f a).Leads alone (Kernel.env.later w u) v q := by
  obtain ⟨p', hp', _⟩ | ⟨_, v, a, rfl, hrun, hrest⟩ := h.of_bind
  · obtain ⟨u, p₁, rfl, _, hleads⟩ := hp'.of_within alone_extends
    exact Or.inl ⟨u, p₁, rfl, hleads⟩
  · obtain ⟨u, rfl, hrun'⟩ := (run_within alone_extends).mp hrun
    rw [alone_extends.later] at hrest
    exact Or.inr ⟨u, v, a, rfl, hrun', hrest⟩

end Calls

theorem leads_closeHeld {w : Kernel} {d_fd : Int} {t : Trace} {q : Syscall Unit}
    (h : (closeHeld d_fd).Leads Kernel.env w t q) : t = [] ∨ t = closing d_fd := by
  unfold closeHeld at h
  unfold closing
  split at h
  · exact Or.inl h.of_ret.1
  · rename_i hfd
    obtain ⟨rfl, _⟩ | ⟨_, u, rfl, _, hrest⟩ := h.of_call
    · exact Or.inl rfl
    · obtain ⟨rfl, _⟩ := hrest.of_ret
      rw [if_neg hfd]
      exact Or.inr rfl

/-- What the thread of a session has done: some of its loop, and after it the close. -/
theorem thread_leads {db : NetDb} {fuel : Nat} {content : Nat → Byte} {session : Session}
    {w : Kernel} {t : List (Event Process)} {q : Code Unit}
    (h : (session.thread db fuel content).Leads alone w t q) :
    ∃ u p', (session.toClientSession.run fuel content).Leads Kernel.env w u p' ∧
      (calls t = u ∨ calls t = u ++ closing session.d_socket.d_fd) := by
  unfold Session.thread Session.run at h
  simp only [Prog.bind_eq, Prog.bind_assoc] at h
  obtain rfl | ⟨t₁, rfl, h₁⟩ := leads_cout h
  · exact ⟨[], _, .refl, Or.inl rfl⟩
  obtain rfl | ⟨_, t₂, _, rfl, h₂⟩ := leads_coutAddress h₁
  · exact ⟨[], _, .refl, Or.inl rfl⟩
  obtain rfl | ⟨t₃, rfl, h₃⟩ := leads_cout h₂
  · exact ⟨[], _, .refl, Or.inl rfl⟩
  obtain ⟨u, p', rfl, hu⟩ | ⟨u, t₄, _, rfl, hu, h₄⟩ := leads_sys h₃
  · exact ⟨u, p', hu, Or.inl (calls_event u)⟩
  refine ⟨u, _, .of_run hu, ?_⟩
  -- the loop is done: what comes now is the close at most
  have hnone : u ++ [] = u := List.append_nil u
  simp only [calls_cout, calls_append, calls_event]
  obtain rfl | ⟨t₅, rfl, h₅⟩ := leads_cout h₄
  · exact Or.inl hnone
  obtain rfl | ⟨_, t₆, _, rfl, h₆⟩ := leads_coutAddress h₅
  · exact Or.inl hnone
  obtain rfl | ⟨t₇, rfl, h₇⟩ := leads_cout h₆
  · exact Or.inl hnone
  obtain ⟨v, p', rfl, _, hv⟩ := h₇.of_within alone_extends
  simp only [calls_cout, calls_event]
  refine (leads_closeHeld hv).imp ?_ ?_
  · rintro rfl
    exact hnone
  · rintro rfl
    rfl

/-! ## The whole runs of a thread -/

/-- A line with an address, in the three parts that it is printed in. -/
def announced (what : String) (address : List Byte) : List (Event Process) :=
  [⟨.cout (ascii what), ()⟩, ⟨.cout address, ()⟩, ⟨.cout (ascii ".\n"), ()⟩]

theorem calls_announced (what : String) (address : List Byte) (t : List (Event Process)) :
    calls (announced what address ++ t) = calls t := by
  rw [calls_append]
  rfl

/-- Output is always possible and changes nothing of the kernel. -/
def Streams (F : Env Process Kernel) : Prop :=
  ∀ w text, F.may w (.cout text) () ∧ F.after w (.cout text) () = w

section Whole
variable {F : Env Process Kernel} {α β : Type} {w : Kernel} {t : List (Event Process)}

theorem run_cout (hF : Streams F) {text : List Byte} {f : Unit → Code β} {b : β} :
    (Prog.call (S := Process) (.cout text) f).Run F w t (.ok b) ↔
      ∃ v, t = ⟨.cout text, ()⟩ :: v ∧ (f ()).Run F w v (.ok b) := by
  obtain ⟨hmay, hafter⟩ := hF w text
  constructor
  · rintro ⟨_, v, rfl, _, hrest⟩
    rw [hafter] at hrest
    exact ⟨v, rfl, hrest⟩
  · rintro ⟨v, rfl, hrest⟩
    refine ⟨(), v, rfl, hmay, ?_⟩
    rw [hafter]
    exact hrest

theorem run_announce (hF : Streams F) {db : NetDb} {what : String} {address : Address}
    {f : Unit → Code β} {b : β} :
    ((cout what).bind fun _ => (coutAddress db address).bind fun _ =>
      (cout ".\n").bind f).Run F w t (.ok b) ↔
      ∃ text v, address.print db = some text ∧ t = announced what text ++ v ∧
        (f ()).Run F w v (.ok b) := by
  unfold coutAddress
  cases address.print db with
  | none =>
    constructor
    · intro h
      obtain ⟨_, _, hstop⟩ := (run_cout hF).mp h
      cases hstop.2
    · rintro ⟨_, _, hnone, _⟩
      cases hnone
  | some text =>
    constructor
    · intro h
      obtain ⟨_, rfl, h₁⟩ := (run_cout hF).mp h
      obtain ⟨_, rfl, h₂⟩ := (run_cout hF).mp h₁
      obtain ⟨v, rfl, hrest⟩ := (run_cout hF).mp h₂
      exact ⟨text, v, rfl, rfl, hrest⟩
    · rintro ⟨_, v, hsome, rfl, hrest⟩
      obtain rfl := Option.some.inj hsome
      refine (run_cout hF).mpr ⟨_, rfl, (run_cout hF).mpr ⟨_, rfl, ?_⟩⟩
      exact (run_cout hF).mpr ⟨v, rfl, hrest⟩

theorem run_sys (hF : posix.Extends F Kernel.env) {p : Syscall α} {f : α → Code β} {b : β} :
    ((sys p).bind f).Run F w t (.ok b) ↔ ∃ u v a, t = u.map posix.event ++ v ∧
      p.Run Kernel.env w u (.ok a) ∧ (f a).Run F (Kernel.env.later w u) v (.ok b) := by
  constructor
  · intro h
    obtain ⟨_, v, a, rfl, hp, hrest⟩ | ⟨_, he, _⟩ := Prog.run_bind.mp h
    · obtain ⟨u, rfl, hrun⟩ := (run_within hF).mp hp
      rw [hF.later] at hrest
      exact ⟨u, v, a, rfl, hrun, hrest⟩
    · cases he
  · rintro ⟨u, v, a, rfl, hrun, hrest⟩
    rw [← hF.later] at hrest
    exact Prog.run_bind.mpr (Or.inl ⟨_, v, a, rfl, (run_within hF).mpr ⟨u, rfl, hrun⟩, hrest⟩)

theorem run_destroy (hF : posix.Extends F Kernel.env) {d_socket : ConnectedSocket} :
    (sys d_socket.destroy).Run F w t (.ok ()) ↔ t = (closing d_socket.d_fd).map posix.event := by
  have hbind : d_socket.destroy = (closeHeld d_socket.d_fd).bind .ret := (Prog.bind_ret _).symm
  unfold sys
  rw [run_within hF, hbind]
  constructor
  · rintro ⟨_, rfl, hrun⟩
    obtain ⟨_, rfl, rfl, _⟩ := run_closeHeld_bind.mp hrun
    rw [List.append_nil]
  · rintro rfl
    exact ⟨_, rfl, run_closeHeld_bind.mpr ⟨[], (List.append_nil _).symm, rfl, rfl⟩⟩

/-- A session that has ended: its line, the run of its loop, its line again and the close. -/
theorem run_thread (hF : posix.Extends F Kernel.env) (hstreams : Streams F) {db : NetDb}
    {fuel : Nat} {content : Nat → Byte} {session : Session} :
    (session.thread db fuel content).Run F w t (.ok ()) ↔
      ∃ text u, session.d_address.print db = some text ∧
        (session.toClientSession.run fuel content).Run Kernel.env w u (.ok ()) ∧
          t = announced "Started session with: " text ++ (u.map posix.event ++
            (announced "Ended session with: " text ++
              (closing session.d_socket.d_fd).map posix.event)) := by
  unfold Session.thread Session.run
  simp only [Prog.bind_eq, Prog.bind_assoc]
  constructor
  · intro h
    obtain ⟨text, _, htext, rfl, h₁⟩ := (run_announce hstreams).mp h
    obtain ⟨u, _, _, rfl, hu, h₂⟩ := (run_sys hF).mp h₁
    obtain ⟨text', _, htext', rfl, h₃⟩ := (run_announce hstreams).mp h₂
    obtain rfl := Option.some.inj (htext.symm.trans htext')
    obtain rfl := (run_destroy hF).mp h₃
    exact ⟨text, u, htext, hu, rfl⟩
  · rintro ⟨text, u, htext, hu, rfl⟩
    refine (run_announce hstreams).mpr ⟨text, _, htext, rfl, ?_⟩
    refine (run_sys hF).mpr ⟨u, _, _, rfl, hu, ?_⟩
    exact (run_announce hstreams).mpr ⟨text, _, htext, rfl, (run_destroy hF).mpr rfl⟩

end Whole

theorem alone_streams : Streams alone := fun _ _ => ⟨trivial, rfl⟩

theorem kernel_streams : Streams kernel := fun _ _ => ⟨trivial, rfl⟩

/-- When it has ended, the close was its last call. -/
theorem thread_ended {db : NetDb} {fuel : Nat} {content : Nat → Byte} {session : Session}
    {w : Kernel} {t : List (Event Process)}
    (h : (session.thread db fuel content).Run alone w t (.ok ())) :
    ∃ u, (session.toClientSession.run fuel content).Run Kernel.env w u (.ok ()) ∧
      calls t = u ++ closing session.d_socket.d_fd := by
  obtain ⟨text, u, _, hu, rfl⟩ := (run_thread alone_extends alone_streams).mp h
  refine ⟨u, hu, ?_⟩
  rw [calls_announced, calls_append, calls_event, calls_announced, calls_event]

/-! ## Every session of the server -/

/-- What the thread of a session may have done at any moment, and when it has `ended`. -/
structure Serves (session : Session) (ended : Prop) (t : Trace) : Prop where
  echoes : Echoes t
  own : ∃ u, (∀ e ∈ u, Transfers session.d_socket.d_fd e.call) ∧
    (¬ ended ∧ t = u ∨ t = u ++ closing session.d_socket.d_fd)
  unconnected : session.d_socket.d_fd = -1 →
    t = [] ∨ ∃ n r, t = [⟨.read (-1) n, r⟩] ∧ r.res = -1

theorem thread_serves {db : NetDb} {fuel : Nat} {content : Nat → Byte} {session : Session}
    {w : Kernel} {t : List (Event Process)} {q : Code Unit}
    (h : (session.thread db fuel content).Leads alone w t q) :
    Serves session (q = .ret ()) (calls t) := by
  obtain ⟨u, p', hu, hcalls⟩ := thread_leads h
  refine ⟨?_, ?_, ?_⟩
  · rcases hcalls with hcalls | hcalls
    · rw [hcalls]
      exact leads_echoes hu
    · rw [hcalls]
      exact (leads_echoes hu).closing _
  · by_cases hended : q = .ret ()
    · rw [hended] at h
      obtain ⟨u, hu, hcalls⟩ := thread_ended h.run_ret
      exact ⟨u, ((Prog.Leads.of_run hu).uses (run_transfers _ _ _)).1, Or.inr hcalls⟩
    · exact ⟨u, (hu.uses (run_transfers _ _ _)).1, hcalls.imp_left fun h => ⟨hended, h⟩⟩
  · intro hfd
    have hnone : closing session.d_socket.d_fd = [] := if_pos hfd
    rw [hnone, List.append_nil, or_self] at hcalls
    rw [hcalls]
    exact leads_unconnected hfd hu

/-- **The sessions of the server.** At every moment of every interleaving each session has
sent back only what it has read, in order and without a gap as long as no write was cut
short before a read; its calls are on its own descriptor, and the last one before it has
ended is the close; and one that was started by an `accept` that failed has made one call at
most, which failed. -/
theorem server_echoes {inet : Inet} {db : NetDb} {σ : State Process Stop Kernel Session}
    (h : (server inet db).system.Reachable σ) {th : Thread Process Stop Session}
    (hth : th ∈ σ.threads) {session : Session} (hjob : th.job = some session) :
    Serves session (th.rest = .ret ()) (calls th.past) := by
  have halone := (Separation.separate (server_keeps inet db) h).alone th hth
  obtain ⟨job, past, rest⟩ := th
  obtain rfl : job = some session := hjob
  obtain ⟨_, ⟨fuel, content, rfl⟩, hleads⟩ := halone
  exact thread_serves hleads

/-- A session that reads two bytes, sends them back and ends with the stream. -/
def greeted (k : Int) (text : List Byte) : List (Event Process) :=
  announced "Started session with: " text ++ ((greeting k 2).map posix.event ++
    (announced "Ended session with: " text ++ (closing k).map posix.event))

theorem calls_greeted (k : Int) (text : List Byte) :
    calls (greeted k text) = greeting k 2 ++ closing k := by
  rw [greeted, calls_announced, calls_append, calls_event, calls_announced, calls_event]

/-- The server waits for the next `accept` while the first session comes to its end. -/
theorem first_echo (db : NetDb) (fd k : Int) (hfd : 0 ≤ fd) (hk : 0 ≤ k) (hne : k ≠ fd) :
    ∃ w first session text, (server dottedQuads db).system.Reachable
      ⟨w, [first, ⟨some session, greeted k text, .ret ()⟩]⟩ ∧
        session.d_socket.d_fd = k ∧ ∀ e ∈ calls first.past, NamesPeer e := by
  obtain ⟨w, first, session, hreach, rfl, hnames, hcalling, text, htext⟩ :=
    first_session db fd k hfd hk hne
  have hdivided := (Separation.separate (server_keeps dottedQuads db) hreach).divided
  have hmine : only (held session.d_socket.d_fd) ⊆ w.opened :=
    hdivided.le (i := 1) rfl
  have hopen : w.Open session.d_socket.d_fd :=
    ⟨hk, Or.inl (hmine (held_eq_some.mpr ⟨rfl, by omega⟩))⟩
  have hrun : (session.thread db 2 fun _ => 0).Run kernel w
      (greeted session.d_socket.d_fd text) (.ok ()) :=
    (run_thread kernel_extends kernel_streams).mpr
      ⟨text, _, htext, greeting_run hopen Nat.two_pos le_rfl, rfl⟩
  have hnone : ∀ e ∈ greeted session.d_socket.d_fd text,
      (server dottedQuads db).starts e.call = none := by
    have hsettled := ((Prog.Leads.of_run hrun).uses (thread_settled _ _ _ _)).1
    rintro ⟨c, r⟩ he
    cases c with
    | thread => exact (hsettled _ he).elim
    | sys | cout | cerr | exit => rfl
  have hwait : ∀ i, i ≠ 1 → ∀ th,
      [first, ⟨some session, [], session.thread db 2 fun _ => 0⟩][i]? = some th →
        Calling th.rest := by
    intro i hi th hth
    match i, hi, hth with
    | 0, _, hth =>
      obtain rfl := Option.some.inj hth
      exact hcalling
    | 1, hi, _ => exact absurd rfl hi
  have hended := reachable_goes (i := 1) hreach rfl hwait (.of_run hrun) hnone
  exact ⟨_, first, session, text, hended, rfl, hnames⟩

theorem server_echoes_first : ∃ (th : Thread Process Stop Session) (session : Session),
    session.d_socket.d_fd = 4 ∧ th.rest = .ret () ∧
      calls th.past = greeting 4 2 ++ [⟨.close 4, ()⟩] ∧
        Serves session (th.rest = .ret ()) (calls th.past) := by
  obtain ⟨w, first, session, text, hreach, hfd, _⟩ :=
    first_echo noNames 3 4 (by decide) (by decide) (by decide)
  exact ⟨_, session, hfd, rfl, calls_greeted 4 text,
    server_echoes hreach (List.mem_cons_of_mem _ (List.mem_singleton.mpr rfl)) rfl⟩

/-! ## The buffer that is not initialised -/

section Content
variable {w : Kernel} {this : ClientSession} {s s' : Variables}

/-- The result of a read does not depend on the reader. -/
theorem read_follows (reader reader' : ConnectedReader) (d_socket : ConnectedSocket) {size : Nat}
    (hsize : (size : Int) ≤ INT_MAX) :
    Follows Kernel.env w (reader.read d_socket size) (reader'.read d_socket size) fun x x' =>
      x = x' ∧ (x.1.okay = true → x.1.last_bytes = x.2.length ∧ x.2.length ≤ size) := by
  refine Follows.call fun r hr => ?_
  dsimp only [Prog.ret_bind]
  rcases hr with hfailed | ⟨hres, hle, _⟩
  · have hint : toInt r.res = -1 := by
      rw [hfailed.1]
      decide
    rw [if_pos hint]
    exact Follows.ret ⟨rfl, fun hokay => absurd hokay (Bool.eq_false_iff.mp hfailed.not_okay)⟩
  · have hmax : r.res ≤ INT_MAX := by omega
    have hint : toInt r.res = r.res := toInt_of_le (by omega) hmax
    have hcount : toSize r.res = r.bytes.length := by
      have hsame := toSize_of_nonneg (show 0 ≤ r.res by omega) hmax
      omega
    rw [hint, if_neg (show ¬ r.res = -1 by omega), if_neg (show ¬ r.res < 0 by omega),
      if_neg (show ¬ r.res = -1 by omega)]
    exact Follows.ret ⟨rfl, fun _ => ⟨hcount, hle⟩⟩

/-- The variables of two loops over buffers that may differ. -/
def SameSize (s s' : Variables) : Prop :=
  s.buffer.length = c_bufferSize ∧ s'.buffer.length = c_bufferSize

/-- What is written is what was read into the buffer, whatever it held before. -/
theorem turn_follows (h : SameSize s s') :
    Follows Kernel.env w (this.turn s) (this.turn s') (Sum.LiftRel SameSize Eq) := by
  obtain ⟨hs, hs'⟩ := h
  unfold ClientSession.turn
  rw [hs, hs']
  refine Follows.bind (read_follows _ _ _ (by decide)) ?_
  rintro w ⟨reader, data⟩ _ ⟨rfl, hread⟩
  dsimp only at hread ⊢
  split
  · rename_i hokay
    obtain ⟨hcount, hle⟩ := hread hokay
    rw [hcount, take_patch_zero, take_patch_zero]
    refine Follows.bind (Follows.refl _) ?_
    rintro w writer _ rfl
    split
    · refine Follows.ret (.inl ⟨?_, ?_⟩)
      · rw [length_patch (by omega), hs]
      · rw [length_patch (by omega), hs']
    · exact Follows.ret (.inr rfl)
  · exact Follows.ret (.inr rfl)

theorem run_follows (fuel : Nat) (content content' : Nat → Byte) :
    Follows Kernel.env w (this.run fuel content) (this.run fuel content') Eq :=
  Follows.loop (fun _ _ _ => turn_follows) fuel ⟨length_fill _ _, length_fill _ _⟩

theorem thread_follows (db : NetDb) (fuel : Nat) (content content' : Nat → Byte)
    (session : Session) : Follows alone w (session.thread db fuel content)
      (session.thread db fuel content') Eq := by
  unfold Session.thread Session.run
  simp only [Prog.bind_eq, Prog.bind_assoc]
  refine Follows.bind (Follows.refl _) ?_
  rintro w _ _ rfl
  refine Follows.bind (Follows.refl _) ?_
  rintro w _ _ rfl
  refine Follows.bind (Follows.refl _) ?_
  rintro w _ _ rfl
  refine Follows.bind ((run_follows fuel content content').within alone_extends) ?_
  rintro w _ _ rfl
  exact Follows.refl _

end Content

/-- **The buffer of a session.** It is not initialised, and no run of a session shows what it
held: the same calls with the same data, the same output and the same end. -/
theorem content_unseen {db : NetDb} {fuel : Nat} {content content' : Nat → Byte}
    {session : Session} {w : Kernel} {t : List (Event Process)} {o : Except Stop Unit} :
    (session.thread db fuel content).Run alone w t o ↔
      (session.thread db fuel content').Run alone w t o :=
  (thread_follows db fuel content content' session).run_iff
    (thread_follows db fuel content' content session)

end Sydn.Examples.EchoServer
