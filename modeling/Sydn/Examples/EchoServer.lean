import Sydn.Found.History
import Sydn.Net.Status

/-!
# The sessions of the echo server

The loop of a session writes back what it has just read and goes on as long as both
calls are okay and a byte was written. Whether all bytes were is not looked at: a write
that takes fewer leaves the others behind, and the next read overwrites them.
-/

namespace Sydn.Examples.EchoServer

open Sydn.Found.Interaction
open Sydn.Mem (Byte fill patch length_fill length_patch take_patch_zero)
open Sydn.Net
open ErrorCondition (default_error_condition)

/-- The size of `buffer`. -/
def c_bufferSize : Nat := 128

structure ClientSession where
  d_socket : ConnectedSocket

/-- The variables of `run`. -/
structure Variables where
  reader : ConnectedReader := {}
  writer : ConnectedWriter := {}
  buffer : List Byte

namespace ClientSession

/-- The condition of the loop, whose body is empty. -/
def turn (this : ClientSession) (s : Variables) : Syscall (Variables ⊕ Unit) := do
  let (reader, data) ← s.reader.read this.d_socket s.buffer.length
  let buffer := patch 0 data s.buffer
  if reader.okay then
    let writer ← s.writer.write this.d_socket (buffer.take reader.last_bytes)
    if writer.okay && 0 != writer.last_bytes then return .inl ⟨reader, writer, buffer⟩
    else return .inr ()
  else return .inr ()

/-- The buffer is not initialised. -/
def run (fuel : Nat) (content : Nat → Byte) (this : ClientSession) : Syscall Unit :=
  Prog.loop .fuel this.turn fuel { buffer := fill c_bufferSize content }

end ClientSession

/-! ## What a trace reads and writes -/

/-- The bytes read, in their order. -/
def received (t : Trace) : List Byte :=
  t.flatMap fun e =>
    match e with
    | ⟨.read .., r⟩ => if r.res = -1 then [] else r.bytes
    | _ => []

/-- The bytes the kernel took of those it was handed, in their order. -/
def sent (t : Trace) : List Byte :=
  t.flatMap fun e =>
    match e with
    | ⟨.write _ data, r⟩ => data.take r.res.toNat
    | _ => []

def IsRead (e : Event Posix) : Prop :=
  match e with
  | ⟨.read .., _⟩ => True
  | _ => False

/-- A read that reports the end of the stream. -/
def EndOfStream (e : Event Posix) : Prop :=
  match e with
  | ⟨.read .., r⟩ => r.res = 0
  | _ => False

/-- Every write was taken in full. -/
def AllWritten (t : Trace) : Prop :=
  ∀ e ∈ t, match e with
    | ⟨.write _ data, r⟩ => r.res = data.length
    | _ => True

/-- Before each read all bytes read so far have been sent, and the end of the stream is
the last that is read. -/
structure Lossless (t : Trace) (o : Except Stop Unit) : Prop where
  echoed : AtEach (fun u e => IsRead e → sent u = received u) t
  ends : ∀ u e v, t = u ++ e :: v → EndOfStream e → (∀ e' ∈ v, ¬ IsRead e') ∧ o = .ok ()

section Traces
variable {t u : Trace} {fd : Int} {size : Nat} {data : List Byte}

@[simp] theorem received_append : received (t ++ u) = received t ++ received u :=
  List.flatMap_append

@[simp] theorem sent_append : sent (t ++ u) = sent t ++ sent u := List.flatMap_append

@[simp] theorem received_read {r : Received} (h : r.res ≠ -1) :
    received [⟨.read fd size, r⟩] = r.bytes := by
  simp [received, h]

@[simp] theorem received_write {r : Status} : received [⟨.write fd data, r⟩] = [] := rfl

@[simp] theorem sent_read {r : Received} : sent [⟨.read fd size, r⟩] = [] := rfl

@[simp] theorem sent_write {r : Status} :
    sent [⟨.write fd data, r⟩] = data.take r.res.toNat := by
  simp [sent]

theorem allWritten_append : AllWritten (t ++ u) ↔ AllWritten t ∧ AllWritten u :=
  List.forall_mem_append

theorem allWritten_read {r : Received} : AllWritten [⟨.read fd size, r⟩] := by
  intro e he
  cases List.mem_singleton.mp he
  trivial

theorem allWritten_write {r : Status} :
    AllWritten [⟨.write fd data, r⟩] ↔ r.res = data.length := by
  unfold AllWritten
  rw [List.forall_mem_singleton]

end Traces

/-! ## The loop -/

/-- What holds before each turn: the bytes sent are those read exactly when no write was
cut short, and there are never more of them. -/
structure Kept (past : Trace) : Prop where
  length_le : (sent past).length ≤ (received past).length
  echoed_iff : sent past = received past ↔ AllWritten past
  goes_on : ∀ e ∈ past, ¬ EndOfStream e

/-- A read of some bytes and a write of some of them. -/
theorem Kept.turn {past : Trace} (h : Kept past) {fd fd' : Int} {size : Nat} {r : Received}
    {r' : Status} (hr : r.res = r.bytes.length) (hpos : 0 < r'.res)
    (hle : r'.res ≤ r.bytes.length) :
    Kept (past ++ [⟨.read fd size, r⟩] ++ [⟨.write fd' r.bytes, r'⟩]) := by
  have hres : r.res ≠ -1 := by omega
  have hsent : sent (past ++ [⟨.read fd size, r⟩] ++ [⟨.write fd' r.bytes, r'⟩]) =
      sent past ++ r.bytes.take r'.res.toNat := by
    rw [sent_append, sent_append, sent_read, sent_write, List.append_nil]
  have hreceived : received (past ++ [⟨.read fd size, r⟩] ++ [⟨.write fd' r.bytes, r'⟩]) =
      received past ++ r.bytes := by
    rw [received_append, received_append, received_read hres, received_write, List.append_nil]
  have hwritten : AllWritten (past ++ [⟨.read fd size, r⟩] ++ [⟨.write fd' r.bytes, r'⟩]) ↔
      AllWritten past ∧ r'.res = r.bytes.length := by
    rw [allWritten_append, allWritten_append, and_iff_left allWritten_read, allWritten_write]
  have hlength := h.length_le
  refine ⟨?_, ?_, ?_⟩
  · rw [hsent, hreceived, List.length_append, List.length_append, List.length_take]
    omega
  · rw [hsent, hreceived, hwritten, ← h.echoed_iff]
    constructor
    · intro heq
      -- no bytes can be missing before, as there are never more sent than read
      have hlen := congrArg List.length heq
      rw [List.length_append, List.length_append, List.length_take] at hlen
      have hcount : r'.res.toNat = r.bytes.length := by omega
      rw [hcount, List.take_length] at heq
      exact ⟨List.append_cancel_right heq, by omega⟩
    · intro h
      obtain ⟨heq, hcount⟩ := h
      have hcount' : r'.res.toNat = r.bytes.length := by omega
      rw [heq, hcount', List.take_length]
  · simp only [List.forall_mem_append, List.forall_mem_singleton]
    refine ⟨⟨h.goes_on, ?_⟩, id⟩
    show ¬ r.res = 0
    omega

/-- What is known at each call: before a read the bytes sent are those read exactly when
all were written, and no end of the stream was seen. -/
def Echoing (past : Trace) (e : Event Posix) : Prop :=
  IsRead e → (sent past = received past ↔ AllWritten past) ∧ ∀ e' ∈ past, ¬ EndOfStream e'

section Calls
variable {α : Type} {w : Kernel × Trace} {d_socket : ConnectedSocket}
  {P : Kernel × Trace → Event Posix → Prop} {Q : Kernel × Trace → Except Stop α → Prop}

/-- The rule for a read into a span that an `int` can count. -/
theorem read_bind (reader : ConnectedReader) {size : Nat} (hsize : (size : Int) ≤ INT_MAX)
    {f : ConnectedReader × List Byte → Syscall α}
    (hP : ∀ r, P w ⟨.read d_socket.native_handle size, r⟩)
    (hfail : ∀ r (reader : ConnectedReader) data, reader.okay = false →
      Checked Kernel.env.remembering P
        (Kernel.env.remembering.after w (.read d_socket.native_handle size) r) (f (reader, data)) Q)
    (hread : ∀ (r : Received), r.res = r.bytes.length → r.bytes.length ≤ size →
      Checked Kernel.env.remembering P
        (Kernel.env.remembering.after w (.read d_socket.native_handle size) r)
        (f (⟨⟨{}, r.bytes.length⟩⟩, r.bytes)) Q) :
    Checked Kernel.env.remembering P w ((reader.read d_socket size).bind f) Q := by
  refine Checked.call fun r hr => ⟨hP r, ?_⟩
  rcases hr with hfailed | ⟨hres, hle, _⟩
  · have hint : toInt r.res = -1 := by
      rw [hfailed.1]
      decide
    dsimp only [Prog.ret_bind]
    rw [if_pos hint]
    exact hfail r _ _ hfailed.not_okay
  · have hmax : r.res ≤ INT_MAX := by omega
    have hint : toInt r.res = r.res := toInt_of_le (by omega) hmax
    have hcount : toSize r.res = r.bytes.length := by
      have hsame := toSize_of_nonneg (show 0 ≤ r.res by omega) hmax
      omega
    have hdone := hread r hres hle
    dsimp only [Prog.ret_bind]
    rw [hint, if_neg (show ¬ r.res = -1 by omega), if_neg (show ¬ r.res < 0 by omega),
      if_neg (show ¬ r.res = -1 by omega), hcount]
    exact hdone

/-- The rule for a write of such a span. -/
theorem write_bind (writer : ConnectedWriter) {data : List Byte}
    (hsize : (data.length : Int) ≤ INT_MAX) {f : ConnectedWriter → Syscall α}
    (hP : ∀ r, P w ⟨.write d_socket.native_handle data, r⟩)
    (hfail : ∀ r (writer : ConnectedWriter), writer.okay = false →
      Checked Kernel.env.remembering P
        (Kernel.env.remembering.after w (.write d_socket.native_handle data) r) (f writer) Q)
    (hwritten : ∀ (r : Status) (n : Nat), r.res = n → n ≤ data.length →
      Checked Kernel.env.remembering P
        (Kernel.env.remembering.after w (.write d_socket.native_handle data) r)
        (f ⟨⟨{}, n⟩⟩) Q) :
    Checked Kernel.env.remembering P w ((writer.write d_socket data).bind f) Q := by
  refine Checked.call fun r hr => ⟨hP r, ?_⟩
  rcases hr with hfailed | ⟨hpos, hle, _⟩
  · have hint : toInt r.res = -1 := by
      rw [hfailed.1]
      decide
    dsimp only [Prog.ret_bind]
    rw [if_pos hint]
    exact hfail r _ hfailed.not_okay
  · have hmax : r.res ≤ INT_MAX := by omega
    have hint : toInt r.res = r.res := toInt_of_le hpos hmax
    have hcount := toSize_of_nonneg hpos hmax
    have hdone := hwritten r (toSize r.res) hcount.symm (by omega)
    dsimp only [Prog.ret_bind]
    rw [hint, if_neg (show ¬ r.res = -1 by omega)]
    exact hdone

end Calls

section Turn
variable {w : Kernel × Trace} {s : Variables} {this : ClientSession}

/-- The variables before each turn. -/
def Before (w : Kernel × Trace) (s : Variables) : Prop :=
  Kept w.2 ∧ s.buffer.length = c_bufferSize

/-- A turn that goes on has read some bytes and sent some of them. -/
theorem turn_checked (h : Before w s) :
    Checked Kernel.env.remembering (fun w e => Echoing w.2 e) w (this.turn s) fun w' o =>
      match o with
      | .ok (.inl s') => Before w' s'
      | .ok (.inr _) => True
      | .error _ => False := by
  obtain ⟨hkept, hbuffer⟩ := h
  have hsize : (s.buffer.length : Int) ≤ INT_MAX := by
    rw [hbuffer]
    decide
  refine read_bind s.reader hsize (fun _ _ => ⟨hkept.echoed_iff, hkept.goes_on⟩) ?_ ?_
  · intro r reader data hokay
    dsimp only
    rw [if_neg (Bool.eq_false_iff.mp hokay)]
    exact Checked.ret.mpr trivial
  · intro r hres hle
    have hdata : (patch 0 r.bytes s.buffer).take r.bytes.length = r.bytes := take_patch_zero
    have hpatch : (patch 0 r.bytes s.buffer).length = c_bufferSize := by
      rw [length_patch (by rw [Nat.zero_add]; exact hle), hbuffer]
    show Checked _ _ _ ((s.writer.write this.d_socket
      ((patch 0 r.bytes s.buffer).take r.bytes.length)).bind _) _
    rw [hdata]
    refine write_bind s.writer (by omega) (fun _ hread => absurd hread id) ?_ ?_
    · intro r' writer hokay
      rw [hokay, Bool.false_and, if_neg Bool.false_ne_true]
      exact Checked.ret.mpr trivial
    · intro r' n hcount hn
      by_cases hzero : n = 0
      · rw [hzero]
        exact Checked.ret.mpr trivial
      · rw [if_pos]
        · exact Checked.ret.mpr ⟨hkept.turn hres (by omega) (by omega), hpatch⟩
        · show (0 != n) = true
          exact bne_iff_ne.mpr (Ne.symm hzero)

theorem run_checked (fuel : Nat) (content : Nat → Byte) (w : Kernel) :
    Checked Kernel.env.remembering (fun w e => Echoing w.2 e) (w, []) (this.run fuel content)
      fun w' o => (∃ e ∈ w'.2, EndOfStream e) → o = .ok () := by
  refine Checked.loop (I := fun _ w s => Before w s) ?_ ?_ ⟨⟨le_rfl, ?_, ?_⟩, length_fill _ _⟩
  · intro n w' s hbefore
    apply (turn_checked hbefore).mono
    intro w'' o ho
    match o, ho with
    | .ok (.inl s'), ho => exact ho
    | .ok (.inr ()), _ => exact fun _ => rfl
    | .error e, ho => exact absurd ho id
  · rintro w' s ⟨hkept, _⟩ ⟨e, he, hend⟩
    exact absurd hend (hkept.goes_on e he)
  · exact iff_of_true rfl fun e he => absurd he List.not_mem_nil
  · exact fun e he => absurd he List.not_mem_nil

end Turn

/-- **The echo.** A run of a session loses nothing if and only if every write before a
read was taken in full; that it stops at the end of the stream holds of every run. -/
theorem lossless_iff {this : ClientSession} {fuel : Nat} {content : Nat → Byte} {w : Kernel}
    {t : Trace} {o : Except Stop Unit} (hrun : (this.run fuel content).Run Kernel.env w t o) :
    Lossless t o ↔ AtEach (fun u e => IsRead e → AllWritten u) t := by
  obtain ⟨heach, hend⟩ := Checked.remembered (P := Echoing) (run_checked fuel content w) hrun
  constructor
  · intro h u e v ht hread
    exact (heach u e v ht hread).1.mp (h.echoed u e v ht hread)
  · intro h
    refine ⟨fun u e v ht hread => (heach u e v ht hread).1.mpr (h u e v ht hread), ?_⟩
    intro u e v ht heos
    refine ⟨?_, hend ⟨e, by rw [ht]; exact List.mem_append_right _ List.mem_cons_self, heos⟩⟩
    intro e' he' hread
    -- a read after the end of the stream would have seen it
    obtain ⟨v₁, v₂, rfl⟩ := List.append_of_mem he'
    have hnone := (heach (u ++ e :: v₁) e' v₂ (by rw [ht]; simp) hread).2 e
    exact hnone (List.mem_append_right _ List.mem_cons_self) heos

section Runs
variable {w : Kernel} {d_socket : ConnectedSocket} {n : Nat} {bytes : List Byte} {res res' : Int}

theorem read_run (reader : ConnectedReader) (hopen : w.Open d_socket.d_fd)
    (hres : res = bytes.length) (hle : bytes.length ≤ n) (hmax : res ≤ INT_MAX) :
    (reader.read d_socket n).Run Kernel.env w [⟨.read d_socket.d_fd n, ⟨⟨res, 0⟩, bytes⟩⟩]
      (.ok (⟨⟨{}, bytes.length⟩⟩, bytes)) := by
  have hpos : 0 ≤ res := by omega
  have hcount : toSize res = bytes.length := by
    have hsame := toSize_of_nonneg hpos hmax
    omega
  refine ⟨⟨⟨res, 0⟩, bytes⟩, [], rfl, Or.inr ⟨hres, hle, hopen⟩, ?_⟩
  dsimp only [Prog.ret_bind]
  rw [toInt_of_le hpos hmax, if_neg (show ¬ res = -1 by omega), if_neg (show ¬ res < 0 by omega),
    if_neg (show ¬ res = -1 by omega), hcount]
  exact ⟨rfl, rfl⟩

theorem write_run (writer : ConnectedWriter) (hopen : w.Open d_socket.d_fd) (hres : res = n)
    (hle : n ≤ bytes.length) (hmax : res ≤ INT_MAX) :
    (writer.write d_socket bytes).Run Kernel.env w [⟨.write d_socket.d_fd bytes, ⟨res, 0⟩⟩]
      (.ok ⟨⟨{}, n⟩⟩) := by
  have hpos : 0 ≤ res := by omega
  have hcount : toSize res = n := by
    have hsame := toSize_of_nonneg hpos hmax
    omega
  refine ⟨⟨res, 0⟩, [], rfl, Or.inr ⟨hpos, show res ≤ bytes.length by omega, hopen⟩, ?_⟩
  dsimp only [Prog.ret_bind]
  rw [toInt_of_le hpos hmax, if_neg (show ¬ res = -1 by omega), hcount]
  exact ⟨rfl, rfl⟩

/-- A turn in which `bytes` are read and `n` of them are taken. -/
theorem turn_run (this : ClientSession) (s : Variables) (bytes : List Byte) (n : Nat)
    (hopen : w.Open this.d_socket.d_fd) (hbuffer : s.buffer.length = c_bufferSize)
    (hres : res = bytes.length) (hle : bytes.length ≤ c_bufferSize) (hres' : res' = n)
    (hn : n ≤ bytes.length) : (this.turn s).Run Kernel.env w
      [⟨.read this.d_socket.d_fd s.buffer.length, ⟨⟨res, 0⟩, bytes⟩⟩,
        ⟨.write this.d_socket.d_fd bytes, ⟨res', 0⟩⟩]
      (.ok (if 0 != n then .inl ⟨⟨⟨{}, bytes.length⟩⟩, ⟨⟨{}, n⟩⟩, patch 0 bytes s.buffer⟩
        else .inr ())) := by
  have hsmall : res ≤ INT_MAX := by
    unfold c_bufferSize at hle
    unfold INT_MAX
    omega
  have hread := read_run s.reader hopen hres (hle.trans hbuffer.ge) hsmall
  have hwrite := write_run s.writer hopen hres' hn (show res' ≤ INT_MAX by omega)
  have hdata : (patch 0 bytes s.buffer).take bytes.length = bytes := take_patch_zero
  rw [← hdata] at hwrite
  refine Prog.run_bind.mpr (Or.inl ⟨_, _, _, rfl, hread, ?_⟩)
  refine Prog.run_bind.mpr (Or.inl ⟨_, [], _, ?_, hwrite, ?_⟩)
  · rw [hdata]
    rfl
  · by_cases hzero : n = 0
    · rw [hzero]
      exact ⟨rfl, rfl⟩
    · have hgo : (0 != n) = true := bne_iff_ne.mpr (Ne.symm hzero)
      have hcond : ((⟨⟨{}, n⟩⟩ : ConnectedWriter).okay &&
          0 != (⟨⟨{}, n⟩⟩ : ConnectedWriter).last_bytes) = true := hgo
      rw [if_pos hgo]
      dsimp only
      rw [if_pos hcond]
      exact ⟨rfl, rfl⟩

end Runs

section Greeting

/-- Two bytes are read, of which `n` are taken, and then the stream ends. -/
def greeting (fd n : Int) : Trace :=
  [⟨.read fd 128, ⟨⟨2, 0⟩, [104, 105]⟩⟩, ⟨.write fd [104, 105], ⟨n, 0⟩⟩] ++
    [⟨.read fd 128, ⟨⟨0, 0⟩, []⟩⟩, ⟨.write fd [], ⟨0, 0⟩⟩]

theorem greeting_run {w : Kernel} {fd : Int} (hopen : w.Open fd) {n : Nat} (hn : 0 < n)
    (hle : n ≤ 2) :
    (ClientSession.run 2 (fun _ => 0) ⟨⟨fd⟩⟩).Run Kernel.env w (greeting fd n) (.ok ()) := by
  have hgo : (0 != n) = true := bne_iff_ne.mpr (by omega)
  have hlen : (fill c_bufferSize fun _ => 0).length = c_bufferSize := length_fill _ _
  have hfirst := turn_run ⟨⟨fd⟩⟩ { buffer := fill c_bufferSize fun _ => 0 } [104, 105] n hopen hlen
    rfl (by decide) rfl hle
  rw [if_pos hgo] at hfirst
  have hpatch : (patch 0 [104, 105] (fill c_bufferSize fun _ => 0)).length = c_bufferSize := by
    rw [length_patch (by rw [hlen]; decide), hlen]
  have hsecond := turn_run ⟨⟨fd⟩⟩
    ⟨⟨⟨{}, 2⟩⟩, ⟨⟨{}, n⟩⟩, patch 0 [104, 105] (fill c_bufferSize fun _ => 0)⟩ [] 0 hopen hpatch
    rfl (by decide) rfl le_rfl
  exact Prog.run_loop_again hfirst (Prog.run_loop_done hsecond)

theorem open_three : Kernel.Open ⟨{3}, ∅⟩ 3 := ⟨by decide, Or.inl rfl⟩

theorem lossless_greeting : Lossless (greeting 3 2) (.ok ()) := by
  have hall : AllWritten (greeting 3 (2 : Nat)) := by
    unfold AllWritten greeting
    simp
  apply (lossless_iff (greeting_run open_three (by decide) le_rfl)).mpr
  intro u e v ht _
  rw [ht] at hall
  exact (allWritten_append.mp hall).1

/-- Of the two bytes read only the first is sent back. -/
theorem not_lossless : ¬ ∀ (this : ClientSession) (fuel : Nat) (content : Nat → Byte) (w : Kernel)
    (t : Trace) o, (this.run fuel content).Run Kernel.env w t o → Lossless t o := by
  intro hclaim
  have h := hclaim _ _ _ _ _ _ (greeting_run open_three Nat.zero_lt_one (by decide))
  have hsent := h.echoed [_, _] _ [_] rfl trivial
  cases hsent

end Greeting

end Sydn.Examples.EchoServer
