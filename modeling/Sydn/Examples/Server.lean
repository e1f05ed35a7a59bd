import Sydn.Examples.EchoServer
import Sydn.Found.Inclusion
import Sydn.Found.Threads
import Sydn.Net.Ipv4Address

/-!
# The echo server

`main` makes one server, which listens and then accepts for ever. Each `accept` is
followed by a thread that has the session, whether the call succeeded or not: nothing
looks at the status of the listening socket again. The thread destroys its session when
it has run.

The endless loop of the server and the loops of its sessions are bounded by any number
of turns: what has happened at some moment of an execution has happened with bounds that
are large enough. There are no signals: a write to a peer that is gone fails, where
`SIGPIPE` would end the process.
-/

namespace Sydn.Examples.EchoServer

open Sydn.Found.Interaction
open Sydn.Found.Ownership (only)
open Sydn.Found.Threads
open Sydn.Mem (Byte)
open Sydn.Net

/-- A session with the address of its peer. -/
structure Session extends ClientSession where
  d_address : Address

/-- What the process does: system calls, one call of each `operator<<` of a stream, the
start of a thread that owns a session, and its end with the result of `main`. -/
inductive Action
  | sys (c : Sys)
  | cout (text : List Byte)
  | cerr (error : ErrorCondition)
  | thread (session : Session)
  | exit (status : Int)

@[reducible] def Action.Answer : Action → Type
  | .sys c => c.Answer
  | _ => Unit

abbrev Process : Interface := ⟨Action, Action.Answer⟩

/-- System calls among the calls of the process. -/
def posix : Inclusion Posix Process := ⟨.sys, fun _ => Equiv.refl _⟩

abbrev Code := Prog Process Stop

def sys {α : Type} (p : Syscall α) : Code α := p.within posix

def cout (text : String) : Code Unit := Prog.ask (S := Process) (.cout (ascii text))

/-- `std::cout << address`. -/
def coutAddress (db : NetDb) (address : Address) : Code Unit :=
  match address.print db with
  | some text => Prog.ask (S := Process) (.cout text)
  | none => .stop .overrun

/-- The text of the condition. -/
def cerr (error : ErrorCondition) : Code Unit := Prog.ask (S := Process) (.cerr error)

namespace Session

def run (db : NetDb) (fuel : Nat) (content : Nat → Byte) (this : Session) : Code Unit := do
  cout "Started session with: "
  coutAddress db this.d_address
  cout ".\n"
  sys (this.toClientSession.run fuel content)
  cout "Ended session with: "
  coutAddress db this.d_address
  cout ".\n"

/-- What the thread does that is given the session. -/
def thread (db : NetDb) (fuel : Nat) (content : Nat → Byte) (this : Session) : Code Unit := do
  this.run db fuel content
  sys this.d_socket.destroy

end Session

structure Server where
  d_serverAddress : Address

namespace Server

/-- The constructor. -/
def construct (inet : Inet) : Syscall Server := do
  let d_serverAddress ← Ipv4Address.construct inet (ascii "127.0.0.1") 0
  return ⟨d_serverAddress⟩

/-- One turn of the endless loop: a new session, an `accept` into it and its thread. -/
def turn (listenSocket : ListenSocket) : Code (ListenSocket ⊕ Int) := do
  let (listenSocket, d_socket, d_address) ← sys (listenSocket.acceptWithAddress {} Address.init)
  Prog.ask (S := Process) (.thread { d_socket, d_address })
  return .inl listenSocket

def run (db : NetDb) (fuel : Nat) (this : Server) : Code Int := do
  let listenSocket ← sys (ListenSocket.construct .Stream this.d_serverAddress)
  if !listenSocket.okay then
    cerr listenSocket.error
    sys listenSocket.destroy
    return 1
  else
    cout "Echoserver running on: "
    let local_address ← sys listenSocket.local_address
    coutAddress db local_address
    cout "."
    cout "\n"
    Prog.loop .fuel turn fuel listenSocket

end Server

/-- `sizeof(syd::net::connected_socket)`. -/
def sizeofConnectedSocket : Nat := 4

def main (inet : Inet) (db : NetDb) (fuel : Nat) : Code Unit := do
  cout "Size: "
  cout (toString sizeofConnectedSocket)
  cout ".\n"
  let server ← sys (Server.construct inet)
  let status ← server.run db fuel
  Prog.ask (S := Process) (.exit status)

/-! ## The process -/

/-- The kernel answers the system calls, and nothing else changes what is open. -/
def kernel : Env Process Kernel where
  may w
    | .sys c, r => w.may c r
    | .cout _, _ | .cerr _, _ | .thread _, _ | .exit _, _ => True
  after w
    | .sys c, r => w.after c r
    | .cout _, _ | .cerr _, _ | .thread _, _ | .exit _, _ => w

/-- The kernel as one thread would see it that is alone: a session that it starts takes
its descriptor along. -/
def alone : Env Process Kernel where
  may w
    | .sys c, r => w.may c r
    | .cout _, _ | .cerr _, _ | .thread _, _ | .exit _, _ => True
  after w
    | .sys c, r => w.after c r
    | .thread session, _ => { w with opened := w.opened \ only (held session.d_socket.d_fd) }
    | .cout _, _ | .cerr _, _ | .exit _, _ => w

/-- The process starts with no socket; what is open belongs to its surroundings. -/
def server (inet : Inet) (db : NetDb) : Threaded Process Stop Kernel Session where
  env := kernel
  init w := w.opened = ∅
  starts
    | .thread session => some session
    | _ => none
  body
    | none, p => ∃ fuel, p = main inet db fuel
    | some session, p => ∃ fuel content, p = session.thread db fuel content

/-- The system calls of a trace. -/
def calls (t : List (Event Process)) : Trace :=
  t.filterMap fun e =>
    match e with
    | ⟨.sys c, r⟩ => some ⟨c, r⟩
    | _ => none

end Sydn.Examples.EchoServer
