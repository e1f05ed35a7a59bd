import Sydn.Net.ConnectedSocket

/-!
# `listen_socket`

A descriptor that listens, the address it was bound to and the status of the last
call that failed. The status is only ever set: no path of `accept` clears it.
-/

namespace Sydn.Net

open Sydn.Found.Interaction
open ErrorCondition (default_error_condition)

def c_listen_backlog : Int := 128

structure ListenSocket where
  d_last_error : ErrorCondition := {}
  d_local_address : Address := Address.init
  d_fd : Int := -1

namespace ListenSocket

def check_result (this : ListenSocket) (result : Status) : Bool × ListenSocket :=
  if result.res = -1 then
    (false, { this with d_last_error := default_error_condition result.errno })
  else (true, this)

/-- The constructor. -/
def construct (type : SocketType) (local_address : Address) : Syscall ListenSocket := do
  if local_address.notNull then
    let r ← Posix.socket local_address.family type.toInt 0
    let (okay, this) := check_result { d_fd := r.res } r
    if !okay then return this
    else
      let r ← Posix.bind this.d_fd local_address
      let (okay, this) := this.check_result r
      if !okay then return this
      else
        let r ← Posix.listen this.d_fd c_listen_backlog
        let (okay, this) := this.check_result r
        if !okay then return this
        else
          let d_local_address ← this.d_local_address.resize local_address.size
          let (r, d_local_address, _) ←
            Posix.getsockname this.d_fd d_local_address (socklen d_local_address.capacity)
          let this := { this with d_local_address := d_local_address }
          return (this.check_result r.toStatus).2
  else .stop .assertion

def destroy (this : ListenSocket) : Syscall Unit := closeHeld this.d_fd

/-- What `accept` leaves in the status: a failure sets it. -/
def failed (this : ListenSocket) : Option ErrorCondition → ListenSocket
  | none => this
  | some error => { this with d_last_error := error }

/-- `accept(connected_socket &)`. -/
def accept (this : ListenSocket) (socket : ConnectedSocket) :
    Syscall (ListenSocket × ConnectedSocket) := do
  let (error, d_fd) ← acceptFd this.d_fd socket.d_fd
  return (this.failed error, ⟨d_fd⟩)

/-- `accept(connected_socket &, address &)`. -/
def acceptWithAddress (this : ListenSocket) (socket : ConnectedSocket) (address : Address) :
    Syscall (ListenSocket × ConnectedSocket × Address) := do
  let (error, d_fd, address) ←
    acceptAddressFd this.d_fd socket.d_fd this.d_local_address.size (fun _ => this.d_fd) address
  return (this.failed error, ⟨d_fd⟩, address)

def would_have_blocked (this : ListenSocket) : Bool := this.d_last_error.blocked

def okay (this : ListenSocket) : Bool := this.d_last_error.okay

def error (this : ListenSocket) : ErrorCondition := this.d_last_error

def local_address (this : ListenSocket) : Syscall Address := this.d_local_address.copy

end ListenSocket
end Sydn.Net
