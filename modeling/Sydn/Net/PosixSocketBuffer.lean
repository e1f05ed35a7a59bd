import Sydn.Net.ListenSocket

/-!
# `posix_socket_buffer`

One class for both ends of a connection. `accept` takes its target as the base
class and asserts that it is of this class, which is the type it has here; the
target may be the accepting object itself. `listen` sets the descriptor without
looking at the one it replaces.
-/

namespace Sydn.Net

open Sydn.Found.Interaction
open ErrorCondition (default_error_condition)

structure PosixSocketBuffer where
  d_fd : Int := -1
  deriving DecidableEq

namespace PosixSocketBuffer

def destroy (this : PosixSocketBuffer) : Syscall Unit := closeHeld this.d_fd

def connect (this : PosixSocketBuffer) (type : SocketType)
    (remote_address local_address : Address) :
    Syscall (PosixSocketBuffer × ErrorCondition) := do
  let (d_fd, error) ← connectFd this.d_fd type remote_address local_address
  return (⟨d_fd⟩, error)

/-- Whatever `d_fd` was before, the result of `::socket` takes its place. -/
def listen (_this : PosixSocketBuffer) (type : SocketType) (local_address : Address) :
    Syscall (PosixSocketBuffer × ErrorCondition) := do
  if local_address.notNull then
    let r ← Posix.socket local_address.family type.toInt 0
    let this : PosixSocketBuffer := ⟨r.res⟩
    if this.d_fd = -1 then return (this, default_error_condition r.errno)
    else
      let r ← Posix.bind this.d_fd local_address
      if r.res = -1 then return (this, default_error_condition r.errno)
      else
        let r ← Posix.listen this.d_fd c_listen_backlog
        if r.res = -1 then return (this, default_error_condition r.errno)
        else return (this, {})
  else .stop .assertion

/-- `accept(socket_buffer &)`. -/
def accept (this socket : PosixSocketBuffer) : Syscall (PosixSocketBuffer × ErrorCondition) := do
  let (error, d_fd) ← acceptFd this.d_fd socket.d_fd
  return (⟨d_fd⟩, error.getD {})

/-- `accept(socket_buffer &, address &)`; `same` says that `socket` is `*this`, whose
descriptor `import` replaces before the retry. -/
def acceptWithAddress (same : Bool) (this socket : PosixSocketBuffer) (address : Address) :
    Syscall (PosixSocketBuffer × Address × ErrorCondition) := do
  let (error, d_fd, address) ← acceptAddressFd this.d_fd socket.d_fd sizeofSockaddr
    (fun fd => if same then fd else this.d_fd) address
  return (⟨d_fd⟩, address, error.getD {})

def local_address (fuel : Nat) (this : PosixSocketBuffer) (address : Address) :
    Syscall (Address × ErrorCondition) := localAddressFd fuel this.d_fd address

end PosixSocketBuffer
end Sydn.Net
