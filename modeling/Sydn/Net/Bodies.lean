import Sydn.Net.Address

/-!
# The bodies the socket classes share

`connected_socket`, `listen_socket` and `posix_socket_buffer` repeat the same text
around one descriptor. Each body is written here once over the values of `d_fd`;
what differs between the classes is a parameter.
-/

namespace Sydn.Net

open Sydn.Found.Interaction
open ErrorCondition (default_error_condition)

/-- `enum class type`. -/
inductive SocketType where
  | Stream
  deriving DecidableEq

/-- `static_cast<int>(type)`: `SOCK_STREAM`. -/
def SocketType.toInt : SocketType → Int
  | .Stream => 1

/-- `if (-1 != d_fd) { close(d_fd); }` -/
def closeHeld (d_fd : Int) : Syscall Unit := if d_fd = -1 then .ret () else Posix.close d_fd

/-- `import`: the new `d_fd`. -/
def importFd (d_fd fd : Int) : Syscall Int := do
  closeHeld d_fd
  return fd

/-- `::bind`, where there is a local address; `res` is zero where there is none. -/
def bindLocal (d_fd : Int) (local_address : Address) : Syscall Status :=
  if local_address.notNull then Posix.bind d_fd local_address else .ret ⟨0, 0⟩

/-- `connect`: the new `d_fd` and the condition returned. -/
def connectFd (d_fd : Int) (type : SocketType) (remote_address local_address : Address) :
    Syscall (Int × ErrorCondition) := do
  closeHeld d_fd
  let r ← Posix.socket remote_address.family type.toInt 0
  let d_fd := r.res
  if d_fd = -1 then return (d_fd, default_error_condition r.errno)
  else
    let r ← bindLocal d_fd local_address
    if r.res = -1 then return (d_fd, default_error_condition r.errno)
    else
      let r ← Posix.connect d_fd remote_address
      if r.res = -1 then return (d_fd, default_error_condition r.errno)
      else return (d_fd, {})

/-- `accept` without an address: the condition where the call failed, and the `d_fd`
of the target, which was `target`. -/
def acceptFd (d_fd target : Int) : Syscall (Option ErrorCondition × Int) := do
  let r ← Posix.accept d_fd
  if r.res = -1 then return (some (default_error_condition r.errno), target)
  else
    let target ← importFd target r.res
    return (none, target)

/-- `accept` with an address. The classes differ in the size `provisional` the address
is given before the call and in the descriptor `again` that the retry asks, which
may be the accepted one. -/
def acceptAddressFd (d_fd target : Int) (provisional : Nat) (again : Int → Int)
    (address : Address) : Syscall (Option ErrorCondition × Int × Address) := do
  let address ← address.resize provisional
  let (r, address, addressLength) ← Posix.acceptFrom d_fd address (socklen address.capacity)
  if r.res = -1 then return (some (default_error_condition r.errno), target, address)
  else
    let target ← importFd target r.res
    let address ← address.resize addressLength
    if addressLength > address.capacity then
      let (s, address, _) ← Posix.getsockname (again r.res) address addressLength
      return (none, target, if s.res = -1 then address.clear else address)
    else return (none, target, address)

/-- One turn of the loop of `local_address`: try again, or be done with a condition. -/
def localAddressTurn (d_fd : Int) (address : Address) :
    Syscall (Address ⊕ (Address × ErrorCondition)) := do
  let (r, address, len) ← Posix.getsockname d_fd address (socklen address.capacity)
  if r.res = -1 then return .inr (address.reset, default_error_condition r.errno)
  else
    let loop := decide (len > address.capacity)
    let address ← address.resize len
    return if loop then .inl address else .inr (address, {})

/-- `local_address`, over the address it fills in. -/
def localAddressFd (fuel : Nat) (d_fd : Int) (address : Address) :
    Syscall (Address × ErrorCondition) := do
  let address ← address.resize sizeofSockaddr
  Prog.loop .fuel (localAddressTurn d_fd) fuel address

end Sydn.Net
