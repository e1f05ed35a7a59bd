import Sydn.Net.Bodies

/-!
# `connected_socket`

The class owns one descriptor, `-1` when it has none.
-/

namespace Sydn.Net

open Sydn.Found.Interaction

structure ConnectedSocket where
  d_fd : Int := -1
  deriving DecidableEq

namespace ConnectedSocket

def destroy (this : ConnectedSocket) : Syscall Unit := closeHeld this.d_fd

def connect (this : ConnectedSocket) (type : SocketType)
    (remote_address local_address : Address) : Syscall (ConnectedSocket × ErrorCondition) := do
  let (d_fd, error) ← connectFd this.d_fd type remote_address local_address
  return (⟨d_fd⟩, error)

/-- `import`. -/
def importFd (this : ConnectedSocket) (fd : Int) : Syscall ConnectedSocket := do
  let d_fd ← Net.importFd this.d_fd fd
  return ⟨d_fd⟩

def native_handle (this : ConnectedSocket) : Int := this.d_fd

/-- The address returned is the filled in one whatever the condition is. -/
def local_address (fuel : Nat) (this : ConnectedSocket) : Syscall Address := do
  let (localAddress, _) ← localAddressFd fuel this.d_fd Address.init
  return localAddress

end ConnectedSocket
end Sydn.Net
