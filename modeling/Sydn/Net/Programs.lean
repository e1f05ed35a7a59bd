import Sydn.Found.Transition
import Sydn.Net.Descriptors

/-!
# Programs over socket objects

Any number of sockets of the three classes, created, used, copied and destroyed in
any order, while the kernel answers as it may and the rest of the process opens
and closes descriptors of its own between the calls. Copies are those the
compiler supplies: none of the classes declares or deletes one. Addresses are
passed in by value, since no descriptor depends on what becomes of them.
-/

namespace Sydn.Net

open Sydn.Found.Interaction
open Sydn.Found.Transition

inductive Obj where
  | connected (s : ConnectedSocket)
  | listening (s : ListenSocket)
  | posix (s : PosixSocketBuffer)

namespace Obj

def d_fd : Obj → Int
  | .connected s => s.d_fd
  | .listening s => s.d_fd
  | .posix s => s.d_fd

def connect (type : SocketType) (remote_address local_address : Address) :
    Obj → Option (Syscall Obj)
  | .connected s => some do
      let (s, _) ← s.connect type remote_address local_address
      return .connected s
  | .posix s => some do
      let (s, _) ← s.connect type remote_address local_address
      return .posix s
  | .listening _ => none

def listen (type : SocketType) (local_address : Address) : Obj → Option (Syscall Obj)
  | .posix s => some do
      let (s, _) ← s.listen type local_address
      return .posix s
  | _ => none

def importFd (fd : Int) : Obj → Option (Syscall Obj)
  | .connected s => some do
      let s ← s.importFd fd
      return .connected s
  | _ => none

/-- The accepting object and its target after the call. -/
def accept : Obj → Obj → Option (Syscall (Obj × Obj))
  | .listening s, .connected socket => some do
      let (s, socket) ← s.accept socket
      return (.listening s, .connected socket)
  | .posix s, .posix socket => some do
      let (socket, _) ← s.accept socket
      return (.posix s, .posix socket)
  | _, _ => none

def acceptWithAddress (same : Bool) (address : Address) :
    Obj → Obj → Option (Syscall (Obj × Obj))
  | .listening s, .connected socket => some do
      let (s, socket, _) ← s.acceptWithAddress socket address
      return (.listening s, .connected socket)
  | .posix s, .posix socket => some do
      let (socket, _, _) ← s.acceptWithAddress same socket address
      return (.posix s, .posix socket)
  | _, _ => none

def destroy : Obj → Syscall Unit
  | .connected s => s.destroy
  | .listening s => s.destroy
  | .posix s => s.destroy

/-- The implicit copy constructor: every member is copied. -/
def copy : Obj → Syscall Obj
  | .listening s => do
      let d_local_address ← s.d_local_address.copy
      return .listening { s with d_local_address := d_local_address }
  | x => .ret x

/-- The implicit copy assignment. -/
def copyAssign : Obj → Obj → Option (Syscall Obj)
  | .connected _, .connected other => some (.ret (.connected other))
  | .posix _, .posix other => some (.ret (.posix other))
  | .listening s, .listening other => some do
      let d_local_address ← s.d_local_address.copyAssign other.d_local_address
      return .listening { other with d_local_address := d_local_address }
  | _, _ => none

end Obj

abbrev Objs := Nat → Option Obj

/-- The descriptor object `i` holds. -/
def heldBy (objs : Objs) (i : Nat) : Option Int := (objs i).bind fun x => held x.d_fd

inductive Op where
  | connected (i : Nat)
  | listening (i : Nat) (type : SocketType) (local_address : Address)
  | posix (i : Nat)
  | connect (i : Nat) (type : SocketType) (remote_address local_address : Address)
  | listen (i : Nat) (type : SocketType) (local_address : Address)
  | importFd (i : Nat) (fd : Int)
  | accept (i j : Nat)
  | acceptWithAddress (i j : Nat) (address : Address)
  | copyCreate (i j : Nat)
  | copyAssign (i j : Nat)
  | destroy (i : Nat)
  | elsewhere (foreign : Set Int)

namespace Op

/-- The object whose descriptor the operation may change. -/
def target : Op → Nat
  | .connected i | .listening i _ _ | .posix i | .connect i _ _ _ | .listen i _ _
  | .importFd i _ | .copyCreate i _ | .copyAssign i _ | .destroy i => i
  | .accept _ j | .acceptWithAddress _ j _ => j
  | .elsewhere _ => 0

/-- A new object for a number that has none. -/
def create (objs : Objs) (i : Nat) (p : Syscall Obj) : Option (Syscall Objs) :=
  match objs i with
  | some _ => none
  | none => some do
      let x ← p
      return Function.update objs i (some x)

/-- A member function of object `i`, where it has one. -/
def on (objs : Objs) (i : Nat) (f : Obj → Option (Syscall Obj)) : Option (Syscall Objs) := do
  let x ← objs i
  let p ← f x
  return p.bind fun x => .ret (Function.update objs i (some x))

/-- A member function of object `i` called with object `j`. -/
def between (objs : Objs) (i j : Nat) (f : Obj → Obj → Option (Syscall (Obj × Obj))) :
    Option (Syscall Objs) := do
  let x ← objs i
  let y ← objs j
  let p ← f x y
  return p.bind fun a =>
    .ret (Function.update (Function.update objs i (some a.1)) j (some a.2))

/-- What the operation does, where the objects it names are there and have the operation. -/
def exec (objs : Objs) : Op → Option (Syscall Objs)
  | .connected i => create objs i (.ret (.connected {}))
  | .listening i type local_address => create objs i do
      let s ← ListenSocket.construct type local_address
      return .listening s
  | .posix i => create objs i (.ret (.posix {}))
  | .connect i type remote_address local_address =>
      on objs i (Obj.connect type remote_address local_address)
  | .listen i type local_address => on objs i (Obj.listen type local_address)
  | .importFd i fd => on objs i (Obj.importFd fd)
  | .accept i j => between objs i j Obj.accept
  | .acceptWithAddress i j address => between objs i j (Obj.acceptWithAddress (i == j) address)
  | .copyCreate i j => (objs j).bind fun y => create objs i y.copy
  | .copyAssign i j => (objs j).bind fun y => on objs i fun x => x.copyAssign y
  | .destroy i => (objs i).map fun x => x.destroy.bind fun _ => .ret (Function.update objs i none)
  | .elsewhere _ => some (.ret objs)

/-- A descriptor handed to `import` is open and held by no object; the rest of the
process has descriptors of its own. -/
def Allowed (objs : Objs) (w : Kernel) : Op → Prop
  | .importFd _ fd => w.Open fd ∧ ∀ j, heldBy objs j ≠ some fd
  | .elsewhere foreign => ∀ fd ∈ foreign, fd ∉ w.opened
  | _ => True

/-- The kernel when the operation starts. -/
def enter (w : Kernel) : Op → Kernel
  | .importFd _ fd => w.adopt fd
  | .elsewhere foreign => { w with foreign := foreign }
  | _ => w

def Copies : Op → Prop
  | .copyCreate .. | .copyAssign .. => True
  | _ => False

end Op

structure System where
  objs : Objs
  kernel : Kernel

/-- One operation, from its first call to its end. -/
def System.Does (σ : System) (op : Op) (t : Trace) (o : Except Stop Objs) : Prop :=
  op.Allowed σ.objs σ.kernel ∧
    ∃ p, op.exec σ.objs = some p ∧ p.Run Kernel.env (op.enter σ.kernel) t o

/-- The state an operation leaves. -/
def System.next (σ : System) (op : Op) (t : Trace) (objs : Objs) : System :=
  ⟨objs, Kernel.env.later (op.enter σ.kernel) t⟩

/-- Programs start with no object; what is open then belongs to the rest of the process. -/
def programs : LTS System Op where
  init σ := (∀ i, σ.objs i = none) ∧ σ.kernel.opened = ∅
  step σ op σ' := ∃ t objs, σ.Does op t (.ok objs) ∧ σ' = σ.next op t objs

end Sydn.Net
