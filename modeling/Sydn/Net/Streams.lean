import Sydn.Net.PosixSocketBuffer

/-!
# Reading and writing

`connected_reader` and `connected_writer` refer to a socket that may change between
the calls, so each call is given the socket as it is then; `posix_socket_buffer`
reads and writes itself. The result of the system call is 64 bits wide and kept in
an `int`. Only `connected_writer` does not assert that it is not negative.
-/

namespace Sydn.Net

open Sydn.Found.Interaction
open Sydn.Mem (Byte)
open ErrorCondition (default_error_condition)

/-- The value of an `int` that is given a `ssize_t`. -/
def toInt (res : Int) : Int := res.bmod (2 ^ 32)

/-- `static_cast<size_t>` of an `int`. -/
def toSize (res : Int) : Nat := (res % 2 ^ 64).toNat

def INT_MAX : Int := 2 ^ 31 - 1

/-- The status both classes keep of their last call. -/
structure StreamStatus where
  d_last_error : ErrorCondition := {}
  d_last_bytes : Nat := 0

namespace StreamStatus

def last_bytes (s : StreamStatus) : Nat := s.d_last_bytes

def would_have_blocked (s : StreamStatus) : Bool := s.d_last_error.blocked

/-- Also `operator bool`. -/
def okay (s : StreamStatus) : Bool := s.d_last_error.okay

def error (s : StreamStatus) : ErrorCondition := s.d_last_error

end StreamStatus

structure ConnectedReader extends StreamStatus

structure ConnectedWriter extends StreamStatus

/-- The reader after the call, and the bytes the kernel put into the span. -/
def ConnectedReader.read (_this : ConnectedReader) (d_socket : ConnectedSocket) (size : Nat) :
    Syscall (ConnectedReader × List Byte) := do
  let r ← Posix.read d_socket.native_handle size
  let data := if r.res = -1 then [] else r.bytes
  let res := toInt r.res
  if res = -1 then
    return ({ d_last_error := default_error_condition r.errno, d_last_bytes := 0 }, data)
  else if res < 0 then .stop .assertion
  else return ({ d_last_error := {}, d_last_bytes := toSize res }, data)

def ConnectedWriter.write (_this : ConnectedWriter) (d_socket : ConnectedSocket)
    (data : List Byte) : Syscall ConnectedWriter := do
  let r ← Posix.write d_socket.native_handle data
  let res := toInt r.res
  if res = -1 then
    return { d_last_error := default_error_condition r.errno, d_last_bytes := 0 }
  else return { d_last_error := {}, d_last_bytes := toSize res }

/-- The condition and the count of the call. -/
def PosixSocketBuffer.write (this : PosixSocketBuffer) (data : List Byte) :
    Syscall (ErrorCondition × Nat) := do
  let r ← Posix.write this.d_fd data
  let res := toInt r.res
  if res = -1 then return (default_error_condition r.errno, 0)
  else if res < 0 then .stop .assertion
  else return ({}, toSize res)

/-- The condition and the count of the call, and the bytes the kernel put into the span. -/
def PosixSocketBuffer.read (this : PosixSocketBuffer) (size : Nat) :
    Syscall ((ErrorCondition × Nat) × List Byte) := do
  let r ← Posix.read this.d_fd size
  let data := if r.res = -1 then [] else r.bytes
  let res := toInt r.res
  if res = -1 then return ((default_error_condition r.errno, 0), data)
  else if res < 0 then .stop .assertion
  else return (({}, toSize res), data)

end Sydn.Net
