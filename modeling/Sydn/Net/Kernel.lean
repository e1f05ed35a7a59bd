import Mathlib.Algebra.Group.Int.Defs
import Mathlib.Algebra.Group.Nat.Defs
import Sydn.Found.Interaction
import Sydn.Found.Ownership
import Sydn.Mem.Heap

/-!
# The calls the socket classes make

System calls with every answer the kernel may give, and the descriptors that are
open while they are answered. The kernel is described from its documentation:
which descriptor numbers are fresh, what a failure looks like and how an address
is reported. Which protocol state a socket is in is not part of it, so any call
on an open descriptor may succeed.
-/

namespace Sydn.Net

open Sydn.Found.Interaction
open Sydn.Mem (Byte)

/-- `std::error_condition`; every condition here is of the generic category. -/
structure ErrorCondition where
  value : Int := 0
  deriving DecidableEq

namespace ErrorCondition

def EAGAIN : Int := 11
def EWOULDBLOCK : Int := EAGAIN

/-- `std::generic_category().default_error_condition(errno)`. -/
def default_error_condition (errno : Int) : ErrorCondition := ⟨errno⟩

def operation_would_block : ErrorCondition := ⟨EWOULDBLOCK⟩
def resource_unavailable_try_again : ErrorCondition := ⟨EAGAIN⟩

/-- `operator bool`. -/
def isSet (e : ErrorCondition) : Bool := e.value != 0

/-- The two comparisons every `would_have_blocked` makes. -/
def blocked (e : ErrorCondition) : Bool :=
  e == operation_would_block || e == resource_unavailable_try_again

/-- The test every `okay` makes. -/
def okay (e : ErrorCondition) : Bool := !e.isSet && !e.blocked

theorem blocked_iff (e : ErrorCondition) :
    e.blocked = true ↔ e.value = EAGAIN ∨ e.value = EWOULDBLOCK := by
  obtain ⟨v⟩ := e
  simp [blocked, operation_would_block, resource_unavailable_try_again, EWOULDBLOCK]

theorem okay_iff (e : ErrorCondition) : e.okay = true ↔ e = {} := by
  obtain ⟨v⟩ := e
  constructor
  · intro h
    have hv : v = 0 := by
      simp only [okay, isSet, Bool.and_eq_true, Bool.not_eq_true'] at h
      simpa using h.1
    rw [hv]
  · intro h
    cases h
    decide

end ErrorCondition

/-- Where a call may write an address: the bytes from the pointer to the end of its
storage, `none` for a null pointer, and the length passed in. -/
structure Buffer where
  room : Option Nat
  len : Nat

/-- An address as the kernel reports it; a `socklen_t` holds its length. -/
structure SockName where
  bytes : List Byte
  lt_len : bytes.length < 2 ^ 32

def SockName.length (name : SockName) : Nat := name.bytes.length

inductive Sys where
  | socket (domain type protocol : Int)
  | bind (fd : Int) (address : Option (List Byte)) (len : Nat)
  | connect (fd : Int) (address : Option (List Byte)) (len : Nat)
  | listen (fd backlog : Int)
  | accept (fd : Int) (address : Option Buffer)
  | getsockname (fd : Int) (address : Buffer)
  | read (fd : Int) (count : Nat)
  | write (fd : Int) (data : List Byte)
  | close (fd : Int)
  | new (size : Nat)

/-- The result of a call and `errno` after it. -/
structure Status where
  res : Int
  errno : Int

/-- With the address reported by a call that succeeds. -/
structure Named extends Status where
  name : SockName

/-- With the bytes transferred by a call that succeeds. -/
structure Received extends Status where
  bytes : List Byte

@[reducible] def Sys.Answer : Sys → Type
  | .socket .. | .bind .. | .connect .. | .listen .. | .write .. => Status
  | .accept .. | .getsockname .. => Named
  | .read .. => Received
  | .close _ => Unit
  | .new _ => Nat → Byte

abbrev Posix : Interface := ⟨Sys, Sys.Answer⟩

/-- How a function may end other than by returning. -/
inductive Stop where
  | assertion
  | overrun
  | fuel
  deriving DecidableEq

abbrev Syscall := Prog Posix Stop

abbrev Trace := List (Event Posix)

/-- The descriptors open in the process: those opened by the socket objects or
handed to them, and those of the rest of the process. -/
structure Kernel where
  opened : Set Int
  foreign : Set Int

namespace Kernel

def Open (w : Kernel) (fd : Int) : Prop := 0 ≤ fd ∧ (fd ∈ w.opened ∨ fd ∈ w.foreign)

def Fresh (w : Kernel) (fd : Int) : Prop := 0 ≤ fd ∧ ¬ w.Open fd

def Failed (r : Status) : Prop := r.res = -1 ∧ 0 < r.errno

/-- What the kernel may answer. New memory may hold anything. -/
def may (w : Kernel) : (c : Sys) → c.Answer → Prop
  | .socket .., r => Failed r ∨ w.Fresh r.res
  | .bind fd .., r | .connect fd .., r | .listen fd _, r => Failed r ∨ (r.res = 0 ∧ w.Open fd)
  | .accept fd _, r => Failed r.toStatus ∨ (w.Fresh r.res ∧ w.Open fd)
  | .getsockname fd _, r => Failed r.toStatus ∨ (r.res = 0 ∧ w.Open fd)
  | .read fd count, r =>
      Failed r.toStatus ∨ (r.res = r.bytes.length ∧ r.bytes.length ≤ count ∧ w.Open fd)
  | .write fd data, r => Failed r ∨ (0 ≤ r.res ∧ r.res ≤ data.length ∧ w.Open fd)
  | .close _, _ | .new _, _ => True

/-- A call that returned a descriptor opened it. -/
def opening (w : Kernel) (res : Int) : Kernel :=
  if res = -1 then w else { w with opened := insert res w.opened }

def closing (w : Kernel) (fd : Int) : Kernel := ⟨w.opened \ {fd}, w.foreign \ {fd}⟩

def after (w : Kernel) : (c : Sys) → c.Answer → Kernel
  | .socket .., r => w.opening r.res
  | .accept .., r => w.opening r.res
  | .close fd, _ => w.closing fd
  | .bind .., _ | .connect .., _ | .listen .., _ | .getsockname .., _ | .read .., _
  | .write .., _ | .new _, _ => w

/-- A foreign descriptor is handed to an object. -/
def adopt (w : Kernel) (fd : Int) : Kernel := ⟨insert fd w.opened, w.foreign \ {fd}⟩

end Kernel

/-- The environment every function below runs in. -/
abbrev Kernel.env : Env Posix Kernel := ⟨Kernel.may, Kernel.after⟩

theorem Kernel.Failed.condition_ne {r : Status} (h : Kernel.Failed r) :
    ErrorCondition.default_error_condition r.errno ≠ {} := by
  intro hclear
  have hvalue : r.errno = 0 := congrArg ErrorCondition.value hclear
  exact h.2.ne' hvalue

/-- The condition of a call that failed is never okay. -/
theorem Kernel.Failed.not_okay {r : Status} (h : Kernel.Failed r) :
    (ErrorCondition.default_error_condition r.errno).okay = false := by
  apply Bool.eq_false_iff.mpr
  intro hokay
  exact h.condition_ne ((ErrorCondition.okay_iff _).mp hokay)

/-- A call that neither opens nor closes a descriptor. -/
def Sys.Neutral : Sys → Prop
  | .socket .. | .accept .. | .close _ => False
  | _ => True

theorem Kernel.after_neutral (w : Kernel) {c : Sys} (h : c.Neutral) (r : c.Answer) :
    w.after c r = w := by
  cases c <;> first | rfl | cases h

theorem Kernel.later_neutral (w : Kernel) {t : Trace} (h : ∀ e ∈ t, e.call.Neutral) :
    Kernel.env.later w t = w := by
  induction t with
  | nil => rfl
  | cons e t ih =>
    obtain ⟨he, ht⟩ := List.forall_mem_cons.mp h
    rw [Env.later_cons]
    exact (congrArg (Kernel.env.later · t) (w.after_neutral he e.answer)).trans (ih ht)

end Sydn.Net
