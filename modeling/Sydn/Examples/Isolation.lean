import Sydn.Examples.Server

/-!
# Descriptors as the resources of the threads

Which descriptors a call of the process needs, opens and closes. A call on descriptors of
a thread's own is answered as it would be if the thread were alone in the process, since
the kernel gives no descriptor to one thread that another still has.
-/

namespace Sydn.Examples.EchoServer

open Sydn.Found.Interaction
open Sydn.Found.Ownership
open Sydn.Found.Threads
open Sydn.Mem (Byte)
open Sydn.Net

/-- The descriptors a system call is about; a call on `-1` is about none and fails, but
`close` must have one. -/
def uses : Sys → Set Int
  | .bind fd .. | .connect fd .. | .listen fd _ | .accept fd _ | .getsockname fd _
  | .read fd _ | .write fd _ => only (held fd)
  | .close fd => {fd}
  | .socket .. | .new _ => ∅

def closed : Sys → Set Int
  | .close fd => {fd}
  | _ => ∅

def opened : (c : Sys) → c.Answer → Set Int
  | .socket .., r => only (held r.res)
  | .accept .., r => only (held r.res)
  | _, _ => ∅

namespace Action

def needs : Action → Set Int
  | .sys c => uses c
  | .thread session => only (held session.d_socket.d_fd)
  | .cout _ | .cerr _ | .exit _ => ∅

def closes : Action → Set Int
  | .sys c => closed c
  | _ => ∅

def opens : (c : Action) → c.Answer → Set Int
  | .sys c, r => opened c r
  | _, _ => ∅

end Action

section Kernel
variable {v w : Kernel} {fd : Int}

theorem open_alone (hneeds : only (held fd) ⊆ v.opened) (h : w.Open fd) : v.Open fd := by
  refine ⟨h.1, Or.inl (hneeds ?_)⟩
  have hpos := h.1
  exact held_eq_some.mpr ⟨rfl, by omega⟩

theorem fresh_alone (hforeign : v.foreign = ∅) (hle : v.opened ⊆ w.opened) (h : w.Fresh fd) :
    v.Fresh fd := by
  refine ⟨h.1, ?_⟩
  rintro ⟨_, hmem | hmem⟩
  · exact h.2 ⟨h.1, Or.inl (hle hmem)⟩
  · rw [hforeign] at hmem
    exact hmem.elim

/-- A call on descriptors of the thread's own is answered as it is answered alone. -/
theorem may_alone {c : Action} {r : c.Answer} (hforeign : v.foreign = ∅)
    (hle : v.opened ⊆ w.opened) (hneeds : c.needs ⊆ v.opened) (h : kernel.may w c r) :
    alone.may v c r := by
  match c, r, h with
  | .cout _, _, _ | .cerr _, _, _ | .thread _, _, _ | .exit _, _, _ => trivial
  | .sys (.socket ..), _, h => exact h.imp_right (fresh_alone hforeign hle)
  | .sys (.bind ..), _, h => exact h.imp_right fun h => ⟨h.1, open_alone hneeds h.2⟩
  | .sys (.connect ..), _, h => exact h.imp_right fun h => ⟨h.1, open_alone hneeds h.2⟩
  | .sys (.listen ..), _, h => exact h.imp_right fun h => ⟨h.1, open_alone hneeds h.2⟩
  | .sys (.accept ..), _, h =>
    exact h.imp_right fun h => ⟨fresh_alone hforeign hle h.1, open_alone hneeds h.2⟩
  | .sys (.getsockname ..), _, h => exact h.imp_right fun h => ⟨h.1, open_alone hneeds h.2⟩
  | .sys (.read ..), _, h => exact h.imp_right fun h => ⟨h.1, h.2.1, open_alone hneeds h.2.2⟩
  | .sys (.write ..), _, h => exact h.imp_right fun h => ⟨h.1, h.2.1, open_alone hneeds h.2.2⟩
  | .sys (.close _), _, _ | .sys (.new _), _, _ => trivial

/-- What a system call does to the open descriptors. -/
theorem opened_after (w : Kernel) (c : Sys) (r : c.Answer) :
    (w.after c r).opened = (w.opened \ closed c) ∪ opened c r := by
  match c, r with
  | .socket .., r =>
    change (w.opening r.res).opened = (w.opened \ ∅) ∪ only (held r.res)
    rw [opened_opening, Set.sdiff_empty]
  | .accept .., r =>
    change (w.opening r.res).opened = (w.opened \ ∅) ∪ only (held r.res)
    rw [opened_opening, Set.sdiff_empty]
  | .close fd, _ => exact (Set.union_empty _).symm
  | .bind .., _ | .connect .., _ | .listen .., _ | .getsockname .., _ | .read .., _
  | .write .., _ | .new _, _ =>
    change w.opened = (w.opened \ ∅) ∪ ∅
    rw [Set.sdiff_empty, Set.union_empty]

theorem foreign_opening (h : v.foreign = ∅) (res : Int) : (v.opening res).foreign = ∅ := by
  unfold Kernel.opening
  split <;> exact h

theorem foreign_after (h : v.foreign = ∅) (c : Sys) (r : c.Answer) :
    (v.after c r).foreign = ∅ := by
  match c, r with
  | .socket .., r => exact foreign_opening h r.res
  | .accept .., r => exact foreign_opening h r.res
  | .close fd, _ =>
    change v.foreign \ {fd} = ∅
    rw [h, Set.empty_sdiff]
  | .bind .., _ | .connect .., _ | .listen .., _ | .getsockname .., _ | .read .., _
  | .write .., _ | .new _, _ => exact h

/-- What is opened was not open. -/
theorem disjoint_opened {c : Sys} {r : c.Answer} (h : w.may c r) :
    Disjoint (opened c r) w.opened := by
  match c, r, h with
  | .socket .., r, h => exact Set.disjoint_left.mpr fun fd hfd => fresh_of_may h fd hfd
  | .accept .., r, h =>
    exact Set.disjoint_left.mpr fun fd hfd => fresh_of_may (h.imp_right And.left) fd hfd
  | .bind .., _, _ | .connect .., _, _ | .listen .., _, _ | .getsockname .., _, _
  | .read .., _, _ | .write .., _, _ | .close _, _, _ | .new _, _, _ =>
    exact Set.empty_disjoint _

theorem closed_subset (c : Sys) : closed c ⊆ uses c := by
  cases c with
  | close fd => exact subset_rfl
  | socket | bind | connect | listen | accept | getsockname | read | write | new =>
    exact Set.empty_subset _

theorem kernel_answers : Kernel.env.Answers := by
  intro w c
  have hfailed : Kernel.Failed ⟨-1, 9⟩ := ⟨rfl, by decide⟩
  have hnone : ([] : List Byte).length < 2 ^ 32 := by decide
  cases c with
  | socket | bind | connect | listen | write => exact ⟨⟨-1, 9⟩, Or.inl hfailed⟩
  | accept | getsockname => exact ⟨⟨⟨-1, 9⟩, ⟨[], hnone⟩⟩, Or.inl hfailed⟩
  | read => exact ⟨⟨⟨-1, 9⟩, []⟩, Or.inl hfailed⟩
  | close => exact ⟨(), trivial⟩
  | new => exact ⟨fun _ => 0, trivial⟩

theorem alone_answers : alone.Answers := by
  intro w c
  cases c with
  | sys c => exact kernel_answers w c
  | cout | cerr | thread | exit => exact ⟨(), trivial⟩

theorem alone_extends : posix.Extends alone Kernel.env := ⟨fun _ _ _ => Iff.rfl, fun _ _ _ => rfl⟩

end Kernel

/-- What a thread starts with: the first one with nothing, a session with its descriptor. -/
def begins : Option Session → Kernel
  | none => ⟨∅, ∅⟩
  | some session => ⟨only (held session.d_socket.d_fd), ∅⟩

/-- The descriptors of a thread: those it started with or has opened, but for those it has
closed or handed on. -/
def holds (th : Thread Process Stop Session) : Set Int :=
  (alone.later (begins th.job) th.past).opened

/-- Descriptors as the resources of the threads. -/
def separation (inet : Inet) (db : NetDb) : Separation (server inet db) Kernel Int where
  alone := alone
  start := begins
  mine := Kernel.opened
  ok v := v.foreign = ∅
  live := Kernel.opened
  needs := Action.needs
  closes := Action.closes
  opens := Action.opens
  init _ h := h.symm
  answers := alone_answers
  ok_start j := by cases j <;> rfl
  ok_after v c r h := by
    cases c with
    | sys c => exact foreign_after h c r
    | cout | cerr | thread | exit => exact h
  may_alone _ _ _ _ hforeign hle hneeds h := may_alone hforeign hle hneeds h
  fresh w c r h := by
    cases c with
    | sys c => exact disjoint_opened h
    | cout | cerr | thread | exit => exact Set.empty_disjoint _
  closes_needed c := by
    cases c with
    | sys c => exact closed_subset c
    | cout | cerr | thread | exit => exact Set.empty_subset _
  given_needed c j h := by
    cases c with
    | thread session =>
      obtain rfl := Option.some.inj h
      exact subset_rfl
    | sys | cout | cerr | exit => cases h
  live_call w c r _ := by
    cases c with
    | sys c => exact opened_after w c r
    | cout | cerr | thread | exit => simp [kernel, server, Action.closes, Action.opens]
  live_start w c r j h := by
    cases c with
    | thread session => rfl
    | sys | cout | cerr | exit => cases h
  mine_call w c r h := by
    cases c with
    | sys c => exact opened_after w c r
    | thread session => cases h
    | cout | cerr | exit => simp [alone, Action.closes, Action.opens]
  mine_start v c r j h := by
    cases c with
    | thread session =>
      obtain rfl := Option.some.inj h
      rfl
    | sys | cout | cerr | exit => cases h

end Sydn.Examples.EchoServer
