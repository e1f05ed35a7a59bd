import Sydn.Net.AddressObjects
import Sydn.Net.UnixAddress

/-!
# Unix addresses in any program

A path that is accepted fills the whole of `sun_path`, so of a `sockaddr_un` with the
family in front nothing is left of what was there: neither of earlier paths nor of
what the memory held, in whichever object the path is set.
-/

namespace Sydn.Net

open Sydn.Found.Interaction
open Sydn.Found.Objects
open Sydn.Found.CString
open Sydn.Mem (Byte Owned patch)

namespace UnixAddress

/-- A Unix address in the place of `a`, by the copy assignment of the base class. -/
def assigned (a : Address) (other : UnixAddress) (content : Nat → Byte) : UnixAddress where
  toAddress := a.assigned other.toAddress content
  sized := by
    rw [Address.size_assigned]
    exact other.sized
  unix := (Address.family_congr Address.size_assigned Address.bytes_assigned).trans other.unix

/-- The implicit copy assignment. -/
def copyAssign (a other : UnixAddress) : Syscall UnixAddress := do
  let content ← a.allocate other.size
  return assigned a.toAddress other content

/-- The implicit copy constructor. -/
def copy (other : UnixAddress) : Syscall UnixAddress := do
  let content ← Address.init.allocate other.size
  return assigned Address.init other content

/-- The class `unix_address`: made from a path and given others, but not moved. -/
def objects : Class UnixAddress (List Byte) (List Byte) where
  made path a := Yields (construct path) a
  called a path b := b = (a.set_path path).2
  copied other a := Yields other.copy a
  assigned a other b := Yields (a.copyAssign other) b
  moved _ _ _ := False
  moveAssigned _ _ _ _ := False

/-- The bytes of a `sockaddr_un` with the path: the family, the path up to its first zero
byte, and zeros to the end of the field. -/
def sockaddrOf (path : List Byte) : List Byte :=
  [1, 0] ++ shown 0 path ++ List.replicate (sizeofSunPath - (shown 0 path).length) 0

section Bytes
variable {a b : UnixAddress} {path : List Byte}

/-- These are the family and what the copy of a path that fits makes of the field. -/
theorem sockaddrOf_eq (h : path.length ≤ sizeofSunPath) :
    sockaddrOf path = [1, 0] ++ strncpy 0 sizeofSunPath path := by
  rw [sockaddrOf, strncpy_eq h, List.append_assoc]

theorem length_sockaddrOf (h : path.length ≤ sizeofSunPath) :
    (sockaddrOf path).length = sizeofSockaddrUn := by
  rw [sockaddrOf_eq h, List.length_append, length_strncpy]
  rfl

theorem size_set_path : (a.set_path path).2.size = a.size := by
  by_cases h : path.length ≤ sizeofSunPath
  · rw [set_path_of_le h]
    exact Address.size_stored
  · rw [set_path_of_lt (not_le.mp h)]

/-- The family stays in front and the path fills what is behind it. -/
theorem native_set_path (hsize : a.size = sizeofSockaddrUn)
    (haccepts : (a.set_path path).1 = true) :
    (a.set_path path).2.native = some (sockaddrOf path) := by
  have h : path.length ≤ sizeofSunPath := set_path_accepts.mp haccepts
  have hne : a.size ≠ 0 := by
    rw [hsize]
    decide
  have hfamily : a.d_data.storage.take 2 = [1, 0] := by
    rw [← Address.take_bytes hne]
    exact (Address.family_iff hne 1 0).mp a.unix
  have hstorage : (a.copied path).d_data.storage =
      sockaddrOf path ++ a.d_data.storage.drop sizeofSockaddrUn := by
    rw [storage_copied, patch, length_strncpy]
    change a.d_data.storage.take 2 ++ _ ++ _ = _
    rw [hfamily, sockaddrOf_eq h]
    rfl
  have hcopied : (a.copied path).size = sizeofSockaddrUn := Address.size_stored.trans hsize
  have hbytes : (a.copied path).bytes = sockaddrOf path := by
    have htake : (a.copied path).bytes =
        (a.copied path).d_data.storage.take (a.copied path).size := rfl
    rw [htake, hcopied, hstorage]
    exact List.take_left' (length_sockaddrOf h)
  rw [set_path_of_le h, Address.native, if_pos (by rw [hcopied]; decide), hbytes]

end Bytes

/-- Every object of a program has the size of a `sockaddr_un`. -/
theorem sized_keeps : objects.Keeps fun a => a.size = sizeofSockaddrUn where
  made path a h := by
    obtain ⟨w, t, hrun⟩ := h
    obtain ⟨content, rfl⟩ := run_construct hrun
    exact size_set_path.trans Address.size_unsetUnix
  called a _ path b ha h := by
    rw [h]
    exact size_set_path.trans ha
  copied other _ a hother h := by
    obtain ⟨w, t, hrun⟩ := h
    obtain ⟨content, _, rfl⟩ := Prog.run_map.mp hrun
    exact Address.size_assigned.trans hother
  assigned a _ other _ b _ hother h := by
    obtain ⟨w, t, hrun⟩ := h
    obtain ⟨content, _, rfl⟩ := Prog.run_map.mp hrun
    exact Address.size_assigned.trans hother
  moved _ _ _ _ _ h := h.elim
  moveAssigned _ _ _ _ _ _ _ _ h := h.elim

end UnixAddress

open UnixAddress

/-- **An accepted path.** Any two objects of any two programs have the same bytes after a
path that both accept: the family, the path up to its first zero byte and zeros behind. -/
theorem accepted_path_bytes {σ τ : Pool UnixAddress} {i j : Nat} {a b : UnixAddress}
    {path : List Byte} (hσ : UnixAddress.objects.programs.Reachable σ)
    (hτ : UnixAddress.objects.programs.Reachable τ) (hi : σ i = some a) (hj : τ j = some b)
    (ha : (a.set_path path).1 = true) (hb : (b.set_path path).1 = true) :
    (a.set_path path).2.native = (b.set_path path).2.native ∧
      (a.set_path path).2.native = some (sockaddrOf path) ∧
      (sockaddrOf path).length = sizeofSockaddrUn := by
  have hnative := native_set_path (sized_keeps.holds hσ hi) ha
  refine ⟨?_, hnative, length_sockaddrOf (set_path_accepts.mp ha)⟩
  rw [hnative, native_set_path (sized_keeps.holds hτ hj) hb]

/-- A program with one object, made in memory that held `content`. -/
theorem reachable_construct (path : List Byte) (content : Nat → Byte) :
    UnixAddress.objects.programs.Reachable
      (Function.update (fun _ => none) 0 (some ((unset content).set_path path).2)) := by
  have hmade : Yields (construct path) ((unset content).set_path path).2 :=
    construct_run path content
  exact .step (.init rfl) (.make rfl hmade : UnixAddress.objects.Step _ (.make 0 path) _)

/-- A rejected path over memory full of ones, and a long path over zeros. -/
theorem accepted_path_test :
    (((unset fun _ => 1).set_path (97 :: fullPath)).2.set_path (ascii "/tmp")).2.native =
      (((unset fun _ => 0).set_path fullPath).2.set_path (ascii "/tmp")).2.native :=
  (accepted_path_bytes (i := 0) (j := 0) (reachable_construct (97 :: fullPath) fun _ => 1)
    (reachable_construct fullPath fun _ => 0) rfl rfl rfl rfl).1

end Sydn.Net
