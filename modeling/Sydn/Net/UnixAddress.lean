import Mathlib.Data.List.Induction
import Sydn.Net.Printing

/-!
# `unix_address`

A path of up to 108 characters is copied into `sun_path` and read back up to its
terminator. A path of 108 leaves no room for one. A path that is longer is rejected,
by the constructor too, which leaves `sun_path` as the new memory held it.
-/

namespace Sydn.Net

open Sydn.Found.Interaction
open Sydn.Found.CString
open Sydn.Mem (Byte Owned fill patch)

/-- `sizeof(sockaddr_un::sun_path)`. -/
def sizeofSunPath : Nat := 108

/-- `sizeof(sockaddr_un)`. -/
def sizeofSockaddrUn : Nat := offsetofSunPath + sizeofSunPath

theorem sizeOk_sockaddr_un : SizeOk sizeofSockaddrUn := Or.inr (by decide)

namespace Address

/-- `resize(sizeof(sockaddr_un))` and `sun_family = AF_UNIX`: the path is what the new memory
held. -/
def unsetUnix (content : Nat → Byte) : Address :=
  (init.resized sizeofSockaddrUn content sizeOk_sockaddr_un).stored 0 [1, 0]

section UnsetUnix
variable {content : Nat → Byte}

@[simp] theorem size_unsetUnix : (unsetUnix content).size = sizeofSockaddrUn :=
  size_stored.trans (size_resized _)

theorem storage_unsetUnix : (unsetUnix content).d_data.storage =
    1 :: 0 :: (fill sizeofSockaddrUn content).drop 2 := by
  have hnew : (init.resized sizeofSockaddrUn content sizeOk_sockaddr_un).d_data.storage =
      fill sizeofSockaddrUn content := Owned.storage_resize_of_lt (by decide)
  have hcap : 0 + [(1 : Byte), 0].length ≤
      (init.resized sizeofSockaddrUn content sizeOk_sockaddr_un).capacity := by
    rw [capacity_resized]
    decide
  rw [unsetUnix, storage_stored hcap, hnew]
  rfl

theorem family_unsetUnix : (unsetUnix content).family = AF_UNIX := by
  have hsize : (unsetUnix content).size = 110 := size_unsetUnix
  rw [family, if_pos (by omega), bytes_getD (by omega), bytes_getD (by omega),
    storage_unsetUnix]
  rfl

end UnsetUnix

end Address

/-- An address of the family that is large enough for a `sockaddr_un`, as `path()` asserts.
The constructor makes it so and `set_path` and copies keep it so; an object that `resize`,
`clear`, `accept` or `local_address` has made smaller or given another family is not among
these. -/
structure UnixAddress extends Address where
  sized : sizeofSockaddrUn ≤ toAddress.size
  unix : toAddress.family = AF_UNIX

namespace UnixAddress

theorem le_capacity (a : UnixAddress) : sizeofSockaddrUn ≤ a.capacity :=
  a.sized.trans a.d_data.size_le_capacity

/-- The field `sun_path`. -/
def sun_path (a : UnixAddress) : List Byte :=
  (a.d_data.storage.drop offsetofSunPath).take sizeofSunPath

theorem path_fits (a : UnixAddress) (path : List Byte) :
    offsetofSunPath + (strncpy 0 sizeofSunPath path).length ≤ a.capacity := by
  rw [length_strncpy]
  exact a.le_capacity

/-- The copy of a path that fits into `sun_path`. -/
def copied (path : List Byte) (a : UnixAddress) : UnixAddress where
  toAddress := a.stored offsetofSunPath (strncpy 0 sizeofSunPath path)
  sized := by
    rw [Address.size_stored]
    exact a.sized
  unix := (Address.family_stored le_rfl (a.path_fits path)).trans a.unix

def set_path (path : List Byte) (a : UnixAddress) : Bool × UnixAddress :=
  if sizeofSunPath < path.length then (false, a) else (true, a.copied path)

/-- `path()`; `none` where it reads beyond the memory of the address. -/
def path (a : UnixAddress) : Option (List Byte) :=
  cString 0 (a.d_data.storage.drop offsetofSunPath)

/-- The object before the constructor calls `set_path`. -/
def unset (content : Nat → Byte) : UnixAddress where
  toAddress := Address.unsetUnix content
  sized := Address.size_unsetUnix.ge
  unix := Address.family_unsetUnix

/-- The constructor, which drops the result of `set_path`. -/
def construct (path : List Byte) : Syscall UnixAddress := do
  let content ← Address.init.allocate sizeofSockaddrUn
  return ((unset content).set_path path).2

/-- A sequence of calls of `set_path`. -/
def set_paths (paths : List (List Byte)) (a : UnixAddress) : UnixAddress :=
  paths.foldl (fun a path => (a.set_path path).2) a

/-! ## What a path that is accepted leaves -/

section SetPath
variable {a : UnixAddress} {db : NetDb} {path s : List Byte}

theorem set_path_of_le (h : path.length ≤ sizeofSunPath) (a : UnixAddress) :
    a.set_path path = (true, a.copied path) := if_neg (not_lt.mpr h)

theorem set_path_of_lt (h : sizeofSunPath < path.length) (a : UnixAddress) :
    a.set_path path = (false, a) := if_pos h

theorem set_path_accepts : (a.set_path path).1 = true ↔ path.length ≤ sizeofSunPath := by
  by_cases h : path.length ≤ sizeofSunPath
  · rw [set_path_of_le h]
    exact iff_of_true rfl h
  · rw [set_path_of_lt (not_le.mp h)]
    exact iff_of_false Bool.false_ne_true h

theorem set_path_rejects (h : (a.set_path path).1 = false) : (a.set_path path).2 = a := by
  have hlt : sizeofSunPath < path.length := by
    by_contra hle
    rw [set_path_accepts.mpr (not_lt.mp hle)] at h
    cases h
  rw [set_path_of_lt hlt]

/-- What follows the family: the path, then what lies beyond the `sockaddr_un`. -/
theorem drop_storage (a : UnixAddress) : a.d_data.storage.drop offsetofSunPath =
    a.sun_path ++ a.d_data.storage.drop sizeofSockaddrUn := by
  rw [sun_path, sizeofSockaddrUn, ← List.drop_drop]
  exact (List.take_append_drop _ _).symm

theorem offset_le_storage (a : UnixAddress) : offsetofSunPath ≤ a.d_data.storage.length := by
  have hcap := a.le_capacity
  rw [Owned.length_storage]
  unfold sizeofSockaddrUn at hcap
  exact (Nat.le_add_right _ _).trans hcap

@[simp] theorem length_sun_path (a : UnixAddress) : a.sun_path.length = sizeofSunPath := by
  have hcap := a.le_capacity
  unfold sizeofSockaddrUn at hcap
  rw [sun_path, List.length_take, List.length_drop, Owned.length_storage]
  exact Nat.min_eq_left (Nat.le_sub_of_add_le' hcap)

theorem storage_copied : (a.copied path).d_data.storage =
    patch offsetofSunPath (strncpy 0 sizeofSunPath path) a.d_data.storage :=
  Address.storage_stored (a.path_fits path)

theorem sun_path_copied : (a.copied path).sun_path = strncpy 0 sizeofSunPath path := by
  rw [sun_path, storage_copied, Sydn.Mem.drop_patch a.offset_le_storage]
  exact List.take_left' (length_strncpy _ _)

/-- A path that ends within the field is what `path()` returns. -/
theorem path_of_sun_path (h : cString 0 a.sun_path = some s) : a.path = some s := by
  rw [UnixAddress.path, drop_storage]
  exact cString_append h _

theorem print_of_sun_path (h : cString 0 a.sun_path = some s) :
    a.print db = some (ascii "unix:" ++ s) := by
  rw [Address.print_unix a.unix, printAddressUnix, drop_storage, cString_append h]
  rfl

/-- The field `sun_path` alone gives the path back, and so do `path()` and `operator<<`. -/
def RoundTrip (db : NetDb) (a : UnixAddress) (path : List Byte) : Prop :=
  cString 0 a.sun_path = some path ∧ a.path = some path ∧
    a.print db = some (ascii "unix:" ++ path)

theorem roundTrip_iff : RoundTrip db a path ↔ cString 0 a.sun_path = some path := by
  constructor
  · intro h
    exact h.1
  · intro h
    exact ⟨h, path_of_sun_path h, print_of_sun_path h⟩

theorem roundTrip_set_path (hpath : 0 ∉ path) (a : UnixAddress) :
    ((a.set_path path).1 = true → RoundTrip db (a.set_path path).2 path) ↔
      path.length ≠ sizeofSunPath := by
  rcases lt_trichotomy path.length sizeofSunPath with hlt | heq | hgt
  · apply iff_of_true _ hlt.ne
    intro _
    rw [set_path_of_le hlt.le, roundTrip_iff, sun_path_copied, cString_strncpy,
      shown_of_not_mem hpath, if_pos hlt]
  · -- no room for the terminator
    apply iff_of_false _ (not_not.mpr heq)
    intro h
    have hfull := (h (set_path_accepts.mpr heq.le)).1
    rw [set_path_of_le heq.le, sun_path_copied, cString_strncpy, shown_of_not_mem hpath,
      if_neg heq.not_lt] at hfull
    cases hfull
  · apply iff_of_true _ hgt.ne'
    intro haccepts
    exact absurd (set_path_accepts.mp haccepts) (not_le.mpr hgt)

theorem run_construct {w : Kernel} {t : Trace}
    (hrun : (construct path).Run Kernel.env w t (.ok a)) :
    ∃ content, a = ((unset content).set_path path).2 := by
  obtain ⟨content, _, rfl⟩ := Prog.run_map.mp hrun
  exact ⟨content, rfl⟩

/-- New memory may hold anything. -/
theorem construct_run (path : List Byte) (content : Nat → Byte) : ∃ w t,
    (construct path).Run Kernel.env w t (.ok ((unset content).set_path path).2) := by
  have hnew : (Address.init.allocate sizeofSockaddrUn).Run Kernel.env ⟨∅, ∅⟩
      [⟨.new sizeofSockaddrUn, content⟩] (.ok content) := ⟨_, [], rfl, trivial, rfl, rfl⟩
  exact ⟨_, _, Prog.run_map.mpr ⟨content, hnew, rfl⟩⟩

end SetPath

/-! ## Sequences of calls -/

/-- The last path that is accepted. -/
def lastAccepted (paths : List (List Byte)) : Option (List Byte) :=
  (paths.filter fun path => path.length ≤ sizeofSunPath).getLast?

section SetPaths
variable {a : UnixAddress} {path p : List Byte} {paths : List (List Byte)}

theorem set_paths_append : a.set_paths (paths ++ [path]) = ((a.set_paths paths).set_path path).2 :=
  List.foldl_append ..

theorem lastAccepted_append_of_le (h : path.length ≤ sizeofSunPath) :
    lastAccepted (paths ++ [path]) = some path := by
  simp [lastAccepted, List.filter_append, h]

theorem lastAccepted_append_of_lt (h : sizeofSunPath < path.length) :
    lastAccepted (paths ++ [path]) = lastAccepted paths := by
  simp [lastAccepted, List.filter_append, h]

theorem lastAccepted_eq_none :
    lastAccepted paths = none ↔ ¬ ∃ p ∈ paths, p.length ≤ sizeofSunPath := by
  simp [lastAccepted]

theorem exists_lastAccepted :
    (∃ p, lastAccepted paths = some p) ↔ ∃ p ∈ paths, p.length ≤ sizeofSunPath := by
  rw [← Option.ne_none_iff_exists', ne_eq, lastAccepted_eq_none, not_not]

/-- The field holds the last path that was accepted. -/
theorem sun_path_set_paths (h : lastAccepted paths = some p) :
    (a.set_paths paths).sun_path = strncpy 0 sizeofSunPath p := by
  induction paths using List.reverseRecOn with
  | nil => cases h
  | append_singleton paths path ih =>
    rw [set_paths_append]
    by_cases hle : path.length ≤ sizeofSunPath
    · rw [lastAccepted_append_of_le hle] at h
      obtain rfl := Option.some.inj h
      rw [set_path_of_le hle]
      exact sun_path_copied
    · rw [lastAccepted_append_of_lt (not_le.mp hle)] at h
      rw [set_path_of_lt (not_le.mp hle)]
      exact ih h

/-- Where none was accepted, nothing has changed. -/
theorem set_paths_of_none (h : lastAccepted paths = none) : a.set_paths paths = a := by
  induction paths using List.reverseRecOn with
  | nil => rfl
  | append_singleton paths path ih =>
    rw [set_paths_append]
    by_cases hle : path.length ≤ sizeofSunPath
    · rw [lastAccepted_append_of_le hle] at h
      cases h
    · rw [lastAccepted_append_of_lt (not_le.mp hle)] at h
      rw [set_path_of_lt (not_le.mp hle)]
      exact ih h

end SetPaths

/-- The path is at first what the new memory held. -/
theorem sun_path_unset (content : Nat → Byte) :
    (unset content).sun_path = (fill sizeofSockaddrUn content).drop 2 := by
  have hstorage : (unset content).d_data.storage =
      1 :: 0 :: (fill sizeofSockaddrUn content).drop 2 := Address.storage_unsetUnix
  have hlen : ((fill sizeofSockaddrUn content).drop 2).length ≤ sizeofSunPath := by
    rw [List.length_drop, Sydn.Mem.length_fill]
    exact le_rfl
  rw [sun_path, hstorage]
  exact List.take_of_length_le hlen

/-- The memory of an address that the constructor made: the family and the path. -/
structure Made (a : UnixAddress) : Prop where
  size : a.size = sizeofSockaddrUn
  storage : a.d_data.storage = 1 :: 0 :: a.sun_path

namespace Made
variable {a b : UnixAddress}

theorem unset (content : Nat → Byte) : Made (unset content) where
  size := Address.size_unsetUnix
  storage := by
    rw [sun_path_unset]
    exact Address.storage_unsetUnix

theorem copied (h : Made a) (path : List Byte) : Made (a.copied path) where
  size := Address.size_stored.trans h.size
  storage := by
    have hlen : (1 :: 0 :: a.sun_path).length ≤ offsetofSunPath + sizeofSunPath := by
      rw [List.length_cons, List.length_cons, length_sun_path]
      exact le_rfl
    rw [storage_copied, sun_path_copied, h.storage, patch, length_strncpy,
      List.drop_of_length_le hlen, List.append_nil]
    rfl

theorem set_path (h : Made a) (path : List Byte) : Made (a.set_path path).2 := by
  by_cases hle : path.length ≤ sizeofSunPath
  · rw [set_path_of_le hle]
    exact h.copied path
  · rw [set_path_of_lt (not_le.mp hle)]
    exact h

theorem set_paths (h : Made a) (paths : List (List Byte)) : Made (a.set_paths paths) := by
  induction paths generalizing a with
  | nil => exact h
  | cons path paths ih => exact ih (h.set_path path)

theorem path (h : Made a) : a.path = cString 0 a.sun_path := by
  rw [UnixAddress.path, h.storage]
  rfl

theorem native (h : Made a) : a.native = some (1 :: 0 :: a.sun_path) := by
  have hsize : a.size = 110 := h.size
  have hlen : a.d_data.storage.length ≤ a.size := by
    rw [h.storage, List.length_cons, List.length_cons, length_sun_path, hsize]
    exact le_rfl
  have hbytes : a.bytes = a.d_data.storage := List.take_of_length_le hlen
  rw [Address.native, if_pos (by omega), hbytes, h.storage]

theorem native_eq (ha : Made a) (hb : Made b) : a.native = b.native ↔ a.sun_path = b.sun_path := by
  rw [ha.native, hb.native]
  simp

end Made

/-! ## Two executions of the same calls -/

/-- The constructor and then any calls of `set_path`. -/
def history (path : List Byte) (paths : List (List Byte)) : Syscall UnixAddress := do
  let a ← construct path
  return a.set_paths paths

/-- What any two executions end with is related. -/
def AnyTwo (R : UnixAddress → UnixAddress → Prop) (path : List Byte)
    (paths : List (List Byte)) : Prop :=
  ∀ w w' t t' a b, (history path paths).Run Kernel.env w t (.ok a) →
    (history path paths).Run Kernel.env w' t' (.ok b) → R a b

/-- Equal bytes, an equal path and an equal text. -/
def Alike (db : NetDb) (a b : UnixAddress) : Prop :=
  a.native = b.native ∧ (∃ s, a.path = some s ∧ b.path = some s) ∧
    Address.PrintAlike db a.toAddress b.toAddress

section History
variable {db : NetDb} {path : List Byte} {paths : List (List Byte)}

theorem run_history {w : Kernel} {t : Trace} {a : UnixAddress}
    (hrun : (history path paths).Run Kernel.env w t (.ok a)) :
    ∃ content, a = (unset content).set_paths (path :: paths) := by
  obtain ⟨b, hb, rfl⟩ := Prog.run_map.mp hrun
  obtain ⟨content, rfl⟩ := run_construct hb
  exact ⟨content, rfl⟩

theorem history_run (path : List Byte) (paths : List (List Byte)) (content : Nat → Byte) :
    ∃ w t, (history path paths).Run Kernel.env w t
      (.ok ((unset content).set_paths (path :: paths))) := by
  obtain ⟨w, t, hrun⟩ := construct_run path content
  exact ⟨w, t, Prog.run_map.mpr ⟨_, hrun, rfl⟩⟩

theorem anyTwo_iff {R : UnixAddress → UnixAddress → Prop} : AnyTwo R path paths ↔
    ∀ c c', R ((unset c).set_paths (path :: paths)) ((unset c').set_paths (path :: paths)) := by
  constructor
  · intro h c c'
    obtain ⟨w, t, hrun⟩ := history_run path paths c
    obtain ⟨w', t', hrun'⟩ := history_run path paths c'
    exact h w w' t t' _ _ hrun hrun'
  · intro h w w' t t' a b hrun hrun'
    obtain ⟨c, rfl⟩ := run_history hrun
    obtain ⟨c', rfl⟩ := run_history hrun'
    exact h c c'

/-- Without a path the bytes are those of the new memory. -/
theorem exists_native_ne : ∃ c c', (unset c).native ≠ (unset c').native := by
  refine ⟨fun _ => 0, fun _ => 1, ?_⟩
  rw [ne_eq, (Made.unset _).native_eq (Made.unset _), sun_path_unset, sun_path_unset]
  decide

/-- With a path they are those of the last one that was accepted. -/
theorem native_set_paths {p : List Byte} {ps : List (List Byte)} (hp : lastAccepted ps = some p)
    (c c' : Nat → Byte) : ((unset c).set_paths ps).native = ((unset c').set_paths ps).native := by
  rw [((Made.unset c).set_paths ps).native_eq ((Made.unset c').set_paths ps),
    sun_path_set_paths hp, sun_path_set_paths hp]

theorem anyTwo_native_iff : AnyTwo (fun a b => a.native = b.native) path paths ↔
    ∃ p ∈ path :: paths, p.length ≤ sizeofSunPath := by
  rw [anyTwo_iff]
  constructor
  · intro h
    by_contra hnone
    obtain ⟨c, c', hne⟩ := exists_native_ne
    have heq := h c c'
    rw [set_paths_of_none (lastAccepted_eq_none.mpr hnone),
      set_paths_of_none (lastAccepted_eq_none.mpr hnone)] at heq
    exact hne heq
  · intro hsome c c'
    obtain ⟨p, hp⟩ := exists_lastAccepted.mpr hsome
    exact native_set_paths hp c c'

theorem anyTwo_alike_iff : AnyTwo (Alike db) path paths ↔
    ∃ p, lastAccepted (path :: paths) = some p ∧ (shown 0 p).length < sizeofSunPath := by
  constructor
  · intro h
    have hnative : AnyTwo (fun a b => a.native = b.native) path paths :=
      fun w w' t t' a b hrun hrun' => (h w w' t t' a b hrun hrun').1
    obtain ⟨p, hp⟩ := exists_lastAccepted.mpr (anyTwo_native_iff.mp hnative)
    refine ⟨p, hp, ?_⟩
    by_contra hlong
    obtain ⟨_, ⟨s, hs, _⟩, _⟩ := anyTwo_iff.mp h (fun _ => 0) fun _ => 0
    rw [((Made.unset _).set_paths _).path, sun_path_set_paths hp, cString_strncpy,
      if_neg hlong] at hs
    cases hs
  · intro hlast
    obtain ⟨p, hp, hlen⟩ := hlast
    rw [anyTwo_iff]
    intro c c'
    have hfield : ∀ c, cString 0 ((unset c).set_paths (path :: paths)).sun_path =
        some (shown 0 p) := by
      intro c
      rw [sun_path_set_paths hp, cString_strncpy, if_pos hlen]
    exact ⟨native_set_paths hp c c',
      ⟨_, path_of_sun_path (hfield c), path_of_sun_path (hfield c')⟩,
      ⟨_, print_of_sun_path (hfield c), print_of_sun_path (hfield c')⟩⟩

end History

end UnixAddress

open UnixAddress

/-- **The path.** For every path without zero bytes and every Unix address, after any calls
of `set_path` or new: where `set_path` accepts it, it is read back and printed exactly,
if and only if it is not as long as the field. -/
theorem path_round_trip_iff (db : NetDb) {path : List Byte} (hpath : 0 ∉ path) :
    (∀ (a : UnixAddress) (earlier : List (List Byte)),
      (((a.set_paths earlier).set_path path).1 = true →
        RoundTrip db ((a.set_paths earlier).set_path path).2 path) ↔
        path.length ≠ sizeofSunPath) ∧
    ∀ w t a, (construct path).Run Kernel.env w t (.ok a) →
      (((a.set_path path).1 = true → RoundTrip db a path) ↔ path.length ≠ sizeofSunPath) := by
  constructor
  · intro a earlier
    exact roundTrip_set_path hpath (a.set_paths earlier)
  · intro w t a hrun
    obtain ⟨content, rfl⟩ := run_construct hrun
    rw [set_path_accepts, ← set_path_accepts (a := unset content)]
    exact roundTrip_set_path hpath (unset content)

/-- The path of the tests. -/
theorem path_round_trip_test :
    RoundTrip noNames ((unset fun _ => 97).set_path (ascii "/tmp/test")).2 (ascii "/tmp/test") :=
  ((path_round_trip_iff noNames (by decide)).1 (unset fun _ => 97) []).mpr (by decide) rfl

/-- As many characters as the field has. -/
def fullPath : List Byte := List.replicate 108 97

theorem not_path_round_trip : ¬ ∀ (db : NetDb) (path : List Byte) (a : UnixAddress),
    0 ∉ path → (a.set_path path).1 = true → RoundTrip db (a.set_path path).2 path := by
  intro hclaim
  have hpath : 0 ∉ fullPath := by decide
  have hround := (roundTrip_set_path hpath (unset fun _ => 97)).mp (hclaim noNames _ _ hpath)
  exact hround rfl

/-- **Unset memory.** A call of `set_path` that is rejected changes nothing. Any two executions
of the constructor and any calls of `set_path` end with the same bytes if and only if some
path was accepted, and with the same bytes, path and text if and only if the last
one that was accepted ends within the field. -/
theorem unset_memory_iff (db : NetDb) (path : List Byte) (paths : List (List Byte)) :
    (∀ (a : UnixAddress) p, (a.set_path p).1 = false → (a.set_path p).2 = a) ∧
    (AnyTwo (fun a b => a.native = b.native) path paths ↔
      ∃ p ∈ path :: paths, p.length ≤ sizeofSunPath) ∧
    (AnyTwo (Alike db) path paths ↔
      ∃ p, lastAccepted (path :: paths) = some p ∧ (shown 0 p).length < sizeofSunPath) :=
  ⟨fun _ _ => set_path_rejects, anyTwo_native_iff, anyTwo_alike_iff⟩

/-- A path that the constructor rejects, and nothing after it. -/
theorem not_unset_memory : ¬ ∀ (path : List Byte) (paths : List (List Byte)),
    AnyTwo (fun a b => a.native = b.native) path paths := by
  intro hclaim
  have hrejected := anyTwo_native_iff.mp (hclaim (97 :: fullPath) [])
  exact absurd hrejected (by decide)

end Sydn.Net
