import Sydn.Found.CString
import Sydn.Net.BoundAddress

/-!
# The text of an address

`operator<<` prints an address through the `printAddress` of its family. The functions
for IPv4 and IPv6 pass the length on to `getnameinfo`; the one for Unix is given the
length as well and leaves it out, so it prints what it finds up to the next zero byte.
-/

namespace Sydn.Net

open Sydn.Found.Interaction
open Sydn.Found.CString
open Sydn.Mem (Byte Owned)

def AF_UNIX : Nat := 1

def AF_INET : Nat := 2

def AF_INET6 : Nat := 10

/-- `offsetof(sockaddr_un, sun_path)`. -/
def offsetofSunPath : Nat := 2

/-- The bytes of a literal. -/
def ascii (text : String) : List Byte := text.toList.map fun c => UInt8.ofNat c.toNat

/-- The two functions of `<netdb.h>` that printing calls, with numeric host and service. -/
structure NetDb where
  getnameinfo : List Byte → Except Int (List Byte × List Byte)
  gai_strerror : Int → List Byte

/-! ## The functions `printAddress`, one for each family -/

def printAddressUnspec : List Byte := ascii "Unspecified address"

def printAddressInet (db : NetDb) (address : List Byte) : List Byte :=
  match db.getnameinfo address with
  | .error res => ascii "invalid-address(" ++ db.gai_strerror res ++ ascii ")"
  | .ok (host, port) => host ++ ascii ":" ++ port

/-- `none` where the path has no end in the memory behind the address. -/
def printAddressUnix (memory : List Byte) : Option (List Byte) :=
  (cString 0 (memory.drop offsetofSunPath)).map (ascii "unix:" ++ ·)

/-- The function for every other family. -/
def printAddressOther (family : Nat) : List Byte :=
  ascii "Unknown address family: " ++ ascii (toString family)

namespace Address

/-- `operator<<`; `none` where it reads beyond the memory of the address. -/
def print (db : NetDb) (a : Address) : Option (List Byte) :=
  if a.family = AF_UNSPEC then some printAddressUnspec
  else if a.family = AF_INET ∨ a.family = AF_INET6 then
    some (printAddressInet db (a.bytes.take (socklen a.size)))
  else if a.family = AF_UNIX then printAddressUnix a.d_data.storage
  else some (printAddressOther a.family)

/-- Two addresses print the same text. -/
def PrintAlike (db : NetDb) (a b : Address) : Prop :=
  ∃ text, a.print db = some text ∧ b.print db = some text

variable {db : NetDb} {a b : Address}

theorem print_unix (h : a.family = AF_UNIX) :
    a.print db = printAddressUnix a.d_data.storage := by
  have hunspec : ¬ a.family = AF_UNSPEC := by
    rw [h]
    decide
  have hinet : ¬ (a.family = AF_INET ∨ a.family = AF_INET6) := by
    rw [h]
    decide
  rw [print, if_neg hunspec, if_neg hinet, if_pos h]

/-- Every family but Unix prints the bytes of the address alone. -/
theorem print_bytes (h : a.family ≠ AF_UNIX) (hsize : b.size = a.size)
    (hbytes : b.bytes = a.bytes) : PrintAlike db a b := by
  have hfamily := family_congr hsize hbytes
  have hprint : b.print db = a.print db := by
    unfold print
    rw [hfamily, hsize, hbytes, if_neg h, if_neg h]
  have htext : ∃ text, a.print db = some text := by
    unfold print
    rw [if_neg h]
    split
    · exact ⟨_, rfl⟩
    · split <;> exact ⟨_, rfl⟩
  obtain ⟨text, htext⟩ := htext
  exact ⟨text, htext, hprint.trans htext⟩

/-- A Unix address has at least the bytes of a `sockaddr`. -/
theorem offset_le_size (h : a.family = AF_UNIX) : offsetofSunPath ≤ a.size := by
  rcases a.size_ok with hzero | hle
  · have hunspec : a.family = AF_UNSPEC := if_neg (not_not.mpr hzero)
    rw [hunspec] at h
    cases h
  · change 16 ≤ a.size at hle
    unfold offsetofSunPath
    omega

/-- The memory from the path on: what belongs to the address, then what does not. -/
theorem drop_storage (h : offsetofSunPath ≤ a.size) : a.d_data.storage.drop offsetofSunPath =
    a.bytes.drop offsetofSunPath ++ a.d_data.storage.drop a.size := by
  have hlen : a.bytes.length = a.size := Owned.length_bytes _
  have hsplit : a.d_data.storage = a.bytes ++ a.d_data.storage.drop a.size :=
    (List.take_append_drop _ _).symm
  conv_lhs => rw [hsplit]
  exact List.drop_append_of_le_length (by omega)

/-- A path that ends within the address is printed as far as its end. -/
theorem print_unix_of_mem (h : a.family = AF_UNIX) {path : List Byte}
    (hpath : cString 0 (a.bytes.drop offsetofSunPath) = some path) :
    a.print db = some (ascii "unix:" ++ path) := by
  rw [print_unix h, printAddressUnix, drop_storage (offset_le_size h), cString_append hpath]
  rfl

/-- The address again in a larger block, with `rest` behind its bytes. -/
def followedBy (a : Address) (rest : List Byte) (hrest : c_sdoSize < rest.length) : Address where
  d_data :=
    { d_size := a.size
      d_data := a.d_data.d_data
      block := some (a.bytes ++ rest)
      length_data := a.d_data.length_data
      lt_block := by
        intro b hb
        obtain rfl := Option.some.inj hb
        rw [List.length_append]
        omega
      size_le := by
        have hlen : a.bytes.length = a.size := Owned.length_bytes _
        rw [Option.getD_some, List.length_append]
        omega }
  size_ok := a.size_ok

section FollowedBy
variable {rest : List Byte} {hrest : c_sdoSize < rest.length}

theorem bytes_followedBy : (a.followedBy rest hrest).bytes = a.bytes := by
  have hlen : a.bytes.length = a.size := Owned.length_bytes _
  exact List.take_left' hlen

theorem family_followedBy : (a.followedBy rest hrest).family = a.family := by
  apply family_congr
  · rfl
  · exact bytes_followedBy

theorem drop_followedBy : (a.followedBy rest hrest).d_data.storage.drop
    (a.followedBy rest hrest).size = rest := by
  have hlen : a.bytes.length = a.size := Owned.length_bytes _
  exact List.drop_left' hlen

/-- A path that does not end within the address goes on in what follows. -/
theorem print_followedBy (h : a.family = AF_UNIX) (hpath : 0 ∉ a.bytes.drop offsetofSunPath) :
    (a.followedBy rest hrest).print db =
      (cString 0 rest).map fun s => ascii "unix:" ++ (a.bytes.drop offsetofSunPath ++ s) := by
  have hfamily : (a.followedBy rest hrest).family = AF_UNIX := family_followedBy.trans h
  rw [print_unix hfamily, printAddressUnix, drop_storage (offset_le_size hfamily),
    drop_followedBy, bytes_followedBy, cString_append_of_not_mem hpath, Option.map_map]
  rfl

end FollowedBy

/-- What is printed where the path ends within the address. -/
theorem print_of_ends (h : a.family = AF_UNIX → 0 ∈ a.bytes.drop offsetofSunPath)
    (hsize : b.size = a.size) (hbytes : b.bytes = a.bytes) : PrintAlike db a b := by
  by_cases hfamily : a.family = AF_UNIX
  · obtain ⟨path, hpath⟩ := cString_of_mem (h hfamily)
    have hb := (family_congr hsize hbytes).trans hfamily
    refine ⟨_, print_unix_of_mem hfamily hpath, print_unix_of_mem hb ?_⟩
    rw [hbytes]
    exact hpath
  · exact print_bytes hfamily hsize hbytes

/-- An address and a copy of it are such a pair. -/
theorem print_copy {w : Kernel} {t : Trace} (hrun : a.copy.Run Kernel.env w t (.ok b))
    (h : a.family = AF_UNIX → 0 ∈ a.bytes.drop offsetofSunPath) : PrintAlike db a b := by
  obtain ⟨hsize, hbytes⟩ := run_copy hrun
  exact print_of_ends h hsize hbytes

end Address

/-- **The printed text.** Every address with the same size and bytes prints the same text,
whatever its capacity and the bytes beyond, if and only if the address is of another
family than Unix or its path has a zero byte below `size()`. -/
theorem prints_bytes_iff (db : NetDb) (a : Address) :
    (∀ b : Address, b.size = a.size → b.bytes = a.bytes → Address.PrintAlike db a b) ↔
      (a.family = AF_UNIX → 0 ∈ a.bytes.drop offsetofSunPath) := by
  constructor
  · intro halike hunix
    by_contra hpath
    -- the same address, followed by a one or by a two
    have hprint : ∀ x : Byte, x ≠ 0 → a.print db =
        some (ascii "unix:" ++ (a.bytes.drop offsetofSunPath ++ [x])) := by
      intro x hx
      have hrest : c_sdoSize < (x :: List.replicate 32 (0 : Byte)).length := by
        simp [c_sdoSize]
      obtain ⟨text, ha, hb⟩ :=
        halike (a.followedBy _ hrest) rfl Address.bytes_followedBy
      have hstring : cString 0 (x :: List.replicate 32 (0 : Byte)) = some [x] := by
        rw [cString, if_neg hx]
        rfl
      rw [Address.print_followedBy hunix hpath, hstring] at hb
      rw [ha, ← hb]
      rfl
    have hone := hprint 1 (by decide)
    rw [hprint 2 (by decide)] at hone
    have hlast := List.append_cancel_left (List.append_cancel_left (Option.some.inj hone))
    exact absurd hlast (by decide)
  · intro hends b hsize hbytes
    exact Address.print_of_ends hends hsize hbytes

/-- A resolver that knows no family. -/
def noNames : NetDb := ⟨fun _ => .error (-6), fun _ => ascii "ai_family not supported"⟩

example : unixAddress.print noNames = some (ascii "unix:aaaaaaaaaaaaaaa") := by decide

/-- A Unix address cut down to 16 bytes, which leaves the last character of its path behind. -/
def shortened (last : Byte) : Address :=
  (unixAddress.stored 16 [last]).resized sizeofSockaddr (fun _ => 0) sizeOk_sockaddr

theorem not_prints_bytes : ¬ ∀ (db : NetDb) (a b : Address), b.size = a.size →
    b.bytes = a.bytes → Address.PrintAlike db a b := by
  intro hclaim
  obtain ⟨text, ha, hb⟩ := hclaim noNames (shortened 97) (shortened 98) rfl rfl
  have hother : (shortened 97).print noNames ≠ (shortened 98).print noNames := by decide
  exact hother (ha.trans hb.symm)

end Sydn.Net
