import Sydn.Found.DottedDecimal
import Sydn.Net.AddressObjects

/-!
# `ipv4_address`

An `ipv4_address` has the data of its base, a `sockaddr_in` in the inline storage: its
family, the port in network order and the four bytes of the address. The text of an
address is read and written by the C library. A port is a `size_t`, of which the
field keeps the lower 16 bits.
-/

namespace Sydn.Net

open Sydn.Found.Interaction
open Sydn.Found.Objects
open Sydn.Found.CString
open Sydn.Found.DottedDecimal
open Sydn.Mem (Byte Owned patch)

def sizeofSockaddrIn : Nat := 16

/-- `offsetof(sockaddr_in, sin_port)`. -/
def offsetofSinPort : Nat := 2

/-- `offsetof(sockaddr_in, sin_addr)`. -/
def offsetofSinAddr : Nat := 4

def INET_ADDRSTRLEN : Nat := 16

theorem sizeOk_sockaddr_in : SizeOk sizeofSockaddrIn := sizeOk_sockaddr

/-- The two functions of `<arpa/inet.h>`: the text of an IPv4 address is a dotted quad,
and no other text is one. -/
structure Inet where
  inet_pton : Nat → List Byte → Option (List Byte)
  inet_ntop : Nat → List Byte → List Byte
  pton_iff : ∀ s q, inet_pton AF_INET s = some q ↔ q.length = 4 ∧ print q = s
  ntop_eq : ∀ q, q.length = 4 → inet_ntop AF_INET q = print q

/-- A string without zero bytes. -/
abbrev Text := {s : List Byte // 0 ∉ s}

def Inet.accepts (inet : Inet) (address : Text) : Bool := (inet.inet_pton AF_INET address.1).isSome

/-- The bytes of a `uint16_t` in network order. -/
def htons (port : Nat) : List Byte :=
  [UInt8.ofNat (port % 2 ^ 16 / 2 ^ 8), UInt8.ofNat (port % 2 ^ 16)]

def ntohs (bs : List Byte) : Nat := (bs.getD 0 0).toNat * 2 ^ 8 + (bs.getD 1 0).toNat

namespace Ipv4Address

/-- `resize(sizeof(sockaddr_in))` and `sin_family = AF_INET`, as both constructors begin. -/
def unset : Syscall Address := do
  let a ← Address.init.resize sizeofSockaddrIn
  return a.stored 0 [2, 0]

/-- The default constructor. -/
def init : Syscall Address := unset

def set_address (inet : Inet) (address : List Byte) (a : Address) : Bool × Address :=
  match inet.inet_pton a.family (shown 0 address) with
  | some addr => (true, a.stored offsetofSinAddr addr)
  | none => (false, a)

def set_port (port : Nat) (a : Address) : Address := a.stored offsetofSinPort (htons port)

/-- The constructor from an address, which may be rejected, and a port. -/
def construct (inet : Inet) (address : List Byte) (port : Nat) : Syscall Address := do
  let a ← unset
  return (set_address inet address (set_port port a)).2

def sin_addr (a : Address) : List Byte := (a.d_data.storage.drop offsetofSinAddr).take 4

/-- What `inet_ntop` leaves in a buffer, which it does not touch where the text does not fit. -/
def ntopInto (text tmp : List Byte) : List Byte :=
  if text.length < tmp.length then patch 0 (text ++ [0]) tmp else tmp

/-- `address()`: the buffer up to its first zero. -/
def address (inet : Inet) (a : Address) : List Byte :=
  shown 0 (ntopInto (inet.inet_ntop a.family (sin_addr a)) (List.replicate INET_ADDRSTRLEN 0))

def port (a : Address) : Nat := ntohs ((a.d_data.storage.drop offsetofSinPort).take 2)

inductive Args
  | default
  | of (address : Text) (port : Nat)

inductive Call
  | set_address (address : Text)
  | set_port (port : Nat)

def constructed (inet : Inet) : Args → Syscall Address
  | .default => init
  | .of address port => construct inet address.1 port

def called (inet : Inet) (a : Address) : Call → Address
  | .set_address address => (set_address inet address.1 a).2
  | .set_port port => set_port port a

/-- The class `ipv4_address`, copied and moved as its base is. -/
def objects (inet : Inet) : Class Address Args Call where
  made args a := Yields (constructed inet args) a
  called a c b := b = called inet a c
  copied := Address.objects.copied
  assigned := Address.objects.assigned
  moved := Address.objects.moved
  moveAssigned := Address.objects.moveAssigned

/-- What was set: the last address that was accepted and the last port. -/
structure Setting where
  address : List Byte
  port : Nat

namespace Setting

def init : Setting := ⟨ascii "0.0.0.0", 0⟩

def set_address (inet : Inet) (s : Setting) (address : Text) : Setting :=
  if inet.accepts address then { s with address := address.1 } else s

def set_port (s : Setting) (port : Nat) : Setting := { s with port := port }

end Setting

/-- What the operations set, whatever the objects hold. -/
def settings (inet : Inet) : Meaning Setting Args Call where
  make
    | .default => Setting.init
    | .of address port => (Setting.init.set_port port).set_address inet address
  call s
    | .set_address address => s.set_address inet address
    | .set_port port => s.set_port port

/-! ## What the storage holds -/

/-- A `sockaddr_in` and what follows its address in the storage. -/
def record (port : Nat) (addr rest : List Byte) : List Byte := [2, 0] ++ htons port ++ addr ++ rest

/-- An inline `sockaddr_in` with what was set, of the port what its field can hold. -/
structure Holds (a : Address) (s : Setting) : Prop where
  size : a.size = sizeofSockaddrIn
  block : a.d_data.block = none
  storage : ∃ addr rest, addr.length = 4 ∧ print addr = s.address ∧
    a.d_data.storage = record s.port addr rest

section Record
variable {addr addr' rest : List Byte} {n m : Nat}

theorem exists_four (h : addr.length = 4) : ∃ w x y z, addr = [w, x, y, z] := by
  match addr, h with
  | [w, x, y, z], _ => exact ⟨w, x, y, z, rfl⟩

theorem patch_sin_port : patch offsetofSinPort (htons n) (record m addr rest) =
    record n addr rest := rfl

theorem patch_sin_addr (h : addr.length = 4) (h' : addr'.length = 4) :
    patch offsetofSinAddr addr' (record n addr rest) = record n addr' rest := by
  obtain ⟨_, _, _, _, rfl⟩ := exists_four h
  obtain ⟨_, _, _, _, rfl⟩ := exists_four h'
  rfl

theorem ntohs_htons (n : Nat) : ntohs (htons n) = n % 2 ^ 16 := by
  simp [ntohs, htons]
  omega

end Record

namespace Holds
variable {a other : Address} {s s' : Setting}

theorem capacity (h : Holds a s) : a.capacity = 32 := Owned.capacity_of_inline h.block

theorem family (h : Holds a s) : a.family = AF_INET := by
  obtain ⟨addr, rest, _, _, hstorage⟩ := h.storage
  have hne : a.size ≠ 0 := by
    rw [h.size]
    decide
  apply (Address.family_iff hne 2 0).mpr
  rw [Address.take_bytes hne, hstorage]
  rfl

theorem port (h : Holds a s) : port a = s.port % 2 ^ 16 := by
  obtain ⟨addr, rest, _, _, hstorage⟩ := h.storage
  rw [Ipv4Address.port, hstorage, ← ntohs_htons]
  rfl

/-- The text with its terminator fits into the buffer. -/
theorem address (h : Holds a s) (inet : Inet) : address inet a = s.address := by
  obtain ⟨addr, rest, hlen, htext, hstorage⟩ := h.storage
  have haddr : sin_addr a = addr := by
    obtain ⟨_, _, _, _, rfl⟩ := exists_four hlen
    rw [sin_addr, hstorage]
    rfl
  have hne : addr ≠ [] := by
    intro hnil
    rw [hnil] at hlen
    cases hlen
  have hfits : s.address.length < INET_ADDRSTRLEN := by
    have hle := length_print_le hne
    rw [hlen, htext] at hle
    exact hle
  have hnul : 0 ∉ s.address := by
    rw [← htext]
    intro hmem
    exact absurd (dot_le_of_mem hmem) (by decide)
  rw [Ipv4Address.address, h.family, haddr, inet.ntop_eq _ hlen, htext, ntopInto,
    List.length_replicate, if_pos hfits, patch, List.take_zero, List.nil_append, List.append_assoc]
  exact shown_append hnul _

theorem set_port (h : Holds a s) (n : Nat) : Holds (set_port n a) (s.set_port n) := by
  obtain ⟨addr, rest, hlen, htext, hstorage⟩ := h.storage
  have hfits : offsetofSinPort + (htons n).length ≤ a.capacity := by
    rw [h.capacity]
    exact (by decide : 2 + 2 ≤ 32)
  refine ⟨Address.size_stored.trans h.size, (Owned.store_inline h.block hfits).1, addr, rest,
    hlen, htext, ?_⟩
  rw [Ipv4Address.set_port, Address.storage_stored hfits, hstorage]
  exact patch_sin_port

/-- What `set_address` does to an address and what it returns. -/
theorem set_address_eq (h : Holds a s) (inet : Inet) (t : Text) :
    set_address inet t.1 a = match inet.inet_pton AF_INET t.1 with
      | some addr => (true, a.stored offsetofSinAddr addr)
      | none => (false, a) := by
  rw [Ipv4Address.set_address, h.family, shown_of_not_mem t.2]

theorem set_address (h : Holds a s) (inet : Inet) (t : Text) :
    Holds (set_address inet t.1 a).2 (s.set_address inet t) := by
  rw [h.set_address_eq inet t, Setting.set_address, Inet.accepts]
  cases hpton : inet.inet_pton AF_INET t.1 with
  | none => exact h
  | some new =>
    obtain ⟨hnew, htext⟩ := (inet.pton_iff _ _).mp hpton
    obtain ⟨addr, rest, hlen, _, hstorage⟩ := h.storage
    have hfits : offsetofSinAddr + new.length ≤ a.capacity := by
      rw [h.capacity, hnew]
      decide
    refine ⟨Address.size_stored.trans h.size, (Owned.store_inline h.block hfits).1, new, rest,
      hnew, htext, ?_⟩
    rw [Address.storage_stored hfits, hstorage]
    exact patch_sin_addr hlen hnew

/-- A copy holds what the source holds. -/
theorem assigned (h : Holds other s) (ha : a.d_data.block = none) (content : Nat → Byte) :
    Holds (a.assigned other content) s := by
  obtain ⟨hblock, hcopied⟩ := Address.assigned_inline content ha h.block
  obtain ⟨addr, rest, hlen, htext, hstorage⟩ := h.storage
  refine ⟨Address.size_assigned.trans h.size, hblock, addr,
    rest.take 8 ++ a.d_data.storage.drop 16, hlen, htext, ?_⟩
  have hbytes : other.bytes = record s.port addr (rest.take 8) := by
    change other.d_data.storage.take other.size = _
    obtain ⟨_, _, _, _, rfl⟩ := exists_four hlen
    rw [h.size, hstorage]
    rfl
  have hlength : other.bytes.length = 16 := (Owned.length_bytes _).trans h.size
  rw [hcopied, patch, hlength, hbytes]
  simp [record]

end Holds

/-! ## The constructors, the setters, copies and moves -/

section Objects
variable {inet : Inet} {a b : Address} {s : Setting}

/-- The inline bytes of a new object are zero: no address and no port. -/
theorem holds_init : Holds ((Address.init.resized sizeofSockaddrIn (fun _ => 0)
    sizeOk_sockaddr_in).stored 0 [2, 0]) Setting.init := by
  refine ⟨rfl, rfl, [0, 0, 0, 0], List.replicate 24 0, rfl, ?_, ?_⟩
  · decide
  · decide

theorem yields_unset (h : Yields unset a) : Holds a Setting.init := by
  obtain ⟨w, t, hrun⟩ := h
  obtain ⟨b, hb, rfl⟩ := Prog.run_map.mp hrun
  obtain ⟨hok, content, rfl⟩ := Address.yields_resize ⟨w, t, hb⟩
  have hinline : Address.init.resized sizeofSockaddrIn content hok =
      Address.init.resized sizeofSockaddrIn (fun _ => 0) sizeOk_sockaddr_in := rfl
  rw [hinline]
  exact holds_init

theorem holds_agrees (inet : Inet) : Agrees (objects inet) (settings inet) Holds where
  made args a h := by
    cases args with
    | default => exact yields_unset h
    | of address port =>
      obtain ⟨w, t, hrun⟩ := h
      obtain ⟨b, hb, rfl⟩ := Prog.run_map.mp hrun
      exact ((yields_unset ⟨w, t, hb⟩).set_port port).set_address inet address
  called a s c b ha h := by
    rw [h]
    cases c with
    | set_address address => exact ha.set_address inet address
    | set_port port => exact ha.set_port port
  copied other s a hother h := by
    obtain ⟨content, rfl⟩ := Address.yields_copyAssign h
    exact hother.assigned rfl content
  assigned a _ other s b ha hother h := by
    obtain ⟨content, rfl⟩ := Address.yields_copyAssign h
    exact hother.assigned ha.block content
  moved other s a other' hother h := by
    obtain ⟨content, rfl, rfl⟩ := Address.yields_moveAssign hother.block h
    exact ⟨hother.assigned rfl content, hother⟩
  moveAssigned a _ other s b other' ha hother h := by
    obtain ⟨content, rfl, rfl⟩ := Address.yields_moveAssign hother.block h
    exact ⟨hother.assigned ha.block content, hother⟩

end Objects

/-- An object reads back what was set: a call of `set_address` succeeds where the text is
accepted and changes nothing where it is not, and neither setter changes what the
other one sets. -/
structure ReadsBack (inet : Inet) (a : Address) (s : Setting) : Prop where
  family : a.family = AF_INET
  address : address inet a = s.address
  port : port a = s.port
  succeeds : ∀ t : Text, (set_address inet t.1 a).1 = inet.accepts t
  rejected : ∀ t : Text, (set_address inet t.1 a).1 = false → (set_address inet t.1 a).2 = a
  keeps_port : ∀ t : Text, Ipv4Address.port (set_address inet t.1 a).2 = Ipv4Address.port a
  keeps_address : ∀ n, Ipv4Address.address inet (set_port n a) = Ipv4Address.address inet a

theorem Holds.readsBack_iff {a : Address} {s : Setting} (h : Holds a s) (inet : Inet) :
    ReadsBack inet a s ↔ s.port < 2 ^ 16 := by
  constructor
  · intro hr
    rw [← hr.port, h.port]
    exact Nat.mod_lt _ (by decide)
  · intro hport
    refine ⟨h.family, h.address inet, h.port.trans (Nat.mod_eq_of_lt hport), ?_, ?_, ?_, ?_⟩
    · intro t
      rw [h.set_address_eq inet t, Inet.accepts]
      cases inet.inet_pton AF_INET t.1 <;> rfl
    · intro t hrejected
      rw [h.set_address_eq inet t] at hrejected ⊢
      cases hpton : inet.inet_pton AF_INET t.1 with
      | none => rfl
      | some addr =>
        rw [hpton] at hrejected
        cases hrejected
    · intro t
      rw [(h.set_address inet t).port, h.port, Setting.set_address]
      split <;> rfl
    · intro n
      rw [(h.set_port n).address inet, h.address inet, Setting.set_port]

end Ipv4Address

open Ipv4Address

/-- **IPv4 addresses.** Every object of every program reads back the family, the last
address that was accepted and the last port that was set, and its setters keep to
their fields, if and only if that port fits into 16 bits. -/
theorem ipv4_reads_back_iff (inet : Inet) {ops : List (Action Args Call)} {σ : Pool Address}
    {i : Nat} {a : Address} (hσ : (Ipv4Address.objects inet).programs.Reaches ops σ)
    (hi : σ i = some a) : ∃ s, (settings inet).values ops i = some s ∧
      (ReadsBack inet a s ↔ s.port < 2 ^ 16) := by
  obtain ⟨s, hs, hholds⟩ := ((holds_agrees inet).matches hσ).account hi
  exact ⟨s, hs, hholds.readsBack_iff inet⟩

/-- The functions as they are specified. -/
def dottedQuads : Inet where
  inet_pton _ s := parse 4 s
  inet_ntop _ q := print q
  pton_iff _ _ := parse_eq_some (by decide)
  ntop_eq _ _ := rfl

/-- A new object. -/
def ipv4Zero : Address := (Address.init.resized sizeofSockaddrIn (fun _ => 0)
  sizeOk_sockaddr_in).stored 0 [2, 0]

/-- A program that sets the port of a new object. -/
theorem reaches_set_port (n : Nat) : (Ipv4Address.objects dottedQuads).programs.Reaches
    [.make 0 .default, .call 0 (.set_port n)]
    (Function.update (Function.update (fun _ => none) 0 (some ipv4Zero)) 0
      (some (set_port n ipv4Zero))) := by
  have hmade : Yields Ipv4Address.init ipv4Zero :=
    ⟨⟨∅, ∅⟩, [], Prog.run_map.mpr ⟨_, (Address.run_resize sizeOk_sockaddr_in).mpr
      ⟨fun _ => 0, rfl, rfl⟩, rfl⟩⟩
  have hmake : (Ipv4Address.objects dottedQuads).programs.Reaches [.make 0 .default] _ :=
    .step (.init rfl) (.make rfl hmade)
  exact .step hmake (.call rfl rfl)

theorem ipv4_reads_back_8080 :
    ReadsBack dottedQuads (set_port 8080 ipv4Zero) ⟨ascii "0.0.0.0", 8080⟩ := by
  obtain ⟨s, hs, hiff⟩ := ipv4_reads_back_iff dottedQuads (reaches_set_port 8080)
    (Function.update_self ..)
  obtain rfl := Option.some.inj hs
  exact hiff.mpr (by decide)

theorem not_ipv4_reads_back : ¬ ∀ (inet : Inet) (ops : List (Action Args Call)) (σ : Pool Address)
    (i : Nat) (a : Address) (s : Setting), (Ipv4Address.objects inet).programs.Reaches ops σ →
    σ i = some a → (settings inet).values ops i = some s → ReadsBack inet a s := by
  intro hclaim
  have hreads := hclaim dottedQuads _ _ 0 _ ⟨ascii "0.0.0.0", 65536⟩ (reaches_set_port 65536)
    (Function.update_self ..) rfl
  exact absurd hreads.port (by decide)

end Sydn.Net
