import Sydn.Net.Ipv4Address

/-!
# The text of an IPv4 address

`operator<<` prints what `getnameinfo` makes of the bytes of the address: with numeric
host and service, the dotted quad and the port. The text tells exactly the addresses
apart that differ in what their accessors return.
-/

namespace Sydn.Net

open Sydn.Found.Interaction
open Sydn.Found.Objects
open Sydn.Found.DottedDecimal
open Sydn.Mem (Byte Owned)

namespace Ipv4Address

/-- `getnameinfo` with `NI_NUMERICHOST` and `NI_NUMERICSERV`, as far as a `sockaddr_in` goes. -/
def Numeric (db : NetDb) : Prop :=
  ∀ (port : Nat) (addr pad : List Byte), addr.length = 4 → pad.length = 8 →
    db.getnameinfo (record port addr pad) = .ok (print addr, number (port % 2 ^ 16))

/-- What is printed for an address and a port. -/
def text (address : List Byte) (port : Nat) : List Byte := address ++ ascii ":" ++ number port

section Text
variable {inet : Inet} {db : NetDb} {a b : Address} {s s' : Setting}

theorem htons_ntohs (x y : Byte) : htons (ntohs [x, y]) = [x, y] := by
  have hx := x.toNat_lt
  have hy := y.toNat_lt
  have hport : ntohs [x, y] = x.toNat * 256 + y.toNat := rfl
  have hhigh : UInt8.ofNat (ntohs [x, y] % 2 ^ 16 / 2 ^ 8) = x := by
    apply UInt8.toNat_inj.mp
    rw [hport, UInt8.toNat_ofNat']
    omega
  have hlow : UInt8.ofNat (ntohs [x, y] % 2 ^ 16) = y := by
    apply UInt8.toNat_inj.mp
    rw [hport, UInt8.toNat_ofNat']
    omega
  rw [htons, hhigh, hlow]

theorem ntohs_lt (bs : List Byte) : ntohs bs < 2 ^ 16 := by
  have hhigh := (bs.getD 0 0).toNat_lt
  have hlow := (bs.getD 1 0).toNat_lt
  unfold ntohs
  omega

/-- The bytes of a `sockaddr_in` are a record. -/
theorem eq_record {bs : List Byte} (hlen : bs.length = sizeofSockaddrIn)
    (hfamily : bs.take 2 = [2, 0]) :
    bs = record (ntohs ((bs.drop offsetofSinPort).take 2)) ((bs.drop offsetofSinAddr).take 4)
      (bs.drop 8) := by
  match bs, hlen, hfamily with
  | a :: b :: x :: y :: rest, _, hfamily =>
    cases hfamily
    change _ = [2, 0] ++ htons (ntohs [x, y]) ++ rest.take 4 ++ rest.drop 4
    rw [htons_ntohs, List.append_assoc, List.take_append_drop]
    rfl

/-- An address with the bytes of a `sockaddr_in` is printed as one. -/
theorem print_record (hdb : Numeric db) {n : Nat} {addr pad : List Byte} (hlen : addr.length = 4)
    (hpad : pad.length = 8) (hbytes : a.bytes = record n addr pad) :
    a.print db = some (text (print addr) (n % 2 ^ 16)) := by
  have hsize : a.size = 16 := by
    have hlength : a.bytes.length = a.size := Owned.length_bytes _
    rw [← hlength, hbytes]
    simp [record, htons, hlen, hpad]
  have hfamily : a.family = AF_INET := by
    apply (Address.family_iff (by omega) 2 0).mpr
    rw [hbytes]
    rfl
  have hunspec : ¬ a.family = AF_UNSPEC := by
    rw [hfamily]
    decide
  have htake : a.bytes.take (socklen a.size) = a.bytes := by
    apply List.take_of_length_le
    rw [hsize]
    exact ((Owned.length_bytes _).trans hsize).le
  rw [Address.print, if_neg hunspec, if_pos (Or.inl hfamily), printAddressInet, htake, hbytes,
    hdb _ _ _ hlen hpad]
  rfl

namespace Holds

/-- The bytes of the address are the record, with its padding. -/
theorem bytes (h : Holds a s) : ∃ addr pad, addr.length = 4 ∧ pad.length = 8 ∧
    print addr = s.address ∧ a.bytes = record s.port addr pad := by
  obtain ⟨addr, rest, hlen, htext, hstorage⟩ := h.storage
  have hbytes : a.bytes = record s.port addr (rest.take 8) := by
    change a.d_data.storage.take a.size = _
    obtain ⟨_, _, _, _, rfl⟩ := exists_four hlen
    rw [h.size, hstorage]
    rfl
  have hlength : a.bytes.length = 16 := (Owned.length_bytes _).trans h.size
  have hpad : (rest.take 8).length = 8 := by
    rw [hbytes] at hlength
    simp [record, htons, hlen] at hlength ⊢
    omega
  exact ⟨addr, rest.take 8, hlen, hpad, htext, hbytes⟩

theorem print_eq (h : Holds a s) (hdb : Numeric db) :
    a.print db = some (text s.address (s.port % 2 ^ 16)) := by
  obtain ⟨addr, pad, hlen, hpad, htext, hbytes⟩ := h.bytes
  rw [← htext]
  exact print_record hdb hlen hpad hbytes

/-- No character of the address is the colon. -/
theorem colon_not_mem (h : Holds a s) : colon ∉ s.address := by
  obtain ⟨addr, _, _, htext, _⟩ := h.storage
  rw [← htext]
  intro hmem
  exact absurd (lt_colon_of_mem hmem) (UInt8.lt_irrefl _)

end Holds

/-- What is printed can be taken apart again. -/
theorem text_inj (ha : colon ∉ s.address) (hb : colon ∉ s'.address) {n m : Nat} :
    text s.address n = text s'.address m ↔ s.address = s'.address ∧ n = m := by
  constructor
  · intro h
    have hsep : s.address ++ colon :: number n = s'.address ++ colon :: number m := by
      rw [text, text, List.append_assoc, List.append_assoc] at h
      exact h
    obtain ⟨haddress, hport⟩ := split_eq ha hb hsep
    exact ⟨haddress, number_injective hport⟩
  · intro h
    rw [h.1, h.2]

/-- Objects print alike where their accessors agree. -/
theorem printAlike_iff (ha : Holds a s) (hb : Holds b s') (hdb : Numeric db) :
    Address.PrintAlike db a b ↔ address inet a = address inet b ∧ port a = port b := by
  have halike : Address.PrintAlike db a b ↔
      text s.address (s.port % 2 ^ 16) = text s'.address (s'.port % 2 ^ 16) := by
    constructor
    · intro h
      obtain ⟨t, hat, hbt⟩ := h
      rw [ha.print_eq hdb] at hat
      rw [hb.print_eq hdb] at hbt
      exact (Option.some.inj hat).trans (Option.some.inj hbt).symm
    · intro h
      refine ⟨_, ha.print_eq hdb, ?_⟩
      rw [h]
      exact hb.print_eq hdb
  rw [halike, text_inj ha.colon_not_mem hb.colon_not_mem, ha.address inet, hb.address inet,
    ha.port, hb.port]

/-- The constructor returns, whatever memory there is. -/
theorem run_construct (address : Text) {port : Nat} {w : Kernel} {t : Trace}
    {o : Except Stop Address} (h : (construct inet address.1 port).Run Kernel.env w t o) :
    ∃ b, o = .ok b ∧ Holds b ((Setting.init.set_port port).set_address inet address) := by
  obtain ⟨o₁, hunset, rfl⟩ := Prog.run_mapped.mp h
  obtain ⟨o₂, hresize, rfl⟩ := Prog.run_mapped.mp hunset
  obtain ⟨content, _, rfl⟩ := (Address.run_resize sizeOk_sockaddr_in).mp hresize
  have hnew := yields_unset ⟨w, t, hunset⟩
  exact ⟨_, rfl, (hnew.set_port port).set_address inet address⟩

namespace Holds

theorem nul_not_mem (h : Holds a s) : 0 ∉ s.address := by
  obtain ⟨addr, _, _, htext, _⟩ := h.storage
  rw [← htext]
  intro hmem
  exact absurd (dot_le_of_mem hmem) (by decide)

/-- The text of the address is accepted again. -/
theorem accepts (h : Holds a s) (inet : Inet) : inet.accepts ⟨s.address, h.nul_not_mem⟩ := by
  obtain ⟨addr, _, hlen, htext, _⟩ := h.storage
  have hpton := (inet.pton_iff s.address addr).mpr ⟨hlen, htext⟩
  rw [Inet.accepts, hpton]
  rfl

/-- The object made from what the accessors return agrees with them. -/
theorem again (h : Holds a s) (hdb : Numeric db) {w : Kernel} {t : Trace}
    {o : Except Stop Address}
    (hrun : (construct inet (Ipv4Address.address inet a) (Ipv4Address.port a)).Run
      Kernel.env w t o) :
    ∃ b, o = .ok b ∧ Address.PrintAlike db a b := by
  rw [h.address inet] at hrun
  obtain ⟨b, rfl, hb⟩ := run_construct ⟨s.address, h.nul_not_mem⟩ hrun
  rw [Setting.set_address, if_pos (h.accepts inet)] at hb
  have haddress : Ipv4Address.address inet a = Ipv4Address.address inet b := by
    rw [h.address inet, hb.address inet]
  have hport : Ipv4Address.port a = Ipv4Address.port b := by
    have hset := hb.port
    change Ipv4Address.port b = Ipv4Address.port a % 2 ^ 16 at hset
    rw [hset, h.port, Nat.mod_mod]
  exact ⟨b, rfl, (printAlike_iff h hb hdb).mpr ⟨haddress, hport⟩⟩

end Holds

end Text

/-- An object prints what was set, and as every object does that its accessors cannot
tell from it, among them the one that is made from what they return. -/
structure Legible (inet : Inet) (db : NetDb) (a : Address) (s : Setting) : Prop where
  text : a.print db = some (text s.address (s.port % 2 ^ 16))
  apart : ∀ ops τ j b, (objects inet).programs.Reaches ops τ → τ j = some b →
    (Address.PrintAlike db a b ↔ address inet a = address inet b ∧ port a = port b)
  again : ∀ w t o, (construct inet (address inet a) (port a)).Run Kernel.env w t o →
    ∃ b, o = .ok b ∧ Address.PrintAlike db a b

end Ipv4Address

open Ipv4Address

/-- **The text of an IPv4 address.** Every object of every program prints the last address
that was accepted and the last port that was set, of that port the lower 16 bits. Two
objects of any programs print the same text if and only if both accessors agree, and
what they return makes an object with that text again. -/
theorem ipv4_text (inet : Inet) {db : NetDb} (hdb : Numeric db) {ops : List (Action Args Call)}
    {σ : Pool Address} {i : Nat} {a : Address}
    (hσ : (Ipv4Address.objects inet).programs.Reaches ops σ) (hi : σ i = some a) :
    ∃ s, (settings inet).values ops i = some s ∧ Legible inet db a s := by
  obtain ⟨s, hs, ha⟩ := ((holds_agrees inet).matches hσ).account hi
  refine ⟨s, hs, ha.print_eq hdb, ?_, ?_⟩
  · intro ops' τ j b hτ hj
    obtain ⟨s', _, hb⟩ := ((holds_agrees inet).matches hτ).account hj
    exact printAlike_iff ha hb hdb
  · intro w t o hrun
    exact ha.again hdb hrun

/-- `getnameinfo` for a `sockaddr_in` and no other family. -/
def numericNames : NetDb where
  getnameinfo bs :=
    if bs.take 2 = [2, 0] then
      .ok (print ((bs.drop offsetofSinAddr).take 4),
        number (ntohs ((bs.drop offsetofSinPort).take 2)))
    else .error (-6)
  gai_strerror _ := ascii "ai_family not supported"

theorem numeric_names : Numeric numericNames := by
  intro port addr pad hlen hpad
  obtain ⟨_, _, _, _, rfl⟩ := exists_four hlen
  rw [← ntohs_htons]
  rfl

theorem ipv4_text_wraps :
    Legible dottedQuads numericNames (set_port 65616 ipv4Zero) ⟨ascii "0.0.0.0", 65616⟩ ∧
      text (ascii "0.0.0.0") (65616 % 2 ^ 16) = ascii "0.0.0.0:80" := by
  obtain ⟨s, hs, hlegible⟩ := ipv4_text dottedQuads numeric_names (reaches_set_port 65616)
    (Function.update_self ..)
  obtain rfl := Option.some.inj hs
  exact ⟨hlegible, by decide⟩

end Sydn.Net
