import Sydn.Found.Objects
import Sydn.Net.Printing

/-!
# Addresses in any program

The operations on `address` objects, each from any state of the kernel and with any
new memory. `resize` sets no byte: what family an address has after it is what the
storage already held, and only the inline storage of a new object holds zeros.
-/

namespace Sydn.Net

open Sydn.Found.Interaction
open Sydn.Found.Objects
open Sydn.Mem (Byte Owned fill patch)

/-- A value that the program can return. -/
def Yields {α : Type} (p : Syscall α) (a : α) : Prop := ∃ w t, p.Run Kernel.env w t (.ok a)

/-- The member functions that change an address, and a write to its bytes. -/
inductive AddressCall
  | resize (size : Nat)
  | reserve (capacity : Nat)
  | clear
  | write (i : Nat) (bs : List Byte)

namespace Address

/-- What a call may make of an address; a write stays within the storage at `native()`. -/
def Called (a : Address) : AddressCall → Address → Prop
  | .resize size, b => Yields (a.resize size) b
  | .reserve capacity, b => Yields (a.reserve capacity) b
  | .clear, b => b = a.clear
  | .write i bs, b => a.size ≠ 0 ∧ i + bs.length ≤ a.capacity ∧ b = a.stored i bs

/-- The class `address`. -/
def objects : Class Address Unit AddressCall where
  made _ a := a = init
  called := Called
  copied other a := Yields other.copy a
  assigned a other b := Yields (a.copyAssign other) b
  moved other a other' := Yields (init.moveAssign other) (a, other')
  moveAssigned a other b other' := Yields (a.moveAssign other) (b, other')

/-- An address of `n` bytes that shows no family. -/
structure NoFamily (db : NetDb) (n : Nat) (a : Address) : Prop where
  size : a.size = n
  family : a.family = AF_UNSPEC
  null : a.notNull = false
  text : a.print db = some (ascii "Unspecified address")

section Resize
variable {a b other : Address} {db : NetDb} {n : Nat} {w : Kernel} {t : Trace}

theorem run_resize (h : SizeOk n) {o : Except Stop Address} :
    (a.resize n).Run Kernel.env w t o ↔
      ∃ content, t = a.growth n content ∧ o = .ok (a.resized n content h) := by
  rw [← Prog.bind_ret (a.resize n), run_resize_bind h]
  constructor
  · intro hrun
    obtain ⟨content, u, rfl, rfl, rfl⟩ := hrun
    exact ⟨content, List.append_nil _, rfl⟩
  · intro hrun
    obtain ⟨content, rfl, rfl⟩ := hrun
    exact ⟨content, [], (List.append_nil _).symm, rfl, rfl⟩

theorem noFamily_iff (hsize : a.size = n) : NoFamily db n a ↔ a.family = AF_UNSPEC := by
  constructor
  · intro h
    exact h.family
  · intro h
    refine ⟨hsize, h, ?_, if_pos h⟩
    rw [notNull, h]
    rfl

/-- An address that is not empty has the two bytes of its family. -/
theorem take_bytes (h : a.size ≠ 0) : a.bytes.take 2 = a.d_data.storage.take 2 := by
  have hle : 16 ≤ a.size := a.size_ok.resolve_left h
  have hmin : min 2 a.size = 2 := Nat.min_eq_left (by omega)
  change (a.d_data.storage.take a.size).take 2 = _
  rw [List.take_take, hmin]

/-- The family is what the first two bytes say. -/
theorem family_iff (h : a.size ≠ 0) (x y : Byte) :
    a.family = x.toNat + 256 * y.toNat ↔ a.bytes.take 2 = [x, y] := by
  have hle : 16 ≤ a.size := a.size_ok.resolve_left h
  have hlen : a.bytes.length = a.size := Owned.length_bytes _
  obtain ⟨x', y', rest, hbytes⟩ : ∃ x' y' rest, a.bytes = x' :: y' :: rest := by
    match hb : a.bytes with
    | [] | [_] => simp [hb] at hlen; omega
    | x' :: y' :: rest => exact ⟨x', y', rest, rfl⟩
  rw [family, if_pos h, hbytes]
  constructor
  · intro hsum
    change x'.toNat + 256 * y'.toNat = _ at hsum
    have hx' := x'.toNat_lt
    have hx := x.toNat_lt
    obtain rfl : x' = x := UInt8.toNat_inj.mp (by omega)
    obtain rfl : y' = y := UInt8.toNat_inj.mp (by omega)
    rfl
  · intro htake
    cases htake
    rfl

/-- What every run of `resize(n)` ends with has `n` bytes and no family. -/
def ResizesBlank (db : NetDb) (n : Nat) (a : Address) : Prop :=
  ∀ w t o, (a.resize n).Run Kernel.env w t o → ∃ b, o = .ok b ∧ NoFamily db n b

/-- Where `resize` grows, the family is any; where it does not, it is what the storage has. -/
theorem resizesBlank_iff (hn : sizeofSockaddr ≤ n) :
    ResizesBlank db n a ↔ n ≤ a.capacity ∧ a.d_data.storage.take 2 = [0, 0] := by
  have hok : SizeOk n := Or.inr hn
  change 16 ≤ n at hn
  have hfamily (content : Nat → Byte) : NoFamily db n (a.resized n content hok) ↔
      (a.resized n content hok).bytes.take 2 = [0, 0] := by
    have hne : (a.resized n content hok).size ≠ 0 := by
      rw [size_resized]
      omega
    rw [noFamily_iff (size_resized hok)]
    exact family_iff hne 0 0
  have hinline (content : Nat → Byte) (hcap : n ≤ a.capacity) :
      (a.resized n content hok).bytes.take 2 = a.d_data.storage.take 2 := by
    rw [bytes_resized_of_le hok hcap, List.take_take, Nat.min_eq_left (by omega)]
  constructor
  · intro h
    obtain ⟨_, hb, hblank⟩ := h ⟨∅, ∅⟩ _ _ ((run_resize hok).mpr ⟨fun _ => 1, rfl, rfl⟩)
    obtain rfl := Except.ok.inj hb
    rw [hfamily] at hblank
    by_cases hcap : n ≤ a.capacity
    · rw [hinline _ hcap] at hblank
      exact ⟨hcap, hblank⟩
    · rw [bytes_resized_of_lt hok (not_le.mp hcap), List.take_take,
        Nat.min_eq_left (by omega), Sydn.Mem.take_fill (by omega)] at hblank
      exact absurd hblank (by decide)
  · intro h w t o hrun
    obtain ⟨content, _, rfl⟩ := (run_resize hok).mp hrun
    refine ⟨_, rfl, (hfamily content).mpr ?_⟩
    rw [hinline content h.1]
    exact h.2

end Resize

/-! ## Addresses that keep to their inline bytes -/

/-- A copy between addresses without a block. -/
theorem assigned_inline {a other : Address} (content : Nat → Byte) (ha : a.d_data.block = none)
    (hother : other.d_data.block = none) :
    (a.assigned other content).d_data.block = none ∧
      (a.assigned other content).d_data.storage = patch 0 other.bytes a.d_data.storage := by
  have hsize : other.size ≤ a.d_data.capacity := by
    rw [Owned.capacity_of_inline ha, ← Owned.capacity_of_inline hother]
    exact other.d_data.size_le_capacity
  have hfits := a.d_data.copy_fits other.d_data content
  constructor
  · have hblock := (Owned.resize_of_le content hsize).2.2.trans ha
    exact (Owned.store_inline hblock hfits).1
  · have hsame : (a.d_data.resize other.size content).storage = a.d_data.storage :=
      Owned.storage_resize_of_le hsize
    exact (Owned.storage_store hfits).trans (congrArg _ hsame)

/-- The address uses its inline bytes, and the two of the family are zero. -/
structure Blank (a : Address) : Prop where
  block : a.d_data.block = none
  family : a.d_data.storage.take 2 = [0, 0]

namespace Blank
variable {a b other : Address} {n i : Nat} {content : Nat → Byte} {bs : List Byte}

theorem capacity (h : Blank a) : a.capacity = 32 := Owned.capacity_of_inline h.block

theorem init : Blank init := ⟨rfl, rfl⟩

theorem resized (h : Blank a) (hok : SizeOk n) (hn : n ≤ 32) :
    Blank (a.resized n content hok) := by
  have hcap : n ≤ a.d_data.capacity := hn.trans h.capacity.ge
  constructor
  · exact (Owned.resize_of_le content hcap).2.2.trans h.block
  · exact (congrArg _ (Owned.storage_resize_of_le hcap)).trans h.family

theorem stored (h : Blank a) (hi : 2 ≤ i) (hfits : i + bs.length ≤ a.capacity) :
    Blank (a.stored i bs) := by
  constructor
  · exact (Owned.store_inline h.block hfits).1
  · have hlen : i ≤ a.d_data.storage.length := (Nat.le_add_right i _).trans hfits
    have htake := congrArg (List.take 2) (Sydn.Mem.take_patch bs hlen)
    rw [List.take_take, List.take_take, Nat.min_eq_left hi] at htake
    rw [storage_stored hfits, htake]
    exact h.family

/-- A copy brings its own two bytes, or none. -/
theorem assigned (ha : Blank a) (hother : Blank other) : Blank (a.assigned other content) := by
  obtain ⟨hblock, hstorage⟩ := assigned_inline content ha.block hother.block
  refine ⟨hblock, ?_⟩
  have hlen : other.bytes.length = other.size := Owned.length_bytes _
  rw [hstorage, patch, List.take_zero, List.nil_append, Nat.zero_add]
  rcases other.size_ok with hzero | hle
  · have hnil : other.bytes = [] := List.eq_nil_of_length_eq_zero (hlen.trans hzero)
    rw [hnil]
    exact ha.family
  · change 16 ≤ other.size at hle
    rw [List.take_append_of_le_length (by omega), take_bytes (by omega)]
    exact hother.family

end Blank

/-- Calls that need no block and leave the two bytes of the family alone. -/
def Unnamed : AddressCall → Prop
  | .resize size => size ≤ c_sdoSize
  | .reserve capacity => capacity ≤ c_sdoSize
  | .clear => True
  | .write i _ => 2 ≤ i

section Yields
variable {a b other a' other' : Address} {n : Nat}

theorem yields_resize (h : Yields (a.resize n) b) :
    ∃ hok content, b = a.resized n content hok := by
  obtain ⟨w, t, hrun⟩ := h
  by_cases hok : SizeOk n
  · obtain ⟨content, _, hb⟩ := (run_resize hok).mp hrun
    exact ⟨hok, content, Except.ok.inj hb⟩
  · rw [resize_of_not_ok hok] at hrun
    cases hrun.2

theorem yields_copyAssign (h : Yields (a.copyAssign other) b) :
    ∃ content, b = a.assigned other content := by
  obtain ⟨w, t, hrun⟩ := h
  obtain ⟨content, _, hb⟩ := Prog.run_map.mp hrun
  exact ⟨content, hb.symm⟩

/-- A move from an address without a block is a copy. -/
theorem yields_moveAssign (hother : other.d_data.block = none)
    (h : Yields (a.moveAssign other) (a', other')) :
    ∃ content, a' = a.assigned other content ∧ other' = other := by
  obtain ⟨w, t, hrun⟩ := h
  unfold moveAssign at hrun
  split at hrun
  · obtain ⟨content, _, hb⟩ := Prog.run_map.mp hrun
    cases hb
    exact ⟨content, rfl, rfl⟩
  · rename_i b hb
    rw [hother] at hb
    cases hb

end Yields

theorem blank_keeps : (objects.only Unnamed).Keeps Blank where
  made _ a h := by
    rw [h]
    exact Blank.init
  called a _ c b ha h := by
    obtain ⟨hc, h⟩ := h
    cases c with
    | resize n =>
      obtain ⟨hok, content, rfl⟩ := yields_resize h
      exact ha.resized hok hc
    | reserve n =>
      obtain ⟨w, t, hrun⟩ := h
      obtain ⟨content, _, rfl⟩ := Prog.run_map.mp hrun
      have hcap : n ≤ a.d_data.capacity := hc.trans ha.capacity.ge
      constructor
      · exact (congrArg _ (Owned.reserve_of_le hcap)).trans ha.block
      · exact (congrArg (fun v => v.storage.take 2) (Owned.reserve_of_le hcap)).trans ha.family
    | clear =>
      rw [h]
      exact ha.resized _ (Nat.zero_le _)
    | write i bs =>
      obtain ⟨_, hfits, rfl⟩ := h
      exact ha.stored hc hfits
  copied other _ a hother h := by
    obtain ⟨content, rfl⟩ := yields_copyAssign h
    exact Blank.init.assigned hother
  assigned a _ other _ b ha hother h := by
    obtain ⟨content, rfl⟩ := yields_copyAssign h
    exact ha.assigned hother
  moved other _ a other' hother h := by
    obtain ⟨content, rfl, rfl⟩ := yields_moveAssign hother.block h
    exact ⟨Blank.init.assigned hother, hother⟩
  moveAssigned a _ other _ b other' ha hother h := by
    obtain ⟨content, rfl, rfl⟩ := yields_moveAssign hother.block h
    exact ⟨ha.assigned hother, hother⟩


end Address

/-- **A resized empty address.** Every run of `resize(n)` leaves an empty address of any
program with `n` bytes and no family if and only if its capacity is enough and its storage
starts with two zeros. This is so up to the inline capacity in every program that keeps to
it and writes no family. -/
theorem resized_empty_iff (db : NetDb) :
    (∀ σ i a n, Address.objects.programs.Reachable σ → σ i = some a → a.size = 0 →
      sizeofSockaddr ≤ n →
      (a.ResizesBlank db n ↔ n ≤ a.capacity ∧ a.d_data.storage.take 2 = [0, 0])) ∧
    ∀ σ i a n, (Address.objects.only Address.Unnamed).programs.Reachable σ → σ i = some a →
      a.size = 0 → sizeofSockaddr ≤ n → n ≤ c_sdoSize → a.ResizesBlank db n := by
  constructor
  · intro σ i a n _ _ _ hn
    exact Address.resizesBlank_iff hn
  · intro σ i a n hσ hi _ hn hsmall
    have hblank := Address.blank_keeps.holds hσ hi
    rw [Address.resizesBlank_iff hn]
    exact ⟨hsmall.trans hblank.capacity.ge, hblank.family⟩

/-- A program with one new address. -/
theorem reachable_init :
    Address.objects.programs.Reachable (Function.update (fun _ => none) 0 (some Address.init)) :=
  .step (.init rfl) (.make rfl rfl : Address.objects.Step _ (.make 0 ()) _)

theorem resized_empty_test : Address.init.ResizesBlank noNames 32 :=
  ((resized_empty_iff noNames).1 _ 0 _ 32 reachable_init rfl rfl (by decide)).mpr (by decide)

/-- One byte more than the inline capacity. -/
theorem not_resized_empty : ¬ ∀ (db : NetDb) (σ : Pool Address) (i : Nat) (a : Address) (n : Nat),
    Address.objects.programs.Reachable σ → σ i = some a → a.size = 0 → sizeofSockaddr ≤ n →
    a.ResizesBlank db n := by
  intro hclaim
  have hblank := hclaim noNames _ 0 _ 33 reachable_init rfl rfl (by decide)
  have hcap := ((Address.resizesBlank_iff (by decide)).mp hblank).1
  exact absurd hcap (by decide)

end Sydn.Net
