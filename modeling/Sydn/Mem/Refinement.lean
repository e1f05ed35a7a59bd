import Sydn.Mem.Owned
import Sydn.Found.Ownership

/-!
# The fields, the union and the heap represent owned bytes

`Rep` relates one object of the source's layout to the bytes it stands for. Every
member function is simulated by its counterpart on owned bytes and exchanges at most
one block of the heap; allocations succeed throughout this module.
-/

namespace Sydn.Mem

open Sydn.Found.Ownership

variable {N : Nat}

/-! ## The union -/

@[simp] theorem length_ptrCells (p : Nat) : (ptrCells p).length = ptrSize := by
  simp [ptrCells]

theorem take_ptrCells_append (p : Nat) (u : List Cell) :
    (ptrCells p ++ u).take ptrSize = ptrCells p := List.take_left' (length_ptrCells p)

theorem drop_ptrCells_append (p : Nat) (u : List Cell) :
    (ptrCells p ++ u).drop ptrSize = u := List.drop_left' (length_ptrCells p)

theorem ptrCells_ne_null (p : Nat) : ptrCells p ≠ nullCells := by
  intro heq
  have hhead : (ptrCells p).head? = nullCells.head? := by rw [heq]
  cases hhead

theorem asPtr_ptrCells (p : Nat) (u : List Cell) : asPtr (ptrCells p ++ u) = some (.block p) := by
  have hhead : (ptrCells p ++ u).head? = some (.frag p 0) := rfl
  rw [asPtr, take_ptrCells_append, if_neg (ptrCells_ne_null p), hhead]
  exact if_pos rfl

/-- The bytes of a stored pointer are neither chars nor unset. -/
theorem asPtr_inlineCells (d : List Byte) (p : Nat) : asPtr (inlineCells d) ≠ some (.block p) := by
  unfold asPtr
  split
  · simp
  · cases d <;> simp [inlineCells, ptrSize, List.replicate_succ]

/-- Only the inline bytes are longer than a pointer. -/
theorem drop_inlineCells (d : List Byte) :
    (inlineCells d).drop ptrSize = (d.drop ptrSize).map .byte := by
  rw [inlineCells, List.drop_append, List.drop_replicate, List.length_map, List.map_drop,
    Nat.sub_self, List.replicate_zero, List.append_nil]

/-- The cells under the pointer with other bytes behind them. -/
theorem take_inlineCells {d rest : List Byte} (hrest : rest.length = d.length - ptrSize) :
    (inlineCells d).take ptrSize ++ rest.map .byte = inlineCells (d.take ptrSize ++ rest) := by
  have hlen : (d.take ptrSize ++ rest).length = d.length := by
    rw [List.length_append, List.length_take, hrest]
    omega
  rw [inlineCells, inlineCells, hlen, List.map_append, List.take_append, List.take_replicate,
    List.length_map, Nat.min_self, List.map_take]
  cases Nat.le_total ptrSize d.length with
  | inl hle => rw [Nat.sub_eq_zero_of_le hle, List.replicate_zero, List.append_nil, List.append_nil]
  | inr hle =>
    have hnil : rest = [] := List.eq_nil_of_length_eq_zero (by omega)
    rw [hnil, List.map_nil, List.append_nil, List.append_nil]

theorem patch_inlineCells {i : Nat} {bs d : List Byte} (h : i + bs.length ≤ d.length) :
    patch i (bs.map .byte) (inlineCells d) = inlineCells (patch i bs d) := by
  have hlen : i + (bs.map Cell.byte).length ≤ (d.map Cell.byte).length := by
    rw [List.length_map, List.length_map]
    exact h
  rw [inlineCells, patch_append hlen, inlineCells, length_patch h, map_patch]

theorem mapM_byte (raw : List Byte) : (raw.map Cell.byte).mapM Cell.byte? = some raw := by
  induction raw with
  | nil => rfl
  | cons b raw ih => simp [Cell.byte?, ih]

theorem Sdo.owned_eq_some {s : Sdo N} {p : Nat} :
    s.owned = some p ↔ N < s.d_capacity ∧ asPtr s.u = some (.block p) := by
  unfold Sdo.owned
  split
  · rename_i hN
    rw [and_iff_right hN]
    cases asPtr s.u with
    | none => simp
    | some q => cases q <;> simp [Ptr.block?]
  · rename_i hN
    exact iff_of_false nofun fun h => hN h.1

/-! ## One object -/

/-- The union holds the inline bytes, or the pointer to the block with stale bytes behind it. -/
def Layout (h : Heap) (u : List Cell) (v : Owned N) : Prop :=
  match v.block with
  | none => u = inlineCells v.d_data
  | some b => ∃ p, u = ptrCells p ++ (v.d_data.drop ptrSize).map .byte ∧ h.blocks p = some b

structure Rep (h : Heap) (s : Sdo N) (v : Owned N) : Prop where
  size : s.d_size = v.d_size
  capacity : s.d_capacity = v.capacity
  layout : Layout h s.u v

theorem layout_inline {h : Heap} {u : List Cell} {v : Owned N} (hb : v.block = none) :
    Layout h u v ↔ u = inlineCells v.d_data := by
  rw [Layout, hb]

theorem layout_block {h : Heap} {u : List Cell} {v : Owned N} {b : List Byte}
    (hb : v.block = some b) :
    Layout h u v ↔
      ∃ p, u = ptrCells p ++ (v.d_data.drop ptrSize).map .byte ∧ h.blocks p = some b := by
  rw [Layout, hb]

/-- Before `reserve` touches the union nothing of it is needed but its stale part. -/
theorem Layout.stale {h : Heap} {u : List Cell} {v : Owned N} (hu : Layout h u v) :
    u.drop ptrSize = (v.d_data.drop ptrSize).map .byte := by
  cases hb : v.block with
  | none =>
    rw [(layout_inline hb).mp hu]
    exact drop_inlineCells _
  | some b =>
    obtain ⟨p, rfl, _⟩ := (layout_block hb).mp hu
    exact drop_ptrCells_append p _

theorem rep_init (h : Heap) : Rep h (Sdo.init N) (Owned.init N) where
  size := rfl
  capacity := by rw [Owned.capacity_of_inline rfl]; rfl
  layout := (layout_inline rfl).mpr rfl

namespace Rep
variable {h : Heap} {s : Sdo N} {v : Owned N}

theorem owned_inline (hr : Rep h s v) (hb : v.block = none) : s.owned = none := by
  rw [Sdo.owned, if_neg]
  rw [hr.capacity, Owned.capacity_of_inline hb]
  exact lt_irrefl N

theorem owned_block (hr : Rep h s v) {b : List Byte} (hb : v.block = some b) :
    ∃ p, s.owned = some p ∧ asPtr s.u = some (.block p) ∧ h.blocks p = some b ∧
      s.u = ptrCells p ++ (v.d_data.drop ptrSize).map .byte := by
  obtain ⟨p, hu, hp⟩ := (layout_block hb).mp hr.layout
  have hptr : asPtr s.u = some (.block p) := by rw [hu, asPtr_ptrCells]
  refine ⟨p, Sdo.owned_eq_some.mpr ⟨?_, hptr⟩, hptr, hp, hu⟩
  rw [hr.capacity, Owned.lt_capacity_iff]
  exact ⟨b, hb⟩

/-- A block is owned exactly while the capacity exceeds the inline size. -/
theorem owned_iff (hr : Rep h s v) : N < s.d_capacity ↔ ∃ p, asPtr s.u = some (.block p) := by
  rw [hr.capacity, Owned.lt_capacity_iff]
  cases hb : v.block with
  | none =>
    rw [(layout_inline hb).mp hr.layout]
    simp [asPtr_inlineCells]
  | some b =>
    obtain ⟨p, _, hp, _⟩ := hr.owned_block hb
    simp [hp]

theorem live_of_owned (hr : Rep h s v) {p : Nat} (hp : s.owned = some p) :
    ∃ b, h.blocks p = some b ∧ v.block = some b ∧ b.length = s.d_capacity := by
  cases hb : v.block with
  | none =>
    rw [hr.owned_inline hb] at hp
    cases hp
  | some b =>
    obtain ⟨q, hq, _, hlive, _⟩ := hr.owned_block hb
    obtain rfl := Option.some.inj (hq.symm.trans hp)
    exact ⟨b, hlive, rfl, by rw [hr.capacity, Owned.capacity_of_block hb]⟩

/-- An object is unaffected by what happens to blocks it does not own. -/
theorem frame (hr : Rep h s v) {h' : Heap}
    (hkeep : ∀ p, s.owned = some p → h'.blocks p = h.blocks p) : Rep h' s v := by
  refine ⟨hr.size, hr.capacity, ?_⟩
  cases hb : v.block with
  | none => exact (layout_inline hb).mpr ((layout_inline hb).mp hr.layout)
  | some b =>
    obtain ⟨p, hp, _, hlive, hu⟩ := hr.owned_block hb
    exact (layout_block hb).mpr ⟨p, hu, (hkeep p hp).trans hlive⟩

theorem load (hr : Rep h s v) {count : Nat} (hc : count ≤ v.capacity) :
    s.load count h = some (v.storage.take count) := by
  cases hb : v.block with
  | none =>
    have hcap := Owned.capacity_of_inline hb
    have hlen : count ≤ (v.d_data.map Cell.byte).length := by
      rw [List.length_map, v.length_data]
      omega
    rw [Sdo.load, if_pos (by rw [hr.capacity, hcap]), if_pos (by omega),
      (layout_inline hb).mp hr.layout, inlineCells, List.take_append_of_le_length hlen,
      ← List.map_take, mapM_byte, Owned.storage, hb, Option.getD_none]
  | some b =>
    have hN := v.lt_block b hb
    have hcap := Owned.capacity_of_block hb
    obtain ⟨p, _, hptr, hlive, _⟩ := hr.owned_block hb
    rw [Sdo.load, if_neg (by rw [hr.capacity]; omega), hptr, Option.bind_some,
      Heap.load_of_live hlive (by omega), Owned.storage, hb, Option.getD_some]

theorem contents (hr : Rep h s v) : s.contents h = some v.bytes := by
  rw [Sdo.contents, hr.size, hr.load v.size_le_capacity, Owned.bytes]

end Rep

/-! ## The exchange of move assignment -/

theorem drop_exchange (v w : Owned N) :
    (v.exchange w).d_data.drop ptrSize = v.d_data.drop ptrSize := by
  have hv := v.length_data
  have hw := w.length_data
  rw [Owned.exchange]
  by_cases hN : ptrSize ≤ N
  · exact List.drop_left' (by rw [List.length_take]; omega)
  · have hlength : (w.d_data.take ptrSize ++ v.d_data.drop ptrSize).length ≤ ptrSize := by
      rw [List.length_append, List.length_take, List.length_drop]
      omega
    rw [List.drop_eq_nil_of_le hlength, List.drop_eq_nil_of_le (by omega)]

/-- `d_capacity`, `d_size` and `d_ptr` of `o` in the place of those of `s`. -/
theorem Rep.exchange {h : Heap} {s o : Sdo N} {v w : Owned N} (hs : Rep h s v) (ho : Rep h o w) :
    Rep h ⟨o.d_capacity, o.d_size, o.u.take ptrSize ++ s.u.drop ptrSize⟩ (v.exchange w) := by
  have hv := v.length_data
  have hw := w.length_data
  cases hb : w.block with
  | none =>
    have hb' : (v.exchange w).block = none := hb
    refine ⟨ho.size, ?_, (layout_inline hb').mpr ?_⟩
    · exact ho.capacity.trans
        ((Owned.capacity_of_inline hb).trans (Owned.capacity_of_inline hb').symm)
    · have hrest : (v.d_data.drop ptrSize).length = w.d_data.length - ptrSize := by
        rw [List.length_drop, hv, hw]
      rw [hs.layout.stale, (layout_inline hb).mp ho.layout, take_inlineCells hrest]
      rfl
  | some b =>
    have hb' : (v.exchange w).block = some b := hb
    obtain ⟨p, hu, hp⟩ := (layout_block hb).mp ho.layout
    refine ⟨ho.size, ?_, (layout_block hb').mpr ⟨p, ?_, hp⟩⟩
    · exact ho.capacity.trans
        ((Owned.capacity_of_block hb).trans (Owned.capacity_of_block hb').symm)
    · rw [drop_exchange, hs.layout.stale, hu, take_ptrCells_append]

/-- The owned block is a function of what is represented and of the stored pointer. -/
theorem Rep.owned_exchange {h : Heap} {s o : Sdo N} {v w : Owned N} (hs : Rep h s v)
    (ho : Rep h o w) :
    (⟨o.d_capacity, o.d_size, o.u.take ptrSize ++ s.u.drop ptrSize⟩ : Sdo N).owned = o.owned := by
  have hx := hs.exchange ho
  cases hb : w.block with
  | none => rw [hx.owned_inline hb, ho.owned_inline hb]
  | some b =>
    obtain ⟨p, hown, _, _, hu⟩ := ho.owned_block hb
    obtain ⟨q, hown', hptr, _, _⟩ := hx.owned_block (show (v.exchange w).block = some b from hb)
    rw [hown', hown]
    rw [hu, take_ptrCells_append, asPtr_ptrCells] at hptr
    obtain rfl := Ptr.block.inj (Option.some.inj hptr)
    rfl

/-! ## What one operation does to the heap -/

/-- From `h` to `h'` the block `old` was given back, unless it is kept, and the
block `new` was made; every other block is as it was. -/
structure Exchanged (h : Heap) (old : Option Nat) (h' : Heap) (new : Option Nat) : Prop where
  live : h'.live = (h.live \ only old) ∪ only new
  fresh : ∀ p, new = some p → old = some p ∨ p ∉ h.live
  keep : ∀ p, p ∈ h.live → old ≠ some p → h'.blocks p = h.blocks p
  released : ∀ p, p ∈ h'.released → p ∈ h.released ∨ old = some p
  given : ∀ p, old = some p → new = some p ∨ p ∈ h'.released

theorem exchanged_refl {h : Heap} {old : Option Nat} (hold : ∀ p, old = some p → p ∈ h.live) :
    Exchanged h old h old where
  live := by
    ext p
    constructor
    · intro hp
      by_cases hop : old = some p
      · exact Or.inr hop
      · exact Or.inl ⟨hp, hop⟩
    · intro h
      obtain hp | hp := h
      · exact hp.1
      · exact hold p hp
  fresh := fun p hp => Or.inl hp
  keep := fun _ _ _ => rfl
  released := fun p hp => Or.inl hp
  given := fun p hp => Or.inl hp

theorem exchanged_new (h : Heap) (bytes : List Byte) :
    Exchanged h none (h.new bytes) (some h.next) where
  live := by
    ext p
    by_cases hp : p = h.next
    · simp [Heap.live, Heap.new, hp]
    · simp [Heap.live, Heap.new, hp]
  fresh := by
    intro p hp
    obtain rfl := Option.some.inj hp
    exact Or.inr fun hl => hl (h.unborn h.next le_rfl)
  keep := by
    intro p hp _
    obtain ⟨b, hb⟩ := Heap.mem_live.mp hp
    have hlt := Heap.lt_next hb
    exact Function.update_of_ne (by omega) _ _
  released := fun p hp => Or.inl hp
  given := nofun

theorem exchanged_free (h : Heap) {p : Nat} (hp : h.blocks p ≠ none) :
    Exchanged h (some p) (h.free p hp) none where
  live := by
    ext q
    by_cases hq : q = p
    · simp [Heap.live, Heap.free, hq]
    · simp [Heap.live, Heap.free, hq]
  fresh := by simp
  keep := by
    intro q _ hq
    exact Function.update_of_ne (fun he => hq (by rw [he])) _ _
  released := by
    intro q hq
    rcases List.mem_cons.mp hq with rfl | hq
    · exact Or.inr rfl
    · exact Or.inl hq
  given := by
    intro q hq
    obtain rfl := Option.some.inj hq
    exact Or.inr List.mem_cons_self

theorem exchanged_rewrite (h : Heap) {p : Nat} (hp : h.blocks p ≠ none) (bytes : List Byte) :
    Exchanged h (some p) (h.rewrite p hp bytes) (some p) where
  live := by
    ext q
    by_cases hq : q = p
    · simp [Heap.live, Heap.rewrite, hq]
    · simp [Heap.live, Heap.rewrite, hq]
  fresh := fun q hq => Or.inl hq
  keep := by
    intro q _ hq
    exact Function.update_of_ne (fun he => hq (by rw [he])) _ _
  released := fun q hq => Or.inl hq
  given := fun q hq => Or.inl hq

/-- Giving a block back and then making one. -/
theorem Exchanged.then_new {h h' : Heap} {old : Option Nat} (hx : Exchanged h old h' none)
    (bytes : List Byte) : Exchanged h old (h'.new bytes) (some h'.next) := by
  have hn := exchanged_new h' bytes
  constructor
  · rw [hn.live, hx.live, only_none, Set.union_empty, Set.sdiff_empty]
  · intro p hp
    rcases hn.fresh p hp with hf | hf
    · cases hf
    · by_cases hop : old = some p
      · exact Or.inl hop
      · refine Or.inr fun hl => hf ?_
        rw [hx.live]
        exact Or.inl ⟨hl, hop⟩
  · intro p hp hop
    rw [← hx.keep p hp hop]
    refine hn.keep p ?_ (by simp)
    rw [hx.live]
    exact Or.inl ⟨hp, hop⟩
  · intro p hp
    exact hx.released p hp
  · intro p hp
    exact Or.inr ((hx.given p hp).resolve_left nofun)

/-! ## The member functions -/

/-- Writing bytes makes no block and gives none back. -/
theorem Sdo.store_keeps {s s' : Sdo N} {h h' : Heap} {i : Nat} {bs : List Byte}
    (hret : s.store i bs h = .returned (s', h')) : h'.released = h.released ∧ h'.next = h.next := by
  unfold Sdo.store at hret
  split at hret
  · split at hret
    · cases hret
      exact ⟨rfl, rfl⟩
    · cases hret
  · split at hret
    · cases hret
    · rename_i h₁ hstore
      cases hret
      obtain ⟨p, _, hwrite⟩ := Option.bind_eq_some_iff.mp hstore
      exact Heap.store_keeps hwrite

namespace Rep
variable {h : Heap} {s : Sdo N} {v : Owned N}

theorem exchanged_self (hr : Rep h s v) : Exchanged h s.owned h s.owned := by
  apply exchanged_refl
  intro p hp
  obtain ⟨b, hb, _⟩ := hr.live_of_owned hp
  exact Heap.mem_live.mpr ⟨b, hb⟩

/-- The destructor's test and `delete[]`, also the first half of `reserve`. -/
theorem deletePtr (hr : Rep h s v) :
    ∃ h', s.deletePtr h = some h' ∧ Exchanged h s.owned h' none := by
  cases hb : v.block with
  | none =>
    have hcap : ¬ s.d_capacity > N := by
      rw [hr.capacity, Owned.capacity_of_inline hb]
      exact lt_irrefl N
    refine ⟨h, if_neg hcap, ?_⟩
    rw [hr.owned_inline hb]
    exact exchanged_refl (by simp)
  | some b =>
    obtain ⟨p, hown, hptr, hlive, _⟩ := hr.owned_block hb
    have hp : h.blocks p ≠ none := by simp [hlive]
    have hcap : s.d_capacity > N := hr.owned_iff.mpr ⟨p, hptr⟩
    refine ⟨h.free p hp, ?_, ?_⟩
    · rw [Sdo.deletePtr, if_pos hcap, hptr, Option.bind_some, Heap.delete_of_live hp]
    · rw [hown]
      exact exchanged_free h hp

/-- `reserve` past the capacity: the old block is gone, the new one is owned, and
of the old bytes nothing is left. -/
theorem grow (hr : Rep h s v) {size capacity : Nat} (content : Nat → Byte)
    (hcap : v.capacity < capacity) (hsize : size ≤ capacity) :
    ∃ s' h', ({ s with d_size := size } : Sdo N).reserve capacity (some content) h =
        .returned (s', h') ∧
      Rep h' s' (v.grow size capacity content hcap hsize) ∧ Exchanged h s.owned h' s'.owned := by
  obtain ⟨h₁, hdel, hx⟩ := hr.deletePtr
  have hN : capacity > N := by
    have hle := v.le_capacity
    omega
  have hdel' : ({ s with d_size := size } : Sdo N).deletePtr h = some h₁ := hdel
  have hown : ({ d_capacity := capacity, d_size := size, u := setPtr s.u h₁.next } : Sdo N).owned =
      some h₁.next := by
    apply Sdo.owned_eq_some.mpr
    rw [setPtr]
    exact ⟨hN, asPtr_ptrCells _ _⟩
  refine ⟨⟨capacity, size, setPtr s.u h₁.next⟩, h₁.new (fill capacity content), ?_, ?_, ?_⟩
  · rw [Sdo.reserve, if_neg (by rw [ge_iff_le, hr.capacity]; omega), hdel']
  · refine ⟨rfl, ?_, ?_⟩
    · have hblock : (v.grow size capacity content hcap hsize).block =
          some (fill capacity content) := rfl
      rw [Owned.capacity_of_block hblock, length_fill]
    · refine (layout_block rfl).mpr ⟨h₁.next, ?_, ?_⟩
      · rw [setPtr, hr.layout.stale]
        rfl
      · exact Function.update_self _ _ _
  · rw [hown]
    exact hx.then_new _

theorem reserve (hr : Rep h s v) (capacity : Nat) (content : Nat → Byte) :
    ∃ s' h', s.reserve capacity (some content) h = .returned (s', h') ∧
      Rep h' s' (v.reserve capacity content) ∧ Exchanged h s.owned h' s'.owned := by
  by_cases hc : capacity ≤ v.capacity
  · refine ⟨s, h, if_pos (by rw [hr.capacity]; exact hc), ?_, ?_⟩
    · rwa [Owned.reserve_of_le hc]
    · exact hr.exchanged_self
  · have hlt : v.capacity < capacity := not_le.mp hc
    have hg := hr.grow content hlt (v.size_le_capacity.trans hlt.le)
    have hs : ({ s with d_size := v.d_size } : Sdo N) = s := by rw [← hr.size]
    rw [hs] at hg
    rwa [Owned.reserve_of_lt hlt]

theorem resize (hr : Rep h s v) (size : Nat) (content : Nat → Byte) :
    ∃ s' h', s.resize size (some content) h = .returned (s', h') ∧
      Rep h' s' (v.resize size content) ∧ Exchanged h s.owned h' s'.owned := by
  by_cases hc : size ≤ v.capacity
  · obtain ⟨hsize, hdata, hblock⟩ := Owned.resize_of_le content hc
    refine ⟨{ s with d_size := size }, h, ?_, ⟨hsize.symm, ?_, ?_⟩, ?_⟩
    · rw [Sdo.resize, if_pos]
      rw [ge_iff_le, hr.capacity]
      exact hc
    · rw [Owned.capacity_resize, Nat.max_eq_left hc]
      exact hr.capacity
    · have hl := hr.layout
      rw [Layout] at hl ⊢
      rwa [hblock, hdata]
    · exact hr.exchanged_self
  · have hlt : v.capacity < size := not_le.mp hc
    rw [Owned.resize_of_lt hlt]
    have hg := hr.grow content hlt le_rfl
    rwa [Sdo.resize, if_neg]
    rw [ge_iff_le, hr.capacity]
    exact hc

theorem store (hr : Rep h s v) {i : Nat} {bs : List Byte} (hfit : i + bs.length ≤ v.capacity) :
    ∃ s' h', s.store i bs h = .returned (s', h') ∧
      Rep h' s' (v.store i bs) ∧ Exchanged h s.owned h' s'.owned := by
  cases hb : v.block with
  | none =>
    have hcap := Owned.capacity_of_inline hb
    obtain ⟨hblock, hdata⟩ := Owned.store_inline hb hfit
    have hr' : Rep h { s with u := patch i (bs.map .byte) s.u } (v.store i bs) := by
      refine ⟨by rw [Owned.size_store, hr.size], by rw [Owned.capacity_store, hr.capacity], ?_⟩
      apply (layout_inline hblock).mpr
      rw [hdata, (layout_inline hb).mp hr.layout, patch_inlineCells (by rw [v.length_data]; omega)]
    refine ⟨_, h, ?_, hr', ?_⟩
    · rw [Sdo.store, if_pos (by rw [hr.capacity, hcap]), if_pos (by omega)]
    · rw [hr'.owned_inline hblock, hr.owned_inline hb]
      exact exchanged_refl (by simp)
  | some b =>
    have hcap := Owned.capacity_of_block hb
    have hN := v.lt_block b hb
    obtain ⟨p, hown, hptr, hlive, hu⟩ := hr.owned_block hb
    obtain ⟨hblock, hdata⟩ := Owned.store_block hb hfit
    have hp : h.blocks p ≠ none := by simp [hlive]
    refine ⟨s, h.rewrite p hp (patch i bs b), ?_, ?_, ?_⟩
    · rw [Sdo.store, if_neg (by rw [hr.capacity]; omega), hptr, Option.bind_some,
        Heap.store_of_live hlive (by omega)]
    · refine ⟨by rw [Owned.size_store, hr.size], by rw [Owned.capacity_store, hr.capacity], ?_⟩
      refine (layout_block hblock).mpr ⟨p, by rw [hdata, hu], ?_⟩
      exact Function.update_self _ _ _
    · rw [hown]
      exact exchanged_rewrite h hp _

end Rep

end Sydn.Mem
