import Sydn.Mem.Simulation
import Sydn.Found.Transition

/-!
# The account of blocks over whole programs

The states a program over any number of `sdo` objects can reach while its
allocations succeed, who owns which block in them, and what is left of an object
when an allocation fails. The account says nothing about the bytes.
-/

namespace Sydn.Mem

open Sydn.Found.Ownership
open Sydn.Found.Transition

variable {N : Nat}

/-- Programs over `sdo<N>` objects in which every allocation succeeds. -/
def programs (N : Nat) : LTS (Machine N) Op where
  init σ := σ = Machine.empty N
  step σ op σ' := op.Enabled σ ∧ ∃ content, σ.exec (some content) op = .returned σ'

theorem reachable_sim {σ : Machine N} (h : (programs N).Reachable σ) : ∃ V, Sim σ V := by
  refine LTS.Reachable.invariant (P := fun σ => ∃ V, Sim σ V) ?_ ?_ h
  · rintro σ rfl
    exact ⟨_, sim_empty⟩
  · rintro σ op σ' _ ⟨V, hs⟩ ⟨henabled, content, hret⟩
    obtain ⟨σ₁, hret₁, hs₁, _⟩ := hs.exec op henabled content
    obtain rfl := Outcome.unique hret₁ hret
    exact ⟨_, hs₁⟩

/-- The `d_ptr` of object `i` points to the live block `p`, of exactly `capacity()` bytes. -/
def Owns (σ : Machine N) (i p : Nat) : Prop :=
  ∃ s b, σ.objs i = some s ∧ asPtr s.u = some (.block p) ∧ σ.heap.blocks p = some b ∧
    b.length = s.d_capacity

theorem Sim.owns_iff {σ : Machine N} {V : Values N} (hs : Sim σ V) {i p : Nat} :
    Owns σ i p ↔ σ.holds i = some p := by
  constructor
  · intro h
    obtain ⟨s, b, hsi, hptr, _, _⟩ := h
    obtain ⟨v, _, hr⟩ := hs.value hsi
    rw [Machine.holds, hsi, Option.bind_some]
    exact Sdo.owned_eq_some.mpr ⟨hr.owned_iff.mpr ⟨p, hptr⟩, hptr⟩
  · intro hp
    cases hsi : σ.objs i with
    | none =>
      rw [Machine.holds, hsi] at hp
      cases hp
    | some s =>
      rw [Machine.holds, hsi, Option.bind_some] at hp
      obtain ⟨v, _, hr⟩ := hs.value hsi
      obtain ⟨b, hb, hvb, hlen⟩ := hr.live_of_owned hp
      exact ⟨s, b, hsi, (Sdo.owned_eq_some.mp hp).2, hb, hlen⟩

/-- What the capacity says about an object, in every reachable state. -/
theorem Sim.object {σ : Machine N} {V : Values N} (hs : Sim σ V) {i : Nat} {s : Sdo N}
    (hsi : σ.objs i = some s) :
    s.d_size ≤ s.d_capacity ∧ N ≤ s.d_capacity ∧ (N < s.d_capacity ↔ ∃ p, Owns σ i p) := by
  obtain ⟨v, _, hr⟩ := hs.value hsi
  refine ⟨?_, ?_, ?_⟩
  · rw [hr.size, hr.capacity]
    exact v.size_le_capacity
  · rw [hr.capacity]
    exact v.le_capacity
  · rw [hr.owned_iff]
    constructor
    · intro h
      obtain ⟨p, hp⟩ := h
      refine ⟨p, hs.owns_iff.mpr ?_⟩
      rw [Machine.holds, hsi, Option.bind_some]
      exact Sdo.owned_eq_some.mpr ⟨hr.owned_iff.mpr ⟨p, hp⟩, hp⟩
    · intro h
      obtain ⟨p, s', _, hsi', hptr, _⟩ := h
      obtain rfl := Option.some.inj (hsi.symm.trans hsi')
      exact ⟨p, hptr⟩

/-- **Unique ownership.** In every reachable state the capacity of each object bounds
its size and tells whether it owns a block; the live blocks correspond to their
owners one to one; every block made is live or was given back, none twice; and
every further operation is defined and gives back only a block of its own object,
which a destructor does give back. -/
theorem unique_ownership {σ : Machine N} (h : (programs N).Reachable σ) :
    (∀ i s, σ.objs i = some s →
      s.d_size ≤ s.d_capacity ∧ N ≤ s.d_capacity ∧ (N < s.d_capacity ↔ ∃ p, Owns σ i p)) ∧
    (∀ p b, σ.heap.blocks p = some b → ∃! i, Owns σ i p) ∧
    (∀ i p q, Owns σ i p → Owns σ i q → p = q) ∧
    σ.heap.released.Nodup ∧
    (∀ p, p < σ.heap.next → (p ∈ σ.heap.released ↔ σ.heap.blocks p = none)) ∧
    ∀ op : Op, op.Enabled σ → ∀ content, ∃ σ', σ.exec (some content) op = .returned σ' ∧
      (∀ p, p ∈ σ'.heap.released → p ∈ σ.heap.released ∨ Owns σ op.this p) ∧
      ∀ i, op = .destroy i → σ'.objs i = none ∧ ∀ p, Owns σ i p → p ∈ σ'.heap.released := by
  obtain ⟨V, hs⟩ := reachable_sim h
  refine ⟨fun i s hsi => hs.object hsi, ?_, ?_, σ.heap.released_once, ?_, ?_⟩
  · intro p b hb
    obtain ⟨i, hi⟩ := hs.balanced.no_leak p (Heap.mem_live.mpr ⟨b, hb⟩)
    refine ⟨i, hs.owns_iff.mpr hi, fun j hj => ?_⟩
    exact hs.balanced.unique j i p (hs.owns_iff.mp hj) hi
  · intro i p q hp hq
    have heq := (hs.owns_iff.mp hp).symm.trans (hs.owns_iff.mp hq)
    exact Option.some.inj heq
  · intro p hp
    rw [σ.heap.mem_released]
    exact and_iff_right hp
  · intro op henabled content
    obtain ⟨σ', hret, _, hrel⟩ := hs.exec op henabled content
    refine ⟨σ', hret, fun p hp => ?_, ?_⟩
    · exact (hrel p hp).imp id fun hheld => hs.owns_iff.mpr hheld
    · rintro i rfl
      obtain ⟨v, hv⟩ := hs.alive henabled
      obtain ⟨hgone, hgiven⟩ := hs.destroy_gives hv hret
      exact ⟨hgone, fun p hp => hgiven p (hs.owns_iff.mp hp)⟩

theorem reachable_exec {σ σ' : Machine N} (h : (programs N).Reachable σ) (op : Op)
    (henabled : op.Enabled σ) (content : Nat → Byte)
    (hret : σ.exec (some content) op = .returned σ') : (programs N).Reachable σ' :=
  .step h ⟨henabled, content, hret⟩

theorem unique_ownership_grown :
    ∃ σ : Machine 16, (programs 16).Reachable σ ∧ ∃! i, Owns σ i 0 := by
  have hreach := reachable_exec (N := 16) (.init rfl) (.create 0 17) rfl (fun _ => 7) rfl
  exact ⟨_, hreach, (unique_ownership hreach).2.1 0 (fill 17 fun _ => 7) rfl⟩

/-! ## Allocations that fail -/

/-- The bytes that `op` asks room for on its own object, for the calls that may allocate. -/
def Op.request (σ : Machine N) : Op → Option Nat
  | .resize _ size => some size
  | .reserve _ capacity => some capacity
  | .copyAssign _ j => (σ.objs j).map Sdo.d_size
  | _ => none

/-- If `op` ends by an exception out of the allocation, its object has the size, the
capacity, the storage and the bytes it had, and destroying it is defined and gives
back exactly the block it owned before the call. -/
def Intact (σ : Machine N) (op : Op) : Prop :=
  ∀ σ', σ.exec none op = .threw σ' →
    (∀ s, σ.objs op.this = some s → ∃ s', σ'.objs op.this = some s' ∧
      s'.d_size = s.d_size ∧ s'.d_capacity = s.d_capacity ∧ s'.owned = s.owned ∧
      s'.contents σ'.heap = s.contents σ.heap) ∧
    ∃ σ'', σ'.destroy op.this = .returned σ'' ∧
      σ''.heap.released = (σ.holds op.this).toList ++ σ.heap.released

theorem Sdo.store_ne_threw {s : Sdo N} {h : Heap} {i : Nat} {bs : List Byte}
    (r : Sdo N × Heap) : s.store i bs h ≠ .threw r := by
  unfold Sdo.store
  split
  · split <;> simp
  · split <;> simp

theorem Machine.on_ne_threw {σ σ' : Machine N} {i : Nat}
    {f : Sdo N → Heap → Outcome (Sdo N × Heap)} (hf : ∀ s h r, f s h ≠ .threw r) :
    σ.on i f ≠ .threw σ' := by
  unfold Machine.on
  split
  · simp
  · split
    · simp
    · rename_i heq
      exact absurd heq (hf _ _ _)
    · simp

/-- A `resize` within the capacity does not ask for memory. -/
theorem Machine.on_resize_fits {σ : Machine N} {i n : Nat} {s : Sdo N} (hs : σ.objs i = some s)
    (hfit : n ≤ s.d_capacity) (new : New) :
    σ.on i (Sdo.resize n new) = .returned (σ.put i (some { s with d_size := n }) σ.heap) := by
  simp only [Machine.on, hs, Sdo.resize, ge_iff_le, if_pos hfit]

/-- Where the request fits nothing is allocated, so nothing throws. -/
theorem exec_fits {σ σ' : Machine N} {op : Op} {n : Nat} {s : Sdo N}
    (hs : σ.objs op.this = some s) (hreq : op.request σ = some n) (hfit : n ≤ s.d_capacity) :
    σ.exec none op ≠ .threw σ' := by
  have hresize := Machine.on_resize_fits hs hfit none
  cases op with
  | resize i size =>
    obtain rfl := Option.some.inj hreq
    change σ.on i (Sdo.resize size none) ≠ _
    rw [show i = (Op.resize i size).this from rfl, hresize]
    simp
  | reserve i capacity =>
    obtain rfl := Option.some.inj hreq
    have hsi : σ.objs i = some s := hs
    simp [Machine.exec, Machine.on, hsi, Sdo.reserve, hfit]
  | copyAssign i j =>
    obtain ⟨o, ho, rfl⟩ := Option.map_eq_some_iff.mp hreq
    have hret : σ.on i (Sdo.resize o.d_size none) = _ := hresize
    simp only [Machine.exec, Machine.copyAssign, ho, hret, Outcome.bind]
    split
    · split
      · simp
      · exact Machine.on_ne_threw fun s h r => Sdo.store_ne_threw r
    · simp
  | _ => cases hreq

/-- A `reserve` past the capacity whose allocation fails: the capacity is already
the new one and the old block is gone. -/
theorem Sdo.reserve_throws {s : Sdo N} {h h' : Heap} (hdel : s.deletePtr h = some h') (size : Nat)
    {n : Nat} (hn : s.d_capacity < n) :
    ({ s with d_size := size } : Sdo N).reserve n none h = .threw (⟨n, size, s.u⟩, h') := by
  have hdel' : ({ s with d_size := size } : Sdo N).deletePtr h = some h' := hdel
  rw [Sdo.reserve, if_neg (not_le.mpr hn), hdel']

/-- Where it does not, the exception leaves a capacity for which there is no block. -/
theorem exec_throws {σ : Machine N} {op : Op} {n : Nat} {s : Sdo N} {h' : Heap}
    (hs : σ.objs op.this = some s) (hreq : op.request σ = some n) (hn : s.d_capacity < n)
    (hdel : s.deletePtr σ.heap = some h') :
    ∃ size, σ.exec none op = .threw (σ.put op.this (some ⟨n, size, s.u⟩) h') := by
  have hresize : σ.on op.this (Sdo.resize n none) =
      .threw (σ.put op.this (some ⟨n, n, s.u⟩) h') := by
    have hthrow := Sdo.reserve_throws hdel n hn
    simp only [Machine.on, hs, Sdo.resize, ge_iff_le, if_neg (not_le.mpr hn), hthrow]
  cases op with
  | resize i size =>
    obtain rfl := Option.some.inj hreq
    exact ⟨_, hresize⟩
  | reserve i capacity =>
    obtain rfl := Option.some.inj hreq
    have hthrow := Sdo.reserve_throws hdel s.d_size hn
    have hsi : σ.objs i = some s := hs
    refine ⟨s.d_size, ?_⟩
    simp only [Machine.exec, Machine.on, hsi, hthrow, Op.this]
  | copyAssign i j =>
    obtain ⟨o, ho, rfl⟩ := Option.map_eq_some_iff.mp hreq
    have hthrow : σ.on i (Sdo.resize o.d_size none) = _ := hresize
    refine ⟨o.d_size, ?_⟩
    simp only [Machine.exec, Machine.copyAssign, ho, hthrow, Outcome.bind]
  | _ => cases hreq

/-- A second `delete[]` of the same `d_ptr`: of null it does nothing again, and of a block
it is undefined, as it is of inline bytes that are no pointer. -/
theorem Rep.delete_again {h h' : Heap} {s : Sdo N} {v : Owned N} (hr : Rep h s v)
    (hdel : s.deletePtr h = some h') :
    (asPtr s.u = some .null → h' = h) ∧
      (asPtr s.u ≠ some .null → (asPtr s.u).bind h'.delete = none) := by
  obtain ⟨h₁, hdel₁, hx⟩ := hr.deletePtr
  obtain rfl := Option.some.inj (hdel₁.symm.trans hdel)
  constructor
  · intro hnull
    have hinline : ¬ s.d_capacity > N := by
      intro hN
      obtain ⟨p, hp⟩ := hr.owned_iff.mp hN
      rw [hnull] at hp
      cases hp
    rw [Sdo.deletePtr, if_neg hinline] at hdel
    exact (Option.some.inj hdel).symm
  · intro hne
    cases hptr : asPtr s.u with
    | none => rfl
    | some x =>
      cases x with
      | null => exact absurd hptr hne
      | block p =>
        have hown : s.owned = some p :=
          Sdo.owned_eq_some.mpr ⟨hr.owned_iff.mpr ⟨p, hptr⟩, hptr⟩
        have hdead : p ∉ h₁.live := by
          rw [hx.live, hown]
          simp
        exact Heap.delete_of_dead (not_not.mp hdead)

theorem Machine.objs_put (σ : Machine N) (i : Nat) (o : Option (Sdo N)) (h : Heap) :
    (σ.put i o h).objs i = o := Function.update_self _ _ _

theorem Machine.put_put (σ : Machine N) (i : Nat) (o o' : Option (Sdo N)) (h h' : Heap) :
    (σ.put i o h).put i o' h' = σ.put i o' h' := by
  rw [Machine.put, Machine.put, Machine.put, Function.update_idem]

/-- Destroying what a failed growth leaves behind is a `delete[]` of whatever `d_ptr` reads
as. -/
theorem destroy_grown {σ : Machine N} {i n size : Nat} {u : List Cell} {h : Heap} (hn : N < n) :
    (σ.put i (some ⟨n, size, u⟩) h).destroy i =
      ((asPtr u).bind h.delete).elim .undefined fun h' => .returned (σ.put i none h') := by
  have hheap : (σ.put i (some ⟨n, size, u⟩) h).heap = h := rfl
  simp only [Machine.destroy, Machine.objs_put, hheap, Sdo.deletePtr, gt_iff_lt, if_pos hn,
    Machine.put_put]
  cases (asPtr u).bind h.delete <;> rfl

/-- **Failed allocations.** In every reachable state a failed allocation leaves the
object intact exactly when it cannot happen, because the request fits the
capacity. Where it does not fit the object has the new capacity and no block, and
destroying it is undefined: the bytes under `d_ptr` are those of the block that was given
back, or inline bytes. Only where these are zero do they read as null and nothing happens. -/
theorem intact_iff {σ : Machine N} (h : (programs N).Reachable σ) (op : Op) {n : Nat}
    (hreq : op.request σ = some n) {s : Sdo N} (hs : σ.objs op.this = some s) :
    (Intact σ op ↔ n ≤ s.d_capacity) ∧
      (s.d_capacity < n → ∃ σ' s', σ.exec none op = .threw σ' ∧ σ'.objs op.this = some s' ∧
        s'.d_capacity = n ∧
        (asPtr s.u ≠ some .null → σ'.destroy op.this = .undefined) ∧
        (asPtr s.u = some .null → ∃ σ'', σ'.destroy op.this = .returned σ'' ∧
          σ''.heap = σ.heap)) := by
  obtain ⟨V, hsim⟩ := reachable_sim h
  have hN := (hsim.object hs).2.1
  obtain ⟨v, _, hr⟩ := hsim.value hs
  obtain ⟨h', hdel, _⟩ := hr.deletePtr
  obtain ⟨hnull, hpointer⟩ := hr.delete_again hdel
  refine ⟨⟨fun hintact => ?_, fun hfit σ' hthrow => ?_⟩, fun hn => ?_⟩
  · by_contra hn
    obtain ⟨size, hthrow⟩ := exec_throws hs hreq (not_le.mp hn) hdel
    obtain ⟨s', hs', _, hcapacity, _⟩ := (hintact _ hthrow).1 s hs
    rw [Machine.objs_put] at hs'
    obtain rfl := Option.some.inj hs'
    exact hn hcapacity.le
  · exact absurd hthrow (exec_fits hs hreq hfit)
  · obtain ⟨size, hthrow⟩ := exec_throws hs hreq hn hdel
    refine ⟨_, _, hthrow, Machine.objs_put _ _ _ _, rfl, fun hne => ?_, fun heq => ?_⟩
    · rw [destroy_grown (by omega), hpointer hne, Option.elim_none]
    · obtain rfl := hnull heq
      rw [destroy_grown (by omega), heq]
      exact ⟨_, rfl, rfl⟩

/-- A request that fits, and one that does not of an object with a block. -/
theorem intact_iff_fits :
    (∃ σ : Machine 16, (programs 16).Reachable σ ∧ Intact σ (.resize 0 10)) ∧
      ∃ σ σ' : Machine 16, (programs 16).Reachable σ ∧
        σ.exec none (.resize 0 18) = .threw σ' ∧ σ'.destroy 0 = .undefined := by
  have hinline := reachable_exec (N := 16) (.init rfl) (.create 0 16) rfl (fun _ => 7) rfl
  have hblock := reachable_exec (N := 16) (.init rfl) (.create 0 17) rfl (fun _ => 7) rfl
  obtain ⟨σ', _, hthrow, _, _, hundefined, _⟩ :=
    (intact_iff hblock (.resize 0 18) rfl rfl).2 (by decide)
  exact ⟨⟨_, hinline, (intact_iff hinline (.resize 0 10) rfl rfl).1.mpr (by decide)⟩,
    _, σ', hblock, hthrow, hundefined (by decide)⟩

/-- One byte more than the sixteen inline bytes: the size and the capacity are already 17. -/
theorem not_intact_resize :
    ¬ ∀ (σ : Machine 16) (op : Op), (programs 16).Reachable σ → op.Enabled σ →
      op.request σ ≠ none → Intact σ op := by
  intro hclaim
  have hreach := reachable_exec (N := 16) (.init rfl) (.create 0 16) rfl (fun _ => 7) rfl
  obtain ⟨hkept, _⟩ := hclaim _ (.resize 0 17) hreach (Option.some_ne_none _)
    (Option.some_ne_none _) _ rfl
  obtain ⟨s', hs', hsize, _⟩ := hkept _ rfl
  obtain rfl := Option.some.inj hs'
  cases hsize

end Sydn.Mem
