import Sydn.Mem.Account
import Sydn.Net.AddressObjects

/-!
# Addresses on their `sdo` members

The one field of an `address` is an `sdo`. The operations of a program on addresses are
run here on the fields of these members and on the free store, where a byte is in the
union or in a block, and compared with the addresses as owned bytes.
-/

namespace Sydn.Net.Address

open Sydn.Found.Interaction
open Sydn.Found.Objects
open Sydn.Found.Ownership
open Sydn.Found.Transition
open Sydn.Mem (Byte Heap Machine New Outcome Owned Rep Sdo Sim Values)

/-- An operation on addresses, as the calls that it makes on `d_data`. -/
def exec (new : New) (σ : Machine c_sdoSize) :
    Action Unit AddressCall → Outcome (Machine c_sdoSize)
  | .make i () => σ.exec new (.create i 0)
  -- the assertion of `resize`
  | .call i (.resize size) => if SizeOk size then σ.exec new (.resize i size) else .undefined
  | .call i (.reserve capacity) => σ.exec new (.reserve i capacity)
  | .call i .clear => σ.exec new (.resize i 0)
  -- `native()` is null while the size is zero
  | .call i (.write k bs) =>
      σ.on i fun s h => if s.d_size ≠ 0 then s.store k bs h else .undefined
  | .copyMake i j => σ.exec new (.copyCreate i j)
  | .copyAssign i j => σ.exec new (.copyAssign i j)
  | .moveMake i j => σ.exec new (.moveCreate i j)
  | .moveAssign i j => σ.exec new (.moveAssign i j)
  | .destroy i => σ.exec new (.destroy i)

/-- The size and the capacity of each object that exists. -/
abbrev Extents := Nat → Option (Nat × Nat)

/-- The objects that are named exist and a new one has a free name; a size passes the
assertion, and a write stays within the storage at `native()`. -/
def Permits (x : Extents) : Action Unit AddressCall → Prop
  | .make i _ => x i = none
  | .call i (.resize size) => x i ≠ none ∧ SizeOk size
  | .call i (.reserve _) | .call i .clear | .destroy i => x i ≠ none
  | .call i (.write k bs) =>
      ∃ size capacity, x i = some (size, capacity) ∧ size ≠ 0 ∧ k + bs.length ≤ capacity
  | .copyMake i j | .moveMake i j => x i = none ∧ x j ≠ none
  | .copyAssign i j | .moveAssign i j => x i ≠ none ∧ x j ≠ none

def memberExtents (σ : Machine c_sdoSize) : Extents :=
  fun i => (σ.objs i).map fun s => (s.d_size, s.d_capacity)

def extents (P : Pool Address) : Extents := fun i => (P i).map fun a => (a.size, a.capacity)

/-- Programs over addresses on their members; every allocation succeeds. -/
def members : LTS (Machine c_sdoSize) (Action Unit AddressCall) where
  init σ := σ = Machine.empty c_sdoSize
  step σ op σ' := Permits (memberExtents σ) op ∧ ∃ content, exec (some content) σ op = .returned σ'

/-- Programs over addresses that destroy only what exists. -/
def careful : LTS (Pool Address) (Action Unit AddressCall) :=
  objects.programs.restrict fun P op => ∀ i, op = .destroy i → P i ≠ none

/-- The fields and the memory of a member show an address. -/
structure Shows (h : Heap) (s : Sdo c_sdoSize) (a : Address) : Prop where
  size : s.d_size = a.size
  capacity : s.d_capacity = a.capacity
  bytes : s.contents h = some a.bytes
  storage : s.load s.d_capacity h = some a.d_data.storage

/-- Every address has a member that shows it, and the blocks alive are those that the
members own, each one of them by one. -/
structure Represents (σ : Machine c_sdoSize) (P : Pool Address) : Prop where
  shows : ∀ i, Option.Rel (Shows σ.heap) (σ.objs i) (P i)
  account : Balanced σ.heap.live σ.holds

/-! ## Members and owned bytes -/

def values (P : Pool Address) : Values c_sdoSize := fun i => (P i).map Address.d_data

/-- The operations on owned bytes. -/
def execValues (content : Nat → Byte) (V : Values c_sdoSize) :
    Action Unit AddressCall → Values c_sdoSize
  | .make i () => V.exec content (.create i 0)
  | .call i (.resize size) => V.exec content (.resize i size)
  | .call i (.reserve capacity) => V.exec content (.reserve i capacity)
  | .call i .clear => V.exec content (.resize i 0)
  | .call i (.write k bs) => V.on i (·.store k bs)
  | .copyMake i j => V.exec content (.copyCreate i j)
  | .copyAssign i j => V.exec content (.copyAssign i j)
  | .moveMake i j => V.exec content (.moveCreate i j)
  | .moveAssign i j => V.exec content (.moveAssign i j)
  | .destroy i => V.exec content (.destroy i)

section Members
variable {σ : Machine c_sdoSize} {P P' : Pool Address} {V : Values c_sdoSize}
variable {op : Action Unit AddressCall} {i j : Nat} {a b : Address}

theorem memberExtents_none : memberExtents σ i = none ↔ σ.objs i = none := Option.map_eq_none_iff

/-- An operation that is permitted returns, in the state that owned bytes describe. -/
theorem sim_exec (hs : Sim σ V) (h : Permits (memberExtents σ) op) (content : Nat → Byte) :
    ∃ σ', exec (some content) σ op = .returned σ' ∧ Sim σ' (execValues content V op) := by
  have hexec (op : Sydn.Mem.Op) (hop : op.Enabled σ) :
      ∃ σ', σ.exec (some content) op = .returned σ' ∧ Sim σ' (V.exec content op) := by
    obtain ⟨σ', hret, hs', _⟩ := hs.exec op hop content
    exact ⟨σ', hret, hs'⟩
  cases op with
  | make i args => exact hexec (.create i 0) (memberExtents_none.mp h)
  | call i c =>
    cases c with
    | resize size =>
      obtain ⟨hi, hok⟩ := h
      rw [exec, if_pos hok]
      exact hexec (.resize i size) (mt memberExtents_none.mpr hi)
    | reserve capacity => exact hexec (.reserve i capacity) (mt memberExtents_none.mpr h)
    | clear => exact hexec (.resize i 0) (mt memberExtents_none.mpr h)
    | write k bs =>
      obtain ⟨size, capacity, hext, hsize, hfits⟩ := h
      obtain ⟨s, hsi, hpair⟩ := Option.map_eq_some_iff.mp hext
      cases hpair
      obtain ⟨v, hv, hr⟩ := hs.value hsi
      rw [hr.size] at hsize
      rw [hr.capacity] at hfits
      obtain ⟨σ', hret, hs', _⟩ := hs.member hv
        (f := fun s h => if s.d_size ≠ 0 then s.store k bs h else .undefined)
        (g := (·.store k bs)) fun s hr => by
          rw [← hr.size] at hsize
          simp only [if_pos hsize]
          exact hr.store hfits
      exact ⟨σ', hret, hs'⟩
  | copyMake i j =>
    exact hexec (.copyCreate i j)
      ⟨memberExtents_none.mp h.1, mt memberExtents_none.mpr h.2⟩
  | moveMake i j =>
    exact hexec (.moveCreate i j)
      ⟨memberExtents_none.mp h.1, mt memberExtents_none.mpr h.2⟩
  | copyAssign i j =>
    exact hexec (.copyAssign i j)
      ⟨mt memberExtents_none.mpr h.1, mt memberExtents_none.mpr h.2⟩
  | moveAssign i j =>
    exact hexec (.moveAssign i j)
      ⟨mt memberExtents_none.mpr h.1, mt memberExtents_none.mpr h.2⟩
  | destroy i => exact hexec (.destroy i) (mt memberExtents_none.mpr h)

/-! ## Owned bytes and addresses -/

theorem values_some (hi : P i = some a) : values P i = some a.d_data := by
  rw [values, hi, Option.map_some]

theorem values_none : values P i = none ↔ P i = none := Option.map_eq_none_iff

theorem values_update (x : Option Address) :
    values (Function.update P i x) = Function.update (values P) i (x.map Address.d_data) := by
  funext k
  by_cases hk : k = i
  · subst hk
    simp [values]
  · simp [values, Function.update_of_ne hk]

theorem extents_none : extents P i = none ↔ P i = none := Option.map_eq_none_iff

theorem sim_represents (hs : Sim σ (values P)) : Represents σ P := by
  refine ⟨fun i => ?_, hs.balanced⟩
  cases hP : P i with
  | none =>
    rw [hs.none_iff.mpr (values_none.mpr hP)]
    exact .none
  | some a =>
    obtain ⟨s, hsi, hr⟩ := hs.obj (values_some hP)
    rw [hsi]
    have hload : s.load s.d_capacity σ.heap = some (a.d_data.storage.take s.d_capacity) :=
      hr.load hr.capacity.le
    rw [hr.capacity, Owned.capacity, List.take_length, ← Owned.capacity, ← hr.capacity] at hload
    exact .some ⟨hr.size, hr.capacity, hr.contents, hload⟩

theorem extents_eq (hs : Sim σ (values P)) : memberExtents σ = extents P := by
  funext i
  cases hP : P i with
  | none => rw [memberExtents, extents, hs.none_iff.mpr (values_none.mpr hP), hP]; rfl
  | some a =>
    obtain ⟨s, hsi, hr⟩ := hs.obj (values_some hP)
    rw [memberExtents, extents, hsi, hP, Option.map_some, Option.map_some, hr.size, hr.capacity]
    rfl

theorem exists_of_extents (h : extents P i ≠ none) : ∃ a, P i = some a :=
  Option.ne_none_iff_exists'.mp (mt extents_none.mpr h)

theorem extents_some (hi : P i = some a) : extents P i ≠ none := by
  rw [extents, hi]
  exact Option.some_ne_none _

end Members

section Makes
variable {α β : Type} {a other : Address} {n : Nat}

/-- What a call can return is, seen through `d`, what `f` makes of some new memory, and
every new memory can come. -/
structure Makes (p : Syscall α) (d : α → β) (f : (Nat → Byte) → β) : Prop where
  every : ∀ content, ∃ x, Yields p x ∧ d x = f content
  only : ∀ x, Yields p x → ∃ content, d x = f content

theorem allocate_makes {d : α → β} {f : (Nat → Byte) → β} {g : (Nat → Byte) → α}
    (hg : ∀ content, d (g content) = f content)
    (hf : ∀ c c', (a.capacity < n → c = c') → f c = f c') :
    Makes ((a.allocate n).bind fun content => .ret (g content)) d f := by
  constructor
  · intro content
    by_cases hcap : a.capacity < n
    · refine ⟨g content, ⟨⟨∅, ∅⟩, [⟨.new n, content⟩], Prog.run_map.mpr ⟨content, ?_, rfl⟩⟩,
        hg content⟩
      rw [allocate, if_pos hcap]
      exact ⟨content, [], rfl, trivial, rfl, rfl⟩
    · refine ⟨g fun _ => 0, ⟨⟨∅, ∅⟩, [], Prog.run_map.mpr ⟨fun _ => 0, ?_, rfl⟩⟩, ?_⟩
      · rw [allocate, if_neg hcap]
        exact ⟨rfl, rfl⟩
      · exact (hg _).trans (hf _ _ fun h => absurd h hcap)
  · intro x h
    obtain ⟨w, t, hrun⟩ := h
    obtain ⟨content, _, rfl⟩ := Prog.run_map.mp hrun
    exact ⟨content, hg content⟩

theorem resize_makes (hok : SizeOk n) :
    Makes (a.resize n) Address.d_data (a.d_data.resize n) := by
  rw [resize, dif_pos hok]
  exact allocate_makes (fun _ => rfl) fun _ _ => Owned.resize_congr

theorem reserve_makes : Makes (a.reserve n) Address.d_data (a.d_data.reserve n) :=
  allocate_makes (fun _ => rfl) fun _ _ => Owned.reserve_congr

theorem copyAssign_makes :
    Makes (a.copyAssign other) Address.d_data (a.d_data.copyAssign other.d_data) :=
  allocate_makes (fun _ => rfl) fun _ _ => Owned.copyAssign_congr

theorem moveAssign_makes :
    Makes (a.moveAssign other) (fun x => (x.1.d_data, x.2.d_data))
      (a.d_data.moveAssign other.d_data) := by
  unfold moveAssign
  split
  · rename_i hb
    refine allocate_makes (fun content => (Owned.moveAssign_inline hb content).symm) ?_
    intro c c' h
    rw [Owned.moveAssign_inline hb, Owned.moveAssign_inline hb, Owned.copyAssign_congr h]
  · rename_i b hb
    constructor
    · intro content
      exact ⟨_, ⟨⟨∅, ∅⟩, [], rfl, rfl⟩, (Owned.moveAssign_block hb content).symm⟩
    · intro x h
      obtain ⟨w, t, _, hx⟩ := h
      cases hx
      exact ⟨fun _ => 0, (Owned.moveAssign_block hb _).symm⟩

end Makes

section Steps
variable {P P' : Pool Address} {op : Action Unit AddressCall} {i j : Nat} {a b p q : Address}
variable {content : Nat → Byte}

theorem on_values {f : Owned c_sdoSize → Owned c_sdoSize} (hi : P i = some a)
    (hb : b.d_data = f a.d_data) :
    values (Function.update P i (some b)) = (values P).on i f := by
  rw [values_update, Option.map_some, hb, Values.on, values_some hi, Option.map_some]

theorem make_values (content : Nat → Byte) :
    values (Function.update P i (some init)) = (values P).exec content (.create i 0) := by
  have hinit : (Owned.init c_sdoSize).resize 0 content = Owned.init c_sdoSize :=
    Owned.resize_self _ _
  rw [values_update, Values.exec, Values.on, Values.create, Function.update_self,
    Function.update_idem, Option.map_some, Option.map_some, hinit]
  rfl

theorem copyMake_values (hi : P i = none) (hp : P j = some p)
    (hb : b.d_data = init.d_data.copyAssign p.d_data content) :
    values (Function.update P i (some b)) = (values P).exec content (.copyCreate i j) := by
  rw [values_update, Option.map_some, hb]
  exact (Values.create_copyAssign (values_none.mpr hi) (values_some hp) content).symm

theorem copyAssign_values (ha : P i = some a) (hp : P j = some p)
    (hb : b.d_data = a.d_data.copyAssign p.d_data content) :
    values (Function.update P i (some b)) = (values P).exec content (.copyAssign i j) := by
  rw [values_update, Option.map_some, hb]
  exact (Values.copyAssign_eq (values_some ha) (values_some hp) content).symm

/-- The two addresses that a move leaves behind. -/
theorem pair_values {v w : Owned c_sdoSize} (h : (b.d_data, q.d_data) = (v, w)) :
    values (Function.update (Function.update P i (some b)) j (some q)) =
      Function.update (Function.update (values P) i (some v)) j (some w) := by
  cases h
  rw [values_update, values_update]
  rfl

theorem moveMake_values (hi : P i = none) (hp : P j = some p)
    (h : (b.d_data, q.d_data) = init.d_data.moveAssign p.d_data content) :
    values (Function.update (Function.update P i (some b)) j (some q)) =
      (values P).exec content (.moveCreate i j) := by
  rw [pair_values h]
  exact (Values.create_moveAssign (values_none.mpr hi) (values_some hp) content).symm

theorem moveAssign_values (ha : P i = some a) (hp : P j = some p)
    (h : (b.d_data, q.d_data) = a.d_data.moveAssign p.d_data content) :
    values (Function.update (Function.update P i (some b)) j (some q)) =
      (values P).exec content (.moveAssign i j) := by
  rw [pair_values h]
  exact (Values.moveAssign_eq (values_some ha) (values_some hp) content).symm

/-- An operation that is permitted can be done, with any new memory. -/
theorem step_exists (h : Permits (extents P) op) (content : Nat → Byte) :
    ∃ P', objects.Step P op P' ∧ values P' = execValues content (values P) op := by
  cases op with
  | make i args => exact ⟨_, .make (extents_none.mp h) rfl, make_values content⟩
  | call i c =>
    cases c with
    | resize n =>
      obtain ⟨hi, hok⟩ := h
      obtain ⟨a, ha⟩ := exists_of_extents hi
      obtain ⟨b, hb, hdata⟩ := (resize_makes hok).every content
      exact ⟨_, .call ha hb, on_values ha hdata⟩
    | reserve n =>
      obtain ⟨a, ha⟩ := exists_of_extents h
      obtain ⟨b, hb, hdata⟩ := reserve_makes.every content
      exact ⟨_, .call ha hb, on_values ha hdata⟩
    | clear =>
      obtain ⟨a, ha⟩ := exists_of_extents h
      have hdata : a.d_data.resize 0 (fun _ => 0) = a.d_data.resize 0 content :=
        Owned.resize_congr fun h => absurd h (Nat.not_lt_zero _)
      exact ⟨_, .call ha rfl, on_values ha hdata⟩
    | write k bs =>
      obtain ⟨size, capacity, hext, hsize, hfits⟩ := h
      obtain ⟨a, ha, hpair⟩ := Option.map_eq_some_iff.mp hext
      cases hpair
      exact ⟨_, .call ha ⟨hsize, hfits, rfl⟩, on_values ha rfl⟩
  | copyMake i j =>
    obtain ⟨p, hp⟩ := exists_of_extents h.2
    have hi := extents_none.mp h.1
    obtain ⟨b, hb, hdata⟩ := copyAssign_makes.every content
    exact ⟨_, .copyMake hi hp hb, copyMake_values hi hp hdata⟩
  | copyAssign i j =>
    obtain ⟨a, ha⟩ := exists_of_extents h.1
    obtain ⟨p, hp⟩ := exists_of_extents h.2
    obtain ⟨b, hb, hdata⟩ := copyAssign_makes.every content
    exact ⟨_, .copyAssign ha hp hb, copyAssign_values ha hp hdata⟩
  | moveMake i j =>
    obtain ⟨p, hp⟩ := exists_of_extents h.2
    have hi := extents_none.mp h.1
    obtain ⟨⟨b, q⟩, hb, hdata⟩ := moveAssign_makes.every content
    exact ⟨_, .moveMake hi hp hb, moveMake_values hi hp hdata⟩
  | moveAssign i j =>
    obtain ⟨a, ha⟩ := exists_of_extents h.1
    obtain ⟨p, hp⟩ := exists_of_extents h.2
    obtain ⟨⟨b, q⟩, hb, hdata⟩ := moveAssign_makes.every content
    exact ⟨_, .moveAssign ha hp hb, moveAssign_values ha hp hdata⟩
  | destroy i => exact ⟨_, .destroy, values_update none⟩

/-- What an operation did is permitted and done by the same one on owned bytes. -/
theorem exec_of_step (h : careful.step P op P') :
    Permits (extents P) op ∧ ∃ content, values P' = execValues content (values P) op := by
  obtain ⟨hop, h⟩ := h
  cases h with
  | make hi hmade =>
    rw [hmade]
    exact ⟨extents_none.mpr hi, fun _ => 0, make_values _⟩
  | @call i c a b ha hcalled =>
    have hext := extents_some ha
    cases c with
    | resize n =>
      by_cases hok : SizeOk n
      · obtain ⟨content, hdata⟩ := (resize_makes hok).only b hcalled
        exact ⟨⟨hext, hok⟩, content, on_values ha hdata⟩
      · obtain ⟨hok', _⟩ := yields_resize hcalled
        exact absurd hok' hok
    | reserve n =>
      obtain ⟨content, hdata⟩ := reserve_makes.only b hcalled
      exact ⟨hext, content, on_values ha hdata⟩
    | clear =>
      have hdata : b.d_data = a.d_data.resize 0 fun _ => 0 := by
        rw [hcalled]
        rfl
      exact ⟨hext, fun _ => 0, on_values ha hdata⟩
    | write k bs =>
      obtain ⟨hsize, hfits, rfl⟩ := hcalled
      refine ⟨⟨a.size, a.capacity, ?_, hsize, hfits⟩, fun _ => 0, on_values ha rfl⟩
      rw [extents, ha, Option.map_some]
  | @copyMake i j b p hi hp hcopied =>
    obtain ⟨content, hdata⟩ := copyAssign_makes.only b hcopied
    exact ⟨⟨extents_none.mpr hi, extents_some hp⟩, content, copyMake_values hi hp hdata⟩
  | @copyAssign i j a b p ha hp hassigned =>
    obtain ⟨content, hdata⟩ := copyAssign_makes.only b hassigned
    exact ⟨⟨extents_some ha, extents_some hp⟩, content, copyAssign_values ha hp hdata⟩
  | @moveMake i j b p q hi hp hmoved =>
    obtain ⟨content, hdata⟩ := moveAssign_makes.only (b, q) hmoved
    exact ⟨⟨extents_none.mpr hi, extents_some hp⟩, content, moveMake_values hi hp hdata⟩
  | @moveAssign i j a b p q ha hp hmoved =>
    obtain ⟨content, hdata⟩ := moveAssign_makes.only (b, q) hmoved
    exact ⟨⟨extents_some ha, extents_some hp⟩, content, moveAssign_values ha hp hdata⟩
  | @destroy i =>
    exact ⟨mt extents_none.mp (hop i rfl), fun _ => 0, values_update none⟩

end Steps

theorem sim_none : Sim (Machine.empty c_sdoSize) (values fun _ => none) := Sydn.Mem.sim_empty

theorem members_step {σ σ' : Machine c_sdoSize} {P : Pool Address}
    {op : Action Unit AddressCall} (hs : Sim σ (values P)) (h : members.step σ op σ') :
    ∃ P', careful.step P op P' ∧ Sim σ' (values P') := by
  obtain ⟨hpermits, content, hret⟩ := h
  obtain ⟨σ₁, hret₁, hs₁⟩ := sim_exec hs hpermits content
  obtain rfl := Outcome.unique hret₁ hret
  rw [extents_eq hs] at hpermits
  obtain ⟨P', hstep, hvalues⟩ := step_exists hpermits content
  refine ⟨P', ⟨?_, hstep⟩, ?_⟩
  · rintro i rfl
    exact mt extents_none.mpr hpermits
  · rw [hvalues]
    exact hs₁

theorem careful_step {σ : Machine c_sdoSize} {P P' : Pool Address}
    {op : Action Unit AddressCall} (hs : Sim σ (values P)) (h : careful.step P op P') :
    ∃ σ', members.step σ op σ' ∧ Sim σ' (values P') := by
  obtain ⟨hpermits, content, hvalues⟩ := exec_of_step h
  rw [← extents_eq hs] at hpermits
  obtain ⟨σ', hret, hs'⟩ := sim_exec hs hpermits content
  refine ⟨σ', ⟨hpermits, content, hret⟩, ?_⟩
  rw [hvalues]
  exact hs'

/-- The runs of the members are shown by addresses. -/
theorem follows_members {ops : List (Action Unit AddressCall)} {σ : Machine c_sdoSize}
    (h : members.Reaches ops σ) : ∃ P, careful.Reaches ops P ∧ Sim σ (values P) := by
  apply h.follows
  · rintro σ rfl
    exact ⟨_, rfl, sim_none⟩
  · intro σ op σ' P hs hstep
    exact members_step hs hstep

/-- **Refinement.** A program over any number of addresses does on their `sdo` members,
byte for byte and with every block owned once, what it does on the addresses as owned
bytes, and the other way round; what it may do is defined whatever new memory holds. -/
theorem address_members (ops : List (Action Unit AddressCall)) :
    (∀ σ, members.Reaches ops σ → ∃ P, careful.Reaches ops P ∧ Represents σ P) ∧
    (∀ P, careful.Reaches ops P → ∃ σ, members.Reaches ops σ ∧ Represents σ P) ∧
    ∀ σ, members.Reaches ops σ → ∀ op content, Permits (memberExtents σ) op →
      ∃ σ', exec (some content) σ op = .returned σ' := by
  refine ⟨fun σ h => ?_, fun P h => ?_, fun σ h op content hpermits => ?_⟩
  · obtain ⟨P, hP, hs⟩ := follows_members h
    exact ⟨P, hP, sim_represents hs⟩
  · obtain ⟨σ, hσ, hs⟩ := h.follows (M := members) (R := fun P σ => Sim σ (values P))
      (by rintro P rfl; exact ⟨_, rfl, sim_none⟩)
      (fun P op P' σ hs hstep => careful_step hs hstep)
    exact ⟨σ, hσ, sim_represents hs⟩
  · obtain ⟨P, _, hs⟩ := follows_members h
    obtain ⟨σ', hret, _⟩ := sim_exec hs hpermits content
    exact ⟨σ', hret⟩

end Sydn.Net.Address
