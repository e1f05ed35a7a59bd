import Sydn.Net.Lookups

/-!
# The life of a looked-up list

Each block has as many uses as there are objects with it, so its nodes are freed when the
last of them is gone or was moved from, and until then each of these objects leads to
nodes of its list only.
-/

namespace Sydn.Net.Lookups

open Sydn.Found (Chain)
open Sydn.Found.Interaction
open Sydn.Found.Shared
open Sydn.Found.Transition
open Sydn.Mem (Owned patch)

/-- Both pointers of an object lead into the block. -/
structure Points (o : Object) (b : Block) : Prop where
  list : o.d_list = b.ptr
  element : ∀ p, o.d_element = some p → p ∈ b.addresses

def Valid (v : Variable) : Prop := ∀ b, v.block = some b → Points v.object b

/-- The invariant: exact counts, a memory of the blocks in use, and pointers into them. -/
structure Intact (s : Scope) : Prop where
  counted : Counted s.held s.ledger
  accounted : Accounted s.ledger
  laid : Laid s.mem s.ledger.InUse
  valid : ∀ i v, s.vars i = some v → Valid v

section Values
variable {v x : Variable} {e : Expr} {b : Option Block} {it it' : ConstIterator} {mem : Memory}

theorem valid_none (o : Object) : Valid ⟨none, o⟩ := by
  intro b hb
  cases hb

/-- What an expression gives uses the block of its operand. -/
theorem value_valid (hv : Valid v) (hx : e.value v = some x) : x.block = v.block ∧ Valid x := by
  obtain ⟨b, o⟩ := v
  cases e with
  | copy =>
    obtain rfl := Option.some.inj hx
    exact ⟨rfl, hv⟩
  | begin =>
    cases o with
    | list this =>
      obtain rfl := Option.some.inj hx
      refine ⟨rfl, ?_⟩
      intro c hc
      have hlist : this.d_list = c.ptr := (hv c hc).list
      refine ⟨hlist, ?_⟩
      intro p hp
      exact List.mem_of_head? (hlist.symm.trans hp)
    | iterator _ => cases hx
    | info _ => cases hx
  | end_ =>
    cases o with
    | list this =>
      obtain rfl := Option.some.inj hx
      refine ⟨rfl, ?_⟩
      intro c hc
      refine ⟨(hv c hc).list, ?_⟩
      intro p hp
      cases hp
    | iterator _ => cases hx
    | info _ => cases hx
  | deref =>
    cases o with
    | iterator this =>
      obtain rfl := Option.some.inj hx
      refine ⟨rfl, ?_⟩
      intro c hc
      exact ⟨(hv c hc).list, (hv c hc).element⟩
    | list _ => cases hx
    | info _ => cases hx

/-- An iterator is advanced within its list. -/
theorem preInc_valid (hv : Valid ⟨b, .iterator it⟩) (hstored : ∀ c, b = some c → Stored mem c)
    (hinc : it.preInc mem.nodes = some it') : Valid ⟨b, .iterator it'⟩ := by
  obtain ⟨p, hp, hinc⟩ := Option.bind_eq_some_iff.mp hinc
  obtain ⟨node, hnode, hinc⟩ := Option.bind_eq_some_iff.mp hinc
  obtain rfl := Option.some.inj hinc
  intro c hc
  have hpoints := hv c hc
  refine ⟨hpoints.list, ?_⟩
  intro q hq
  have hnext : mem.nodes.next p = some (some q) := by
    rw [Nodes.next, hnode]
    exact congrArg some hq
  exact (hstored c hc).next (hpoints.element p hp) hnext

/-- The value of a postfix increment is what a prefix increment leaves. -/
theorem postInc_eq {value : ConstIterator} (h : it.postInc mem.nodes = some (value, it')) :
    it.preInc mem.nodes = some value ∧ it' = it := by
  obtain ⟨iter, hiter, h⟩ := Option.bind_eq_some_iff.mp h
  cases h
  exact ⟨hiter, rfl⟩

end Values

/-! ## The invariant -/

section Invariant
variable {s s' : Scope} {vars : Nat → Option Variable} {i j : Nat} {v : Variable}
variable {x : Option Variable} {op : Op}

theorem usedBy_update : usedBy (Function.update vars i x) =
    Function.update (usedBy vars) i (x.bind Variable.block) := by
  funext k
  unfold usedBy
  by_cases hk : k = i
  · rw [hk, Function.update_self, Function.update_self]
  · rw [Function.update_of_ne hk, Function.update_of_ne hk]

theorem usedBy_some (h : vars i = some v) : usedBy vars i = v.block := by
  rw [usedBy, h]
  rfl

/-- One object becomes another that uses the same block. -/
theorem usedBy_same (h : usedBy vars i = x.bind Variable.block) :
    usedBy (Function.update vars i x) = usedBy vars := by
  rw [usedBy_update, ← h, Function.update_eq_self]

theorem valid_update (h : ∀ k u, vars k = some u → Valid u) (hx : ∀ u, x = some u → Valid u) :
    ∀ k u, Function.update vars i x k = some u → Valid u := by
  intro k u hk
  by_cases heq : k = i
  · rw [heq, Function.update_self] at hk
    exact hx u hk
  · rw [Function.update_of_ne heq] at hk
    exact h k u hk

namespace Intact

theorem stored (h : Intact s) (hi : s.vars i = some v) {b : Block} (hb : v.block = some b) :
    Stored s.mem b :=
  h.laid.stored b (h.counted.inUse ((usedBy_some hi).trans hb))

/-- The deleter can run for any block that is held. -/
theorem releases (h : Intact s) (x : Option Block) :
    ∃ mem, Scope.Released s.mem (s.ledger.last x) mem := by
  cases hlast : s.ledger.last x with
  | none => exact ⟨s.mem, rfl⟩
  | some b =>
    obtain ⟨-, huses⟩ := Ledger.mem_last.mp (Option.mem_toList.mpr hlast)
    have hb : s.ledger.InUse b := by
      rw [Ledger.InUse, huses]
      exact Nat.one_pos
    exact (h.laid.stored b hb).freed

theorem put (h : Intact s) (hput : s.Put i x s') (hvalid : ∀ u, x = some u → Valid u)
    (huse : ∀ b, x.bind Variable.block = some b → s.ledger.InUse b) : Intact s' where
  counted := by
    rw [Scope.held, hput.vars, usedBy_update, hput.ledger]
    exact h.counted.replace i _
  accounted := by
    rw [hput.ledger]
    apply (h.accounted.retain huse).drop
    intro b hb
    exact (Ledger.inUse_retain huse).mpr (h.counted.inUse hb)
  laid := by
    rw [hput.ledger]
    exact (h.laid.congr fun b => Ledger.inUse_retain huse).released hput.mem
  valid := by
    rw [hput.vars]
    exact valid_update h.valid hvalid

/-- An object takes another value of its block. -/
theorem become (h : Intact s) (hblock : usedBy s.vars i = x.bind Variable.block)
    (hvalid : ∀ u, x = some u → Valid u) :
    Intact { s with vars := Function.update s.vars i x } where
  counted := by
    rw [Scope.held, usedBy_same hblock]
    exact h.counted
  accounted := h.accounted
  laid := h.laid
  valid := valid_update h.valid hvalid

theorem lookup (h : Intact s) {b : Block} (hi : s.vars i = none) (hb : b ∉ s.ledger.made)
    (hnodup : b.addresses.Nodup) (hnew : ∀ p ∈ b.addresses, s.mem p = none) :
    Intact ⟨Function.update s.vars i (some ⟨some b, .list ⟨b.ptr⟩⟩), s.mem.place b.entries,
      s.ledger.create b⟩ where
  counted := by
    have hheld : s.held i = none := by
      rw [Scope.held, usedBy, hi]
      rfl
    rw [Scope.held, usedBy_update]
    exact h.counted.create hheld
  accounted := h.accounted.create hb
  laid := (h.laid.place hnodup hnew).congr fun _ => Ledger.inUse_create
  valid := by
    apply valid_update h.valid
    intro u hu c hc
    obtain rfl := Option.some.inj hu
    obtain rfl := Option.some.inj hc
    refine ⟨rfl, ?_⟩
    intro p hp
    cases hp

theorem move (h : Intact s) (hij : i ≠ j) (hj : s.vars j = some v) (hmove : s.Moved i j v s') :
    Intact s' where
  counted := by
    have hheld : s'.held = Function.update (Function.update s.held i (s.held j)) j none := by
      rw [Scope.held, hmove.vars, usedBy_update, usedBy_update, Scope.held, usedBy_some hj]
      rfl
    rw [hheld, hmove.ledger]
    exact h.counted.transfer hij
  accounted := by
    rw [hmove.ledger]
    exact h.accounted.drop fun b hb => h.counted.inUse hb
  laid := by
    rw [hmove.ledger]
    exact h.laid.released hmove.mem
  valid := by
    have hfirst : ∀ k u, Function.update s.vars i (some v) k = some u → Valid u := by
      apply valid_update h.valid
      intro u hu
      obtain rfl := Option.some.inj hu
      exact h.valid j v hj
    rw [hmove.vars]
    apply valid_update hfirst
    intro u hu
    obtain rfl := Option.some.inj hu
    exact valid_none _

/-- What every operation keeps. -/
theorem step (h : Intact s) (hstep : s.Step op s') : Intact s' := by
  cases hstep with
  | lookup hi hb hnodup hnew => exact h.lookup hi hb hnodup hnew
  | default hi _ =>
    apply h.become
    · rw [usedBy, hi]
      rfl
    · intro u hu
      obtain rfl := Option.some.inj hu
      exact valid_none _
  | derive hj hx _ hput =>
    obtain ⟨hblock, hvalid⟩ := value_valid (h.valid _ _ hj) hx
    apply h.put hput
    · intro u hu
      obtain rfl := Option.some.inj hu
      exact hvalid
    · intro b hb
      exact h.counted.inUse ((usedBy_some hj).trans (hblock.symm.trans hb))
  | preInc hj hinc =>
    apply h.become (usedBy_some hj)
    intro u hu
    obtain rfl := Option.some.inj hu
    exact preInc_valid (h.valid _ _ hj) (fun c hc => h.stored hj hc) hinc
  | postInc hi hj hinc hput =>
    obtain ⟨hvalue, rfl⟩ := postInc_eq hinc
    have hv := h.valid _ _ hj
    have hsame : Function.update s.vars _ (some ⟨_, .iterator _⟩) = s.vars :=
      Function.update_eq_self_iff.mpr hj.symm
    rw [hsame] at hput
    apply h.put hput
    · intro u hu
      obtain rfl := Option.some.inj hu
      exact preInc_valid hv (fun c hc => h.stored hj hc) hvalue
    · intro b hb
      exact h.counted.inUse ((usedBy_some hj).trans hb)
  | move hij hj _ hmove => exact h.move hij hj hmove
  | destroy hput =>
    apply h.put hput
    · intro u hu
      cases hu
    · intro b hb
      cases hb

end Intact

theorem intact (h : programs.Reachable s) : Intact s := by
  apply h.invariant
  · intro s hinit
    obtain ⟨hvars, hmem, hledger⟩ := hinit
    have hheld : s.held = fun _ => none := by
      rw [Scope.held, hvars]
      rfl
    refine ⟨?_, ?_, ?_, ?_⟩
    · rw [hheld, hledger]
      exact counted_empty
    · rw [hledger]
      exact accounted_empty
    · rw [hmem, hledger]
      exact Laid.empty.congr fun b => by simp [Ledger.empty]
    · intro i v hv
      rw [hvars] at hv
      cases hv
  · intro s op s' _ hs hstep
    exact hs.step hstep

end Invariant

/-! ## What an info reads -/

/-- The accessors give what the lookup left: an address that is too short for a `sockaddr`
fails the assertion in `resize`. -/
structure Reads (mem : Memory) (this : AddressInfo) (r : Resolved) : Prop where
  family : this.family mem = some r.ai_family
  type : this.type mem = some r.ai_socktype
  protocol : this.protocol mem = some r.ai_protocol
  address : ∃ p, this.address mem = some p ∧ ∀ w t o, p.Run Kernel.env w t o →
    (SizeOk r.ai_addr.length ∧ ∃ a, o = .ok a ∧ a.bytes = r.ai_addr) ∨
      (¬ SizeOk r.ai_addr.length ∧ o = .error .assertion)

theorem bytes_stored {a : Address} {bs : List Sydn.Mem.Byte} (h : bs.length = a.size) :
    (a.stored 0 bs).bytes = bs := by
  have hfits : 0 + bs.length ≤ a.capacity := by
    rw [Nat.zero_add, h]
    exact a.d_data.size_le_capacity
  change (a.stored 0 bs).d_data.storage.take (a.stored 0 bs).size = bs
  rw [Address.size_stored, Address.storage_stored hfits, ← h]
  exact Sydn.Mem.take_patch_zero

theorem reads_of_element {mem : Memory} {this : AddressInfo} {r : Resolved}
    (h : this.element mem = some r) : Reads mem this r := by
  refine ⟨by rw [AddressInfo.family, h]; rfl, by rw [AddressInfo.type, h]; rfl,
    by rw [AddressInfo.protocol, h]; rfl, _, by rw [AddressInfo.address, h]; rfl, ?_⟩
  intro w t o hrun
  obtain ⟨o', hresize, rfl⟩ := Prog.run_mapped.mp hrun
  by_cases hok : SizeOk r.ai_addr.length
  · obtain ⟨content, -, rfl⟩ := (Address.run_resize hok).mp hresize
    exact Or.inl ⟨hok, _, rfl, bytes_stored (Address.size_resized hok).symm⟩
  · rw [Address.resize, dif_neg hok] at hresize
    obtain ⟨-, rfl⟩ := hresize
    exact Or.inr ⟨hok, rfl⟩

/-- What holds of the lists, iterators and infos of a program. -/
structure Sharing (s : Scope) : Prop where
  once : s.ledger.released.Nodup
  released_iff : ∀ b ∈ s.ledger.made,
    b ∈ s.ledger.released ↔ ∀ i v, s.vars i = some v → v.block ≠ some b
  allocated_iff : ∀ p, s.mem p ≠ none ↔
    ∃ i v b, s.vars i = some v ∧ v.block = some b ∧ p ∈ b.addresses
  rest : ∀ i v b, s.vars i = some v → v.block = some b →
    ∃ nodes, Chain s.mem.nodes.next v.object.d_element nodes ∧ nodes <:+ b.addresses
  visits : ∀ i this b, s.vars i = some ⟨some b, .list this⟩ → ∃ turns : List Turn,
    (∀ fuel, b.addresses.length ≤ fuel →
      this.loop s.mem.nodes fuel (fun _ => .pre) this.begin = some turns) ∧
    turns.map Turn.info = b.addresses.map fun p => ⟨this.d_list, some p⟩
  reads : ∀ i this b p, s.vars i = some ⟨some b, .info this⟩ → this.d_element = some p →
    ∃ r, (p, r) ∈ b.entries ∧ Reads s.mem this r
  advances : ∀ i this b p, s.vars i = some ⟨some b, .iterator this⟩ → this.d_element = some p →
    ∃ s', s.Step (.preInc i) s'
  ends : ∀ i, ∃ s', s.Step (.destroy i) s'

namespace Intact
variable {s : Scope} (h : Intact s) {i : Nat} {v : Variable} {b : Block}
include h

/-- A block is in use where an object has it. -/
theorem inUse_iff : s.ledger.InUse b ↔ ∃ i v, s.vars i = some v ∧ v.block = some b := by
  rw [h.counted.inUse_iff]
  apply exists_congr
  intro i
  exact Option.bind_eq_some_iff

theorem rest (hi : s.vars i = some v) (hb : v.block = some b) :
    ∃ nodes, Chain s.mem.nodes.next v.object.d_element nodes ∧ nodes <:+ b.addresses := by
  cases helement : v.object.d_element with
  | none => exact ⟨[], .null, List.nil_suffix⟩
  | some p =>
    have hp := (h.valid i v hi b hb).element p helement
    exact (h.stored hi hb).chain.suffix hp

/-- What is allocated belongs to an object. -/
theorem allocated_iff (p : Nat) : s.mem p ≠ none ↔
    ∃ i v b, s.vars i = some v ∧ v.block = some b ∧ p ∈ b.addresses := by
  constructor
  · intro hp
    obtain ⟨b, hb, hmem⟩ := h.laid.owned p hp
    obtain ⟨i, v, hi, hv⟩ := h.inUse_iff.mp hb
    exact ⟨i, v, b, hi, hv, hmem⟩
  · intro hp
    obtain ⟨i, v, b, hi, hv, hmem⟩ := hp
    exact (h.stored hi hv).allocated hmem

theorem visits {this : AddressInfoList} (hi : s.vars i = some ⟨some b, .list this⟩) :
    ∃ turns : List Turn, (∀ fuel, b.addresses.length ≤ fuel →
      this.loop s.mem.nodes fuel (fun _ => .pre) this.begin = some turns) ∧
      turns.map Turn.info = b.addresses.map fun p => ⟨this.d_list, some p⟩ := by
  have hlist : this.d_list = b.ptr := (h.valid i _ hi b rfl).list
  have hchain := (h.stored hi rfl).chain
  rw [← hlist] at hchain
  obtain ⟨turns, hloop, hinfo, _⟩ := @AddressInfoList.loop_of_pre _ this (fun _ => .pre)
    this.d_list _ _ hchain fun _ _ => rfl
  exact ⟨turns, hloop, hinfo⟩

theorem reads {this : AddressInfo} {p : Nat} (hi : s.vars i = some ⟨some b, .info this⟩)
    (hp : this.d_element = some p) : ∃ r, (p, r) ∈ b.entries ∧ Reads s.mem this r := by
  have hmem := (h.valid i _ hi b rfl).element p hp
  obtain ⟨⟨q, r⟩, he, rfl⟩ := List.mem_map.mp hmem
  refine ⟨r, he, reads_of_element ?_⟩
  rw [AddressInfo.element, hp]
  exact (h.stored hi rfl).entries q r he

theorem advances {this : ConstIterator} {p : Nat} (hi : s.vars i = some ⟨some b, .iterator this⟩)
    (hp : this.d_element = some p) : ∃ s', s.Step (.preInc i) s' := by
  have hmem := (h.valid i _ hi b rfl).element p hp
  obtain ⟨node, hnode⟩ := Option.ne_none_iff_exists'.mp ((h.stored hi rfl).allocated hmem)
  have hlink : s.mem.nodes p = some node.link := by
    rw [Memory.nodes, hnode]
    rfl
  have hinc : this.preInc s.mem.nodes = some { this with d_element := node.link.ai_next } := by
    rw [ConstIterator.preInc, hp]
    simp [hlink]
  exact ⟨_, .preInc hi hinc⟩

theorem ends (i : Nat) : ∃ s', s.Step (.destroy i) s' := by
  obtain ⟨mem, hmem⟩ := h.releases (s.held i)
  exact ⟨⟨Function.update s.vars i none, mem, s.ledger.drop (s.held i)⟩,
    .destroy ⟨rfl, rfl, hmem⟩⟩

end Intact

/-- **Shared lists.** In every program over lists, iterators and infos, with any lookups,
copies, moves and increments, the nodes of a lookup are freed once, and as soon as no
object uses them; what is allocated are the nodes of the lists in use. Until then a
loop over the list that advances by prefix `++` visits them all, an iterator can be advanced
up to the end, and an info reads what the lookup left in its node, whatever became of the
list object. -/
theorem shared_lists {s : Scope} (h : programs.Reachable s) : Sharing s := by
  have hs := intact h
  refine ⟨hs.accounted.once, ?_, hs.allocated_iff, fun _ _ _ => hs.rest, fun _ _ _ => hs.visits,
    fun _ _ _ _ => hs.reads, fun _ _ _ _ => hs.advances, hs.ends⟩
  intro b hb
  rw [hs.accounted.released_iff hs.counted hb]
  constructor
  · intro hnone i v hi hv
    exact hnone i ((usedBy_some hi).trans hv)
  · intro hnone i hi
    obtain ⟨v, hv, hblock⟩ := Option.bind_eq_some_iff.mp hi
    exact hnone i v hv hblock

/-- Two entries of a lookup. -/
def resolved : Block where
  id := 0
  entries := [(1, ⟨2, 1, 6, List.replicate 16 0⟩), (2, ⟨10, 1, 6, List.replicate 28 0⟩)]

/-- The list object is gone, an iterator at the first entry is left. -/
def outlived : Scope where
  vars := Function.update (Function.update (Function.update (fun _ => none)
    0 (some ⟨some resolved, .list ⟨some 1⟩⟩)) 1 (some ⟨some resolved, .iterator ⟨some 1, some 1⟩⟩))
    0 none
  mem := Memory.place (fun _ => none) resolved.entries
  ledger := ((((Ledger.empty.create resolved).retain (some resolved)).drop none).retain none).drop
    (some resolved)

theorem reachable_outlived : programs.Reachable outlived := by
  have hstart : programs.Reachable ⟨fun _ => none, fun _ => none, Ledger.empty⟩ :=
    .init ⟨rfl, rfl, rfl⟩
  have hmade : programs.Reachable ⟨_, _, _⟩ := .step hstart
    (.lookup (i := 0) (b := resolved) rfl List.not_mem_nil (by decide) fun _ _ => rfl)
  have hbegun : programs.Reachable ⟨_, _, _⟩ := .step hmade
    (.derive (i := 1) (j := 0) (e := .begin) (v := ⟨some resolved, .list ⟨some 1⟩⟩)
      (x := ⟨some resolved, .iterator ⟨some 1, some 1⟩⟩) rfl rfl (fun v hv => by cases hv)
      ⟨rfl, rfl, rfl⟩)
  exact .step hbegun (.destroy ⟨rfl, rfl, rfl⟩)

theorem shared_lists_outlived : outlived.vars 0 = none ∧ resolved ∉ outlived.ledger.released ∧
    Sharing outlived :=
  ⟨rfl, by decide, shared_lists reachable_outlived⟩

end Sydn.Net.Lookups
