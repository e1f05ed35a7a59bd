import Sydn.Found.Shared
import Sydn.Found.Transition
import Sydn.Net.AddressInfoList
import Sydn.Net.AddressObjects

/-!
# The results of lookups and who shares them

`resolver::lookup` makes an `address_info_list` of what `getaddrinfo` left, of nothing if
it failed. The list, its iterators and the infos they give share the nodes through the
`std::shared_ptr` that is `d_list`, which has a control block even where it points to
nothing. Beside it an iterator or an info has a plain pointer to a node: copies and
moves copy it, so an object that was moved from still has it, without the list.
-/

namespace Sydn.Net

open Sydn.Found (Chain)
open Sydn.Found.Interaction
open Sydn.Found.Shared
open Sydn.Found.Transition
open Sydn.Mem (Byte)

/-- What `getaddrinfo` fills in of an `addrinfo` beside the link, `ai_addrlen` being the
length of the address. -/
structure Resolved where
  ai_family : Int
  ai_socktype : Int
  ai_protocol : Int
  ai_addr : List Byte
deriving DecidableEq

structure Node where
  link : AddrInfo
  resolved : Resolved

/-- The nodes that are allocated. -/
abbrev Memory := Nat → Option Node

namespace Memory

def nodes (mem : Memory) : Nodes := fun p => (mem p).map Node.link

/-- The nodes that `getaddrinfo` allocates, each linked to the next. -/
def place (mem : Memory) : List (Nat × Resolved) → Memory
  | [] => mem
  | (p, r) :: rest =>
    Function.update (mem.place rest) p (some ⟨⟨(rest.map Prod.fst).head?⟩, r⟩)

end Memory

/-- `freeaddrinfo`, on a null pointer nothing. -/
def Freed (mem : Memory) (ptr : Option Nat) (mem' : Memory) : Prop :=
  ∃ nodes, Chain mem.nodes.next ptr nodes ∧ mem' = fun p => if p ∈ nodes then none else mem p

namespace AddressInfo

def element (mem : Memory) (this : AddressInfo) : Option Resolved :=
  this.d_element.bind fun p => (mem p).map Node.resolved

def family (mem : Memory) (this : AddressInfo) : Option Int :=
  (this.element mem).map Resolved.ai_family

def type (mem : Memory) (this : AddressInfo) : Option Int :=
  (this.element mem).map Resolved.ai_socktype

def protocol (mem : Memory) (this : AddressInfo) : Option Int :=
  (this.element mem).map Resolved.ai_protocol

/-- `address()`. -/
def address (mem : Memory) (this : AddressInfo) : Option (Syscall Address) :=
  (this.element mem).map fun element => do
    let result ← Address.init.resize element.ai_addr.length
    return result.stored 0 element.ai_addr

end AddressInfo

namespace Lookups

/-- A control block: the nodes that it was made for. -/
structure Block where
  id : Nat
  entries : List (Nat × Resolved)
deriving DecidableEq

namespace Block

def addresses (b : Block) : List Nat := b.entries.map Prod.fst

/-- The pointer that `addrinfo_delete` is called with. -/
def ptr (b : Block) : Option Nat := b.addresses.head?

end Block

inductive Object
  | list (this : AddressInfoList)
  | iterator (this : ConstIterator)
  | info (this : AddressInfo)

namespace Object

def d_list : Object → Option Nat
  | list this => this.d_list
  | iterator this => this.d_list
  | info this => this.d_list

def d_element : Object → Option Nat
  | list _ => none
  | iterator this => this.d_element
  | info this => this.d_element

/-- What a move leaves: the pointer to the node is copied. -/
def moved : Object → Object
  | list _ => list ⟨none⟩
  | iterator this => iterator { this with d_list := none }
  | info this => info { this with d_list := none }

/-- The objects with an empty `d_list` that can be made. -/
def Default (o : Object) : Prop := o = iterator {} ∨ o = info ⟨none, none⟩

inductive SameClass : Object → Object → Prop
  | list (this other : AddressInfoList) : SameClass (list this) (list other)
  | iterator (this other : ConstIterator) : SameClass (iterator this) (iterator other)
  | info (this other : AddressInfo) : SameClass (info this) (info other)

end Object

/-- An object with the control block of its `d_list`, if that is not empty. -/
structure Variable where
  block : Option Block
  object : Object

/-- The expressions that copy `d_list`. -/
inductive Expr
  | copy
  | begin
  | end_
  | deref

/-- The value of an expression over an object. -/
def Expr.value : Expr → Variable → Option Variable
  | copy, v => some v
  | begin, ⟨b, .list this⟩ => some ⟨b, .iterator this.begin⟩
  | end_, ⟨b, .list this⟩ => some ⟨b, .iterator this.end_⟩
  | deref, ⟨b, .iterator this⟩ => some ⟨b, .info this.deref⟩
  | _, _ => none

/-- The objects of a program, the nodes and the counts of the control blocks. -/
structure Scope where
  vars : Nat → Option Variable
  mem : Memory
  ledger : Ledger Block

inductive Op
  | lookup (i : Nat) (b : Block)
  | default (i : Nat) (o : Object)
  | derive (i j : Nat) (e : Expr)
  | preInc (j : Nat)
  | postInc (i j : Nat)
  | move (i j : Nat)
  | destroy (i : Nat)

/-- The block that each object uses. -/
def usedBy (vars : Nat → Option Variable) (i : Nat) : Option Block := (vars i).bind Variable.block

namespace Scope

def held (s : Scope) : Nat → Option Block := usedBy s.vars

/-- The deleter runs where the last use is given up. -/
def Released (mem : Memory) : Option Block → Memory → Prop
  | none, mem' => mem' = mem
  | some b, mem' => Freed mem b.ptr mem'

/-- A name that a value like `x` can be given: a new one, or that of an object of its class. -/
def Takes (s : Scope) (i : Nat) (x : Variable) : Prop :=
  ∀ v, s.vars i = some v → Object.SameClass v.object x.object

/-- The object becomes `x`, whose block it uses and no longer the one before. -/
structure Put (s : Scope) (i : Nat) (x : Option Variable) (s' : Scope) : Prop where
  vars : s'.vars = Function.update s.vars i x
  ledger : s'.ledger = (s.ledger.retain (x.bind Variable.block)).drop (s.held i)
  mem : Released s.mem ((s.ledger.retain (x.bind Variable.block)).last (s.held i)) s'.mem

/-- The object takes over what another one has; its own block is no longer used. -/
structure Moved (s : Scope) (i j : Nat) (v : Variable) (s' : Scope) : Prop where
  vars : s'.vars =
    Function.update (Function.update s.vars i (some v)) j (some ⟨none, v.object.moved⟩)
  ledger : s'.ledger = s.ledger.drop (s.held i)
  mem : Released s.mem (s.ledger.last (s.held i)) s'.mem

inductive Step (s : Scope) : Op → Scope → Prop
  /-- The nodes are new, and so is the control block. -/
  | lookup {i : Nat} {b : Block} : s.vars i = none → b ∉ s.ledger.made →
      b.addresses.Nodup → (∀ p ∈ b.addresses, s.mem p = none) →
      Step s (.lookup i b) ⟨Function.update s.vars i (some ⟨some b, .list ⟨b.ptr⟩⟩),
        s.mem.place b.entries, s.ledger.create b⟩
  | default {i : Nat} {o : Object} : s.vars i = none → o.Default →
      Step s (.default i o) { s with vars := Function.update s.vars i (some ⟨none, o⟩) }
  | derive {i j : Nat} {e : Expr} {v x : Variable} {s' : Scope} : s.vars j = some v →
      e.value v = some x → s.Takes i x → s.Put i (some x) s' → Step s (.derive i j e) s'
  | preInc {j : Nat} {b : Option Block} {it it' : ConstIterator} :
      s.vars j = some ⟨b, .iterator it⟩ → it.preInc s.mem.nodes = some it' →
      Step s (.preInc j) { s with vars := Function.update s.vars j (some ⟨b, .iterator it'⟩) }
  | postInc {i j : Nat} {b : Option Block} {it value it' : ConstIterator} {s' : Scope} :
      s.vars i = none → s.vars j = some ⟨b, .iterator it⟩ →
      it.postInc s.mem.nodes = some (value, it') →
      Put { s with vars := Function.update s.vars j (some ⟨b, .iterator it'⟩) } i
        (some ⟨b, .iterator value⟩) s' → Step s (.postInc i j) s'
  | move {i j : Nat} {v : Variable} {s' : Scope} : i ≠ j → s.vars j = some v → s.Takes i v →
      s.Moved i j v s' → Step s (.move i j) s'
  | destroy {i : Nat} {s' : Scope} : s.Put i none s' → Step s (.destroy i) s'

end Scope

/-- The programs over such objects, which start without one. -/
def programs : LTS Scope Op where
  init s := s.vars = (fun _ => none) ∧ s.mem = (fun _ => none) ∧ s.ledger = Ledger.empty
  step := Scope.Step

/-! ## What the memory holds -/

/-- The nodes of a block, as the lookup left them. -/
structure Stored (mem : Memory) (b : Block) : Prop where
  chain : Chain mem.nodes.next b.ptr b.addresses
  entries : ∀ p r, (p, r) ∈ b.entries → (mem p).map Node.resolved = some r

/-- The memory has the nodes of the live blocks, each in one of them, and no others. -/
structure Laid (mem : Memory) (live : Block → Prop) : Prop where
  stored : ∀ b, live b → Stored mem b
  apart : ∀ b c p, live b → live c → p ∈ b.addresses → p ∈ c.addresses → b = c
  owned : ∀ p, mem p ≠ none → ∃ b, live b ∧ p ∈ b.addresses

section Memory
variable {mem mem' : Memory} {entries : List (Nat × Resolved)} {b : Block} {p : Nat}
variable {live : Block → Prop}

theorem next_eq (mem : Memory) (p : Nat) :
    mem.nodes.next p = (mem p).map (AddrInfo.ai_next ∘ Node.link) := Option.map_map ..

theorem next_congr (h : mem' p = mem p) : mem'.nodes.next p = mem.nodes.next p := by
  rw [next_eq, next_eq, h]

theorem place_of_not_mem (h : p ∉ entries.map Prod.fst) : mem.place entries p = mem p := by
  induction entries with
  | nil => rfl
  | cons e rest ih =>
    have hne : p ≠ e.1 := List.ne_of_not_mem_cons h
    rw [Memory.place, Function.update_of_ne hne]
    exact ih (List.not_mem_of_not_mem_cons h)

theorem chain_place (h : (entries.map Prod.fst).Nodup) :
    Chain (mem.place entries).nodes.next (entries.map Prod.fst).head? (entries.map Prod.fst) := by
  induction entries with
  | nil => exact .null
  | cons e rest ih =>
    obtain ⟨hfresh, hrest⟩ := List.nodup_cons.mp h
    have hlink : (mem.place (e :: rest)).nodes.next e.1 = some (rest.map Prod.fst).head? := by
      rw [next_eq, Memory.place, Function.update_self]
      rfl
    refine .node hlink ((ih hrest).frame ?_)
    intro q hq
    have hne : q ≠ e.1 := by
      rintro rfl
      exact hfresh hq
    apply next_congr
    rw [Memory.place, Function.update_of_ne hne]

theorem entries_place (h : (entries.map Prod.fst).Nodup) {r : Resolved} (hmem : (p, r) ∈ entries) :
    (mem.place entries p).map Node.resolved = some r := by
  induction entries with
  | nil => cases hmem
  | cons e rest ih =>
    obtain ⟨hfresh, hrest⟩ := List.nodup_cons.mp h
    rcases List.mem_cons.mp hmem with rfl | hmem
    · rw [Memory.place, Function.update_self]
      rfl
    · have hne : p ≠ e.1 := by
        rintro rfl
        exact hfresh (List.mem_map.mpr ⟨_, hmem, rfl⟩)
      rw [Memory.place, Function.update_of_ne hne]
      exact ih hrest hmem

namespace Stored

theorem frame (h : Stored mem b) (hsame : ∀ p ∈ b.addresses, mem' p = mem p) : Stored mem' b where
  chain := h.chain.frame fun p hp => next_congr (hsame p hp)
  entries p r hp := by
    rw [hsame p (List.mem_map.mpr ⟨_, hp, rfl⟩)]
    exact h.entries p r hp

theorem allocated (h : Stored mem b) (hp : p ∈ b.addresses) : mem p ≠ none := by
  obtain ⟨e, he, rfl⟩ := List.mem_map.mp hp
  have hentry := h.entries e.1 e.2 he
  intro hnone
  rw [hnone] at hentry
  cases hentry

/-- The block can be freed. -/
theorem freed (h : Stored mem b) : ∃ mem', Freed mem b.ptr mem' := ⟨_, _, h.chain, rfl⟩

/-- A link leads to a node of the block. -/
theorem next (h : Stored mem b) (hp : p ∈ b.addresses) {q : Nat}
    (hq : mem.nodes.next p = some (some q)) : q ∈ b.addresses := by
  obtain ⟨rest, hrest, hsuffix⟩ := h.chain.suffix hp
  cases hrest with
  | node hlink hrest =>
    obtain rfl := Option.some.inj (hlink.symm.trans hq)
    cases hrest with
    | node _ _ => exact hsuffix.subset (by simp)

end Stored

namespace Laid

theorem congr {live' : Block → Prop} (h : Laid mem live) (hlive : ∀ b, live' b ↔ live b) :
    Laid mem live' := by
  have heq : live' = live := funext fun b => propext (hlive b)
  rw [heq]
  exact h

theorem empty : Laid (fun _ => none) fun _ => False where
  stored _ h := h.elim
  apart _ _ _ h := h.elim
  owned _ h := absurd rfl h

/-- A lookup adds the nodes of a block. -/
theorem place (h : Laid mem live) (hnodup : b.addresses.Nodup)
    (hnew : ∀ p ∈ b.addresses, mem p = none) :
    Laid (mem.place b.entries) fun c => c = b ∨ live c where
  stored c hc := by
    rcases hc with rfl | hc
    · exact ⟨chain_place hnodup, fun p r hp => entries_place hnodup hp⟩
    · apply (h.stored c hc).frame
      intro p hp
      apply place_of_not_mem
      intro hmem
      exact (h.stored c hc).allocated hp (hnew p hmem)
  apart c d p hc hd hpc hpd := by
    rcases hc with rfl | hc
    · rcases hd with rfl | hd
      · rfl
      · exact absurd (hnew p hpc) ((h.stored d hd).allocated hpd)
    · rcases hd with rfl | hd
      · exact absurd (hnew p hpd) ((h.stored c hc).allocated hpc)
      · exact h.apart c d p hc hd hpc hpd
  owned p hp := by
    by_cases hmem : p ∈ b.addresses
    · exact ⟨b, Or.inl rfl, hmem⟩
    · rw [place_of_not_mem hmem] at hp
      obtain ⟨c, hc, hpc⟩ := h.owned p hp
      exact ⟨c, Or.inr hc, hpc⟩

/-- What is freed are the nodes of the block and of no other. -/
theorem free (h : Laid mem live) (hb : live b) (hfreed : Freed mem b.ptr mem') :
    Laid mem' fun c => live c ∧ c ≠ b := by
  obtain ⟨nodes, hchain, rfl⟩ := hfreed
  obtain rfl := (h.stored b hb).chain.unique hchain
  refine ⟨?_, ?_, ?_⟩
  · intro c hc
    apply (h.stored c hc.1).frame
    intro p hp
    have hout : p ∉ b.addresses := fun hmem => hc.2 (h.apart c b p hc.1 hb hp hmem)
    exact if_neg hout
  · intro c d p hc hd
    exact h.apart c d p hc.1 hd.1
  · intro p hp
    have hout : p ∉ b.addresses := fun hmem => hp (if_pos hmem)
    rw [if_neg hout] at hp
    obtain ⟨c, hc, hpc⟩ := h.owned p hp
    refine ⟨c, ⟨hc, ?_⟩, hpc⟩
    rintro rfl
    exact hout hpc

/-- The deleter runs for a block that is in use up to then. -/
theorem released {L : Ledger Block} {x : Option Block} (h : Laid mem L.InUse)
    (hrel : Scope.Released mem (L.last x) mem') : Laid mem' (L.drop x).InUse := by
  cases hlast : L.last x with
  | none =>
    rw [hlast] at hrel
    obtain rfl := hrel
    apply h.congr
    intro c
    rw [Ledger.inUse_drop, hlast]
    simp
  | some b =>
    rw [hlast] at hrel
    obtain ⟨-, huses⟩ := Ledger.mem_last.mp (Option.mem_toList.mpr hlast)
    have hb : L.InUse b := by
      rw [Ledger.InUse, huses]
      exact Nat.one_pos
    apply (h.free hb hrel).congr
    intro c
    rw [Ledger.inUse_drop, hlast, ne_eq, Option.some_inj, eq_comm]

end Laid

end Memory

end Lookups

end Sydn.Net
