import Sydn.Found.Chain

/-!
# Iterating over the results of an address lookup

The `addrinfo` nodes live in a memory of their own, which `d_list` keeps alive as
long as an iterator may point into it. A loop dereferences its iterator and
advances it once a turn, by either form of `operator++`, until it is at `end()`.

The header does not compile as it stands. It is read with the headers that it needs
included, the default argument of the constructor given once, an object of
`addrinfo_delete` as the deleter, the three classes as friends of each other, and the
member functions `family`, `type` and `address` apart from the types of these names.
-/

namespace Sydn.Net

open Sydn.Found (Chain)

/-- An `addrinfo`, as far as an iterator reads it. -/
structure AddrInfo where
  ai_next : Option Nat

/-- The nodes at their addresses. -/
abbrev Nodes := Nat → Option AddrInfo

def Nodes.next (nodes : Nodes) (p : Nat) : Option (Option Nat) := (nodes p).map AddrInfo.ai_next

structure AddressInfoList where
  d_list : Option Nat

structure AddressInfo where
  d_list : Option Nat
  d_element : Option Nat := none
deriving DecidableEq

structure ConstIterator where
  d_list : Option Nat := none
  d_element : Option Nat := none
deriving DecidableEq

namespace AddressInfoList

def begin (this : AddressInfoList) : ConstIterator where
  d_list := this.d_list
  d_element := this.d_list

/-- `end()`. -/
def end_ (this : AddressInfoList) : ConstIterator where
  d_list := this.d_list

end AddressInfoList

namespace ConstIterator

def eq (this other : ConstIterator) : Bool := this.d_element == other.d_element

def ne (this other : ConstIterator) : Bool := this.d_element != other.d_element

/-- `operator++()`: no result where `d_element` is no node's address. -/
def preInc (nodes : Nodes) (this : ConstIterator) : Option ConstIterator := do
  let p ← this.d_element
  let node ← nodes p
  return { this with d_element := node.ai_next }

/-- `operator++(int)`: the value it returns and what is left in `*this`. -/
def postInc (nodes : Nodes) (this : ConstIterator) : Option (ConstIterator × ConstIterator) := do
  let iter := this
  let iter ← iter.preInc nodes
  return (iter, this)

/-- `operator*`. -/
def deref (this : ConstIterator) : AddressInfo where
  d_list := this.d_list
  d_element := this.d_element

end ConstIterator

/-- The two forms of `operator++`. -/
inductive Increment
  | pre
  | post
deriving DecidableEq

/-- The value of the expression and what is left in the iterator. -/
def Increment.apply (nodes : Nodes) (it : ConstIterator) :
    Increment → Option (ConstIterator × ConstIterator)
  | .pre => do
    let it ← it.preInc nodes
    return (it, it)
  | .post => it.postInc nodes

/-- One turn of a loop: where the iterator stood, what was read there, the form of
the increment and its value. -/
structure Turn where
  before : ConstIterator
  info : AddressInfo
  increment : Increment
  value : ConstIterator
deriving DecidableEq

/-- The turns of the loop that stands at `it`, if it ends within `fuel` of them. -/
def AddressInfoList.loop (nodes : Nodes) (list : AddressInfoList) :
    Nat → (Nat → Increment) → ConstIterator → Option (List Turn)
  | 0, _, it => if it.ne list.end_ then none else some []
  | fuel + 1, forms, it =>
    if it.ne list.end_ then do
      let (value, it') ← (forms 0).apply nodes it
      let turns ← list.loop nodes fuel (fun k => forms (k + 1)) it'
      return ⟨it, it.deref, forms 0, value⟩ :: turns
    else some []

/-- A loop visits `entries`: it ends after as many turns and reads them in order, no
one twice, and every value of a postfix increment is the position before it. -/
structure AddressInfoList.VisitsOnce (nodes : Nodes) (list : AddressInfoList)
    (forms : Nat → Increment) (it : ConstIterator) (entries : List Nat) : Prop where
  once : entries.Nodup
  visits : ∃ turns : List Turn,
    (∀ fuel, entries.length ≤ fuel → list.loop nodes fuel forms it = some turns) ∧
    turns.map Turn.info = entries.map (fun p => ⟨it.d_list, some p⟩) ∧
    ∀ turn ∈ turns, turn.increment = .post → turn.value.eq turn.before

namespace AddressInfoList
variable {nodes : Nodes} {list : AddressInfoList} {forms : Nat → Increment}
variable {d link : Option Nat} {p : Nat} {entries : List Nat} {turns : List Turn}

theorem preInc_node (hp : nodes.next p = some link) :
    ConstIterator.preInc nodes ⟨d, some p⟩ = some ⟨d, link⟩ := by
  obtain ⟨node, hnode, rfl⟩ := Option.map_eq_some_iff.mp hp
  simp [ConstIterator.preInc, hnode]

/-- A postfix increment returns the next position and leaves the iterator where it is. -/
theorem postInc_node (hp : nodes.next p = some link) :
    ConstIterator.postInc nodes ⟨d, some p⟩ = some (⟨d, link⟩, ⟨d, some p⟩) := by
  simp [ConstIterator.postInc, preInc_node hp]

theorem loop_null (fuel : Nat) : list.loop nodes fuel forms ⟨d, none⟩ = some [] := by
  cases fuel <;> rfl

/-- Where an increment leaves an iterator that is at `p`, whose link is `link`. -/
def leaves (p : Nat) (link : Option Nat) : Increment → Option Nat
  | .pre => link
  | .post => some p

/-- Both forms return the next position; only the prefix form moves the iterator there. -/
theorem apply_node (hp : nodes.next p = some link) (form : Increment) :
    form.apply nodes ⟨d, some p⟩ = some (⟨d, link⟩, ⟨d, leaves p link form⟩) := by
  cases form with
  | pre => simp [Increment.apply, preInc_node hp, leaves]
  | post => exact postInc_node hp

/-- One turn of the loop at a node. -/
theorem loop_node (hp : nodes.next p = some link) (fuel : Nat) :
    list.loop nodes (fuel + 1) forms ⟨d, some p⟩ =
      (list.loop nodes fuel (fun k => forms (k + 1)) ⟨d, leaves p link (forms 0)⟩).map
        (⟨⟨d, some p⟩, ⟨d, some p⟩, forms 0, ⟨d, link⟩⟩ :: ·) := by
  have hne : (⟨d, some p⟩ : ConstIterator).ne list.end_ = true := rfl
  rw [loop, if_pos hne, apply_node hp, Option.map_eq_bind]
  rfl

/-- The first turn of a loop that ends reads the node it stands at. -/
theorem loop_head {fuel : Nat}
    (h : list.loop nodes fuel forms ⟨d, some p⟩ = some turns) :
    ∃ turn rest, turns = turn :: rest ∧ turn.info = ⟨d, some p⟩ := by
  cases fuel with
  | zero => cases h
  | succ fuel =>
    obtain ⟨⟨value, it⟩, _, h⟩ := Option.bind_eq_some_iff.mp h
    obtain ⟨rest, _, h⟩ := Option.bind_eq_some_iff.mp h
    exact ⟨_, rest, (Option.some.inj h).symm, rfl⟩

/-- With prefix increments only, the loop reads the nodes in chain order and ends. -/
theorem loop_of_pre (h : Chain nodes.next link entries)
    (hpre : ∀ k < entries.length, forms k = .pre) :
    ∃ turns : List Turn,
      (∀ fuel, entries.length ≤ fuel → list.loop nodes fuel forms ⟨d, link⟩ = some turns) ∧
      turns.map Turn.info = entries.map (fun p => ⟨d, some p⟩) ∧
      ∀ turn ∈ turns, turn.increment = .pre := by
  induction h generalizing forms with
  | null => exact ⟨[], fun fuel _ => loop_null fuel, rfl, by simp⟩
  | @node p link entries hp _ ih =>
    have hform : forms 0 = .pre := hpre 0 (Nat.succ_pos _)
    have hrest : ∀ k < entries.length, forms (k + 1) = .pre := by
      intro k hk
      exact hpre (k + 1) (Nat.succ_lt_succ hk)
    obtain ⟨turns, hloop, hinfo, hturns⟩ := ih hrest
    refine ⟨⟨⟨d, some p⟩, ⟨d, some p⟩, forms 0, ⟨d, link⟩⟩ :: turns, ?_, ?_, ?_⟩
    · intro fuel hfuel
      cases fuel with
      | zero => simp at hfuel
      | succ fuel =>
        rw [loop_node hp, hform, leaves, hloop fuel (by simpa using hfuel)]
        rfl
    · rw [List.map_cons, List.map_cons, hinfo]
    · intro turn hturn
      obtain rfl | hturn := List.mem_cons.mp hturn
      · exact hform
      · exact hturns turn hturn

/-- A loop that ends and reads each node once has moved at each: after a postfix
increment it reads the same node again. -/
theorem pre_of_loop (h : Chain nodes.next link entries)
    (hloop : list.loop nodes entries.length forms ⟨d, link⟩ = some turns)
    (hinfo : turns.map Turn.info = entries.map (fun p => ⟨d, some p⟩)) :
    ∀ k < entries.length, forms k = .pre := by
  induction h generalizing forms turns with
  | null =>
    intro k hk
    cases hk
  | @node p link entries hp hentries ih =>
    rw [List.length_cons, loop_node hp] at hloop
    obtain ⟨rest, hrest, rfl⟩ := Option.map_eq_some_iff.mp hloop
    rw [List.map_cons, List.map_cons] at hinfo
    have hinfo := (List.cons.inj hinfo).2
    cases hform : forms 0 with
    | pre =>
      rw [hform] at hrest
      intro k hk
      cases k with
      | zero => exact hform
      | succ k => exact ih hrest hinfo k (Nat.lt_of_succ_lt_succ hk)
    | post =>
      rw [hform] at hrest
      obtain ⟨turn, _, rfl, hturn⟩ := loop_head hrest
      have hmem : turn.info ∈ entries.map (fun p => (⟨d, some p⟩ : AddressInfo)) := by
        rw [← hinfo]
        exact List.mem_cons_self
      obtain ⟨q, hq, heq⟩ := List.mem_map.mp hmem
      obtain rfl : q = p := by simpa [hturn] using heq
      have hnodup := (Chain.node hp hentries).nodup
      exact absurd hq (List.nodup_cons.mp hnodup).1

/-- With postfix increments only, a loop over a list with an entry does not end. -/
theorem loop_of_post (hp : nodes.next p = some link) (hpost : ∀ k, forms k = .post)
    (fuel : Nat) : list.loop nodes fuel forms ⟨d, some p⟩ = none := by
  induction fuel generalizing forms with
  | zero => rfl
  | succ fuel ih =>
    have hrest : ∀ k, forms (k + 1) = .post := fun k => hpost (k + 1)
    rw [loop_node hp, hpost 0, leaves, ih hrest]
    rfl

/-- A loop over a list visits its entries once exactly if it takes the prefix form at
each of them. -/
theorem visitsOnce_iff (h : Chain nodes.next list.d_list entries) :
    list.VisitsOnce nodes forms list.begin entries ↔
      ∀ k < entries.length, forms k = .pre := by
  constructor
  · intro hv
    obtain ⟨turns, hloop, hinfo, _⟩ := hv.visits
    exact pre_of_loop h (hloop _ (Nat.le_refl _)) hinfo
  · intro hpre
    obtain ⟨turns, hloop, hinfo, hturns⟩ := loop_of_pre (d := list.d_list) h hpre
    refine ⟨h.nodup, turns, hloop, hinfo, ?_⟩
    intro turn hturn hpost
    rw [hturns turn hturn] at hpost
    cases hpost

/-- The entries at 1 and 2. -/
def twoEntries : Nodes
  | 1 => some ⟨some 2⟩
  | 2 => some ⟨none⟩
  | _ => none

theorem chain_twoEntries : Chain twoEntries.next (some 1) [1, 2] :=
  .node rfl (.node rfl .null)

theorem visitsOnce_prefix :
    (AddressInfoList.mk (some 1)).VisitsOnce twoEntries (fun _ => .pre) (begin ⟨some 1⟩) [1, 2] :=
  (visitsOnce_iff chain_twoEntries).mpr fun _ _ => rfl

theorem postfix_visits_forever :
    Chain twoEntries.next (some 1) [1, 2] ∧
      (∀ fuel, loop twoEntries ⟨some 1⟩ fuel (fun _ => .post) (begin ⟨some 1⟩) = none) ∧
      ¬ (AddressInfoList.mk (some 1)).VisitsOnce twoEntries (fun _ => .post)
        (begin ⟨some 1⟩) [1, 2] := by
  have hloop (fuel : Nat) :
      loop twoEntries ⟨some 1⟩ fuel (fun _ => .post) (begin ⟨some 1⟩) = none :=
    loop_of_post (rfl : twoEntries.next 1 = some (some 2)) (fun _ => rfl) fuel
  refine ⟨chain_twoEntries, hloop, ?_⟩
  intro h
  obtain ⟨turns, hturns, _⟩ := h.visits
  have hsome := hturns 2 (Nat.le_refl _)
  rw [hloop 2] at hsome
  cases hsome

end AddressInfoList
end Sydn.Net
