import Sydn.Mem.Heap

/-!
# `sdo<N>` as the source writes it

Three fields: the capacity, the size and a union of the block pointer with the
`N` inline bytes. The capacity alone says which member of the union is live.
The union is kept as its raw cells, so that exchanging `d_ptr` moves the first
eight of them whatever they are, and inline bytes that are all zero read as the null
pointer. Every operation ends by returning, by an
exception out of `new char[]` that leaves the fields as far as they were
written, or in undefined behaviour.
-/

namespace Sydn.Mem

/-- One byte of the union: a `char`, the `k`-th byte of a block pointer, or a byte that
nothing has set. -/
inductive Cell where
  | byte (b : Byte)
  | frag (p k : Nat)
  | unset
  deriving DecidableEq

def Cell.byte? : Cell → Option Byte
  | .byte b => some b
  | .frag _ _ | .unset => none

/-- `sizeof(char *)`. -/
def ptrSize : Nat := 8

/-- The cells of a stored pointer. -/
def ptrCells (p : Nat) : List Cell := (List.range ptrSize).map (.frag p)

/-- The cells of inline bytes; in a short union nothing sets the rest of the pointer. -/
def inlineCells (d : List Byte) : List Cell :=
  d.map .byte ++ List.replicate (ptrSize - d.length) .unset

/-- The cells of the null pointer. -/
def nullCells : List Cell := List.replicate ptrSize (.byte 0)

/-- Read `d_ptr`: the cells of the union must be those of null or of one stored pointer. -/
def asPtr (u : List Cell) : Option Ptr :=
  if u.take ptrSize = nullCells then some .null
  else
    match u.head? with
    | some (.frag p _) => if u.take ptrSize = ptrCells p then some (.block p) else none
    | _ => none

/-- Write `d_ptr`. -/
def setPtr (u : List Cell) (p : Nat) : List Cell := ptrCells p ++ u.drop ptrSize

/-- How an operation ends. -/
inductive Outcome (α : Type) where
  | returned (a : α)
  | threw (a : α)
  | undefined

def Outcome.bind {α : Type} : Outcome α → (α → Outcome α) → Outcome α
  | .returned a, f => f a
  | .threw a, _ => .threw a
  | .undefined, _ => .undefined

theorem Outcome.unique {α : Type} {x : Outcome α} {a b : α} (ha : x = .returned a)
    (hb : x = .returned b) : a = b :=
  Outcome.returned.inj (ha.symm.trans hb)

/-- The allocator's answer to one request: what the new memory holds, or an exception. -/
abbrev New := Option (Nat → Byte)

structure Sdo (N : Nat) where
  d_capacity : Nat
  d_size : Nat
  /-- The union of `d_ptr` and `d_data`. -/
  u : List Cell

namespace Sdo
variable {N : Nat}

/-- The member initialisers. -/
def init (N : Nat) : Sdo N where
  d_capacity := N
  d_size := 0
  u := inlineCells (List.replicate N 0)

/-- `if (d_capacity > _smallSize) { delete[] d_ptr; }` -/
def deletePtr (s : Sdo N) (h : Heap) : Option Heap :=
  if s.d_capacity > N then (asPtr s.u).bind h.delete else some h

def reserve (capacity : Nat) (new : New) (s : Sdo N) (h : Heap) : Outcome (Sdo N × Heap) :=
  if s.d_capacity ≥ capacity then .returned (s, h)
  else
    match s.deletePtr h with
    | none => .undefined
    | some h =>
        let s := { s with d_capacity := capacity }
        match new with
        | none => .threw (s, h)
        | some content =>
            .returned ({ s with u := setPtr s.u h.next }, h.new (fill s.d_capacity content))

def resize (size : Nat) (new : New) (s : Sdo N) (h : Heap) : Outcome (Sdo N × Heap) :=
  let s := { s with d_size := size }
  if s.d_capacity ≥ s.d_size then .returned (s, h) else s.reserve size new h

/-- Read `count` bytes at `data()`. -/
def load (count : Nat) (s : Sdo N) (h : Heap) : Option (List Byte) :=
  if s.d_capacity ≤ N then
    if count ≤ N then (s.u.take count).mapM Cell.byte? else none
  else
    (asPtr s.u).bind (h.load count)

/-- Write `bytes` at `data() + i`. -/
def store (i : Nat) (bytes : List Byte) (s : Sdo N) (h : Heap) : Outcome (Sdo N × Heap) :=
  if s.d_capacity ≤ N then
    if i + bytes.length ≤ N then .returned ({ s with u := patch i (bytes.map .byte) s.u }, h)
    else .undefined
  else
    match (asPtr s.u).bind (h.store i bytes) with
    | none => .undefined
    | some h => .returned (s, h)

/-- `data()[0 .. size())`. -/
def contents (s : Sdo N) (h : Heap) : Option (List Byte) := s.load s.d_size h

/-- The block an object owns: its `d_ptr` while its capacity says that it has one. -/
def owned (s : Sdo N) : Option Nat :=
  if s.d_capacity > N then (asPtr s.u).bind Ptr.block? else none

end Sdo

/-- The objects alive at one moment, by number, and the free store. -/
structure Machine (N : Nat) where
  objs : Nat → Option (Sdo N)
  heap : Heap

namespace Machine
variable {N : Nat}

def empty (N : Nat) : Machine N := ⟨fun _ => none, Heap.empty⟩

def put (σ : Machine N) (i : Nat) (o : Option (Sdo N)) (h : Heap) : Machine N :=
  ⟨Function.update σ.objs i o, h⟩

/-- Run a member function on object `i`. -/
def on (i : Nat) (f : Sdo N → Heap → Outcome (Sdo N × Heap)) (σ : Machine N) :
    Outcome (Machine N) :=
  match σ.objs i with
  | none => .undefined
  | some s =>
      match f s σ.heap with
      | .returned (s, h) => .returned (σ.put i (some s) h)
      | .threw (s, h) => .threw (σ.put i (some s) h)
      | .undefined => .undefined

/-- `*this = other` for `this` at `i` and `other` at `j`, which may be one object:
`other` is read again after `this` was resized. -/
def copyAssign (i j : Nat) (new : New) (σ : Machine N) : Outcome (Machine N) :=
  match σ.objs j with
  | none => .undefined
  | some other =>
      (σ.on i (Sdo.resize other.d_size new)).bind fun σ =>
        match σ.objs i, σ.objs j with
        | some this, some other =>
            match other.load this.d_size σ.heap with
            | none => .undefined
            | some bytes => σ.on i (Sdo.store 0 bytes)
        | _, _ => .undefined

/-- The three exchanges of `d_capacity`, `d_size` and `d_ptr`. -/
def swapFields (i j : Nat) (this other : Sdo N) (σ : Machine N) : Machine N :=
  let this' : Sdo N := ⟨other.d_capacity, other.d_size,
    other.u.take ptrSize ++ this.u.drop ptrSize⟩
  let other' : Sdo N := ⟨this.d_capacity, this.d_size,
    this.u.take ptrSize ++ other.u.drop ptrSize⟩
  (σ.put i (some this') σ.heap).put j (some other') σ.heap

/-- `*this = std::move(other)` for `this` at `i` and `other` at `j`. -/
def moveAssign (i j : Nat) (new : New) (σ : Machine N) : Outcome (Machine N) :=
  match σ.objs i, σ.objs j with
  | some this, some other =>
      -- the assertion on `other.d_capacity`
      if other.d_capacity < N then .undefined
      else if other.d_capacity = N then σ.copyAssign i j new
      else .returned (σ.swapFields i j this other)
  | _, _ => .undefined

/-- The destructor of object `i`. -/
def destroy (i : Nat) (σ : Machine N) : Outcome (Machine N) :=
  match σ.objs i with
  | none => .undefined
  | some s =>
      match s.deletePtr σ.heap with
      | none => .undefined
      | some h => .returned (σ.put i none h)

/-- A constructor body run on a new object `i`; an exception leaves no object. -/
def construct (i : Nat) (body : Machine N → Outcome (Machine N)) (σ : Machine N) :
    Outcome (Machine N) :=
  match σ.objs i with
  | some _ => .undefined
  | none =>
      match body (σ.put i (some (Sdo.init N)) σ.heap) with
      | .threw σ' => .threw (σ'.put i none σ'.heap)
      | o => o

end Machine

/-- What a program may do with `sdo` objects. -/
inductive Op where
  | create (i size : Nat)
  | copyCreate (i j : Nat)
  | moveCreate (i j : Nat)
  | copyAssign (i j : Nat)
  | moveAssign (i j : Nat)
  | resize (i size : Nat)
  | reserve (i capacity : Nat)
  | write (i k : Nat) (b : Byte)
  | destroy (i : Nat)

/-- The object an operation is called on. -/
def Op.this : Op → Nat
  | .create i _ | .copyCreate i _ | .moveCreate i _ | .copyAssign i _ | .moveAssign i _
  | .resize i _ | .reserve i _ | .write i _ _ | .destroy i => i

/-- The objects an operation names are alive and those it makes are not; `write`
stays below `size()`. -/
def Op.Enabled {N : Nat} (σ : Machine N) : Op → Prop
  | .create i _ => σ.objs i = none
  | .copyCreate i j | .moveCreate i j => σ.objs i = none ∧ σ.objs j ≠ none
  | .copyAssign i j | .moveAssign i j => σ.objs i ≠ none ∧ σ.objs j ≠ none
  | .resize i _ | .reserve i _ | .destroy i => σ.objs i ≠ none
  | .write i k _ => ∃ s, σ.objs i = some s ∧ k < s.d_size

def Machine.exec {N : Nat} (new : New) (σ : Machine N) : Op → Outcome (Machine N)
  | .create i size => σ.construct i (Machine.on i (Sdo.resize size new))
  | .copyCreate i j => σ.construct i (Machine.copyAssign i j new)
  | .moveCreate i j => σ.construct i (Machine.moveAssign i j new)
  | .copyAssign i j => σ.copyAssign i j new
  | .moveAssign i j => σ.moveAssign i j new
  | .resize i size => σ.on i (Sdo.resize size new)
  | .reserve i capacity => σ.on i (Sdo.reserve capacity new)
  | .write i k b => σ.on i (Sdo.store k [b])
  | .destroy i => σ.destroy i

end Sydn.Mem
