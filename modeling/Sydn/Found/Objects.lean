import Mathlib.Logic.Function.Basic
import Sydn.Found.Transition

/-!
# Programs over the objects of one class

A class is given by what its operations may do: to one object, or to a target and
a source. Its programs are all sequences of operations on any number of objects.
A `Meaning` is an account of an object that its operations determine, a copy and a
moved object having that of the source, which keeps its own. Where each operation
agrees with the meaning, every object of every program has the account that the
operations give it.
-/

namespace Sydn.Found.Objects

open Sydn.Found.Transition

/-- Operations, with `M` what an object is made from and `C` the calls of its methods. -/
inductive Action (M C : Type*)
  | make (i : Nat) (args : M)
  | call (i : Nat) (c : C)
  | copyMake (i j : Nat)
  | copyAssign (i j : Nat)
  | moveMake (i j : Nat)
  | moveAssign (i j : Nat)
  | destroy (i : Nat)

/-- What the operations may do; of two objects the target is first. -/
structure Class (O M C : Type*) where
  made : M → O → Prop
  called : O → C → O → Prop
  copied : O → O → Prop
  assigned : O → O → O → Prop
  moved : O → O → O → Prop
  moveAssigned : O → O → O → O → Prop

variable {O A M C : Type*}

/-- The objects that exist, by name. -/
abbrev Pool (O : Type*) := Nat → Option O

namespace Class

/-- One operation; an object is made under a name that is free. -/
inductive Step (K : Class O M C) (σ : Pool O) : Action M C → Pool O → Prop
  | make {i : Nat} {args : M} {o : O} : σ i = none → K.made args o →
      Step K σ (.make i args) (Function.update σ i (some o))
  | call {i : Nat} {c : C} {o o' : O} : σ i = some o → K.called o c o' →
      Step K σ (.call i c) (Function.update σ i (some o'))
  | copyMake {i j : Nat} {o p : O} : σ i = none → σ j = some p → K.copied p o →
      Step K σ (.copyMake i j) (Function.update σ i (some o))
  | copyAssign {i j : Nat} {o o' p : O} : σ i = some o → σ j = some p → K.assigned o p o' →
      Step K σ (.copyAssign i j) (Function.update σ i (some o'))
  | moveMake {i j : Nat} {o p p' : O} : σ i = none → σ j = some p → K.moved p o p' →
      Step K σ (.moveMake i j) (Function.update (Function.update σ i (some o)) j (some p'))
  | moveAssign {i j : Nat} {o o' p p' : O} : σ i = some o → σ j = some p →
      K.moveAssigned o p o' p' →
      Step K σ (.moveAssign i j) (Function.update (Function.update σ i (some o')) j (some p'))
  | destroy {i : Nat} : Step K σ (.destroy i) (Function.update σ i none)

/-- The programs, which start without an object. -/
def programs (K : Class O M C) : LTS (Pool O) (Action M C) where
  init σ := σ = fun _ => none
  step := K.Step

/-- The class where only calls that meet `P` are made. -/
def only (K : Class O M C) (P : C → Prop) : Class O M C where
  __ := K
  called o c o' := P c ∧ K.called o c o'

end Class

/-- An account of an object, as its operations determine it. -/
structure Meaning (A M C : Type*) where
  make : M → A
  call : A → C → A

namespace Meaning

def step (S : Meaning A M C) (V : Pool A) : Action M C → Pool A
  | .make i args => Function.update V i (some (S.make args))
  | .call i c => Function.update V i ((V i).map (S.call · c))
  | .copyMake i j | .copyAssign i j | .moveMake i j | .moveAssign i j =>
      Function.update V i (V j)
  | .destroy i => Function.update V i none

/-- The accounts after a sequence of operations. -/
def values (S : Meaning A M C) (ops : List (Action M C)) : Pool A := ops.foldl S.step fun _ => none

end Meaning

/-- Each operation of the class agrees with the meaning, by way of `R`. -/
structure Agrees (K : Class O M C) (S : Meaning A M C) (R : O → A → Prop) : Prop where
  made : ∀ args o, K.made args o → R o (S.make args)
  called : ∀ o a c o', R o a → K.called o c o' → R o' (S.call a c)
  copied : ∀ p a o, R p a → K.copied p o → R o a
  assigned : ∀ o b p a o', R o b → R p a → K.assigned o p o' → R o' a
  moved : ∀ p a o p', R p a → K.moved p o p' → R o a ∧ R p' a
  moveAssigned : ∀ o b p a o' p', R o b → R p a → K.moveAssigned o p o' p' → R o' a ∧ R p' a

/-- Each object that exists has its account, and nothing else has one. -/
def Matches (R : O → A → Prop) (σ : Pool O) (V : Pool A) : Prop := ∀ i, Option.Rel R (σ i) (V i)

variable {K : Class O M C} {S : Meaning A M C} {R : O → A → Prop}
variable {σ σ' : Pool O} {V : Pool A} {i j : Nat} {o : O}

theorem Matches.account (h : Matches R σ V) (hi : σ i = some o) : ∃ a, V i = some a ∧ R o a := by
  have hrel := h i
  rw [hi] at hrel
  cases hV : V i with
  | none =>
    rw [hV] at hrel
    cases hrel
  | some a =>
    rw [hV] at hrel
    cases hrel with
    | some hR => exact ⟨a, rfl, hR⟩

theorem Matches.update (h : Matches R σ V) {x : Option O} {y : Option A} (hxy : Option.Rel R x y) :
    Matches R (Function.update σ i x) (Function.update V i y) := by
  intro k
  by_cases hk : k = i
  · subst hk
    rw [Function.update_self, Function.update_self]
    exact hxy
  · rw [Function.update_of_ne hk, Function.update_of_ne hk]
    exact h k

/-- A change of an object that keeps its account. -/
theorem Matches.update_left (h : Matches R σ V) {x : Option O} (hx : Option.Rel R x (V i)) :
    Matches R (Function.update σ i x) V := by
  have hupdate := h.update (i := i) hx
  rw [Function.update_eq_self] at hupdate
  exact hupdate

/-- A move: the target gets the account of the source, which keeps it. -/
theorem Matches.move (h : Matches R σ V) {o' p' : O} {a : A} (hj : V j = some a) (ho : R o' a)
    (hp : R p' a) :
    Matches R (Function.update (Function.update σ i (some o')) j (some p'))
      (Function.update V i (V j)) := by
  rw [hj]
  apply (h.update (Option.Rel.some ho)).update_left
  by_cases hji : j = i
  · subst hji
    rw [Function.update_self]
    exact .some hp
  · rw [Function.update_of_ne hji, hj]
    exact .some hp

theorem Agrees.step (hA : Agrees K S R) (h : Matches R σ V) {op : Action M C}
    (hstep : K.Step σ op σ') : Matches R σ' (S.step V op) := by
  cases hstep with
  | make _ hmade => exact h.update (.some (hA.made _ _ hmade))
  | call hi hcalled =>
    obtain ⟨a, ha, hR⟩ := h.account hi
    apply h.update
    rw [ha]
    exact .some (hA.called _ _ _ _ hR hcalled)
  | copyMake _ hj hcopied =>
    obtain ⟨a, ha, hR⟩ := h.account hj
    apply h.update
    rw [ha]
    exact .some (hA.copied _ _ _ hR hcopied)
  | copyAssign hi hj hassigned =>
    obtain ⟨b, _, hRi⟩ := h.account hi
    obtain ⟨a, ha, hRj⟩ := h.account hj
    apply h.update
    rw [ha]
    exact .some (hA.assigned _ _ _ _ _ hRi hRj hassigned)
  | moveMake _ hj hmoved =>
    obtain ⟨a, ha, hR⟩ := h.account hj
    obtain ⟨ho, hp⟩ := hA.moved _ _ _ _ hR hmoved
    exact h.move ha ho hp
  | moveAssign hi hj hmoved =>
    obtain ⟨b, _, hRi⟩ := h.account hi
    obtain ⟨a, ha, hRj⟩ := h.account hj
    obtain ⟨ho, hp⟩ := hA.moveAssigned _ _ _ _ _ _ hRi hRj hmoved
    exact h.move ha ho hp
  | destroy => exact h.update .none

/-- Every object of every program has the account that the operations give it. -/
theorem Agrees.matches (hA : Agrees K S R) {ops : List (Action M C)}
    (h : K.programs.Reaches ops σ) : Matches R σ (S.values ops) := by
  apply h.simulates
  · intro σ hσ i
    rw [hσ]
    exact .none
  · intro σ op σ' V hV hstep
    exact hA.step hV hstep

/-- The account that says only that an object exists. -/
def existence : Meaning Unit M C := ⟨fun _ => (), fun _ _ => ()⟩

/-- An invariant of the objects: every operation makes or keeps it. -/
def Class.Keeps (K : Class O M C) (I : O → Prop) : Prop := Agrees K existence fun o _ => I o

theorem Class.Keeps.holds {I : O → Prop} (hK : K.Keeps I) (h : K.programs.Reachable σ)
    (hi : σ i = some o) : I o := by
  obtain ⟨ops, hops⟩ := LTS.reachable_iff.mp h
  obtain ⟨_, _, hI⟩ := (Agrees.matches hK hops).account hi
  exact hI

end Sydn.Found.Objects
