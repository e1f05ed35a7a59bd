import Sydn.Net.Programs

/-!
# What one operation does to the account

Every operation changes what at most one object holds. Most of them settle it: the
old descriptor is closed and a new one opened. `listen` overwrites it, and a copy
repeats what another object holds.
-/

namespace Sydn.Net

open Sydn.Found.Interaction
open Sydn.Found.Ownership

/-- Object `i` gave up what it held, which was closed, for a descriptor that no
other object holds; the other objects hold what they held. -/
structure Settled (i : Nat) (objs objs' : Objs) (w w' : Kernel) : Prop where
  others : ∀ j, j ≠ i → heldBy objs' j = heldBy objs j
  opened : w'.opened = (w.opened \ only (heldBy objs i)) ∪ only (heldBy objs' i)
  fresh : ∀ fd, heldBy objs' i = some fd → ∀ j, j ≠ i → heldBy objs j ≠ some fd

section Settled
variable {objs objs' : Objs} {w w' : Kernel} {i j : Nat}

theorem heldBy_of_some {x : Obj} (h : objs i = some x) : heldBy objs i = held x.d_fd := by
  rw [heldBy, h, Option.bind_some]

theorem heldBy_of_none (h : objs i = none) : heldBy objs i = none := by
  rw [heldBy, h, Option.bind_none]

@[simp] theorem heldBy_update_self {x : Option Obj} :
    heldBy (Function.update objs i x) i = x.bind fun x => held x.d_fd := by
  rw [heldBy, Function.update_self]

theorem heldBy_update_of_ne {x : Option Obj} (h : j ≠ i) :
    heldBy (Function.update objs i x) j = heldBy objs j := by
  rw [heldBy, Function.update_of_ne h, heldBy]

/-- Where only object `i` changes, so does only what it holds. -/
theorem heldBy_eq_update (hothers : ∀ j, j ≠ i → heldBy objs' j = heldBy objs j) :
    heldBy objs' = Function.update (heldBy objs) i (heldBy objs' i) := by
  funext j
  by_cases hji : j = i
  · rw [hji, Function.update_self]
  · rw [Function.update_of_ne hji]
    exact hothers j hji

theorem Settled.exclusive (h : Settled i objs objs' w w')
    (hx : Exclusive w.opened (heldBy objs)) : Exclusive w'.opened (heldBy objs') := by
  rw [h.opened, heldBy_eq_update h.others, Function.update_self]
  exact hx.replace h.fresh

theorem Settled.balanced (h : Settled i objs objs' w w')
    (hb : Balanced w.opened (heldBy objs)) : Balanced w'.opened (heldBy objs') := by
  rw [h.opened, heldBy_eq_update h.others, Function.update_self]
  exact hb.replace h.fresh

/-- What a member function did to one object, seen from all of them. -/
theorem Settled.of_replaced (hx : Exclusive w.opened (heldBy objs))
    (hothers : ∀ j, j ≠ i → heldBy objs' j = heldBy objs j)
    (h : Replaced w w' (heldBy objs i) (heldBy objs' i)) : Settled i objs objs' w w' := by
  refine ⟨hothers, h.opened, ?_⟩
  intro fd hfd j hji hj
  rcases h.fresh fd hfd with hold | hfresh
  · exact hji (hx.unique j i fd hj hold)
  · exact hfresh (hx.live j fd hj)

end Settled

/-- What object `i` held is still open, but no longer held by it. -/
structure Overwritten (i : Nat) (objs objs' : Objs) (w w' : Kernel) : Prop where
  others : ∀ j, j ≠ i → heldBy objs' j = heldBy objs j
  opened : w'.opened = w.opened ∪ only (heldBy objs' i)
  fresh : ∀ fd, heldBy objs' i = some fd → fd ∉ w.opened

section Overwritten
variable {objs objs' : Objs} {w w' : Kernel} {i : Nat}

theorem Overwritten.settled (h : Overwritten i objs objs' w w')
    (hx : Exclusive w.opened (heldBy objs)) (hnone : heldBy objs i = none) :
    Settled i objs objs' w w' := by
  refine Settled.of_replaced hx h.others ⟨?_, fun fd hfd => Or.inr (h.fresh fd hfd)⟩
  rw [hnone, only_none, Set.sdiff_empty]
  exact h.opened

theorem Overwritten.exclusive (h : Overwritten i objs objs' w w')
    (hx : Exclusive w.opened (heldBy objs)) : Exclusive w'.opened (heldBy objs') := by
  rw [h.opened, heldBy_eq_update h.others, Function.update_self]
  apply hx.overwrite
  intro fd hfd j _ hj
  exact h.fresh fd hfd (hx.live j fd hj)

/-- The descriptor that was overwritten is open and nobody's. -/
theorem Overwritten.leaks (h : Overwritten i objs objs' w w')
    (hx : Exclusive w.opened (heldBy objs)) {fd : Int} (hfd : heldBy objs i = some fd) :
    fd ∈ w'.opened ∧ ∀ j, heldBy objs' j ≠ some fd := by
  have hopen := hx.live i fd hfd
  constructor
  · rw [h.opened]
    exact Or.inl hopen
  · intro j hj
    by_cases hji : j = i
    · rw [hji] at hj
      exact h.fresh fd hj hopen
    · rw [h.others j hji] at hj
      exact hji (hx.unique j i fd hj hfd)

end Overwritten

/-- Object `i` holds what object `j` holds, and nothing was opened or closed for it. -/
structure Copied (i j : Nat) (objs objs' : Objs) (w w' : Kernel) : Prop where
  opened : w'.opened = w.opened
  others : ∀ k, k ≠ i → heldBy objs' k = heldBy objs k
  same : heldBy objs' i = heldBy objs j

/-- A copy leaves one holder for each descriptor exactly when there was none to copy. -/
theorem Copied.exclusive_iff {i j : Nat} {objs objs' : Objs} {w w' : Kernel}
    (h : Copied i j objs objs' w w') (hx : Exclusive w.opened (heldBy objs)) :
    Exclusive w'.opened (heldBy objs') ↔ i = j ∨ heldBy objs j = none := by
  constructor
  · intro hx'
    by_contra hcon
    rw [not_or] at hcon
    obtain ⟨hij, hj⟩ := hcon
    obtain ⟨fd, hfd⟩ := Option.ne_none_iff_exists'.mp hj
    refine hij (hx'.unique i j fd (h.same.trans hfd) ?_)
    rw [h.others j (Ne.symm hij)]
    exact hfd
  · intro hcase
    rw [h.opened, heldBy_eq_update h.others, h.same]
    rcases hcase with rfl | hnone
    · rw [Function.update_eq_self]
      exact hx
    · rw [hnone]
      exact hx.update (fun k _ r hr => hx.live k r hr) nofun

/-! ## One operation -/

/-- The rule an operation on object `i` meets. -/
def Settles (i : Nat) (objs : Objs) (w w₁ : Kernel) (p : Syscall Objs) : Prop :=
  Checked Kernel.env (ClosesOnly (heldBy objs i)) w₁ p fun w' o =>
    ∀ objs', o = .ok objs' → Settled i objs objs' w w'

section Operations
variable {objs : Objs} {w : Kernel} {i j : Nat} {q : Syscall Objs}

theorem Replaces.settles {p : Syscall Obj} (hx : Exclusive w.opened (heldBy objs))
    (h : Replaces w (heldBy objs i) Obj.d_fd p) :
    Settles i objs w w (p.bind fun x => .ret (Function.update objs i (some x))) := by
  refine Checked.map h fun x => ⟨_, rfl, fun w' hreplaced => ?_⟩
  apply Settled.of_replaced hx (fun k hk => heldBy_update_of_ne hk)
  rw [heldBy_update_self]
  exact hreplaced

theorem create_settles {p : Syscall Obj} (hx : Exclusive w.opened (heldBy objs))
    (hq : Op.create objs i p = some q) (hp : Replaces w none Obj.d_fd p) :
    Settles i objs w w q := by
  unfold Op.create at hq
  split at hq
  · cases hq
  · rename_i hnone
    cases hq
    apply Replaces.settles hx
    rw [heldBy_of_none hnone]
    exact hp

/-- What a member function does to its object is what the operation does to it. -/
theorem on_checked {f : Obj → Option (Syscall Obj)} {P : Kernel → Event Posix → Prop}
    {R : Obj → Kernel → Obj → Prop} (hq : Op.on objs i f = some q)
    (hf : ∀ x p, objs i = some x → f x = some p →
      Checked Kernel.env P w p fun w' o => ∀ y, o = .ok y → R x w' y) :
    Checked Kernel.env P w q fun w' o => ∀ objs', o = .ok objs' →
      ∃ x y, objs i = some x ∧ objs' = Function.update objs i (some y) ∧ R x w' y := by
  obtain ⟨x, hxi, hq⟩ := Option.bind_eq_some_iff.mp hq
  obtain ⟨p, hp, hq⟩ := Option.bind_eq_some_iff.mp hq
  cases hq
  exact Checked.map (hf x p hxi hp) fun y =>
    ⟨_, rfl, fun w' hy => ⟨x, y, hxi, rfl, hy⟩⟩

theorem on_settles {f : Obj → Option (Syscall Obj)} (hx : Exclusive w.opened (heldBy objs))
    (hq : Op.on objs i f = some q)
    (hf : ∀ x p, f x = some p → (∀ fd, held x.d_fd = some fd → fd ∈ w.opened) →
      Replaces w (held x.d_fd) Obj.d_fd p) : Settles i objs w w q := by
  refine (on_checked (R := fun _ w' y => Replaced w w' (heldBy objs i) (held y.d_fd)) hq ?_).mono ?_
  · intro x p hxi hp
    have hheld := heldBy_of_some hxi
    rw [hheld]
    exact hf x p hp fun fd hfd => hx.live i fd (hheld.trans hfd)
  · intro w' o hdone objs' hobjs'
    obtain ⟨x, y, _, rfl, hreplaced⟩ := hdone objs' hobjs'
    apply Settled.of_replaced hx (fun k hk => heldBy_update_of_ne hk)
    rw [heldBy_update_self]
    exact hreplaced

theorem between_settles {f : Obj → Obj → Option (Syscall (Obj × Obj))}
    (hx : Exclusive w.opened (heldBy objs)) (hq : Op.between objs i j f = some q)
    (hf : ∀ x y p, f x y = some p → (∀ fd, held y.d_fd = some fd → fd ∈ w.opened) →
      Checked Kernel.env (ClosesOnly (held y.d_fd)) w p fun w' o => ∀ a, o = .ok a →
        a.1.d_fd = x.d_fd ∧ Replaced w w' (held y.d_fd) (held a.2.d_fd)) :
    Settles j objs w w q := by
  obtain ⟨x, hxi, hq⟩ := Option.bind_eq_some_iff.mp hq
  obtain ⟨y, hyj, hq⟩ := Option.bind_eq_some_iff.mp hq
  obtain ⟨p, hp, hq⟩ := Option.bind_eq_some_iff.mp hq
  cases hq
  have hheld := heldBy_of_some hyj
  unfold Settles
  rw [hheld]
  have hopen : ∀ fd, held y.d_fd = some fd → fd ∈ w.opened := by
    intro fd hfd
    exact hx.live j fd (hheld.trans hfd)
  refine Checked.map (hf x y p hp hopen) fun a => ⟨_, rfl, fun w' hdone => ?_⟩
  obtain ⟨hsame, hreplaced⟩ := hdone
  refine Settled.of_replaced hx ?_ ?_
  · intro k hk
    rw [heldBy_update_of_ne hk]
    by_cases hki : k = i
    · rw [hki, heldBy_update_self, heldBy_of_some hxi, ← hsame]
      rfl
    · rw [heldBy_update_of_ne hki]
  · rw [heldBy_update_self, hheld]
    exact hreplaced

theorem destroy_settles (hx : Exclusive w.opened (heldBy objs))
    (hq : (objs i).map (fun x => x.destroy.bind fun _ =>
      (.ret (Function.update objs i none) : Syscall Objs)) = some q) : Settles i objs w w q := by
  obtain ⟨x, hxi, hq⟩ := Option.map_eq_some_iff.mp hq
  cases hq
  have hheld := heldBy_of_some hxi
  have hdestroy : x.destroy = closeHeld x.d_fd := by cases x <;> rfl
  have hclose : Replaces w (held x.d_fd) (fun _ => -1) (closeHeld x.d_fd) := by
    apply closeHeld_replaces
    intro fd hfd
    exact hx.live i fd (hheld.trans hfd)
  unfold Settles
  rw [hdestroy, hheld]
  refine Checked.map hclose fun _ => ⟨_, rfl, fun w' hreplaced => ?_⟩
  apply Settled.of_replaced hx (fun k hk => heldBy_update_of_ne hk)
  rw [heldBy_update_self, hheld]
  exact hreplaced

end Operations

/-! ## The members of each class -/

namespace Obj
variable {w : Kernel} {type : SocketType} {remote_address local_address address : Address}
  {x y : Obj} {old : Option Int}

theorem connect_replaces {p : Syscall Obj}
    (hp : Obj.connect type remote_address local_address x = some p)
    (hopen : ∀ fd, held x.d_fd = some fd → fd ∈ w.opened) :
    Replaces w (held x.d_fd) Obj.d_fd p := by
  cases x with
  | listening s => cases hp
  | connected s =>
    cases hp
    exact Checked.map (s.connect_replaces hopen) fun _ => ⟨_, rfl, fun _ => id⟩
  | posix s =>
    cases hp
    exact Checked.map (s.connect_replaces hopen) fun _ => ⟨_, rfl, fun _ => id⟩

theorem accept_replaces {p : Syscall (Obj × Obj)} (hp : Obj.accept x y = some p)
    (hopen : ∀ fd, held y.d_fd = some fd → fd ∈ w.opened) :
    Checked Kernel.env (ClosesOnly (held y.d_fd)) w p fun w' o => ∀ a, o = .ok a →
      a.1.d_fd = x.d_fd ∧ Replaced w w' (held y.d_fd) (held a.2.d_fd) := by
  match x, y, hp with
  | .listening s, .connected socket, hp =>
    cases hp
    exact Checked.map (s.accept_replaces hopen) fun _ => ⟨_, rfl, fun _ => id⟩
  | .posix s, .posix socket, hp =>
    cases hp
    exact Checked.map (s.accept_replaces hopen) fun _ => ⟨_, rfl, fun _ h => ⟨rfl, h⟩⟩

theorem acceptWithAddress_replaces {same : Bool} {p : Syscall (Obj × Obj)}
    (hp : Obj.acceptWithAddress same address x y = some p)
    (hopen : ∀ fd, held y.d_fd = some fd → fd ∈ w.opened) :
    Checked Kernel.env (ClosesOnly (held y.d_fd)) w p fun w' o => ∀ a, o = .ok a →
      a.1.d_fd = x.d_fd ∧ Replaced w w' (held y.d_fd) (held a.2.d_fd) := by
  match x, y, hp with
  | .listening s, .connected socket, hp =>
    cases hp
    exact Checked.map (s.acceptWithAddress_replaces hopen) fun _ => ⟨_, rfl, fun _ => id⟩
  | .posix s, .posix socket, hp =>
    cases hp
    exact Checked.map (s.acceptWithAddress_replaces hopen) fun _ => ⟨_, rfl, fun _ h => ⟨rfl, h⟩⟩

theorem importFd_checked {fd : Int} {p : Syscall Obj} (hp : Obj.importFd fd x = some p)
    (hopen : ∀ k, held x.d_fd = some k → k ∈ w.opened) :
    Checked Kernel.env (ClosesOnly (held x.d_fd)) w p fun w' o =>
      ∀ y, o = .ok y → y.d_fd = fd ∧ w'.opened = w.opened \ only (held x.d_fd) := by
  cases x with
  | listening s => cases hp
  | posix s => cases hp
  | connected s =>
    cases hp
    exact Checked.map (s.importFd_checked hopen) fun _ => ⟨_, rfl, fun _ => id⟩

theorem listen_opens {p : Syscall Obj} (old : Option Int)
    (hp : Obj.listen type local_address x = some p) :
    Checked Kernel.env (ClosesOnly old) w p fun w' o => ∀ y, o = .ok y →
      w'.opened = w.opened ∪ only (held y.d_fd) ∧ ∀ fd, held y.d_fd = some fd → fd ∉ w.opened := by
  cases x with
  | listening s => cases hp
  | connected s => cases hp
  | posix s =>
    cases hp
    exact Checked.map (s.listen_opens old) fun _ => ⟨_, rfl, fun _ => id⟩

/-- A copy of an object holds the same descriptor and nothing is opened for it. -/
theorem copy_checked : Checked Kernel.env (ClosesOnly old) w x.copy fun w' o =>
    ∀ y, o = .ok y → y.d_fd = x.d_fd ∧ w' = w := by
  cases x with
  | connected s =>
    exact Checked.ret_ok ⟨rfl, rfl⟩
  | posix s =>
    exact Checked.ret_ok ⟨rfl, rfl⟩
  | listening s =>
    refine checked_quiet_bind (Address.copyAssign_quiet _ _) nofun fun a => ?_
    exact Checked.ret_ok ⟨rfl, rfl⟩

theorem copyAssign_checked {p : Syscall Obj} (hp : x.copyAssign y = some p) :
    Checked Kernel.env (ClosesOnly old) w p fun w' o =>
      ∀ z, o = .ok z → z.d_fd = y.d_fd ∧ w' = w := by
  match x, y, hp with
  | .connected _, .connected other, hp =>
    cases hp
    exact Checked.ret_ok ⟨rfl, rfl⟩
  | .posix _, .posix other, hp =>
    cases hp
    exact Checked.ret_ok ⟨rfl, rfl⟩
  | .listening s, .listening other, hp =>
    cases hp
    refine checked_quiet_bind (Address.copyAssign_quiet _ _) nofun fun a => ?_
    exact Checked.ret_ok ⟨rfl, rfl⟩

end Obj

/-! ## The operations of a program -/

section Exec
variable {objs : Objs} {w : Kernel} {q : Syscall Objs}

/-- A descriptor that is imported takes the place of the one the object held. -/
theorem import_settles {i : Nat} {fd : Int} (hx : Exclusive w.opened (heldBy objs))
    (hallowed : (Op.importFd i fd).Allowed objs w)
    (hq : Op.on objs i (Obj.importFd fd) = some q) : Settles i objs w (w.adopt fd) q := by
  obtain ⟨⟨hpos, _⟩, hfree⟩ := hallowed
  have hopen : ∀ k, heldBy objs i = some k → k ∈ (w.adopt fd).opened := by
    intro k hk
    exact Or.inr (hx.live i k hk)
  refine (on_checked (R := fun _ w' y => y.d_fd = fd ∧
    w'.opened = (w.adopt fd).opened \ only (heldBy objs i)) hq ?_).mono ?_
  · intro x p hxi hp
    rw [heldBy_of_some hxi] at hopen ⊢
    exact Obj.importFd_checked hp hopen
  · intro w' o hdone objs' hobjs'
    obtain ⟨x, y, _, rfl, hfd, hopened⟩ := hdone objs' hobjs'
    have hheld : held y.d_fd = some fd := held_eq_some.mpr ⟨hfd, by omega⟩
    refine ⟨fun k hk => heldBy_update_of_ne hk, ?_, ?_⟩
    · have hkept : ({fd} : Set Int) \ only (heldBy objs i) = {fd} := by
        refine sdiff_eq_self_iff_disjoint.mpr (Set.disjoint_singleton_right.mpr ?_)
        exact hfree i
      rw [heldBy_update_self, Option.bind_some, hheld, only_some, hopened]
      show insert fd w.opened \ _ = _
      rw [Set.insert_eq, Set.union_sdiff_distrib, hkept, Set.union_comm]
    · intro k hk j _
      rw [heldBy_update_self, Option.bind_some, hheld] at hk
      cases hk
      exact hfree j

/-- `listen` leaves what the object held as it is. -/
theorem listen_overwrites {i : Nat} {type : SocketType} {local_address : Address}
    (old : Option Int) (hq : Op.on objs i (Obj.listen type local_address) = some q) :
    Checked Kernel.env (ClosesOnly old) w q fun w' o =>
      ∀ objs', o = .ok objs' → Overwritten i objs objs' w w' := by
  refine (on_checked (R := fun _ w' y => w'.opened = w.opened ∪ only (held y.d_fd) ∧
    ∀ fd, held y.d_fd = some fd → fd ∉ w.opened) hq ?_).mono ?_
  · intro x p _ hp
    exact Obj.listen_opens old hp
  · intro w' o hdone objs' hobjs'
    obtain ⟨x, y, _, rfl, hopened, hfresh⟩ := hdone objs' hobjs'
    refine ⟨fun k hk => heldBy_update_of_ne hk, ?_, ?_⟩
    · rw [heldBy_update_self]
      exact hopened
    · rw [heldBy_update_self]
      exact hfresh

/-- The operations but `listen` and the copies settle the account of their target. -/
theorem Op.exec_settles {op : Op} (hx : Exclusive w.opened (heldBy objs))
    (hallowed : op.Allowed objs w) (hcopies : ¬ op.Copies)
    (hlisten : ∀ i type a, op ≠ .listen i type a) (hq : op.exec objs = some q) :
    Settles op.target objs w (op.enter w) q := by
  cases op with
  | connected i =>
    refine create_settles hx hq (Checked.ret.mpr fun x h => ?_)
    cases h
    exact Replaced.refl nofun
  | listening i type a =>
    exact create_settles hx hq (Checked.map ListenSocket.construct_replaces fun _ =>
      ⟨_, rfl, fun _ => id⟩)
  | posix i =>
    refine create_settles hx hq (Checked.ret.mpr fun x h => ?_)
    cases h
    exact Replaced.refl nofun
  | connect i type remote_address local_address =>
    exact on_settles hx hq fun _ _ hp hopen => Obj.connect_replaces hp hopen
  | listen i type a => exact absurd rfl (hlisten i type a)
  | importFd i fd => exact import_settles hx hallowed hq
  | accept i j => exact between_settles hx hq fun _ _ _ hp hopen => Obj.accept_replaces hp hopen
  | acceptWithAddress i j a =>
    exact between_settles hx hq fun _ _ _ hp hopen => Obj.acceptWithAddress_replaces hp hopen
  | copyCreate i j => exact absurd trivial hcopies
  | copyAssign i j => exact absurd trivial hcopies
  | destroy i => exact destroy_settles hx hq
  | elsewhere foreign =>
    cases hq
    apply Checked.ret.mpr
    intro objs' h
    cases h
    have hrefl : Replaced w w (heldBy objs 0) (heldBy objs 0) :=
      Replaced.refl fun fd hfd => hx.live 0 fd hfd
    exact Settled.of_replaced hx (fun _ _ => rfl) ⟨hrefl.opened, hrefl.fresh⟩

/-- The copies of a program, and what they do to the account. -/
theorem Op.exec_copies {i j : Nat} {op : Op} (old : Option Int)
    (hop : op = .copyCreate i j ∨ op = .copyAssign i j) (hq : op.exec objs = some q) :
    Checked Kernel.env (ClosesOnly old) w q fun w' o =>
      ∀ objs', o = .ok objs' → Copied i j objs objs' w w' := by
  rcases hop with rfl | rfl
  · obtain ⟨y, hyj, hq⟩ := Option.bind_eq_some_iff.mp hq
    unfold Op.create at hq
    split at hq
    · cases hq
    · cases hq
      refine Checked.map Obj.copy_checked fun z => ⟨_, rfl, ?_⟩
      intro w' h
      obtain ⟨hfd, rfl⟩ := h
      refine ⟨rfl, fun k hk => heldBy_update_of_ne hk, ?_⟩
      rw [heldBy_update_self, heldBy_of_some hyj, ← hfd]
      rfl
  · obtain ⟨y, hyj, hq⟩ := Option.bind_eq_some_iff.mp hq
    refine (on_checked (R := fun _ w' z => z.d_fd = y.d_fd ∧ w' = w) hq ?_).mono ?_
    · intro x p _ hp
      exact Obj.copyAssign_checked hp
    · intro w' o hdone objs' hobjs'
      obtain ⟨x, z, _, rfl, hfd, rfl⟩ := hdone objs' hobjs'
      refine ⟨rfl, fun k hk => heldBy_update_of_ne hk, ?_⟩
      rw [heldBy_update_self, heldBy_of_some hyj, ← hfd]
      rfl

end Exec

end Sydn.Net
