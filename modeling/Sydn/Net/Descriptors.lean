import Sydn.Net.PosixSocketBuffer

/-!
# What each member function does to the open descriptors

One rule for each function: it closes nothing but the descriptor of the object
whose `d_fd` it sets, while that is open, and where it returns that object's new
descriptor has taken the place of the old one. `posix_socket_buffer::listen` is
the exception: it closes nothing at all.
-/

namespace Sydn.Net

open Sydn.Found.Interaction
open Sydn.Found.Ownership

/-- The descriptor an object with this `d_fd` holds. -/
def held (d_fd : Int) : Option Int := if d_fd = -1 then none else some d_fd

theorem held_eq_some {d_fd fd : Int} : held d_fd = some fd ↔ d_fd = fd ∧ fd ≠ -1 := by
  unfold held
  split
  · rename_i h
    simp [h, eq_comm]
  · rename_i h
    constructor
    · intro heq
      obtain rfl := Option.some.inj heq
      exact ⟨rfl, h⟩
    · intro h
      obtain ⟨rfl, _⟩ := h
      rfl

/-- What an event closes is `old`, which is open. -/
def ClosesOnly (old : Option Int) (w : Kernel) (e : Event Posix) : Prop :=
  ∀ fd, e.call = .close fd → old = some fd ∧ fd ∈ w.opened

/-- From `w` to `w'` the descriptor `old` was closed and `new` opened, or they are the same. -/
structure Replaced (w w' : Kernel) (old new : Option Int) : Prop where
  opened : w'.opened = (w.opened \ only old) ∪ only new
  fresh : ∀ fd, new = some fd → old = some fd ∨ fd ∉ w.opened

/-- The rule a member function meets that sets the `d_fd` of one object. -/
def Replaces (w : Kernel) (old : Option Int) {α : Type} (d_fd : α → Int) (p : Syscall α) : Prop :=
  Checked Kernel.env (ClosesOnly old) w p fun w' o =>
    ∀ a, o = .ok a → Replaced w w' old (held (d_fd a))

section Kernel
variable {w : Kernel} {old : Option Int} {fd : Int}

theorem opened_opening {res : Int} : (w.opening res).opened = w.opened ∪ only (held res) := by
  unfold Kernel.opening held
  split
  · simp
  · rw [only_some, Set.union_comm]
    rfl

theorem Replaced.refl (hold : ∀ fd, old = some fd → fd ∈ w.opened) : Replaced w w old old := by
  constructor
  · rw [Set.sdiff_union_self, Set.union_eq_self_of_subset_right]
    intro fd hfd
    exact hold fd hfd
  · intro fd hfd
    exact Or.inl hfd

/-- A call that opens a descriptor answers with a fresh one, or with none. -/
theorem fresh_of_may {r : Status} (h : Kernel.Failed r ∨ w.Fresh r.res) :
    ∀ fd, held r.res = some fd → fd ∉ w.opened := by
  intro fd hfd
  obtain ⟨rfl, hne⟩ := held_eq_some.mp hfd
  rcases h with h | h
  · exact absurd h.1 hne
  · exact fun hmem => h.2 ⟨h.1, Or.inl hmem⟩

end Kernel

section Calls
variable {α : Type} {w : Kernel} {old : Option Int} {Q : Kernel → Except Stop α → Prop}

/-- A call that opens and closes nothing. -/
theorem checked_neutral {c : Sys} {next : c.Answer → Syscall α} (hc : c.Neutral)
    (h : ∀ r, w.may c r → Checked Kernel.env (ClosesOnly old) w (next r) Q) :
    Checked Kernel.env (ClosesOnly old) w (.call c next) Q := by
  refine Checked.call fun r hr => ⟨?_, ?_⟩
  · intro fd hfd
    cases hfd
    exact hc.elim
  · show Checked Kernel.env (ClosesOnly old) (w.after c r) (next r) Q
    rw [w.after_neutral hc]
    exact h r hr

/-- A program that opens and closes nothing. -/
theorem checked_quiet {p : Syscall α} (hp : p.Uses Sys.Neutral) :
    Checked Kernel.env (ClosesOnly old) w p fun w' _ => w' = w := by
  refine Checked.of_uses ?_ hp w
  intro w c r hc
  refine ⟨?_, w.after_neutral hc r⟩
  intro fd hfd
  cases hfd
  exact hc.elim

end Calls

/-! ## The address functions open and close nothing -/

namespace Address

theorem allocate_quiet (a : Address) (n : Nat) : (a.allocate n).Uses Sys.Neutral := by
  unfold allocate
  split
  · exact ⟨trivial, fun _ => trivial⟩
  · trivial

theorem resize_quiet (a : Address) (n : Nat) : (a.resize n).Uses Sys.Neutral := by
  unfold resize
  split
  · exact Prog.uses_bind (a.allocate_quiet n) fun _ => trivial
  · trivial

theorem copyAssign_quiet (a other : Address) : (a.copyAssign other).Uses Sys.Neutral :=
  Prog.uses_bind (a.allocate_quiet _) fun _ => trivial

theorem deliver_quiet (a : Address) (len : Nat) (r : Named) :
    (a.deliver len r).Uses Sys.Neutral := by
  unfold deliver receive
  split
  · trivial
  · split
    · trivial
    · trivial

end Address

theorem getsockname_quiet (fd : Int) (a : Address) (len : Nat) :
    (Posix.getsockname fd a len).Uses Sys.Neutral := by
  unfold Posix.getsockname
  refine Prog.uses_bind ⟨trivial, fun _ => trivial⟩ fun r => ?_
  exact Prog.uses_bind (a.deliver_quiet len r) fun _ => trivial

/-! ## Closing and opening -/

section Rules
variable {α β : Type} {w : Kernel} {old : Option Int} {Q : Kernel → Except Stop α → Prop}

theorem checked_quiet_bind {p : Syscall β} {f : β → Syscall α} (hp : p.Uses Sys.Neutral)
    (hstop : ∀ e, Q w (.error e)) (h : ∀ b, Checked Kernel.env (ClosesOnly old) w (f b) Q) :
    Checked Kernel.env (ClosesOnly old) w (p.bind f) Q := by
  refine Checked.bind ((checked_quiet hp).mono ?_)
  rintro w' o rfl
  cases o with
  | ok b => exact h b
  | error e => exact hstop e

theorem checked_closeHeld {d_fd : Int} {f : Unit → Syscall α}
    (hopen : ∀ fd, held d_fd = some fd → fd ∈ w.opened)
    (h : ∀ w' : Kernel, w'.opened = w.opened \ only (held d_fd) →
      Checked Kernel.env (ClosesOnly (held d_fd)) w' (f ()) Q) :
    Checked Kernel.env (ClosesOnly (held d_fd)) w ((closeHeld d_fd).bind f) Q := by
  unfold closeHeld
  split
  · rename_i hfd
    apply h w
    simp [held, hfd]
  · rename_i hfd
    have hheld : held d_fd = some d_fd := held_eq_some.mpr ⟨rfl, hfd⟩
    refine Checked.call fun r _ => ⟨?_, h _ ?_⟩
    · intro fd hcall
      cases hcall
      exact ⟨hheld, hopen _ hheld⟩
    · rw [hheld, only_some]
      rfl

/-- `::socket`, after the old descriptor was closed. -/
theorem checked_socket {domain type protocol : Int} {next : Status → Syscall α} {w₀ : Kernel}
    (hw : w.opened = w₀.opened \ only old)
    (h : ∀ r w', Replaced w₀ w' old (held r.res) →
      Checked Kernel.env (ClosesOnly old) w' (next r) Q) :
    Checked Kernel.env (ClosesOnly old) w
      (.call (S := Posix) (.socket domain type protocol) next) Q := by
  refine Checked.call fun r hr => ⟨nofun, h r _ ?_⟩
  constructor
  · show (w.opening r.res).opened = _
    rw [opened_opening, hw]
  · intro fd hfd
    have hfresh : fd ∉ w.opened := fresh_of_may hr fd hfd
    rw [hw] at hfresh
    by_cases hold : old = some fd
    · exact Or.inl hold
    · exact Or.inr fun hmem => hfresh ⟨hmem, hold⟩

/-- `::accept`, with what its two outcomes leave open. -/
theorem checked_accept {fd : Int} {address : Option Buffer} {next : Named → Syscall α}
    (hfail : ∀ r : Named, r.res = -1 → Checked Kernel.env (ClosesOnly old) w (next r) Q)
    (h : ∀ r : Named, r.res ≠ -1 → ∀ w' : Kernel, w'.opened = w.opened ∪ {r.res} →
      r.res ∉ w.opened → Checked Kernel.env (ClosesOnly old) w' (next r) Q) :
    Checked Kernel.env (ClosesOnly old) w (.call (S := Posix) (.accept fd address) next) Q := by
  refine Checked.call fun r hr => ⟨nofun, ?_⟩
  show Checked Kernel.env (ClosesOnly old) (w.opening r.res) (next r) Q
  by_cases hres : r.res = -1
  · rw [Kernel.opening, if_pos hres]
    exact hfail r hres
  · refine h r hres _ ?_ ?_
    · rw [opened_opening, held, if_neg hres, only_some]
    · rcases hr with hr | hr
      · exact absurd hr.1 hres
      · exact fun hmem => hr.1.2 ⟨hr.1.1, Or.inl hmem⟩

end Rules

/-- What the two `import`s do with a descriptor that was just accepted. -/
theorem replaced_import {w w₁ w₂ : Kernel} {old : Option Int} {fd : Int}
    (hold : ∀ k, old = some k → k ∈ w.opened) (hfd : fd ≠ -1) (hfresh : fd ∉ w.opened)
    (h₁ : w₁.opened = w.opened ∪ {fd}) (h₂ : w₂.opened = w₁.opened \ only old) :
    Replaced w w₂ old (held fd) := by
  have hheld : held fd = some fd := held_eq_some.mpr ⟨rfl, hfd⟩
  constructor
  · have hkept : ({fd} : Set Int) \ only old = {fd} := by
      refine sdiff_eq_self_iff_disjoint.mpr (Set.disjoint_singleton_right.mpr ?_)
      exact fun hmem => hfresh (hold fd hmem)
    rw [h₂, h₁, hheld, only_some, Set.union_sdiff_distrib, hkept]
  · intro k hk
    rw [hheld] at hk
    cases hk
    exact Or.inr hfresh

/-! ## One rule for each function -/

section Functions
variable {w : Kernel} {fd : Int}

theorem closeHeld_replaces (hopen : ∀ k, held fd = some k → k ∈ w.opened) :
    Replaces w (held fd) (fun _ => -1) (closeHeld fd) := by
  have hbind : closeHeld fd = (closeHeld fd).bind .ret := by
    unfold closeHeld
    split <;> rfl
  unfold Replaces
  rw [hbind]
  apply checked_closeHeld hopen
  intro w' hw'
  refine Checked.ret.mpr fun _ _ => ⟨?_, nofun⟩
  rw [hw']
  simp [held]

theorem bindLocal_quiet (fd : Int) (a : Address) : (bindLocal fd a).Uses Sys.Neutral := by
  unfold bindLocal
  split
  · exact ⟨trivial, fun _ => trivial⟩
  · trivial

theorem connectFd_replaces {type : SocketType} {remote_address local_address : Address}
    (hopen : ∀ k, held fd = some k → k ∈ w.opened) :
    Replaces w (held fd) Prod.fst (connectFd fd type remote_address local_address) := by
  apply checked_closeHeld hopen
  intro w₁ hw₁
  apply checked_socket hw₁
  intro r w₂ hw₂
  have hdone : ∀ e : ErrorCondition, Checked Kernel.env (ClosesOnly (held fd)) w₂
      (.ret (r.res, e) : Syscall (Int × ErrorCondition)) fun w' o =>
        ∀ a, o = .ok a → Replaced w w' (held fd) (held a.1) := by
    intro e
    exact Checked.ret_ok hw₂
  simp only [Prog.bind_eq, Prog.pure_eq, Prog.ret_bind]
  split
  · exact hdone _
  · refine checked_quiet_bind (bindLocal_quiet _ _) nofun fun b => ?_
    split
    · exact hdone _
    · refine checked_neutral trivial fun c _ => ?_
      rw [Prog.ret_bind]
      split
      · exact hdone _
      · exact hdone _

/-- `import` closes the old descriptor and holds the given one, which it does not open. -/
theorem importFd_checked {new : Int} (hopen : ∀ k, held fd = some k → k ∈ w.opened) :
    Checked Kernel.env (ClosesOnly (held fd)) w (importFd fd new) fun w' o =>
      o = .ok new ∧ w'.opened = w.opened \ only (held fd) := by
  apply checked_closeHeld hopen
  intro w' hw'
  exact Checked.ret.mpr ⟨rfl, hw'⟩

/-- The target of an `accept` after the call: what it held is closed and the
accepted descriptor is open in its place. -/
theorem checked_import {α : Type} {w₁ : Kernel} {res : Int} {f : Int → Syscall α}
    {Q : Kernel → Except Stop α → Prop} (hopen : ∀ k, held fd = some k → k ∈ w.opened)
    (hw₁ : w₁.opened = w.opened ∪ {res}) (hres : res ≠ -1) (hfresh : res ∉ w.opened)
    (h : ∀ w', Replaced w w' (held fd) (held res) →
      Checked Kernel.env (ClosesOnly (held fd)) w' (f res) Q) :
    Checked Kernel.env (ClosesOnly (held fd)) w₁ ((importFd fd res).bind f) Q := by
  have hopen₁ : ∀ k, held fd = some k → k ∈ w₁.opened := by
    intro k hk
    rw [hw₁]
    exact Or.inl (hopen k hk)
  refine Checked.bind ((importFd_checked hopen₁).mono ?_)
  intro w₂ o h
  obtain ⟨rfl, hw₂⟩ := h
  exact h w₂ (replaced_import hopen hres hfresh hw₁ hw₂)

theorem acceptFd_replaces {target : Int} (hopen : ∀ k, held target = some k → k ∈ w.opened) :
    Replaces w (held target) Prod.snd (acceptFd fd target) := by
  refine checked_accept ?_ ?_
  · intro r hr
    rw [Prog.ret_bind, if_pos hr]
    exact Checked.ret_ok (Replaced.refl hopen)
  · intro r hr w₁ hw₁ hfresh
    rw [Prog.ret_bind, if_neg hr]
    apply checked_import hopen hw₁ hr hfresh
    intro w₂ hw₂
    exact Checked.ret_ok hw₂

theorem acceptAddressFd_replaces {target : Int} {provisional : Nat} {again : Int → Int}
    {address : Address} (hopen : ∀ k, held target = some k → k ∈ w.opened) :
    Replaces w (held target) (fun a => a.2.1)
      (acceptAddressFd fd target provisional again address) := by
  refine checked_quiet_bind (address.resize_quiet _) nofun fun a => ?_
  rw [Prog.bind_eq, Posix.acceptFrom_bind]
  refine checked_accept ?_ ?_
  · intro r hr
    refine checked_quiet_bind (a.deliver_quiet _ r) nofun fun b => ?_
    dsimp only
    rw [if_pos hr]
    exact Checked.ret_ok (Replaced.refl hopen)
  · intro r hr w₁ hw₁ hfresh
    refine checked_quiet_bind (a.deliver_quiet _ r) nofun fun b => ?_
    dsimp only
    rw [if_neg hr]
    apply checked_import hopen hw₁ hr hfresh
    intro w₂ hw₂
    have hdone : ∀ c : Address, Checked Kernel.env (ClosesOnly (held target)) w₂
        (.ret (none, r.res, c) : Syscall (Option ErrorCondition × Int × Address)) fun w' o =>
          ∀ a, o = .ok a → Replaced w w' (held target) (held a.2.1) := by
      intro c
      exact Checked.ret_ok hw₂
    refine checked_quiet_bind (Address.resize_quiet _ _) nofun fun c => ?_
    split
    · refine checked_quiet_bind (getsockname_quiet _ _ _) nofun fun d => ?_
      exact hdone _
    · exact hdone _

end Functions

/-! ## The members of each class -/

section Members
variable {w : Kernel} {type : SocketType} {remote_address local_address address : Address}

theorem ConnectedSocket.connect_replaces {this : ConnectedSocket}
    (hopen : ∀ k, held this.d_fd = some k → k ∈ w.opened) :
    Replaces w (held this.d_fd) (fun a => a.1.d_fd)
      (this.connect type remote_address local_address) :=
  Checked.map (connectFd_replaces hopen) fun _ => ⟨_, rfl, fun _ => id⟩

theorem ConnectedSocket.importFd_checked {this : ConnectedSocket} {fd : Int}
    (hopen : ∀ k, held this.d_fd = some k → k ∈ w.opened) :
    Checked Kernel.env (ClosesOnly (held this.d_fd)) w (this.importFd fd) fun w' o =>
      ∀ s, o = .ok s → s.d_fd = fd ∧ w'.opened = w.opened \ only (held this.d_fd) := by
  refine Checked.bind ((Net.importFd_checked hopen).mono ?_)
  intro w' o h
  obtain ⟨rfl, hw'⟩ := h
  exact Checked.ret_ok ⟨rfl, hw'⟩

theorem PosixSocketBuffer.connect_replaces {this : PosixSocketBuffer}
    (hopen : ∀ k, held this.d_fd = some k → k ∈ w.opened) :
    Replaces w (held this.d_fd) (fun a => a.1.d_fd)
      (this.connect type remote_address local_address) :=
  Checked.map (connectFd_replaces hopen) fun _ => ⟨_, rfl, fun _ => id⟩

theorem ListenSocket.failed_fd (this : ListenSocket) (error : Option ErrorCondition) :
    (this.failed error).d_fd = this.d_fd := by
  cases error <;> rfl

/-- The listening end of an `accept` keeps its descriptor. -/
theorem ListenSocket.accept_replaces {this : ListenSocket} {socket : ConnectedSocket}
    (hopen : ∀ k, held socket.d_fd = some k → k ∈ w.opened) :
    Checked Kernel.env (ClosesOnly (held socket.d_fd)) w (this.accept socket) fun w' o =>
      ∀ a, o = .ok a → a.1.d_fd = this.d_fd ∧
        Replaced w w' (held socket.d_fd) (held a.2.d_fd) :=
  Checked.map (acceptFd_replaces hopen) fun a =>
    ⟨_, rfl, fun _ h => ⟨this.failed_fd a.1, h⟩⟩

theorem ListenSocket.acceptWithAddress_replaces {this : ListenSocket} {socket : ConnectedSocket}
    (hopen : ∀ k, held socket.d_fd = some k → k ∈ w.opened) :
    Checked Kernel.env (ClosesOnly (held socket.d_fd)) w
      (this.acceptWithAddress socket address) fun w' o =>
        ∀ a, o = .ok a → a.1.d_fd = this.d_fd ∧
          Replaced w w' (held socket.d_fd) (held a.2.1.d_fd) :=
  Checked.map (acceptAddressFd_replaces hopen) fun a =>
    ⟨_, rfl, fun _ h => ⟨this.failed_fd a.1, h⟩⟩

theorem PosixSocketBuffer.accept_replaces {this socket : PosixSocketBuffer}
    (hopen : ∀ k, held socket.d_fd = some k → k ∈ w.opened) :
    Replaces w (held socket.d_fd) (fun a => a.1.d_fd) (this.accept socket) :=
  Checked.map (acceptFd_replaces hopen) fun _ => ⟨_, rfl, fun _ => id⟩

theorem PosixSocketBuffer.acceptWithAddress_replaces {this socket : PosixSocketBuffer}
    {same : Bool} (hopen : ∀ k, held socket.d_fd = some k → k ∈ w.opened) :
    Replaces w (held socket.d_fd) (fun a => a.1.d_fd)
      (this.acceptWithAddress same socket address) :=
  Checked.map (acceptAddressFd_replaces hopen) fun _ => ⟨_, rfl, fun _ => id⟩

theorem ListenSocket.check_result_fd (s : ListenSocket) (r : Status) :
    (s.check_result r).2.d_fd = s.d_fd := by
  unfold check_result
  split <;> rfl

/-- The constructor of `listen_socket` opens at most the descriptor it ends up with. -/
theorem ListenSocket.construct_replaces :
    Replaces w none ListenSocket.d_fd (ListenSocket.construct type local_address) := by
  have hw : w.opened = w.opened \ only none := by simp
  unfold construct
  split
  · apply checked_socket hw
    intro r w₁ hw₁
    have hdone : ∀ s : ListenSocket, s.d_fd = r.res → Checked Kernel.env (ClosesOnly none) w₁
        (.ret s : Syscall ListenSocket) fun w' o =>
          ∀ a, o = .ok a → Replaced w w' none (held a.d_fd) := by
      intro s hs
      apply Checked.ret_ok
      rw [hs]
      exact hw₁
    have hfd₁ := check_result_fd { d_fd := r.res } r
    rw [Prog.ret_bind]
    generalize check_result { d_fd := r.res } r = p₁ at hfd₁
    obtain ⟨okay₁, s₁⟩ := p₁
    dsimp only
    split
    · exact hdone _ hfd₁
    · refine checked_neutral trivial fun r₂ _ => ?_
      have hfd₂ := check_result_fd s₁ r₂
      rw [Prog.ret_bind]
      generalize s₁.check_result r₂ = p₂ at hfd₂
      obtain ⟨okay₂, s₂⟩ := p₂
      dsimp only
      split
      · exact hdone _ (hfd₂.trans hfd₁)
      · refine checked_neutral trivial fun r₃ _ => ?_
        have hfd₃ := check_result_fd s₂ r₃
        rw [Prog.ret_bind]
        generalize s₂.check_result r₃ = p₃ at hfd₃
        obtain ⟨okay₃, s₃⟩ := p₃
        dsimp only
        split
        · exact hdone _ (hfd₃.trans (hfd₂.trans hfd₁))
        · refine checked_quiet_bind (Address.resize_quiet _ _) nofun fun a => ?_
          refine checked_quiet_bind (getsockname_quiet _ _ _) nofun fun b => ?_
          apply hdone _
          rw [check_result_fd]
          exact hfd₃.trans (hfd₂.trans hfd₁)
  · exact Checked.stop.mpr nofun

/-- `posix_socket_buffer::listen` closes nothing, and opens what it ends up with. -/
theorem PosixSocketBuffer.listen_opens {this : PosixSocketBuffer} (old : Option Int) :
    Checked Kernel.env (ClosesOnly old) w (this.listen type local_address) fun w' o =>
      ∀ a, o = .ok a → w'.opened = w.opened ∪ only (held a.1.d_fd) ∧
        ∀ fd, held a.1.d_fd = some fd → fd ∉ w.opened := by
  unfold listen
  split
  · refine Checked.call fun r hr => ⟨nofun, ?_⟩
    have hdone : ∀ e : ErrorCondition, Checked Kernel.env (ClosesOnly old) (w.opening r.res)
        (.ret (⟨r.res⟩, e) : Syscall (PosixSocketBuffer × ErrorCondition)) fun w' o =>
          ∀ a, o = .ok a → w'.opened = w.opened ∪ only (held a.1.d_fd) ∧
            ∀ fd, held a.1.d_fd = some fd → fd ∉ w.opened := by
      intro e
      exact Checked.ret_ok ⟨opened_opening, fresh_of_may hr⟩
    rw [Prog.ret_bind]
    dsimp only
    split
    · exact hdone _
    · refine checked_neutral trivial fun r₂ _ => ?_
      rw [Prog.ret_bind]
      split
      · exact hdone _
      · refine checked_neutral trivial fun r₃ _ => ?_
        rw [Prog.ret_bind]
        split
        · exact hdone _
        · exact hdone _
  · exact Checked.stop.mpr nofun

end Members

end Sydn.Net
