import Sydn.Found.History
import Sydn.Net.PeerAddress

/-!
# Where the kernel writes addresses to

Every call that fills an address is passed a pointer from `native()` and a length from
`capacity()` or from an earlier call, with calls of `resize` in between that may replace
the storage. The storage at a call is read off the calls before it: it is as large as
the memory that was last asked for.
-/

namespace Sydn.Net

open Sydn.Found.Interaction
open Sydn.Mem (Byte)

/-- The bytes the storage of an address holds after the calls `t`, `capacity` before. -/
def storageAfter (capacity : Nat) (t : Trace) : Nat :=
  t.foldl (fun n e => match e with | ⟨.new size, _⟩ => size | _ => n) capacity

/-- The pointer is to the start of the storage, null only where `empty`, and the length
is not beyond the end of the storage. -/
def Buffer.Inside (b : Buffer) (storage : Nat) (empty : Prop) : Prop :=
  b.len ≤ storage ∧ (b.room = some storage ∨ (b.room = none ∧ empty))

/-- A call that fills an address is passed such a buffer. -/
def FillsInside (storage : Nat) (empty : Prop) (e : Event Posix) : Prop :=
  match e with
  | ⟨.accept _ (some b), _⟩ => b.Inside storage empty
  | ⟨.getsockname _ b, _⟩ => b.Inside storage empty
  | _ => True

/-- All calls of a program do, with the calls before them in sight. -/
abbrev Filling (capacity : Nat) (empty : Prop) {α : Type} (w : Kernel × Trace) (p : Syscall α)
    (Q : Kernel × Trace → Except Stop α → Prop) : Prop :=
  Checked Kernel.env.remembering
    (fun w e => FillsInside (storageAfter capacity w.2) empty e) w p Q

section Storage
variable {capacity : Nat} {t : Trace}

theorem storageAfter_snoc {e : Event Posix} : storageAfter capacity (t ++ [e]) =
    match e with | ⟨.new size, _⟩ => size | _ => storageAfter capacity t := by
  rw [storageAfter, List.foldl_append]
  rfl

@[simp] theorem storageAfter_new {size : Nat} {content : Nat → Byte} :
    storageAfter capacity (t ++ [⟨.new size, content⟩]) = size := storageAfter_snoc

@[simp] theorem storageAfter_other {c : Sys} {r : c.Answer} (h : ∀ size, c ≠ .new size) :
    storageAfter capacity (t ++ [⟨c, r⟩]) = storageAfter capacity t := by
  rw [storageAfter_snoc]
  cases c <;> first | rfl | exact absurd rfl (h _)

theorem storageAfter_growth {a : Address} {n : Nat} {content : Nat → Byte}
    (ha : storageAfter capacity t = a.capacity) :
    storageAfter capacity (t ++ a.growth n content) = max a.capacity n := by
  unfold Address.growth
  by_cases hcap : a.capacity < n
  · rw [if_pos hcap, storageAfter_new, Nat.max_eq_right hcap.le]
  · rw [if_neg hcap, List.append_nil, ha, Nat.max_eq_left (not_lt.mp hcap)]

/-- The buffer every function passes. -/
theorem Address.offer_inside {a : Address} {empty : Prop} (h : a.size ≠ 0 ∨ empty) :
    a.offer.Inside a.capacity empty := by
  refine ⟨Address.socklen_le a.capacity, ?_⟩
  by_cases hsize : a.size = 0
  · exact Or.inr ⟨if_neg (not_not.mpr hsize), h.resolve_left (not_not.mpr hsize)⟩
  · exact Or.inl (if_pos hsize)

end Storage

namespace Filling
variable {capacity : Nat} {empty : Prop} {α β : Type} {w : Kernel × Trace} {a : Address} {n : Nat}
  {Q : Kernel × Trace → Except Stop α → Prop}

/-- A call that fills no address and asks for no memory. -/
theorem call {c : Sys} {next : c.Answer → Syscall α} (hnew : ∀ size, c ≠ .new size)
    (hfill : ∀ s r, FillsInside s empty ⟨c, r⟩)
    (h : ∀ w' r, storageAfter capacity w'.2 = storageAfter capacity w.2 →
      Filling capacity empty w' (next r) Q) :
    Filling capacity empty w (Prog.call (S := Posix) c next) Q := by
  refine Checked.call fun r _ => ⟨hfill _ r, h _ r ?_⟩
  exact storageAfter_other hnew

theorem resize_bind {f : Address → Syscall α} (ha : storageAfter capacity w.2 = a.capacity)
    (hstop : ∀ w', Q w' (.error .assertion))
    (h : ∀ w' content hn, storageAfter capacity w'.2 = (a.resized n content hn).capacity →
      Filling capacity empty w' (f (a.resized n content hn)) Q) :
    Filling capacity empty w ((a.resize n).bind f) Q := by
  apply checked_resize_bind (fun _ => trivial) (fun _ => hstop w)
  intro hn content
  apply h _ content hn
  rw [past_later, storageAfter_growth ha, Address.capacity_resized]

theorem offered (ha : storageAfter capacity w.2 = a.capacity) (hsize : a.size ≠ 0 ∨ empty) :
    a.offer.Inside (storageAfter capacity w.2) empty := by
  rw [ha]
  exact Address.offer_inside hsize

theorem storageAfter_answered (ha : storageAfter capacity w.2 = a.capacity) {r : Named} {c : Sys}
    {s : c.Answer} (hnew : ∀ size, c ≠ .new size) :
    storageAfter capacity (w.2 ++ [⟨c, s⟩]) = (a.answered r).1.capacity := by
  rw [Address.capacity_answered, ← ha]
  exact storageAfter_other hnew

/-- What a call leaves of the address has the storage and the size it had. -/
theorem getsockname_bind {fd : Int} {f : Named × Address × Nat → Syscall α}
    (ha : storageAfter capacity w.2 = a.capacity) (hsize : a.size ≠ 0 ∨ empty)
    (h : ∀ w' r (b : Address) len, storageAfter capacity w'.2 = b.capacity → b.size = a.size →
      Filling capacity empty w' (f (r, b, len)) Q) :
    Filling capacity empty w ((Posix.getsockname fd a (socklen a.capacity)).bind f) Q := by
  rw [Address.getsockname_offer_bind]
  refine Checked.call fun r _ => ⟨?_, h _ r (a.answered r).1 _ ?_ Address.size_answered⟩
  · exact offered ha hsize
  · exact storageAfter_answered ha nofun

theorem acceptFrom_bind {fd : Int} {f : Named × Address × Nat → Syscall α}
    (ha : storageAfter capacity w.2 = a.capacity) (hsize : a.size ≠ 0 ∨ empty)
    (h : ∀ w' r (b : Address) len, storageAfter capacity w'.2 = b.capacity → b.size = a.size →
      Filling capacity empty w' (f (r, b, len)) Q) :
    Filling capacity empty w ((Posix.acceptFrom fd a (socklen a.capacity)).bind f) Q := by
  rw [Address.acceptFrom_offer_bind]
  refine Checked.call fun r _ => ⟨?_, h _ r (a.answered r).1 _ ?_ Address.size_answered⟩
  · exact offered ha hsize
  · exact storageAfter_answered ha nofun

theorem importFd_bind {d_fd fd : Int} {f : Int → Syscall α}
    (h : ∀ w', storageAfter capacity w'.2 = storageAfter capacity w.2 →
      Filling capacity empty w' (f fd) Q) :
    Filling capacity empty w ((importFd d_fd fd).bind f) Q := by
  unfold importFd closeHeld
  by_cases hfd : d_fd = -1
  · rw [if_pos hfd]
    exact h w rfl
  · rw [if_neg hfd]
    exact call nofun (fun _ _ => trivial) fun w' _ hw => h w' hw

theorem map {p : Syscall α} {g : α → β}
    (h : Filling capacity empty w p fun _ o => o ≠ .error .overrun) :
    Filling capacity empty w (p.bind fun a => .ret (g a)) fun _ o => o ≠ .error .overrun := by
  refine Checked.bind (h.mono ?_)
  intro w' o ho
  cases o with
  | error e =>
    intro he
    cases he
    exact ho rfl
  | ok a => exact Checked.ret.mpr nofun

end Filling

/-! ## The functions -/

section Functions
variable {w : Kernel × Trace} {capacity : Nat} {empty : Prop} {a : Address}

/-- The retry after `accept` is never reached: `resize` has just made room. -/
theorem acceptAddressFd_filling {fd target : Int} {provisional : Nat} {again : Int → Int}
    (ha : storageAfter capacity w.2 = a.capacity) (hsize : provisional ≠ 0 ∨ empty) :
    Filling capacity empty w (acceptAddressFd fd target provisional again a)
      fun _ o => o ≠ .error .overrun := by
  refine Filling.resize_bind ha nofun fun w₁ content hn h₁ => ?_
  refine Filling.acceptFrom_bind h₁ ?_ fun w₂ r b len h₂ hb => ?_
  · rw [Address.size_resized]
    exact hsize
  · dsimp only
    by_cases hres : r.res = -1
    · rw [if_pos hres]
      exact Checked.ret.mpr nofun
    · rw [if_neg hres]
      apply Filling.importFd_bind
      intro w₃ h₃
      refine Filling.resize_bind (h₃.trans h₂) nofun fun w₄ content' hlen h₄ => ?_
      rw [if_neg]
      · exact Checked.ret.mpr nofun
      · rw [Address.capacity_resized]
        omega

theorem localAddressTurn_filling {fd : Int} (ha : storageAfter capacity w.2 = a.capacity)
    (hsize : a.size ≠ 0) :
    Filling capacity False w (localAddressTurn fd a) fun w' o => match o with
      | .ok (.inl b) => storageAfter capacity w'.2 = b.capacity ∧ b.size ≠ 0
      | .ok (.inr _) => True
      | .error e => e ≠ .overrun := by
  apply Filling.getsockname_bind ha (Or.inl hsize)
  intro w₁ r b len h₁ hb
  dsimp only
  by_cases hres : r.res = -1
  · rw [if_pos hres]
    exact Checked.ret.mpr trivial
  · rw [if_neg hres]
    refine Filling.resize_bind h₁ nofun fun w₂ content hlen h₂ => ?_
    by_cases hloop : len > b.capacity
    · apply Checked.ret.mpr
      simp only [hloop, decide_true, if_true]
      refine ⟨h₂, ?_⟩
      rw [Address.size_resized]
      omega
    · apply Checked.ret.mpr
      simp only [hloop, decide_false]
      trivial

theorem localAddressFd_filling {fuel : Nat} {fd : Int}
    (ha : storageAfter capacity w.2 = a.capacity) :
    Filling capacity False w (localAddressFd fuel fd a) fun _ o => o ≠ .error .overrun := by
  refine Filling.resize_bind ha nofun fun w₁ content hn h₁ => ?_
  refine Checked.loop (I := fun _ w b => storageAfter capacity w.2 = b.capacity ∧ b.size ≠ 0)
    ?_ (fun _ _ _ => nofun) ⟨h₁, ?_⟩
  · intro n w' b h
    obtain ⟨hb, hsize⟩ := h
    apply (localAddressTurn_filling hb hsize).mono
    intro w'' o ho
    match o, ho with
    | .ok (.inl b'), ho => exact ho
    | .ok (.inr c), _ => exact nofun
    | .error e, ho =>
      intro he
      cases he
      exact ho rfl
  · rw [Address.size_resized]
    decide

theorem ListenSocket.construct_filling {type : SocketType} {local_address : Address}
    (hw : storageAfter c_sdoSize w.2 = c_sdoSize) :
    Filling c_sdoSize False w (construct type local_address) fun _ o => o ≠ .error .overrun := by
  unfold construct
  split
  · rename_i hnull
    refine Filling.call nofun (fun _ _ => trivial) fun w₁ r h₁ => ?_
    dsimp only [Prog.ret_bind, check_result]
    by_cases hres : r.res = -1
    · rw [if_pos hres]
      exact Checked.ret.mpr nofun
    rw [if_neg hres]
    refine Filling.call nofun (fun _ _ => trivial) fun w₂ r₂ h₂ => ?_
    dsimp only [Prog.ret_bind]
    by_cases hres₂ : r₂.res = -1
    · rw [if_pos hres₂]
      exact Checked.ret.mpr nofun
    rw [if_neg hres₂]
    refine Filling.call nofun (fun _ _ => trivial) fun w₃ r₃ h₃ => ?_
    dsimp only [Prog.ret_bind]
    by_cases hres₃ : r₃.res = -1
    · rw [if_pos hres₃]
      exact Checked.ret.mpr nofun
    rw [if_neg hres₃]
    have hinit : storageAfter c_sdoSize w₃.2 = Address.init.capacity := by
      rw [h₃, h₂, h₁, hw]
      rfl
    refine Filling.resize_bind hinit nofun fun w₄ content hn h₄ => ?_
    refine Filling.getsockname_bind h₄ (Or.inl ?_) fun w₅ r₄ b len _ _ => ?_
    · have hsize := Address.size_of_notNull hnull
      rw [Address.size_resized]
      unfold sizeofSockaddr at hsize
      omega
    · exact Checked.ret.mpr nofun
  · exact Checked.stop.mpr nofun

end Functions

/-- Along a run the kernel is only ever offered an address, of `capacity` bytes at first,
inside its storage, and writes no byte beyond it. -/
def FilledInside (capacity : Nat) (empty : Prop) {α : Type} (t : Trace) (o : Except Stop α) : Prop :=
  AtEach (fun u e => FillsInside (storageAfter capacity u) empty e) t ∧ o ≠ .error .overrun

theorem Filling.inside {capacity : Nat} {empty : Prop} {α : Type} {p : Syscall α} {w : Kernel}
    {t : Trace} {o : Except Stop α}
    (h : Filling capacity empty (w, []) p fun _ o => o ≠ .error .overrun)
    (hrun : p.Run Kernel.env w t o) : FilledInside capacity empty t o :=
  Checked.remembered (P := fun u e => FillsInside (storageAfter capacity u) empty e) h hrun

/-- **Addresses are filled inside their storage.** In every run of the five functions,
whatever lengths the kernel reports and whichever calls fail, each call that fills the
address is passed its storage and no more. Only `listen_socket::accept` passes a null
pointer, where its own address is empty and the other one is emptied before the call. -/
theorem filled_inside {w : Kernel} {t : Trace} :
    (∀ type local_address o, (ListenSocket.construct type local_address).Run Kernel.env w t o →
      FilledInside c_sdoSize False t o) ∧
    (∀ (this : ListenSocket) socket address o,
      (this.acceptWithAddress socket address).Run Kernel.env w t o →
        FilledInside address.capacity (this.d_local_address.size = 0) t o) ∧
    (∀ (this : PosixSocketBuffer) same socket address o,
      (this.acceptWithAddress same socket address).Run Kernel.env w t o →
        FilledInside address.capacity False t o) ∧
    (∀ (this : ConnectedSocket) fuel o, (this.local_address fuel).Run Kernel.env w t o →
      FilledInside c_sdoSize False t o) ∧
    ∀ (this : PosixSocketBuffer) fuel address o,
      (this.local_address fuel address).Run Kernel.env w t o →
        FilledInside address.capacity False t o := by
  refine ⟨?_, ?_, ?_, ?_, ?_⟩
  · intro type local_address o hrun
    exact (ListenSocket.construct_filling rfl).inside hrun
  · intro this socket address o hrun
    refine Filling.inside (Filling.map (acceptAddressFd_filling rfl ?_)) hrun
    exact (em _).symm
  · intro this same socket address o hrun
    refine Filling.inside (Filling.map (acceptAddressFd_filling rfl (Or.inl ?_))) hrun
    decide
  · intro this fuel o hrun
    exact Filling.inside (Filling.map (localAddressFd_filling rfl)) hrun
  · intro this fuel address o hrun
    exact (localAddressFd_filling rfl).inside hrun

section Peer

/-- The calls of an `accept` of a peer whose address is longer than the buffer. -/
def longPeerTrace : Trace :=
  [⟨.accept 3 (some ⟨some 32, 32⟩), ⟨⟨4, 0⟩, longPeer⟩⟩, ⟨.new 33, fun _ => 0⟩]

theorem longPeer_run : ∃ o, (PosixSocketBuffer.acceptWithAddress false ⟨3⟩ {} Address.init).Run
    Kernel.env ⟨{3}, ∅⟩ longPeerTrace o := by
  have hinner : ∃ a, (acceptAddressFd 3 (-1) sizeofSockaddr (fun _ => 3) Address.init).Run
      Kernel.env ⟨{3}, ∅⟩ longPeerTrace (.ok a) := by
    refine ⟨_, (run_acceptAddressFd (Or.inr le_rfl)).mpr ⟨fun _ => 0, _, _, rfl, ?_,
      Or.inr ⟨?_, _, rfl, Or.inr ⟨?_, fun _ => 0, rfl, rfl⟩⟩⟩⟩
    · exact Or.inr ⟨fresh_of_not_mem (by decide) (by decide), by decide, Or.inl rfl⟩
    · decide
    · decide
  obtain ⟨a, hrun⟩ := hinner
  exact ⟨_, Prog.run_map.mpr ⟨a, hrun, rfl⟩⟩

theorem filled_inside_long : AtEach (fun u e => FillsInside (storageAfter 32 u) False e)
    longPeerTrace := by
  obtain ⟨o, hrun⟩ := longPeer_run
  exact (filled_inside.2.2.1 _ _ _ _ o hrun).1

end Peer

end Sydn.Net
