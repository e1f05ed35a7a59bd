import Sydn.Found.History
import Sydn.Net.PeerAddress

/-!
# Asking for the local address until it fits

The loop of `local_address` asks with all of the capacity and grows to the length that
is reported. Each length that makes it ask again is more than the capacity was, and is
the capacity from then on, so a bound on the lengths bounds the turns; the answer that
fits is not moved again.
-/

namespace Sydn.Net

open Sydn.Found.Interaction
open Sydn.Mem (Byte)
open ErrorCondition (default_error_condition)

/-- The lengths reported by the calls that succeed are at least those of a `sockaddr`,
and at most `M`. -/
def Bounded (M : Nat) (t : Trace) : Prop :=
  ∀ q ∈ queries t, q.2.res ≠ -1 → sizeofSockaddr ≤ q.2.name.length ∧ q.2.name.length ≤ M

/-! ## What the loop maintains -/

/-- A call that was offered less than the length it reported, which is no more than `c`. -/
structure Outgrown (c : Nat) (q : Buffer × Named) : Prop where
  offered : q.1.room = some q.1.len
  answered : q.2.res ≠ -1
  short : q.1.len < q.2.name.length
  le : q.2.name.length ≤ c

/-- The calls so far with `n` turns left: each was outgrown, and the next was offered what
the one before it reported. -/
structure Asking (M n : Nat) (past : List (Buffer × Named)) (a : Address) : Prop where
  size : a.size ≠ 0
  capacity : a.capacity < 2 ^ 32
  outgrown : ∀ q ∈ past, Outgrown a.capacity q
  chain : past.Pairwise fun q q' => q.2.name.length ≤ q'.1.len
  turns : (past = [] ∧ M < n) ∨ (a.capacity ≤ M ∧ M < n + a.capacity)

/-- What the calls of a whole run have in common. -/
structure Asked (past : List (Buffer × Named)) : Prop where
  offered : ∀ q ∈ past, q.1.room = some q.1.len
  growing : past.Pairwise fun q q' => q.1.len < q'.1.len
  twice : ∀ L, (∀ q ∈ past, q.2.res ≠ -1 → q.2.name.length = L) → past.length ≤ 2

/-- The result of a run is the last answer: the address in full, or an empty one and
the condition of the call that failed. -/
def LastAnswer (past : List (Buffer × Named)) (a : Address) (e : ErrorCondition) : Prop :=
  ∃ q, past.getLast? = some q ∧
    (q.2.res ≠ -1 → a.size = q.2.name.length ∧ a.bytes = q.2.name.bytes ∧ e = {}) ∧
    (q.2.res = -1 → a.size = 0 ∧ e = default_error_condition q.2.errno)

section Asking
variable {M n : Nat} {past : List (Buffer × Named)} {a : Address} {r : Named}

theorem Address.offer_eq (hsize : a.size ≠ 0) (hcap : a.capacity < 2 ^ 32) :
    a.offer = ⟨some a.capacity, a.capacity⟩ := by
  unfold offer buffer socklen
  rw [if_pos hsize, Nat.mod_eq_of_lt hcap]

theorem Asking.length_le (h : Asking M n past a) {L : Nat}
    (hsame : ∀ q ∈ past, q.2.res ≠ -1 → q.2.name.length = L) : past.length ≤ 1 := by
  match past, h, hsame with
  | [], _, _ => exact Nat.zero_le 1
  | [q], _, _ => exact le_rfl
  | q :: q' :: rest, h, hsame =>
    have hq := h.outgrown q List.mem_cons_self
    have hq' := h.outgrown q' (List.mem_cons_of_mem _ List.mem_cons_self)
    have hchain : q.2.name.length ≤ q'.1.len := by
      exact (List.pairwise_cons.mp h.chain).1 q' List.mem_cons_self
    have hL := hsame q List.mem_cons_self hq.answered
    have hL' := hsame q' (List.mem_cons_of_mem _ List.mem_cons_self) hq'.answered
    have hshort := hq'.short
    omega

/-- The call of one more turn, whatever it answers. -/
theorem Asking.asked (h : Asking M n past a) : Asked (past ++ [(a.offer, r)]) := by
  rw [Address.offer_eq h.size h.capacity]
  refine ⟨?_, ?_, ?_⟩
  · intro q hq
    rcases List.mem_append.mp hq with hold | hnew
    · exact (h.outgrown q hold).offered
    · cases List.mem_singleton.mp hnew
      rfl
  · refine List.pairwise_append.mpr ⟨?_, List.pairwise_singleton _ _, ?_⟩
    · apply h.chain.imp_of_mem
      intro q q' hq _ hchain
      exact (h.outgrown q hq).short.trans_le hchain
    · intro q hq q' hq'
      cases List.mem_singleton.mp hq'
      have hout := h.outgrown q hq
      exact hout.short.trans_le hout.le
  · intro L hsame
    have hle := h.length_le fun q hq => hsame q (List.mem_append_left _ hq)
    rw [List.length_append, List.length_singleton]
    omega

/-- A length that does not fit: the address has grown to it. -/
theorem Asking.again (h : Asking M (n + 1) past a) (hres : r.res ≠ -1)
    (hlong : a.capacity < r.name.length) (hM : r.name.length ≤ M) {b : Address}
    (hsize : b.size ≠ 0) (hcap : b.capacity = r.name.length) :
    Asking M n (past ++ [(a.offer, r)]) b := by
  rw [Address.offer_eq h.size h.capacity]
  refine ⟨hsize, ?_, ?_, ?_, ?_⟩
  · rw [hcap]
    exact r.name.lt_len
  · intro q hq
    rcases List.mem_append.mp hq with hold | hnew
    · have hout := h.outgrown q hold
      exact ⟨hout.offered, hout.answered, hout.short, by have hle := hout.le; omega⟩
    · cases List.mem_singleton.mp hnew
      exact ⟨rfl, hres, hlong, hcap.ge⟩
  · refine List.pairwise_append.mpr ⟨h.chain, List.pairwise_singleton _ _, ?_⟩
    intro q hq q' hq'
    cases List.mem_singleton.mp hq'
    exact (h.outgrown q hq).le
  · right
    rw [hcap]
    rcases h.turns with ⟨_, hturns⟩ | ⟨_, hturns⟩ <;> omega

end Asking

/-! ## The loop -/

/-- How a run must end. -/
def Answered (past : List (Buffer × Named)) (o : Except Stop (Address × ErrorCondition)) : Prop :=
  Asked past ∧ ∃ a e, o = .ok (a, e) ∧ LastAnswer past a e

section Answers
variable {M n : Nat} {past : List (Buffer × Named)} {a : Address} {r : Named}

theorem Asking.failed (h : Asking M n past a) (hres : r.res = -1) :
    Answered (past ++ [(a.offer, r)]) (.ok (a.reset, default_error_condition r.errno)) := by
  refine ⟨h.asked, _, _, rfl, (a.offer, r), List.getLast?_concat, fun hne => absurd hres hne, ?_⟩
  intro _
  exact ⟨Sydn.Mem.Owned.size_store.trans Sydn.Mem.Owned.size_resize, rfl⟩

/-- A length that fits is the one of the address, whose bytes do not move again. -/
theorem Asking.fits (h : Asking M n past a) (hres : r.res ≠ -1)
    (hfits : r.name.length ≤ a.capacity) (hsize : SizeOk (a.taken r.name).2)
    (content : Nat → Byte) : Answered (past ++ [(a.offer, r)])
      (.ok ((a.taken r.name).1.resized (a.taken r.name).2 content hsize, {})) := by
  refine ⟨h.asked, _, _, rfl, (a.offer, r), List.getLast?_concat, ?_, fun heq => absurd heq hres⟩
  intro _
  refine ⟨?_, Address.bytes_of_fits h.size ?_ hsize, rfl⟩
  · rw [Address.size_resized, Address.taken_of_size_ne h.size]
  · rw [socklen, Nat.mod_eq_of_lt h.capacity]
    exact hfits

end Answers

section Loop
variable {M n : Nat} {w : Kernel × Trace} {a : Address} {fd : Int}

theorem Bounded.append_left {t u : Trace} (h : Bounded M (t ++ u)) : Bounded M t := by
  intro q hq
  apply h q
  rw [queries_append]
  exact List.mem_append_left _ hq

/-- The rule for a program of which only the end matters. -/
abbrev Ends {α : Type} (w : Kernel × Trace) (p : Syscall α)
    (Q : Trace → Except Stop α → Prop) : Prop :=
  Checked Kernel.env.remembering (fun _ _ => True) w p fun w' o => Q w'.2 o

/-- What a turn must lead to: another one, or the end of the loop. -/
def Turned (M n : Nat) (t : Trace) : Except Stop (Address ⊕ (Address × ErrorCondition)) → Prop
  | .ok (.inl b) => Asking M n (queries t) b
  | .ok (.inr c) => Answered (queries t) (.ok c)
  | .error _ => False

theorem Asking.turned {r : Named} {content : Nat → Byte} {t : Trace}
    (h : Asking M (n + 1) (queries w.2) a) (hres : r.res ≠ -1) (hM : r.name.length ≤ M)
    (hsize : SizeOk (a.taken r.name).2) (ht : queries t = queries w.2 ++ [(a.offer, r)]) :
    Turned M n t (.ok (if decide ((a.taken r.name).2 > (a.taken r.name).1.capacity) then
      .inl ((a.taken r.name).1.resized (a.taken r.name).2 content hsize)
      else .inr ((a.taken r.name).1.resized (a.taken r.name).2 content hsize, {}))) := by
  have htaken : a.taken r.name = _ := Address.taken_of_size_ne h.size
  have hcap : (a.taken r.name).1.capacity = a.capacity := by
    rw [htaken]
    exact Address.capacity_written _
  have hlen : (a.taken r.name).2 = r.name.length := by rw [htaken]
  by_cases hlong : a.capacity < r.name.length
  · have hloop : (a.taken r.name).2 > (a.taken r.name).1.capacity := by
      rw [hcap, hlen]
      exact hlong
    rw [decide_eq_true hloop, if_pos rfl, Turned, ht]
    refine h.again hres hlong hM ?_ ?_
    · rw [Address.size_resized, hlen]
      omega
    · rw [Address.capacity_resized, hcap, hlen, Nat.max_eq_right hlong.le]
  · have hdone : ¬ (a.taken r.name).2 > (a.taken r.name).1.capacity := by
      rw [hcap, hlen]
      exact hlong
    rw [decide_eq_false hdone, if_neg Bool.false_ne_true, Turned, ht]
    exact h.fits hres (not_lt.mp hlong) hsize content

/-- One turn either grows the address or ends the loop with the last answer. -/
theorem localAddressTurn_ends (h : Bounded M w.2 → Asking M (n + 1) (queries w.2) a) :
    Ends w (localAddressTurn fd a) fun t o => Bounded M t → Turned M n t o := by
  unfold localAddressTurn
  rw [Prog.bind_eq, Address.getsockname_offer_bind]
  refine Checked.call fun r _ => ⟨trivial, ?_⟩
  have htrace : queries (w.2 ++ [⟨.getsockname fd a.offer, r⟩]) =
      queries w.2 ++ [(a.offer, r)] := queries_append
  by_cases hres : r.res = -1
  · rw [Address.answered_failed hres]
    dsimp only
    rw [if_pos hres]
    apply Checked.ret.mpr
    intro hbound
    show Answered (queries (w.2 ++ [⟨.getsockname fd a.offer, r⟩])) _
    rw [htrace]
    exact (h hbound.append_left).failed hres
  · rw [Address.answered_taken hres]
    dsimp only
    rw [if_neg hres]
    have hlength : Bounded M (w.2 ++ [⟨.getsockname fd a.offer, r⟩]) →
        sizeofSockaddr ≤ r.name.length ∧ r.name.length ≤ M := by
      intro hbound
      refine hbound (a.offer, r) ?_ hres
      rw [htrace]
      exact List.mem_append_right _ (List.mem_singleton_self _)
    refine checked_resize_bind (fun _ => trivial) ?_ ?_
    · intro hsize hbound
      apply hsize
      rw [Address.taken_of_size_ne (h hbound.append_left).size]
      exact Or.inr (hlength hbound).1
    · intro hsize content
      apply Checked.ret.mpr
      rw [past_later, past_after]
      intro hbound
      apply (h hbound.append_left.append_left).turned hres (hlength hbound.append_left).2 hsize
      rw [queries_append, htrace, queries_growth, List.append_nil]

/-- **The loop.** With more turns than the longest address has bytes it ends with the
last answer, from any address of a capacity that a `socklen_t` holds. -/
theorem localAddressFd_ends {fuel : Nat} (hfuel : M < fuel) (hcap : a.capacity < 2 ^ 32)
    {t : Trace} {o : Except Stop (Address × ErrorCondition)} {w : Kernel}
    (hrun : (localAddressFd fuel fd a).Run Kernel.env w t o) (hbound : Bounded M t) :
    Answered (queries t) o := by
  have hends : Ends (w, []) (localAddressFd fuel fd a) fun t o =>
      Bounded M t → Answered (queries t) o := by
    apply checked_resize_bind (fun _ => trivial) (fun hn => absurd (Or.inr le_rfl) hn)
    intro hn content
    refine Checked.loop (I := fun n w b => Bounded M w.2 → Asking M n (queries w.2) b) ?_ ?_ ?_
    · intro n w' b hask
      apply (localAddressTurn_ends hask).mono
      intro w'' o ho
      match o, ho with
      | .ok (.inl b'), ho => exact ho
      | .ok (.inr c), ho => exact ho
      | .error e, ho => exact fun hbound => absurd (ho hbound) id
    · intro w' b hask hbound
      rcases (hask hbound).turns with ⟨_, hturns⟩ | ⟨hle, hturns⟩ <;> omega
    · intro _
      have hinline : c_sdoSize ≤ a.capacity := a.d_data.le_capacity
      have hafter : queries (Kernel.env.remembering.later (w, [])
          (a.growth sizeofSockaddr content)).2 = [] := by
        rw [past_later, List.nil_append, queries_growth]
      rw [hafter]
      refine ⟨?_, ?_, fun q hq => absurd hq List.not_mem_nil, .nil, Or.inl ⟨rfl, hfuel⟩⟩
      · rw [Address.size_resized]
        decide
      · rw [Address.capacity_resized]
        unfold c_sdoSize at hinline
        unfold sizeofSockaddr
        omega
  exact (Checked.remembered (P := fun _ _ => True) hends hrun).2 hbound

end Loop

/-- **The local address.** From any capacity below `2 ^ 32` and any content, and for any
lengths from that of a `sockaddr` to `M`, both functions return once `M` turns are spared,
every call is offered more than the one before, at most two are made while the length
stays the same, and what is returned is the last answer: its size and bytes, or an empty
address and its error. -/
theorem local_address_ends {M fuel : Nat} (hfuel : M < fuel) {w : Kernel} {t : Trace}
    (hbound : Bounded M t) :
    (∀ (this : ConnectedSocket) o, (this.local_address fuel).Run Kernel.env w t o →
      Asked (queries t) ∧ ∃ a e, o = .ok a ∧ LastAnswer (queries t) a e) ∧
    ∀ (this : PosixSocketBuffer) address o, address.capacity < 2 ^ 32 →
      (this.local_address fuel address).Run Kernel.env w t o →
        Asked (queries t) ∧ ∃ a e, o = .ok (a, e) ∧ LastAnswer (queries t) a e := by
  constructor
  · intro this o hrun
    have hcap : Address.init.capacity < 2 ^ 32 := by decide
    obtain ⟨u, v, b, rfl, hinner, hret⟩ | ⟨e, rfl, hinner⟩ := Prog.run_bind.mp hrun
    · obtain ⟨rfl, rfl⟩ := hret
      rw [List.append_nil] at hbound ⊢
      obtain ⟨hasked, a, e, ha, hlast⟩ := localAddressFd_ends hfuel hcap hinner hbound
      cases ha
      exact ⟨hasked, a, e, rfl, hlast⟩
    · obtain ⟨_, a, e', ha, _⟩ := localAddressFd_ends hfuel hcap hinner hbound
      cases ha
  · intro this address o hcap hrun
    exact localAddressFd_ends hfuel hcap hrun hbound

section Runs
variable {w : Kernel} {a : Address} {fd : Int} {r : Named}

/-- A turn whose call succeeds, as a run. -/
theorem localAddressTurn_run (hr : w.may (.getsockname fd a.offer) r) (hres : r.res ≠ -1)
    (hsize : SizeOk (a.taken r.name).2) (content : Nat → Byte)
    {x : Address ⊕ (Address × ErrorCondition)}
    (hx : (if decide ((a.taken r.name).2 > (a.taken r.name).1.capacity) then
      .inl ((a.taken r.name).1.resized (a.taken r.name).2 content hsize)
      else .inr ((a.taken r.name).1.resized (a.taken r.name).2 content hsize, {})) = x) :
    (localAddressTurn fd a).Run Kernel.env w
      (⟨.getsockname fd a.offer, r⟩ :: (a.taken r.name).1.growth (a.taken r.name).2 content)
      (.ok x) := by
  unfold localAddressTurn
  rw [Prog.bind_eq, Address.getsockname_offer_bind]
  refine ⟨r, _, rfl, hr, ?_⟩
  simp only [Address.answered_taken hres]
  rw [if_neg hres]
  exact (run_resize_bind hsize).mpr ⟨content, [], (List.append_nil _).symm, rfl,
    congrArg Except.ok hx.symm⟩

end Runs

section Long

/-- An answer with an address of 33 bytes: the 32 inline bytes do not do. -/
def longName : Named := ⟨⟨0, 0⟩, longPeer⟩

/-- The address that is asked with first. -/
def firstAddress : Address :=
  Address.init.resized sizeofSockaddr (fun _ => 0) (Or.inr le_rfl)

def secondAddress : Address :=
  (firstAddress.taken longName.name).1.resized 33 (fun _ => 0) (by decide)

theorem first_turn : (localAddressTurn 3 firstAddress).Run Kernel.env ⟨{3}, ∅⟩
    [⟨.getsockname 3 ⟨some 32, 32⟩, longName⟩, ⟨.new 33, fun _ => 0⟩]
    (.ok (.inl secondAddress)) := by
  have hlong : (firstAddress.taken longName.name).2 >
      (firstAddress.taken longName.name).1.capacity := by decide
  refine localAddressTurn_run (r := longName) (Or.inr ⟨rfl, by decide, Or.inl rfl⟩) (by decide)
    (by decide) (fun _ => 0) ?_
  rw [decide_eq_true hlong]
  rfl

theorem second_turn : (localAddressTurn 3 secondAddress).Run Kernel.env ⟨{3}, ∅⟩
    [⟨.getsockname 3 ⟨some 33, 33⟩, longName⟩] (.ok (.inr
      ((secondAddress.taken longName.name).1.resized 33 (fun _ => 0) (by decide), {}))) := by
  have hfits : ¬ (secondAddress.taken longName.name).2 >
      (secondAddress.taken longName.name).1.capacity := by decide
  refine localAddressTurn_run (r := longName) (Or.inr ⟨rfl, by decide, Or.inl rfl⟩) (by decide)
    (by decide) (fun _ => 0) ?_
  rw [decide_eq_false hfits]
  rfl

def longTrace : Trace :=
  [⟨.getsockname 3 ⟨some 32, 32⟩, longName⟩, ⟨.new 33, fun _ => 0⟩] ++
    [⟨.getsockname 3 ⟨some 33, 33⟩, longName⟩]

theorem long_run : ∃ o, (PosixSocketBuffer.local_address 34 ⟨3⟩ Address.init).Run Kernel.env
    ⟨{3}, ∅⟩ longTrace o := by
  have hloop : (Prog.loop .fuel (localAddressTurn 3) 34 firstAddress).Run Kernel.env ⟨{3}, ∅⟩
      longTrace _ := Prog.run_loop_again first_turn (Prog.run_loop_done second_turn)
  exact ⟨_, (run_resize_bind (Or.inr le_rfl)).mpr ⟨fun _ => 0, _, rfl, hloop⟩⟩

theorem local_address_ends_long : Asked (queries longTrace) := by
  obtain ⟨o, hrun⟩ := long_run
  have hbound : Bounded 33 longTrace := by
    intro q hq _
    have hname : q.2 = longName := by
      rcases List.mem_pair.mp hq with rfl | rfl <;> rfl
    rw [hname]
    decide
  exact ((local_address_ends (by decide) hbound).2 _ Address.init o (by decide) hrun).1

end Long

end Sydn.Net
