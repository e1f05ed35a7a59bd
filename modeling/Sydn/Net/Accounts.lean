import Sydn.Net.Accepting

/-!
# The account of descriptors over whole programs

In every reachable state the open descriptors are those the objects hold, each
held once, and only its holder closes it, as long as no operation breaks the
account: a `listen` of an object that holds a descriptor, or a copy of one.
-/

namespace Sydn.Net

open Sydn.Found.Interaction
open Sydn.Found.Ownership
open Sydn.Found.Transition

namespace Op

/-- What programs over `posix_socket_buffer` objects do. -/
def OnPosix : Op → Prop
  | .posix _ | .connect .. | .listen .. | .accept .. | .acceptWithAddress .. | .destroy _
  | .elsewhere _ => True
  | _ => False

/-- What programs over `connected_socket` and `listen_socket` objects do. -/
def OnSockets : Op → Prop
  | .connected _ | .listening .. | .connect .. | .importFd .. | .accept ..
  | .acceptWithAddress .. | .destroy _ | .elsewhere _ => True
  | _ => False

theorem OnPosix.not_copies {op : Op} (h : op.OnPosix) : ¬ op.Copies := by
  cases op <;> first | exact id | exact h.elim

theorem OnSockets.not_copies {op : Op} (h : op.OnSockets) : ¬ op.Copies := by
  cases op <;> first | exact id | exact h.elim

end Op

/-- A `listen` finds no descriptor in its object. -/
def ListensFresh (objs : Objs) (op : Op) : Prop :=
  ∀ i type a, op = .listen i type a → heldBy objs i = none

/-- A copy is made of an object that holds none, and an assignment of one object to
itself or between objects that hold none. -/
def CopiesNothing (objs : Objs) (op : Op) : Prop :=
  (∀ i j, op = .copyCreate i j → heldBy objs j = none) ∧
    ∀ i j, op = .copyAssign i j → i = j ∨ (heldBy objs i = none ∧ heldBy objs j = none)

namespace System
variable {σ : System} {op : Op} {t : Trace} {o : Except Stop Objs}

/-- Whatever the operation and however it ends, it closes nothing but the descriptor
its target holds, and that one only while it is open. -/
theorem Does.closes (h : σ.Does op t o) (hx : Exclusive σ.kernel.opened (heldBy σ.objs)) :
    Kernel.env.Along (ClosesOnly (heldBy σ.objs op.target)) (op.enter σ.kernel) t := by
  obtain ⟨hallowed, q, hq, hrun⟩ := h
  cases op with
  | listen i type a => exact (listen_overwrites _ hq t o hrun).1
  | copyCreate i j => exact (Op.exec_copies _ (Or.inl rfl) hq t o hrun).1
  | copyAssign i j => exact (Op.exec_copies _ (Or.inr rfl) hq t o hrun).1
  | _ => exact (Op.exec_settles hx hallowed id nofun hq t o hrun).1

theorem Does.settles {objs : Objs} (h : σ.Does op t (.ok objs))
    (hx : Exclusive σ.kernel.opened (heldBy σ.objs)) (hcopies : ¬ op.Copies)
    (hfresh : ListensFresh σ.objs op) :
    Settled op.target σ.objs objs σ.kernel (σ.next op t objs).kernel := by
  obtain ⟨hallowed, q, hq, hrun⟩ := h
  by_cases hlisten : ∃ i type a, op = .listen i type a
  · obtain ⟨i, type, a, rfl⟩ := hlisten
    exact ((listen_overwrites none hq t _ hrun).2 objs rfl).settled hx (hfresh i type a rfl)
  · have hother : ∀ i type a, op ≠ .listen i type a := by
      intro i type a heq
      exact hlisten ⟨i, type, a, heq⟩
    exact (Op.exec_settles hx hallowed hcopies hother hq t _ hrun).2 objs rfl

end System

/-- Without copies and without a `listen` over a held descriptor, the account balances. -/
theorem reachable_balanced {C : System → Op → Prop}
    (hC : ∀ σ op, C σ op → ¬ op.Copies ∧ ListensFresh σ.objs op) {σ : System}
    (h : (programs.restrict C).Reachable σ) : Balanced σ.kernel.opened (heldBy σ.objs) := by
  refine LTS.Reachable.invariant (P := fun σ => Balanced σ.kernel.opened (heldBy σ.objs)) ?_ ?_ h
  · intro σ h
    obtain ⟨hnone, hopened⟩ := h
    have hheld : heldBy σ.objs = fun _ => none := funext fun i => heldBy_of_none (hnone i)
    rw [hopened, hheld]
    exact balanced_empty
  · intro σ op σ' _ hb h
    obtain ⟨hcond, t, objs, hdoes, rfl⟩ := h
    obtain ⟨hcopies, hfresh⟩ := hC σ op hcond
    exact (hdoes.settles hb.toExclusive hcopies hfresh).balanced hb

/-- **Descriptors of `posix_socket_buffer`.** While no `listen` is called on an object
that holds a descriptor, the open descriptors are those the objects hold, each held
once, and none is left when no object is; every call of every operation closes only
what is open; and an operation keeps the account exactly when it is not such a `listen`. -/
theorem posix_account {σ : System}
    (h : (programs.restrict fun σ op => op.OnPosix ∧ ListensFresh σ.objs op).Reachable σ) :
    (∀ fd, fd ∈ σ.kernel.opened ↔ ∃ i, heldBy σ.objs i = some fd) ∧
    (∀ i j fd, heldBy σ.objs i = some fd → heldBy σ.objs j = some fd → i = j) ∧
    ((∀ i, σ.objs i = none) → σ.kernel.opened = ∅) ∧
    ∀ op t o, op.OnPosix → σ.Does op t o →
      Kernel.env.Along (fun w e => ∀ fd, e.call = .close fd → fd ∈ w.opened)
        (op.enter σ.kernel) t ∧
      ∀ objs, o = .ok objs →
        (Balanced (σ.next op t objs).kernel.opened (heldBy objs) ↔ ListensFresh σ.objs op) := by
  have hb := reachable_balanced (fun _ _ hcond => ⟨hcond.1.not_copies, hcond.2⟩) h
  refine ⟨hb.mem_iff, hb.unique, ?_, ?_⟩
  · intro hnone
    exact hb.nothing_open fun i => heldBy_of_none (hnone i)
  · intro op t o hop hdoes
    constructor
    · have hcloses := hdoes.closes hb.toExclusive
      exact Env.Along.mono _ hcloses fun w e hclose fd hfd => (hclose fd hfd).2
    · rintro objs rfl
      refine ⟨fun hb' => ?_, fun hfresh => ?_⟩
      · rintro i type a rfl
        by_contra hheld
        obtain ⟨fd, hfd⟩ := Option.ne_none_iff_exists'.mp hheld
        obtain ⟨_, q, hq, hrun⟩ := hdoes
        have hover := (listen_overwrites none hq t _ hrun).2 objs rfl
        obtain ⟨hopen, hnobody⟩ := hover.leaks hb.toExclusive hfd
        obtain ⟨j, hj⟩ := hb'.no_leak fd hopen
        exact hnobody j hj
      · exact (hdoes.settles hb.toExclusive hop.not_copies hfresh).balanced hb

section Listen

/-- One `posix_socket_buffer` that listens with descriptor `fd`. -/
def listening (fd : Int) (opened : Set Int) : System :=
  ⟨Function.update (fun _ => none) 0 (some (.posix ⟨fd⟩)), ⟨opened, ∅⟩⟩

/-- A `listen` of an object, whether it holds a descriptor or not. -/
theorem listen_step (old fd : Int) (opened : Set Int) (hpos : 0 ≤ fd) (h : fd ∉ opened) :
    programs.step (listening old opened) (.listen 0 .Stream ipv4Address)
      (listening fd (insert fd opened)) := by
  have hfresh := fresh_of_not_mem hpos h
  have hfd : fd ≠ -1 := by omega
  refine ⟨listenTrace fd, Function.update (listening old opened).objs 0 (some (.posix ⟨fd⟩)),
    ⟨trivial, _, rfl, ?_⟩, ?_⟩
  · exact Prog.run_map.mpr ⟨.posix ⟨fd⟩,
      Prog.run_map.mpr ⟨(⟨fd⟩, {}), PosixSocketBuffer.listen_run ⟨old⟩ hfresh, rfl⟩, rfl⟩
  · unfold System.next listening
    rw [Function.update_idem]
    show _ = System.mk _ (Kernel.opening ⟨opened, ∅⟩ fd)
    rw [Kernel.opening, if_neg hfd]

theorem made_reachable {C : System → Op → Prop} (h : C ⟨fun _ => none, ⟨∅, ∅⟩⟩ (.posix 0)) :
    (programs.restrict C).Reachable (listening (-1) ∅) := by
  refine .step (.init ⟨fun _ => rfl, rfl⟩) (l := .posix 0) ⟨h, [], _, ?_, rfl⟩
  exact ⟨trivial, _, rfl, rfl, rfl⟩

theorem listen_reachable {C : System → Op → Prop} {old fd : Int} {opened : Set Int}
    (h : (programs.restrict C).Reachable (listening old opened))
    (hC : C (listening old opened) (.listen 0 .Stream ipv4Address)) (hpos : 0 ≤ fd)
    (hfresh : fd ∉ opened) :
    (programs.restrict C).Reachable (listening fd (insert fd opened)) :=
  .step h ⟨hC, listen_step old fd opened hpos hfresh⟩

theorem listening_reachable : (programs.restrict fun σ op =>
    op.OnPosix ∧ ListensFresh σ.objs op).Reachable (listening 3 (insert 3 ∅)) := by
  refine listen_reachable (made_reachable ⟨trivial, nofun⟩) ⟨trivial, ?_⟩ (by decide)
    (Set.notMem_empty 3)
  intro i type a heq
  cases heq
  rfl

theorem posix_account_listening : ∃ i, heldBy (listening 3 (insert 3 ∅)).objs i = some 3 :=
  ((posix_account listening_reachable).1 3).mp (Or.inl rfl)

/-- Two calls of `listen` on one object leave the first descriptor open. -/
theorem not_posix_account : ¬ ∀ σ, (programs.restrict fun _ op => op.OnPosix).Reachable σ →
    ∀ fd, fd ∈ σ.kernel.opened ↔ ∃ i, heldBy σ.objs i = some fd := by
  intro hclaim
  have hreach : (programs.restrict fun _ op => op.OnPosix).Reachable
      (listening 4 (insert 4 (insert 3 ∅))) := by
    refine listen_reachable (listen_reachable (made_reachable trivial) trivial ?_ ?_) trivial ?_ ?_
    · decide
    · exact Set.notMem_empty 3
    · decide
    · simp
  obtain ⟨i, hi⟩ := (hclaim _ hreach 3).mp (Or.inr (Or.inl rfl))
  by_cases hi0 : i = 0
  · subst hi0
    cases hi
  · unfold listening at hi
    rw [heldBy_update_of_ne hi0] at hi
    cases hi

end Listen

/-! ## A failed `accept` -/

section FailedAccept
variable {w : Kernel} {t : Trace} {r : Named}

theorem acceptFd_failed {fd target : Int} {a : Option ErrorCondition × Int}
    (hrun : (acceptFd fd target).Run Kernel.env w t (.ok a)) (hr : r ∈ accepts t)
    (hres : r.res = -1) : a.2 = target := by
  obtain ⟨r', _, ⟨_, _, hret⟩ | ⟨hres', rfl, _⟩⟩ := run_acceptFd.mp hrun
  · cases hret
    rfl
  · simp at hr
    rw [hr] at hres
    exact absurd hres hres'

theorem acceptAddressFd_failed {fd target : Int} {provisional : Nat} {again : Int → Int}
    {address : Address} {a : Option ErrorCondition × Int × Address} (h : SizeOk provisional)
    (hrun : (acceptAddressFd fd target provisional again address).Run Kernel.env w t (.ok a))
    (hr : r ∈ accepts t) (hres : r.res = -1) : a.2.1 = target := by
  obtain ⟨content, r', b, rfl, _, ⟨_, _, hret⟩ | ⟨hres', u, rfl, hend⟩⟩ :=
    (run_acceptAddressFd h).mp hrun
  · cases hret
    rfl
  · rcases hend with ⟨_, _, hstop⟩ | ⟨_, content', rfl, _⟩
    · cases hstop
    · simp at hr
      rw [hr] at hres
      exact absurd hres hres'

theorem Obj.accept_failed {x y : Obj} {p : Syscall (Obj × Obj)} {a : Obj × Obj}
    (hp : Obj.accept x y = some p) (hrun : p.Run Kernel.env w t (.ok a)) (hr : r ∈ accepts t)
    (hres : r.res = -1) : a.2.d_fd = y.d_fd := by
  match x, y, hp with
  | .listening s, .connected socket, hp =>
    cases hp
    obtain ⟨b, hmember, rfl⟩ := Prog.run_map.mp hrun
    obtain ⟨c, hbody, rfl⟩ := Prog.run_map.mp hmember
    exact acceptFd_failed hbody hr hres
  | .posix s, .posix socket, hp =>
    cases hp
    obtain ⟨b, hmember, rfl⟩ := Prog.run_map.mp hrun
    obtain ⟨c, hbody, rfl⟩ := Prog.run_map.mp hmember
    exact acceptFd_failed hbody hr hres

theorem Obj.acceptWithAddress_failed {x y : Obj} {same : Bool} {address : Address}
    {p : Syscall (Obj × Obj)} {a : Obj × Obj}
    (hp : Obj.acceptWithAddress same address x y = some p)
    (hrun : p.Run Kernel.env w t (.ok a)) (hr : r ∈ accepts t) (hres : r.res = -1) :
    a.2.d_fd = y.d_fd := by
  match x, y, hp with
  | .listening s, .connected socket, hp =>
    cases hp
    obtain ⟨b, hmember, rfl⟩ := Prog.run_map.mp hrun
    obtain ⟨c, hbody, rfl⟩ := Prog.run_map.mp hmember
    exact acceptAddressFd_failed s.d_local_address.size_ok hbody hr hres
  | .posix s, .posix socket, hp =>
    cases hp
    obtain ⟨b, hmember, rfl⟩ := Prog.run_map.mp hrun
    obtain ⟨c, hbody, rfl⟩ := Prog.run_map.mp hmember
    exact acceptAddressFd_failed (Or.inr le_rfl) hbody hr hres

theorem between_failed {objs objs' : Objs} {i j : Nat}
    {f : Obj → Obj → Option (Syscall (Obj × Obj))} {q : Syscall Objs}
    (hq : Op.between objs i j f = some q) (hrun : q.Run Kernel.env w t (.ok objs'))
    (hf : ∀ x y p a, f x y = some p → p.Run Kernel.env w t (.ok a) → a.2.d_fd = y.d_fd) :
    (objs' j).map Obj.d_fd = (objs j).map Obj.d_fd := by
  obtain ⟨x, _, hq⟩ := Option.bind_eq_some_iff.mp hq
  obtain ⟨y, hyj, hq⟩ := Option.bind_eq_some_iff.mp hq
  obtain ⟨p, hp, hq⟩ := Option.bind_eq_some_iff.mp hq
  cases hq
  obtain ⟨a, hcall, rfl⟩ := Prog.run_map.mp hrun
  rw [Function.update_self, hyj, Option.map_some, Option.map_some, hf x y p a hp hcall]

end FailedAccept

/-- One `connected_socket` with descriptor `fd`. -/
def connectedTo (fd : Int) (opened : Set Int) : System :=
  ⟨Function.update (fun _ => none) 0 (some (.connected ⟨fd⟩)), ⟨opened, ∅⟩⟩

theorem connected_reachable {C : System → Op → Prop}
    (hmake : C ⟨fun _ => none, ⟨∅, ∅⟩⟩ (.connected 0))
    (hconnect : C (connectedTo (-1) ∅) (.connect 0 .Stream ipv4Address Address.init)) :
    (programs.restrict C).Reachable (connectedTo 3 (insert 3 ∅)) := by
  have hmade : (programs.restrict C).Reachable (connectedTo (-1) ∅) := by
    refine .step (.init ⟨fun _ => rfl, rfl⟩) (l := .connected 0) ⟨hmake, [], _, ?_, rfl⟩
    exact ⟨trivial, _, rfl, rfl, rfl⟩
  have hfresh := fresh_of_not_mem (by decide) (Set.notMem_empty (3 : Int))
  refine .step hmade ⟨hconnect, connectTrace 3,
    Function.update (connectedTo (-1) ∅).objs 0 (some (.connected ⟨3⟩)), ⟨trivial, _, rfl, ?_⟩, ?_⟩
  · exact Prog.run_map.mpr ⟨.connected ⟨3⟩,
      Prog.run_map.mpr ⟨(⟨3⟩, {}), ConnectedSocket.connect_run hfresh, rfl⟩, rfl⟩
  · unfold System.next connectedTo
    rw [Function.update_idem]
    rfl

/-- **Descriptors of `connected_socket` and `listen_socket`.** In every reachable state
the open descriptors created or imported are those the objects hold, each held once;
whatever a further operation does, every close hits the open descriptor of the object
that closes; and an `accept` that fails leaves the descriptor of its target as it was. -/
theorem socket_account {σ : System}
    (h : (programs.restrict fun _ op => op.OnSockets).Reachable σ) :
    (∀ fd, fd ∈ σ.kernel.opened ↔ ∃ i, heldBy σ.objs i = some fd) ∧
    (∀ i j fd, heldBy σ.objs i = some fd → heldBy σ.objs j = some fd → i = j) ∧
    (∀ op t o, op.OnSockets → σ.Does op t o →
      Kernel.env.Along (fun w e => ∀ fd, e.call = .close fd →
        fd ∈ w.opened ∧ heldBy σ.objs op.target = some fd) (op.enter σ.kernel) t) ∧
    ∀ i j address op t objs, op = .accept i j ∨ op = .acceptWithAddress i j address →
      σ.Does op t (.ok objs) → ∀ r ∈ accepts t, r.res = -1 →
        (objs j).map Obj.d_fd = (σ.objs j).map Obj.d_fd := by
  have hb : Balanced σ.kernel.opened (heldBy σ.objs) := by
    refine reachable_balanced (fun σ op hop => ⟨hop.not_copies, ?_⟩) h
    rintro i type a rfl
    exact hop.elim
  refine ⟨hb.mem_iff, hb.unique, ?_, ?_⟩
  · intro op t o _ hdoes
    have hcloses := hdoes.closes hb.toExclusive
    exact Env.Along.mono _ hcloses fun w e hclose fd hfd => (hclose fd hfd).symm
  · intro i j address op t objs hop hdoes r hr hres
    obtain ⟨_, q, hq, hrun⟩ := hdoes
    rcases hop with rfl | rfl
    · exact between_failed hq hrun fun x y p a hp hrun => Obj.accept_failed hp hrun hr hres
    · exact between_failed hq hrun fun x y p a hp hrun =>
        Obj.acceptWithAddress_failed hp hrun hr hres

theorem socket_account_connected : ∃ i, heldBy (connectedTo 3 (insert 3 ∅)).objs i = some 3 :=
  ((socket_account (connected_reachable trivial trivial)).1 3).mp (Or.inl rfl)

/-- What an operation must leave of the descriptors: one owner for each, and none lost
by the object it assigns over. -/
def OwnedOnce (σ : System) (op : Op) (σ' : System) : Prop :=
  Exclusive σ'.kernel.opened (heldBy σ'.objs) ∧
    ∀ i j fd, op = .copyAssign i j → heldBy σ.objs i = some fd → fd ∈ σ'.kernel.opened →
      heldBy σ'.objs i = some fd

theorem System.Does.owned_iff {σ : System} {op : Op} {t : Trace} {objs : Objs}
    (h : σ.Does op t (.ok objs)) (hx : Exclusive σ.kernel.opened (heldBy σ.objs)) :
    OwnedOnce σ op (σ.next op t objs) ↔ CopiesNothing σ.objs op := by
  have hother : (¬ op.Copies) → Exclusive (σ.next op t objs).kernel.opened (heldBy objs) →
      (OwnedOnce σ op (σ.next op t objs) ↔ CopiesNothing σ.objs op) := by
    intro hcopies hx'
    refine iff_of_true ⟨hx', ?_⟩ ⟨?_, ?_⟩
    · rintro i j fd rfl
      exact absurd trivial hcopies
    · rintro i j rfl
      exact absurd trivial hcopies
    · rintro i j rfl
      exact absurd trivial hcopies
  cases op with
  | listen i type a =>
    obtain ⟨_, q, hq, hrun⟩ := h
    apply hother id
    exact ((listen_overwrites none hq t _ hrun).2 objs rfl).exclusive hx
  | copyCreate i j =>
    obtain ⟨_, q, hq, hrun⟩ := h
    have hnone : heldBy σ.objs i = none := by
      obtain ⟨y, _, hq⟩ := Option.bind_eq_some_iff.mp hq
      unfold Op.create at hq
      split at hq
      · cases hq
      · rename_i hi
        exact heldBy_of_none hi
    have hiff := ((Op.exec_copies none (Or.inl rfl) hq t _ hrun).2 objs rfl).exclusive_iff hx
    constructor
    · intro h
      obtain ⟨hx', _⟩ := h
      refine ⟨?_, nofun⟩
      intro k l heq
      cases heq
      rcases hiff.mp hx' with rfl | hj
      · exact hnone
      · exact hj
    · intro h
      obtain ⟨hj, _⟩ := h
      exact ⟨hiff.mpr (Or.inr (hj i j rfl)), nofun⟩
  | copyAssign i j =>
    obtain ⟨_, q, hq, hrun⟩ := h
    have hcopied := (Op.exec_copies none (Or.inr rfl) hq t _ hrun).2 objs rfl
    have hiff := hcopied.exclusive_iff hx
    constructor
    · intro h
      obtain ⟨hx', hlost⟩ := h
      refine ⟨nofun, ?_⟩
      intro k l heq
      cases heq
      rcases hiff.mp hx' with hij | hj
      · exact Or.inl hij
      · refine Or.inr ⟨?_, hj⟩
        by_contra hi
        obtain ⟨fd, hfd⟩ := Option.ne_none_iff_exists'.mp hi
        have hopen : fd ∈ (σ.next (.copyAssign i j) t objs).kernel.opened :=
          hcopied.opened ▸ hx.live i fd hfd
        have hheld : heldBy objs i = some fd := hlost i j fd rfl hfd hopen
        rw [hcopied.same, hj] at hheld
        cases hheld
    · intro h
      obtain ⟨_, hcond⟩ := h
      refine ⟨hiff.mpr ((hcond i j rfl).imp id And.right), ?_⟩
      intro k l fd heq hfd _
      cases heq
      rcases hcond i j rfl with rfl | ⟨hi, _⟩
      · exact hcopied.same.trans hfd
      · rw [hi] at hfd
        cases hfd
  | _ => exact hother id ((h.settles hx id nofun).exclusive hx)

/-- **One owner per descriptor.** While objects that hold a descriptor are not copied
or assigned over, no two objects hold the same one and what is held is open; a close
is by the only holder; and an operation leaves one owner per descriptor, losing none
that it assigns over, exactly when it copies none. -/
theorem single_owner {σ : System}
    (h : (programs.restrict fun σ op => CopiesNothing σ.objs op).Reachable σ) :
    Exclusive σ.kernel.opened (heldBy σ.objs) ∧
    ∀ op t o, σ.Does op t o →
      Kernel.env.Along (fun w e => ∀ fd, e.call = .close fd → fd ∈ w.opened ∧
        ∀ j, heldBy σ.objs j = some fd ↔ j = op.target) (op.enter σ.kernel) t ∧
      ∀ objs, o = .ok objs →
        (OwnedOnce σ op (σ.next op t objs) ↔ CopiesNothing σ.objs op) := by
  have hx : Exclusive σ.kernel.opened (heldBy σ.objs) := by
    refine LTS.Reachable.invariant (P := fun σ => Exclusive σ.kernel.opened (heldBy σ.objs))
      ?_ ?_ h
    · intro σ h
      obtain ⟨hnone, hopened⟩ := h
      have hheld : heldBy σ.objs = fun _ => none := funext fun i => heldBy_of_none (hnone i)
      rw [hopened, hheld]
      exact balanced_empty.toExclusive
    · intro σ op σ' _ hx h
      obtain ⟨hcond, t, objs, hdoes, rfl⟩ := h
      exact ((hdoes.owned_iff hx).mpr hcond).1
  refine ⟨hx, fun op t o hdoes => ⟨?_, ?_⟩⟩
  · apply Env.Along.mono _ (hdoes.closes hx)
    intro w e hclose fd hfd
    obtain ⟨hheld, hopen⟩ := hclose fd hfd
    refine ⟨hopen, fun j => ⟨fun hj => hx.unique j op.target fd hj hheld, ?_⟩⟩
    rintro rfl
    exact hheld
  · rintro objs rfl
    exact hdoes.owned_iff hx

theorem single_owner_connected :
    Exclusive (insert 3 ∅ : Set Int) (heldBy (connectedTo 3 (insert 3 ∅)).objs) :=
  (single_owner (connected_reachable ⟨nofun, nofun⟩ ⟨nofun, nofun⟩)).1

/-- A connected socket and its copy: both hold a descriptor that is open. -/
theorem not_single_owner : ¬ ∀ σ, programs.Reachable σ → ∀ i j fd, fd ∈ σ.kernel.opened →
    heldBy σ.objs i = some fd → heldBy σ.objs j = some fd → i = j := by
  intro hclaim
  have hreach : programs.Reachable (connectedTo 3 (insert 3 ∅)) :=
    (connected_reachable (C := fun _ _ => True) trivial trivial).of_restrict
  have hcopied : programs.Reachable ⟨Function.update (connectedTo 3 (insert 3 ∅)).objs 1
      (some (.connected ⟨3⟩)), ⟨insert 3 ∅, ∅⟩⟩ :=
    .step hreach (l := .copyCreate 1 0) ⟨[], _, ⟨trivial, _, rfl, rfl, rfl⟩, rfl⟩
  exact absurd (hclaim _ hcopied 0 1 3 (Set.mem_insert 3 ∅) rfl rfl) (by decide)

end Sydn.Net
