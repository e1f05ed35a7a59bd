import Sydn.Mem.Account

/-!
# Copies and moves of `sdo` objects

What the four operations that take another object leave in both, in every
reachable state. A move allocates nothing: it copies inline bytes, which fit any
capacity, or exchanges the fields.
-/

namespace Sydn.Mem

open Sydn.Found.Transition

variable {N : Nat}

/-- Object `i` is alive and `bs` are its `size()` bytes. -/
def Machine.Shows (σ : Machine N) (i : Nat) (bs : List Byte) : Prop :=
  ∃ s, σ.objs i = some s ∧ s.d_size = bs.length ∧ s.contents σ.heap = some bs

section Bytes
variable {v w : Owned N}

theorem Owned.bytes_exchange {b : List Byte} (hb : w.block = some b) :
    (v.exchange w).bytes = w.bytes := by
  have hb' : (v.exchange w).block = some b := hb
  rw [Owned.bytes, Owned.bytes, Owned.storage, Owned.storage, hb, hb']
  rfl

end Bytes

namespace Sim
variable {σ σ' : Machine N} {V : Values N} {i j : Nat} {v w : Owned N}

theorem shows_iff (hs : Sim σ V) {bs : List Byte} :
    σ.Shows i bs ↔ ∃ v, V i = some v ∧ v.bytes = bs := by
  constructor
  · intro h
    obtain ⟨s, hsi, _, hbytes⟩ := h
    obtain ⟨v, hv, hr⟩ := hs.value hsi
    exact ⟨v, hv, Option.some.inj (hr.contents.symm.trans hbytes)⟩
  · intro h
    obtain ⟨v, hv, rfl⟩ := h
    obtain ⟨s, hsi, hr⟩ := hs.obj hv
    exact ⟨s, hsi, by rw [hr.size, Owned.length_bytes], hr.contents⟩

end Sim

/-! ## Copies -/

section Values
variable {V : Values N} {i j k : Nat} {v w : Owned N} {content : Nat → Byte}

theorem Values.copyAssign_self (hi : V i = some v) (hj : V j = some w) :
    V.copyAssign i j content i = some (v.copyAssign w content) := by
  simp only [Values.copyAssign, hi, hj, Function.update_self]

theorem Values.copyAssign_of_ne (hk : k ≠ i) : V.copyAssign i j content k = V k := by
  cases hi : V i with
  | none => simp only [Values.copyAssign, hi]
  | some v =>
    cases hj : V j with
    | none => simp only [Values.copyAssign, hi, hj]
    | some w =>
      simp only [Values.copyAssign, hi, hj]
      exact Function.update_of_ne hk _ _

theorem Values.create_of_ne (hk : k ≠ i) : V.create i k = V k := Function.update_of_ne hk _ _

theorem Values.on_of_ne {f : Owned N → Owned N} (hk : k ≠ i) : V.on i f k = V k :=
  Function.update_of_ne hk _ _

end Values

/-- The operations that change no object but the one they are called on: all but the moves. -/
def Op.Stays (i : Nat) (op : Op) : Prop :=
  op.this = i ∧ match op with
    | .moveAssign .. | .moveCreate .. => False
    | _ => True

/-- They leave the bytes of every other object as they are. -/
theorem Values.exec_of_ne {V : Values N} {op : Op} {i k : Nat} {content : Nat → Byte}
    (hop : op.Stays i) (hk : k ≠ i) : V.exec content op k = V k := by
  obtain ⟨rfl, hstays⟩ := hop
  cases op with
  | create i size =>
    exact (Values.on_of_ne hk).trans (Values.create_of_ne hk)
  | copyCreate i j => exact (Values.copyAssign_of_ne hk).trans (Values.create_of_ne hk)
  | moveCreate i j => exact hstays.elim
  | copyAssign i j => exact Values.copyAssign_of_ne hk
  | moveAssign i j => exact hstays.elim
  | resize i size => exact Values.on_of_ne hk
  | reserve i capacity => exact Values.on_of_ne hk
  | write i k b => exact Values.on_of_ne hk
  | destroy i => exact Function.update_of_ne hk _ _

/-- One operation on another object leaves what an object shows. -/
theorem shows_step {σ σ' : Machine N} {op : Op} {i k : Nat} {bs : List Byte}
    (h : (programs N).Reachable σ) (hshows : σ.Shows k bs) (hop : op.Stays i) (hk : k ≠ i)
    (hstep : (programs N).step σ op σ') : σ'.Shows k bs := by
  obtain ⟨V, hs⟩ := reachable_sim h
  obtain ⟨henabled, content, hret⟩ := hstep
  obtain ⟨σ₁, hret₁, hs₁, _⟩ := hs.exec op henabled content
  obtain rfl := Outcome.unique hret₁ hret
  rw [hs₁.shows_iff, Values.exec_of_ne hop hk]
  exact hs.shows_iff.mp hshows

theorem shows_run {σ σ' : Machine N} {i k : Nat} {bs : List Byte} (h : (programs N).Reachable σ)
    (hshows : σ.Shows k bs) (hk : k ≠ i)
    (hrun : Relation.ReflTransGen ((programs N).Steps (Op.Stays i)) σ σ') : σ'.Shows k bs := by
  refine (LTS.Reachable.keeps (P := fun σ => σ.Shows k bs) ?_ h hshows hrun).2
  intro s op s' hreach hP hop hstep
  exact shows_step hreach hP hop hk hstep

/-- What a copy leaves of the two objects. -/
theorem Values.exec_copies {V : Values N} {op : Op} {i j : Nat} {v w : Owned N}
    (hop : (op = .copyAssign i j ∧ V i = some v) ∨ (op = .copyCreate i j ∧ V i = none))
    (hj : V j = some w) (content : Nat → Byte) :
    (∃ v', V.exec content op i = some v' ∧ v'.bytes = w.bytes) ∧
      ∃ w', V.exec content op j = some w' ∧ w'.bytes = w.bytes := by
  rcases hop with ⟨rfl, hi⟩ | ⟨rfl, hi⟩
  · have hcopy : V.copyAssign i j content i = _ := Values.copyAssign_self hi hj
    refine ⟨⟨_, hcopy, Owned.bytes_copyAssign⟩, ?_⟩
    by_cases hji : j = i
    · subst hji
      exact ⟨_, hcopy, Owned.bytes_copyAssign⟩
    · exact ⟨w, (Values.copyAssign_of_ne hji).trans hj, rfl⟩
  · have hji := Sim.ne_of_none hi hj
    have hcreated : V.create i i = some (Owned.init N) := Function.update_self _ _ _
    have hother : V.create i j = some w := (Values.create_of_ne hji).trans hj
    refine ⟨⟨_, Values.copyAssign_self hcreated hother, Owned.bytes_copyAssign⟩, w, ?_, rfl⟩
    exact (Values.copyAssign_of_ne hji).trans hother

/-- The values of the objects that an assignment, or a creation from another object, is about. -/
theorem Sim.two_objects {σ : Machine N} {V : Values N} (hs : Sim σ V) {i j : Nat} {P Q : Prop}
    (hi : P ∧ σ.objs i ≠ none ∨ Q ∧ σ.objs i = none) (hj : σ.objs j ≠ none) :
    ∃ v w, (P ∧ V i = some v ∨ Q ∧ V i = none) ∧ V j = some w := by
  obtain ⟨w, hw⟩ := hs.alive hj
  rcases hi with ⟨hP, hi⟩ | ⟨hQ, hi⟩
  · obtain ⟨v, hv⟩ := hs.alive hi
    exact ⟨v, w, Or.inl ⟨hP, hv⟩, hw⟩
  · exact ⟨w, w, Or.inr ⟨hQ, hs.none_iff.mp hi⟩, hw⟩

/-- **Copies.** In every reachable state a copy has the size and bytes of the object it
was made of, which keeps its own; and where the two are distinct, no run of operations
on one of them other than moves reaches what the other shows. -/
theorem copies_independent {σ : Machine N} (h : (programs N).Reachable σ) {i j : Nat} {op : Op}
    (hop : op = .copyAssign i j ∨ op = .copyCreate i j) (henabled : op.Enabled σ)
    (content : Nat → Byte) :
    ∃ σ' bs, σ.exec (some content) op = .returned σ' ∧
      σ.Shows j bs ∧ σ'.Shows i bs ∧ σ'.Shows j bs ∧
      (i ≠ j → ∀ σ'',
        (Relation.ReflTransGen ((programs N).Steps (Op.Stays i)) σ' σ'' → σ''.Shows j bs) ∧
        (Relation.ReflTransGen ((programs N).Steps (Op.Stays j)) σ' σ'' → σ''.Shows i bs)) := by
  obtain ⟨V, hs⟩ := reachable_sim h
  obtain ⟨σ', hret, hs', _⟩ := hs.exec op henabled content
  have hstep : (programs N).step σ op σ' := ⟨henabled, content, hret⟩
  obtain ⟨v, w, hcase, hw⟩ : ∃ v w, ((op = .copyAssign i j ∧ V i = some v) ∨
      (op = .copyCreate i j ∧ V i = none)) ∧ V j = some w := by
    rcases hop with rfl | rfl
    · exact hs.two_objects (Or.inl ⟨rfl, henabled.1⟩) henabled.2
    · exact hs.two_objects (Or.inr ⟨rfl, henabled.1⟩) henabled.2
  obtain ⟨hcopy, hkept⟩ := Values.exec_copies hcase hw content
  have hthis : σ'.Shows i w.bytes := hs'.shows_iff.mpr hcopy
  have hother : σ'.Shows j w.bytes := hs'.shows_iff.mpr hkept
  refine ⟨σ', w.bytes, hret, hs.shows_iff.mpr ⟨w, hw, rfl⟩, hthis, hother, ?_⟩
  intro hij σ''
  have hreach : (programs N).Reachable σ' := .step h hstep
  exact ⟨shows_run hreach hother (Ne.symm hij), shows_run hreach hthis hij⟩

section Pair

/-- Two objects: seventeen bytes in a block and three inline. -/
theorem pair_reachable : ∃ σ : Machine 16, (programs 16).Reachable σ ∧
    σ.objs 0 ≠ none ∧ σ.objs 1 ≠ none ∧ σ.objs 2 = none := by
  have hfirst := reachable_exec (N := 16) (.init rfl) (.create 0 17) rfl (fun _ => 7) rfl
  have hsecond := reachable_exec hfirst (.create 1 3) rfl (fun _ => 7) rfl
  exact ⟨_, hsecond, Option.some_ne_none _, Option.some_ne_none _, rfl⟩

theorem copies_independent_pair : ∃ (σ' : Machine 16) (bs : List Byte),
    σ'.Shows 1 bs ∧ σ'.Shows 0 bs := by
  obtain ⟨σ, hreach, h0, h1, _⟩ := pair_reachable
  obtain ⟨σ', bs, _, _, hthis, hother, _⟩ :=
    copies_independent hreach (Or.inl rfl) ⟨h1, h0⟩ fun _ => 0
  exact ⟨σ', bs, hthis, hother⟩

end Pair

/-! ## Moves -/

namespace Machine
variable {σ σ' : Machine N} {i j : Nat} {s o : Sdo N}

/-- Where the bytes of the other object fit, a copy assignment does not ask for memory. -/
theorem copyAssign_fits (hs : σ.objs i = some s) (ho : σ.objs j = some o)
    (hfit : o.d_size ≤ s.d_capacity) (new new' : New) :
    σ.copyAssign i j new = σ.copyAssign i j new' := by
  simp only [copyAssign, ho, on_resize_fits hs hfit]

theorem on_store_next {bs : List Byte} {k : Nat} (hret : σ.on i (Sdo.store k bs) = .returned σ') :
    σ'.heap.next = σ.heap.next := by
  unfold on at hret
  split at hret
  · cases hret
  · split at hret
    · rename_i hstore
      cases hret
      exact (Sdo.store_keeps hstore).2
    · cases hret
    · cases hret

theorem copyAssign_next (hs : σ.objs i = some s) (ho : σ.objs j = some o)
    (hfit : o.d_size ≤ s.d_capacity) {new : New} (hret : σ.copyAssign i j new = .returned σ') :
    σ'.heap.next = σ.heap.next := by
  simp only [copyAssign, ho, on_resize_fits hs hfit, Outcome.bind] at hret
  split at hret
  · split at hret
    · cases hret
    · have hnext := on_store_next hret
      exact hnext
  · cases hret

end Machine

/-- The inline bytes fit any capacity, and nothing else is copied. -/
theorem Sim.move_fits {σ : Machine N} {V : Values N} (hs : Sim σ V) {i j : Nat} {s o : Sdo N}
    (hsi : σ.objs i = some s) (hoj : σ.objs j = some o) (hinline : o.d_capacity = N) :
    o.d_size ≤ s.d_capacity := by
  have hsize := (hs.object hoj).1
  have hcap := (hs.object hsi).2.1
  omega

/-- A move assignment ends alike whatever the allocator answers, and makes no block. -/
theorem Sim.moveAssign_quiet {σ : Machine N} {V : Values N} (hs : Sim σ V) {i j : Nat}
    (hi : σ.objs i ≠ none) (hj : σ.objs j ≠ none) (new new' : New) :
    σ.moveAssign i j new = σ.moveAssign i j new' ∧
      ∀ σ', σ.moveAssign i j new = .returned σ' → σ'.heap.next = σ.heap.next := by
  obtain ⟨s, hsi⟩ := Option.ne_none_iff_exists'.mp hi
  obtain ⟨o, hoj⟩ := Option.ne_none_iff_exists'.mp hj
  have hN : ¬ o.d_capacity < N := not_lt.mpr (hs.object hoj).2.1
  by_cases hinline : o.d_capacity = N
  · have hfit := hs.move_fits hsi hoj hinline
    simp only [Machine.moveAssign, hsi, hoj, if_neg hN, if_pos hinline]
    refine ⟨Machine.copyAssign_fits hsi hoj hfit new new', fun σ' hret => ?_⟩
    exact Machine.copyAssign_next hsi hoj hfit hret
  · simp only [Machine.moveAssign, hsi, hoj, if_neg hN, if_neg hinline, true_and]
    intro σ' hret
    cases hret
    rfl

/-- A move gives its target the bytes of the other object, which stays alive. -/
theorem Values.moveAssign_self {V : Values N} {i j : Nat} {v w : Owned N} (hi : V i = some v)
    (hj : V j = some w) (content : Nat → Byte) :
    (∃ v', V.moveAssign i j content i = some v' ∧ v'.bytes = w.bytes) ∧
      ∃ w', V.moveAssign i j content j = some w' := by
  cases hb : w.block with
  | none =>
    simp only [Values.moveAssign, hi, hj, hb, Function.update_self]
    refine ⟨⟨_, rfl, Owned.bytes_copyAssign⟩, ?_⟩
    by_cases hji : j = i
    · subst hji
      exact ⟨_, Function.update_self _ _ _⟩
    · exact ⟨w, (Function.update_of_ne hji _ _).trans hj⟩
  | some b =>
    simp only [Values.moveAssign, hi, hj, hb]
    refine ⟨?_, _, Function.update_self _ _ _⟩
    by_cases hij : i = j
    · subst hij
      obtain rfl := Option.some.inj (hi.symm.trans hj)
      exact ⟨_, Function.update_self _ _ _, Owned.bytes_exchange hb⟩
    · rw [Function.update_of_ne hij, Function.update_self]
      exact ⟨_, rfl, Owned.bytes_exchange hb⟩

theorem Values.exec_moves {V : Values N} {op : Op} {i j : Nat} {v w : Owned N}
    (hop : (op = .moveAssign i j ∧ V i = some v) ∨ (op = .moveCreate i j ∧ V i = none))
    (hj : V j = some w) (content : Nat → Byte) :
    (∃ v', V.exec content op i = some v' ∧ v'.bytes = w.bytes) ∧
      ∃ w', V.exec content op j = some w' := by
  rcases hop with ⟨rfl, hi⟩ | ⟨rfl, hi⟩
  · exact moveAssign_self hi hj content
  · have hji := Sim.ne_of_none hi hj
    exact moveAssign_self (Function.update_self _ _ _) ((create_of_ne hji).trans hj) content

/-- An operation that moves ends alike whatever the allocator answers. -/
theorem Sim.exec_moves_quiet {σ : Machine N} {V : Values N} (hs : Sim σ V) {i j : Nat} {op : Op}
    (hop : op = .moveAssign i j ∨ op = .moveCreate i j) (henabled : op.Enabled σ)
    (new new' : New) : σ.exec new op = σ.exec new' op ∧
      ∀ σ', σ.exec new op = .returned σ' → σ'.heap.next = σ.heap.next := by
  rcases hop with rfl | rfl
  · exact hs.moveAssign_quiet henabled.1 henabled.2 new new'
  · obtain ⟨hi, hj⟩ := henabled
    obtain ⟨w, hw⟩ := hs.alive hj
    have hji := ne_of_none (hs.none_iff.mp hi) hw
    have hthis : (σ.put i (some (Sdo.init N)) σ.heap).objs i ≠ none := by
      simp [Machine.put]
    have hother : (σ.put i (some (Sdo.init N)) σ.heap).objs j ≠ none := by
      simp only [Machine.put, Function.update_of_ne hji]
      exact hj
    obtain ⟨heq, hnext⟩ :=
      (hs.create (hs.none_iff.mp hi)).moveAssign_quiet hthis hother new new'
    constructor
    · simp only [Machine.exec, Machine.construct, hi, heq]
    · intro σ' hret
      simp only [Machine.exec, Machine.construct, hi] at hret
      split at hret
      · cases hret
      · exact hnext σ' hret

/-- **Moves.** In every reachable state a move gives its target the size and bytes of the
other object, asks for no memory, and leaves both, where they are distinct, with a size
below the capacity and no block in common; every operation is then defined again. -/
theorem move_transfers {σ : Machine N} (h : (programs N).Reachable σ) {i j : Nat} {op : Op}
    (hop : op = .moveAssign i j ∨ op = .moveCreate i j) (henabled : op.Enabled σ) :
    ∃ σ' bs, (∀ new, σ.exec new op = .returned σ') ∧ σ'.heap.next = σ.heap.next ∧
      σ.Shows j bs ∧ σ'.Shows i bs ∧
      (i ≠ j → (∀ k, k = i ∨ k = j → ∃ s, σ'.objs k = some s ∧
          s.d_size ≤ s.d_capacity ∧ N ≤ s.d_capacity) ∧
        ∀ p q, Owns σ' i p → Owns σ' j q → p ≠ q) ∧
      ∀ op' : Op, op'.Enabled σ' → ∀ content, ∃ σ'', σ'.exec (some content) op' = .returned σ'' := by
  obtain ⟨V, hs⟩ := reachable_sim h
  obtain ⟨σ', hret, hs', _⟩ := hs.exec op henabled fun _ => 0
  obtain ⟨v, w, hcase, hw⟩ : ∃ v w, ((op = .moveAssign i j ∧ V i = some v) ∨
      (op = .moveCreate i j ∧ V i = none)) ∧ V j = some w := by
    rcases hop with rfl | rfl
    · exact hs.two_objects (Or.inl ⟨rfl, henabled.1⟩) henabled.2
    · exact hs.two_objects (Or.inr ⟨rfl, henabled.1⟩) henabled.2
  obtain ⟨⟨v', hv', hbytes⟩, w', hw'⟩ := Values.exec_moves hcase hw fun _ => 0
  refine ⟨σ', w.bytes, ?_, ?_, hs.shows_iff.mpr ⟨w, hw, rfl⟩,
    hs'.shows_iff.mpr ⟨v', hv', hbytes⟩, ?_, ?_⟩
  · intro new
    rw [(hs.exec_moves_quiet hop henabled new (some fun _ => 0)).1]
    exact hret
  · exact (hs.exec_moves_quiet hop henabled _ none).2 σ' hret
  · intro hij
    constructor
    · intro k h
      obtain rfl | rfl := h
      · obtain ⟨s, hsk, _⟩ := hs'.obj hv'
        exact ⟨s, hsk, (hs'.object hsk).1, (hs'.object hsk).2.1⟩
      · obtain ⟨s, hsk, _⟩ := hs'.obj hw'
        exact ⟨s, hsk, (hs'.object hsk).1, (hs'.object hsk).2.1⟩
    · rintro p q hp hq rfl
      exact hij (hs'.balanced.unique i j p (hs'.owns_iff.mp hp) (hs'.owns_iff.mp hq))
  · intro op' henabled' content
    obtain ⟨σ'', hret', _⟩ := hs'.exec op' henabled' content
    exact ⟨σ'', hret'⟩

theorem move_transfers_pair : ∃ (σ σ' : Machine 16) (bs : List Byte),
    σ.Shows 0 bs ∧ σ'.Shows 2 bs ∧ σ'.heap.next = σ.heap.next := by
  obtain ⟨σ, hreach, h0, _, h2⟩ := pair_reachable
  obtain ⟨σ', bs, _, hnext, hother, hthis, _⟩ := move_transfers hreach (Or.inr rfl) ⟨h2, h0⟩
  exact ⟨σ, σ', bs, hother, hthis, hnext⟩

end Sydn.Mem
