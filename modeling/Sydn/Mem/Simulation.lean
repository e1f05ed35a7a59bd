import Sydn.Mem.Refinement

/-!
# Every program over `sdo` objects is simulated on owned bytes

The relation carries the account of blocks, so that an operation on one object
cannot reach the bytes of another. It is kept by every operation whose objects
are alive, whatever new memory holds, and no such operation is undefined.
-/

namespace Sydn.Mem

open Sydn.Found.Ownership

variable {N : Nat}

/-- The block that object `i` owns. -/
def Machine.holds (σ : Machine N) (i : Nat) : Option Nat := (σ.objs i).bind Sdo.owned

structure Sim (σ : Machine N) (V : Values N) : Prop where
  rep : ∀ i, Option.Rel (Rep σ.heap) (σ.objs i) (V i)
  balanced : Balanced σ.heap.live σ.holds

theorem sim_empty : Sim (Machine.empty N) (fun _ => none) where
  rep := fun _ => Option.Rel.none
  balanced := by
    have hheld : (Machine.empty N).holds = fun _ => none := rfl
    have hlive : (Machine.empty N).heap.live = ∅ := Heap.live_empty
    rw [hheld, hlive]
    exact balanced_empty

namespace Sim
variable {σ : Machine N} {V : Values N} {i j : Nat} {s : Sdo N} {v w : Owned N}

theorem obj (hs : Sim σ V) (hi : V i = some v) : ∃ s, σ.objs i = some s ∧ Rep σ.heap s v := by
  have hr := hs.rep i
  rw [hi] at hr
  cases ho : σ.objs i with
  | none =>
    rw [ho] at hr
    cases hr
  | some s =>
    rw [ho] at hr
    cases hr with
    | some hrep => exact ⟨s, rfl, hrep⟩

theorem value (hs : Sim σ V) (hi : σ.objs i = some s) : ∃ v, V i = some v ∧ Rep σ.heap s v := by
  have hr := hs.rep i
  rw [hi] at hr
  cases hv : V i with
  | none =>
    rw [hv] at hr
    cases hr
  | some v =>
    rw [hv] at hr
    cases hr with
    | some hrep => exact ⟨v, rfl, hrep⟩

theorem none_iff (hs : Sim σ V) : σ.objs i = none ↔ V i = none := by
  have hr := hs.rep i
  constructor
  · intro ho
    rw [ho] at hr
    cases hv : V i with
    | none => rfl
    | some v => rw [hv] at hr; cases hr
  · intro hv
    rw [hv] at hr
    cases ho : σ.objs i with
    | none => rfl
    | some s => rw [ho] at hr; cases hr

theorem alive (hs : Sim σ V) (hi : σ.objs i ≠ none) : ∃ v, V i = some v :=
  Option.ne_none_iff_exists'.mp fun hv => hi (hs.none_iff.mpr hv)

theorem ne_of_none (hi : V i = none) (hj : V j = some w) : j ≠ i := by
  rintro rfl
  rw [hi] at hj
  cases hj

/-- One object changes, together with the block it owns. -/
theorem put (hs : Sim σ V) {h : Heap} {o : Option (Sdo N)} {x : Option (Owned N)}
    (hx : Exchanged σ.heap (σ.holds i) h (o.bind Sdo.owned)) (hrel : Option.Rel (Rep h) o x) :
    Sim (σ.put i o h) (Function.update V i x) := by
  have hfresh : ∀ p, o.bind Sdo.owned = some p → ∀ j, j ≠ i → σ.holds j ≠ some p := by
    intro p hp j hji hj
    rcases hx.fresh p hp with hold | hnot
    · exact hji (hs.balanced.unique j i p hj hold)
    · exact hnot (hs.balanced.live j p hj)
  constructor
  · intro j
    by_cases hji : j = i
    · subst hji
      simpa [Machine.put] using hrel
    · change Option.Rel (Rep h) (Function.update σ.objs i o j) (Function.update V i x j)
      rw [Function.update_of_ne hji, Function.update_of_ne hji]
      have hr := hs.rep j
      cases ho : σ.objs j with
      | none =>
        rw [ho] at hr
        cases hv : V j with
        | none => exact Option.Rel.none
        | some v => rw [hv] at hr; cases hr
      | some s =>
        obtain ⟨v, hv, hrep⟩ := hs.value ho
        rw [hv]
        refine Option.Rel.some (hrep.frame fun p hp => ?_)
        have hj : σ.holds j = some p := by rw [Machine.holds, ho, Option.bind_some, hp]
        exact hx.keep p (hs.balanced.live j p hj)
          fun hi => hji (hs.balanced.unique j i p hj hi)
  · have hheld : (σ.put i o h).holds = Function.update σ.holds i (o.bind Sdo.owned) := by
      funext j
      by_cases hji : j = i
      · subst hji
        simp [Machine.holds, Machine.put]
      · simp [Machine.holds, Machine.put, Function.update_of_ne hji]
    rw [hheld]
    change Balanced h.live _
    rw [hx.live]
    exact hs.balanced.replace hfresh

/-- A member function that does on one object what `v'` says. -/
theorem on (hs : Sim σ V) {f : Sdo N → Heap → Outcome (Sdo N × Heap)} {v' : Owned N}
    (hi : V i = some v)
    (hf : ∀ s, Rep σ.heap s v → ∃ s' h', f s σ.heap = .returned (s', h') ∧ Rep h' s' v' ∧
      Exchanged σ.heap s.owned h' s'.owned) :
    ∃ s s' h', σ.objs i = some s ∧ f s σ.heap = .returned (s', h') ∧
      σ.on i f = .returned (σ.put i (some s') h') ∧
      Sim (σ.put i (some s') h') (Function.update V i (some v')) ∧
      Exchanged σ.heap (σ.holds i) h' s'.owned := by
  obtain ⟨s, ho, hrep⟩ := hs.obj hi
  obtain ⟨s', h', hret, hrep', hx⟩ := hf s hrep
  have hheld : σ.holds i = s.owned := by rw [Machine.holds, ho, Option.bind_some]
  rw [← hheld] at hx
  refine ⟨s, s', h', ho, hret, ?_, hs.put hx (Option.Rel.some hrep'), hx⟩
  rw [Machine.on, ho]
  simp only [hret]

/-! ## The operations -/

/-- Every block released on the way from `σ` to `σ'` was held by object `i`. -/
def ReleasedBy (σ : Machine N) (i : Nat) (σ' : Machine N) : Prop :=
  ∀ p, p ∈ σ'.heap.released → p ∈ σ.heap.released ∨ σ.holds i = some p

theorem copyAssign (hs : Sim σ V) (hi : V i = some v) (hj : V j = some w) (content : Nat → Byte) :
    ∃ σ', σ.copyAssign i j (some content) = .returned σ' ∧ Sim σ' (V.copyAssign i j content) ∧
      ReleasedBy σ i σ' := by
  obtain ⟨o, hoj, hro⟩ := hs.obj hj
  obtain ⟨_, s₁, h₁, _, _, hret₁, hs₁, hx₁⟩ := hs.on hi fun s hr => hr.resize w.d_size content
  generalize hσ₁ : σ.put i (some s₁) h₁ = σ₁ at hret₁ hs₁
  have hheap₁ : σ₁.heap = h₁ := by rw [← hσ₁]; rfl
  -- where the two are one object its own size leaves it as it is
  have hj₁ : Function.update V i (some (v.resize w.d_size content)) j = some w := by
    by_cases hji : j = i
    · subst hji
      obtain rfl := Option.some.inj (hi.symm.trans hj)
      rw [Function.update_self, Owned.resize_self]
    · rw [Function.update_of_ne hji, hj]
  have hi₁ : Function.update V i (some (v.resize w.d_size content)) i =
      some (v.resize w.d_size content) := Function.update_self _ _ _
  obtain ⟨s₂, hs₂, hr₂⟩ := hs₁.obj hi₁
  obtain ⟨o₂, ho₂, hro₂⟩ := hs₁.obj hj₁
  have hload : o₂.load s₂.d_size σ₁.heap = some w.bytes := by
    rw [hr₂.size, Owned.size_resize, hro₂.load w.size_le_capacity, Owned.bytes]
  have hfit : 0 + w.bytes.length ≤ (v.resize w.d_size content).capacity := by
    rw [Owned.length_bytes, Owned.capacity_resize]
    omega
  obtain ⟨_, s₃, h₃, _, hstore, hret₃, hs₃, _⟩ := hs₁.on hi₁ fun s hr => hr.store hfit
  refine ⟨σ₁.put i (some s₃) h₃, ?_, ?_, ?_⟩
  · simp only [Machine.copyAssign, hoj, hro.size, hret₁, Outcome.bind, hs₂, ho₂, hload]
    exact hret₃
  · rw [Function.update_idem] at hs₃
    simpa only [Values.copyAssign, hi, hj, Owned.copyAssign] using hs₃
  · intro p hp
    have hp₁ : p ∈ h₁.released := by
      rw [← hheap₁, ← (Sdo.store_keeps hstore).1]
      exact hp
    exact hx₁.released p hp₁

theorem moveAssign (hs : Sim σ V) (hi : V i = some v) (hj : V j = some w) (content : Nat → Byte) :
    ∃ σ', σ.moveAssign i j (some content) = .returned σ' ∧ Sim σ' (V.moveAssign i j content) ∧
      ReleasedBy σ i σ' := by
  obtain ⟨s, hsi, hr⟩ := hs.obj hi
  obtain ⟨o, hoj, hro⟩ := hs.obj hj
  have hN : ¬ o.d_capacity < N := by
    rw [hro.capacity]
    exact not_lt.mpr w.le_capacity
  cases hb : w.block with
  | none =>
    have hcap : o.d_capacity = N := by rw [hro.capacity, Owned.capacity_of_inline hb]
    obtain ⟨σ', hret, hs', hrel⟩ := hs.copyAssign hi hj content
    refine ⟨σ', ?_, ?_, hrel⟩
    · simp only [Machine.moveAssign, hsi, hoj, if_neg hN, if_pos hcap, hret]
    · simpa only [Values.moveAssign, Values.copyAssign, hi, hj, hb] using hs'
  | some b =>
    have hcap : o.d_capacity ≠ N := by
      rw [hro.capacity, Owned.capacity_of_block hb]
      exact (w.lt_block b hb).ne'
    refine ⟨σ.swapFields i j s o, ?_, ⟨?_, ?_⟩, fun p hp => Or.inl hp⟩
    · simp only [Machine.moveAssign, hsi, hoj, if_neg hN, if_neg hcap]
    · intro k
      simp only [Values.moveAssign, hi, hj, hb]
      change Option.Rel (Rep σ.heap)
        (Function.update (Function.update σ.objs i _) j _ k)
        (Function.update (Function.update V i _) j _ k)
      by_cases hkj : k = j
      · subst hkj
        rw [Function.update_self, Function.update_self]
        exact Option.Rel.some (hro.exchange hr)
      · rw [Function.update_of_ne hkj, Function.update_of_ne hkj]
        by_cases hki : k = i
        · subst hki
          rw [Function.update_self, Function.update_self]
          exact Option.Rel.some (hr.exchange hro)
        · rw [Function.update_of_ne hki, Function.update_of_ne hki]
          exact hs.rep k
    · have hheld : (σ.swapFields i j s o).holds = σ.holds ∘ Equiv.swap i j := by
        funext k
        simp only [Function.comp, Machine.holds, Machine.swapFields, Machine.put]
        by_cases hkj : k = j
        · subst hkj
          rw [Function.update_self, Equiv.swap_apply_right, hsi, Option.bind_some,
            Option.bind_some, hro.owned_exchange hr]
        · rw [Function.update_of_ne hkj]
          by_cases hki : k = i
          · subst hki
            rw [Function.update_self, Equiv.swap_apply_left, hoj, Option.bind_some,
              Option.bind_some, hr.owned_exchange hro]
          · rw [Function.update_of_ne hki, Equiv.swap_apply_of_ne_of_ne hki hkj]
      rw [hheld]
      exact hs.balanced.swap i j

theorem destroy (hs : Sim σ V) (hi : V i = some v) :
    ∃ σ', σ.destroy i = .returned σ' ∧ Sim σ' (Function.update V i none) ∧ ReleasedBy σ i σ' := by
  obtain ⟨s, hsi, hr⟩ := hs.obj hi
  obtain ⟨h', hdel, hx⟩ := hr.deletePtr
  have hheld : σ.holds i = s.owned := by rw [Machine.holds, hsi, Option.bind_some]
  rw [← hheld] at hx
  refine ⟨σ.put i none h', ?_, hs.put hx Option.Rel.none, hx.released⟩
  simp only [Machine.destroy, hsi, hdel]

/-- The destroyed object is gone, and the block it owned is given back. -/
theorem destroy_gives (hs : Sim σ V) (hi : V i = some v) {σ' : Machine N}
    (hret : σ.destroy i = .returned σ') :
    σ'.objs i = none ∧ ∀ p, σ.holds i = some p → p ∈ σ'.heap.released := by
  obtain ⟨s, hsi, hr⟩ := hs.obj hi
  obtain ⟨h', hdel, hx⟩ := hr.deletePtr
  have hput : σ.destroy i = .returned (σ.put i none h') := by
    simp only [Machine.destroy, hsi, hdel]
  obtain rfl := Outcome.unique hput hret
  refine ⟨Function.update_self _ _ _, fun p hp => ?_⟩
  rw [Machine.holds, hsi, Option.bind_some] at hp
  exact (hx.given p hp).resolve_left nofun

/-- The member initialisers make an empty inline object. -/
theorem create (hs : Sim σ V) (hi : V i = none) :
    Sim (σ.put i (some (Sdo.init N)) σ.heap) (V.create i) := by
  refine hs.put ?_ (Option.Rel.some (rep_init σ.heap))
  have hnone : σ.objs i = none := hs.none_iff.mpr hi
  have hheld : σ.holds i = none := by rw [Machine.holds, hnone, Option.bind_none]
  have hown : (some (Sdo.init N)).bind Sdo.owned = none := by
    rw [Option.bind_some]
    exact (rep_init σ.heap).owned_inline rfl
  rw [hheld, hown]
  exact exchanged_refl (by simp)

/-- A constructor whose body runs as it should on the initialised object. -/
theorem construct (hs : Sim σ V) (hi : V i = none) {body : Machine N → Outcome (Machine N)}
    {V' : Values N}
    (hbody : ∀ σ₀, Sim σ₀ (V.create i) → ∃ σ', body σ₀ = .returned σ' ∧ Sim σ' V' ∧
      ReleasedBy σ₀ i σ') :
    ∃ σ', σ.construct i body = .returned σ' ∧ Sim σ' V' ∧ ReleasedBy σ i σ' := by
  have hnone : σ.objs i = none := hs.none_iff.mpr hi
  obtain ⟨σ', hret, hs', hrel⟩ := hbody _ (hs.create hi)
  refine ⟨σ', ?_, hs', ?_⟩
  · simp only [Machine.construct, hnone, hret]
  · intro p hp
    rcases hrel p hp with hold | hheld
    · exact Or.inl hold
    · have hown : (σ.put i (some (Sdo.init N)) σ.heap).holds i = none := by
        simp only [Machine.holds, Machine.put, Function.update_self, Option.bind_some]
        exact (rep_init σ.heap).owned_inline rfl
      rw [hown] at hheld
      cases hheld

/-- `Sim.on` in the form the operations need. -/
theorem member (hs : Sim σ V) {f : Sdo N → Heap → Outcome (Sdo N × Heap)} {g : Owned N → Owned N}
    (hi : V i = some v)
    (hf : ∀ s, Rep σ.heap s v → ∃ s' h', f s σ.heap = .returned (s', h') ∧ Rep h' s' (g v) ∧
      Exchanged σ.heap s.owned h' s'.owned) :
    ∃ σ', σ.on i f = .returned σ' ∧ Sim σ' (V.on i g) ∧ ReleasedBy σ i σ' := by
  obtain ⟨_, s', h', _, _, hret, hs', hx⟩ := hs.on hi hf
  refine ⟨_, hret, ?_, hx.released⟩
  simpa only [Values.on, hi, Option.map_some] using hs'

/-- **Simulation.** An operation whose objects are alive ends by returning, whatever
new memory holds, in the state that its counterpart on owned bytes describes. -/
theorem exec (hs : Sim σ V) (op : Op) (henabled : op.Enabled σ) (content : Nat → Byte) :
    ∃ σ', σ.exec (some content) op = .returned σ' ∧ Sim σ' (V.exec content op) ∧
      ReleasedBy σ op.this σ' := by
  cases op with
  | create i size =>
    have hi : V i = none := hs.none_iff.mp henabled
    exact hs.construct hi fun σ₀ hs₀ =>
      hs₀.member (Function.update_self _ _ _) fun s hr => hr.resize size content
  | copyCreate i j =>
    have hi : V i = none := hs.none_iff.mp henabled.1
    obtain ⟨w, hw⟩ := hs.alive henabled.2
    have hji := ne_of_none hi hw
    exact hs.construct hi fun σ₀ hs₀ =>
      hs₀.copyAssign (Function.update_self _ _ _)
        ((Function.update_of_ne hji _ _).trans hw) content
  | moveCreate i j =>
    have hi : V i = none := hs.none_iff.mp henabled.1
    obtain ⟨w, hw⟩ := hs.alive henabled.2
    have hji := ne_of_none hi hw
    exact hs.construct hi fun σ₀ hs₀ =>
      hs₀.moveAssign (Function.update_self _ _ _)
        ((Function.update_of_ne hji _ _).trans hw) content
  | copyAssign i j =>
    obtain ⟨v, hv⟩ := hs.alive henabled.1
    obtain ⟨w, hw⟩ := hs.alive henabled.2
    exact hs.copyAssign hv hw content
  | moveAssign i j =>
    obtain ⟨v, hv⟩ := hs.alive henabled.1
    obtain ⟨w, hw⟩ := hs.alive henabled.2
    exact hs.moveAssign hv hw content
  | resize i size =>
    obtain ⟨v, hv⟩ := hs.alive henabled
    exact hs.member hv fun s hr => hr.resize size content
  | reserve i capacity =>
    obtain ⟨v, hv⟩ := hs.alive henabled
    exact hs.member hv fun s hr => hr.reserve capacity content
  | write i k b =>
    obtain ⟨s, hsi, hk⟩ := henabled
    obtain ⟨v, hv, hr⟩ := hs.value hsi
    have hfit : k + [b].length ≤ v.capacity := by
      have hle := v.size_le_capacity
      rw [hr.size] at hk
      simp only [List.length_singleton]
      omega
    exact hs.member hv fun s hr => hr.store hfit
  | destroy i =>
    obtain ⟨v, hv⟩ := hs.alive henabled
    exact hs.destroy hv

end Sim
end Sydn.Mem
