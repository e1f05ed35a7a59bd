import Mathlib.Logic.Equiv.Defs
import Sydn.Found.Partial

/-!
# Programs inside a larger interface

A program that makes calls of one kind is a program over any interface that has these
calls beside others. Where the larger environment answers them as the smaller one does,
the runs are the same, and what is known of the program is known of it there.
-/

namespace Sydn.Found.Interaction

variable {S T : Interface} {ε α W : Type}

/-- The calls of `S` as calls of `T`, with the same answers. -/
structure Inclusion (S T : Interface) where
  call : S.Call → T.Call
  answer : ∀ c, T.Answer (call c) ≃ S.Answer c

namespace Inclusion

def event (ι : Inclusion S T) (e : Event S) : Event T :=
  ⟨ι.call e.call, (ι.answer e.call).symm e.answer⟩

/-- The larger environment answers the calls of the smaller one as that does. -/
structure Extends (ι : Inclusion S T) (F : Env T W) (E : Env S W) : Prop where
  may_iff : ∀ w c r, F.may w (ι.call c) r ↔ E.may w c (ι.answer c r)
  after_eq : ∀ w c r, F.after w (ι.call c) r = E.after w c (ι.answer c r)

end Inclusion

/-- The same program, making its calls in `T`. -/
def Prog.within (ι : Inclusion S T) : Prog S ε α → Prog T ε α
  | .ret a => .ret a
  | .stop e => .stop e
  | .call c next => .call (ι.call c) fun r => (next (ι.answer c r)).within ι

section Within
variable {ι : Inclusion S T} {F : Env T W} {E : Env S W} {w : W} {p : Prog S ε α}

theorem Inclusion.Extends.after_event (h : ι.Extends F E) (w : W) (e : Event S) :
    F.after w (ι.event e).call (ι.event e).answer = E.after w e.call e.answer :=
  (h.after_eq w e.call _).trans (congrArg _ (Equiv.apply_symm_apply _ _))

theorem Inclusion.Extends.later (h : ι.Extends F E) (w : W) (u : List (Event S)) :
    F.later w (u.map ι.event) = E.later w u := by
  induction u generalizing w with
  | nil => rfl
  | cons e u ih =>
    rw [List.map_cons, Env.later_cons, Env.later_cons, h.after_event]
    exact ih _

theorem Inclusion.Extends.along (h : ι.Extends F E) {P : W → Event S → Prop}
    {P' : W → Event T → Prop} (hP : ∀ w e, P w e → P' w (ι.event e)) {u : List (Event S)}
    (hu : E.Along P w u) : F.Along P' w (u.map ι.event) := by
  induction u generalizing w with
  | nil => trivial
  | cons e u ih =>
    rw [List.map_cons, Env.along_cons, h.after_event]
    exact ⟨hP w e hu.1, ih hu.2⟩

theorem run_within (h : ι.Extends F E) {t : List (Event T)} {o : Except ε α} :
    (p.within ι).Run F w t o ↔ ∃ u, t = u.map ι.event ∧ p.Run E w u o := by
  induction p generalizing w t with
  | ret a =>
    constructor
    · intro hrun
      obtain ⟨rfl, rfl⟩ := hrun
      exact ⟨[], rfl, rfl, rfl⟩
    · intro hrun
      obtain ⟨_, rfl, rfl, rfl⟩ := hrun
      exact ⟨rfl, rfl⟩
  | stop e =>
    constructor
    · intro hrun
      obtain ⟨rfl, rfl⟩ := hrun
      exact ⟨[], rfl, rfl, rfl⟩
    · intro hrun
      obtain ⟨_, rfl, rfl, rfl⟩ := hrun
      exact ⟨rfl, rfl⟩
  | call c next ih =>
    constructor
    · intro hrun
      obtain ⟨r, v, rfl, hr, hnext⟩ := hrun
      rw [h.after_eq] at hnext
      obtain ⟨u, rfl, hrest⟩ := (ih _).mp hnext
      refine ⟨⟨c, ι.answer c r⟩ :: u, ?_, _, u, rfl, (h.may_iff w c r).mp hr, hrest⟩
      rw [List.map_cons, Inclusion.event, Equiv.symm_apply_apply]
    · intro hrun
      obtain ⟨_, rfl, r, u, rfl, hr, hnext⟩ := hrun
      have happly : ι.answer c ((ι.answer c).symm r) = r := Equiv.apply_symm_apply _ _
      refine ⟨(ι.answer c).symm r, u.map ι.event, rfl, ?_, ?_⟩
      · rw [h.may_iff, happly]
        exact hr
      · rw [h.after_eq]
        dsimp only
        rw [happly]
        exact (ih r).mpr ⟨u, rfl, hnext⟩

/-- A program under way in the larger environment is under way in its own. -/
theorem Prog.Leads.of_within (h : ι.Extends F E) {t : List (Event T)} {q : Prog T ε α}
    (hleads : (p.within ι).Leads F w t q) :
    ∃ u p', t = u.map ι.event ∧ q = p'.within ι ∧ p.Leads E w u p' := by
  induction p generalizing w t with
  | ret a =>
    obtain ⟨rfl, rfl⟩ := hleads.of_ret
    exact ⟨[], .ret a, rfl, rfl, .refl⟩
  | stop e =>
    obtain ⟨rfl, rfl⟩ := hleads.of_stop
    exact ⟨[], .stop e, rfl, rfl, .refl⟩
  | call c next ih =>
    obtain ⟨rfl, rfl⟩ | ⟨r, v, rfl, hr, hnext⟩ := hleads.of_call
    · exact ⟨[], .call c next, rfl, rfl, .refl⟩
    · rw [h.after_eq] at hnext
      obtain ⟨u, p', rfl, rfl, hu⟩ := ih _ hnext
      refine ⟨⟨c, ι.answer c r⟩ :: u, p', ?_, rfl, .call ((h.may_iff w c r).mp hr) hu⟩
      rw [List.map_cons, Inclusion.event, Equiv.symm_apply_apply]

/-- What is checked of a program is checked of it in the larger environment. -/
theorem Checked.within {P : W → Event S → Prop} {R : W → Event T → Prop}
    {Q : W → Except ε α → Prop} (h : Checked E P w p Q) (hF : ι.Extends F E)
    (hP : ∀ w e, P w e → R w (ι.event e)) : Checked F R w (p.within ι) Q := by
  intro t o hrun
  obtain ⟨u, rfl, hrun'⟩ := (run_within hF).mp hrun
  obtain ⟨halong, hQ⟩ := h u o hrun'
  rw [hF.later]
  exact ⟨hF.along hP halong, hQ⟩

theorem Prog.uses_within {C : S.Call → Prop} {C' : T.Call → Prop}
    (hC : ∀ c, C c → C' (ι.call c)) (hp : p.Uses C) : (p.within ι).Uses C' := by
  induction p with
  | ret a => trivial
  | stop e => trivial
  | call c next ih => exact ⟨hC c hp.1, fun r => ih _ (hp.2 _)⟩

end Within

end Sydn.Found.Interaction
