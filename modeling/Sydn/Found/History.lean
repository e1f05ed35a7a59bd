import Sydn.Found.Interaction

/-!
# Runs that remember their events

An environment that keeps, beside its own state, the events so far. Remembering does
not change which runs there are, so a rule about single calls may speak of all that
happened before them.
-/

namespace Sydn.Found.Interaction

variable {S : Interface} {ε α W : Type}

/-- The environment with the events so far, the latest one last. -/
def Env.remembering (E : Env S W) : Env S (W × List (Event S)) where
  may w c r := E.may w.1 c r
  after w c r := (E.after w.1 c r, w.2 ++ [⟨c, r⟩])

/-- `P` holds of each event of the list and those before it. -/
def AtEach (P : List (Event S) → Event S → Prop) (t : List (Event S)) : Prop :=
  ∀ u e v, t = u ++ e :: v → P u e

variable {E : Env S W} {w : W} {past t : List (Event S)}

theorem run_remembering {p : Prog S ε α} {o : Except ε α} :
    p.Run E.remembering (w, past) t o ↔ p.Run E w t o := by
  induction p generalizing w past t with
  | ret a => exact Iff.rfl
  | stop e => exact Iff.rfl
  | call c next ih =>
    constructor
    · intro h
      obtain ⟨r, u, rfl, hr, hrun⟩ := h
      exact ⟨r, u, rfl, hr, (ih r).mp hrun⟩
    · intro h
      obtain ⟨r, u, rfl, hr, hrun⟩ := h
      exact ⟨r, u, rfl, hr, (ih r).mpr hrun⟩

theorem later_remembering : E.remembering.later (w, past) t = (E.later w t, past ++ t) := by
  induction t generalizing w past with
  | nil => rw [Env.later_nil, Env.later_nil, List.append_nil]
  | cons e t ih =>
    apply ih.trans
    rw [Env.later_cons, List.append_assoc]
    rfl

theorem past_after {w : W × List (Event S)} {c : S.Call} {r : S.Answer c} :
    (E.remembering.after w c r).2 = w.2 ++ [⟨c, r⟩] := rfl

theorem past_later {w : W × List (Event S)} : (E.remembering.later w t).2 = w.2 ++ t :=
  congrArg Prod.snd later_remembering

theorem along_remembering {P : List (Event S) → Event S → Prop} :
    E.remembering.Along (fun w e => P w.2 e) (w, past) t ↔ AtEach (fun u => P (past ++ u)) t := by
  induction t generalizing w past with
  | nil =>
    apply iff_of_true trivial
    intro u e v ht
    cases u <;> cases ht
  | cons e t ih =>
    rw [Env.along_cons]
    have hrest : E.remembering.Along (fun w e => P w.2 e)
        (E.remembering.after (w, past) e.call e.answer) t ↔
          AtEach (fun u => P (past ++ e :: u)) t := by
      apply ih.trans
      simp only [List.append_assoc, List.singleton_append]
    rw [hrest]
    constructor
    · rintro ⟨hfirst, hlater⟩ u e' v ht
      cases u with
      | nil =>
        obtain ⟨rfl, rfl⟩ := List.cons.inj ht
        rw [List.append_nil]
        exact hfirst
      | cons e'' u =>
        obtain ⟨rfl, rfl⟩ := List.cons.inj ht
        exact hlater u e' v rfl
    · intro h
      constructor
      · have hfirst : P (past ++ []) e := h [] e t rfl
        rw [List.append_nil] at hfirst
        exact hfirst
      · intro u e' v ht
        exact h (e :: u) e' v (by rw [ht]; rfl)

/-- What is checked with the past in sight holds of the runs themselves. -/
theorem Checked.remembered {P : List (Event S) → Event S → Prop} {p : Prog S ε α}
    {Q : W × List (Event S) → Except ε α → Prop} {o : Except ε α}
    (h : Checked E.remembering (fun w e => P w.2 e) (w, []) p Q) (hrun : p.Run E w t o) :
    AtEach P t ∧ Q (E.later w t, t) o := by
  obtain ⟨halong, hend⟩ := h t o (run_remembering.mpr hrun)
  rw [later_remembering] at hend
  exact ⟨along_remembering.mp halong, hend⟩

end Sydn.Found.Interaction
