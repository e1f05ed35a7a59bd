import Sydn.Found.Interaction

/-!
# Runs that have not ended

What a program has done so far and what it has left to do. Where the environment always
has an answer, a run so far is the beginning of a whole one, so that what holds of all
whole runs can be said of each moment of them.
-/

namespace Sydn.Found.Interaction

variable {S : Interface} {ε α β W : Type}

namespace Prog

/-- `p`, started in `w`, may produce the events `t` and then go on as `q`. -/
inductive Leads (E : Env S W) : W → Prog S ε α → List (Event S) → Prog S ε α → Prop
  | refl {w : W} {p : Prog S ε α} : Leads E w p [] p
  | call {w : W} {c : S.Call} {next : S.Answer c → Prog S ε α} {r : S.Answer c}
      {t : List (Event S)} {q : Prog S ε α} :
      E.may w c r → Leads E (E.after w c r) (next r) t q →
        Leads E w (.call c next) (⟨c, r⟩ :: t) q

namespace Leads
variable {E : Env S W} {w : W} {p q : Prog S ε α} {t u : List (Event S)}

/-- One more call. -/
theorem snoc {c : S.Call} {next : S.Answer c → Prog S ε α} {r : S.Answer c}
    (h : Leads E w p t (.call c next)) (hr : E.may (E.later w t) c r) :
    Leads E w p (t ++ [⟨c, r⟩]) (next r) := by
  generalize hq : Prog.call c next = q at h
  induction h with
  | refl =>
    rw [← hq]
    exact .call hr .refl
  | call hmay _ ih => exact .call hmay (ih hr hq)

/-- A run of what is left completes the run. -/
theorem run {o : Except ε α} (h : Leads E w p t q) (hq : q.Run E (E.later w t) u o) :
    p.Run E w (t ++ u) o := by
  induction h with
  | refl => exact hq
  | call hmay _ ih => exact ⟨_, _, rfl, hmay, ih hq⟩

theorem run_ret {a : α} (h : Leads E w p t (.ret a)) : p.Run E w t (.ok a) := by
  have hrun := h.run (u := []) (o := .ok a) ⟨rfl, rfl⟩
  rw [List.append_nil] at hrun
  exact hrun

/-- A whole run is one so far. -/
theorem of_run {a : α} (h : p.Run E w t (.ok a)) : Leads E w p t (.ret a) := by
  induction p generalizing w t with
  | ret b =>
    obtain ⟨rfl, hb⟩ := h
    obtain rfl := Except.ok.inj hb
    exact .refl
  | stop e => cases h.2
  | call c next ih =>
    obtain ⟨r, u, rfl, hr, hnext⟩ := h
    exact .call hr (ih r hnext)

/-- A run of a sequence that has come to the second program. -/
theorem bind {a : α} {f : α → Prog S ε β} {q : Prog S ε β} (h : p.Run E w t (.ok a))
    (hf : Leads E (E.later w t) (f a) u q) : Leads E w (p.bind f) (t ++ u) q := by
  induction p generalizing w t with
  | ret b =>
    obtain ⟨rfl, hb⟩ := h
    obtain rfl := Except.ok.inj hb
    exact hf
  | stop e => cases h.2
  | call c next ih =>
    obtain ⟨r, v, rfl, hr, hnext⟩ := h
    exact .call hr (ih r hnext hf)

/-- A program that makes calls of one kind has made such calls, and goes on with them. -/
theorem uses {C : S.Call → Prop} (h : Leads E w p t q) (hp : p.Uses C) :
    (∀ e ∈ t, C e.call) ∧ q.Uses C := by
  induction h with
  | refl => exact ⟨nofun, hp⟩
  | call _ _ ih =>
    obtain ⟨ht, hq⟩ := ih (hp.2 _)
    exact ⟨List.forall_mem_cons.mpr ⟨hp.1, ht⟩, hq⟩

/-- The inversion at a call: it has not been made, or it is the first event. -/
theorem of_call {c : S.Call} {next : S.Answer c → Prog S ε α}
    (h : Leads E w (.call c next) t q) :
    (t = [] ∧ q = .call c next) ∨ ∃ r u, t = ⟨c, r⟩ :: u ∧ E.may w c r ∧
      Leads E (E.after w c r) (next r) u q := by
  cases h with
  | refl => exact Or.inl ⟨rfl, rfl⟩
  | call hr h => exact Or.inr ⟨_, _, rfl, hr, h⟩

/-- The inversion at a sequence: the first program is not done, or it has returned and
the second one is under way. -/
theorem of_bind {f : α → Prog S ε β} {q : Prog S ε β} (h : Leads E w (p.bind f) t q) :
    (∃ p', Leads E w p t p' ∧ q = p'.bind f) ∨
      ∃ u v a, t = u ++ v ∧ p.Run E w u (.ok a) ∧ Leads E (E.later w u) (f a) v q := by
  induction p generalizing w t with
  | ret a => exact Or.inr ⟨[], t, a, rfl, ⟨rfl, rfl⟩, h⟩
  | stop e =>
    cases h with
    | refl => exact Or.inl ⟨.stop e, .refl, rfl⟩
  | call c next ih =>
    obtain ⟨rfl, rfl⟩ | ⟨r, u, rfl, hr, h⟩ := h.of_call
    · exact Or.inl ⟨.call c next, .refl, rfl⟩
    · obtain ⟨p', hp', rfl⟩ | ⟨u₁, v, a, rfl, hrun, hv⟩ := ih r h
      · exact Or.inl ⟨p', .call hr hp', rfl⟩
      · exact Or.inr ⟨⟨c, r⟩ :: u₁, v, a, rfl, ⟨r, u₁, rfl, hr, hrun⟩, hv⟩

theorem of_ret {a : α} (h : Leads E w (.ret a) t q) : t = [] ∧ q = .ret a := by
  cases h with
  | refl => exact ⟨rfl, rfl⟩

theorem of_stop {e : ε} (h : Leads E w (.stop e) t q) : t = [] ∧ q = .stop e := by
  cases h with
  | refl => exact ⟨rfl, rfl⟩

end Leads
end Prog

/-- The environment always has an answer. -/
def Env.Answers (E : Env S W) : Prop := ∀ w c, ∃ r, E.may w c r

section Answers
variable {E : Env S W} {w : W} {p q : Prog S ε α} {t : List (Event S)}

theorem Env.Answers.exists_run (hE : E.Answers) (w : W) (p : Prog S ε α) :
    ∃ t o, p.Run E w t o := by
  induction p generalizing w with
  | ret a => exact ⟨[], .ok a, rfl, rfl⟩
  | stop e => exact ⟨[], .error e, rfl, rfl⟩
  | call c next ih =>
    obtain ⟨r, hr⟩ := hE w c
    obtain ⟨t, o, hrun⟩ := ih r (E.after w c r)
    exact ⟨⟨c, r⟩ :: t, o, r, t, rfl, hr, hrun⟩

/-- A run so far is the beginning of a whole run. -/
theorem Prog.Leads.extends (h : p.Leads E w t q) (hE : E.Answers) :
    ∃ u o, p.Run E w (t ++ u) o := by
  obtain ⟨u, o, hrun⟩ := hE.exists_run (E.later w t) q
  exact ⟨u, o, h.run hrun⟩

/-- What is checked of every call holds of the one that is made next. -/
theorem Checked.next {P : W → Event S → Prop} {Q : W → Except ε α → Prop} {c : S.Call}
    {next : S.Answer c → Prog S ε α} {r : S.Answer c} (h : Checked E P w p Q)
    (hE : E.Answers) (ht : p.Leads E w t (.call c next)) (hr : E.may (E.later w t) c r) :
    P (E.later w t) ⟨c, r⟩ := by
  obtain ⟨u, o, hrun⟩ := (ht.snoc hr).extends hE
  have halong := (h _ _ hrun).1
  rw [List.append_assoc, Env.along_append] at halong
  exact halong.2.1

/-- A program that has returned has left what was ensured of its end. -/
theorem Checked.ended {P : W → Event S → Prop} {Q : W → Except ε α → Prop} {a : α}
    (h : Checked E P w p Q) (ht : p.Leads E w t (.ret a)) : Q (E.later w t) (.ok a) :=
  (h _ _ ht.run_ret).2

end Answers

/-! ## Environments that answer in one way -/

/-- The environment as far as its answers meet `G`. -/
def Env.restrict (E : Env S W) (G : Event S → Prop) : Env S W where
  may w c r := E.may w c r ∧ G ⟨c, r⟩
  after := E.after

section Restrict
variable {E : Env S W} {G : Event S → Prop} {w : W} {p q : Prog S ε α} {t : List (Event S)}

theorem Env.along_iff_forall {P : Event S → Prop} :
    E.Along (fun _ e => P e) w t ↔ ∀ e ∈ t, P e := by
  induction t generalizing w with
  | nil => exact iff_of_true trivial nofun
  | cons e t ih => rw [Env.along_cons, ih, List.forall_mem_cons]

theorem Env.later_restrict : (E.restrict G).later w t = E.later w t := by
  induction t generalizing w with
  | nil => rfl
  | cons e t ih => exact ih

theorem Prog.run_restrict {o : Except ε α} :
    p.Run (E.restrict G) w t o ↔ p.Run E w t o ∧ ∀ e ∈ t, G e := by
  induction p generalizing w t with
  | ret a =>
    constructor
    · rintro ⟨rfl, rfl⟩
      exact ⟨⟨rfl, rfl⟩, nofun⟩
    · exact fun h => h.1
  | stop e =>
    constructor
    · rintro ⟨rfl, rfl⟩
      exact ⟨⟨rfl, rfl⟩, nofun⟩
    · exact fun h => h.1
  | call c next ih =>
    constructor
    · rintro ⟨r, u, rfl, hr, hnext⟩
      obtain ⟨hrun, hu⟩ := (ih r).mp hnext
      exact ⟨⟨r, u, rfl, hr.1, hrun⟩, List.forall_mem_cons.mpr ⟨hr.2, hu⟩⟩
    · rintro ⟨⟨r, u, rfl, hr, hrun⟩, hG⟩
      obtain ⟨he, hu⟩ := List.forall_mem_cons.mp hG
      exact ⟨r, u, rfl, ⟨hr, he⟩, (ih r).mpr ⟨hrun, hu⟩⟩

theorem Prog.Leads.restrict (h : p.Leads E w t q) (hG : ∀ e ∈ t, G e) :
    p.Leads (E.restrict G) w t q := by
  induction h with
  | refl => exact .refl
  | call hr _ ih =>
    obtain ⟨he, ht⟩ := List.forall_mem_cons.mp hG
    exact .call ⟨hr, he⟩ (ih ht)

/-- What is known of the runs with such answers. -/
theorem Checked.of_restrict {Q : W → Except ε α → Prop}
    (h : ∀ t o, p.Run E w t o → (∀ e ∈ t, G e) → Q (E.later w t) o) :
    Checked (E.restrict G) (fun _ _ => True) w p Q := by
  intro t o hrun
  obtain ⟨hrun, hG⟩ := Prog.run_restrict.mp hrun
  rw [Env.later_restrict]
  exact ⟨Env.along_iff_forall.mpr fun _ _ => trivial, h t o hrun hG⟩

end Restrict

/-- A program that has stopped has ended as is ensured. -/
theorem Checked.stopped {E : Env S W} {w : W} {p : Prog S ε α} {t : List (Event S)} {e : ε}
    {P : W → Event S → Prop} {Q : W → Except ε α → Prop} (h : Checked E P w p Q)
    (ht : p.Leads E w t (.stop e)) : Q (E.later w t) (.error e) := by
  have hrun := ht.run (u := []) (o := .error e) ⟨rfl, rfl⟩
  rw [List.append_nil] at hrun
  exact (h _ _ hrun).2

/-- What is checked of every call holds of those made so far. -/
theorem Checked.made {E : Env S W} {w : W} {p q : Prog S ε α} {t : List (Event S)}
    {P : W → Event S → Prop} {Q : W → Except ε α → Prop} (h : Checked E P w p Q)
    (hE : E.Answers) (ht : p.Leads E w t q) : E.Along P w t := by
  obtain ⟨u, o, hrun⟩ := ht.extends hE
  exact (E.along_append P w t u).mp (h _ _ hrun).1 |>.1

end Sydn.Found.Interaction
