import Mathlib.Data.Sum.Basic
import Sydn.Found.Inclusion

/-!
# Programs with the same runs

Two programs of one shape, over data that may differ: each run of the first is one of the
second, call by call, and the results are related. Where the relation is equality in both
directions, the environment cannot tell the programs apart.
-/

namespace Sydn.Found.Interaction

variable {S : Interface} {ε α β γ δ σ τ W : Type}

/-- Results that `R` relates, or the same stop. -/
def Related (R : α → β → Prop) : Except ε α → Except ε β → Prop
  | .ok a, .ok b => R a b
  | .error e, .error e' => e = e'
  | _, _ => False

/-- Every run of `p` is a run of `q` with a related result. -/
def Follows (E : Env S W) (w : W) (p : Prog S ε α) (q : Prog S ε β) (R : α → β → Prop) : Prop :=
  ∀ t o, p.Run E w t o → ∃ o', q.Run E w t o' ∧ Related R o o'

namespace Follows
variable {E : Env S W} {w : W} {R : α → β → Prop}

theorem ret {a : α} {b : β} (h : R a b) :
    Follows E w (.ret a : Prog S ε α) (.ret b) R := by
  intro t o hrun
  obtain ⟨rfl, rfl⟩ := hrun
  exact ⟨.ok b, ⟨rfl, rfl⟩, h⟩

theorem refl (p : Prog S ε α) : Follows E w p p Eq := by
  intro t o hrun
  refine ⟨o, hrun, ?_⟩
  cases o <;> rfl

theorem stop {e : ε} : Follows E w (.stop e) (.stop e) R := by
  intro t o hrun
  obtain ⟨rfl, rfl⟩ := hrun
  exact ⟨.error e, ⟨rfl, rfl⟩, rfl⟩

/-- The same call, with an answer that the environment may give. -/
theorem call {c : S.Call} {next : S.Answer c → Prog S ε α} {next' : S.Answer c → Prog S ε β}
    (h : ∀ r, E.may w c r → Follows E (E.after w c r) (next r) (next' r) R) :
    Follows E w (.call c next) (.call c next') R := by
  intro t o hrun
  obtain ⟨r, u, rfl, hr, hnext⟩ := hrun
  obtain ⟨o', hnext', ho⟩ := h r hr u o hnext
  exact ⟨o', ⟨r, u, rfl, hr, hnext'⟩, ho⟩

theorem bind {p : Prog S ε α} {q : Prog S ε β} {f : α → Prog S ε γ} {g : β → Prog S ε δ}
    {R' : γ → δ → Prop} (h : Follows E w p q R)
    (hf : ∀ w a b, R a b → Follows E w (f a) (g b) R') :
    Follows E w (p.bind f) (q.bind g) R' := by
  intro t o hrun
  obtain ⟨u, v, a, rfl, h₁, h₂⟩ | ⟨e, rfl, h₁⟩ := Prog.run_bind.mp hrun
  · obtain ⟨o₁, hq, ho₁⟩ := h u _ h₁
    cases o₁ with
    | error e => exact ho₁.elim
    | ok b =>
      obtain ⟨o', hg, ho⟩ := hf _ a b ho₁ v o h₂
      exact ⟨o', Prog.run_bind.mpr (Or.inl ⟨u, v, b, rfl, hq, hg⟩), ho⟩
  · obtain ⟨o₁, hq, ho₁⟩ := h t _ h₁
    cases o₁ with
    | ok b => exact ho₁.elim
    | error e' =>
      obtain rfl : e = e' := ho₁
      exact ⟨.error e, Prog.run_bind.mpr (Or.inr ⟨e, rfl, hq⟩), rfl⟩

/-- Programs that follow each other do so among the calls of a larger environment. -/
theorem within {T : Interface} {ι : Inclusion S T} {F : Env T W} {p : Prog S ε α}
    {q : Prog S ε β} (h : Follows E w p q R) (hF : ι.Extends F E) :
    Follows F w (p.within ι) (q.within ι) R := by
  intro t o hrun
  obtain ⟨u, rfl, hrun'⟩ := (run_within hF).mp hrun
  obtain ⟨o', hq, ho⟩ := h u o hrun'
  exact ⟨o', (run_within hF).mpr ⟨u, rfl, hq⟩, ho⟩

/-- A loop of which each turn follows, from states that `I` relates. -/
theorem loop {spent : ε} {body : σ → Prog S ε (σ ⊕ α)} {body' : τ → Prog S ε (τ ⊕ β)}
    {I : σ → τ → Prop}
    (hbody : ∀ w s s', I s s' → Follows E w (body s) (body' s') (Sum.LiftRel I R)) (n : Nat)
    {s : σ} {s' : τ} (h : I s s') :
    Follows E w (Prog.loop spent body n s) (Prog.loop spent body' n s') R := by
  induction n generalizing w s s' with
  | zero => exact stop
  | succ n ih =>
    refine bind (hbody w s s' h) ?_
    intro w x y hxy
    cases hxy with
    | inl hI => exact ih hI
    | inr hR => exact ret hR

/-- Programs that follow each other have the same runs. -/
theorem run_iff {p q : Prog S ε α} (hp : Follows E w p q Eq) (hq : Follows E w q p Eq)
    {t : List (Event S)} {o : Except ε α} : p.Run E w t o ↔ q.Run E w t o := by
  have hrel : ∀ o o' : Except ε α, Related Eq o o' → o' = o := by
    intro o o' h
    cases o <;> cases o' <;> first | exact h.elim | exact congrArg _ (Eq.symm h)
  constructor
  · intro hrun
    obtain ⟨o', hrun', ho⟩ := hp t o hrun
    rw [← hrel o o' ho]
    exact hrun'
  · intro hrun
    obtain ⟨o', hrun', ho⟩ := hq t o hrun
    rw [← hrel o o' ho]
    exact hrun'

end Follows

end Sydn.Found.Interaction
