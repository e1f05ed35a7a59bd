import Mathlib.Logic.Basic
import Mathlib.Data.List.Basic
import Mathlib.Tactic.Common

/-!
# Programs that call an environment

A program is a finite tree of calls, one branch for each answer the environment
may give, and ends by returning a value or by stopping early. The environment is
a state with a relation saying which answers it may give. A run is recorded as
the list of calls made with the answers they got; nothing here fixes a call set.
-/

namespace Sydn.Found.Interaction

/-- The calls a program may make and the type of answer each of them gets. -/
structure Interface where
  Call : Type
  Answer : Call → Type

/-- A program over an interface, with early stops in `ε` and results in `α`. -/
inductive Prog (S : Interface) (ε α : Type) where
  | ret (a : α)
  | stop (e : ε)
  | call (c : S.Call) (next : S.Answer c → Prog S ε α)

/-- One call together with the answer it got. -/
structure Event (S : Interface) where
  call : S.Call
  answer : S.Answer call

/-- What an environment in state `w` may answer, and the state it is left in. -/
structure Env (S : Interface) (W : Type) where
  may : W → (c : S.Call) → S.Answer c → Prop
  after : W → (c : S.Call) → S.Answer c → W

variable {S : Interface} {ε α β σ W : Type}

namespace Prog

def bind : Prog S ε α → (α → Prog S ε β) → Prog S ε β
  | .ret a, f => f a
  | .stop e, _ => .stop e
  | .call c next, f => .call c fun r => (next r).bind f

instance : Monad (Prog S ε) where
  pure := .ret
  bind := bind

/-- The program that makes one call and returns its answer. -/
def ask (c : S.Call) : Prog S ε (S.Answer c) := .call c .ret

/-- A loop with a bound on its repetitions; `spent` is the stop when they run out. -/
def loop (spent : ε) (body : σ → Prog S ε (σ ⊕ α)) : Nat → σ → Prog S ε α
  | 0, _ => .stop spent
  | n + 1, s => (body s).bind fun
      | .inl s' => loop spent body n s'
      | .inr a => .ret a

@[simp] theorem pure_eq (a : α) : (pure a : Prog S ε α) = .ret a := rfl

@[simp] theorem bind_eq (p : Prog S ε α) (f : α → Prog S ε β) : p >>= f = p.bind f := rfl

@[simp] theorem ret_bind (a : α) (f : α → Prog S ε β) : (ret a).bind f = f a := rfl

@[simp] theorem stop_bind (e : ε) (f : α → Prog S ε β) : (stop e).bind f = stop e := rfl

@[simp] theorem call_bind (c : S.Call) (next : S.Answer c → Prog S ε α) (f : α → Prog S ε β) :
    (call c next).bind f = .call c fun r => (next r).bind f := rfl

theorem bind_assoc {γ : Type} (p : Prog S ε α) (f : α → Prog S ε β) (g : β → Prog S ε γ) :
    (p.bind f).bind g = p.bind fun a => (f a).bind g := by
  induction p with
  | ret a => rfl
  | stop e => rfl
  | call c next ih =>
    simp only [call_bind]
    congr 1
    ext r
    exact ih r

@[simp] theorem bind_ret (p : Prog S ε α) : p.bind .ret = p := by
  induction p with
  | ret a => rfl
  | stop e => rfl
  | call c next ih =>
    simp only [call_bind]
    congr 1
    ext r
    exact ih r

@[simp] theorem ask_bind (c : S.Call) (f : S.Answer c → Prog S ε β) :
    (ask c).bind f = .call c f := rfl

end Prog

namespace Env

/-- The state after a list of events. -/
def later (E : Env S W) : W → List (Event S) → W
  | w, [] => w
  | w, e :: t => E.later (E.after w e.call e.answer) t

/-- `P` holds of every event, in the state the environment had when it happened. -/
def Along (E : Env S W) (P : W → Event S → Prop) : W → List (Event S) → Prop
  | _, [] => True
  | w, e :: t => P w e ∧ E.Along P (E.after w e.call e.answer) t

variable (E : Env S W)

@[simp] theorem later_nil (w : W) : E.later w [] = w := rfl

@[simp] theorem later_cons (w : W) (e : Event S) (t : List (Event S)) :
    E.later w (e :: t) = E.later (E.after w e.call e.answer) t := rfl

theorem later_append (w : W) (t u : List (Event S)) :
    E.later w (t ++ u) = E.later (E.later w t) u := by
  induction t generalizing w with
  | nil => rfl
  | cons e t ih => exact ih _

@[simp] theorem along_nil (P : W → Event S → Prop) (w : W) : E.Along P w [] := trivial

@[simp] theorem along_cons (P : W → Event S → Prop) (w : W) (e : Event S) (t : List (Event S)) :
    E.Along P w (e :: t) ↔ P w e ∧ E.Along P (E.after w e.call e.answer) t := Iff.rfl

theorem along_append (P : W → Event S → Prop) (w : W) (t u : List (Event S)) :
    E.Along P w (t ++ u) ↔ E.Along P w t ∧ E.Along P (E.later w t) u := by
  induction t generalizing w with
  | nil => simp
  | cons e t ih => simp only [List.cons_append, along_cons, ih, later_cons, and_assoc]

theorem Along.mono {P Q : W → Event S → Prop} {w : W} {t : List (Event S)} (h : E.Along P w t)
    (hPQ : ∀ w e, P w e → Q w e) : E.Along Q w t := by
  induction t generalizing w with
  | nil => trivial
  | cons e t ih => exact ⟨hPQ w e h.1, ih h.2⟩

end Env

namespace Prog

/-- `p`, started in `w`, may produce the events `t` and end with `o`. -/
def Run (E : Env S W) : W → Prog S ε α → List (Event S) → Except ε α → Prop
  | _, .ret a, t, o => t = [] ∧ o = .ok a
  | _, .stop e, t, o => t = [] ∧ o = .error e
  | w, .call c next, t, o =>
      ∃ r u, t = ⟨c, r⟩ :: u ∧ E.may w c r ∧ Run E (E.after w c r) (next r) u o

variable {E : Env S W} {w : W} {t : List (Event S)}

@[simp] theorem run_ret {a : α} {o : Except ε α} :
    Run E w (.ret a) t o ↔ t = [] ∧ o = .ok a := Iff.rfl

@[simp] theorem run_stop {e : ε} {o : Except ε α} :
    Run E w (.stop e) t o ↔ t = [] ∧ o = .error e := Iff.rfl

@[simp] theorem run_call {c : S.Call} {next : S.Answer c → Prog S ε α} {o : Except ε α} :
    Run E w (.call c next) t o ↔
      ∃ r u, t = ⟨c, r⟩ :: u ∧ E.may w c r ∧ Run E (E.after w c r) (next r) u o := Iff.rfl

/-- A run of a sequence is a run of the first program that stops, or one that
returns followed by a run of the second from the state reached. -/
theorem run_bind {p : Prog S ε α} {f : α → Prog S ε β} {o : Except ε β} :
    Run E w (p.bind f) t o ↔
      (∃ u v a, t = u ++ v ∧ Run E w p u (.ok a) ∧ Run E (E.later w u) (f a) v o) ∨
      (∃ e, o = .error e ∧ Run E w p t (.error e)) := by
  induction p generalizing w t with
  | ret a =>
    constructor
    · intro h
      exact Or.inl ⟨[], t, a, rfl, ⟨rfl, rfl⟩, h⟩
    · intro h
      obtain ⟨u, v, b, rfl, ⟨rfl, hb⟩, h⟩ | ⟨e, _, _, he⟩ := h
      · cases hb
        exact h
      · cases he
  | stop e =>
    constructor
    · intro h
      obtain ⟨rfl, rfl⟩ := h
      exact Or.inr ⟨e, rfl, rfl, rfl⟩
    · intro h
      obtain ⟨u, v, b, _, ⟨_, hb⟩, _⟩ | ⟨e', rfl, rfl, he⟩ := h
      · cases hb
      · cases he
        exact ⟨rfl, rfl⟩
  | call c next ih =>
    constructor
    · intro h
      obtain ⟨r, u, rfl, hr, h⟩ := h
      rcases (ih r).mp h with ⟨u₁, v, a, rfl, h₁, h₂⟩ | ⟨e, rfl, h₁⟩
      · exact Or.inl ⟨⟨c, r⟩ :: u₁, v, a, rfl, ⟨r, u₁, rfl, hr, h₁⟩, h₂⟩
      · exact Or.inr ⟨e, rfl, r, u, rfl, hr, h₁⟩
    · intro h
      obtain ⟨_, v, a, rfl, ⟨r, u, rfl, hr, h₁⟩, h₂⟩ | ⟨e, rfl, r, u, rfl, hr, h₁⟩ := h
      · exact ⟨r, u ++ v, rfl, hr, (ih r).mpr (Or.inl ⟨u, v, a, rfl, h₁, h₂⟩)⟩
      · exact ⟨r, u, rfl, hr, (ih r).mpr (Or.inr ⟨e, rfl, h₁⟩)⟩

/-- The returning runs of a program whose result is repackaged. -/
theorem run_map {p : Prog S ε α} {g : α → β} {b : β} :
    Run E w (p.bind fun a => .ret (g a)) t (.ok b) ↔ ∃ a, Run E w p t (.ok a) ∧ g a = b := by
  constructor
  · intro h
    obtain ⟨u, v, a, rfl, hrun, rfl, hb⟩ | ⟨e, he, _⟩ := run_bind.mp h
    · cases hb
      exact ⟨a, by rwa [List.append_nil], rfl⟩
    · cases he
  · intro h
    obtain ⟨a, hrun, rfl⟩ := h
    exact run_bind.mpr (Or.inl ⟨t, [], a, (List.append_nil t).symm, hrun, rfl, rfl⟩)

/-- All runs of such a program, those that do not return included. -/
theorem run_mapped {p : Prog S ε α} {g : α → β} {o : Except ε β} :
    Run E w (p.bind fun a => .ret (g a)) t o ↔ ∃ o', Run E w p t o' ∧ o = o'.map g := by
  cases o with
  | ok b =>
    rw [run_map]
    constructor
    · intro h
      obtain ⟨a, hrun, rfl⟩ := h
      exact ⟨.ok a, hrun, rfl⟩
    · intro h
      obtain ⟨o', hrun, ho⟩ := h
      cases o' with
      | ok a => exact ⟨a, hrun, (Except.ok.inj ho).symm⟩
      | error e => cases ho
  | error e =>
    constructor
    · intro h
      obtain ⟨_, v, a, _, _, hret⟩ | ⟨e', he, hrun⟩ := run_bind.mp h
      · cases hret.2
      · cases he
        exact ⟨.error e, hrun, rfl⟩
    · intro h
      obtain ⟨o', hrun, ho⟩ := h
      cases o' with
      | ok a => cases ho
      | error e' =>
        cases ho
        exact run_bind.mpr (Or.inr ⟨e, rfl, hrun⟩)

section Loop
variable {spent : ε} {body : σ → Prog S ε (σ ⊕ α)} {n : Nat} {s s' : σ} {u v : List (Event S)}

theorem run_loop_again {o : Except ε α} (hturn : Run E w (body s) u (.ok (.inl s')))
    (hrest : Run E (E.later w u) (loop spent body n s') v o) :
    Run E w (loop spent body (n + 1) s) (u ++ v) o :=
  run_bind.mpr (Or.inl ⟨u, v, _, rfl, hturn, hrest⟩)

theorem run_loop_done {a : α} (hturn : Run E w (body s) u (.ok (.inr a))) :
    Run E w (loop spent body (n + 1) s) u (.ok a) :=
  run_bind.mpr (Or.inl ⟨u, [], _, (List.append_nil u).symm, hturn, rfl, rfl⟩)

end Loop

end Prog

/-- Every run of `p` from `w` satisfies `Q`: the weakest precondition of `Q`. -/
def Ensures (E : Env S W) (w : W) (p : Prog S ε α)
    (Q : List (Event S) → Except ε α → Prop) : Prop :=
  ∀ t o, p.Run E w t o → Q t o

namespace Ensures

variable {E : Env S W} {w : W}

@[simp] theorem ret {a : α} {Q : List (Event S) → Except ε α → Prop} :
    Ensures E w (.ret a) Q ↔ Q [] (.ok a) := by
  constructor
  · intro h
    exact h _ _ ⟨rfl, rfl⟩
  · intro h _ _ h
    obtain ⟨rfl, rfl⟩ := h
    exact h

@[simp] theorem stop {e : ε} {Q : List (Event S) → Except ε α → Prop} :
    Ensures E w (.stop e : Prog S ε α) Q ↔ Q [] (.error e) := by
  constructor
  · intro h
    exact h _ _ ⟨rfl, rfl⟩
  · intro h _ _ h
    obtain ⟨rfl, rfl⟩ := h
    exact h

@[simp] theorem call {c : S.Call} {next : S.Answer c → Prog S ε α}
    {Q : List (Event S) → Except ε α → Prop} :
    Ensures E w (.call c next) Q ↔
      ∀ r, E.may w c r → Ensures E (E.after w c r) (next r) fun t o => Q (⟨c, r⟩ :: t) o := by
  constructor
  · intro h r hr t o ht
    exact h _ _ ⟨r, t, rfl, hr, ht⟩
  · intro h _ o h
    obtain ⟨r, t, rfl, hr, ht⟩ := h
    exact h r hr t o ht

/-- The rule of consequence. -/
theorem mono {p : Prog S ε α} {Q R : List (Event S) → Except ε α → Prop}
    (h : Ensures E w p Q) (hQR : ∀ t o, Q t o → R t o) : Ensures E w p R :=
  fun t o ht => hQR t o (h t o ht)

/-- Sequencing: what the first program ensures must lead the second to `Q`. -/
theorem bind {p : Prog S ε α} {f : α → Prog S ε β} {Q : List (Event S) → Except ε β → Prop}
    (h : Ensures E w p fun t o => match o with
      | .ok a => Ensures E (E.later w t) (f a) fun u o' => Q (t ++ u) o'
      | .error e => Q t (.error e)) : Ensures E w (p.bind f) Q := by
  intro t o ht
  rcases Prog.run_bind.mp ht with ⟨u, v, a, rfl, h₁, h₂⟩ | ⟨e, rfl, h₁⟩
  · exact h u _ h₁ v o h₂
  · exact h t _ h₁

end Ensures

/-- Every call made in a run of `p` from `w` meets `P` when it is made, and every
run leaves a state and an outcome that satisfy `Q`. -/
def Checked (E : Env S W) (P : W → Event S → Prop) (w : W) (p : Prog S ε α)
    (Q : W → Except ε α → Prop) : Prop :=
  Ensures E w p fun t o => E.Along P w t ∧ Q (E.later w t) o

namespace Checked

variable {E : Env S W} {P : W → Event S → Prop} {w : W}

@[simp] theorem ret {a : α} {Q : W → Except ε α → Prop} :
    Checked E P w (.ret a) Q ↔ Q w (.ok a) := by
  simp [Checked]

/-- The rule for a result, where only results matter. -/
theorem ret_ok {a : α} {R : W → α → Prop} (h : R w a) :
    Checked E P w (.ret a : Prog S ε α) fun w' o => ∀ b, o = .ok b → R w' b := by
  apply ret.mpr
  intro b hb
  cases hb
  exact h

@[simp] theorem stop {e : ε} {Q : W → Except ε α → Prop} :
    Checked E P w (.stop e) Q ↔ Q w (.error e) := by
  simp [Checked]

theorem call {c : S.Call} {next : S.Answer c → Prog S ε α} {Q : W → Except ε α → Prop}
    (h : ∀ r, E.may w c r → P w ⟨c, r⟩ ∧ Checked E P (E.after w c r) (next r) Q) :
    Checked E P w (.call c next) Q := by
  refine Ensures.call.mpr fun r hr t o ht => ?_
  obtain ⟨hP, hnext⟩ := h r hr
  obtain ⟨halong, hQ⟩ := hnext t o ht
  exact ⟨⟨hP, halong⟩, hQ⟩

theorem mono {p : Prog S ε α} {Q R : W → Except ε α → Prop}
    (h : Checked E P w p Q) (hQR : ∀ w o, Q w o → R w o) : Checked E P w p R :=
  Ensures.mono h fun _ _ hQ => ⟨hQ.1, hQR _ _ hQ.2⟩

theorem bind {p : Prog S ε α} {f : α → Prog S ε β} {Q : W → Except ε β → Prop}
    (h : Checked E P w p fun w' o => match o with
      | .ok a => Checked E P w' (f a) Q
      | .error e => Q w' (.error e)) : Checked E P w (p.bind f) Q := by
  apply Ensures.bind
  intro t o ht
  obtain ⟨halong, hnext⟩ := h t o ht
  cases o with
  | error e => exact ⟨halong, hnext⟩
  | ok a =>
    intro u o' hu
    obtain ⟨halong', hQ⟩ := hnext u o' hu
    rw [Env.along_append, Env.later_append]
    exact ⟨⟨halong, halong'⟩, hQ⟩

/-- The rule for a program whose result is repackaged. -/
theorem map {p : Prog S ε α} {f : α → Prog S ε β} {R : W → α → Prop} {R' : W → β → Prop}
    (h : Checked E P w p fun w' o => ∀ a, o = .ok a → R w' a)
    (hf : ∀ a, ∃ b, f a = .ret b ∧ ∀ w', R w' a → R' w' b) :
    Checked E P w (p.bind f) fun w' o => ∀ b, o = .ok b → R' w' b := by
  refine bind (h.mono ?_)
  intro w' o hR
  cases o with
  | error e => exact nofun
  | ok a =>
    obtain ⟨b, hb, hkeep⟩ := hf a
    dsimp only
    rw [hb]
    exact ret_ok (hkeep w' (hR a rfl))

/-- The rule for a loop: an invariant, which may know how many turns are left. -/
theorem loop {spent : ε} {body : σ → Prog S ε (σ ⊕ α)} {I : Nat → W → σ → Prop}
    {Q : W → Except ε α → Prop}
    (hbody : ∀ n w s, I (n + 1) w s → Checked E P w (body s) fun w' o => match o with
      | .ok (.inl s') => I n w' s'
      | .ok (.inr a) => Q w' (.ok a)
      | .error e => Q w' (.error e))
    (hspent : ∀ w s, I 0 w s → Q w (.error spent)) {n : Nat} {s : σ} (h : I n w s) :
    Checked E P w (Prog.loop spent body n s) Q := by
  induction n generalizing w s with
  | zero => exact stop.mpr (hspent w s h)
  | succ n ih =>
    refine bind ((hbody n w s h).mono ?_)
    intro w' o ho
    cases o with
    | error e => exact ho
    | ok x =>
      cases x with
      | inl s' => exact ih ho
      | inr a => exact ret.mpr ho

end Checked

/-! ## Programs that make calls of one kind only -/

namespace Prog

/-- Every call `p` may ever make is one of `C`. -/
def Uses (C : S.Call → Prop) : Prog S ε α → Prop
  | .ret _ => True
  | .stop _ => True
  | .call c next => C c ∧ ∀ r, Uses C (next r)

variable {C : S.Call → Prop}

theorem uses_of_forall (hC : ∀ c, C c) (p : Prog S ε α) : Uses C p := by
  induction p with
  | ret a => trivial
  | stop e => trivial
  | call c next ih => exact ⟨hC c, ih⟩

theorem uses_mono {C' : S.Call → Prop} (hC : ∀ c, C c → C' c) {p : Prog S ε α}
    (hp : Uses C p) : Uses C' p := by
  induction p with
  | ret a => trivial
  | stop e => trivial
  | call c next ih => exact ⟨hC c hp.1, fun r => ih r (hp.2 r)⟩

theorem uses_bind {p : Prog S ε α} {f : α → Prog S ε β} (hp : Uses C p)
    (hf : ∀ a, Uses C (f a)) : Uses C (p.bind f) := by
  induction p with
  | ret a => exact hf a
  | stop e => trivial
  | call c next ih => exact ⟨hp.1, fun r => ih r (hp.2 r)⟩

theorem uses_loop {spent : ε} {body : σ → Prog S ε (σ ⊕ α)} (hbody : ∀ s, Uses C (body s))
    (n : Nat) (s : σ) : Uses C (loop spent body n s) := by
  induction n generalizing s with
  | zero => trivial
  | succ n ih =>
    refine uses_bind (hbody s) fun x => ?_
    cases x with
    | inl s' => exact ih s'
    | inr a => trivial

end Prog

/-- Calls that meet `P` in a state and leave it alone make up such a program. -/
theorem Checked.of_uses_in {E : Env S W} {P : W → Event S → Prop} {C : S.Call → Prop} {w : W}
    (hC : ∀ c r, C c → P w ⟨c, r⟩ ∧ E.after w c r = w) {p : Prog S ε α} (hp : p.Uses C) :
    Checked E P w p fun w' _ => w' = w := by
  induction p with
  | ret a => exact ret.mpr rfl
  | stop e => exact stop.mpr rfl
  | call c next ih =>
    apply call
    intro r _
    obtain ⟨hP, hw⟩ := hC c r hp.1
    rw [hw]
    exact ⟨hP, ih r (hp.2 r)⟩

/-- The same for calls that meet `P` anywhere. -/
theorem Checked.of_uses {E : Env S W} {P : W → Event S → Prop} {C : S.Call → Prop}
    (hC : ∀ w c r, C c → P w ⟨c, r⟩ ∧ E.after w c r = w) {p : Prog S ε α} (hp : p.Uses C)
    (w : W) : Checked E P w p fun w' _ => w' = w :=
  of_uses_in (hC w) hp

/-! ## Programs that stop for one kind of reason only -/

namespace Prog

/-- Every stop of `p` is for a reason of `D`. -/
def Stops (D : ε → Prop) : Prog S ε α → Prop
  | .ret _ => True
  | .stop e => D e
  | .call _ next => ∀ r, Stops D (next r)

variable {D : ε → Prop}

theorem stops_bind {p : Prog S ε α} {f : α → Prog S ε β} (hp : Stops D p)
    (hf : ∀ a, Stops D (f a)) : Stops D (p.bind f) := by
  induction p with
  | ret a => exact hf a
  | stop e => exact hp
  | call c next ih => exact fun r => ih r (hp r)

theorem Stops.of_run {E : Env S W} {w : W} {p : Prog S ε α} {t : List (Event S)} {e : ε}
    (hp : Stops D p) (hrun : p.Run E w t (.error e)) : D e := by
  induction p generalizing w t with
  | ret a => cases hrun.2
  | stop e' =>
    obtain rfl := Except.error.inj hrun.2
    exact hp
  | call c next ih =>
    obtain ⟨r, u, rfl, _, hnext⟩ := hrun
    exact ih r (hp r) hnext

end Prog

end Sydn.Found.Interaction
