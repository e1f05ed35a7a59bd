import Mathlib.Logic.Basic
import Mathlib.Logic.Relation
import Mathlib.Data.List.Basic
import Mathlib.Tactic.Common

/-!
# Runs of a labelled transition system

Reachability by any finite sequence of labelled steps, the rule that turns a
step invariant into an invariant of every reachable state, and the comparison of
two step properties along all runs of one sequence of labels: where a property
is equivalent to a condition step by step, it is along the whole sequence.
-/

namespace Sydn.Found.Transition

/-- States `σ`, labels `ι`, the initial states and the steps. -/
structure LTS (σ ι : Type*) where
  init : σ → Prop
  step : σ → ι → σ → Prop

variable {σ ι : Type*}

namespace LTS

/-- A state that some sequence of steps leads to. -/
inductive Reachable (L : LTS σ ι) : σ → Prop
  | init {s : σ} : L.init s → Reachable L s
  | step {s s' : σ} {l : ι} : Reachable L s → L.step s l s' → Reachable L s'

/-- The subsystem whose steps meet `C` in the state before them. -/
def restrict (L : LTS σ ι) (C : σ → ι → Prop) : LTS σ ι where
  init := L.init
  step s l s' := C s l ∧ L.step s l s'

/-- One step whose label meets `C`. -/
def Steps (L : LTS σ ι) (C : ι → Prop) (s s' : σ) : Prop := ∃ l, C l ∧ L.step s l s'

/-- `P` holds of every step of every run from `s` over the given labels. -/
def Along (L : LTS σ ι) (P : σ → ι → σ → Prop) : σ → List ι → Prop
  | _, [] => True
  | s, l :: ls => ∀ s', L.step s l s' → P s l s' ∧ L.Along P s' ls

variable {L : LTS σ ι}

/-- The invariant rule: what holds initially and is kept by every step from a
reachable state holds of every reachable state. -/
theorem Reachable.invariant {P : σ → Prop} (hinit : ∀ s, L.init s → P s)
    (hstep : ∀ s l s', L.Reachable s → P s → L.step s l s' → P s') {s : σ}
    (h : L.Reachable s) : P s := by
  induction h with
  | init h => exact hinit _ h
  | step hs h ih => exact hstep _ _ _ hs ih h

theorem Reachable.of_restrict {C : σ → ι → Prop} {s : σ} (h : (L.restrict C).Reachable s) :
    L.Reachable s := by
  induction h with
  | init h => exact .init h
  | step _ h ih => exact .step ih h.2

/-- What the steps of one kind keep is kept by every run of such steps. -/
theorem Reachable.keeps {C : ι → Prop} {P : σ → Prop}
    (hstep : ∀ s l s', L.Reachable s → P s → C l → L.step s l s' → P s') {s s' : σ}
    (h : L.Reachable s) (hs : P s) (hrun : Relation.ReflTransGen (L.Steps C) s s') :
    L.Reachable s' ∧ P s' := by
  induction hrun with
  | refl => exact ⟨h, hs⟩
  | tail _ hlast ih =>
    obtain ⟨hreach, hP⟩ := ih
    obtain ⟨l, hl, hlast⟩ := hlast
    exact ⟨.step hreach hlast, hstep _ l _ hreach hP hl hlast⟩

/-- The labels of a run that leads to a state, the latest one last. -/
inductive Reaches (L : LTS σ ι) : List ι → σ → Prop
  | init {s : σ} : L.init s → Reaches L [] s
  | step {ls : List ι} {s s' : σ} {l : ι} :
      Reaches L ls s → L.step s l s' → Reaches L (ls ++ [l]) s'

theorem Reaches.reachable {ls : List ι} {s : σ} (h : L.Reaches ls s) : L.Reachable s := by
  induction h with
  | init h => exact .init h
  | step _ h ih => exact .step ih h

theorem reachable_iff {s : σ} : L.Reachable s ↔ ∃ ls, L.Reaches ls s := by
  constructor
  · intro h
    induction h with
    | init h => exact ⟨[], .init h⟩
    | step _ h ih =>
      obtain ⟨ls, hls⟩ := ih
      exact ⟨_, .step hls h⟩
  · intro h
    obtain ⟨ls, hls⟩ := h
    exact hls.reachable

/-- The simulation rule for an account that the labels alone determine. -/
theorem Reaches.simulates {τ : Type*} {R : σ → τ → Prop} {next : τ → ι → τ} {t : τ}
    (hinit : ∀ s, L.init s → R s t)
    (hstep : ∀ s l s' t, R s t → L.step s l s' → R s' (next t l)) {ls : List ι} {s : σ}
    (h : L.Reaches ls s) : R s (ls.foldl next t) := by
  induction h with
  | init h => exact hinit _ h
  | @step ls s s' l _ h ih =>
    rw [List.foldl_append]
    exact hstep s l s' _ ih h

/-- The simulation rule: a run of one system along which another can follow, label by
label, leads to related states. -/
theorem Reaches.follows {τ : Type*} {M : LTS τ ι} {R : σ → τ → Prop}
    (hinit : ∀ s, L.init s → ∃ t, M.init t ∧ R s t)
    (hstep : ∀ s l s' t, R s t → L.step s l s' → ∃ t', M.step t l t' ∧ R s' t') {ls : List ι}
    {s : σ} (h : L.Reaches ls s) : ∃ t, M.Reaches ls t ∧ R s t := by
  induction h with
  | init h =>
    obtain ⟨t, ht, hR⟩ := hinit _ h
    exact ⟨t, .init ht, hR⟩
  | @step ls s s' l _ h ih =>
    obtain ⟨t, ht, hR⟩ := ih
    obtain ⟨t', ht', hR'⟩ := hstep s l s' t hR h
    exact ⟨t', .step ht ht', hR'⟩

/-- Step by step equivalence lifts to runs. `I` is an invariant under which a
step property `P`, asked of every outcome of a label, is equivalent to the
condition `C` on the state and label; `I` need only be kept by steps that meet `C`. -/
theorem along_iff {I : σ → Prop} {P : σ → ι → σ → Prop} {C : σ → ι → Prop}
    (hkeep : ∀ s l s', I s → C s l → L.step s l s' → I s')
    (hiff : ∀ s l, I s → ((∀ s', L.step s l s' → P s l s') ↔ C s l))
    {s : σ} (hs : I s) (ls : List ι) :
    L.Along P s ls ↔ L.Along (fun s l _ => C s l) s ls := by
  induction ls generalizing s with
  | nil => exact Iff.rfl
  | cons l ls ih =>
    constructor
    · intro h s' hstep
      have hC : C s l := (hiff s l hs).mp fun s' hs' => (h s' hs').1
      exact ⟨hC, (ih (hkeep s l s' hs hC hstep)).mp (h s' hstep).2⟩
    · intro h s' hstep
      have hC : C s l := (h s' hstep).1
      exact ⟨(hiff s l hs).mpr hC s' hstep, (ih (hkeep s l s' hs hC hstep)).mpr (h s' hstep).2⟩

/-- A run from `s`: the labels taken and the states after them. -/
def Path (L : LTS σ ι) : σ → List (ι × σ) → Prop
  | _, [] => True
  | s, (l, s') :: path => L.step s l s' ∧ L.Path s' path

end LTS

/-- `P` holds of every step of a run from `s`. -/
def Throughout (P : σ → ι → σ → Prop) : σ → List (ι × σ) → Prop
  | _, [] => True
  | s, (l, s') :: path => P s l s' ∧ Throughout P s' path

/-- Properties that every step makes equivalent are equivalent along every run. -/
theorem LTS.Path.throughout_iff {L : LTS σ ι} {P Q : σ → ι → σ → Prop}
    (h : ∀ s l s', L.step s l s' → (P s l s' ↔ Q s l s')) {s : σ} {path : List (ι × σ)}
    (hpath : L.Path s path) : Throughout P s path ↔ Throughout Q s path := by
  induction path generalizing s with
  | nil => exact Iff.rfl
  | cons step path ih =>
    obtain ⟨l, s'⟩ := step
    obtain ⟨hstep, hpath⟩ := hpath
    exact and_congr (h s l s' hstep) (ih hpath)

end Sydn.Found.Transition
