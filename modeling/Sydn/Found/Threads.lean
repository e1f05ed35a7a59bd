import Sydn.Found.Ownership
import Sydn.Found.Partial
import Sydn.Found.Transition

/-!
# Programs that start threads

A process is a list of threads over one environment, each a program that goes on from
where it is. The threads take turns in any order, one call at a time, and some calls
start a thread with a job to do. The process is over when a thread stops or the first
one has returned.

A `Separation` says which resources the calls need, open and close, and what a thread
would see if it were alone with its own. Where every thread keeps to its own resources
when it is alone, none meets another's in any interleaving, and what each has done is a
run of its program alone.
-/

namespace Sydn.Found.Threads

open Sydn.Found.Interaction
open Sydn.Found.Ownership
open Sydn.Found.Transition

/-- The calls that start a thread, what may run in one (`none` is the first thread) and
the environment. -/
structure Threaded (S : Interface) (ε W J : Type) where
  env : Env S W
  init : W → Prop
  starts : S.Call → Option J
  body : Option J → Prog S ε Unit → Prop

/-- What a thread is for, what it has done and what it has left to do. -/
structure Thread (S : Interface) (ε J : Type) where
  job : Option J
  past : List (Event S)
  rest : Prog S ε Unit

/-- A process; new threads come last. -/
structure State (S : Interface) (ε W J : Type) where
  world : W
  threads : List (Thread S ε J)

variable {S : Interface} {ε W V J R : Type}

/-- No thread has stopped and the first one has not returned. -/
def State.Running (σ : State S ε W J) : Prop :=
  (∀ th ∈ σ.threads, ∀ e, th.rest ≠ .stop e) ∧
    ∀ th, σ.threads.head? = some th → th.rest ≠ .ret ()

namespace Threaded

/-- The thread that a call starts, if it starts one. -/
def Born (M : Threaded S ε W J) (c : S.Call) (born : List (Thread S ε J)) : Prop :=
  match M.starts c with
  | none => born = []
  | some j => ∃ p, M.body (some j) p ∧ born = [⟨some j, [], p⟩]

/-- Thread `i` makes its next call. -/
def Step (M : Threaded S ε W J) (σ : State S ε W J) (i : Nat) (σ' : State S ε W J) : Prop :=
  σ.Running ∧ ∃ job past c next r born,
    σ.threads[i]? = some ⟨job, past, .call c next⟩ ∧ M.env.may σ.world c r ∧ M.Born c born ∧
      σ' = ⟨M.env.after σ.world c r,
        σ.threads.set i ⟨job, past ++ [⟨c, r⟩], next r⟩ ++ born⟩

/-- All interleavings. -/
def system (M : Threaded S ε W J) : LTS (State S ε W J) Nat where
  init σ := M.init σ.world ∧ ∃ p, M.body none p ∧ σ.threads = [⟨none, [], p⟩]
  step := M.Step

/-- The jobs that were started by the calls of a trace. -/
def started (M : Threaded S ε W J) (t : List (Event S)) : List J :=
  t.filterMap fun e => M.starts e.call

end Threaded

theorem running_of_calls {σ : State S ε W J}
    (h : ∀ th ∈ σ.threads, ∃ c next, th.rest = .call c next) : σ.Running := by
  constructor
  · intro th hth e he
    obtain ⟨c, next, hc⟩ := h th hth
    rw [hc] at he
    cases he
  · intro th hth he
    obtain ⟨c, next, hc⟩ := h th (List.mem_of_mem_head? hth)
    rw [hc] at he
    cases he

/-- Until it starts another, one thread may go on while the others wait at a call. -/
theorem reachable_goes {M : Threaded S ε W J} {w : W} {threads : List (Thread S ε J)} {i : Nat}
    {job : Option J} {p q : Prog S ε Unit} {past t : List (Event S)}
    (h : M.system.Reachable ⟨w, threads⟩) (hi : threads[i]? = some ⟨job, past, p⟩)
    (hwait : ∀ k, k ≠ i → ∀ th, threads[k]? = some th → ∃ c next, th.rest = .call c next)
    (hleads : p.Leads M.env w t q) (hnone : ∀ e ∈ t, M.starts e.call = none) :
    M.system.Reachable ⟨M.env.later w t, threads.set i ⟨job, past ++ t, q⟩⟩ := by
  induction hleads generalizing past threads with
  | refl =>
    obtain ⟨hlt, hget⟩ := List.getElem?_eq_some_iff.mp hi
    rw [List.append_nil, ← hget, List.set_getElem_self]
    exact h
  | @call w c next r t q hr _ ih =>
    obtain ⟨hc, ht⟩ := List.forall_mem_cons.mp hnone
    obtain ⟨hlt, _⟩ := List.getElem?_eq_some_iff.mp hi
    have hborn : M.Born c [] := by
      unfold Threaded.Born
      rw [hc]
    have hrunning : (⟨w, threads⟩ : State S ε W J).Running := by
      apply running_of_calls
      intro th hth
      obtain ⟨k, hk⟩ := List.getElem?_of_mem hth
      by_cases hki : k = i
      · rw [hki, hi] at hk
        obtain rfl := Option.some.inj hk
        exact ⟨c, next, rfl⟩
      · exact hwait k hki th hk
    have hstep : M.system.Reachable
        ⟨M.env.after w c r, threads.set i ⟨job, past ++ [⟨c, r⟩], next r⟩⟩ := by
      refine .step (l := i) h ⟨hrunning, job, past, c, next, r, [], hi, hr, hborn, ?_⟩
      rw [List.append_nil]
    have hgoes := ih hstep (List.getElem?_set_self hlt) ?_ ht
    · rw [List.set_set, List.append_assoc] at hgoes
      exact hgoes
    · intro k hki th hk
      rw [List.getElem?_set_ne (Ne.symm hki)] at hk
      exact hwait k hki th hk

/-! ## The threads that were started -/

section Started
variable {M : Threaded S ε W J} {σ : State S ε W J}

/-- Where only the first thread starts others, they are those it started, in order. -/
theorem jobs_started (hbody : ∀ j p, M.body (some j) p → p.Uses fun c => M.starts c = none)
    (h : M.system.Reachable σ) : ∃ first others, σ.threads = first :: others ∧
      first.job = none ∧ others.map Thread.job = (M.started first.past).map some ∧
      ∀ th ∈ others, th.rest.Uses fun c => M.starts c = none := by
  induction h with
  | @init σ h =>
    obtain ⟨_, p, _, hthreads⟩ := h
    exact ⟨_, [], hthreads, rfl, rfl, nofun⟩
  | @step _ _ i _ h ih =>
    obtain ⟨first, others, hthreads, hjob, hjobs, huses⟩ := ih
    obtain ⟨_, job, past, c, next, r, born, hi, _, hborn, rfl⟩ := h
    rw [hthreads] at hi ⊢
    cases i with
    | zero =>
      obtain rfl := Option.some.inj hi
      refine ⟨⟨job, past ++ [⟨c, r⟩], next r⟩, others ++ born, rfl, hjob, ?_, ?_⟩
      · unfold Threaded.Born at hborn
        unfold Threaded.started at hjobs ⊢
        cases hc : M.starts c with
        | none =>
          rw [hc] at hborn
          rw [hborn, List.append_nil, hjobs, List.filterMap_append]
          simp [hc]
        | some j =>
          rw [hc] at hborn
          obtain ⟨p, _, rfl⟩ := hborn
          rw [List.map_append, hjobs, List.filterMap_append]
          simp [hc]
      · intro th hth
        rcases List.mem_append.mp hth with hth | hth
        · exact huses th hth
        · unfold Threaded.Born at hborn
          cases hc : M.starts c with
          | none =>
            rw [hc] at hborn
            rw [hborn] at hth
            cases hth
          | some j =>
            rw [hc] at hborn
            obtain ⟨p, hp, rfl⟩ := hborn
            obtain rfl := List.mem_singleton.mp hth
            exact hbody j p hp
    | succ i =>
      have hth : others[i]? = some ⟨job, past, .call c next⟩ := hi
      have hcall := huses _ (List.mem_of_getElem? hth)
      -- another thread starts none
      have hnone : M.starts c = none := hcall.1
      unfold Threaded.Born at hborn
      rw [hnone] at hborn
      have hborn : born = [] := hborn
      rw [hborn, List.append_nil]
      refine ⟨first, others.set i ⟨job, past ++ [⟨c, r⟩], next r⟩, rfl, hjob, ?_, ?_⟩
      · have hmap : (others.map Thread.job)[i]? = some job := by
          rw [List.getElem?_map, hth]
          rfl
        obtain ⟨hlt, hget⟩ := List.getElem?_eq_some_iff.mp hmap
        have hset := List.set_getElem_self hlt
        rw [hget] at hset
        rw [List.map_set, ← hjobs]
        exact hset
      · intro th hmem
        rcases List.mem_or_eq_of_mem_set hmem with hmem | rfl
        · exact huses th hmem
        · exact hcall.2 r

end Started

/-! ## Threads that keep to their own resources -/

/-- Which resources a process has and its calls are about, and the environment in which
a thread would be `alone` with the resources that are its own. -/
structure Separation (M : Threaded S ε W J) (V R : Type) where
  alone : Env S V
  start : Option J → V
  mine : V → Set R
  ok : V → Prop
  live : W → Set R
  needs : S.Call → Set R
  closes : S.Call → Set R
  opens : (c : S.Call) → S.Answer c → Set R
  init : ∀ w, M.init w → mine (start none) = live w
  answers : alone.Answers
  ok_start : ∀ j, ok (start j)
  ok_after : ∀ v c r, ok v → ok (alone.after v c r)
  may_alone : ∀ v w c r, ok v → mine v ⊆ live w → needs c ⊆ mine v → M.env.may w c r →
    alone.may v c r
  fresh : ∀ w c r, M.env.may w c r → Disjoint (opens c r) (live w)
  closes_needed : ∀ c, closes c ⊆ needs c
  given_needed : ∀ c j, M.starts c = some j → mine (start (some j)) ⊆ needs c
  live_call : ∀ w c r, M.starts c = none →
    live (M.env.after w c r) = (live w \ closes c) ∪ opens c r
  live_start : ∀ w c r j, M.starts c = some j → live (M.env.after w c r) = live w
  mine_call : ∀ v c r, M.starts c = none →
    mine (alone.after v c r) = (mine v \ closes c) ∪ opens c r
  mine_start : ∀ v c r j, M.starts c = some j →
    mine (alone.after v c r) = mine v \ mine (start (some j))

namespace Separation
variable {M : Threaded S ε W J} (D : Separation M V R)

/-- Alone, every call of the program needs its own resources only, and it returns with none. -/
def Keeps (j : Option J) (p : Prog S ε Unit) : Prop :=
  Checked D.alone (fun v e => D.needs e.call ⊆ D.mine v) (D.start j) p fun v o =>
    o = .ok () → D.mine v = ∅

/-- What a thread would see now if it had been alone. -/
def view (th : Thread S ε J) : V := D.alone.later (D.start th.job) th.past

/-- The resources of a thread. -/
def own (th : Thread S ε J) : Set R := D.mine (D.view th)

/-- What a thread has done is a run of its program alone. -/
def Alone (th : Thread S ε J) : Prop :=
  ∃ p, M.body th.job p ∧ p.Leads D.alone (D.start th.job) th.past th.rest

/-- The threads do not meet: each has run as if it were alone, and what is live is divided
among them. -/
structure Separate (σ : State S ε W J) : Prop where
  alone : ∀ th ∈ σ.threads, D.Alone th
  divided : Divided (D.live σ.world) (σ.threads.map D.own)

variable {D} {σ σ' : State S ε W J} {i : Nat} {th : Thread S ε J}

theorem ok_view (th : Thread S ε J) : D.ok (D.view th) := by
  have hlater : ∀ (t : List (Event S)) v, D.ok v → D.ok (D.alone.later v t) := by
    intro t
    induction t with
    | nil => exact fun _ h => h
    | cons e t ih => exact fun v h => ih _ (D.ok_after v e.call e.answer h)
  exact hlater _ _ (D.ok_start _)

/-- The next call of a thread needs no resource but its own. -/
theorem Alone.needs (h : D.Alone th) (hkeeps : ∀ j p, M.body j p → D.Keeps j p) {c : S.Call}
    {next : S.Answer c → Prog S ε Unit} (hrest : th.rest = .call c next) :
    D.needs c ⊆ D.own th := by
  obtain ⟨p, hp, hleads⟩ := h
  rw [hrest] at hleads
  obtain ⟨r, hr⟩ := D.answers (D.view th) c
  exact (hkeeps _ p hp).next D.answers hleads hr

/-- A thread that has returned has no resource left. -/
theorem Alone.ended (h : D.Alone th) (hkeeps : ∀ j p, M.body j p → D.Keeps j p)
    (hrest : th.rest = .ret ()) : D.own th = ∅ := by
  obtain ⟨p, hp, hleads⟩ := h
  rw [hrest] at hleads
  exact (hkeeps _ p hp).ended hleads rfl

theorem view_snoc {job : Option J} {past : List (Event S)} {c : S.Call} {r : S.Answer c}
    {p q : Prog S ε Unit} :
    D.view ⟨job, past ++ [⟨c, r⟩], q⟩ = D.alone.after (D.view ⟨job, past, p⟩) c r :=
  D.alone.later_append _ _ _

/-- The step lemma: a thread that keeps to its own resources gets an answer that it
could get alone, and takes nothing from the others. -/
theorem Separate.step (h : D.Separate σ) (hkeeps : ∀ j p, M.body j p → D.Keeps j p)
    (hstep : M.Step σ i σ') : D.Separate σ' := by
  obtain ⟨_, job, past, c, next, r, born, hi, hr, hborn, rfl⟩ := hstep
  obtain ⟨hlt, _⟩ := List.getElem?_eq_some_iff.mp hi
  have hth := h.alone _ (List.mem_of_getElem? hi)
  have hneeds := hth.needs hkeeps rfl
  have hown : (σ.threads.map D.own)[i]? = some (D.own ⟨job, past, .call c next⟩) := by
    rw [List.getElem?_map, hi]
    rfl
  have hanswer := D.may_alone _ _ _ r (ok_view _) (h.divided.le hown) hneeds hr
  have hsnoc : D.Alone ⟨job, past ++ [⟨c, r⟩], next r⟩ := by
    obtain ⟨p, hp, hleads⟩ := hth
    exact ⟨p, hp, hleads.snoc hanswer⟩
  unfold Threaded.Born at hborn
  constructor
  · intro th' hmem
    rcases List.mem_append.mp hmem with hmem | hmem
    · rcases List.mem_or_eq_of_mem_set hmem with hmem | rfl
      · exact h.alone th' hmem
      · exact hsnoc
    · cases hc : M.starts c with
      | none =>
        rw [hc] at hborn
        rw [hborn] at hmem
        cases hmem
      | some j =>
        rw [hc] at hborn
        obtain ⟨p, hp, rfl⟩ := hborn
        obtain rfl := List.mem_singleton.mp hmem
        exact ⟨p, hp, .refl⟩
  · change Divided (D.live (M.env.after σ.world c r)) ((σ.threads.set i _ ++ born).map D.own)
    rw [List.map_append, List.map_set]
    cases hc : M.starts c with
    | none =>
      rw [hc] at hborn
      have hborn : born = [] := hborn
      have hmine : D.own ⟨job, past ++ [⟨c, r⟩], next r⟩ =
          (D.own ⟨job, past, .call c next⟩ \ D.closes c) ∪ D.opens c r := by
        rw [own, view_snoc, D.mine_call _ c r hc]
        rfl
      rw [hborn, List.map_nil, List.append_nil, D.live_call _ c r hc, hmine]
      exact h.divided.exchange hown ((D.closes_needed c).trans hneeds) (D.fresh _ c r hr)
    | some j =>
      rw [hc] at hborn
      obtain ⟨p, _, rfl⟩ := hborn
      have hmine : D.own ⟨job, past ++ [⟨c, r⟩], next r⟩ =
          D.own ⟨job, past, .call c next⟩ \ D.mine (D.start (some j)) := by
        rw [own, view_snoc, D.mine_start _ c r j hc]
        rfl
      rw [D.live_start _ c r j hc, hmine]
      exact h.divided.hand hown ((D.given_needed c j hc).trans hneeds)

/-- The run lemma. -/
theorem separate (hkeeps : ∀ j p, M.body j p → D.Keeps j p) (h : M.system.Reachable σ) :
    D.Separate σ := by
  induction h with
  | init h =>
    obtain ⟨hworld, p, hp, hthreads⟩ := h
    constructor
    · intro th hth
      rw [hthreads] at hth
      obtain rfl := List.mem_singleton.mp hth
      exact ⟨p, hp, .refl⟩
    · rw [hthreads, ← D.init _ hworld]
      exact divided_singleton _
  | step _ h ih => exact ih.step hkeeps h

end Separation

end Sydn.Found.Threads
