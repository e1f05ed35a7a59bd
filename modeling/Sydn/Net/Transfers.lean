import Sydn.Net.Status

/-!
# The byte counts that are reported

A span may be longer than an `int` can count. Four functions keep the 64-bit result
of the kernel in an `int`; three of them assert that it is not negative, the writer
does not. The count is reported as it is exactly when it fits.
-/

namespace Sydn.Net

open Sydn.Found.Interaction
open Sydn.Mem (Byte)
open ErrorCondition (default_error_condition)

/-- The condition and the count a call reports. -/
abbrev Report := Except Stop (ErrorCondition × Nat)

/-- What a reader or a writer reports of its last call. -/
def StreamStatus.report (s : StreamStatus) : ErrorCondition × Nat := (s.error, s.last_bytes)

/-- A call over a span of `size` bytes with result `r` reports just that. -/
def ExactReport (size : Nat) (r : Status) (o : Report) : Prop :=
  ∃ e n, o = .ok (e, n) ∧ (r.res ≠ -1 → e = {} ∧ (n : Int) = r.res) ∧
    (e ≠ {} ∧ n = 0 ↔ r.res = -1) ∧ n ≤ size

/-- What the functions make of a result, with the assertion or without. -/
def reportOf (asserts : Bool) (r : Status) : Report :=
  if toInt r.res = -1 then .ok (default_error_condition r.errno, 0)
  else if asserts = true ∧ toInt r.res < 0 then .error .assertion
  else .ok ({}, toSize (toInt r.res))

/-- What the kernel may say to a call over a span of `size` bytes. -/
def Transferred (size : Nat) (r : Status) : Prop := Kernel.Failed r ∨ (0 ≤ r.res ∧ r.res ≤ size)

section Reports
variable {size : Nat} {r : Status}

theorem toInt_ne_of_lt {n : Int} (h : INT_MAX < n) : toInt n ≠ n := by
  unfold toInt INT_MAX at *
  rw [Int.bmod_def]
  omega

/-- A negative `int` becomes a size that no span has. -/
theorem toSize_of_neg {n : Int} (h : n < 0) (hmin : -2 ^ 31 ≤ n) : 2 ^ 63 ≤ toSize n := by
  unfold toSize
  omega

theorem toInt_ge (n : Int) : -2 ^ 31 ≤ toInt n := by
  unfold toInt
  rw [Int.bmod_def]
  omega

theorem toInt_lt (n : Int) : toInt n < 2 ^ 31 := by
  unfold toInt
  rw [Int.bmod_def]
  omega

theorem reportOf_failed (hfail : Kernel.Failed r) (asserts : Bool) :
    ExactReport size r (reportOf asserts r) := by
  have hint : toInt r.res = -1 := by
    rw [hfail.1]
    decide
  refine ⟨default_error_condition r.errno, 0, if_pos hint, fun hres => absurd hfail.1 hres, ?_,
    Nat.zero_le _⟩
  refine iff_of_true ⟨fun heq => ?_, rfl⟩ hfail.1
  have hvalue := congrArg ErrorCondition.value heq
  exact hfail.2.ne' hvalue

theorem reportOf_fits (hpos : 0 ≤ r.res) (hsize : r.res ≤ size) (hmax : r.res ≤ INT_MAX)
    (asserts : Bool) : ExactReport size r (reportOf asserts r) := by
  have hint : toInt r.res = r.res := toInt_of_le hpos hmax
  have hcount : (toSize r.res : Int) = r.res := toSize_of_nonneg hpos hmax
  refine ⟨{}, toSize r.res, ?_, fun _ => ⟨rfl, hcount⟩, ?_, by omega⟩
  · rw [reportOf, hint, if_neg (by omega), if_neg (by omega)]
  · exact iff_of_false (fun h => h.1 rfl) (by omega)

/-- A larger count is an error, a failed assertion or another count. -/
theorem not_exact_of_lt (hbound : size < 2 ^ 63) (hsize : r.res ≤ size) (hmax : INT_MAX < r.res)
    (asserts : Bool) : ¬ ExactReport size r (reportOf asserts r) := by
  have hres : r.res ≠ -1 := by
    unfold INT_MAX at hmax
    omega
  have hlow := toInt_ge r.res
  have hhigh := toInt_lt r.res
  have hne := toInt_ne_of_lt hmax
  intro h
  obtain ⟨e, n, hreport, htransferred, hfailed, _⟩ := h
  obtain ⟨he, hn⟩ := htransferred hres
  unfold reportOf at hreport
  split at hreport
  · cases hreport
    unfold INT_MAX at hmax
    omega
  · split at hreport
    · cases hreport
    · cases hreport
      by_cases hneg : toInt r.res < 0
      · have hhuge := toSize_of_neg hneg hlow
        omega
      · have hsame : (toSize (toInt r.res) : Int) = toInt r.res := by
          apply toSize_of_nonneg (not_lt.mp hneg)
          unfold INT_MAX
          omega
        exact hne (hsame.symm.trans hn)

/-- The count is reported exactly when it fits an `int`. -/
theorem exact_reportOf_iff (hbound : size < 2 ^ 63) (hr : Transferred size r) (asserts : Bool) :
    ExactReport size r (reportOf asserts r) ↔ r.res ≤ INT_MAX := by
  rcases hr with hfail | ⟨hpos, hsize⟩
  · apply iff_of_true (reportOf_failed hfail asserts)
    rw [hfail.1]
    decide
  · constructor
    · intro hexact
      by_contra hmax
      exact not_exact_of_lt hbound hsize (not_le.mp hmax) asserts hexact
    · intro hmax
      exact reportOf_fits hpos hsize hmax asserts

end Reports

/-- A run makes one transfer and reports what its function makes of the result. -/
def Reports (asserts : Bool) (size : Nat) (t : Trace) (o : Report) : Prop :=
  ∃ r, transfers t = [r] ∧ Transferred size r ∧ o = reportOf asserts r

theorem Reports.exact_iff {asserts : Bool} {size : Nat} {t : Trace} {o : Report}
    (h : Reports asserts size t o) (hbound : size < 2 ^ 63) :
    ∃ r, transfers t = [r] ∧ (ExactReport size r o ↔ r.res ≤ INT_MAX) := by
  obtain ⟨r, htransfers, hr, rfl⟩ := h
  exact ⟨r, htransfers, exact_reportOf_iff hbound hr asserts⟩

section Runs
variable {w : Kernel} {t : Trace}

/-- What both functions that read do with the answer `r`. -/
theorem reports_read {α : Type} {fd : Int} {size : Nat} {next : Received → Syscall α}
    {f : α → ErrorCondition × Nat} {o : Except Stop α}
    (hnext : ∀ (r : Received) w t o, (next r).Run Kernel.env w t o →
      t = [] ∧ o.map f = reportOf true r.toStatus)
    (h : (Prog.call (S := Posix) (.read fd size) next).Run Kernel.env w t o) :
    Reports true size t (o.map f) := by
  obtain ⟨r, u, rfl, hr, hrun⟩ := h
  obtain ⟨rfl, ho⟩ := hnext r _ _ _ hrun
  refine ⟨r.toStatus, rfl, hr.imp id ?_, ho⟩
  intro htransfer
  have hcount := htransfer.1
  have hsize := htransfer.2.1
  omega

/-- What both functions that write do with it. -/
theorem reports_write {α : Type} {fd : Int} {data : List Byte} {next : Status → Syscall α}
    {asserts : Bool} {f : α → ErrorCondition × Nat} {o : Except Stop α}
    (hnext : ∀ (r : Status) w t o, (next r).Run Kernel.env w t o →
      t = [] ∧ o.map f = reportOf asserts r)
    (h : (Prog.call (S := Posix) (.write fd data) next).Run Kernel.env w t o) :
    Reports asserts data.length t (o.map f) := by
  obtain ⟨r, u, rfl, hr, hrun⟩ := h
  obtain ⟨rfl, ho⟩ := hnext r _ _ _ hrun
  exact ⟨r, rfl, hr.imp id fun htransfer => ⟨htransfer.1, htransfer.2.1⟩, ho⟩

/-- The ends of a function that asserts that the `int` is not negative. -/
theorem run_asserting {α : Type} {r : Status} {failed done : α} {f : α → ErrorCondition × Nat}
    {o : Except Stop α} (hfailed : f failed = (default_error_condition r.errno, 0))
    (hdone : f done = ({}, toSize (toInt r.res)))
    (h : Prog.Run Kernel.env w (if toInt r.res = -1 then .ret failed
      else if toInt r.res < 0 then .stop .assertion else .ret done) t o) :
    t = [] ∧ o.map f = reportOf true r := by
  unfold reportOf
  by_cases hint : toInt r.res = -1
  · rw [if_pos hint] at h ⊢
    obtain ⟨rfl, rfl⟩ := h
    exact ⟨rfl, congrArg Except.ok hfailed⟩
  · rw [if_neg hint] at h ⊢
    by_cases hneg : toInt r.res < 0
    · rw [if_pos hneg] at h
      rw [if_pos ⟨rfl, hneg⟩]
      obtain ⟨rfl, rfl⟩ := h
      exact ⟨rfl, rfl⟩
    · rw [if_neg hneg] at h
      rw [if_neg fun hcase => hneg hcase.2]
      obtain ⟨rfl, rfl⟩ := h
      exact ⟨rfl, congrArg Except.ok hdone⟩

theorem ConnectedReader.read_reports {this : ConnectedReader} {d_socket : ConnectedSocket}
    {size : Nat} {o : Except Stop (ConnectedReader × List Byte)}
    (h : (this.read d_socket size).Run Kernel.env w t o) :
    Reports true size t (o.map fun a => a.1.report) := by
  refine reports_read ?_ h
  intro r w t o hrun
  exact run_asserting rfl rfl hrun

theorem ConnectedWriter.write_reports {this : ConnectedWriter} {d_socket : ConnectedSocket}
    {data : List Byte} {o : Except Stop ConnectedWriter}
    (h : (this.write d_socket data).Run Kernel.env w t o) :
    Reports false data.length t (o.map fun a => a.report) := by
  refine reports_write ?_ h
  intro r w t o hrun
  dsimp only [Prog.ret_bind] at hrun
  unfold reportOf
  by_cases hint : toInt r.res = -1
  · rw [if_pos hint] at hrun ⊢
    obtain ⟨rfl, rfl⟩ := hrun
    exact ⟨rfl, rfl⟩
  · -- without the assertion a negative `int` is a count too
    rw [if_neg hint] at hrun ⊢
    rw [if_neg fun hcase => Bool.false_ne_true hcase.1]
    obtain ⟨rfl, rfl⟩ := hrun
    exact ⟨rfl, rfl⟩

theorem PosixSocketBuffer.read_reports {this : PosixSocketBuffer} {size : Nat}
    {o : Except Stop ((ErrorCondition × Nat) × List Byte)}
    (h : (this.read size).Run Kernel.env w t o) : Reports true size t (o.map Prod.fst) := by
  refine reports_read ?_ h
  intro r w t o hrun
  exact run_asserting rfl rfl hrun

theorem PosixSocketBuffer.write_reports {this : PosixSocketBuffer} {data : List Byte} {o : Report}
    (h : (this.write data).Run Kernel.env w t o) : Reports true data.length t o := by
  have hreports : Reports true data.length t (o.map id) := by
    refine reports_write ?_ h
    intro r w t o hrun
    exact run_asserting rfl rfl hrun
  rw [Except.map_id] at hreports
  exact hreports

end Runs

/-- **Byte counts.** Over a span of any length that a `ssize_t` holds, each of the four
functions makes one transfer and reports exactly its result, an error with no bytes or
the count of the kernel, if and only if that count fits an `int`. -/
theorem report_exact_iff {size : Nat} (hbound : size < 2 ^ 63) {w : Kernel} {t : Trace} :
    (∀ (this : ConnectedReader) d_socket o, (this.read d_socket size).Run Kernel.env w t o →
      ∃ r, transfers t = [r] ∧
        (ExactReport size r (o.map fun a => a.1.report) ↔ r.res ≤ INT_MAX)) ∧
    (∀ (this : ConnectedWriter) d_socket data o, data.length = size →
      (this.write d_socket data).Run Kernel.env w t o → ∃ r, transfers t = [r] ∧
        (ExactReport size r (o.map fun a => a.report) ↔ r.res ≤ INT_MAX)) ∧
    (∀ (this : PosixSocketBuffer) o, (this.read size).Run Kernel.env w t o →
      ∃ r, transfers t = [r] ∧ (ExactReport size r (o.map Prod.fst) ↔ r.res ≤ INT_MAX)) ∧
    ∀ (this : PosixSocketBuffer) data o, data.length = size →
      (this.write data).Run Kernel.env w t o → ∃ r, transfers t = [r] ∧
        (ExactReport size r o ↔ r.res ≤ INT_MAX) := by
  refine ⟨?_, ?_, ?_, ?_⟩
  · intro this d_socket o hrun
    exact (ConnectedReader.read_reports hrun).exact_iff hbound
  · rintro this d_socket data o rfl hrun
    exact (ConnectedWriter.write_reports hrun).exact_iff hbound
  · intro this o hrun
    exact (PosixSocketBuffer.read_reports hrun).exact_iff hbound
  · rintro this data o rfl hrun
    exact (PosixSocketBuffer.write_reports hrun).exact_iff hbound

section Long

/-- A read that fills a span of `n` bytes. -/
def longRead (res : Int) (n : Nat) : Trace :=
  [⟨.read 3 n, { res, errno := 0, bytes := List.replicate n 0 }⟩]

/-- The kernel may fill the span, and the run goes by the count alone. -/
theorem longRead_run {res : Int} {n : Nat} (hcount : res = n)
    {o : Except Stop ((ErrorCondition × Nat) × List Byte)}
    (h : Prog.Run Kernel.env ⟨{3}, ∅⟩ (if toInt res = -1 then
      .ret ((default_error_condition 0, 0), List.replicate n 0)
      else if toInt res < 0 then .stop .assertion
      else .ret (({}, toSize (toInt res)), List.replicate n 0)) [] o) :
    (PosixSocketBuffer.read ⟨3⟩ n).Run Kernel.env ⟨{3}, ∅⟩ (longRead res n) o := by
  refine ⟨{ res, errno := 0, bytes := List.replicate n 0 }, [], rfl, Or.inr ⟨?_, ?_, ?_⟩, ?_⟩
  · show res = _
    rw [List.length_replicate]
    exact hcount
  · rw [List.length_replicate]
  · exact ⟨by decide, Or.inl rfl⟩
  · have hres : res ≠ -1 := by omega
    dsimp only [Prog.ret_bind]
    rw [if_neg hres]
    exact h

/-- Eight bytes are reported as eight. -/
theorem report_exact_eight : ∃ r, transfers (longRead 8 8) = [r] ∧
    (ExactReport 8 r ((.ok (({}, 8), List.replicate 8 0) :
      Except Stop ((ErrorCondition × Nat) × List Byte)).map Prod.fst) ↔ r.res ≤ INT_MAX) :=
  (report_exact_iff (by decide)).2.2.1 ⟨3⟩ _ (longRead_run rfl ⟨rfl, rfl⟩)

/-- The first count that an `int` does not hold fails the assertion. -/
theorem not_report_exact : ¬ ∀ (size : Nat) (w : Kernel) (t : Trace) (this : PosixSocketBuffer) o,
    size < 2 ^ 63 → (this.read size).Run Kernel.env w t o →
    ∀ r ∈ transfers t, ExactReport size r (o.map Prod.fst) := by
  intro hclaim
  have hint : toInt (2 ^ 31) = -2 ^ 31 := by decide
  have hrun : (PosixSocketBuffer.read ⟨3⟩ (2 ^ 31)).Run Kernel.env ⟨{3}, ∅⟩
      (longRead (2 ^ 31) (2 ^ 31)) (.error .assertion) := by
    apply longRead_run (by decide)
    rw [hint, if_neg (by decide), if_pos (by decide)]
    exact ⟨rfl, rfl⟩
  obtain ⟨e, n, hreport, _⟩ := hclaim _ _ _ _ _ (by decide) hrun _ List.mem_cons_self
  cases hreport

end Long

end Sydn.Net
