import GolangSandbox.Analysis.SumsAgree

/-!
# The arguments of the sum programs

For which arguments the programs do what they should: print an error and exit, or sum up all
elements with a cell for every thread (`Handled`).

`psum-array` and `psum-local` shift and take a remainder before they check anything, so the
shift has to be in range and the number of threads not zero; then their check sends away what
does not divide and what has more than 2^31 elements, but not too many threads and not a
negative number of them. `psum-mutex` checks nothing. Whatever gets through is handled if
and only if there are from 1 to `MAXTHREADS` threads, which is where the sums agree
(`agrees_of_le`).
-/

set_option autoImplicit false

namespace GolangSandbox.Analysis

open GolangSandbox.Model GolangSandbox.Program

variable {γ τ : Type} {r : SumProgram γ τ} {nthreads logNelems : ℤ}

/-- The arguments with which a program may go on. -/
def Admissible (nthreads logNelems : ℤ) : Prop :=
  (0 ≤ logNelems ∧ logNelems ≤ 31) ∧ (1 ≤ nthreads ∧ nthreads ≤ MAXTHREADS) ∧
    nthreads ∣ 2 ^ logNelems.toNat

instance (nthreads logNelems : ℤ) : Decidable (Admissible nthreads logNelems) :=
  inferInstanceAs (Decidable (_ ∧ _ ∧ _))

/-- A program rejects its arguments, or it goes on with admissible ones; then it sums up,
and every element has a thread. -/
def Handled (r : SumProgram γ τ) (start : ℤ → ℤ → Startup) (nthreads logNelems : ℤ) : Prop :=
  match start nthreads logNelems with
  | .rejected => True
  | .undefined => False
  | .runs n nelems =>
    Admissible nthreads logNelems ∧ n = nthreads ∧ nelems = 2 ^ logNelems.toNat ∧
      SumsUp r ⟨n.toNat, nelems.toNat⟩ ∧
      ∀ x < nelems.toNat, ∃ k < n.toNat, x ∈ indices ⟨n.toNat, nelems.toNat⟩ k

/-- With admissible arguments the three programs agree. -/
theorem Admissible.agrees (h : Admissible nthreads logNelems) :
    Agrees ⟨nthreads.toNat, (2 ^ logNelems.toNat : ℤ).toNat⟩ := by
  obtain ⟨-, ⟨hpos, hmax⟩, hdvd⟩ := h
  apply agrees_of_le
  · show nthreads.toNat ≠ 0
    omega
  · show nthreads.toNat ≤ MAXTHREADS
    omega
  · show nthreads.toNat ∣ (2 ^ logNelems.toNat : ℤ).toNat
    have hnonneg : (0 : ℤ) ≤ 2 ^ logNelems.toNat := Int.pow_nonneg (by decide)
    rw [← Int.natCast_dvd_natCast, Int.toNat_of_nonneg (by omega), Int.toNat_of_nonneg hnonneg]
    exact hdvd

/-- A program that goes on handles exactly the admissible arguments. -/
theorem handled_of_runs {start : ℤ → ℤ → Startup} (hsums : ∀ args, Agrees args → SumsUp r args)
    (hruns : start nthreads logNelems = .runs nthreads (2 ^ logNelems.toNat)) :
    Handled r start nthreads logNelems ↔ Admissible nthreads logNelems := by
  unfold Handled
  rw [hruns]
  constructor
  · intro h
    exact h.1
  · intro h
    refine ⟨h, rfl, rfl, hsums _ h.agrees, ?_⟩
    intro x hx
    exact (h.agrees.cover x).mp hx

theorem not_handled {start : ℤ → ℤ → Startup}
    (hundefined : start nthreads logNelems = .undefined) :
    ¬ Handled r start nthreads logNelems := by
  unfold Handled
  rw [hundefined]
  exact not_false

/-- What the check sends away in time, or lets through with good reason. -/
def Checked (nthreads logNelems : ℤ) : Prop :=
  (0 ≤ logNelems ∧ logNelems ≤ 62) ∧ nthreads ≠ 0 ∧
    (nthreads ∣ 2 ^ logNelems.toNat → logNelems ≤ 31 → 1 ≤ nthreads ∧ nthreads ≤ MAXTHREADS)

instance (nthreads logNelems : ℤ) : Decidable (Checked nthreads logNelems) :=
  inferInstanceAs (Decidable (_ ∧ _ ∧ (_ → _ → _)))

theorem handled_checkedStart_iff (hsums : ∀ args, Agrees args → SumsUp r args) :
    Handled r checkedStart nthreads logNelems ↔ Checked nthreads logNelems := by
  by_cases hshift : 0 ≤ logNelems ∧ logNelems ≤ 62
  · have hone : shiftOne logNelems = some (2 ^ logNelems.toNat) := if_pos hshift
    by_cases hzero : nthreads = 0
    · refine iff_of_false (not_handled ?_) fun h => h.2.1 hzero
      simp only [checkedStart, hone, if_pos hzero]
    · by_cases hcheck : nthreads ∣ 2 ^ logNelems.toNat ∧ logNelems ≤ 31
      · have hpass : ¬ ((2 ^ logNelems.toNat : ℤ).tmod nthreads ≠ 0 ∨ logNelems > 31) := by
          rw [not_or, not_not, ← Int.dvd_iff_tmod_eq_zero, not_lt]
          exact hcheck
        rw [handled_of_runs hsums (by simp only [checkedStart, hone, if_neg hzero, if_neg hpass])]
        constructor
        · intro h
          exact ⟨hshift, hzero, fun _ _ => h.2.1⟩
        · intro h
          exact ⟨⟨hshift.1, hcheck.2⟩, h.2.2 hcheck.1 hcheck.2, hcheck.1⟩
      · have hfail : (2 ^ logNelems.toNat : ℤ).tmod nthreads ≠ 0 ∨ logNelems > 31 := by
          rw [not_and_or, not_le, Int.dvd_iff_tmod_eq_zero] at hcheck
          exact hcheck
        refine iff_of_true ?_ ⟨hshift, hzero, fun hdvd hlog => absurd ⟨hdvd, hlog⟩ hcheck⟩
        simp only [Handled, checkedStart, hone, if_neg hzero, if_pos hfail]
  · refine iff_of_false (not_handled ?_) fun h => hshift h.1
    simp only [checkedStart, shiftOne, if_neg hshift]

theorem handled_uncheckedStart_iff (hsums : ∀ args, Agrees args → SumsUp r args) :
    Handled r uncheckedStart nthreads logNelems ↔ Admissible nthreads logNelems := by
  by_cases hshift : 0 ≤ logNelems ∧ logNelems ≤ 62
  · have hone : shiftOne logNelems = some (2 ^ logNelems.toNat) := if_pos hshift
    by_cases hzero : nthreads = 0
    · refine iff_of_false (not_handled ?_) fun h => ?_
      · simp only [uncheckedStart, hone, if_pos hzero]
      · have hpos := h.2.1.1
        omega
    · exact handled_of_runs hsums (by simp only [uncheckedStart, hone, if_neg hzero])
  · refine iff_of_false (not_handled ?_) fun h => ?_
    · simp only [uncheckedStart, shiftOne, if_neg hshift]
    · have hlog := h.1
      omega

/-- **Which arguments the programs handle.** `psum-array` and `psum-local` reject their
arguments or sum up with admissible ones if and only if the shift is defined, the number of
threads is not zero, and it is from 1 to `MAXTHREADS` in case the check lets it through.
`psum-mutex` does so if and only if its arguments are admissible.
SOURCE: csapp/echo/psum-array.c:14-47, psum-local.c:14-47, psum-mutex.c:10-43 -/
theorem arguments_handled_iff (nthreads logNelems : ℤ) :
    (Handled sumArray checkedStart nthreads logNelems ↔ Checked nthreads logNelems) ∧
    (Handled sumLocal checkedStart nthreads logNelems ↔ Checked nthreads logNelems) ∧
    (Handled sumMutex uncheckedStart nthreads logNelems ↔ Admissible nthreads logNelems) :=
  ⟨handled_checkedStart_iff fun _ h => h.array, handled_checkedStart_iff fun _ h => h.localSum,
    handled_uncheckedStart_iff fun _ h => h.mutex⟩

/-- No threads, more threads than cells, a negative shift, a negative number of threads that
divides the number of elements, and three threads for one element. -/
theorem arguments_not_handled :
    ¬ Handled sumArray checkedStart 0 3 ∧ ¬ Handled sumArray checkedStart 64 6 ∧
      ¬ Handled sumLocal checkedStart 2 (-1) ∧ ¬ Handled sumLocal checkedStart (-1) 0 ∧
      ¬ Handled sumMutex uncheckedStart 3 0 := by
  rw [handled_checkedStart_iff fun _ h => h.array, handled_checkedStart_iff fun _ h => h.array,
    handled_checkedStart_iff fun _ h => h.localSum, handled_checkedStart_iff fun _ h => h.localSum,
    handled_uncheckedStart_iff fun _ h => h.mutex]
  decide

end GolangSandbox.Analysis
