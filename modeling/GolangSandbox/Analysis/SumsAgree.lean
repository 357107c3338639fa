import GolangSandbox.Analysis.SumsComplete

/-!
# The three sums agree

A program sums up (`SumsUp`) if every schedule comes to the exit of `main` and every exit is
with the closed form; what is added on the way is in the range of a `long`. The three programs
do, over one partition of the indices (`Agrees`), if there is a cell of `myid` for every
thread. With more than `MAXTHREADS` threads `main` writes behind the array (`main_overruns`).
-/

set_option autoImplicit false

namespace GolangSandbox.Analysis

open GolangSandbox.Model GolangSandbox.Program

variable {γ τ : Type} {r : SumProgram γ τ} {args : Arguments}
  {I : γ → (ℕ → Option τ) → Prop} {C : γ → ℕ → ℕ → Prop} {work : τ → ℕ}

/-! ## More threads than cells -/

/-- `main` creates threads as long as there are cells. -/
theorem main_creates (r : SumProgram γ τ) (hpos : args.nthreads ≠ 0) (i : ℕ)
    (hi : i ≤ args.nthreads) (hmax : i ≤ MAXTHREADS) :
    ∃ s, run (Process.step r args) (Process.start r args) (List.replicate i .main) = some s ∧
      s.main = .creating i := by
  induction i with
  | zero => exact ⟨_, rfl, if_neg hpos⟩
  | succ i ih =>
    obtain ⟨s, hs, hmain⟩ := ih (by omega) (by omega)
    refine ⟨{ s with
      main := .creating (i + 1)
      myid := Function.update s.myid i (some i)
      threads := Function.update s.threads i (some r.entry) }, ?_, rfl⟩
    rw [List.replicate_succ', run_concat_eq_some]
    refine ⟨s, hs, ?_⟩
    simp only [Process.step, Process.mainStep, hmain]
    rw [if_pos (by omega), if_pos (by omega)]

/-- `main` writes behind the array `myid`. -/
theorem main_overruns (r : SumProgram γ τ) (hmax : MAXTHREADS < args.nthreads) :
    ∃ as s, run (Process.step r args) (Process.start r args) as = some s ∧ s.main = .undefined := by
  obtain ⟨s, hs, hmain⟩ := main_creates r (Nat.ne_zero_of_lt hmax) MAXTHREADS (Nat.le_of_lt hmax)
    (Nat.le_refl _)
  refine ⟨List.replicate MAXTHREADS .main ++ [.main], { s with main := .undefined },
    run_concat_eq_some.mpr ⟨s, hs, ?_⟩, rfl⟩
  simp only [Process.step, Process.mainStep, hmain]
  rw [if_pos hmax, if_neg (Nat.lt_irrefl _)]

/-! ## The agreement -/

/-- A program sums up correctly: every schedule ends, no run is undefined, the result is the
closed form, and no value leaves the range of a 64-bit `long`. -/
structure SumsUp (r : SumProgram γ τ) (args : Arguments) : Prop where
  ends : ComesToEnd r args
  defined : ∀ as s, run (Process.step r args) (Process.start r args) as = some s →
    s.main ≠ .undefined
  result : ∀ as s result error, run (Process.step r args) (Process.start r args) as = some s →
    s.main = .exited result error →
      result = args.nelems * (args.nelems - 1) / 2 ∧ error = false
  fits : args.nelems ≤ 2 ^ 31 → ∀ as s v,
    run (Process.step r args) (Process.start r args) as = some s → s.Holds r args v → v < 2 ^ 63

/-- The three programs sum up, over the same partition of the indices. -/
structure Agrees (args : Arguments) : Prop where
  array : SumsUp sumArray args
  localSum : SumsUp sumLocal args
  mutex : SumsUp sumMutex args
  disjoint : ∀ j < args.nthreads, ∀ k < args.nthreads, j ≠ k →
    Disjoint (indices args j) (indices args k)
  cover : ∀ x, x < args.nelems ↔ ∃ k < args.nthreads, x ∈ indices args k

theorem limit_lt (hmax : args.nthreads ≤ MAXTHREADS) (helems : args.nelems ≤ 2 ^ 31) :
    limit args < 2 ^ 63 := by
  have hsquare : args.nelems * args.nelems ≤ 2 ^ 31 * 2 ^ 31 := Nat.mul_le_mul helems helems
  have hpow : 2 ^ 31 * 2 ^ 31 < 2 ^ 63 := by decide
  have hthreads : args.nthreads < 2 ^ 63 := by
    have : MAXTHREADS < 2 ^ 63 := by decide
    omega
  exact max_lt hthreads (by omega)

theorem sumsUp_of_keeps (h : Keeps r args I C) (hl : Lively r args I C work)
    (hpos : args.nthreads ≠ 0) (hmax : args.nthreads ≤ MAXTHREADS) : SumsUp r args where
  ends := comesToEnd_of_lively h hl hpos hmax
  defined := by
    intro as s hs hmain
    have hsound := (sound_of_run h hpos hmax hs).main
    simp only [MainSound, hmain] at hsound
  result := by
    intro as s result error hs hmain
    have hsound := (sound_of_run h hpos hmax hs).main
    simp only [MainSound, hmain] at hsound
    exact hsound
  fits := by
    intro helems as s v hs hv
    exact ((sound_of_run h hpos hmax hs).holds_le h hv).trans_lt (limit_lt hmax helems)

/-- With a cell for every thread the three programs sum up. -/
theorem agrees_of_le (hpos : args.nthreads ≠ 0) (hmax : args.nthreads ≤ MAXTHREADS)
    (hdvd : args.nthreads ∣ args.nelems) : Agrees args where
  array := sumsUp_of_keeps (keeps_array hmax hdvd) (lively_array hmax) hpos hmax
  localSum := sumsUp_of_keeps (keeps_local hmax hdvd) (lively_local hmax) hpos hmax
  mutex := sumsUp_of_keeps (keeps_mutex hdvd) lively_mutex hpos hmax
  disjoint := by
    intro j _ k _ hjk
    exact disjoint_block hjk
  cover := by
    intro x
    have hall : args.nthreads * args.nelemsPerThread = args.nelems := Nat.mul_div_cancel' hdvd
    rw [← hall]
    exact exists_mem_block.symm

end GolangSandbox.Analysis
