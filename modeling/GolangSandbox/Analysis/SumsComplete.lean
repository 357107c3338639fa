import GolangSandbox.Analysis.ParallelSum
import GolangSandbox.Model.Termination

/-!
# The three sums come to their end

A run of a sum program ends, under every schedule. Every step of a thread lowers the work that
the thread has still to do, and every step of `main` brings it nearer to its exit, as the
creation of a thread is charged with the work of the thread (`processLeft`).

And nothing is stuck before the exit (`Lively`). `main` waits only for a thread that has not
returned, and as long as there is one some thread can go on: in the programs with an array this
very thread, and with the semaphore, if this one waits in `P`, the one that is between `P` and
`V`.
-/

set_option autoImplicit false

namespace GolangSandbox.Analysis

open GolangSandbox.Model GolangSandbox.Program

variable {γ τ : Type} {r : SumProgram γ τ} {args : Arguments} {s t : Process γ τ}
  {I : γ → (ℕ → Option τ) → Prop} {C : γ → ℕ → ℕ → Prop} {work : τ → ℕ}

/-- What the frame asks of a program, beside `Keeps`, with the measure `work` for its threads. -/
structure Lively (r : SumProgram γ τ) (args : Arguments) (I : γ → (ℕ → Option τ) → Prop)
    (C : γ → ℕ → ℕ → Prop) (work : τ → ℕ) : Prop where
  lower : ∀ g threads k pc g' pc', I g threads → threads k = some pc →
    r.exec args.nelemsPerThread (some k) g pc = .next (g', pc') → work pc' < work pc
  goesOn : ∀ g threads k pc, I g threads → threads k = some pc → k < args.nthreads →
    r.hasReturned pc = false → ∃ j pc, threads j = some pc ∧
      ∃ next, r.exec args.nelemsPerThread (some j) g pc = .next next
  collect : ∀ g i result j sum, C g i result → r.collect args g i result = .summing j sum →
    i < args.nthreads ∧ j = i + 1

/-! ## The measure -/

/-- The work of the threads that are created. -/
def threadsLeft (args : Arguments) (work : τ → ℕ) (threads : ℕ → Option τ) : ℕ :=
  ∑ k ∈ Finset.range args.nthreads, (threads k).elim 0 work

/-- The steps of `main`, with the work of the threads that it has still to create. -/
def mainSteps (args : Arguments) (entry : ℕ) : Main → ℕ
  | .creating i => (args.nthreads - i) * (entry + 1) + 2 * args.nthreads + 3
  | .joining i => (args.nthreads - i) + args.nthreads + 2
  | .summing i _ => (args.nthreads - i) + 1
  | .exited _ _ | .undefined => 0

/-- What is left to do. -/
def processLeft (r : SumProgram γ τ) (args : Arguments) (work : τ → ℕ) (s : Process γ τ) : ℕ :=
  mainSteps args (work r.entry) s.main + threadsLeft args work s.threads

theorem threadsLeft_update {k : ℕ} {threads : ℕ → Option τ} (hk : k < args.nthreads) (pc : τ) :
    threadsLeft args work (Function.update threads k (some pc)) + (threads k).elim 0 work =
      threadsLeft args work threads + work pc :=
  sum_update_add (Finset.mem_range.mpr hk) (fun _ x => Option.elim x 0 work) threads (some pc)

/-- Every step of `main` brings it nearer to its exit. -/
theorem processLeft_mainStep (h : Keeps r args I C) (hl : Lively r args I C work)
    (hs : Sound r args I C s) (hdefined : t.main ≠ .undefined) (ht : s.mainStep r args = some t) :
    processLeft r args work t < processLeft r args work s := by
  have hsound := hs.main
  unfold Process.mainStep at ht
  cases hmain : s.main with
  | creating i =>
    simp only [MainSound, hmain] at hsound
    simp only [hmain] at ht
    split at ht
    · rename_i hi
      split at ht
      · obtain rfl := Option.some.inj ht
        have hnone := (hsound.2 i).mpr (Nat.le_refl i)
        have hupdate : threadsLeft args work (Function.update s.threads i (some r.entry)) +
            (s.threads i).elim 0 work = threadsLeft args work s.threads + work r.entry :=
          threadsLeft_update hi r.entry
        have hsplit : args.nthreads - i = args.nthreads - (i + 1) + 1 := by omega
        rw [hnone, Option.elim_none, Nat.add_zero] at hupdate
        simp only [processLeft, hmain, mainSteps, hupdate, hsplit, Nat.add_mul, Nat.one_mul]
        omega
      · obtain rfl := Option.some.inj ht
        exact absurd rfl hdefined
    · rename_i hi
      obtain rfl := Option.some.inj ht
      have hzero : args.nthreads - i = 0 := by omega
      simp only [processLeft, hmain, mainSteps, hzero, Nat.zero_mul]
      omega
  | joining i =>
    simp only [hmain] at ht
    split at ht
    · rename_i hi
      split at ht
      · split at ht
        · obtain rfl := Option.some.inj ht
          simp only [processLeft, hmain, mainSteps]
          omega
        · cases ht
      · obtain rfl := Option.some.inj ht
        exact absurd rfl hdefined
    · obtain rfl := Option.some.inj ht
      simp only [processLeft, hmain, mainSteps]
      omega
  | summing i result =>
    simp only [MainSound, hmain] at hsound
    simp only [hmain] at ht
    obtain rfl := Option.some.inj ht
    have hlower : mainSteps args (work r.entry) (r.collect args s.globals i result) <
        mainSteps args (work r.entry) (.summing i result) := by
      cases hcollect : r.collect args s.globals i result with
      | summing j sum =>
        obtain ⟨hi, rfl⟩ := hl.collect _ _ _ _ _ hsound.2 hcollect
        simp only [mainSteps]
        omega
      | exited sum error => exact Nat.succ_pos _
      | undefined => exact Nat.succ_pos _
      | creating j =>
        have hother := h.collect _ _ _ hsound.2
        rw [hcollect] at hother
        exact hother.elim
      | joining j =>
        have hother := h.collect _ _ _ hsound.2
        rw [hcollect] at hother
        exact hother.elim
    simp only [processLeft, hmain]
    omega
  | exited result error =>
    simp only [hmain] at ht
    cases ht
  | undefined =>
    simp only [hmain] at ht
    cases ht

/-- Every step of a thread lowers its work. -/
theorem processLeft_threadStep {k : ℕ} (hl : Lively r args I C work) (hs : Sound r args I C s)
    (hdefined : t.main ≠ .undefined) (ht : s.threadStep r args k = some t) :
    processLeft r args work t < processLeft r args work s := by
  unfold Process.threadStep at ht
  obtain ⟨pc, hpc, hexec⟩ := Option.bind_eq_some_iff.mp ht
  rw [hs.myid k pc hpc] at hexec
  split at hexec
  · cases hexec
  · obtain rfl := Option.some.inj hexec
    exact absurd rfl hdefined
  · rename_i globals pc' hnext
    obtain rfl := Option.some.inj hexec
    have hlower := hl.lower _ _ _ _ _ _ hs.threads hpc hnext
    have hupdate : threadsLeft args work (Function.update s.threads k (some pc')) +
        (s.threads k).elim 0 work = threadsLeft args work s.threads + work pc' :=
      threadsLeft_update (hs.lt_nthreads hpc) pc'
    rw [hpc, Option.elim_some] at hupdate
    simp only [processLeft]
    omega

theorem processLeft_step {a : Mover} (h : Keeps r args I C) (hl : Lively r args I C work)
    (hs : Sound r args I C s) (hdefined : t.main ≠ .undefined) (ht : s.step r args a = some t) :
    processLeft r args work t < processLeft r args work s := by
  unfold Process.step at ht
  split at ht
  · cases ht
  · cases ht
  · exact processLeft_mainStep h hl hs hdefined ht
  · exact processLeft_threadStep hl hs hdefined ht

theorem Sound.ne_undefined (hs : Sound r args I C s) : s.main ≠ .undefined := by
  intro hmain
  have hsound := hs.main
  simp only [MainSound, hmain] at hsound

/-! ## No deadlock -/

/-- `main` creates all threads before it joins the first one. -/
def AllCreated (args : Arguments) (s : Process γ τ) : Prop :=
  (∃ i, s.main = .creating i) ∨ ∀ k < args.nthreads, s.threads k ≠ none

theorem allCreated_step {a : Mover} (hs : Sound r args I C s) (hc : AllCreated args s)
    (hdefined : t.main ≠ .undefined) (ht : s.step r args a = some t) : AllCreated args t := by
  unfold Process.step at ht
  split at ht
  · cases ht
  · cases ht
  · have hsound := hs.main
    unfold Process.mainStep at ht
    cases hmain : s.main with
    | creating i =>
      simp only [MainSound, hmain] at hsound
      simp only [hmain] at ht
      split at ht
      · split at ht
        · obtain rfl := Option.some.inj ht
          exact .inl ⟨_, rfl⟩
        · obtain rfl := Option.some.inj ht
          exact absurd rfl hdefined
      · obtain rfl := Option.some.inj ht
        refine .inr fun k hk hnone => ?_
        have hle := (hsound.2 k).mp hnone
        omega
    | joining i =>
      have hall := hc.resolve_left (by simp [hmain])
      simp only [hmain] at ht
      split at ht
      · split at ht
        · split at ht
          · obtain rfl := Option.some.inj ht
            exact .inr hall
          · cases ht
        · obtain rfl := Option.some.inj ht
          exact absurd rfl hdefined
      · obtain rfl := Option.some.inj ht
        exact .inr hall
    | summing i result =>
      have hall := hc.resolve_left (by simp [hmain])
      simp only [hmain] at ht
      obtain rfl := Option.some.inj ht
      exact .inr hall
    | exited result error =>
      simp only [hmain] at ht
      cases ht
    | undefined =>
      simp only [hmain] at ht
      cases ht
  · rename_i k _ _
    unfold Process.threadStep at ht
    obtain ⟨pc, hpc, hexec⟩ := Option.bind_eq_some_iff.mp ht
    split at hexec
    · cases hexec
    · obtain rfl := Option.some.inj hexec
      exact absurd rfl hdefined
    · obtain rfl := Option.some.inj hexec
      refine hc.imp id fun hall j hj => ?_
      dsimp only
      by_cases hjk : j = k
      · rw [hjk, Function.update_self]
        simp
      · rw [Function.update_of_ne hjk]
        exact hall j hj

/-- Before the exit somebody can go on. -/
theorem exists_sum_step (hl : Lively r args I C work) (hs : Sound r args I C s)
    (hmax : args.nthreads ≤ MAXTHREADS) (hc : AllCreated args s)
    (hgoing : ∀ result error, s.main ≠ .exited result error) :
    ∃ a t, s.step r args a = some t := by
  cases hmain : s.main with
  | creating i =>
    refine ⟨.main, Option.ne_none_iff_exists'.mp ?_⟩
    simp only [Process.step, Process.mainStep, hmain]
    split
    · split
      · exact Option.some_ne_none _
      · exact Option.some_ne_none _
    · exact Option.some_ne_none _
  | joining i =>
    by_cases hi : i < args.nthreads
    · obtain ⟨pc, hpc⟩ :=
        Option.ne_none_iff_exists'.mp (hc.resolve_left (by simp [hmain]) i hi)
      cases hreturned : r.hasReturned pc with
      | true =>
        refine ⟨.main, { s with main := .joining (i + 1) }, ?_⟩
        have hlt : i < MAXTHREADS := Nat.lt_of_lt_of_le hi hmax
        simp [Process.step, Process.mainStep, hmain, hi, hlt, hpc, hreturned]
      | false =>
        obtain ⟨j, pcj, hj, next, hnext⟩ := hl.goesOn _ _ _ _ hs.threads hpc hi hreturned
        refine ⟨.thread j, Option.ne_none_iff_exists'.mp ?_⟩
        simp [Process.step, Process.threadStep, hmain, hj, hs.myid j pcj hj, hnext]
    · refine ⟨.main, { s with main := .summing 0 0 }, ?_⟩
      simp [Process.step, Process.mainStep, hmain, hi]
  | summing i result =>
    refine ⟨.main, { s with main := r.collect args s.globals i result }, ?_⟩
    simp only [Process.step, Process.mainStep, hmain]
  | exited result error => exact absurd hmain (hgoing result error)
  | undefined => exact absurd hmain hs.ne_undefined

/-- From every state that a run reaches, every schedule comes to the exit of `main`, with the
closed form as the result and without an error. -/
def ComesToEnd (r : SumProgram γ τ) (args : Arguments) : Prop :=
  ∀ as s, run (Process.step r args) (Process.start r args) as = some s →
    Completes (Process.step r args)
      (fun t => t.main = .exited (args.nelems * (args.nelems - 1) / 2) false) s

/-- A program that meets both demands of the frame comes to its end. -/
theorem comesToEnd_of_lively (h : Keeps r args I C) (hl : Lively r args I C work)
    (hpos : args.nthreads ≠ 0) (hmax : args.nthreads ≤ MAXTHREADS) : ComesToEnd r args := by
  intro as s hrun
  have hstart : AllCreated args (Process.start r args) := by
    refine .inl ⟨0, ?_⟩
    rw [Process.start, if_neg hpos]
  have hs : Sound r args I C s ∧ AllCreated args s := by
    refine run_invariant (I := fun s => Sound r args I C s ∧ AllCreated args s)
      ⟨sound_start h hpos, hstart⟩ ?_ hrun
    rintro t a u ⟨ht, hc⟩ ha
    have hu := ht.step h hmax ha
    exact ⟨hu, allCreated_step ht hc hu.ne_undefined ha⟩
  refine completes_of_measure (I := fun s => Sound r args I C s ∧ AllCreated args s)
    (μ := processLeft r args work) ?_ ?_ hs
  · rintro t a u ⟨ht, hc⟩ ha
    have hu := ht.step h hmax ha
    exact ⟨⟨hu, allCreated_step ht hc hu.ne_undefined ha⟩,
      processLeft_step h hl ht hu.ne_undefined ha⟩
  · rintro t ⟨ht, hc⟩ hstuck
    cases hmain : t.main with
    | exited result error =>
      have hsound := ht.main
      simp only [MainSound, hmain] at hsound
      rw [hsound.1, hsound.2]
      rfl
    | creating i | joining i | summing i result | undefined =>
      obtain ⟨a, u, hu⟩ := exists_sum_step hl ht hmax hc (by simp [hmain])
      rw [hstuck] at hu
      cases hu

/-! ## The three programs -/

/-- The iterations that a thread has still to do. -/
def iterations (l : Locals) : ℕ := l.stop - l.i

theorem iterations_init (c k : ℕ) : iterations (Locals.init c k) = c := by
  simp [iterations, Locals.init]

theorem iterations_next {l : Locals} (hi : l.i < l.stop) :
    iterations l.next + 1 = iterations l := by
  simp only [iterations, Locals.next]
  omega

/-- `main` goes through the cells of the threads. -/
theorem summing_addUp {g : ℕ → ℕ} {i result j sum : ℕ}
    (h : addUp args g i result = .summing j sum) : i < args.nthreads ∧ j = i + 1 := by
  unfold addUp at h
  split at h
  · rename_i hi
    split at h
    · cases h
      exact ⟨hi, rfl⟩
    · cases h
  · cases h

def arrayWork (args : Arguments) : ArrayPc → ℕ
  | .entry => 2 * args.nelemsPerThread + 2
  | .loop l => 2 * iterations l + 1
  | .loaded l _ => 2 * iterations l
  | .returned => 0

theorem lively_array (hmax : args.nthreads ≤ MAXTHREADS) :
    Lively sumArray args (arrayInv args) (Collects args) (arrayWork args) where
  lower := by
    intro g threads k pc g' pc' h hpc hnext
    have hk := h k
    rw [hpc] at hk
    cases pc with
    | entry =>
      obtain ⟨-, rfl⟩ := Prod.mk.inj (Turn.next.inj hnext)
      simp only [arrayWork, iterations_init]
      omega
    | loop l =>
      simp only [sumArray] at hnext
      split at hnext
      · split at hnext
        · obtain ⟨-, rfl⟩ := Prod.mk.inj (Turn.next.inj hnext)
          simp only [arrayWork]
          omega
        · cases hnext
      · obtain ⟨-, rfl⟩ := Prod.mk.inj (Turn.next.inj hnext)
        simp only [arrayWork]
        omega
    | loaded l old =>
      obtain ⟨-, rfl⟩ := Prod.mk.inj (Turn.next.inj hnext)
      have hless := iterations_next hk.2.1
      simp only [arrayWork]
      omega
    | returned => cases hnext
  goesOn := by
    intro g threads k pc h hpc hk hreturned
    refine ⟨k, pc, hpc, ?_⟩
    have hthread := h k
    rw [hpc] at hthread
    cases pc with
    | entry => exact ⟨_, rfl⟩
    | loop l =>
      have hmyid : l.myid < MAXTHREADS := by
        rw [hthread.1.myid]
        omega
      simp only [sumArray]
      split
      · exact ⟨_, rfl⟩
      · exact ⟨_, rfl⟩
    | loaded l old => exact ⟨_, rfl⟩
    | returned => simp [sumArray] at hreturned
  collect _ _ _ _ _ _ h := summing_addUp h

def localWork (args : Arguments) : LocalPc → ℕ
  | .entry => args.nelemsPerThread + 2
  | .loop l _ => iterations l + 1
  | .returned => 0

theorem lively_local (hmax : args.nthreads ≤ MAXTHREADS) :
    Lively sumLocal args (localInv args) (Collects args) (localWork args) where
  lower := by
    intro g threads k pc g' pc' h hpc hnext
    cases pc with
    | entry =>
      obtain ⟨-, rfl⟩ := Prod.mk.inj (Turn.next.inj hnext)
      simp only [localWork, iterations_init]
      omega
    | loop l sum =>
      simp only [sumLocal] at hnext
      split at hnext
      · rename_i hi
        obtain ⟨-, rfl⟩ := Prod.mk.inj (Turn.next.inj hnext)
        have hless := iterations_next hi
        simp only [localWork]
        omega
      · split at hnext
        · obtain ⟨-, rfl⟩ := Prod.mk.inj (Turn.next.inj hnext)
          simp only [localWork]
          omega
        · cases hnext
    | returned => cases hnext
  goesOn := by
    intro g threads k pc h hpc hk hreturned
    refine ⟨k, pc, hpc, ?_⟩
    have hthread := h k
    rw [hpc] at hthread
    cases pc with
    | entry => exact ⟨_, rfl⟩
    | loop l sum =>
      have hmyid : l.myid < MAXTHREADS := by
        rw [hthread.2.1.myid]
        omega
      simp only [sumLocal]
      split
      · exact ⟨_, rfl⟩
      · exact ⟨_, rfl⟩
    | returned => simp [sumLocal] at hreturned
  collect _ _ _ _ _ _ h := summing_addUp h

def mutexWork (args : Arguments) : MutexPc → ℕ
  | .entry => 4 * args.nelemsPerThread + 2
  | .loop l => 4 * iterations l + 1
  | .locked l => 4 * iterations l
  | .loaded l _ => 4 * iterations l - 1
  | .stored l => 4 * iterations l - 2
  | .returned => 0

/-- A thread between `P` and `V` does not wait. -/
theorem next_of_inside {g : Guarded} {c k : ℕ} {pc : MutexPc} (h : inside (some pc) = 1) :
    ∃ next, sumMutex.exec c (some k) g pc = .next next := by
  cases pc with
  | locked l => exact ⟨_, rfl⟩
  | loaded l old => exact ⟨_, rfl⟩
  | stored l => exact ⟨_, rfl⟩
  | entry => cases h
  | loop l => cases h
  | returned => cases h

/-- If the semaphore is taken, a thread is between `P` and `V`. -/
theorem MutexInv.exists_inside {g : Guarded} {threads : ℕ → Option MutexPc}
    (h : MutexInv args g threads) (htaken : ¬ 0 < g.mutex) :
    ∃ k pc, threads k = some pc ∧ inside (some pc) = 1 := by
  have hsum := h.mutex
  have hpos : ∑ k ∈ Finset.range args.nthreads, inside (threads k) ≠ 0 := by omega
  obtain ⟨k, -, hk⟩ := Finset.exists_ne_zero_of_sum_ne_zero hpos
  cases hpc : threads k with
  | none =>
    rw [hpc] at hk
    exact absurd rfl hk
  | some pc =>
    rw [hpc] at hk
    refine ⟨k, pc, hpc, ?_⟩
    cases pc with
    | locked l => rfl
    | loaded l old => rfl
    | stored l => rfl
    | entry => exact absurd rfl hk
    | loop l => exact absurd rfl hk
    | returned => exact absurd rfl hk

theorem lively_mutex : Lively sumMutex args (MutexInv args)
    (fun g i result => i = 0 ∧ result = 0 ∧ g.gsum = args.expected) (mutexWork args) where
  lower := by
    intro g threads k pc g' pc' h hpc hnext
    have hk := h.thread k
    rw [hpc] at hk
    cases pc with
    | entry =>
      obtain ⟨-, rfl⟩ := Prod.mk.inj (Turn.next.inj hnext)
      simp only [mutexWork, iterations_init]
      omega
    | loop l =>
      simp only [sumMutex] at hnext
      split at hnext
      · split at hnext
        · obtain ⟨-, rfl⟩ := Prod.mk.inj (Turn.next.inj hnext)
          simp only [mutexWork]
          omega
        · cases hnext
      · obtain ⟨-, rfl⟩ := Prod.mk.inj (Turn.next.inj hnext)
        simp only [mutexWork]
        omega
    | locked l =>
      obtain ⟨-, rfl⟩ := Prod.mk.inj (Turn.next.inj hnext)
      have hless := iterations_next hk.2
      simp only [mutexWork]
      omega
    | loaded l old =>
      obtain ⟨-, rfl⟩ := Prod.mk.inj (Turn.next.inj hnext)
      have hless := iterations_next hk.2.1
      simp only [mutexWork]
      omega
    | stored l =>
      obtain ⟨-, rfl⟩ := Prod.mk.inj (Turn.next.inj hnext)
      have hless := iterations_next hk.2
      simp only [mutexWork]
      omega
    | returned => cases hnext
  goesOn := by
    intro g threads k pc h hpc hk hreturned
    by_cases hfree : 0 < g.mutex
    · refine ⟨k, pc, hpc, ?_⟩
      cases pc with
      | entry => exact ⟨_, rfl⟩
      | loop l =>
        simp only [sumMutex, if_pos hfree]
        split
        · exact ⟨_, rfl⟩
        · exact ⟨_, rfl⟩
      | locked l => exact ⟨_, rfl⟩
      | loaded l old => exact ⟨_, rfl⟩
      | stored l => exact ⟨_, rfl⟩
      | returned => simp [sumMutex] at hreturned
    · obtain ⟨j, pcj, hj, hinside⟩ := h.exists_inside hfree
      exact ⟨j, pcj, hj, next_of_inside hinside⟩
  collect := by
    rintro g i result j sum - h
    cases h

end GolangSandbox.Analysis
