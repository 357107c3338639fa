import GolangSandbox.Model.Blocks
import GolangSandbox.Model.Transition
import GolangSandbox.Program.ParallelSum
import Mathlib.Algebra.Order.BigOperators.Group.Finset

/-!
# What the threads of the sums add

A program meets the frame's demands (`Keeps`) if its own invariant is kept by the creation
of a thread and by every step of one, and if `main` makes the closed form of what the
threads leave behind. Then every run stays defined and exits with the closed form
(`sound_of_run`). The invariants say what each thread has added so far: in its own cell
(`arrayInv`), in its local variable (`localInv`), or as its share of `gsum`, which only the
thread inside the critical section may change (`mutexInv`).

All this needs a cell of `myid` for every thread.
-/

set_option autoImplicit false

namespace GolangSandbox.Analysis

open GolangSandbox.Model GolangSandbox.Program

variable {γ τ : Type} {r : SumProgram γ τ} {args : Arguments} {s t : Process γ τ}

/-- The indices of a thread. -/
def indices (args : Arguments) (k : ℕ) : Finset ℕ :=
  Finset.Ico (Locals.init args.nelemsPerThread k).start (Locals.init args.nelemsPerThread k).stop

/-- The sum of the indices of a thread. -/
def blockSum (args : Arguments) (k : ℕ) : ℕ := ∑ x ∈ indices args k, x

/-- Every variable stays below this value. -/
def limit (args : Arguments) : ℕ := max args.nthreads (args.nelems * args.nelems)

/-- All threads are created and have returned. -/
def AllReturned (r : SumProgram γ τ) (args : Arguments) (threads : ℕ → Option τ) : Prop :=
  ∀ k < args.nthreads, ∃ pc, threads k = some pc ∧ r.hasReturned pc = true

/-- What the frame asks of a program with the invariant `I` for its threads and `C` for the
loop in which `main` collects the result. -/
structure Keeps (r : SumProgram γ τ) (args : Arguments) (I : γ → (ℕ → Option τ) → Prop)
    (C : γ → ℕ → ℕ → Prop) : Prop where
  start : I r.globals fun _ => none
  create : ∀ g threads k, I g threads → threads k = none → k < args.nthreads →
    I g (Function.update threads k (some r.entry))
  waits : ∀ c vargp g pc, r.hasReturned pc = true → r.exec c vargp g pc = .waits
  exec : ∀ g threads k pc, I g threads → threads k = some pc → k < args.nthreads →
    match r.exec args.nelemsPerThread (some k) g pc with
    | .waits => True
    | .undefined => False
    | .next (g', pc') => I g' (Function.update threads k (some pc'))
  collectStart : ∀ g threads, I g threads → AllReturned r args threads → C g 0 0
  collect : ∀ g i result, C g i result →
    match r.collect args g i result with
    | .summing j sum => C g j sum
    | .exited sum error => sum = args.expected ∧ error = false
    | _ => False
  globals_le : ∀ g threads v, I g threads →
    (∀ k pc, threads k = some pc → k < args.nthreads) → r.globalLongs g v → v ≤ limit args
  locals_le : ∀ g threads k pc v, I g threads → threads k = some pc → k < args.nthreads →
    v ∈ r.localLongs pc → v ≤ limit args
  result_le : ∀ g i result, C g i result → i ≤ limit args ∧ result ≤ limit args

/-- What holds where `main` is. -/
def MainSound (r : SumProgram γ τ) (args : Arguments) (C : γ → ℕ → ℕ → Prop) (s : Process γ τ) :
    Prop :=
  match s.main with
  | .creating i => i ≤ args.nthreads ∧ ∀ k, s.threads k = none ↔ i ≤ k
  | .joining i => i ≤ args.nthreads ∧ ∀ k < i, ∃ pc, s.threads k = some pc ∧
      r.hasReturned pc = true
  | .summing i result => AllReturned r args s.threads ∧ C s.globals i result
  | .exited result error => result = args.expected ∧ error = false
  | .undefined => False

/-- The invariant of the process. -/
structure Sound (r : SumProgram γ τ) (args : Arguments) (I : γ → (ℕ → Option τ) → Prop)
    (C : γ → ℕ → ℕ → Prop) (s : Process γ τ) : Prop where
  threads : I s.globals s.threads
  myid : ∀ k pc, s.threads k = some pc → s.myid k = some k
  myid_lt : ∀ k v, s.myid k = some v → v < args.nthreads
  main : MainSound r args C s

variable {I : γ → (ℕ → Option τ) → Prop} {C : γ → ℕ → ℕ → Prop}

theorem sound_start (h : Keeps r args I C) (hpos : args.nthreads ≠ 0) :
    Sound r args I C (Process.start r args) where
  threads := h.start
  myid := nofun
  myid_lt := nofun
  main := by
    unfold MainSound Process.start
    rw [if_neg hpos]
    exact ⟨Nat.zero_le _, fun k => iff_of_true rfl (Nat.zero_le k)⟩

/-- `main` creates the next thread. -/
theorem Sound.created {i : ℕ} (h : Keeps r args I C) (hs : Sound r args I C s)
    (hmain : s.main = .creating i) (hi : i < args.nthreads) :
    Sound r args I C { s with
      main := .creating (i + 1)
      myid := Function.update s.myid i (some i)
      threads := Function.update s.threads i (some r.entry) } := by
  have hsound := hs.main
  simp only [MainSound, hmain] at hsound
  obtain ⟨-, hnone⟩ := hsound
  refine ⟨?_, ?_, ?_, ?_⟩
  · exact h.create _ _ i hs.threads ((hnone i).mpr (Nat.le_refl i)) hi
  · intro k pc hk
    dsimp only at hk ⊢
    by_cases hki : k = i
    · rw [hki, Function.update_self]
    · rw [Function.update_of_ne hki] at hk ⊢
      exact hs.myid k pc hk
  · intro k v hv
    dsimp only at hv
    by_cases hki : k = i
    · rw [hki, Function.update_self] at hv
      cases hv
      exact hi
    · rw [Function.update_of_ne hki] at hv
      exact hs.myid_lt k v hv
  · refine ⟨hi, fun k => ?_⟩
    dsimp only
    by_cases hki : k = i
    · subst hki
      refine iff_of_false ?_ (by omega)
      rw [Function.update_self]
      exact nofun
    · rw [Function.update_of_ne hki, hnone k]
      omega

/-- `main` goes on and leaves the variables as they are. -/
theorem Sound.goes {m : Main} (hs : Sound r args I C s)
    (hm : MainSound r args C { s with main := m }) : Sound r args I C { s with main := m } :=
  ⟨hs.threads, hs.myid, hs.myid_lt, hm⟩

theorem Sound.mainStep (h : Keeps r args I C) (hmax : args.nthreads ≤ MAXTHREADS)
    (hs : Sound r args I C s) (ht : s.mainStep r args = some t) : Sound r args I C t := by
  have hsound := hs.main
  unfold Process.mainStep at ht
  cases hmain : s.main with
  | creating i =>
    simp only [MainSound, hmain] at hsound
    simp only [hmain] at ht
    by_cases hi : i < args.nthreads
    · rw [if_pos hi, if_pos (by omega)] at ht
      cases ht
      exact hs.created h hmain hi
    · rw [if_neg hi] at ht
      cases ht
      exact hs.goes ⟨Nat.zero_le _, nofun⟩
  | joining i =>
    simp only [MainSound, hmain] at hsound
    simp only [hmain] at ht
    obtain ⟨hle, hjoined⟩ := hsound
    by_cases hi : i < args.nthreads
    · rw [if_pos hi, if_pos (by omega)] at ht
      split at ht
      · rename_i hreturned
        cases ht
        refine hs.goes ⟨hi, fun k hk => ?_⟩
        obtain hlt | rfl := Nat.lt_succ_iff_lt_or_eq.mp hk
        · exact hjoined k hlt
        · exact (Option.any_eq_true _ _).mp hreturned
      · cases ht
    · rw [if_neg hi] at ht
      cases ht
      have hall : AllReturned r args s.threads := fun k hk => hjoined k (by omega)
      exact hs.goes ⟨hall, h.collectStart _ _ hs.threads hall⟩
  | summing i result =>
    simp only [MainSound, hmain] at hsound
    simp only [hmain] at ht
    cases ht
    have hcollect := h.collect _ _ _ hsound.2
    apply hs.goes
    cases hm : r.collect args s.globals i result with
    | summing j sum =>
      rw [hm] at hcollect
      exact ⟨hsound.1, hcollect⟩
    | exited sum error =>
      rw [hm] at hcollect
      exact hcollect
    | creating j => simp only [hm] at hcollect
    | joining j => simp only [hm] at hcollect
    | undefined => simp only [hm] at hcollect
  | exited result error =>
    simp only [hmain] at ht
    cases ht
  | undefined =>
    simp only [hmain] at ht
    cases ht

/-- A thread that exists has an index below the number of threads. -/
theorem Sound.lt_nthreads {k : ℕ} {pc : τ} (hs : Sound r args I C s)
    (hk : s.threads k = some pc) : k < args.nthreads := hs.myid_lt k k (hs.myid k pc hk)

theorem Sound.threadStep {k : ℕ} (h : Keeps r args I C) (hs : Sound r args I C s)
    (ht : s.threadStep r args k = some t) : Sound r args I C t := by
  unfold Process.threadStep at ht
  obtain ⟨pc, hpc, ht⟩ := Option.bind_eq_some_iff.mp ht
  have hlt := hs.lt_nthreads hpc
  have hexec := h.exec _ _ k pc hs.threads hpc hlt
  rw [hs.myid k pc hpc] at ht
  have hwaits := h.waits args.nelemsPerThread (some k) s.globals pc
  cases hturn : r.exec args.nelemsPerThread (some k) s.globals pc with
  | waits =>
    rw [hturn] at ht
    cases ht
  | undefined =>
    rw [hturn] at hexec
    exact hexec.elim
  | next state =>
    obtain ⟨g, pc'⟩ := state
    have hrunning : r.hasReturned pc ≠ true := by
      intro hreturned
      rw [hwaits hreturned] at hturn
      cases hturn
    -- A thread that has returned makes no step, so it is not the one that moves.
    have hreturned : ∀ j, (∃ pc, s.threads j = some pc ∧ r.hasReturned pc = true) →
        ∃ pc, Function.update s.threads k (some pc') j = some pc ∧ r.hasReturned pc = true := by
      rintro j ⟨pcj, hj, hret⟩
      have hjk : j ≠ k := by
        rintro rfl
        rw [hpc] at hj
        cases hj
        exact hrunning hret
      exact ⟨pcj, by rw [Function.update_of_ne hjk, hj], hret⟩
    rw [hturn] at ht hexec
    cases ht
    refine ⟨hexec, ?_, hs.myid_lt, ?_⟩
    · intro j pcj hj
      dsimp only at hj ⊢
      by_cases hjk : j = k
      · subst hjk
        exact hs.myid j pc hpc
      · rw [Function.update_of_ne hjk] at hj
        exact hs.myid j pcj hj
    · have hsound := hs.main
      unfold MainSound at hsound ⊢
      cases hmain : s.main with
      | creating i =>
        simp only [hmain] at hsound ⊢
        refine ⟨hsound.1, fun j => ?_⟩
        rw [← hsound.2 j]
        by_cases hjk : j = k
        · subst hjk
          rw [Function.update_self, hpc]
          exact iff_of_false nofun nofun
        · rw [Function.update_of_ne hjk]
      | joining i =>
        simp only [hmain] at hsound ⊢
        exact ⟨hsound.1, fun j hj => hreturned j (hsound.2 j hj)⟩
      | summing i result =>
        simp only [hmain] at hsound ⊢
        obtain ⟨pcj, hj, hret⟩ := hsound.1 k hlt
        rw [hpc] at hj
        cases hj
        exact absurd hret hrunning
      | exited result error =>
        simp only [hmain] at hsound ⊢
        exact hsound
      | undefined => simp only [hmain] at hsound

theorem Sound.step {a : Mover} (h : Keeps r args I C) (hmax : args.nthreads ≤ MAXTHREADS)
    (hs : Sound r args I C s) (ht : s.step r args a = some t) : Sound r args I C t := by
  unfold Process.step at ht
  split at ht
  · cases ht
  · cases ht
  · exact hs.mainStep h hmax ht
  · exact hs.threadStep h ht

/-- **Every run is sound** when there is a cell for every thread. -/
theorem sound_of_run {as : List Mover} (h : Keeps r args I C) (hpos : args.nthreads ≠ 0)
    (hmax : args.nthreads ≤ MAXTHREADS)
    (hs : run (Process.step r args) (Process.start r args) as = some s) : Sound r args I C s :=
  run_invariant (sound_start h hpos) (fun _ _ _ hs ht => hs.step h hmax ht) hs

/-- The values of all variables stay below the limit. -/
theorem Sound.holds_le {v : ℕ} (h : Keeps r args I C) (hs : Sound r args I C s)
    (hv : s.Holds r args v) : v ≤ limit args := by
  have hthreads : args.nthreads ≤ limit args := Nat.le_max_left _ _
  have helems : args.nelems * args.nelems ≤ limit args := Nat.le_max_right _ _
  have hself := Nat.le_mul_self args.nelems
  obtain hv | hv | ⟨k, hv⟩ | hv | ⟨k, pc, hpc, hv⟩ := hv
  · have hdiv : args.nelemsPerThread ≤ args.nelems := Nat.div_le_self _ _
    simp only [List.mem_cons, List.not_mem_nil, or_false] at hv
    omega
  · have hsound := hs.main
    unfold MainSound at hsound
    cases hmain : s.main with
    | creating i | joining i =>
      simp only [hmain, Main.longs, List.mem_singleton] at hsound hv
      omega
    | summing i result =>
      simp only [hmain, Main.longs, List.mem_cons, List.not_mem_nil, or_false] at hsound hv
      have := h.result_le _ _ _ hsound.2
      omega
    | exited result error =>
      simp only [hmain, Main.longs, List.mem_cons, List.not_mem_nil, or_false] at hsound hv
      have hproduct : args.nelems * (args.nelems - 1) ≤ args.nelems * args.nelems :=
        Nat.mul_le_mul_left _ (Nat.sub_le _ _)
      have hhalf : args.expected ≤ args.nelems * (args.nelems - 1) := Nat.div_le_self _ _
      omega
    | undefined =>
      simp only [hmain, Main.longs, List.not_mem_nil] at hv
  · have := hs.myid_lt k v hv
    omega
  · exact h.globals_le _ _ v hs.threads (fun k pc => hs.lt_nthreads) hv
  · exact h.locals_le _ _ k pc v hs.threads hpc (hs.lt_nthreads hpc) hv

/-! ## The loop of a thread -/

/-- The thread `k` in its loop. -/
structure InLoop (args : Arguments) (k : ℕ) (l : Locals) : Prop where
  myid : l.myid = k
  start : l.start = (Locals.init args.nelemsPerThread k).start
  stop : l.stop = (Locals.init args.nelemsPerThread k).stop
  start_le : l.start ≤ l.i
  le_stop : l.i ≤ l.stop

/-- The sum of the indices that the loop has passed. -/
def added (l : Locals) : ℕ := ∑ x ∈ Finset.Ico l.start l.i, x

theorem inLoop_init (args : Arguments) (k : ℕ) :
    InLoop args k (Locals.init args.nelemsPerThread k) :=
  ⟨rfl, rfl, rfl, Nat.le_refl _, Nat.le_add_right _ _⟩

@[simp] theorem added_init (c k : ℕ) : added (Locals.init c k) = 0 := by
  simp [added, Locals.init]

variable {l : Locals} {k : ℕ}

theorem InLoop.next (h : InLoop args k l) (hlt : l.i < l.stop) : InLoop args k l.next :=
  ⟨h.myid, h.start, h.stop, Nat.le_succ_of_le h.start_le, hlt⟩

theorem InLoop.added_next (h : InLoop args k l) : added l.next = added l + l.i :=
  Finset.sum_Ico_succ_top h.start_le _

/-- At the end of the loop the thread has added all its indices. -/
theorem InLoop.ended (h : InLoop args k l) (hstop : ¬ l.i < l.stop) :
    added l = blockSum args k := by
  have heq : l.i = l.stop := Nat.le_antisymm h.le_stop (Nat.le_of_not_lt hstop)
  rw [added, blockSum, indices, heq, h.start, h.stop]

theorem InLoop.added_le (h : InLoop args k l) : added l ≤ blockSum args k := by
  rw [added, blockSum, indices, ← h.start, ← h.stop]
  apply Finset.sum_le_sum_of_subset
  exact Finset.Ico_subset_Ico_right h.le_stop

/-! ## The closed form -/

/-- **The threads' sums add up to the closed form.** -/
theorem sum_blockSum (hdvd : args.nthreads ∣ args.nelems) :
    ∑ k ∈ Finset.range args.nthreads, blockSum args k = args.expected := by
  have hblocks := sum_blocks id args.nelemsPerThread args.nthreads
  have hall : args.nthreads * args.nelemsPerThread = args.nelems := Nat.mul_div_cancel' hdvd
  rw [hall] at hblocks
  exact hblocks.trans (Finset.sum_range_id _)

theorem expected_le (args : Arguments) : args.expected ≤ limit args := by
  have hhalf : args.expected ≤ args.nelems * (args.nelems - 1) := Nat.div_le_self _ _
  have hproduct : args.nelems * (args.nelems - 1) ≤ args.nelems * args.nelems :=
    Nat.mul_le_mul_left _ (Nat.sub_le _ _)
  exact (hhalf.trans hproduct).trans (Nat.le_max_right _ _)

theorem blockSum_le (hdvd : args.nthreads ∣ args.nelems) (hk : k < args.nthreads) :
    blockSum args k ≤ limit args := by
  refine le_trans ?_ ((sum_blockSum hdvd).trans_le (expected_le args))
  exact Finset.single_le_sum (fun _ _ => Nat.zero_le _) (Finset.mem_range.mpr hk)

theorem InLoop.longs_le {v : ℕ} (h : InLoop args k l) (hdvd : args.nthreads ∣ args.nelems)
    (hk : k < args.nthreads) (hv : v ∈ l.longs) : v ≤ limit args := by
  have hthreads : args.nthreads ≤ limit args := Nat.le_max_left _ _
  have helems : args.nelems * args.nelems ≤ limit args := Nat.le_max_right _ _
  have hself := Nat.le_mul_self args.nelems
  have hall : args.nthreads * args.nelemsPerThread = args.nelems := Nat.mul_div_cancel' hdvd
  have hlast : (k + 1) * args.nelemsPerThread ≤ args.nthreads * args.nelemsPerThread :=
    Nat.mul_le_mul_right _ hk
  have hstop : l.stop = k * args.nelemsPerThread + args.nelemsPerThread := h.stop
  rw [Nat.add_mul, Nat.one_mul] at hlast
  have hmyid := h.myid
  have hstart := h.start_le
  have hle := h.le_stop
  simp only [Locals.longs, List.mem_cons, List.not_mem_nil, or_false] at hv
  omega

/-! ## The programs with an array of partial sums -/

/-- The thread `k` moves and its cell changes. -/
theorem forall_update {P : ℕ → ℕ → Option τ → Prop} {psum : ℕ → ℕ} {threads : ℕ → Option τ}
    {v : ℕ} {x : Option τ} (h : ∀ j, P j (psum j) (threads j)) (hk : P k v x) :
    ∀ j, P j (Function.update psum k v j) (Function.update threads k x j) := by
  intro j
  by_cases hj : j = k
  · rw [hj, Function.update_self, Function.update_self]
    exact hk
  · rw [Function.update_of_ne hj, Function.update_of_ne hj]
    exact h j

/-- The thread `k` moves and no cell changes. -/
theorem forall_update_thread {P : ℕ → ℕ → Option τ → Prop} {psum : ℕ → ℕ}
    {threads : ℕ → Option τ} {x : Option τ} (h : ∀ j, P j (psum j) (threads j))
    (hk : P k (psum k) x) : ∀ j, P j (psum j) (Function.update threads k x j) := by
  have hupdate := forall_update h hk
  rwa [Function.update_eq_self] at hupdate

/-- The loop in which `main` adds up the cells. -/
def Collects (args : Arguments) (psum : ℕ → ℕ) (i result : ℕ) : Prop :=
  i ≤ args.nthreads ∧ result = ∑ k ∈ Finset.range i, psum k ∧
    ∀ k < args.nthreads, psum k = blockSum args k

theorem Collects.le_expected {psum : ℕ → ℕ} {i result : ℕ} (h : Collects args psum i result)
    (hdvd : args.nthreads ∣ args.nelems) : result ≤ args.expected := by
  obtain ⟨hle, rfl, hcells⟩ := h
  rw [← sum_blockSum hdvd]
  have hfirst : ∑ k ∈ Finset.range i, psum k = ∑ k ∈ Finset.range i, blockSum args k := by
    apply Finset.sum_congr rfl
    intro k hk
    exact hcells k (Nat.lt_of_lt_of_le (Finset.mem_range.mp hk) hle)
  rw [hfirst]
  exact Finset.sum_le_sum_of_subset (Finset.range_subset_range.mpr hle)

theorem Collects.addUp {psum : ℕ → ℕ} {i result : ℕ} (h : Collects args psum i result)
    (hmax : args.nthreads ≤ MAXTHREADS) (hdvd : args.nthreads ∣ args.nelems) :
    match addUp args psum i result with
    | .summing j sum => Collects args psum j sum
    | .exited sum error => sum = args.expected ∧ error = false
    | _ => False := by
  obtain ⟨hle, hsum, hcells⟩ := h
  unfold Program.addUp
  by_cases hi : i < args.nthreads
  · rw [if_pos hi, if_pos (by omega)]
    refine ⟨hi, ?_, hcells⟩
    rw [Finset.sum_range_succ, hsum]
  · rw [if_neg hi]
    have heq : i = args.nthreads := by omega
    have hall : result = args.expected := by
      rw [hsum, heq, ← sum_blockSum hdvd]
      apply Finset.sum_congr rfl
      intro k hk
      exact hcells k (Finset.mem_range.mp hk)
    exact ⟨hall, decide_eq_false (not_not.mpr hall)⟩

theorem Collects.le_limit {psum : ℕ → ℕ} {i result : ℕ} (h : Collects args psum i result)
    (hdvd : args.nthreads ∣ args.nelems) : i ≤ limit args ∧ result ≤ limit args :=
  ⟨h.1.trans (Nat.le_max_left _ _), (h.le_expected hdvd).trans (expected_le args)⟩

/-- When all threads have returned, their cells hold the sums of their indices. -/
theorem collects_start {P : ℕ → ℕ → Option τ → Prop} {psum : ℕ → ℕ} {threads : ℕ → Option τ}
    (h : ∀ j, P j (psum j) (threads j)) (hall : AllReturned r args threads)
    (hend : ∀ k cell pc, r.hasReturned pc = true → P k cell (some pc) → cell = blockSum args k) :
    Collects args psum 0 0 := by
  refine ⟨Nat.zero_le _, rfl, fun k hk => ?_⟩
  obtain ⟨pc, hpc, hreturned⟩ := hall k hk
  have hcell := h k
  rw [hpc] at hcell
  exact hend k _ pc hreturned hcell

/-- A cell without a thread is zero, and the others hold no more than the sum of the indices. -/
theorem cell_le {P : ℕ → ℕ → Option τ → Prop} {psum : ℕ → ℕ} {threads : ℕ → Option τ}
    (hdvd : args.nthreads ∣ args.nelems) (h : ∀ j, P j (psum j) (threads j))
    (hthreads : ∀ k pc, threads k = some pc → k < args.nthreads)
    (hnone : ∀ k cell, P k cell none → cell = 0)
    (hle : ∀ k cell pc, P k cell pc → cell ≤ blockSum args k) (k : ℕ) :
    psum k ≤ limit args := by
  cases hpc : threads k with
  | none =>
    have hcell := h k
    rw [hpc] at hcell
    exact (hnone k _ hcell).trans_le (Nat.zero_le _)
  | some pc => exact (hle k _ _ (h k)).trans (blockSum_le hdvd (hthreads k pc hpc))

/-- What the thread `k` of `psum-array` has put in its cell. -/
def ArrayThread (args : Arguments) (k cell : ℕ) : Option ArrayPc → Prop
  | none | some .entry => cell = 0
  | some (.loop l) => InLoop args k l ∧ cell = added l
  | some (.loaded l old) => InLoop args k l ∧ l.i < l.stop ∧ old = cell ∧ cell = added l
  | some .returned => cell = blockSum args k

def arrayInv (args : Arguments) (psum : ℕ → ℕ) (threads : ℕ → Option ArrayPc) : Prop :=
  ∀ k, ArrayThread args k (psum k) (threads k)

theorem ArrayThread.le_blockSum {cell : ℕ} {pc : Option ArrayPc}
    (h : ArrayThread args k cell pc) : cell ≤ blockSum args k := by
  match pc, h with
  | none, h | some .entry, h => exact h.trans_le (Nat.zero_le _)
  | some (.loop l), h => exact h.2.trans_le h.1.added_le
  | some (.loaded l old), h => exact h.2.2.2.trans_le h.1.added_le
  | some .returned, h => exact Nat.le_of_eq h

theorem keeps_array (hmax : args.nthreads ≤ MAXTHREADS) (hdvd : args.nthreads ∣ args.nelems) :
    Keeps sumArray args (arrayInv args) (Collects args) where
  start := fun _ => rfl
  create := by
    intro g threads k h hnone _
    have hk := h k
    rw [hnone] at hk
    exact forall_update_thread h hk
  waits := by
    intro c vargp g pc hreturned
    rw [of_decide_eq_true hreturned]
    rfl
  exec := by
    intro g threads k pc h hpc hlt
    have hk := h k
    rw [hpc] at hk
    cases pc with
    | entry =>
      apply forall_update_thread h
      exact ⟨inLoop_init args k, hk.trans (added_init _ _).symm⟩
    | loop l =>
      obtain ⟨hl, hcell⟩ := hk
      simp only [sumArray]
      by_cases hi : l.i < l.stop
      · rw [if_pos hi, if_pos (by rw [hl.myid]; omega), hl.myid]
        exact forall_update_thread h ⟨hl, hi, rfl, hcell⟩
      · rw [if_neg hi]
        exact forall_update_thread h (hcell.trans (hl.ended hi))
    | loaded l old =>
      obtain ⟨hl, hi, hold, hcell⟩ := hk
      simp only [sumArray]
      rw [hl.myid]
      apply forall_update h
      exact ⟨hl.next hi, by rw [hl.added_next, hold, hcell]⟩
    | returned => trivial
  collectStart := by
    intro g threads h hall
    apply collects_start h hall
    intro k cell pc hreturned hcell
    rwa [of_decide_eq_true hreturned] at hcell
  collect := fun _ _ _ h => h.addUp hmax hdvd
  globals_le := by
    rintro g threads v h hthreads ⟨k, rfl⟩
    exact cell_le hdvd h hthreads (fun _ _ hcell => hcell) (fun _ _ _ hk => hk.le_blockSum) k
  locals_le := by
    intro g threads k pc v h hpc hlt hv
    have hk := h k
    have hle := hk.le_blockSum.trans (blockSum_le hdvd hlt)
    rw [hpc] at hk
    match pc, hk with
    | .entry, hk | .returned, hk => cases hv
    | .loop l, hk => exact hk.1.longs_le hdvd hlt hv
    | .loaded l old, hk =>
      obtain rfl | hv := List.mem_cons.mp hv
      · rwa [hk.2.2.1]
      · exact hk.1.longs_le hdvd hlt hv
  result_le := fun _ _ _ h => h.le_limit hdvd

/-- What the thread `k` of `psum-local` has in its sum or has put in its cell. -/
def LocalThread (args : Arguments) (k cell : ℕ) : Option LocalPc → Prop
  | none | some .entry => cell = 0
  | some (.loop l sum) => cell = 0 ∧ InLoop args k l ∧ sum = added l
  | some .returned => cell = blockSum args k

def localInv (args : Arguments) (psum : ℕ → ℕ) (threads : ℕ → Option LocalPc) : Prop :=
  ∀ k, LocalThread args k (psum k) (threads k)

theorem LocalThread.le_blockSum {cell : ℕ} {pc : Option LocalPc}
    (h : LocalThread args k cell pc) : cell ≤ blockSum args k := by
  match pc, h with
  | none, h | some .entry, h => exact h.trans_le (Nat.zero_le _)
  | some (.loop l sum), h => exact h.1.trans_le (Nat.zero_le _)
  | some .returned, h => exact Nat.le_of_eq h

theorem keeps_local (hmax : args.nthreads ≤ MAXTHREADS) (hdvd : args.nthreads ∣ args.nelems) :
    Keeps sumLocal args (localInv args) (Collects args) where
  start := fun _ => rfl
  create := by
    intro g threads k h hnone _
    have hk := h k
    rw [hnone] at hk
    exact forall_update_thread h hk
  waits := by
    intro c vargp g pc hreturned
    rw [of_decide_eq_true hreturned]
    rfl
  exec := by
    intro g threads k pc h hpc hlt
    have hk := h k
    rw [hpc] at hk
    cases pc with
    | entry =>
      apply forall_update_thread h
      exact ⟨hk, inLoop_init args k, (added_init _ _).symm⟩
    | loop l sum =>
      obtain ⟨hcell, hl, hsum⟩ := hk
      simp only [sumLocal]
      by_cases hi : l.i < l.stop
      · rw [if_pos hi]
        apply forall_update_thread h
        exact ⟨hcell, hl.next hi, by rw [hl.added_next, hsum]⟩
      · rw [if_neg hi, if_pos (by rw [hl.myid]; omega), hl.myid]
        exact forall_update h (hsum.trans (hl.ended hi))
    | returned => trivial
  collectStart := by
    intro g threads h hall
    apply collects_start h hall
    intro k cell pc hreturned hcell
    rwa [of_decide_eq_true hreturned] at hcell
  collect := fun _ _ _ h => h.addUp hmax hdvd
  globals_le := by
    rintro g threads v h hthreads ⟨k, rfl⟩
    exact cell_le hdvd h hthreads (fun _ _ hcell => hcell) (fun _ _ _ hk => hk.le_blockSum) k
  locals_le := by
    intro g threads k pc v h hpc hlt hv
    have hk := h k
    rw [hpc] at hk
    match pc, hk with
    | .entry, hk | .returned, hk => cases hv
    | .loop l sum, hk =>
      obtain ⟨-, hl, hsum⟩ := hk
      obtain rfl | hv := List.mem_cons.mp hv
      · exact (hsum.trans_le hl.added_le).trans (blockSum_le hdvd hlt)
      · exact hl.longs_le hdvd hlt hv
  result_le := fun _ _ _ h => h.le_limit hdvd

/-! ## The program with one sum -/

/-- What the thread `k` has added to `gsum`. -/
def share (args : Arguments) (k : ℕ) : Option MutexPc → ℕ
  | none | some .entry => 0
  | some (.loop l) | some (.locked l) | some (.loaded l _) => added l
  | some (.stored l) => added l.next
  | some .returned => blockSum args k

/-- The thread is between `P` and `V`. -/
def inside : Option MutexPc → ℕ
  | some (.locked _) | some (.loaded _ _) | some (.stored _) => 1
  | _ => 0

def MutexThread (args : Arguments) (k gsum : ℕ) : Option MutexPc → Prop
  | some (.loop l) => InLoop args k l
  | some (.locked l) | some (.stored l) => InLoop args k l ∧ l.i < l.stop
  | some (.loaded l old) => InLoop args k l ∧ l.i < l.stop ∧ old = gsum
  | _ => True

structure MutexInv (args : Arguments) (g : Guarded) (threads : ℕ → Option MutexPc) : Prop where
  thread : ∀ k, MutexThread args k g.gsum (threads k)
  gsum : g.gsum = ∑ k ∈ Finset.range args.nthreads, share args k (threads k)
  mutex : g.mutex + ∑ k ∈ Finset.range args.nthreads, inside (threads k) = 1
  created : ∀ k, args.nthreads ≤ k → threads k = none

/-- A thread outside the critical section does not know `gsum`. -/
theorem MutexThread.outside {gsum gsum' : ℕ} {pc : Option MutexPc}
    (h : MutexThread args k gsum pc) (hout : inside pc = 0) : MutexThread args k gsum' pc := by
  match pc, h with
  | none, _ | some .entry, _ | some .returned, _ => trivial
  | some (.loop l), h => exact h
  | some (.locked l), _ | some (.loaded l old), _ | some (.stored l), _ => cases hout

theorem MutexThread.share_le {gsum : ℕ} {pc : Option MutexPc}
    (h : MutexThread args k gsum pc) : share args k pc ≤ blockSum args k := by
  match pc, h with
  | none, _ | some .entry, _ => exact Nat.zero_le _
  | some (.loop l), h => exact h.added_le
  | some (.locked l), h | some (.loaded l old), h => exact h.1.added_le
  | some (.stored l), h => exact (h.1.next h.2).added_le
  | some .returned, _ => exact Nat.le_refl _

variable {g g' : Guarded} {threads : ℕ → Option MutexPc}

/-- **Mutual exclusion.** -/
theorem MutexInv.alone (h : MutexInv args g threads) (hk : inside (threads k) = 1) {j : ℕ}
    (hjk : j ≠ k) : inside (threads j) = 0 := by
  have hexists : ∀ i, threads i ≠ none → i ∈ Finset.range args.nthreads := by
    intro i hi
    by_contra hout
    exact hi (h.created i (by rwa [Finset.mem_range, not_lt] at hout))
  by_cases hj : threads j = none
  · rw [hj]
    rfl
  · have hjmem := hexists j hj
    have hkmem : k ∈ Finset.range args.nthreads := by
      apply hexists
      intro hnone
      rw [hnone] at hk
      cases hk
    have hsum := Finset.sum_erase_add _ (fun i => inside (threads i)) hkmem
    have hle : inside (threads j) ≤
        ∑ i ∈ (Finset.range args.nthreads).erase k, inside (threads i) :=
      Finset.single_le_sum (f := fun i => inside (threads i)) (fun _ _ => Nat.zero_le _)
        (Finset.mem_erase.mpr ⟨hjk, hjmem⟩)
    have hmutex := h.mutex
    omega

/-- **A move of a thread** keeps the invariant if `gsum` and the semaphore change by what
the thread does, and only a thread in the critical section changes `gsum`. -/
theorem MutexInv.move (h : MutexInv args g threads) (hk : k < args.nthreads)
    {x : Option MutexPc} (hthread : MutexThread args k g'.gsum x)
    (hgsum : g'.gsum + share args k (threads k) = g.gsum + share args k x)
    (hmutex : g'.mutex + inside x = g.mutex + inside (threads k))
    (hothers : g'.gsum = g.gsum ∨ inside (threads k) = 1) :
    MutexInv args g' (Function.update threads k x) := by
  have hmem := Finset.mem_range.mpr hk
  have hshare := sum_update_add hmem (share args) threads x
  have hinside := sum_update_add hmem (fun _ => inside) threads x
  refine ⟨?_, ?_, ?_, ?_⟩
  · intro j
    by_cases hj : j = k
    · rw [hj, Function.update_self]
      exact hthread
    · rw [Function.update_of_ne hj]
      obtain heq | hone := hothers
      · rw [heq]
        exact h.thread j
      · exact (h.thread j).outside (h.alone hone hj)
  · have := h.gsum
    omega
  · have := h.mutex
    omega
  · intro j hj
    rw [Function.update_of_ne (by omega)]
    exact h.created j hj

theorem MutexInv.gsum_le (h : MutexInv args g threads) (hdvd : args.nthreads ∣ args.nelems) :
    g.gsum ≤ limit args := by
  refine le_trans ?_ (expected_le args)
  rw [h.gsum, ← sum_blockSum hdvd]
  apply Finset.sum_le_sum
  intro k _
  exact (h.thread k).share_le

theorem keeps_mutex (hdvd : args.nthreads ∣ args.nelems) :
    Keeps sumMutex args (MutexInv args)
      (fun g i result => i = 0 ∧ result = 0 ∧ g.gsum = args.expected) where
  start := by
    refine ⟨fun _ => trivial, ?_, ?_, fun _ _ => rfl⟩
    · simp [share, sumMutex]
    · simp [inside, sumMutex]
  create := by
    intro g threads k h hnone hlt
    apply h.move hlt
    · trivial
    · rw [hnone]
      rfl
    · rw [hnone]
      rfl
    · exact .inl rfl
  waits := by
    intro c vargp g pc hreturned
    rw [of_decide_eq_true hreturned]
    rfl
  exec := by
    intro g threads k pc h hpc hlt
    have hk := h.thread k
    rw [hpc] at hk
    cases pc with
    | entry =>
      apply h.move hlt
      · exact (inLoop_init args k)
      · rw [hpc, share, share, added_init]
      · rw [hpc]
        rfl
      · exact .inl rfl
    | loop l =>
      simp only [sumMutex]
      by_cases hi : l.i < l.stop
      · rw [if_pos hi]
        by_cases hmutex : 0 < g.mutex
        · rw [if_pos hmutex]
          apply h.move hlt
          · exact ⟨hk, hi⟩
          · rw [hpc]
            rfl
          · rw [hpc]
            simp only [inside]
            omega
          · exact .inl rfl
        · rw [if_neg hmutex]
          trivial
      · rw [if_neg hi]
        apply h.move hlt
        · exact trivial
        · rw [hpc]
          exact congrArg _ (hk.ended hi)
        · rw [hpc]
          rfl
        · exact .inl rfl
    | locked l =>
      apply h.move hlt
      · exact ⟨hk.1, hk.2, rfl⟩
      · rw [hpc]
        rfl
      · rw [hpc]
        rfl
      · exact .inl rfl
    | loaded l old =>
      obtain ⟨hl, hi, rfl⟩ := hk
      apply h.move hlt
      · exact ⟨hl, hi⟩
      · rw [hpc, share, share, hl.added_next]
        dsimp only
        omega
      · rw [hpc]
        rfl
      · rw [hpc]
        exact .inr rfl
    | stored l =>
      apply h.move hlt
      · exact (hk.1.next hk.2)
      · rw [hpc]
        rfl
      · rw [hpc]
        rfl
      · exact .inl rfl
    | returned => trivial
  collectStart := by
    intro g threads h hall
    refine ⟨rfl, rfl, ?_⟩
    rw [h.gsum, ← sum_blockSum hdvd]
    apply Finset.sum_congr rfl
    intro k hk
    obtain ⟨pc, hpc, hreturned⟩ := hall k (Finset.mem_range.mp hk)
    rw [hpc, of_decide_eq_true hreturned, share]
  collect := by
    rintro g i result ⟨-, -, hgsum⟩
    exact ⟨hgsum, decide_eq_false (not_not.mpr hgsum)⟩
  globals_le := by
    rintro g threads v h - rfl
    exact h.gsum_le hdvd
  locals_le := by
    intro g threads k pc v h hpc hlt hv
    have hk := h.thread k
    rw [hpc] at hk
    match pc, hk with
    | .entry, _ | .returned, _ => cases hv
    | .loop l, hk => exact hk.longs_le hdvd hlt hv
    | .locked l, hk | .stored l, hk => exact hk.1.longs_le hdvd hlt hv
    | .loaded l old, hk =>
      obtain rfl | hv := List.mem_cons.mp hv
      · rw [hk.2.2]
        exact h.gsum_le hdvd
      · exact hk.1.longs_le hdvd hlt hv
  result_le := by
    rintro g i result ⟨rfl, rfl, -⟩
    exact ⟨Nat.zero_le _, Nat.zero_le _⟩

end GolangSandbox.Analysis
