import GolangSandbox.Model.Bookkeeping
import GolangSandbox.Model.Transition
import GolangSandbox.Program.Dispatcher

/-!
# The backlog

An accepted job that no worker has received is in the buffer of `jobQueue`, with `dispatch`,
or with a goroutine that is not finished (`Accounted`). The buffer holds `maxQueueSize` jobs
and `dispatch` one, but `dispatch` starts a goroutine for every job without waiting for
anything, so what bounds the goroutines is nothing in the program.

As long as `dispatch` starts a goroutine only while fewer than `maxWorkers` of them are
unfinished (`Spare`), the backlog is at most `maxQueueSize + maxWorkers + 1`, and at that size
no request gets its job in. A step that breaks `Spare` leads over the bound with the requests
that come next (`overflow_of_not_spare`), and while no worker moves the backlog can have any
size (`backlog_unbounded`).
-/

set_option autoImplicit false

namespace GolangSandbox.Analysis

open GolangSandbox.Model GolangSandbox.Program GolangSandbox.Program.Dispatcher

variable {s t : Dispatcher}

/-- The number of goroutines of `dispatch` that have not sent their job. -/
def unfinished (s : Dispatcher) : ℕ := s.goroutines.countP (· ≠ .finished)

/-- The number of jobs that `dispatch` has taken off the queue and not yet given away. -/
def dispatching (s : Dispatcher) : ℕ := if s.dispatch = .receiving then 0 else 1

/-- The most jobs that the claim lets wait for a worker. -/
def backlogLimit (s : Dispatcher) : ℕ := s.maxQueueSize + s.maxWorkers + 1

/-- If `dispatch` starts a goroutine, fewer than `maxWorkers` are unfinished. -/
def Spare (s : Dispatcher) (a : Dispatcher.Action) : Prop :=
  a = .dispatch → s.dispatch = .spawning → unfinished s < s.maxWorkers

/-- Every accepted job was received or is in one of three places, and the buffer is not
overfull. -/
structure Accounted (s : Dispatcher) : Prop where
  count : s.accepted.length =
    s.received.length + s.jobQueue.length + dispatching s + unfinished s
  queue : s.jobQueue.length ≤ s.maxQueueSize

theorem accounted_newDispatcher (maxWorkers maxQueueSize : ℕ) :
    Accounted (newDispatcher maxWorkers maxQueueSize) := ⟨rfl, Nat.zero_le _⟩

/-- A goroutine that goes on without finishing stays unfinished. -/
theorem unfinished_goOn {g : ℕ} {p : Goroutine} (hg : s.goroutines[g]? = some p)
    (hp : p ≠ .finished) (p' : Goroutine) (hp' : p' ≠ .finished) :
    unfinished (s.goOn g p') = unfinished s := by
  have hcount := countP_set_add (fun q : Goroutine => decide (q ≠ .finished)) hg p'
  simp only [ne_eq, hp, hp', not_false_eq_true, decide_true, if_true] at hcount
  exact Nat.add_right_cancel hcount

theorem unfinished_finish {g : ℕ} {p : Goroutine} (hg : s.goroutines[g]? = some p)
    (hp : p ≠ .finished) : unfinished (s.goOn g .finished) + 1 = unfinished s := by
  have hcount := countP_set_add (fun q : Goroutine => decide (q ≠ .finished)) hg .finished
  simp only [ne_eq, hp, not_true, not_false_eq_true, decide_true, decide_false, if_true] at hcount
  exact hcount

theorem unfinished_spawn (s : Dispatcher) :
    unfinished { s with dispatch := .receiving, goroutines := s.goroutines ++ [.printing] } =
      unfinished s + 1 := by
  rw [unfinished, List.countP_append]
  rfl

theorem Accounted.goOn (h : Accounted s) {g : ℕ} {p : Goroutine} (hg : s.goroutines[g]? = some p)
    (hp : p ≠ .finished) (p' : Goroutine) (hp' : p' ≠ .finished) : Accounted (s.goOn g p') := by
  refine ⟨?_, h.queue⟩
  rw [unfinished_goOn hg hp p' hp']
  exact h.count

/-- The step lemma of the books. -/
theorem Accounted.step (h : Accounted s) {a : Dispatcher.Action} (ha : s.step a = some t) :
    Accounted t := by
  have hcount := h.count
  have hqueue := h.queue
  unfold dispatching at hcount
  cases effect_of_step ha with
  | @submit j hroom =>
    constructor
    · show (s.accepted ++ [j]).length = s.received.length + (s.jobQueue ++ [j]).length +
        (if s.dispatch = .receiving then 0 else 1) + unfinished s
      rw [List.length_append, List.length_append, List.length_singleton]
      omega
    · rw [List.length_append]
      exact hroom
  | @handoff j hpc hq =>
    rw [if_pos hpc] at hcount
    refine ⟨?_, hqueue⟩
    show (s.accepted ++ [j]).length = s.received.length + s.jobQueue.length + 1 + unfinished s
    rw [List.length_append, List.length_singleton]
    omega
  | @receive j jobQueue hpc hq =>
    rw [if_pos hpc, hq, List.length_cons] at hcount
    rw [hq, List.length_cons] at hqueue
    constructor
    · show s.accepted.length = s.received.length + jobQueue.length + 1 + unfinished s
      omega
    · show jobQueue.length ≤ s.maxQueueSize
      omega
  | assign hpc =>
    rw [hpc, if_neg (by simp)] at hcount
    exact ⟨hcount, hqueue⟩
  | spawn hpc =>
    rw [hpc, if_neg (by simp)] at hcount
    refine ⟨?_, hqueue⟩
    rw [unfinished_spawn]
    show s.accepted.length = s.received.length + s.jobQueue.length + 0 + (unfinished s + 1)
    omega
  | print hg => exact h.goOn hg (by simp) _ (by simp)
  | @fetch g w workerPool hg hpool =>
    have h' : Accounted { s with workerPool := workerPool } := ⟨h.count, h.queue⟩
    exact h'.goOn hg (by simp) _ (by simp)
  | announce hg => exact h.goOn hg (by simp) _ (by simp)
  | load hg => exact h.goOn hg (by simp) _ (by simp)
  | @send g w j hg hw =>
    have hfinish := unfinished_finish hg (by simp)
    refine ⟨?_, hqueue⟩
    show s.accepted.length = (s.received ++ [(w, j)]).length + s.jobQueue.length +
      (if s.dispatch = .receiving then 0 else 1) + unfinished (s.goOn g .finished)
    rw [List.length_append, List.length_singleton]
    omega
  | publish hw hroom => exact ⟨h.count, h.queue⟩
  | complete hw => exact ⟨h.count, h.queue⟩
  | stop => exact ⟨h.count, h.queue⟩
  | quit hstop hw => exact ⟨h.count, h.queue⟩

/-- The sizes are the ones the dispatcher was made with. -/
theorem sizes_step {a : Dispatcher.Action} (ha : s.step a = some t) :
    t.maxQueueSize = s.maxQueueSize ∧ t.maxWorkers = s.maxWorkers := by
  cases effect_of_step ha with
  | _ => exact ⟨rfl, rfl⟩

/-- Only the start of a goroutine adds to the unfinished ones. -/
theorem unfinished_step {a : Dispatcher.Action} (hspare : Spare s a)
    (h : unfinished s ≤ s.maxWorkers) (ha : s.step a = some t) :
    unfinished t ≤ t.maxWorkers := by
  cases effect_of_step ha with
  | spawn hpc =>
    rw [unfinished_spawn]
    exact hspare rfl hpc
  | print hg =>
    rw [unfinished_goOn hg (by simp) _ (by simp)]
    exact h
  | @fetch g w workerPool hg hpool =>
    have hg' : ({ s with workerPool := workerPool } : Dispatcher).goroutines[g]? =
      some .fetching := hg
    rw [unfinished_goOn hg' (by simp) _ (by simp)]
    exact h
  | announce hg =>
    rw [unfinished_goOn hg (by simp) _ (by simp)]
    exact h
  | load hg =>
    rw [unfinished_goOn hg (by simp) _ (by simp)]
    exact h
  | @send g w j hg hw =>
    have hfinish := unfinished_finish hg (by simp)
    show unfinished (s.goOn g .finished) ≤ s.maxWorkers
    omega
  | _ => exact h

/-! ## With room to spare -/

/-- The backlog is within the limit. -/
theorem Accounted.backlog_le (h : Accounted s) (hle : unfinished s ≤ s.maxWorkers) :
    s.accepted.length ≤ s.received.length + backlogLimit s := by
  obtain ⟨hcount, hqueue⟩ := h
  unfold dispatching at hcount
  unfold backlogLimit
  split at hcount <;> omega

/-- At the limit no request gets its job in. -/
theorem Accounted.full (h : Accounted s) (hle : unfinished s ≤ s.maxWorkers)
    (hfull : s.accepted.length = s.received.length + backlogLimit s) (j : Job) :
    s.step (.submit j) = none ∧ s.step (.handoff j) = none := by
  obtain ⟨hcount, hqueue⟩ := h
  unfold dispatching at hcount
  unfold backlogLimit at hfull
  split at hcount
  · omega
  · rename_i hpc
    constructor
    · exact if_neg (by omega)
    · exact if_neg fun hidle => hpc hidle.1

/-! ## Without -/

/-- Requests fill the buffer while nothing else moves. -/
theorem run_fill (j : Job) (n : ℕ) (hn : s.jobQueue.length + n ≤ s.maxQueueSize) :
    run Dispatcher.step s (List.replicate n (.submit j)) =
      some { s with
        jobQueue := s.jobQueue ++ List.replicate n j
        accepted := s.accepted ++ List.replicate n j } := by
  induction n generalizing s with
  | zero => simp only [List.replicate_zero, List.append_nil, run_nil]
  | succ n ih =>
    have hroom : s.jobQueue.length < s.maxQueueSize := by omega
    have hsubmit : s.step (.submit j) = some { s with
        jobQueue := s.jobQueue ++ [j], accepted := s.accepted ++ [j] } := if_pos hroom
    rw [List.replicate_succ, run_cons, hsubmit, Option.bind_some, ih]
    · simp only [List.append_assoc, List.singleton_append, List.replicate_succ]
    · simp only [List.length_append, List.length_singleton]
      omega

/-- With more than `maxWorkers` goroutines and `dispatch` busy, the requests that still get in
are too many. -/
theorem Accounted.overflow (h : Accounted s) (hpc : s.dispatch ≠ .receiving)
    (hlt : s.maxWorkers < unfinished s) :
    ∃ bs t, run Dispatcher.step s bs = some t ∧
      t.received.length + backlogLimit s < t.accepted.length := by
  have hcount := h.count
  have hqueue := h.queue
  rw [dispatching, if_neg hpc] at hcount
  refine ⟨_, _, run_fill default (s.maxQueueSize - s.jobQueue.length) (by omega), ?_⟩
  rw [List.length_append, List.length_replicate]
  unfold backlogLimit
  show s.received.length + _ < _
  omega

/-- `dispatch` gets one more job, from the queue or from a request. -/
theorem exists_next_job (s : Dispatcher) (hpc : s.dispatch = .receiving) :
    ∃ a t, s.step a = some t ∧ t.dispatch ≠ .receiving ∧ unfinished t = unfinished s := by
  cases hq : s.jobQueue with
  | nil => exact ⟨.handoff default, _, if_pos ⟨hpc, hq⟩, by simp, rfl⟩
  | cons j jobQueue =>
    refine ⟨.dispatch, { s with jobQueue := jobQueue, dispatch := .assigning j }, ?_, by simp, rfl⟩
    show s.stepDispatch = _
    rw [stepDispatch, hpc, hq]

/-- **A step that breaks the condition leads over the limit.** -/
theorem Accounted.overflow_of_not_spare (h : Accounted s) {a : Dispatcher.Action}
    (hbad : ¬ Spare s a) :
    ∃ bs t, run Dispatcher.step s (a :: bs) = some t ∧
      t.received.length + backlogLimit s < t.accepted.length := by
  unfold Spare at hbad
  simp only [Classical.not_imp, Nat.not_lt] at hbad
  obtain ⟨rfl, hpc, hle⟩ := hbad
  have hspawn : s.step .dispatch = some { s with
      dispatch := .receiving, goroutines := s.goroutines ++ [.printing] } := by
    show s.stepDispatch = _
    rw [stepDispatch, hpc]
  obtain ⟨b, v, hv, hbusy, hsame⟩ := exists_next_job { s with
    dispatch := .receiving, goroutines := s.goroutines ++ [.printing] } rfl
  have hsizes := sizes_step hv
  have hlt : v.maxWorkers < unfinished v := by
    rw [hsizes.2, hsame, unfinished_spawn]
    exact Nat.lt_succ_of_le hle
  obtain ⟨bs, t, ht, hover⟩ := ((h.step hspawn).step hv).overflow hbusy hlt
  refine ⟨b :: bs, t, ?_, ?_⟩
  · rw [run_cons_eq_some]
    exact ⟨_, hspawn, run_cons_eq_some.mpr ⟨v, hv, ht⟩⟩
  · rw [backlogLimit, hsizes.1, hsizes.2] at hover
    exact hover

/-- A request and `dispatch` come round, with one more goroutine. -/
theorem run_round (hpc : s.dispatch = .receiving) (hq : s.jobQueue = []) (j : Job) :
    run Dispatcher.step s [.handoff j, .dispatch, .dispatch] =
      some { s with
        job := j
        dispatch := .receiving
        goroutines := s.goroutines ++ [.printing]
        accepted := s.accepted ++ [j] } := by
  rw [run_cons_eq_some]
  exact ⟨_, if_pos ⟨hpc, hq⟩, rfl⟩

/-- While no worker moves, the backlog can have any size. -/
theorem backlog_unbounded (maxWorkers maxQueueSize n : ℕ) :
    ∃ as s, run Dispatcher.step (newDispatcher maxWorkers maxQueueSize) as = some s ∧
      s.received = [] ∧ s.accepted.length = n := by
  suffices hidle : ∃ as s, run Dispatcher.step (newDispatcher maxWorkers maxQueueSize) as = some s ∧
      s.received = [] ∧ s.accepted.length = n ∧ s.dispatch = .receiving ∧ s.jobQueue = [] by
    obtain ⟨as, s, hs, hreceived, hlength, -⟩ := hidle
    exact ⟨as, s, hs, hreceived, hlength⟩
  induction n with
  | zero => exact ⟨[], _, rfl, rfl, rfl, rfl, rfl⟩
  | succ n ih =>
    obtain ⟨as, s, hs, hreceived, hlength, hpc, hq⟩ := ih
    have hrun := run_append_eq_some.mpr ⟨s, hs, run_round hpc hq default⟩
    refine ⟨_, _, hrun, hreceived, ?_, rfl, hq⟩
    rw [List.length_append, hlength, List.length_singleton]

/-! ## The main theorem -/

/-- **The backlog.** In a run in which `dispatch` starts a goroutine only while fewer than
`maxWorkers` of them are unfinished, at most `maxQueueSize + maxWorkers + 1` accepted jobs are
not received by a worker, and with that many no request gets its job in. From every
reachable state a step that does not meet the condition leads to a larger backlog.
SOURCE: handleMillionRequest/main.go:85-94, 113-121, 123-144 -/
theorem backlog_bounded (maxWorkers maxQueueSize : ℕ) (as : List Dispatcher.Action)
    (s : Dispatcher)
    (h : run Dispatcher.step (newDispatcher maxWorkers maxQueueSize) as = some s) :
    (Along Dispatcher.step Spare (newDispatcher maxWorkers maxQueueSize) as →
      s.accepted.length ≤ s.received.length + (maxQueueSize + maxWorkers + 1) ∧
      (s.accepted.length = s.received.length + (maxQueueSize + maxWorkers + 1) →
        ∀ j, s.step (.submit j) = none ∧ s.step (.handoff j) = none)) ∧
    ∀ a, ¬ Spare s a → ∃ bs t, run Dispatcher.step s (a :: bs) = some t ∧
      t.received.length + (maxQueueSize + maxWorkers + 1) < t.accepted.length := by
  have hsizes : s.maxQueueSize = maxQueueSize ∧ s.maxWorkers = maxWorkers :=
    run_invariant (I := fun s => s.maxQueueSize = maxQueueSize ∧ s.maxWorkers = maxWorkers)
      ⟨rfl, rfl⟩ (fun _ _ _ hs ha =>
        ⟨(sizes_step ha).1.trans hs.1, (sizes_step ha).2.trans hs.2⟩) h
  have haccounted : Accounted s :=
    run_invariant (I := Accounted) (accounted_newDispatcher _ _) (fun _ _ _ hs ha => hs.step ha) h
  have hlimit : backlogLimit s = maxQueueSize + maxWorkers + 1 := by
    rw [backlogLimit, hsizes.1, hsizes.2]
  rw [← hlimit]
  refine ⟨fun hspare => ?_, fun a hbad => haccounted.overflow_of_not_spare hbad⟩
  have hunfinished : unfinished s ≤ s.maxWorkers :=
    run_induction_along (I := fun _ s => unfinished s ≤ s.maxWorkers) (Nat.zero_le _)
      (fun _ _ _ _ _ hs ha hstep => unfinished_step ha hs hstep) h hspare
  exact ⟨haccounted.backlog_le hunfinished, haccounted.full hunfinished⟩

instance (s : Dispatcher) (a : Dispatcher.Action) : Decidable (Spare s a) :=
  inferInstanceAs (Decidable (_ → _ → _))

/-- A worker receives the first of five jobs; two are with goroutines, one with `dispatch` and
one in the buffer. -/
def fiveJobs : List Dispatcher.Action :=
  [.worker 0, .handoff ⟨[97], 1⟩, .dispatch, .dispatch] ++ List.replicate 5 (.goroutine 0) ++
    [.handoff ⟨[98], 1⟩, .dispatch, .dispatch, .handoff ⟨[99], 1⟩, .dispatch, .dispatch,
      .handoff ⟨[100], 1⟩, .submit ⟨[101], 1⟩]

theorem backlog_bounded_five :
    ∃ s, run Dispatcher.step (newDispatcher 2 1) fiveJobs = some s ∧
      s.accepted.length = 5 ∧ s.received.length = 1 ∧
      ∀ j, s.step (.submit j) = none ∧ s.step (.handoff j) = none := by
  refine ⟨_, rfl, rfl, rfl, ?_⟩
  exact ((backlog_bounded 2 1 fiveJobs _ rfl).1 (by decide)).2 rfl

/-- One worker, no buffer: three jobs wait for a worker, one more than the limit. -/
theorem backlog_exceeds_limit :
    ∃ s, run Dispatcher.step (newDispatcher 1 0) [.handoff default, .dispatch, .dispatch,
        .handoff default, .dispatch, .dispatch, .handoff default] = some s ∧
      s.received = [] ∧ s.accepted.length = 3 ∧
      ¬ s.accepted.length ≤ s.received.length + (0 + 1 + 1) := by
  refine ⟨_, rfl, rfl, rfl, ?_⟩
  decide

end GolangSandbox.Analysis
