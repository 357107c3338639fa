import GolangSandbox.Analysis.Backlog
import GolangSandbox.Analysis.HandOff
import GolangSandbox.Analysis.Stopping
import GolangSandbox.Model.Termination

/-!
# The dispatcher drains

Between two requests the dispatcher is left to itself. What it still has to do is counted
by `toDo`: a job in the buffer costs three steps of `dispatch` and five of its goroutine,
and the worker that receives it takes two more to be ready again. Every step of the
dispatcher lowers this number, so it comes to rest whatever the schedule is.

At rest nothing waits. Every worker is at its `select`, because a running one ends its job
and there is room in the pool for one that publishes its channel (`HandOff.room`). So the
channels of all workers are in the pool or with goroutines. A goroutine with a channel
moves on until its worker has the job, and one without finds a channel in the pool, since
there is a worker (`finished_of_atRest`). Whatever was accepted has then been received, as
`Accounted` says: as many jobs, though not the same ones where `job` was overwritten.
-/

set_option autoImplicit false

namespace GolangSandbox.Analysis

open GolangSandbox.Model GolangSandbox.Program GolangSandbox.Program.Dispatcher

variable {s t : Dispatcher}

instance : DecidablePred Internal := fun a => by
  cases a <;> unfold Internal <;> infer_instance

/-- The steps a goroutine has still to take, with those it leaves to the worker. -/
def goroutineSteps : Goroutine → ℕ
  | .printing => 7
  | .fetching => 6
  | .announcing _ => 5
  | .loading _ => 4
  | .sending _ _ => 3
  | .finished => 0

/-- The steps a worker takes until it is at its `select`. -/
def workerSteps : Worker → ℕ
  | .running _ => 2
  | .publishing => 1
  | .selecting | .stopped => 0

/-- The steps for the job that `dispatch` holds. -/
def dispatchSteps : DispatchPc → ℕ
  | .receiving => 0
  | .assigning _ => 9
  | .spawning => 8

/-- What the dispatcher has still to do. -/
def toDo (s : Dispatcher) : ℕ :=
  10 * s.jobQueue.length + dispatchSteps s.dispatch + load goroutineSteps s.goroutines +
    load workerSteps s.workers

/-- Everything waits: `dispatch` for a job, and each worker for a goroutine. -/
def AllIdle (s : Dispatcher) : Prop :=
  Drained s ∧ ∀ x ∈ s.workers, x = .selecting

/-! ## The measure -/

theorem toDo_goOn {g : ℕ} {p : Goroutine} (hg : s.goroutines[g]? = some p) (p' : Goroutine) :
    toDo (s.goOn g p') + goroutineSteps p = toDo s + goroutineSteps p' := by
  have hset := load_set (f := goroutineSteps) hg p'
  show 10 * s.jobQueue.length + dispatchSteps s.dispatch +
    load goroutineSteps (s.goroutines.set g p') + load workerSteps s.workers + _ = _
  unfold toDo
  omega

/-- **Every step of the dispatcher itself lowers what it has to do.** -/
theorem toDo_step {a : Dispatcher.Action} (hin : Internal a) (ha : s.step a = some t) :
    toDo t < toDo s := by
  cases effect_of_step ha with
  | submit hroom => exact hin.elim
  | handoff hpc hq => exact hin.elim
  | @receive j jobQueue hpc hq =>
    simp only [toDo, hpc, hq, List.length_cons, dispatchSteps]
    omega
  | assign hpc =>
    simp only [toDo, hpc, dispatchSteps]
    omega
  | spawn hpc =>
    simp only [toDo, hpc, dispatchSteps, load_append, load_cons, load_nil, goroutineSteps]
    omega
  | print hg =>
    have hsum := toDo_goOn hg .fetching
    simp only [goroutineSteps] at hsum
    omega
  | @fetch g w workerPool hg hpool =>
    have hg' : ({ s with workerPool := workerPool } : Dispatcher).goroutines[g]? =
      some .fetching := hg
    have hsum := toDo_goOn hg' (.announcing w)
    have hsame : toDo { s with workerPool := workerPool } = toDo s := rfl
    simp only [goroutineSteps] at hsum
    omega
  | @announce g w hg =>
    have hsum := toDo_goOn hg (.loading w)
    simp only [goroutineSteps] at hsum
    omega
  | @load g w hg =>
    have hsum := toDo_goOn hg (.sending w s.job)
    simp only [goroutineSteps] at hsum
    omega
  | @send g w j hg hw =>
    have hgoroutine := load_set (f := goroutineSteps) hg .finished
    have hworker := load_set (f := workerSteps) hw (.running j)
    simp only [goroutineSteps, workerSteps] at hgoroutine hworker
    show 10 * s.jobQueue.length + dispatchSteps s.dispatch +
      Model.load goroutineSteps (s.goroutines.set g .finished) +
      Model.load workerSteps (s.workers.set w (.running j)) < _
    unfold toDo
    omega
  | @publish w hw hroom =>
    have hworker := load_set (f := workerSteps) hw .selecting
    simp only [workerSteps] at hworker
    simp only [toDo]
    omega
  | @complete w j hw =>
    have hworker := load_set (f := workerSteps) hw .publishing
    simp only [workerSteps] at hworker
    simp only [toDo]
    omega
  | stop => exact hin.elim
  | quit hstop hw => exact hin.elim

/-! ## At rest -/

/-- When nothing moves, `dispatch` has no job and there is none for it. -/
theorem receiving_of_stuck (hstuck : s.step .dispatch = none) :
    s.dispatch = .receiving ∧ s.jobQueue = [] := by
  change s.stepDispatch = none at hstuck
  unfold stepDispatch at hstuck
  cases hpc : s.dispatch with
  | receiving =>
    rw [hpc] at hstuck
    cases hq : s.jobQueue with
    | nil => exact ⟨rfl, rfl⟩
    | cons j jobQueue =>
      rw [hq] at hstuck
      cases hstuck
  | assigning j =>
    rw [hpc] at hstuck
    cases hstuck
  | spawning =>
    rw [hpc] at hstuck
    cases hstuck

/-- When no worker moves, those that were not stopped are at their `select`. -/
theorem HandOff.selecting_of_stuck (h : HandOff s) (hrun : .stopped ∉ s.workers)
    (hstuck : ∀ w, s.step (.worker w) = none) : ∀ x ∈ s.workers, x = .selecting := by
  intro x hx
  obtain ⟨w, hw⟩ := List.mem_iff_getElem?.mp hx
  have hnone : s.stepWorker w = none := hstuck w
  rw [stepWorker, hw, Option.bind_some] at hnone
  cases x with
  | publishing =>
    dsimp only at hnone
    rw [if_pos (h.room hw)] at hnone
    cases hnone
  | selecting => rfl
  | running j => cases hnone
  | stopped => exact absurd hx hrun

/-- When in addition no goroutine moves and there is a worker, all goroutines have finished:
the channel a goroutine waits for would be in the pool. -/
theorem HandOff.finished_of_stuck (h : HandOff s) (hworkers : 0 < s.maxWorkers)
    (hsel : ∀ x ∈ s.workers, x = .selecting)
    (hstuck : ∀ g, s.step (.goroutine g) = none) : ∀ p ∈ s.goroutines, p = .finished := by
  have hready : ∀ w < s.maxWorkers, s.workers[w]? = some .selecting := by
    intro w hw
    rw [← h.size] at hw
    rw [List.getElem?_eq_getElem hw, hsel _ (List.getElem_mem hw)]
  have hnone : ∀ g, s.stepGoroutine g = none := hstuck
  -- Nobody holds a channel, since whoever holds one can go on.
  have hfree : ∀ p ∈ s.goroutines, p = .fetching ∨ p = .finished := by
    intro p hp
    obtain ⟨g, hg⟩ := List.mem_iff_getElem?.mp hp
    have hmove := hnone g
    rw [stepGoroutine, hg, Option.bind_some] at hmove
    cases p with
    | printing => cases hmove
    | fetching => exact .inl rfl
    | announcing w => cases hmove
    | loading w => cases hmove
    | sending w j =>
      have hpub : Published s w :=
        h.mem_channels.mp (mem_channels_of_holding hg (List.mem_singleton_self w))
      have hlt : w < s.maxWorkers := by
        rw [← h.size]
        obtain hw | hw := hpub
        · exact (List.getElem?_eq_some_iff.mp hw).1
        · exact (List.getElem?_eq_some_iff.mp hw).1
      dsimp only at hmove
      rw [if_pos (hready w hlt)] at hmove
      cases hmove
    | finished => exact .inr rfl
  intro p hp
  obtain rfl | hfinished := hfree p hp
  · -- The first worker's channel was published and is with nobody, so it is in the pool.
    obtain ⟨g, hg⟩ := List.mem_iff_getElem?.mp hp
    have hmem : 0 ∈ channels s := h.mem_channels.mpr (.inl (hready 0 hworkers))
    obtain hpool | hheld := List.mem_append.mp hmem
    · have hmove := hnone g
      rw [stepGoroutine, hg, Option.bind_some] at hmove
      cases hp : s.workerPool with
      | nil =>
        rw [hp] at hpool
        cases hpool
      | cons w workerPool =>
        simp only [hp] at hmove
        cases hmove
    · obtain ⟨q, hq, hw⟩ := List.mem_flatMap.mp hheld
      obtain rfl | rfl := hfree q hq
      · cases hw
      · cases hw
  · exact hfinished

/-- With nothing in transit the books say that as many jobs were received as accepted. -/
theorem Accounted.received_of_drained (h : Accounted s) (hdrained : Drained s) :
    s.received.length = s.accepted.length := by
  obtain ⟨hq, hpc, hfinished⟩ := hdrained
  have hnone : unfinished s = 0 := by
    rw [unfinished, List.countP_eq_zero]
    intro p hp
    simp [hfinished p hp]
  rw [h.count, hq, hnone, dispatching, if_pos hpc]
  rfl

/-! ## The main theorem -/

/-- What a run without `stop` keeps, with what the steps inside need. -/
structure LeftAlone (maxWorkers : ℕ) (accepted : List Job) (s : Dispatcher) : Prop where
  handOff : HandOff s
  accounted : Accounted s
  unstopped : Unstopped s
  maxWorkers : s.maxWorkers = maxWorkers
  accepted : s.accepted = accepted

theorem LeftAlone.step {n : ℕ} {js : List Job} (h : LeftAlone n js s) {a : Dispatcher.Action}
    (hin : Internal a) (ha : s.step a = some t) : LeftAlone n js t where
  handOff := h.handOff.step ha
  accounted := h.accounted.step ha
  unstopped := h.unstopped.step (by rintro w rfl; exact hin) ha
  maxWorkers := (sizes_step ha).2.trans h.maxWorkers
  accepted := by
    rw [← h.accepted]
    cases effect_of_step ha with
    | submit hroom => exact hin.elim
    | handoff hpc hq => exact hin.elim
    | _ => rfl

/-- **The dispatcher drains.** Let there be a worker and let nobody call `stop`. From every
state it can be in, if no further request comes, the dispatcher comes to rest in every
schedule: then `jobQueue` is empty, all goroutines have finished, all workers are at their
`select`, and the workers have received as many jobs as were accepted. They are the same jobs if
`dispatch` never assigned to `job` while one of its goroutines still had to read it.
SOURCE: handleMillionRequest/main.go:34-49, 76-94 -/
theorem dispatcher_drains (maxWorkers maxQueueSize : ℕ) (as : List Dispatcher.Action)
    (s : Dispatcher) (hworkers : 0 < maxWorkers)
    (h : run Dispatcher.step (newDispatcher maxWorkers maxQueueSize) as = some s)
    (hstop : ∀ w, .stop w ∉ as) :
    Completes (only Internal Dispatcher.step)
        (fun t => AllIdle t ∧ t.accepted = s.accepted ∧ t.received.length = s.accepted.length) s ∧
      ∀ bs t, run (only Internal Dispatcher.step) s bs = some t → AllIdle t →
        Along Dispatcher.step NoOverwrite (newDispatcher maxWorkers maxQueueSize) (as ++ bs) →
        t.accepted.Perm (receivedJobs t) := by
  have hmax : s.maxWorkers = maxWorkers :=
    run_invariant (I := fun s => s.maxWorkers = maxWorkers) rfl
      (fun _ _ _ hs ha => (sizes_step ha).2.trans hs) h
  have hs : LeftAlone maxWorkers s.accepted s :=
    ⟨handOff_of_run h,
      run_invariant (I := Accounted) (accounted_newDispatcher _ _)
        (fun _ _ _ hs ha => hs.step ha) h,
      unstopped_of_run h hstop, hmax, rfl⟩
  refine ⟨completes_of_measure (I := LeftAlone maxWorkers s.accepted) (μ := toDo) ?_ ?_ hs, ?_⟩
  · intro t a u ht ha
    obtain ⟨hin, hstep⟩ := only_eq_some.mp ha
    exact ⟨ht.step hin hstep, toDo_step hin hstep⟩
  · intro t ht hstuck
    rw [stuck_only] at hstuck
    obtain ⟨hpc, hq⟩ := receiving_of_stuck (hstuck .dispatch trivial)
    have hsel := ht.handOff.selecting_of_stuck ht.unstopped.2
      fun w => hstuck (.worker w) trivial
    have hfinished := ht.handOff.finished_of_stuck (ht.maxWorkers.symm ▸ hworkers) hsel
      fun g => hstuck (.goroutine g) trivial
    have hdrained : Drained t := ⟨hq, hpc, hfinished⟩
    refine ⟨⟨hdrained, hsel⟩, ht.accepted, ?_⟩
    rw [ht.accounted.received_of_drained hdrained, ht.accepted]
  · intro bs t hbs hidle hsafe
    have hall := run_append_eq_some.mpr ⟨s, h, (run_of_run_only hbs).1⟩
    exact (conserved_of_run hall hsafe).perm_of_drained hidle.1

/-- One worker and two jobs in the buffer. -/
theorem dispatcher_drains_two :
    ∃ s, run Dispatcher.step (newDispatcher 1 2) [.submit ⟨[97], 1⟩, .submit ⟨[98], 1⟩] = some s ∧
      Completes (only Internal Dispatcher.step)
        (fun t => AllIdle t ∧ t.accepted = s.accepted ∧ t.received.length = s.accepted.length) s :=
  ⟨_, rfl, (dispatcher_drains 1 2 [.submit ⟨[97], 1⟩, .submit ⟨[98], 1⟩] _ Nat.one_pos rfl
    (by simp)).1⟩

end GolangSandbox.Analysis
