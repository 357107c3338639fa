import Mathlib.Data.List.Basic
import Mathlib.Tactic.Common

/-!
# The job dispatcher

`handleMillionRequest`: request handlers put jobs on `jobQueue`, `dispatch` takes them
off and starts a goroutine for each, which waits for a worker in `workerPool` and
sends the job on the channel of that worker.

By the loop-variable rule of Go 1.21 there is one variable `job` for all iterations of
`dispatch`, shared with every closure it starts. Each channel operation and each read
or write of `job` is one step. A worker is its index, which stands for its `jobChan` as
well. Nothing closes `jobQueue`. The jobs put on the queue, and which worker received
which job, are kept as history.
-/

set_option autoImplicit false

namespace GolangSandbox.Program

/-- A job: its name and the time it takes.
SOURCE: handleMillionRequest/main.go:11-15 -/
structure Job where
  name : List UInt8
  used : Int
  deriving DecidableEq, Repr, Inhabited

/-- Where `dispatch` is: at the receive of its `range`, with a job received and not yet
assigned to `job`, or in front of its `go` statement. -/
inductive DispatchPc where
  | receiving
  | assigning (j : Job)
  | spawning
  deriving DecidableEq, Repr

/-- Where a goroutine started by `dispatch` is; `printing`, `announcing` and `loading`
are in front of a read of `job`, `sending` has read it. -/
inductive Goroutine where
  | printing
  | fetching
  | announcing (w : ℕ)
  | loading (w : ℕ)
  | sending (w : ℕ) (j : Job)
  | finished
  deriving DecidableEq, Repr

/-- Where a worker is: at its send on `workerPool`, at its `select`, busy, or returned. -/
inductive Worker where
  | publishing
  | selecting
  | running (j : Job)
  | stopped
  deriving DecidableEq, Repr

/-- The dispatcher with everything that runs around it.
SOURCE: handleMillionRequest/main.go:17-23, 57-65 -/
structure Dispatcher where
  maxWorkers : ℕ
  maxQueueSize : ℕ
  jobQueue : List Job
  workerPool : List ℕ
  job : Job
  dispatch : DispatchPc
  goroutines : List Goroutine
  workers : List Worker
  stopping : List ℕ
  accepted : List Job
  received : List (ℕ × Job)
  deriving DecidableEq, Repr

namespace Dispatcher

/-- All workers are started and so is `dispatch`.
SOURCE: handleMillionRequest/main.go:67-83, 132-136 -/
def newDispatcher (maxWorkers maxQueueSize : ℕ) : Dispatcher where
  maxWorkers := maxWorkers
  maxQueueSize := maxQueueSize
  jobQueue := []
  workerPool := []
  job := default
  dispatch := .receiving
  goroutines := []
  workers := List.replicate maxWorkers .publishing
  stopping := []
  accepted := []
  received := []

/-- The steps: a handler sends a job to the buffer of `jobQueue` (`submit`) or directly to
the waiting `dispatch` (`handoff`); `dispatch`, a goroutine or a worker takes its next
step; somebody calls `stop` on a worker, whose `select` may then take the quit signal. -/
inductive Action where
  | submit (j : Job)
  | handoff (j : Job)
  | dispatch
  | goroutine (g : ℕ)
  | worker (w : ℕ)
  | stop (w : ℕ)
  | quit (w : ℕ)
  deriving DecidableEq, Repr

/-- The next step of `dispatch`.
SOURCE: handleMillionRequest/main.go:85-94 -/
def stepDispatch (s : Dispatcher) : Option Dispatcher :=
  match s.dispatch with
  | .receiving =>
    match s.jobQueue with
    | [] => none
    | j :: jobQueue => some { s with jobQueue := jobQueue, dispatch := .assigning j }
  | .assigning j => some { s with job := j, dispatch := .spawning }
  | .spawning =>
    some { s with dispatch := .receiving, goroutines := s.goroutines ++ [.printing] }

/-- The goroutine `g` goes on at `p`. -/
def goOn (s : Dispatcher) (g : ℕ) (p : Goroutine) : Dispatcher :=
  { s with goroutines := s.goroutines.set g p }

/-- The next step of the `g`-th goroutine. The value of `job` is read before the send
begins, and the send needs the worker at its `select`.
SOURCE: handleMillionRequest/main.go:87-92, 38-42 -/
def stepGoroutine (s : Dispatcher) (g : ℕ) : Option Dispatcher :=
  s.goroutines[g]?.bind fun
    | .printing => some (s.goOn g .fetching)
    | .fetching =>
      match s.workerPool with
      | [] => none
      | w :: workerPool =>
        some (({ s with workerPool := workerPool } : Dispatcher).goOn g (.announcing w))
    | .announcing w => some (s.goOn g (.loading w))
    | .loading w => some (s.goOn g (.sending w s.job))
    | .sending w j =>
      if s.workers[w]? = some .selecting then
        some (({ s with
          workers := s.workers.set w (.running j)
          received := s.received ++ [(w, j)] } : Dispatcher).goOn g .finished)
      else none
    | .finished => none

/-- The next step of a worker by itself: publish its channel, or end its job.
SOURCE: handleMillionRequest/main.go:36-42 -/
def stepWorker (s : Dispatcher) (w : ℕ) : Option Dispatcher :=
  s.workers[w]?.bind fun
    | .publishing =>
      if s.workerPool.length < s.maxWorkers then
        some { s with workerPool := s.workerPool ++ [w], workers := s.workers.set w .selecting }
      else none
    | .running _ => some { s with workers := s.workers.set w .publishing }
    | _ => none

/-- One step; `none` means that the goroutine blocks or is at its end.
SOURCE: handleMillionRequest/main.go:43-55, 119 -/
def step (s : Dispatcher) : Action → Option Dispatcher
  | .submit j =>
    if s.jobQueue.length < s.maxQueueSize then
      some { s with jobQueue := s.jobQueue ++ [j], accepted := s.accepted ++ [j] }
    else none
  | .handoff j =>
    if s.dispatch = .receiving ∧ s.jobQueue = [] then
      some { s with dispatch := .assigning j, accepted := s.accepted ++ [j] }
    else none
  | .dispatch => s.stepDispatch
  | .goroutine g => s.stepGoroutine g
  | .worker w => s.stepWorker w
  | .stop w => some { s with stopping := s.stopping ++ [w] }
  | .quit w =>
    if w ∈ s.stopping ∧ s.workers[w]? = some .selecting then
      some { s with workers := s.workers.set w .stopped, stopping := s.stopping.erase w }
    else none

/-! ## What a step does -/

/-- What the step of an action leads to, with what makes it possible. -/
inductive Effect (s : Dispatcher) : Action → Dispatcher → Prop where
  | submit {j : Job} (hroom : s.jobQueue.length < s.maxQueueSize) :
      Effect s (.submit j) { s with jobQueue := s.jobQueue ++ [j], accepted := s.accepted ++ [j] }
  | handoff {j : Job} (hpc : s.dispatch = .receiving) (hq : s.jobQueue = []) :
      Effect s (.handoff j) { s with dispatch := .assigning j, accepted := s.accepted ++ [j] }
  | receive {j : Job} {jobQueue : List Job} (hpc : s.dispatch = .receiving)
      (hq : s.jobQueue = j :: jobQueue) :
      Effect s .dispatch { s with jobQueue := jobQueue, dispatch := .assigning j }
  | assign {j : Job} (hpc : s.dispatch = .assigning j) :
      Effect s .dispatch { s with job := j, dispatch := .spawning }
  | spawn (hpc : s.dispatch = .spawning) :
      Effect s .dispatch
        { s with dispatch := .receiving, goroutines := s.goroutines ++ [.printing] }
  | print {g : ℕ} (hg : s.goroutines[g]? = some .printing) :
      Effect s (.goroutine g) (s.goOn g .fetching)
  | fetch {g w : ℕ} {workerPool : List ℕ} (hg : s.goroutines[g]? = some .fetching)
      (hpool : s.workerPool = w :: workerPool) :
      Effect s (.goroutine g)
        (({ s with workerPool := workerPool } : Dispatcher).goOn g (.announcing w))
  | announce {g w : ℕ} (hg : s.goroutines[g]? = some (.announcing w)) :
      Effect s (.goroutine g) (s.goOn g (.loading w))
  | load {g w : ℕ} (hg : s.goroutines[g]? = some (.loading w)) :
      Effect s (.goroutine g) (s.goOn g (.sending w s.job))
  | send {g w : ℕ} {j : Job} (hg : s.goroutines[g]? = some (.sending w j))
      (hw : s.workers[w]? = some .selecting) :
      Effect s (.goroutine g)
        (({ s with
          workers := s.workers.set w (.running j)
          received := s.received ++ [(w, j)] } : Dispatcher).goOn g .finished)
  | publish {w : ℕ} (hw : s.workers[w]? = some .publishing)
      (hroom : s.workerPool.length < s.maxWorkers) :
      Effect s (.worker w)
        { s with workerPool := s.workerPool ++ [w], workers := s.workers.set w .selecting }
  | complete {w : ℕ} {j : Job} (hw : s.workers[w]? = some (.running j)) :
      Effect s (.worker w) { s with workers := s.workers.set w .publishing }
  | stop {w : ℕ} : Effect s (.stop w) { s with stopping := s.stopping ++ [w] }
  | quit {w : ℕ} (hstop : w ∈ s.stopping) (hw : s.workers[w]? = some .selecting) :
      Effect s (.quit w)
        { s with workers := s.workers.set w .stopped, stopping := s.stopping.erase w }

variable {s t : Dispatcher}

theorem effect_of_dispatch (h : s.stepDispatch = some t) : Effect s .dispatch t := by
  unfold stepDispatch at h
  cases hpc : s.dispatch with
  | receiving =>
    rw [hpc] at h
    cases hq : s.jobQueue with
    | nil =>
      rw [hq] at h
      cases h
    | cons j jobQueue =>
      rw [hq] at h
      exact Option.some.inj h ▸ .receive hpc hq
  | assigning j =>
    rw [hpc] at h
    exact Option.some.inj h ▸ .assign hpc
  | spawning =>
    rw [hpc] at h
    exact Option.some.inj h ▸ .spawn hpc

theorem effect_of_goroutine {g : ℕ} (h : s.stepGoroutine g = some t) :
    Effect s (.goroutine g) t := by
  obtain ⟨p, hp, hstep⟩ := Option.bind_eq_some_iff.mp h
  cases p with
  | printing => exact Option.some.inj hstep ▸ .print hp
  | fetching =>
    cases hpool : s.workerPool with
    | nil =>
      simp only [hpool] at hstep
      cases hstep
    | cons w workerPool =>
      simp only [hpool] at hstep
      exact Option.some.inj hstep ▸ .fetch hp hpool
  | announcing w => exact Option.some.inj hstep ▸ .announce hp
  | loading w => exact Option.some.inj hstep ▸ .load hp
  | sending w j =>
    simp only [Option.ite_none_right_eq_some] at hstep
    exact Option.some.inj hstep.2 ▸ .send hp hstep.1
  | finished => cases hstep

theorem effect_of_worker {w : ℕ} (h : s.stepWorker w = some t) : Effect s (.worker w) t := by
  obtain ⟨x, hx, hstep⟩ := Option.bind_eq_some_iff.mp h
  cases x with
  | publishing =>
    simp only [Option.ite_none_right_eq_some] at hstep
    exact Option.some.inj hstep.2 ▸ .publish hx hstep.1
  | running j => exact Option.some.inj hstep ▸ .complete hx
  | selecting => cases hstep
  | stopped => cases hstep

theorem effect_of_step {a : Action} (h : s.step a = some t) : Effect s a t := by
  unfold step at h
  cases a with
  | submit j =>
    rw [Option.ite_none_right_eq_some] at h
    exact Option.some.inj h.2 ▸ .submit h.1
  | handoff j =>
    rw [Option.ite_none_right_eq_some] at h
    exact Option.some.inj h.2 ▸ .handoff h.1.1 h.1.2
  | dispatch => exact effect_of_dispatch h
  | goroutine g => exact effect_of_goroutine h
  | worker w => exact effect_of_worker h
  | stop w => exact Option.some.inj h ▸ .stop
  | quit w =>
    rw [Option.ite_none_right_eq_some] at h
    exact Option.some.inj h.2 ▸ .quit h.1.1 h.1.2

end Dispatcher

end GolangSandbox.Program
