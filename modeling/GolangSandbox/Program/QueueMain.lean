import GolangSandbox.Program.CondQueue

/-!
# The program around the condition-variable queue

`main` of `produce_consume/model1/main2.go`: every producer puts a fixed number of items into
the queue, the consumers loop until they get a zero `Value`, and `main` calls `Terminated`
once, after a sleep that has nothing to do with how far the producers are. The three numbers
of the source are parameters.

A producer is the number of its items so far; the `p`-th one has the `id` `p + 1`. Some time
after `Terminated` the last sleep of `main` is over. It returns, and this ends the process with
whatever its goroutines are doing.
-/

set_option autoImplicit false

namespace GolangSandbox.Program

open GolangSandbox.Model

/-- The queue with the producers of `main`, and whether `main` has returned. -/
structure QueueMain where
  queue : Queue
  producers : List ℕ
  returned : Bool
  deriving DecidableEq, Repr

namespace QueueMain

/-- `main` has started all goroutines.
SOURCE: produce_consume/model1/main2.go:63-88 -/
def newQueueMain (producers consumers : ℕ) : QueueMain where
  queue := .newQueue consumers
  producers := List.replicate producers 0
  returned := false

/-- The item a producer makes next.
SOURCE: produce_consume/model1/main2.go:70-71 -/
def nextData (p j : ℕ) : Data := ⟨(p + 1) * 10 + (j + 1)⟩

/-- The steps: a producer puts in its next item, a consumer calls `Consume` or gets the mutex
back, `main` calls `Terminated`, `main` returns. -/
inductive Action where
  | produce (p : ℕ) (wake : Option ℕ)
  | consume (c : ℕ)
  | resume (c : ℕ)
  | setTerminated
  | exit
  deriving DecidableEq, Repr

/-- One section under the mutex, or the end of the process.
SOURCE: produce_consume/model1/main2.go:66-96 -/
def step (items : ℕ) (s : QueueMain) (a : Action) : Option QueueMain :=
  if s.returned then none
  else
    match a with
    | .produce p wake =>
      s.producers[p]?.bind fun j =>
        if j < items then
          (s.queue.loopStep (.produce (nextData p j) wake)).map fun queue =>
            { s with queue := queue, producers := s.producers.set p (j + 1) }
        else none
    | .consume c => (s.queue.loopStep (.consume c)).map fun queue => { s with queue := queue }
    | .resume c => (s.queue.loopStep (.resume c)).map fun queue => { s with queue := queue }
    | .setTerminated =>
      if s.queue.terminated then none
      else (s.queue.loopStep .setTerminated).map fun queue => { s with queue := queue }
    | .exit => if s.queue.terminated then some { s with returned := true } else none

/-! ## What a step does -/

/-- What a step leads to, with what makes it possible. -/
inductive Effect (items : ℕ) (s : QueueMain) : QueueMain → Prop where
  | produce {p j : ℕ} {wake : Option ℕ} {queue : Queue} (hp : s.producers[p]? = some j)
      (hj : j < items) (hqueue : s.queue.step (.produce (nextData p j) wake) = some queue) :
      Effect items s { s with queue := queue, producers := s.producers.set p (j + 1) }
  | consume {a : Queue.Action} {c : ℕ} {x : Consumer} {queue : Queue}
      (ha : Queue.Entering a c x) (hc : s.queue.consumers[c]? = some x)
      (hstay : Queue.exited x = false) (hqueue : s.queue.step a = some queue) :
      Effect items s { s with queue := queue }
  | terminate (hopen : s.queue.terminated = false) :
      Effect items s { s with queue := s.queue.setTerminated }
  | exit (hdone : s.queue.terminated = true) (hopen : s.returned = false) :
      Effect items s { s with returned := true }

variable {items : ℕ} {s t : QueueMain}

/-- A loop calls `Consume` only while it has not left. -/
theorem effect_of_loopStep_consume {c : ℕ} {queue : Queue}
    (h : s.queue.loopStep (.consume c) = some queue) :
    Effect items s { s with queue := queue } := by
  have hstep := Queue.step_of_loopStep h
  unfold Queue.loopStep at h
  simp only at h
  split at h
  · cases h
  rename_i hstay
  simp only [Queue.step] at h
  split at h
  · rename_i r hr
    refine .consume .call hr ?_ hstep
    rw [hr] at hstay
    exact Bool.not_eq_true _ ▸ hstay
  · cases h

theorem effect_of_loopStep_resume {c : ℕ} {queue : Queue}
    (h : s.queue.loopStep (.resume c) = some queue) :
    Effect items s { s with queue := queue } := by
  have hstep := Queue.step_of_loopStep h
  simp only [Queue.loopStep, Queue.step] at h
  split at h
  · rename_i hr
    exact .consume .wake hr rfl hstep
  · cases h

/-- No step comes after the end of the process, and only the return of `main` is the end. -/
theorem effect_of_step {a : Action} (h : s.step items a = some t) :
    Effect items s t ∧ (a ≠ .exit → t.returned = false) := by
  unfold step at h
  split at h
  · cases h
  rename_i hopen
  rw [Bool.not_eq_true] at hopen
  cases a with
  | produce p wake =>
    obtain ⟨j, hp, hstep⟩ := Option.bind_eq_some_iff.mp h
    rw [Option.ite_none_right_eq_some] at hstep
    obtain ⟨queue, hqueue, rfl⟩ := Option.map_eq_some_iff.mp hstep.2
    exact ⟨.produce hp hstep.1 (Queue.step_of_loopStep hqueue), fun _ => hopen⟩
  | consume c =>
    obtain ⟨queue, hqueue, rfl⟩ := Option.map_eq_some_iff.mp h
    exact ⟨effect_of_loopStep_consume hqueue, fun _ => hopen⟩
  | resume c =>
    obtain ⟨queue, hqueue, rfl⟩ := Option.map_eq_some_iff.mp h
    exact ⟨effect_of_loopStep_resume hqueue, fun _ => hopen⟩
  | setTerminated =>
    simp only at h
    split at h
    · cases h
    rename_i hrunning
    obtain rfl := Option.some.inj h
    exact ⟨.terminate (Bool.not_eq_true _ ▸ hrunning), fun _ => hopen⟩
  | exit =>
    obtain ⟨hdone, hexit⟩ := Option.ite_none_right_eq_some.mp h
    obtain rfl := Option.some.inj hexit
    exact ⟨.exit hdone hopen, fun hne => absurd rfl hne⟩

end QueueMain

end GolangSandbox.Program
