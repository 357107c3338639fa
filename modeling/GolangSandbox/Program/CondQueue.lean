import GolangSandbox.Model.Condition
import GolangSandbox.Model.Transition
import Mathlib.Data.Int.Notation

/-!
# The condition-variable queue

`produce_consume/model1/main2.go`: `Produce` appends to a shared buffer and signals one
waiting consumer, `Consume` waits while the buffer is empty and the queue not terminated,
and `Terminated` wakes everybody.

A section under the mutex is one step, from `Lock` to the `Wait` or `Unlock` that ends it.
A consumer that was woken and one that has just called `Consume` compete for the mutex.
`Queue.step` lets anybody call anything at any time; `Queue.loopStep` is the queue under
the consumer loops of `main`, which leave at the first zero `Value`. The data produced and
the data removed are kept as history.
-/

set_option autoImplicit false

namespace GolangSandbox.Program

open GolangSandbox.Model

/-- SOURCE: produce_consume/model1/main2.go:9-11 -/
structure Data where
  value : ℤ
  deriving DecidableEq, Repr

/-- A goroutine that calls `Consume`. While it is not in a call, what its last call
returned. -/
abbrev Consumer := Thread Unit (Option Data)

/-- SOURCE: produce_consume/model1/main2.go:13-18 -/
structure Queue where
  buffer : List Data
  terminated : Bool
  consumers : List Consumer
  produced : List Data
  removed : List Data
  deriving DecidableEq, Repr

namespace Queue

/-- A new queue, and the goroutines that will call `Consume`.
SOURCE: produce_consume/model1/main2.go:20-24 -/
def newQueue (consumers : ℕ) : Queue where
  buffer := []
  terminated := false
  consumers := List.replicate consumers (.running none)
  produced := []
  removed := []

/-- `Produce`; `wake` is the consumer that `Signal` wakes.
SOURCE: produce_consume/model1/main2.go:26-34 -/
def produce (q : Queue) (data : Data) (wake : Option ℕ) : Option Queue :=
  (Thread.signal q.consumers wake).map fun consumers =>
    { q with
      buffer := q.buffer ++ [data]
      consumers := consumers
      produced := q.produced ++ [data] }

/-- The part of `Consume` a goroutine runs when it has got the mutex, after its call or
after its `Wait`: it parks, or it returns.
SOURCE: produce_consume/model1/main2.go:40-51 -/
def consume (q : Queue) (c : ℕ) : Queue :=
  match q.buffer with
  | [] =>
    if q.terminated then { q with consumers := q.consumers.set c (.running (some ⟨0⟩)) }
    else { q with consumers := q.consumers.set c (.parked ()) }
  | data :: buffer =>
    { q with
      buffer := buffer
      consumers := q.consumers.set c (.running (some data))
      removed := q.removed ++ [data] }

/-- `Terminated`.
SOURCE: produce_consume/model1/main2.go:54-61 -/
def setTerminated (q : Queue) : Queue :=
  { q with terminated := true, consumers := Thread.broadcast q.consumers }

/-- The steps: a call of `Produce`, a call of `Consume`, a woken consumer that gets the
mutex back, a call of `Terminated`. -/
inductive Action where
  | produce (data : Data) (wake : Option ℕ)
  | consume (c : ℕ)
  | resume (c : ℕ)
  | setTerminated
  deriving DecidableEq, Repr

/-- One section under the mutex. -/
def step (q : Queue) : Action → Option Queue
  | .produce data wake => q.produce data wake
  | .consume c =>
    match q.consumers[c]? with
    | some (.running _) => some (q.consume c)
    | _ => none
  | .resume c =>
    match q.consumers[c]? with
    | some (.woken _) => some (q.consume c)
    | _ => none
  | .setTerminated => some q.setTerminated

/-- The consumer loop of `main` has left: its last call returned a zero `Value`.
SOURCE: produce_consume/model1/main2.go:80-86 -/
def exited : Consumer → Bool
  | .running (some data) => data.value = 0
  | _ => false

/-- One step when every consumer is a loop of `main`.
SOURCE: produce_consume/model1/main2.go:78-88 -/
def loopStep (q : Queue) (a : Action) : Option Queue :=
  match a with
  | .consume c => if q.consumers[c]?.any exited then none else q.step a
  | _ => q.step a

/-! ## What a step does -/

/-- Where a consumer is when it gets the mutex. -/
inductive Entering : Action → ℕ → Consumer → Prop where
  | call {c : ℕ} {r : Option Data} : Entering (.consume c) c (.running r)
  | wake {c : ℕ} : Entering (.resume c) c (.woken ())

/-- What the step of an action leads to, with what makes it possible. -/
inductive Effect (q : Queue) : Action → Queue → Prop where
  | produce {data : Data} {wake : Option ℕ} {consumers : List Consumer}
      (hsignal : Thread.signal q.consumers wake = some consumers) :
      Effect q (.produce data wake)
        { q with
          buffer := q.buffer ++ [data]
          consumers := consumers
          produced := q.produced ++ [data] }
  | park {a : Action} {c : ℕ} {x : Consumer} (ha : Entering a c x)
      (hc : q.consumers[c]? = some x) (hbuffer : q.buffer = []) (hopen : q.terminated = false) :
      Effect q a { q with consumers := q.consumers.set c (.parked ()) }
  | finish {a : Action} {c : ℕ} {x : Consumer} (ha : Entering a c x)
      (hc : q.consumers[c]? = some x) (hbuffer : q.buffer = []) (hdone : q.terminated = true) :
      Effect q a { q with consumers := q.consumers.set c (.running (some ⟨0⟩)) }
  | remove {a : Action} {c : ℕ} {x : Consumer} {data : Data} {buffer : List Data}
      (ha : Entering a c x) (hc : q.consumers[c]? = some x) (hbuffer : q.buffer = data :: buffer) :
      Effect q a
        { q with
          buffer := buffer
          consumers := q.consumers.set c (.running (some data))
          removed := q.removed ++ [data] }
  | setTerminated : Effect q .setTerminated q.setTerminated

variable {q q' : Queue}

theorem effect_of_consume {a : Action} {c : ℕ} {x : Consumer} (ha : Entering a c x)
    (hc : q.consumers[c]? = some x) : Effect q a (q.consume c) := by
  cases hbuffer : q.buffer with
  | nil =>
    cases hdone : q.terminated with
    | true =>
      have heq : q.consume c = { q with consumers := q.consumers.set c (.running (some ⟨0⟩)) } := by
        simp only [consume, hbuffer, hdone, if_true]
      exact heq ▸ .finish ha hc hbuffer hdone
    | false =>
      have heq : q.consume c = { q with consumers := q.consumers.set c (.parked ()) } := by
        simp only [consume, hbuffer, hdone, Bool.false_eq_true, if_false]
      exact heq ▸ .park ha hc hbuffer hdone
  | cons data buffer =>
    have heq : q.consume c = { q with
        buffer := buffer
        consumers := q.consumers.set c (.running (some data))
        removed := q.removed ++ [data] } := by
      simp only [consume, hbuffer]
    exact heq ▸ .remove ha hc hbuffer

theorem effect_of_step {a : Action} (h : q.step a = some q') : Effect q a q' := by
  cases a with
  | produce data wake =>
    obtain ⟨consumers, hsignal, rfl⟩ := Option.map_eq_some_iff.mp h
    exact .produce hsignal
  | consume c =>
    simp only [step] at h
    split at h
    · rename_i r hr
      exact Option.some.inj h ▸ effect_of_consume .call hr
    · cases h
  | resume c =>
    simp only [step] at h
    split at h
    · rename_i hr
      exact Option.some.inj h ▸ effect_of_consume .wake hr
    · cases h
  | setTerminated => exact Option.some.inj h ▸ .setTerminated

theorem step_of_loopStep {a : Action} (h : q.loopStep a = some q') : q.step a = some q' := by
  unfold loopStep at h
  split at h
  · split at h
    · cases h
    · exact h
  · exact h

/-- The queue under the loops of `main` is the queue. -/
theorem run_of_run_loopStep {as : List Action} (h : run loopStep q as = some q') :
    run step q as = some q' := by
  refine run_induction (I := fun as q' => run step q as = some q') rfl ?_ h
  intro as q₁ a q₂ _ hrun ha
  exact run_concat_eq_some.mpr ⟨q₁, hrun, step_of_loopStep ha⟩

end Queue

end GolangSandbox.Program
