import GolangSandbox.Model.Channel
import GolangSandbox.Model.Transition
import Mathlib.Data.Int.Notation

/-!
# A producer and a consumer under a context

`produce_consume/timeout/main3.go`: one goroutine sends 1, 2, … on `queue` until `ctx` is
cancelled, and closes it; the other receives, and once `ctx` is cancelled it drains the
queue.

Each `select`, each channel operation outside one, and each statement that other
goroutines see is a step. The step names the case that its `select` takes; `default` is
taken only when no other case is ready. A send meets the consumer at a receive (`direct`)
or goes to the buffer. The context may be cancelled at any time, a sleep may take any
time. The values received on the two paths of the consumer and the number of completed
sends are kept as history.
-/

set_option autoImplicit false

namespace GolangSandbox.Program

open GolangSandbox.Model

/-- Where the producer is: at its outer or inner `select`, asleep, in front of the deferred
`close`, in front of the deferred `wg.Done`, or returned. -/
inductive ProducerPc where
  | outer
  | inner
  | sleeping
  | closing
  | leaving
  | returned
  deriving DecidableEq, Repr

/-- Where the consumer is: at its `select`, asleep, in the `range` over the queue, in front
of the deferred `wg.Done`, or returned. -/
inductive ConsumerPc where
  | selecting
  | sleeping
  | draining
  | leaving
  | returned
  deriving DecidableEq, Repr

/-- The two goroutines with what they share.
SOURCE: produce_consume/timeout/main3.go:22-36 -/
structure CtxQueue where
  queue : Chan ℕ
  cancelled : Bool
  wg : ℤ
  panicked : Bool
  producer : ProducerPc
  producerTime : ℕ
  consumer : ConsumerPc
  consumerTime : ℕ
  received : List ℕ
  sent : ℕ
  deriving DecidableEq, Repr

namespace CtxQueue

/-- `main` has started both goroutines.
SOURCE: produce_consume/timeout/main3.go:83-92 -/
def newCtxQueue (capacity : ℕ) : CtxQueue where
  queue := .make capacity
  cancelled := false
  wg := 2
  panicked := false
  producer := .outer
  producerTime := 0
  consumer := .selecting
  consumerTime := 0
  received := []
  sent := 0

/-- The case a `select` takes: its channel operation on the queue, through the buffer or
with the other goroutine, `<-ctx.Done()`, or no other. Outside a `select` only `other`. -/
inductive Case where
  | queue
  | direct
  | ctxDone
  | other
  deriving DecidableEq, Repr

/-- The end of a channel operation. -/
def after {β : Type} (s : CtxQueue) (o : Outcome β) (next : β → Option CtxQueue) :
    Option CtxQueue :=
  match o with
  | .blocks => none
  | .panics => some { s with panicked := true }
  | .completes b => next b

/-- The consumer gets a value, if it is at a receive.
SOURCE: produce_consume/timeout/main3.go:65-76 -/
def accept (s : CtxQueue) (val : ℕ) : Option CtxQueue :=
  match s.consumer with
  | .selecting =>
    some { s with
      consumer := .sleeping
      consumerTime := s.consumerTime + 1
      received := s.received ++ [val] }
  | .draining => some { s with received := s.received ++ [val] }
  | _ => none

/-- SOURCE: produce_consume/timeout/main3.go:38-58 -/
def produce (s : CtxQueue) (c : Case) : Option CtxQueue :=
  match s.producer, c with
  | .outer, .ctxDone => if s.cancelled then some { s with producer := .closing } else none
  | .outer, .other =>
    if s.cancelled then none
    else some { s with producer := .inner, producerTime := s.producerTime + 1 }
  | .inner, .queue =>
    s.after (s.queue.send s.producerTime) fun queue =>
      some { s with queue := queue, producer := .sleeping, sent := s.sent + 1 }
  | .inner, .direct =>
    if s.queue.closed = false ∧ s.queue.buffer = [] then
      (s.accept s.producerTime).map fun t =>
        { t with producer := .sleeping, sent := s.sent + 1 }
    else none
  | .inner, .ctxDone => if s.cancelled then some { s with producer := .closing } else none
  | .sleeping, .other => some { s with producer := .outer }
  | .closing, .other =>
    s.after s.queue.close fun queue => some { s with queue := queue, producer := .leaving }
  | .leaving, .other => some { s with producer := .returned, wg := s.wg - 1 }
  | _, _ => none

/-- A receive of the consumer that is not a meeting with the producer. -/
def receive (s : CtxQueue) : Option CtxQueue :=
  s.after s.queue.receive fun
    | (some val, queue) => ({ s with queue := queue } : CtxQueue).accept val
    | (none, _) => some { s with consumer := .leaving }

/-- SOURCE: produce_consume/timeout/main3.go:60-81 -/
def consume (s : CtxQueue) (c : Case) : Option CtxQueue :=
  match s.consumer, c with
  | .selecting, .queue => s.receive
  | .selecting, .ctxDone => if s.cancelled then some { s with consumer := .draining } else none
  | .sleeping, .other => some { s with consumer := .selecting }
  | .draining, .other => s.receive
  | .leaving, .other => some { s with consumer := .returned, wg := s.wg - 1 }
  | _, _ => none

inductive Action where
  | cancel
  | produce (c : Case)
  | consume (c : Case)
  deriving DecidableEq, Repr

/-- One step. A panic ends the program. -/
def step (s : CtxQueue) (a : Action) : Option CtxQueue :=
  if s.panicked then none
  else
    match a with
    | .cancel => if s.cancelled then none else some { s with cancelled := true }
    | .produce c => s.produce c
    | .consume c => s.consume c

/-! ## What a step does -/

/-- What a step leads to, with what makes it possible. -/
inductive Effect (s : CtxQueue) : CtxQueue → Prop where
  | cancel : Effect s { s with cancelled := true }
  | attempt (hp : s.producer = .outer) :
      Effect s { s with producer := .inner, producerTime := s.producerTime + 1 }
  | send {queue : Chan ℕ} (hp : s.producer = .inner)
      (hsend : s.queue.send s.producerTime = .completes queue) :
      Effect s { s with queue := queue, producer := .sleeping, sent := s.sent + 1 }
  | direct {t : CtxQueue} (hp : s.producer = .inner) (hopen : s.queue.closed = false)
      (hempty : s.queue.buffer = []) (haccept : s.accept s.producerTime = some t) :
      Effect s { t with producer := .sleeping, sent := s.sent + 1 }
  | stop (hp : s.producer = .outer ∨ s.producer = .inner) (hdone : s.cancelled = true) :
      Effect s { s with producer := .closing }
  | wakeProducer (hp : s.producer = .sleeping) : Effect s { s with producer := .outer }
  | close {queue : Chan ℕ} (hp : s.producer = .closing)
      (hclose : s.queue.close = .completes queue) :
      Effect s { s with queue := queue, producer := .leaving }
  | crash (hp : s.producer = .inner ∨ s.producer = .closing) (hclosed : s.queue.closed = true) :
      Effect s { s with panicked := true }
  | returnProducer (hp : s.producer = .leaving) :
      Effect s { s with producer := .returned, wg := s.wg - 1 }
  | receive {val : ℕ} {queue : Chan ℕ} {t : CtxQueue}
      (hreceive : s.queue.receive = .completes (some val, queue))
      (haccept : ({ s with queue := queue } : CtxQueue).accept val = some t) : Effect s t
  | finish {queue : Chan ℕ} (hc : s.consumer = .selecting ∨ s.consumer = .draining)
      (hreceive : s.queue.receive = .completes (none, queue)) :
      Effect s { s with consumer := .leaving }
  | drain (hc : s.consumer = .selecting) (hdone : s.cancelled = true) :
      Effect s { s with consumer := .draining }
  | wakeConsumer (hc : s.consumer = .sleeping) : Effect s { s with consumer := .selecting }
  | returnConsumer (hc : s.consumer = .leaving) :
      Effect s { s with consumer := .returned, wg := s.wg - 1 }

variable {s t : CtxQueue}

theorem effect_of_produce {c : Case} (h : s.produce c = some t) : Effect s t := by
  unfold produce at h
  split at h
  · rename_i hp
    split at h
    · exact Option.some.inj h ▸ .stop (.inl hp) ‹_›
    · cases h
  · rename_i hp
    split at h
    · cases h
    · exact Option.some.inj h ▸ .attempt hp
  · rename_i hp
    unfold after at h
    split at h
    · cases h
    · rename_i hsend
      exact Option.some.inj h ▸ .crash (.inl hp) (Chan.send_panics.mp hsend)
    · rename_i hsend
      exact Option.some.inj h ▸ .send hp hsend
  · rename_i hp
    split at h
    · rename_i hready
      obtain ⟨t, haccept, rfl⟩ := Option.map_eq_some_iff.mp h
      exact .direct hp hready.1 hready.2 haccept
    · cases h
  · rename_i hp
    split at h
    · exact Option.some.inj h ▸ .stop (.inr hp) ‹_›
    · cases h
  · rename_i hp
    exact Option.some.inj h ▸ .wakeProducer hp
  · rename_i hp
    unfold after at h
    split at h
    · cases h
    · rename_i hclose
      exact Option.some.inj h ▸ .crash (.inr hp) (Chan.close_panics.mp hclose)
    · rename_i hclose
      exact Option.some.inj h ▸ .close hp hclose
  · rename_i hp
    exact Option.some.inj h ▸ .returnProducer hp
  · cases h

theorem effect_of_receive (hc : s.consumer = .selecting ∨ s.consumer = .draining)
    (h : s.receive = some t) : Effect s t := by
  unfold receive after at h
  split at h
  · cases h
  · rename_i hpanic
    exact absurd hpanic Chan.receive_ne_panics
  · rename_i r hreceive
    match r, hreceive with
    | (some val, queue), hreceive => exact .receive hreceive h
    | (none, queue), hreceive => exact Option.some.inj h ▸ .finish hc hreceive

theorem effect_of_consume {c : Case} (h : s.consume c = some t) : Effect s t := by
  unfold consume at h
  split at h
  · rename_i hc
    exact effect_of_receive (.inl hc) h
  · rename_i hc
    split at h
    · exact Option.some.inj h ▸ .drain hc ‹_›
    · cases h
  · rename_i hc
    exact Option.some.inj h ▸ .wakeConsumer hc
  · rename_i hc
    exact effect_of_receive (.inr hc) h
  · rename_i hc
    exact Option.some.inj h ▸ .returnConsumer hc
  · cases h

theorem effect_of_step {a : Action} (h : s.step a = some t) : Effect s t := by
  unfold step at h
  split at h
  · cases h
  split at h
  · split at h
    · cases h
    · exact Option.some.inj h ▸ .cancel
  · exact effect_of_produce h
  · exact effect_of_consume h

/-- What the consumer does with a value. -/
theorem accept_cases {val : ℕ} (h : s.accept val = some t) :
    ∃ consumer consumerTime, (s.consumer = .selecting ∨ s.consumer = .draining) ∧
      (consumer = .sleeping ∨ consumer = .draining) ∧
      t = { s with
        consumer := consumer
        consumerTime := consumerTime
        received := s.received ++ [val] } := by
  unfold accept at h
  split at h
  · rename_i hc
    exact ⟨.sleeping, s.consumerTime + 1, .inl hc, .inl rfl, (Option.some.inj h).symm⟩
  · rename_i hc
    refine ⟨.draining, s.consumerTime, .inr hc, .inr rfl, ?_⟩
    rw [← hc]
    exact (Option.some.inj h).symm
  · cases h

end CtxQueue

end GolangSandbox.Program
