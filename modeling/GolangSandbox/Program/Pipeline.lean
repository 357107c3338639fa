import GolangSandbox.Model.Channel
import GolangSandbox.Model.Transition

/-!
# A producer and a consumer on a channel

`produce_consume/model1/main1.go`: one goroutine sends 1, 2, … on a channel with a buffer and
closes it, the other ranges over the channel and then signals `main` on `done`. How many items
there are and the size of the buffer are parameters.

Each channel operation is a step, and so is the end of a sleep of the consumer. A send goes
to the buffer or meets the consumer at its receive (`hand`). The signal on `done`, which has
no buffer, meets `main` at its receive, and then the program is over. What was consumed is
kept as history.
-/

set_option autoImplicit false

namespace GolangSandbox.Program

open GolangSandbox.Model

/-- Where the producer is: at the send of an item, in front of `close`, or returned. -/
inductive SenderPc where
  | sending (i : ℕ)
  | closing
  | returned
  deriving DecidableEq, Repr

/-- Where the consumer is: at the receive of its `range`, asleep, at its send on `done`, or
returned. -/
inductive RangePc where
  | ranging
  | sleeping
  | signalling
  | returned
  deriving DecidableEq, Repr

/-- The two goroutines, with `signalled` when `main` has its signal. -/
structure Pipeline where
  ch : Chan ℕ
  producer : SenderPc
  consumer : RangePc
  signalled : Bool
  panicked : Bool
  consumed : List ℕ
  deriving DecidableEq, Repr

namespace Pipeline

/-- Where the loop of the producer is with its next item.
SOURCE: produce_consume/model1/main1.go:25, 30-31 -/
def loopAt (items i : ℕ) : SenderPc := if i ≤ items then .sending i else .closing

/-- `main` has started both goroutines.
SOURCE: produce_consume/model1/main1.go:43-48 -/
def newPipeline (items capacity : ℕ) : Pipeline where
  ch := .make capacity
  producer := loopAt items 1
  consumer := .ranging
  signalled := false
  panicked := false
  consumed := []

inductive Action where
  | send
  | hand
  | close
  | receive
  | wake
  | signal
  deriving DecidableEq, Repr

/-- The end of a channel operation. -/
def after {β : Type} (s : Pipeline) (o : Outcome β) (next : β → Pipeline) : Option Pipeline :=
  match o with
  | .blocks => none
  | .panics => some { s with panicked := true }
  | .completes b => some (next b)

/-- A send of the producer to the buffer.
SOURCE: produce_consume/model1/main1.go:26 -/
def send (items : ℕ) (s : Pipeline) : Option Pipeline :=
  match s.producer with
  | .sending i =>
    s.after (s.ch.send i) fun ch => { s with ch := ch, producer := loopAt items (i + 1) }
  | _ => none

/-- A send of the producer to the waiting consumer.
SOURCE: produce_consume/model1/main1.go:26, 35 -/
def hand (items : ℕ) (s : Pipeline) : Option Pipeline :=
  match s.producer with
  | .sending i =>
    if s.ch.closed = false ∧ s.ch.buffer = [] ∧ s.consumer = .ranging then
      some { s with
        producer := loopAt items (i + 1)
        consumer := .sleeping
        consumed := s.consumed ++ [i] }
    else none
  | _ => none

/-- SOURCE: produce_consume/model1/main1.go:31 -/
def close (s : Pipeline) : Option Pipeline :=
  match s.producer with
  | .closing => s.after s.ch.close fun ch => { s with ch := ch, producer := .returned }
  | _ => none

/-- A receive of the `range`; at the end of the channel it is left.
SOURCE: produce_consume/model1/main1.go:35-36 -/
def receive (s : Pipeline) : Option Pipeline :=
  match s.consumer with
  | .ranging =>
    s.after s.ch.receive fun
      | (some i, ch) =>
        { s with ch := ch, consumer := .sleeping, consumed := s.consumed ++ [i] }
      | (none, _) => { s with consumer := .signalling }
  | _ => none

/-- One step.
SOURCE: produce_consume/model1/main1.go:24-53 -/
def step (items : ℕ) (s : Pipeline) (a : Action) : Option Pipeline :=
  if s.panicked ∨ s.signalled then none
  else
    match a with
    | .send => s.send items
    | .hand => s.hand items
    | .close => s.close
    | .receive => s.receive
    | .wake => if s.consumer = .sleeping then some { s with consumer := .ranging } else none
    | .signal =>
      if s.consumer = .signalling then some { s with consumer := .returned, signalled := true }
      else none

/-! ## What a step does -/

/-- What a step leads to, with what makes it possible. -/
inductive Effect (items : ℕ) (s : Pipeline) : Pipeline → Prop where
  | send {i : ℕ} (hp : s.producer = .sending i) (hopen : s.ch.closed = false)
      (hroom : s.ch.buffer.length < s.ch.capacity) :
      Effect items s
        { s with
          ch := { s.ch with buffer := s.ch.buffer ++ [i] }
          producer := loopAt items (i + 1) }
  | hand {i : ℕ} (hp : s.producer = .sending i) (hbuffer : s.ch.buffer = [])
      (hc : s.consumer = .ranging) :
      Effect items s
        { s with
          producer := loopAt items (i + 1)
          consumer := .sleeping
          consumed := s.consumed ++ [i] }
  | close (hp : s.producer = .closing) (hopen : s.ch.closed = false) :
      Effect items s { s with ch := { s.ch with closed := true }, producer := .returned }
  | crash (hp : s.producer ≠ .returned) (hclosed : s.ch.closed = true) :
      Effect items s { s with panicked := true }
  | receive {i : ℕ} {ch : Chan ℕ} (hc : s.consumer = .ranging)
      (hreceive : s.ch.receive = .completes (some i, ch)) :
      Effect items s { s with ch := ch, consumer := .sleeping, consumed := s.consumed ++ [i] }
  | finish (hc : s.consumer = .ranging) (hbuffer : s.ch.buffer = [])
      (hclosed : s.ch.closed = true) :
      Effect items s { s with consumer := .signalling }
  | wake (hc : s.consumer = .sleeping) : Effect items s { s with consumer := .ranging }
  | signal (hc : s.consumer = .signalling) :
      Effect items s { s with consumer := .returned, signalled := true }

variable {items : ℕ} {s t : Pipeline}

theorem effect_of_send (h : s.send items = some t) : Effect items s t := by
  unfold send after at h
  split at h
  · rename_i i hp
    split at h
    · cases h
    · rename_i hpanic
      exact Option.some.inj h ▸ .crash (by simp [hp]) (Chan.send_panics.mp hpanic)
    · rename_i ch hsend
      have hroom := Chan.send_room hsend
      obtain ⟨hopen, rfl⟩ := Chan.send_completes hsend
      exact Option.some.inj h ▸ .send hp hopen hroom
  · cases h

theorem effect_of_close (h : s.close = some t) : Effect items s t := by
  unfold close after at h
  split at h
  · rename_i hp
    split at h
    · cases h
    · rename_i hpanic
      exact Option.some.inj h ▸ .crash (by simp [hp]) (Chan.close_panics.mp hpanic)
    · rename_i ch hclose
      obtain ⟨hopen, rfl⟩ := Chan.close_completes hclose
      exact Option.some.inj h ▸ .close hp hopen
  · cases h

theorem effect_of_receive (h : s.receive = some t) : Effect items s t := by
  unfold receive after at h
  split at h
  · rename_i hc
    split at h
    · cases h
    · rename_i hpanic
      exact absurd hpanic Chan.receive_ne_panics
    · rename_i r hreceive
      obtain ⟨val, ch⟩ := r
      cases val with
      | some i => exact Option.some.inj h ▸ .receive hc hreceive
      | none =>
        obtain ⟨hbuffer, hclosed, -⟩ := Chan.receive_none hreceive
        exact Option.some.inj h ▸ .finish hc hbuffer hclosed
  · cases h

/-- A step happens only while the program is going on. -/
theorem effect_of_step {a : Action} (h : s.step items a = some t) :
    s.panicked = false ∧ s.signalled = false ∧ Effect items s t := by
  unfold step at h
  split at h
  · cases h
  rename_i hend
  rw [not_or, Bool.not_eq_true, Bool.not_eq_true] at hend
  refine ⟨hend.1, hend.2, ?_⟩
  cases a with
  | send => exact effect_of_send h
  | hand =>
    simp only [hand] at h
    split at h
    · rename_i i hp
      rw [Option.ite_none_right_eq_some] at h
      exact Option.some.inj h.2 ▸ .hand hp h.1.2.1 h.1.2.2
    · cases h
  | close => exact effect_of_close h
  | receive => exact effect_of_receive h
  | wake =>
    rw [Option.ite_none_right_eq_some] at h
    exact Option.some.inj h.2 ▸ .wake h.1
  | signal =>
    rw [Option.ite_none_right_eq_some] at h
    exact Option.some.inj h.2 ▸ .signal h.1

end Pipeline

end GolangSandbox.Program
