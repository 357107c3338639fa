import GolangSandbox.Model.Channel
import GolangSandbox.Model.Transition

/-!
# A consumer with a ticker

`produce_consume/timeout/main1.go`: `main` sends 0, 1, … on `messages` and closes `done` some
time later. A goroutine looks at every tick whether `done` is closed, and receives a message if
it is not. How many messages there are and the size of the buffer are parameters.

Each channel operation, each `select` and the end of each sleep is a step. The channel of the
ticker has room for one tick, and a tick that finds it full is dropped; ticks come at any time,
since a step may take any time. A receive from a channel that is closed and empty yields 0. The
deferred `close` comes before the end of the process, and the goroutine may move in between.
What it prints as received is kept.
-/

set_option autoImplicit false

namespace GolangSandbox.Program

open GolangSandbox.Model

/-- Where `main` is: at a send, in its first sleep, in front of `close(done)`, in its second
sleep, in front of the deferred `close(messages)`, in front of its end, or ended. -/
inductive MainPc where
  | sending (i : ℕ)
  | sleeping
  | interrupting
  | waiting
  | closing
  | exiting
  | exited
  deriving DecidableEq, Repr

/-- Where the goroutine is: at the receive of its `range`, at its `select`, at the receive in
the `default` case, or returned. -/
inductive TickerPc where
  | ranging
  | selecting
  | receiving
  | returned
  deriving DecidableEq, Repr

/-- The two goroutines with their channels; `tick` says whether a tick waits. -/
structure TickQueue where
  messages : Chan ℕ
  done : Chan Bool
  tick : Bool
  main : MainPc
  consumer : TickerPc
  panicked : Bool
  received : List ℕ
  deriving DecidableEq, Repr

namespace TickQueue

/-- Where the loop of `main` is with its next message.
SOURCE: produce_consume/timeout/main1.go:29-31 -/
def loopAt (items i : ℕ) : MainPc := if i < items then .sending i else .sleeping

/-- `main` has started the goroutine.
SOURCE: produce_consume/timeout/main1.go:9-15 -/
def newTickQueue (items capacity : ℕ) : TickQueue where
  messages := .make capacity
  done := .make 0
  tick := false
  main := loopAt items 0
  consumer := .ranging
  panicked := false
  received := []

/-- A tick comes, `main` takes a step or hands a message over, or the goroutine takes a step. -/
inductive Action where
  | tick
  | main
  | hand
  | range
  | select
  | receive
  deriving DecidableEq, Repr

/-- The end of a channel operation. -/
def after {β : Type} (s : TickQueue) (o : Outcome β) (next : β → TickQueue) : Option TickQueue :=
  match o with
  | .blocks => none
  | .panics => some { s with panicked := true }
  | .completes b => some (next b)

/-- SOURCE: produce_consume/timeout/main1.go:12, 29-38 -/
def stepMain (items : ℕ) (s : TickQueue) : Option TickQueue :=
  match s.main with
  | .sending i =>
    s.after (s.messages.send i) fun ch => { s with messages := ch, main := loopAt items (i + 1) }
  | .sleeping => some { s with main := .interrupting }
  | .interrupting => s.after s.done.close fun ch => { s with done := ch, main := .waiting }
  | .waiting => some { s with main := .closing }
  | .closing => s.after s.messages.close fun ch => { s with messages := ch, main := .exiting }
  | .exiting => some { s with main := .exited }
  | .exited => none

/-- A send meets the goroutine at its receive.
SOURCE: produce_consume/timeout/main1.go:23, 29 -/
def hand (items : ℕ) (s : TickQueue) : Option TickQueue :=
  match s.main with
  | .sending i =>
    if s.messages.closed = false ∧ s.messages.buffer = [] ∧ s.consumer = .receiving then
      some { s with
        main := loopAt items (i + 1)
        consumer := .ranging
        received := s.received ++ [i] }
    else none
  | _ => none

/-- SOURCE: produce_consume/timeout/main1.go:18-21 -/
def select (s : TickQueue) : Option TickQueue :=
  match s.done.receive with
  | .blocks => some { s with consumer := .receiving }
  | .panics => some { s with panicked := true }
  | .completes _ => some { s with consumer := .returned }

/-- SOURCE: produce_consume/timeout/main1.go:23 -/
def receive (s : TickQueue) : Option TickQueue :=
  s.after s.messages.receive fun (message, ch) =>
    { s with
      messages := ch
      consumer := .ranging
      received := s.received ++ [message.getD 0] }

/-- One step.
SOURCE: produce_consume/timeout/main1.go:8-38 -/
def step (items : ℕ) (s : TickQueue) (a : Action) : Option TickQueue :=
  if s.panicked ∨ s.main = .exited then none
  else
    match a with
    | .tick => if s.tick then none else some { s with tick := true }
    | .main => s.stepMain items
    | .hand => s.hand items
    | .range =>
      if s.consumer = .ranging ∧ s.tick = true then
        some { s with tick := false, consumer := .selecting }
      else none
    | .select => if s.consumer = .selecting then s.select else none
    | .receive => if s.consumer = .receiving then s.receive else none

/-! ## What a step does -/

/-- What a step leads to, with what makes it possible. -/
inductive Effect (items : ℕ) (s : TickQueue) : TickQueue → Prop where
  | tick (htick : s.tick = false) : Effect items s { s with tick := true }
  | send {i : ℕ} (hmain : s.main = .sending i)
      (hroom : s.messages.buffer.length < s.messages.capacity) :
      Effect items s
        { s with
          messages := { s.messages with buffer := s.messages.buffer ++ [i] }
          main := loopAt items (i + 1) }
  | hand {i : ℕ} (hmain : s.main = .sending i) (hbuffer : s.messages.buffer = [])
      (hconsumer : s.consumer = .receiving) :
      Effect items s
        { s with
          main := loopAt items (i + 1)
          consumer := .ranging
          received := s.received ++ [i] }
  | wake (hmain : s.main = .sleeping) : Effect items s { s with main := .interrupting }
  | interrupt (hmain : s.main = .interrupting) :
      Effect items s { s with done := { s.done with closed := true }, main := .waiting }
  | print (hmain : s.main = .waiting) : Effect items s { s with main := .closing }
  | close (hmain : s.main = .closing) :
      Effect items s { s with messages := { s.messages with closed := true }, main := .exiting }
  | exit (hmain : s.main = .exiting) : Effect items s { s with main := .exited }
  | crash (hclosed : (∃ i, s.main = .sending i) ∧ s.messages.closed = true ∨
      s.main = .interrupting ∧ s.done.closed = true ∨
      s.main = .closing ∧ s.messages.closed = true) : Effect items s { s with panicked := true }
  | range (hconsumer : s.consumer = .ranging) (htick : s.tick = true) :
      Effect items s { s with tick := false, consumer := .selecting }
  | look (hconsumer : s.consumer = .selecting) (hopen : s.done.closed = false) :
      Effect items s { s with consumer := .receiving }
  | interrupted (hconsumer : s.consumer = .selecting)
      (hdone : s.done.closed = true ∨ s.done.buffer ≠ []) :
      Effect items s { s with consumer := .returned }
  | receive {i : ℕ} {buffer : List ℕ} (hconsumer : s.consumer = .receiving)
      (hbuffer : s.messages.buffer = i :: buffer) :
      Effect items s
        { s with
          messages := { s.messages with buffer := buffer }
          consumer := .ranging
          received := s.received ++ [i] }
  | zero (hconsumer : s.consumer = .receiving) (hbuffer : s.messages.buffer = [])
      (hclosed : s.messages.closed = true) :
      Effect items s { s with consumer := .ranging, received := s.received ++ [0] }

variable {items : ℕ} {s t : TickQueue}

theorem effect_of_stepMain (h : s.stepMain items = some t) : Effect items s t := by
  unfold stepMain after at h
  split at h
  · rename_i i hmain
    split at h
    · cases h
    · rename_i hpanic
      exact Option.some.inj h ▸ .crash (.inl ⟨⟨i, hmain⟩, Chan.send_panics.mp hpanic⟩)
    · rename_i ch hsend
      have hroom := Chan.send_room hsend
      obtain ⟨-, rfl⟩ := Chan.send_completes hsend
      exact Option.some.inj h ▸ .send hmain hroom
  · rename_i hmain
    exact Option.some.inj h ▸ .wake hmain
  · rename_i hmain
    split at h
    · cases h
    · rename_i hpanic
      exact Option.some.inj h ▸ .crash (.inr (.inl ⟨hmain, Chan.close_panics.mp hpanic⟩))
    · rename_i ch hclose
      obtain ⟨-, rfl⟩ := Chan.close_completes hclose
      exact Option.some.inj h ▸ .interrupt hmain
  · rename_i hmain
    exact Option.some.inj h ▸ .print hmain
  · rename_i hmain
    split at h
    · cases h
    · rename_i hpanic
      exact Option.some.inj h ▸ .crash (.inr (.inr ⟨hmain, Chan.close_panics.mp hpanic⟩))
    · rename_i ch hclose
      obtain ⟨-, rfl⟩ := Chan.close_completes hclose
      exact Option.some.inj h ▸ .close hmain
  · rename_i hmain
    exact Option.some.inj h ▸ .exit hmain
  · cases h

theorem effect_of_select (hconsumer : s.consumer = .selecting) (h : s.select = some t) :
    Effect items s t := by
  unfold select Chan.receive at h
  cases hbuffer : s.done.buffer with
  | cons b buffer =>
    simp only [hbuffer] at h
    exact Option.some.inj h ▸ .interrupted hconsumer (.inr (by simp [hbuffer]))
  | nil =>
    cases hclosed : s.done.closed with
    | true =>
      simp only [hbuffer, hclosed, if_true] at h
      exact Option.some.inj h ▸ .interrupted hconsumer (.inl hclosed)
    | false =>
      simp [hbuffer, hclosed] at h
      exact h ▸ .look hconsumer hclosed

theorem effect_of_receive (hconsumer : s.consumer = .receiving) (h : s.receive = some t) :
    Effect items s t := by
  unfold receive after Chan.receive at h
  cases hbuffer : s.messages.buffer with
  | cons i buffer =>
    simp only [hbuffer, Option.getD_some] at h
    exact Option.some.inj h ▸ .receive hconsumer hbuffer
  | nil =>
    cases hclosed : s.messages.closed with
    | true =>
      simp only [hbuffer, hclosed, if_true, Option.getD_none] at h
      exact Option.some.inj h ▸ .zero hconsumer hbuffer hclosed
    | false => simp [hbuffer, hclosed] at h

/-- A step happens only while the program is going on. -/
theorem effect_of_step {a : Action} (h : s.step items a = some t) :
    s.panicked = false ∧ s.main ≠ .exited ∧ Effect items s t := by
  unfold step at h
  split at h
  · cases h
  rename_i hend
  rw [not_or, Bool.not_eq_true] at hend
  refine ⟨hend.1, hend.2, ?_⟩
  cases a with
  | tick =>
    rw [Option.ite_none_left_eq_some] at h
    exact Option.some.inj h.2 ▸ .tick (Bool.not_eq_true _ ▸ h.1)
  | main => exact effect_of_stepMain h
  | hand =>
    simp only [hand] at h
    split at h
    · rename_i i hmain
      rw [Option.ite_none_right_eq_some] at h
      exact Option.some.inj h.2 ▸ .hand hmain h.1.2.1 h.1.2.2
    · cases h
  | range =>
    rw [Option.ite_none_right_eq_some] at h
    exact Option.some.inj h.2 ▸ .range h.1.1 h.1.2
  | select =>
    rw [Option.ite_none_right_eq_some] at h
    exact effect_of_select h.1 h.2
  | receive =>
    rw [Option.ite_none_right_eq_some] at h
    exact effect_of_receive h.1 h.2

end TickQueue

end GolangSandbox.Program
