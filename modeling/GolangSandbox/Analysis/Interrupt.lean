import GolangSandbox.Model.Termination
import GolangSandbox.Program.Ticker

/-!
# `main` does not wait for the ticker's consumer for ever

What was received, followed by what is buffered, is 0, 1, … up to the number of sends, as long
as `messages` is open. `main` closes `done` after its last send and `messages` at its end, so a
goroutine that is then still at its receive finds the rest of the buffer, or one 0 after the
last message; it does not come to a receive again, because its next `select` finds `done`
closed (`Ticking`).

While `main` is at a send `done` is open, so the goroutine goes on with every tick and makes
room; and no schedule goes on for ever, as every tick that is not dropped is used for a
message, or is one of the last (`ticksLeft`).
-/

set_option autoImplicit false

namespace GolangSandbox.Analysis

open GolangSandbox.Model GolangSandbox.Program GolangSandbox.Program.TickQueue

variable {items capacity i : ℕ} {s t : TickQueue}

/-- How many messages `main` has sent, from where it is. -/
def sentBy (items : ℕ) : MainPc → ℕ
  | .sending i => i
  | .sleeping | .interrupting | .waiting | .closing | .exiting | .exited => items

/-- `main` has closed `done`. -/
def doneClosed : MainPc → Bool
  | .sending _ | .sleeping | .interrupting => false
  | .waiting | .closing | .exiting | .exited => true

/-- `main` has closed `messages`. -/
def messagesClosed : MainPc → Bool
  | .sending _ | .sleeping | .interrupting | .waiting | .closing => false
  | .exiting | .exited => true

/-- What went through the channel: the messages in order, and perhaps a 0 after all of them. -/
def Received (items : ℕ) (s : TickQueue) : Prop :=
  s.received ++ s.messages.buffer = List.range (sentBy items s.main) ∨
    s.received = List.range items ++ [0] ∧ s.messages.buffer = [] ∧
      messagesClosed s.main = true ∧ s.consumer ≠ .receiving

/-- The invariant. -/
structure Ticking (items capacity : ℕ) (s : TickQueue) : Prop where
  sound : s.panicked = false
  size : s.messages.capacity = capacity
  empty : s.done.buffer = []
  done : s.done.closed = doneClosed s.main
  messages : s.messages.closed = messagesClosed s.main
  returned : s.consumer = .returned → doneClosed s.main = true
  next : ∀ i, s.main = .sending i → i < items
  received : Received items s

theorem doneClosed_of_messagesClosed {pc : MainPc} (h : messagesClosed pc = true) :
    doneClosed pc = true := by
  cases pc with
  | exiting => rfl
  | exited => rfl
  | sending i => cases h
  | sleeping => cases h
  | interrupting => cases h
  | waiting => cases h
  | closing => cases h

theorem loopAt_cases (items i : ℕ) :
    (i < items ∧ loopAt items i = .sending i) ∨ (items ≤ i ∧ loopAt items i = .sleeping) := by
  unfold loopAt
  split
  · rename_i hlt
    exact .inl ⟨hlt, rfl⟩
  · rename_i hle
    exact .inr ⟨Nat.le_of_not_lt hle, rfl⟩

theorem doneClosed_loopAt (items i : ℕ) : doneClosed (loopAt items i) = false := by
  obtain ⟨-, h⟩ | ⟨-, h⟩ := loopAt_cases items i
  · rw [h, doneClosed]
  · rw [h, doneClosed]

theorem messagesClosed_loopAt (items i : ℕ) : messagesClosed (loopAt items i) = false := by
  obtain ⟨-, h⟩ | ⟨-, h⟩ := loopAt_cases items i
  · rw [h, messagesClosed]
  · rw [h, messagesClosed]

theorem lt_of_loopAt {j : ℕ} (h : loopAt items i = .sending j) : j < items := by
  obtain ⟨hlt, hsame⟩ | ⟨-, hsame⟩ := loopAt_cases items i
  · rw [hsame] at h
    obtain rfl := MainPc.sending.inj h
    exact hlt
  · rw [hsame] at h
    cases h

/-- After the `i`-th send `i + 1` messages were sent. -/
theorem sentBy_loopAt (hi : i < items) : sentBy items (loopAt items (i + 1)) = i + 1 := by
  obtain ⟨-, h⟩ | ⟨hle, h⟩ := loopAt_cases items (i + 1)
  · rw [h, sentBy]
  · rw [h, sentBy]
    omega

theorem ticking_newTickQueue (items capacity : ℕ) :
    Ticking items capacity (newTickQueue items capacity) where
  sound := rfl
  size := rfl
  empty := rfl
  done := (doneClosed_loopAt items 0).symm
  messages := (messagesClosed_loopAt items 0).symm
  returned h := by cases h
  next _ h := lt_of_loopAt h
  received := by
    refine .inl ?_
    obtain ⟨-, h⟩ | ⟨hle, h⟩ := loopAt_cases items 0
    · simp only [newTickQueue, h, sentBy]
      rfl
    · simp only [newTickQueue, sentBy, Nat.le_zero.mp hle]
      rfl

/-- While `messages` is open, what was received are messages. -/
theorem Ticking.in_order (h : Ticking items capacity s) (hopen : messagesClosed s.main = false) :
    s.received ++ s.messages.buffer = List.range (sentBy items s.main) := by
  obtain hreceived | ⟨-, -, hclosed, -⟩ := h.received
  · exact hreceived
  · rw [hopen] at hclosed
    cases hclosed

/-- **The step lemma.** -/
theorem Ticking.step (h : Ticking items capacity s) (he : Effect items s t) :
    Ticking items capacity t := by
  cases he with
  | tick htick =>
    exact ⟨h.sound, h.size, h.empty, h.done, h.messages, h.returned, h.next, h.received⟩
  | @send i hmain hroom =>
    have hi := h.next i hmain
    have horder := h.in_order (by rw [hmain, messagesClosed])
    have hdone := h.done
    have hmessages := h.messages
    rw [hmain] at horder hdone hmessages
    refine ⟨h.sound, h.size, h.empty, ?_, ?_, fun hconsumer => ?_, fun _ hj => lt_of_loopAt hj,
      .inl ?_⟩
    · exact hdone.trans (doneClosed_loopAt items (i + 1)).symm
    · exact hmessages.trans (messagesClosed_loopAt items (i + 1)).symm
    · have hreturned := h.returned hconsumer
      rw [hmain] at hreturned
      cases hreturned
    · show s.received ++ (s.messages.buffer ++ [i]) = _
      rw [sentBy_loopAt hi, List.range_succ, ← List.append_assoc, horder, sentBy]
  | @hand i hmain hbuffer hconsumer =>
    have hi := h.next i hmain
    have horder := h.in_order (by rw [hmain, messagesClosed])
    have hdone := h.done
    have hmessages := h.messages
    rw [hmain] at horder hdone hmessages
    rw [hbuffer, List.append_nil, sentBy] at horder
    refine ⟨h.sound, h.size, h.empty, ?_, ?_, by simp, fun _ hj => lt_of_loopAt hj, .inl ?_⟩
    · exact hdone.trans (doneClosed_loopAt items (i + 1)).symm
    · exact hmessages.trans (messagesClosed_loopAt items (i + 1)).symm
    · show s.received ++ [i] ++ s.messages.buffer = _
      rw [hbuffer, List.append_nil, sentBy_loopAt hi, List.range_succ, horder]
  | wake hmain =>
    have horder := h.in_order (by rw [hmain, messagesClosed])
    have hdone := h.done
    have hmessages := h.messages
    have hreturned := h.returned
    rw [hmain] at horder hdone hmessages hreturned
    exact ⟨h.sound, h.size, h.empty, hdone, hmessages, hreturned, by simp, .inl horder⟩
  | interrupt hmain =>
    have horder := h.in_order (by rw [hmain, messagesClosed])
    have hmessages := h.messages
    rw [hmain] at horder hmessages
    exact ⟨h.sound, h.size, h.empty, rfl, hmessages, fun _ => rfl, by simp, .inl horder⟩
  | print hmain =>
    have horder := h.in_order (by rw [hmain, messagesClosed])
    have hdone := h.done
    have hmessages := h.messages
    rw [hmain] at horder hdone hmessages
    exact ⟨h.sound, h.size, h.empty, hdone, hmessages, fun _ => rfl, by simp, .inl horder⟩
  | close hmain =>
    have horder := h.in_order (by rw [hmain, messagesClosed])
    have hdone := h.done
    rw [hmain] at horder hdone
    exact ⟨h.sound, h.size, h.empty, hdone, rfl, fun _ => rfl, by simp, .inl horder⟩
  | exit hmain =>
    have hdone := h.done
    have hmessages := h.messages
    have hreceived := h.received
    rw [Received, hmain] at hreceived
    rw [hmain] at hdone hmessages
    exact ⟨h.sound, h.size, h.empty, hdone, hmessages, fun _ => rfl, by simp, hreceived⟩
  | crash hclosed =>
    obtain ⟨⟨i, hmain⟩, hmessages⟩ | ⟨hmain, hdone⟩ | ⟨hmain, hmessages⟩ := hclosed
    · rw [h.messages, hmain] at hmessages
      cases hmessages
    · rw [h.done, hmain] at hdone
      cases hdone
    · rw [h.messages, hmain] at hmessages
      cases hmessages
  | range hconsumer htick =>
    refine ⟨h.sound, h.size, h.empty, h.done, h.messages, by simp, h.next, ?_⟩
    obtain horder | ⟨hall, hbuffer, hclosed, -⟩ := h.received
    · exact .inl horder
    · exact .inr ⟨hall, hbuffer, hclosed, by simp⟩
  | look hconsumer hopen =>
    have hmessages : messagesClosed s.main = false := by
      by_contra hclosed
      rw [h.done, doneClosed_of_messagesClosed (Bool.not_eq_false _ ▸ hclosed)] at hopen
      cases hopen
    exact ⟨h.sound, h.size, h.empty, h.done, h.messages, by simp, h.next,
      .inl (h.in_order hmessages)⟩
  | interrupted hconsumer hdone =>
    have hclosed : doneClosed s.main = true := by
      obtain hclosed | hbuffer := hdone
      · rw [← h.done, hclosed]
      · exact absurd h.empty hbuffer
    refine ⟨h.sound, h.size, h.empty, h.done, h.messages, fun _ => hclosed, h.next, ?_⟩
    obtain horder | ⟨hall, hbuffer, hmessages, -⟩ := h.received
    · exact .inl horder
    · exact .inr ⟨hall, hbuffer, hmessages, by simp⟩
  | @receive i buffer hconsumer hbuffer =>
    refine ⟨h.sound, h.size, h.empty, h.done, h.messages, by simp, h.next, .inl ?_⟩
    obtain horder | ⟨-, hempty, -, -⟩ := h.received
    · rw [hbuffer] at horder
      rw [← horder, List.append_assoc]
      rfl
    · rw [hempty] at hbuffer
      cases hbuffer
  | zero hconsumer hbuffer hclosed =>
    have hmessages := h.messages.symm.trans hclosed
    refine ⟨h.sound, h.size, h.empty, h.done, h.messages, by simp, h.next,
      .inr ⟨?_, hbuffer, hmessages, by simp⟩⟩
    obtain horder | ⟨-, -, -, hother⟩ := h.received
    · have hall : sentBy items s.main = items := by
        cases hmain : s.main with
        | sending i =>
          rw [hmain] at hmessages
          cases hmessages
        | sleeping => rfl
        | interrupting => rfl
        | waiting => rfl
        | closing => rfl
        | exiting => rfl
        | exited => rfl
      rw [hbuffer, List.append_nil, hall] at horder
      rw [horder]
    · exact absurd hconsumer hother

/-! ## The measure -/

/-- The steps `main` has still to take, with those that its messages cause. -/
def mainLeft (items : ℕ) : MainPc → ℕ
  | .sending i => 5 * (items - i) + 5
  | .sleeping => 5
  | .interrupting => 4
  | .waiting => 3
  | .closing => 2
  | .exiting => 1
  | .exited => 0

/-- The steps of the goroutine, beside those for the messages in the buffer: it may come to a
receive as long as `done` is open. -/
def consumerLeft : Bool → TickerPc → ℕ
  | false, .ranging => 7
  | false, .selecting => 5
  | true, .ranging => 3
  | true, .selecting => 1
  | _, .receiving => 4
  | _, .returned => 0

def tickLeft : Bool → ℕ
  | true => 0
  | false => 1

/-- What is left to do. -/
def ticksLeft (items : ℕ) (s : TickQueue) : ℕ :=
  mainLeft items s.main + 4 * s.messages.buffer.length + consumerLeft s.done.closed s.consumer +
    tickLeft s.tick

theorem mainLeft_loopAt (hi : i < items) :
    mainLeft items (loopAt items (i + 1)) + 5 = mainLeft items (.sending i) := by
  obtain ⟨-, h⟩ | ⟨hle, h⟩ := loopAt_cases items (i + 1)
  · simp only [h, mainLeft]
    omega
  · simp only [h, mainLeft]
    omega

theorem consumerLeft_interrupt (pc : TickerPc) (b : Bool) :
    consumerLeft true pc ≤ consumerLeft b pc := by
  cases pc <;> cases b <;> decide

/-- Every step lowers what is left. -/
theorem Ticking.ticksLeft_step (h : Ticking items capacity s) (he : Effect items s t) :
    ticksLeft items t < ticksLeft items s := by
  cases he with
  | tick htick =>
    simp only [ticksLeft, htick, tickLeft]
    omega
  | @send i hmain hroom =>
    have hleft := mainLeft_loopAt (h.next i hmain)
    simp only [ticksLeft, hmain, List.length_append, List.length_singleton]
    omega
  | @hand i hmain hbuffer hconsumer =>
    have hleft := mainLeft_loopAt (h.next i hmain)
    have hopen : s.done.closed = false := by rw [h.done, hmain, doneClosed]
    simp only [ticksLeft, hmain, hconsumer, hopen, consumerLeft]
    omega
  | wake hmain =>
    simp only [ticksLeft, hmain, mainLeft]
    omega
  | interrupt hmain =>
    have hconsumer := consumerLeft_interrupt s.consumer s.done.closed
    simp only [ticksLeft, hmain, mainLeft]
    omega
  | print hmain =>
    simp only [ticksLeft, hmain, mainLeft]
    omega
  | close hmain =>
    simp only [ticksLeft, hmain, mainLeft]
    omega
  | exit hmain =>
    simp only [ticksLeft, hmain, mainLeft]
    omega
  | crash hclosed => exact absurd (h.step (.crash hclosed)).sound (by simp)
  | range hconsumer htick =>
    cases hdone : s.done.closed with
    | true =>
      simp only [ticksLeft, hconsumer, htick, hdone, consumerLeft, tickLeft]
      omega
    | false =>
      simp only [ticksLeft, hconsumer, htick, hdone, consumerLeft, tickLeft]
      omega
  | look hconsumer hopen =>
    simp only [ticksLeft, hconsumer, hopen, consumerLeft]
    omega
  | interrupted hconsumer hdone =>
    have hclosed : s.done.closed = true := hdone.resolve_right (by simp [h.empty])
    simp only [ticksLeft, hconsumer, hclosed, consumerLeft]
    omega
  | @receive i buffer hconsumer hbuffer =>
    cases hdone : s.done.closed with
    | true =>
      simp only [ticksLeft, hconsumer, hbuffer, hdone, consumerLeft, List.length_cons]
      omega
    | false =>
      simp only [ticksLeft, hconsumer, hbuffer, hdone, consumerLeft, List.length_cons]
      omega
  | zero hconsumer hbuffer hclosed =>
    have hdone : s.done.closed = true := by
      rw [h.done]
      exact doneClosed_of_messagesClosed (h.messages.symm.trans hclosed)
    simp only [ticksLeft, hconsumer, hdone, consumerLeft]
    omega

/-! ## No deadlock -/

/-- `main` goes on, if a send of it finds room. -/
theorem Ticking.main_of_room (h : Ticking items capacity s) (hgoing : s.main ≠ .exited)
    (hroom : ∀ i, s.main = .sending i → s.messages.buffer.length < capacity) :
    s.step items .main ≠ none := by
  have hend : ¬ (s.panicked ∨ s.main = .exited) := by simp [h.sound, hgoing]
  have hdone := h.done
  have hmessages := h.messages
  simp only [TickQueue.step, if_neg hend, stepMain]
  cases hmain : s.main with
  | sending i =>
    rw [hmain, messagesClosed] at hmessages
    have hlt := hroom i hmain
    rw [← h.size] at hlt
    simp [Chan.send, hmessages, hlt, after]
  | sleeping => simp
  | interrupting =>
    rw [hmain, doneClosed] at hdone
    simp [Chan.close_of_open hdone, after]
  | waiting => simp
  | closing =>
    rw [hmain, messagesClosed] at hmessages
    simp [Chan.close_of_open hmessages, after]
  | exiting => simp
  | exited => exact absurd hmain hgoing

/-- With a buffer for all messages no send of `main` has to wait. -/
theorem Ticking.room_of_capacity (h : Ticking items capacity s) (hcapacity : items ≤ capacity)
    (hmain : s.main = .sending i) : s.messages.buffer.length < capacity := by
  have horder := congrArg List.length (h.in_order (by rw [hmain, messagesClosed]))
  have hi := h.next i hmain
  rw [hmain, sentBy, List.length_range, List.length_append] at horder
  omega

/-- Until `main` has ended, somebody can go on. -/
theorem Ticking.exists_step (h : Ticking items capacity s) (hgoing : s.main ≠ .exited) :
    ∃ a t, s.step items a = some t := by
  have hmove : ∀ a, s.step items a ≠ none → ∃ a t, s.step items a = some t :=
    fun a ha => ⟨a, Option.ne_none_iff_exists'.mp ha⟩
  have hend : ¬ (s.panicked ∨ s.main = .exited) := by simp [h.sound, hgoing]
  by_cases hroom : ∀ i, s.main = .sending i → s.messages.buffer.length < capacity
  · exact hmove .main (h.main_of_room hgoing hroom)
  -- `main` waits at a send, and the goroutine has not seen `done` closed.
  rw [not_forall] at hroom
  obtain ⟨i, hfull⟩ := hroom
  rw [Classical.not_imp] at hfull
  have hmain := hfull.1
  cases hconsumer : s.consumer with
  | ranging =>
    cases htick : s.tick with
    | false => exact hmove .tick (by simp [TickQueue.step, hend, htick])
    | true => exact hmove .range (by simp [TickQueue.step, hend, htick, hconsumer])
  | selecting =>
    refine hmove .select ?_
    have hopen : s.done.closed = false := by rw [h.done, hmain, doneClosed]
    simp [TickQueue.step, hend, hconsumer, select, Chan.receive, h.empty, hopen]
  | receiving =>
    cases hbuffer : s.messages.buffer with
    | nil =>
      have hopen : s.messages.closed = false := by rw [h.messages, hmain, messagesClosed]
      refine hmove .hand ?_
      simp [TickQueue.step, h.sound, hand, hmain, hopen, hbuffer, hconsumer]
    | cons j buffer =>
      refine hmove .receive ?_
      simp [TickQueue.step, hend, hconsumer, receive, Chan.receive, hbuffer, after]
  | returned =>
    have hreturned := h.returned hconsumer
    rw [hmain] at hreturned
    cases hreturned

/-! ## The main theorem -/

theorem ticking_of_run {as : List TickQueue.Action}
    (h : run (TickQueue.step items) (newTickQueue items capacity) as = some s) :
    Ticking items capacity s :=
  run_invariant (ticking_newTickQueue items capacity)
    (fun _ _ _ ht ha => ht.step (effect_of_step ha).2.2) h

/-- **The interruption**, for any number of messages and any size of the buffer. In every run
the goroutine receives the messages in order, and after all of them perhaps one 0, when `main`
has closed the channel; it returns only when `done` is closed, and nothing panics. From every
state that a run reaches, every schedule ends, with the end of `main`; and `main` never waits if
the buffer has room for all messages.
SOURCE: produce_consume/timeout/main1.go:8-38 -/
theorem interruption_completes (items capacity : ℕ) (as : List TickQueue.Action) (s : TickQueue)
    (h : run (TickQueue.step items) (newTickQueue items capacity) as = some s) :
    s.received <+: List.range items ++ [0] ∧
      (items < s.received.length → s.messages.closed = true) ∧
      (s.consumer = .returned → s.done.closed = true) ∧ s.panicked = false ∧
      (items ≤ capacity → s.main ≠ .exited → s.step items .main ≠ none) ∧
      Completes (TickQueue.step items) (fun t => t.main = .exited) s := by
  have hs := ticking_of_run h
  have hsent : sentBy items s.main ≤ items := by
    cases hmain : s.main with
    | sending i => exact Nat.le_of_lt (hs.next i hmain)
    | sleeping => exact Nat.le_refl items
    | interrupting => exact Nat.le_refl items
    | waiting => exact Nat.le_refl items
    | closing => exact Nat.le_refl items
    | exiting => exact Nat.le_refl items
    | exited => exact Nat.le_refl items
  refine ⟨?_, ?_, fun hconsumer => hs.done.trans (hs.returned hconsumer), hs.sound, ?_, ?_⟩
  · obtain horder | ⟨hall, -⟩ := hs.received
    · have hbegin : List.range (sentBy items s.main) <+: List.range items := by
        rw [List.prefix_iff_eq_take, List.length_range, List.take_range, Nat.min_eq_left hsent]
      exact ((List.prefix_append _ _).trans (horder ▸ hbegin)).trans (List.prefix_append _ _)
    · exact hall ▸ List.prefix_rfl
  · intro hmore
    obtain horder | ⟨-, -, hclosed, -⟩ := hs.received
    · have hlength := congrArg List.length horder
      rw [List.length_append, List.length_range] at hlength
      omega
    · rw [hs.messages, hclosed]
  · exact fun hcapacity hgoing =>
      hs.main_of_room hgoing fun i hmain => hs.room_of_capacity hcapacity hmain
  · refine completes_of_measure (I := Ticking items capacity) (μ := ticksLeft items) ?_ ?_ hs
    · intro t a u ht ha
      have he := (effect_of_step ha).2.2
      exact ⟨ht.step he, ht.ticksLeft_step he⟩
    · intro t ht hstuck
      by_contra hgoing
      obtain ⟨a, u, hu⟩ := ht.exists_step hgoing
      rw [hstuck] at hu
      cases hu

/-- One message, which the goroutine takes before it waits at the empty channel until the
deferred `close`. -/
def lateReceive : List TickQueue.Action :=
  [.main, .tick, .range, .select, .receive, .tick, .range, .select, .main, .main, .main, .main,
    .receive]

theorem interruption_completes_late :
    ∃ s, run (TickQueue.step 1) (newTickQueue 1 10) lateReceive = some s ∧ s.received = [0, 0] ∧
      s.received <+: List.range 1 ++ [0] ∧
      Completes (TickQueue.step 1) (fun t => t.main = .exited) s := by
  have hall := interruption_completes 1 10 lateReceive _ rfl
  exact ⟨_, rfl, rfl, hall.1, hall.2.2.2.2.2⟩

end GolangSandbox.Analysis
