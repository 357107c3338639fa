import GolangSandbox.Model.Termination
import GolangSandbox.Program.Pipeline

/-!
# From the producer to `main`

What was consumed, followed by what is buffered, is 1, 2, … up to the number of sends
(`Flowing`). The consumer leaves its `range` only at the end of a closed and empty channel, and
only the producer closes it, after its last send. So `main` gets its signal when everything
was consumed, and it does get it: an item costs its send, its receive and the sleep after it
(`flowLeft`), and while items are left one of the two goroutines can go on, because a channel
without a free place has an item, or no buffer at all and then the two meet.
-/

set_option autoImplicit false

namespace GolangSandbox.Analysis

open GolangSandbox.Model GolangSandbox.Program GolangSandbox.Program.Pipeline

variable {items capacity i : ℕ} {s t : Pipeline}

/-- How many items the producer has sent, from where it is. -/
def itemsSent (items : ℕ) : SenderPc → ℕ
  | .sending i => i - 1
  | .closing | .returned => items

/-- The invariant. -/
structure Flowing (items capacity : ℕ) (s : Pipeline) : Prop where
  sound : s.panicked = false
  size : s.ch.capacity = capacity
  room : s.ch.buffer.length ≤ capacity
  values : s.consumed ++ s.ch.buffer = List.range' 1 (itemsSent items s.producer)
  next : ∀ i, s.producer = .sending i → 1 ≤ i ∧ i ≤ items
  closed_iff : s.ch.closed = true ↔ s.producer = .returned
  ended : s.consumer = .signalling ∨ s.consumer = .returned →
    s.ch.closed = true ∧ s.ch.buffer = []
  signalled_iff : s.signalled = true ↔ s.consumer = .returned

theorem loopAt_ne_returned (items i : ℕ) : loopAt items i ≠ .returned := by
  unfold loopAt
  split <;> simp

theorem next_loopAt {i j : ℕ} (hi : 1 ≤ i) (h : loopAt items i = .sending j) :
    1 ≤ j ∧ j ≤ items := by
  unfold loopAt at h
  split at h
  · cases h
    exact ⟨hi, ‹_›⟩
  · cases h

/-- After the `i`-th send `i` items were sent. -/
theorem itemsSent_loopAt (hi : i ≤ items) : itemsSent items (loopAt items (i + 1)) = i := by
  unfold loopAt
  split
  · rfl
  · simp only [itemsSent]
    omega

/-- The channel gets one more value at its end. -/
theorem values_send (hi : 1 ≤ i) (hle : i ≤ items) {consumed buffer : List ℕ}
    (h : consumed ++ buffer = List.range' 1 (i - 1)) :
    consumed ++ buffer ++ [i] = List.range' 1 (itemsSent items (loopAt items (i + 1))) := by
  have hconcat : List.range' 1 (i - 1 + 1) = List.range' 1 (i - 1) ++ [1 + 1 * (i - 1)] :=
    List.range'_concat
  rw [Nat.sub_add_cancel hi, Nat.one_mul, Nat.add_sub_cancel' hi] at hconcat
  rw [itemsSent_loopAt hle, h, hconcat]

theorem flowing_newPipeline (items capacity : ℕ) :
    Flowing items capacity (newPipeline items capacity) where
  sound := rfl
  size := rfl
  room := Nat.zero_le _
  values := by
    show [] = List.range' 1 (itemsSent items (loopAt items (0 + 1)))
    rw [itemsSent_loopAt (Nat.zero_le _)]
    rfl
  next j h := next_loopAt (Nat.le_refl 1) h
  closed_iff := iff_of_false (by simp [newPipeline, Chan.make]) (loopAt_ne_returned items 1)
  ended h := by simp [newPipeline] at h
  signalled_iff := by simp [newPipeline]

/-- **The step lemma.** -/
theorem Flowing.step (h : Flowing items capacity s) (hgoing : s.signalled = false)
    (he : Effect items s t) : Flowing items capacity t := by
  have hover : s.consumer ≠ .returned := by
    intro hc
    rw [h.signalled_iff.mpr hc] at hgoing
    cases hgoing
  cases he with
  | @send i hp hopen hroom =>
    obtain ⟨hi, hle⟩ := h.next i hp
    have hvalues := h.values
    rw [hp] at hvalues
    refine ⟨h.sound, h.size, ?_, ?_, fun j hj => next_loopAt (Nat.le_add_left 1 i) hj, ?_,
      fun hc => ?_, h.signalled_iff⟩
    · rw [← h.size, List.length_append]
      exact hroom
    · rw [← List.append_assoc]
      exact values_send hi hle hvalues
    · exact iff_of_false (by simp [hopen]) (loopAt_ne_returned items (i + 1))
    · rw [(h.ended hc).1] at hopen
      cases hopen
  | @hand i hp hbuffer hc =>
    obtain ⟨hi, hle⟩ := h.next i hp
    have hvalues := h.values
    rw [hp] at hvalues
    have hopen : s.ch.closed ≠ true := by
      rw [ne_eq, h.closed_iff, hp]
      simp
    refine ⟨h.sound, h.size, h.room, ?_, fun j hj => next_loopAt (Nat.le_add_left 1 i) hj, ?_,
      by simp, ?_⟩
    · have hsent := values_send hi hle hvalues
      rw [hbuffer, List.append_nil] at hsent
      rw [hbuffer, List.append_nil]
      exact hsent
    · exact iff_of_false hopen (loopAt_ne_returned items (i + 1))
    · simp [hgoing]
  | close hp hopen =>
    have hvalues := h.values
    rw [hp] at hvalues
    refine ⟨h.sound, h.size, h.room, hvalues, by simp, by simp, fun hc => ?_, h.signalled_iff⟩
    rw [(h.ended hc).1] at hopen
    cases hopen
  | crash hp hclosed => exact absurd (h.closed_iff.mp hclosed) hp
  | @receive i ch hc hreceive =>
    obtain ⟨hbuffer, hclosed⟩ := Chan.receive_some hreceive
    have hcapacity : ch.capacity = s.ch.capacity := by
      simp only [Chan.receive, hbuffer, Outcome.completes.injEq, Prod.mk.injEq] at hreceive
      rw [← hreceive.2]
    have hvalues := h.values
    have hroom := h.room
    rw [hbuffer] at hvalues hroom
    refine ⟨h.sound, hcapacity.trans h.size, Nat.le_of_succ_le hroom, ?_, h.next, ?_, by simp,
      ?_⟩
    · rw [← hvalues, List.append_assoc]
      rfl
    · rw [hclosed]
      exact h.closed_iff
    · simp [hgoing]
  | finish hc hbuffer hclosed =>
    exact ⟨h.sound, h.size, h.room, h.values, h.next, h.closed_iff,
      fun _ => ⟨hclosed, hbuffer⟩, by simp [hgoing]⟩
  | wake hc =>
    exact ⟨h.sound, h.size, h.room, h.values, h.next, h.closed_iff, by simp,
      by simp [hgoing]⟩
  | signal hc =>
    exact ⟨h.sound, h.size, h.room, h.values, h.next, h.closed_iff,
      fun _ => h.ended (.inl hc), by simp⟩

/-! ## The measure -/

/-- The steps the producer has still to take, with those that its items cause. -/
def sendsLeft (items : ℕ) : SenderPc → ℕ
  | .sending i => 4 * (items + 1 - i) + 1
  | .closing => 1
  | .returned => 0

/-- The steps of the consumer, beside those for the items in the buffer. -/
def rangeLeft : RangePc → ℕ
  | .sleeping => 3
  | .ranging => 2
  | .signalling => 1
  | .returned => 0

/-- What is left to do. -/
def flowLeft (items : ℕ) (s : Pipeline) : ℕ :=
  sendsLeft items s.producer + 3 * s.ch.buffer.length + rangeLeft s.consumer

theorem sendsLeft_loopAt (hi : i ≤ items) :
    sendsLeft items (loopAt items (i + 1)) + 4 = sendsLeft items (.sending i) := by
  unfold loopAt
  split
  · simp only [sendsLeft]
    omega
  · simp only [sendsLeft]
    omega

/-- Every step lowers what is left. -/
theorem Flowing.flowLeft_step (h : Flowing items capacity s) (he : Effect items s t) :
    flowLeft items t < flowLeft items s := by
  cases he with
  | @send i hp hopen hroom =>
    have hsends := sendsLeft_loopAt (h.next i hp).2
    simp only [flowLeft, hp, List.length_append, List.length_singleton]
    omega
  | @hand i hp hbuffer hc =>
    have hsends := sendsLeft_loopAt (h.next i hp).2
    simp only [flowLeft, hp, hc, rangeLeft]
    omega
  | close hp hopen =>
    simp only [flowLeft, hp, sendsLeft]
    omega
  | crash hp hclosed => exact absurd (h.closed_iff.mp hclosed) hp
  | @receive i ch hc hreceive =>
    have hbuffer := (Chan.receive_some hreceive).1
    simp only [flowLeft, hc, rangeLeft, hbuffer, List.length_cons]
    omega
  | finish hc hbuffer hclosed =>
    simp only [flowLeft, hc, rangeLeft]
    omega
  | wake hc =>
    simp only [flowLeft, hc, rangeLeft]
    omega
  | signal hc =>
    simp only [flowLeft, hc, rangeLeft]
    omega

/-- While `main` waits, somebody can go on. -/
theorem Flowing.exists_step (h : Flowing items capacity s) (hover : s.signalled = false) :
    ∃ a t, s.step items a = some t := by
  have hmove : ∀ a, s.step items a ≠ none → ∃ a t, s.step items a = some t :=
    fun a ha => ⟨a, Option.ne_none_iff_exists'.mp ha⟩
  have hgoing : ¬ (s.panicked ∨ s.signalled) := by simp [h.sound, hover]
  have hopen : s.producer ≠ .returned → s.ch.closed = false := by
    intro hp
    rw [← Bool.not_eq_true, h.closed_iff]
    exact hp
  cases hc : s.consumer with
  | sleeping => exact hmove .wake (by simp [Pipeline.step, hgoing, hc])
  | signalling => exact hmove .signal (by simp [Pipeline.step, hgoing, hc])
  | returned =>
    rw [h.signalled_iff.mpr hc] at hover
    cases hover
  | ranging =>
    cases hbuffer : s.ch.buffer with
    | cons i buffer =>
      exact hmove .receive
        (by simp [Pipeline.step, hgoing, receive, hc, Chan.receive, hbuffer, after])
    | nil =>
      cases hp : s.producer with
      | sending i =>
        have hch := hopen (by simp [hp])
        exact hmove .hand (by simp [Pipeline.step, hgoing, hand, hp, hch, hbuffer, hc])
      | closing =>
        have hch := Chan.close_of_open (hopen (by simp [hp]))
        exact hmove .close (by simp [Pipeline.step, hgoing, close, hp, hch, after])
      | returned =>
        have hch := h.closed_iff.mpr hp
        exact hmove .receive
          (by simp [Pipeline.step, hgoing, receive, hc, Chan.receive, hbuffer, hch, after])

/-! ## The main theorem -/

/-- **Everything arrives before `main` goes on**, for any number of items and any size of the
buffer, none included. In every run the items consumed are the first ones, in order, the buffer
is not overfull, and nothing panics; and from every state that a run reaches, every schedule
ends with the signal to `main`, when the channel is closed and all items were consumed.
SOURCE: produce_consume/model1/main1.go:24-53 -/
theorem pipeline_completes (items capacity : ℕ) (as : List Pipeline.Action) (s : Pipeline)
    (h : run (Pipeline.step items) (newPipeline items capacity) as = some s) :
    s.consumed <+: List.range' 1 items ∧ s.ch.buffer.length ≤ capacity ∧ s.panicked = false ∧
      Completes (Pipeline.step items)
        (fun t => t.signalled = true ∧ t.ch.closed = true ∧
          t.consumed = List.range' 1 items) s := by
  have hs : Flowing items capacity s :=
    run_invariant (flowing_newPipeline items capacity)
      (fun _ _ _ hs ha => hs.step (effect_of_step ha).2.1 (effect_of_step ha).2.2) h
  refine ⟨?_, hs.room, hs.sound, ?_⟩
  · have hsent : itemsSent items s.producer ≤ items := by
      cases hp : s.producer with
      | sending i =>
        have hle := (hs.next i hp).2
        simp only [itemsSent]
        omega
      | closing => exact Nat.le_refl items
      | returned => exact Nat.le_refl items
    obtain ⟨k, hk⟩ := Nat.exists_eq_add_of_le hsent
    have hsplit := List.range'_append_1 (s := 1) (m := itemsSent items s.producer) (n := k)
    rw [← hk, ← hs.values, List.append_assoc] at hsplit
    exact ⟨_, hsplit⟩
  · refine completes_of_measure (I := Flowing items capacity) (μ := flowLeft items) ?_ ?_ hs
    · intro t a u ht ha
      obtain ⟨-, hover, he⟩ := effect_of_step ha
      exact ⟨ht.step hover he, ht.flowLeft_step he⟩
    · intro t ht hstuck
      have hover : t.signalled = true := by
        by_contra hgoing
        obtain ⟨a, u, hu⟩ := ht.exists_step (Bool.not_eq_true _ ▸ hgoing)
        rw [hstuck] at hu
        cases hu
      obtain ⟨hclosed, hbuffer⟩ := ht.ended (.inr (ht.signalled_iff.mp hover))
      have hvalues := ht.values
      rw [hbuffer, List.append_nil, ht.closed_iff.mp hclosed] at hvalues
      exact ⟨hover, hclosed, hvalues⟩

/-- The numbers of the source, with the first item in the buffer. -/
theorem pipeline_completes_main :
    ∃ s, run (Pipeline.step 5) (newPipeline 5 3) [.send] = some s ∧
      Completes (Pipeline.step 5)
        (fun t => t.signalled = true ∧ t.ch.closed = true ∧ t.consumed = List.range' 1 5) s :=
  ⟨_, rfl, (pipeline_completes 5 3 [.send] _ rfl).2.2.2⟩

end GolangSandbox.Analysis
