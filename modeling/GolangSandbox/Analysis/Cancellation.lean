import GolangSandbox.Analysis.GracefulExit
import GolangSandbox.Model.Termination

/-!
# After the cancellation

Once `ctx` is cancelled the outer `select` of the producer has no other case than
`<-ctx.Done()`, so the producer does not come to its inner `select` any more. A producer
that is already there may still send the value it has, because a `select` with several
ready cases takes any of them, and the consumer may go on receiving for the same reason.
Each of these values is one of finitely many: `stepsLeft` counts two steps of the consumer
for every value in the queue, and what the two goroutines still have to do.

So both goroutines return, whichever cases the `select`s take, and `main` passes `wg.Wait`.
-/

set_option autoImplicit false

namespace GolangSandbox.Analysis

open GolangSandbox.Model GolangSandbox.Program GolangSandbox.Program.CtxQueue

variable {s t : CtxQueue}

/-- The steps of the producer when `ctx` is cancelled, with those that its value causes. -/
def producerSteps : ProducerPc → ℕ
  | .inner => 7
  | .sleeping => 4
  | .outer => 3
  | .closing => 2
  | .leaving => 1
  | .returned => 0

/-- The steps of the consumer, beside the two for each value in the queue. -/
def consumerSteps : ConsumerPc → ℕ
  | .sleeping => 4
  | .selecting => 3
  | .draining => 2
  | .leaving => 1
  | .returned => 0

/-- What is left to do when `ctx` is cancelled. -/
def stepsLeft (s : CtxQueue) : ℕ :=
  producerSteps s.producer + consumerSteps s.consumer + 2 * s.queue.buffer.length

/-- The number of completed sends, with the one that the producer is trying. -/
def attempted (s : CtxQueue) : ℕ := s.sent + if s.producer = .inner then 1 else 0

/-- The cancellation stays, the step was one of finitely many, and it completed at most the
send that the producer was trying. -/
structure Lowered (s t : CtxQueue) : Prop where
  cancelled : t.cancelled = true
  steps : stepsLeft t < stepsLeft s
  attempted : attempted t ≤ attempted s

/-- A value costs the consumer its receive and its sleep. -/
theorem accept_lowers {val : ℕ} (h : s.accept val = some t) :
    consumerSteps t.consumer ≤ consumerSteps s.consumer + 1 ∧ t.sent = s.sent ∧
      t.producer = s.producer ∧ t.cancelled = s.cancelled ∧ t.queue = s.queue := by
  unfold accept at h
  split at h
  · rename_i hc
    rw [← Option.some.inj h, hc]
    exact ⟨Nat.le_refl _, rfl, rfl, rfl, rfl⟩
  · rw [← Option.some.inj h]
    exact ⟨Nat.le_succ _, rfl, rfl, rfl, rfl⟩
  · cases h

/-- **The steps of the producer.** Its outer `select` has only the case `<-ctx.Done()`. -/
theorem Orderly.lowered_produce (h : Orderly s) (hcancelled : s.cancelled = true) {c : Case}
    (ha : s.produce c = some t) : Lowered s t := by
  have hopen : s.producer = .inner ∨ s.producer = .closing → s.queue.closed ≠ true := by
    intro hp hclosed
    obtain hl | hr := h.closed_iff.mp hclosed
    · rw [hl] at hp
      simp at hp
    · rw [hr] at hp
      simp at hp
  unfold produce at ha
  split at ha
  · rename_i hp
    rw [if_pos hcancelled] at ha
    rw [← Option.some.inj ha]
    refine ⟨hcancelled, ?_, ?_⟩
    · simp only [stepsLeft, hp, producerSteps]
      omega
    · simp [attempted, hp]
  · rw [if_pos hcancelled] at ha
    cases ha
  · rename_i hp
    unfold after at ha
    split at ha
    · cases ha
    · rename_i hpanic
      exact absurd (Chan.send_panics.mp hpanic) (hopen (.inl hp))
    · rename_i queue hsend
      obtain ⟨-, rfl⟩ := Chan.send_completes hsend
      rw [← Option.some.inj ha]
      refine ⟨hcancelled, ?_, ?_⟩
      · simp only [stepsLeft, hp, producerSteps, List.length_append, List.length_singleton]
        omega
      · simp [attempted, hp]
  · rename_i hp
    split at ha
    · obtain ⟨u, haccept, rfl⟩ := Option.map_eq_some_iff.mp ha
      obtain ⟨hconsumer, -, -, hsame, hqueue⟩ := accept_lowers haccept
      refine ⟨hsame.trans hcancelled, ?_, ?_⟩
      · simp only [stepsLeft, hp, hqueue, producerSteps]
        omega
      · simp [attempted, hp]
    · cases ha
  · rename_i hp
    rw [if_pos hcancelled] at ha
    rw [← Option.some.inj ha]
    refine ⟨hcancelled, ?_, ?_⟩
    · simp only [stepsLeft, hp, producerSteps]
      omega
    · simp [attempted]
  · rename_i hp
    rw [← Option.some.inj ha]
    refine ⟨hcancelled, ?_, ?_⟩
    · simp only [stepsLeft, hp, producerSteps]
      omega
    · simp [attempted, hp]
  · rename_i hp
    unfold after at ha
    split at ha
    · cases ha
    · rename_i hpanic
      exact absurd (Chan.close_panics.mp hpanic) (hopen (.inr hp))
    · rename_i queue hclose
      obtain ⟨-, rfl⟩ := Chan.close_completes hclose
      rw [← Option.some.inj ha]
      refine ⟨hcancelled, ?_, ?_⟩
      · simp only [stepsLeft, hp, producerSteps]
        omega
      · simp [attempted, hp]
  · rename_i hp
    rw [← Option.some.inj ha]
    refine ⟨hcancelled, ?_, ?_⟩
    · simp only [stepsLeft, hp, producerSteps]
      omega
    · simp [attempted, hp]
  · cases ha

/-- A receive of the consumer takes a value out of the queue, or finds the end. -/
theorem lowered_receive (hcancelled : s.cancelled = true)
    (hc : s.consumer = .selecting ∨ s.consumer = .draining) (ha : s.receive = some t) :
    Lowered s t := by
  unfold receive after at ha
  split at ha
  · cases ha
  · rename_i hpanic
    exact absurd hpanic Chan.receive_ne_panics
  · rename_i r hreceive
    match r, hreceive with
    | (some val, queue), hreceive =>
      have hbuffer := (Chan.receive_some hreceive).1
      obtain ⟨hconsumer, hsent, hp, hsame, hqueue⟩ := accept_lowers ha
      refine ⟨hsame.trans hcancelled, ?_, ?_⟩
      · simp only at hconsumer hqueue
        simp only [stepsLeft, hp, hqueue, hbuffer, List.length_cons]
        omega
      · simp only [attempted, hsent, hp]
        exact Nat.le_refl _
    | (none, queue), hreceive =>
      rw [← Option.some.inj ha]
      refine ⟨hcancelled, ?_, Nat.le_refl _⟩
      obtain hc | hc := hc
      · simp only [stepsLeft, hc, consumerSteps]
        omega
      · simp only [stepsLeft, hc, consumerSteps]
        omega

/-- **The steps of the consumer.** -/
theorem lowered_consume (hcancelled : s.cancelled = true) {c : Case}
    (ha : s.consume c = some t) : Lowered s t := by
  unfold consume at ha
  split at ha
  · rename_i hc
    exact lowered_receive hcancelled (.inl hc) ha
  · rename_i hc
    rw [if_pos hcancelled] at ha
    rw [← Option.some.inj ha]
    refine ⟨hcancelled, ?_, Nat.le_refl _⟩
    simp only [stepsLeft, hc, consumerSteps]
    omega
  · rename_i hc
    rw [← Option.some.inj ha]
    refine ⟨hcancelled, ?_, Nat.le_refl _⟩
    simp only [stepsLeft, hc, consumerSteps]
    omega
  · rename_i hc
    exact lowered_receive hcancelled (.inr hc) ha
  · rename_i hc
    rw [← Option.some.inj ha]
    refine ⟨hcancelled, ?_, Nat.le_refl _⟩
    simp only [stepsLeft, hc, consumerSteps]
    omega
  · cases ha

/-- The step lemma: `ctx` is cancelled once, so the step is one of the two goroutines. -/
theorem Orderly.lowered_step (h : Orderly s) (hcancelled : s.cancelled = true)
    {a : CtxQueue.Action} (ha : s.step a = some t) : Lowered s t := by
  unfold CtxQueue.step at ha
  rw [h.sound, if_neg Bool.false_ne_true] at ha
  cases a with
  | cancel =>
    dsimp only at ha
    rw [if_pos hcancelled] at ha
    cases ha
  | produce c => exact h.lowered_produce hcancelled ha
  | consume c => exact lowered_consume hcancelled ha

/-- **The cancellation ends the program.** From every state that is reached with `ctx`
cancelled, for any capacity, every schedule and every choice of the `select`s comes to the
end: both goroutines have returned, `wg` is zero and nothing panicked, the consumer has
received what was sent, in order, and at most the value that the producer was sending at the
time has been sent since.
SOURCE: produce_consume/timeout/main3.go:38-97 -/
theorem cancellation_completes (capacity : ℕ) (as : List CtxQueue.Action) (s : CtxQueue)
    (h : run CtxQueue.step (newCtxQueue capacity) as = some s) (hcancelled : s.cancelled = true) :
    Completes CtxQueue.step
      (fun t => t.producer = .returned ∧ t.consumer = .returned ∧ t.wg = 0 ∧
        t.panicked = false ∧ t.received = List.range' 1 t.sent ∧
        t.sent ≤ s.sent + if s.producer = .inner then 1 else 0) s := by
  refine completes_of_measure
    (I := fun t => Orderly t ∧ t.cancelled = true ∧ attempted t ≤ attempted s)
    (μ := stepsLeft) ?_ ?_ ⟨orderly_of_run h, hcancelled, Nat.le_refl _⟩
  · rintro t a u ⟨ht, hcancelled, hle⟩ ha
    have hlow := ht.lowered_step hcancelled ha
    refine ⟨⟨ht.step (effect_of_step ha), hlow.cancelled, ?_⟩, hlow.steps⟩
    exact Nat.le_trans hlow.attempted hle
  · rintro t ⟨ht, hcancelled, hle⟩ hstuck
    have hboth : t.producer = .returned ∧ t.consumer = .returned := by
      by_contra hleft
      obtain ⟨a, u, hu⟩ := ht.exists_step hcancelled hleft
      rw [hstuck] at hu
      cases hu
    obtain ⟨hp, hc⟩ := hboth
    have hempty := (ht.drained (.inr hc)).2
    have hvalues := ht.values
    rw [hempty, List.append_nil] at hvalues
    have hwg := ht.wg
    rw [awaited, if_pos hp, if_pos hc] at hwg
    refine ⟨hp, hc, hwg, ht.sound, hvalues, ?_⟩
    simpa only [attempted, hp, reduceCtorEq, if_false, Nat.add_zero] using hle

/-- The producer is at its inner `select` with the first value. -/
theorem cancellation_completes_inner :
    ∃ s, run CtxQueue.step (newCtxQueue 10) [.produce .other, .cancel] = some s ∧
      Completes CtxQueue.step
        (fun t => t.producer = .returned ∧ t.consumer = .returned ∧ t.wg = 0 ∧
          t.panicked = false ∧ t.received = List.range' 1 t.sent ∧
          t.sent ≤ s.sent + if s.producer = .inner then 1 else 0) s :=
  ⟨_, rfl, cancellation_completes 10 [.produce .other, .cancel] _ rfl rfl⟩

end GolangSandbox.Analysis
