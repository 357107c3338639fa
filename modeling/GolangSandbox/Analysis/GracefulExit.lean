import GolangSandbox.Program.CtxQueue

/-!
# Graceful exit

The consumer leaves only when a receive reports the end of the queue, so the queue is
closed and empty then, wherever the cancellation met the two goroutines. The values go
through the queue in order: what was received followed by what is buffered is 1, 2, …, up
to the number of completed sends. Once `ctx` is cancelled the producer waits for nobody,
and once it has closed the queue the consumer does not wait either.
-/

set_option autoImplicit false

namespace GolangSandbox.Analysis

open GolangSandbox.Model GolangSandbox.Program GolangSandbox.Program.CtxQueue

variable {s t : CtxQueue}

/-- The producer is past its deferred `close`. -/
def PastClose (s : CtxQueue) : Prop := s.producer = .leaving ∨ s.producer = .returned

/-- The producer has left its loop. -/
def LeftLoop (s : CtxQueue) : Prop := s.producer = .closing ∨ PastClose s

/-- The consumer has seen the end of the queue. -/
def SawEnd (s : CtxQueue) : Prop := s.consumer = .leaving ∨ s.consumer = .returned

/-- The number of `wg.Done` calls that are still to come. -/
def awaited (s : CtxQueue) : ℤ :=
  (if s.producer = .returned then 0 else 1) + if s.consumer = .returned then 0 else 1

/-- The invariant. -/
structure Orderly (s : CtxQueue) : Prop where
  sound : s.panicked = false
  closed_iff : s.queue.closed = true ↔ PastClose s
  values : s.received ++ s.queue.buffer = List.range' 1 s.sent
  between : s.producer = .outer ∨ s.producer = .sleeping → s.producerTime = s.sent
  next : s.producer = .inner → s.producerTime = s.sent + 1
  drained : SawEnd s → s.queue.closed = true ∧ s.queue.buffer = []
  wg : s.wg = awaited s

theorem orderly_newCtxQueue (capacity : ℕ) : Orderly (newCtxQueue capacity) where
  sound := rfl
  closed_iff := by simp [newCtxQueue, Chan.make, PastClose]
  values := rfl
  between := fun _ => rfl
  next := by
    intro h
    cases h
  drained := by
    intro h
    obtain h | h := h
    · cases h
    · cases h
  wg := rfl

/-- One more value at the end. -/
theorem values_concat {received buffer : List ℕ} {n : ℕ}
    (h : received ++ buffer = List.range' 1 n) :
    received ++ (buffer ++ [n + 1]) = List.range' 1 (n + 1) := by
  rw [← List.append_assoc, h, List.range'_1_concat, Nat.add_comm 1 n]

/-- **The step lemma.** -/
theorem Orderly.step (h : Orderly s) (he : Effect s t) : Orderly t := by
  obtain ⟨hsound, hclosed, hvalues, hbetween, hnext, hdrained, hwg⟩ := h
  cases he with
  | cancel => exact ⟨hsound, hclosed, hvalues, hbetween, hnext, hdrained, hwg⟩
  | attempt hp =>
    refine ⟨hsound, ?_, hvalues, ?_, ?_, hdrained, ?_⟩
    · simpa [PastClose, hp] using hclosed
    · simp
    · exact fun _ => congrArg (· + 1) (hbetween (.inl hp))
    · simpa [awaited, hp] using hwg
  | send hp hsend =>
    obtain ⟨hopen, rfl⟩ := Chan.send_completes hsend
    refine ⟨hsound, ?_, ?_, ?_, ?_, ?_, ?_⟩
    · simpa [PastClose, hp] using hclosed
    · simp only [hnext hp]
      exact values_concat hvalues
    · exact fun _ => hnext hp
    · simp
    · intro hend
      rw [(hdrained hend).1] at hopen
      cases hopen
    · simpa [awaited, hp] using hwg
  | direct hp hopen hempty haccept =>
    obtain ⟨consumer, consumerTime, hc, hc', rfl⟩ := accept_cases haccept
    rw [hempty] at hvalues
    refine ⟨hsound, ?_, ?_, ?_, ?_, ?_, ?_⟩
    · simpa [PastClose, hp] using hclosed
    · simp only [hempty, List.append_nil, hnext hp]
      exact values_concat hvalues
    · exact fun _ => hnext hp
    · simp
    · intro hend
      obtain rfl | rfl := hc' <;> simp [SawEnd] at hend
    · obtain hc | hc := hc <;> obtain rfl | rfl := hc' <;>
        simpa [awaited, hp, hc] using hwg
  | stop hp hdone =>
    refine ⟨hsound, ?_, hvalues, ?_, ?_, hdrained, ?_⟩
    · obtain hp | hp := hp <;> simpa [PastClose, hp] using hclosed
    · simp
    · simp
    · obtain hp | hp := hp <;> simpa [awaited, hp] using hwg
  | wakeProducer hp =>
    refine ⟨hsound, ?_, hvalues, ?_, ?_, hdrained, ?_⟩
    · simpa [PastClose, hp] using hclosed
    · exact fun _ => hbetween (.inr hp)
    · simp
    · simpa [awaited, hp] using hwg
  | close hp hclose =>
    obtain ⟨hopen, rfl⟩ := Chan.close_completes hclose
    refine ⟨hsound, ?_, hvalues, ?_, ?_, ?_, ?_⟩
    · simp [PastClose]
    · simp
    · simp
    · intro hend
      rw [(hdrained hend).1] at hopen
      cases hopen
    · simpa [awaited, hp] using hwg
  | crash hp hclosed' =>
    -- The producer closes the queue last, and only once.
    have hpast := hclosed.mp hclosed'
    obtain hp | hp := hp <;> simp [PastClose, hp] at hpast
  | returnProducer hp =>
    refine ⟨hsound, ?_, hvalues, ?_, ?_, hdrained, ?_⟩
    · simpa [PastClose, hp] using hclosed
    · simp
    · simp
    · simp only [awaited, hp, reduceCtorEq, if_false] at hwg
      simp only [awaited, if_true]
      omega
  | receive hreceive haccept =>
    obtain ⟨hbuffer, hqueue⟩ := Chan.receive_some hreceive
    obtain ⟨consumer, consumerTime, hc, hc', rfl⟩ := accept_cases haccept
    rw [hbuffer] at hvalues
    refine ⟨hsound, ?_, ?_, hbetween, hnext, ?_, ?_⟩
    · rw [← hqueue] at hclosed
      exact hclosed
    · simpa only [List.append_assoc, List.singleton_append] using hvalues
    · intro hend
      obtain rfl | rfl := hc' <;> simp [SawEnd] at hend
    · simp only at hc
      obtain hc | hc := hc <;> obtain rfl | rfl := hc' <;> simpa [awaited, hc] using hwg
  | finish hc hreceive =>
    obtain ⟨hempty, hclosed', -⟩ := Chan.receive_none hreceive
    refine ⟨hsound, hclosed, hvalues, hbetween, hnext, fun _ => ⟨hclosed', hempty⟩, ?_⟩
    obtain hc | hc := hc <;> simpa [awaited, hc] using hwg
  | drain hc hdone =>
    refine ⟨hsound, hclosed, hvalues, hbetween, hnext, ?_, ?_⟩
    · simp [SawEnd]
    · simpa [awaited, hc] using hwg
  | wakeConsumer hc =>
    refine ⟨hsound, hclosed, hvalues, hbetween, hnext, ?_, ?_⟩
    · simp [SawEnd]
    · simpa [awaited, hc] using hwg
  | returnConsumer hc =>
    refine ⟨hsound, hclosed, hvalues, hbetween, hnext, fun _ => hdrained (.inl hc), ?_⟩
    simp only [awaited, hc, reduceCtorEq, if_false] at hwg
    simp only [awaited, if_true]
    omega

theorem orderly_of_run {capacity : ℕ} {as : List CtxQueue.Action}
    (h : run CtxQueue.step (newCtxQueue capacity) as = some s) : Orderly s :=
  run_invariant (orderly_newCtxQueue capacity) (fun _ _ _ hs ha => hs.step (effect_of_step ha)) h

/-! ## No waiting after the cancellation -/

/-- Once `ctx` is cancelled, the producer can go on until it returns. -/
theorem Orderly.exists_produce (h : Orderly s) (hcancelled : s.cancelled = true)
    (hleft : s.producer ≠ .returned) : ∃ c t, s.produce c = some t := by
  cases hp : s.producer with
  | outer => exact ⟨.ctxDone, _, by simp only [produce, hp, if_pos hcancelled]; rfl⟩
  | inner => exact ⟨.ctxDone, _, by simp only [produce, hp, if_pos hcancelled]; rfl⟩
  | sleeping => exact ⟨.other, _, by simp only [produce, hp]; rfl⟩
  | closing =>
    have hopen : s.queue.closed = false := by
      rw [← Bool.not_eq_true, h.closed_iff]
      simp [PastClose, hp]
    exact ⟨.other, _, by simp only [produce, hp, Chan.close_of_open hopen, after]; rfl⟩
  | leaving => exact ⟨.other, _, by simp only [produce, hp]; rfl⟩
  | returned => exact absurd hp hleft

/-- When the producer has returned, the consumer can go on until it returns. -/
theorem Orderly.exists_consume (h : Orderly s) (hcancelled : s.cancelled = true)
    (hp : s.producer = .returned) (hleft : s.consumer ≠ .returned) :
    ∃ c t, s.consume c = some t := by
  cases hc : s.consumer with
  | selecting => exact ⟨.ctxDone, _, by simp only [consume, hc, if_pos hcancelled]; rfl⟩
  | sleeping => exact ⟨.other, _, by simp only [consume, hc]; rfl⟩
  | draining =>
    obtain ⟨r, hr⟩ := Chan.exists_receive (h.closed_iff.mpr (.inr hp))
    match r, hr with
    | (some val, queue), hr =>
      exact ⟨.other, _, by simp only [consume, hc, receive, hr, after, accept]; rfl⟩
    | (none, queue), hr => exact ⟨.other, _, by simp only [consume, hc, receive, hr, after]; rfl⟩
  | leaving => exact ⟨.other, _, by simp only [consume, hc]; rfl⟩
  | returned => exact absurd hc hleft

theorem Orderly.exists_step (h : Orderly s) (hcancelled : s.cancelled = true)
    (hleft : ¬ (s.producer = .returned ∧ s.consumer = .returned)) :
    ∃ a t, s.step a = some t := by
  by_cases hp : s.producer = .returned
  · obtain ⟨c, t, ht⟩ := h.exists_consume hcancelled hp fun hc => hleft ⟨hp, hc⟩
    exact ⟨.consume c, t, by simpa [CtxQueue.step, h.sound] using ht⟩
  · obtain ⟨c, t, ht⟩ := h.exists_produce hcancelled hp
    exact ⟨.produce c, t, by simpa [CtxQueue.step, h.sound] using ht⟩

/-- **Graceful exit**, for any capacity and any moment of the cancellation. When the
consumer has returned, everything that was sent was received, in order. Nothing is sent on
the closed queue and it is closed once. After the cancellation some goroutine can go on
until both have returned; `cancel` is not possible any more.
SOURCE: produce_consume/timeout/main3.go:11-20, 38-97 -/
theorem graceful_exit (capacity : ℕ) (as : List CtxQueue.Action) (s : CtxQueue)
    (h : run CtxQueue.step (newCtxQueue capacity) as = some s) :
    (s.consumer = .returned →
      LeftLoop s ∧ s.queue.closed = true ∧ s.queue.buffer = [] ∧
        s.received = List.range' 1 s.sent) ∧
    s.panicked = false ∧
    (s.cancelled = true → ¬ (s.producer = .returned ∧ s.consumer = .returned) →
      ∃ a t, a ≠ .cancel ∧ s.step a = some t) := by
  have hs := orderly_of_run h
  refine ⟨fun hc => ?_, hs.sound, fun hcancelled hleft => ?_⟩
  · obtain ⟨hclosed, hempty⟩ := hs.drained (.inr hc)
    have hvalues := hs.values
    rw [hempty, List.append_nil] at hvalues
    exact ⟨.inr (hs.closed_iff.mp hclosed), hclosed, hempty, hvalues⟩
  · obtain ⟨a, t, ht⟩ := hs.exists_step hcancelled hleft
    refine ⟨a, t, ?_, ht⟩
    rintro rfl
    simp [CtxQueue.step, hcancelled, hs.sound] at ht

/-- `main` passes `wg.Wait` exactly when both goroutines have returned. -/
theorem wg_eq_zero_iff {capacity : ℕ} {as : List CtxQueue.Action}
    (h : run CtxQueue.step (newCtxQueue capacity) as = some s) :
    s.wg = 0 ↔ s.producer = .returned ∧ s.consumer = .returned := by
  rw [(orderly_of_run h).wg, awaited]
  split
  · rename_i hp
    split
    · rename_i hc
      exact iff_of_true rfl ⟨hp, hc⟩
    · rename_i hc
      exact iff_of_false (by decide) fun hboth => hc hboth.2
  · rename_i hp
    split
    · exact iff_of_false (by decide) fun hboth => hp hboth.1
    · exact iff_of_false (by decide) fun hboth => hp hboth.1

/-- A queue without a buffer: the first value meets the consumer, and the cancellation
finds the producer in its inner `select` with the second one. -/
theorem graceful_exit_unbuffered :
    ∃ s, run CtxQueue.step (newCtxQueue 0)
        [.produce .other, .produce .direct, .produce .other, .produce .other, .cancel,
          .produce .ctxDone, .produce .other, .consume .other, .consume .ctxDone,
          .consume .other, .consume .other] = some s ∧
      s.received = List.range' 1 s.sent ∧ s.sent = 1 := by
  refine ⟨_, rfl, ?_, rfl⟩
  exact ((graceful_exit 0 [.produce .other, .produce .direct, .produce .other, .produce .other,
    .cancel, .produce .ctxDone, .produce .other, .consume .other, .consume .ctxDone,
    .consume .other, .consume .other] _ rfl).1 rfl).2.2.2

end GolangSandbox.Analysis
