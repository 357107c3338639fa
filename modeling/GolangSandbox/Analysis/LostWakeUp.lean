import GolangSandbox.Program.CondQueue

/-!
# No lost wake-up

`Produce` signals even when nobody is parked, and a woken consumer may find that another
one has taken its item, and park again. Neither leaves a parked consumer behind: while one
is parked, there are at least as many woken consumers as buffered items (`WakeUps`). A
section that takes an item uses up at most one wake-up, and a consumer parks only when
there is no item.
-/

set_option autoImplicit false

namespace GolangSandbox.Analysis

open GolangSandbox.Model GolangSandbox.Program GolangSandbox.Program.Queue

variable {q q' : Queue}

/-- While a consumer is parked, the queue is open and every item has a wake-up pending. -/
def WakeUps (q : Queue) : Prop :=
  .parked () ∈ q.consumers →
    q.terminated = false ∧ q.buffer.length ≤ q.consumers.count (.woken ())

theorem wakeUps_newQueue (consumers : ℕ) : WakeUps (newQueue consumers) := by
  intro h
  cases List.eq_of_mem_replicate h

/-- A consumer that changes its place is at most one woken consumer less. -/
theorem count_woken_set {c : ℕ} {x : Consumer} (hc : q.consumers[c]? = some x) (y : Consumer) :
    q.consumers.count (.woken ()) ≤ (q.consumers.set c y).count (.woken ()) + 1 := by
  have h := count_set_add hc y (.woken ())
  split at h <;> split at h <;> omega

/-- A consumer that returns was not the one that is parked. -/
theorem parked_of_set {c : ℕ} {r : Option Data} (h : .parked () ∈ q.consumers.set c (.running r)) :
    .parked () ∈ q.consumers := by
  obtain h | h := List.mem_or_eq_of_mem_set h
  · exact h
  · cases h

/-- **The step lemma.** -/
theorem WakeUps.step (h : WakeUps q) {a : Queue.Action} (ha : q.step a = some q') :
    WakeUps q' := by
  intro hparked
  cases effect_of_step ha with
  | @produce data wake consumers hsignal =>
    obtain ⟨hnone, rfl⟩ | ⟨k, hpark, hwoken⟩ := Thread.count_signal hsignal
    · -- Nobody was parked, so nobody is.
      have hzero := hnone ()
      exact absurd hparked (List.count_eq_zero.mp hzero)
    · have hpark' := hpark ()
      have hwoken' := hwoken ()
      simp only [if_true] at hpark' hwoken'
      have hbefore : .parked () ∈ q.consumers := by
        apply List.count_pos_iff.mp
        omega
      obtain ⟨hopen, hle⟩ := h hbefore
      refine ⟨hopen, ?_⟩
      simp only [List.length_append, List.length_singleton]
      omega
  | park hent hc hbuffer hopen =>
    refine ⟨hopen, ?_⟩
    simp only [hbuffer, List.length_nil, Nat.zero_le]
  | finish hent hc hbuffer hdone =>
    obtain ⟨hopen, -⟩ := h (parked_of_set hparked)
    rw [hdone] at hopen
    cases hopen
  | @remove _ c x data buffer hent hc hbuffer =>
    obtain ⟨hopen, hle⟩ := h (parked_of_set hparked)
    refine ⟨hopen, ?_⟩
    have hcount := count_woken_set hc (.running (some data))
    simp only [hbuffer, List.length_cons] at hle
    simp only
    omega
  | setTerminated => exact absurd hparked (Thread.notMem_broadcast _ _)

theorem wakeUps_of_run {consumers : ℕ} {as : List Queue.Action}
    (h : run Queue.step (newQueue consumers) as = some q) : WakeUps q :=
  run_invariant (wakeUps_newQueue consumers) (fun _ _ _ hq ha => hq.step ha) h

/-- **No lost wake-up.** While a consumer is parked, the queue is not terminated and at
least as many consumers are woken and without the mutex as items are buffered. So there
is nothing to do for the consumers when all of them are parked.
SOURCE: produce_consume/model1/main2.go:26-61 -/
theorem no_lost_wake_up (consumers : ℕ) (as : List Queue.Action) (q : Queue)
    (h : run Queue.step (newQueue consumers) as = some q) :
    (.parked () ∈ q.consumers →
      q.terminated = false ∧ q.buffer.length ≤ q.consumers.count (.woken ())) ∧
    (q.consumers ≠ [] → (∀ x ∈ q.consumers, x = .parked ()) →
      q.buffer = [] ∧ q.terminated = false) := by
  have hwake := wakeUps_of_run h
  refine ⟨hwake, fun hne hall => ?_⟩
  obtain ⟨x, hx⟩ := List.exists_mem_of_ne_nil _ hne
  obtain ⟨hopen, hle⟩ := hwake (hall x hx ▸ hx)
  have hzero : q.consumers.count (.woken ()) = 0 := by
    apply List.count_eq_zero.mpr
    intro hmem
    cases hall _ hmem
  rw [hzero] at hle
  exact ⟨List.length_eq_zero_iff.mp (Nat.le_zero.mp hle), hopen⟩

/-- Two consumers park, an item wakes the first one, and a third one overtakes it. -/
theorem no_lost_wake_up_overtaken :
    ∃ q, run Queue.step (newQueue 3)
        [.consume 0, .consume 1, .produce ⟨11⟩ (some 0), .consume 2, .resume 0] = some q ∧
      .parked () ∈ q.consumers ∧ q.terminated = false ∧
      q.buffer.length ≤ q.consumers.count (.woken ()) := by
  refine ⟨_, rfl, by decide, ?_⟩
  exact (no_lost_wake_up 3
    [.consume 0, .consume 1, .produce ⟨11⟩ (some 0), .consume 2, .resume 0] _ rfl).1 (by decide)

end GolangSandbox.Analysis
