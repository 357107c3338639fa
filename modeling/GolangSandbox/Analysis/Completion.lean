import GolangSandbox.Analysis.LeftOver
import GolangSandbox.Model.Termination

/-!
# Producers and consumers come to an end

Deadlock freedom alone would allow the goroutines to wake each other for ever. What they
have still to do is counted by `remaining`: a product to be made pays for its production,
its consumption and the two wake-ups that these cause, a product in the buffer for its
consumption and one wake-up, and the broadcast, as long as it has not happened, for waking
everybody. A goroutine that is awake has one step, which is a section that ends in `Wait`,
in `return`, or in something that was paid for.

So `main` passes `wg.Wait` in every schedule. All products were made by then, the last one is
still there, and each consumer has consumed all that was left.
-/

set_option autoImplicit false

namespace GolangSandbox.Analysis

open GolangSandbox.Model GolangSandbox.Program GolangSandbox.Program.Products

variable {k : Constants} {s t : Products} {g : ℕ} {r : Role} {x y : Routine}

/-- A goroutine that is awake has a section to run. -/
def awakeSteps : Routine → ℕ
  | .running (_, .ready) | .woken _ => 1
  | .running (_, .exited) | .parked _ => 0

/-- What the goroutines have still to do. -/
def remaining (k : Constants) (s : Products) : ℕ :=
  4 * (k.totalProducts - s.producedCount).toNat + 2 * s.productCount.toNat +
    (if s.done then 0 else s.routines.length + 1) + load awakeSteps s.routines

theorem awakeSteps_le_one (x : Routine) : awakeSteps x ≤ 1 := by
  match x with
  | .running (_, .ready) | .woken _ | .running (_, .exited) | .parked _ => simp [awakeSteps]

theorem awakeSteps_of_entering (hx : Entering r x) : awakeSteps x = 1 := by
  cases hx <;> rfl

/-- A section ends its goroutine's step. -/
theorem load_awake_set (hg : s.routines[g]? = some x) (hx : Entering r x) (y : Routine) :
    load awakeSteps (s.routines.set g y) + 1 = load awakeSteps s.routines + awakeSteps y := by
  rw [← load_set hg y, awakeSteps_of_entering hx]

/-- **Every section lowers what is left to do.** -/
theorem Balanced.remaining_step (h : Balanced k s) (he : Effect k s g t) :
    remaining k t < remaining k s := by
  have hlow := h.nonneg
  have hproduced := h.produced_le
  cases he with
  | @park r x hg hx hblocked hopen =>
    have hset := load_awake_set hg hx (.parked r)
    simp only [awakeSteps] at hset
    simp only [remaining, goOn, List.length_set]
    omega
  | @exit r x hg hx hdone =>
    have hset := load_awake_set hg hx (.running (r, .exited))
    simp only [awakeSteps] at hset
    simp only [remaining, goOn, hdone, if_true]
    omega
  | @last x hg hx hroom hopen hlast =>
    have hnotlast : s.producedCount ≠ k.totalProducts := by
      intro heq
      rw [h.done_iff.mpr heq] at hopen
      cases hopen
    have hwoken := load_broadcast awakeSteps_le_one
      (s.routines.set g (.running (.producer, .ready)))
    rw [List.length_set] at hwoken
    simp only [remaining, hopen, Bool.false_eq_true, if_false, if_true]
    omega
  | @produce x wake routines hg hx hroom hopen hmore hsignal =>
    have hset := load_awake_set hg hx (.running (.producer, .ready))
    have hwoken := load_signal (f := awakeSteps) (fun _ => Nat.le_refl 1) hsignal
    simp only [awakeSteps, List.length_set] at hset hwoken
    simp only [remaining, hopen, Bool.false_eq_true, if_false]
    omega
  | @consume x wake routines hg hx hsome hopen hsignal =>
    have hset := load_awake_set hg hx (.running (.consumer, .ready))
    have hwoken := load_signal (f := awakeSteps) (fun _ => Nat.le_refl 1) hsignal
    simp only [awakeSteps, List.length_set] at hset hwoken
    simp only [remaining, hopen, Bool.false_eq_true, if_false]
    omega

/-- Who has not returned is parked or gets the lock. -/
theorem finished_of_stuck (h : Balanced k s) (hstuck : Stuck (Products.step k) s) :
    Finished s := by
  have hidle : ∀ x ∈ s.routines, (∃ r, x = .running (r, .exited)) ∨ ∃ r, x = .parked r := by
    intro x hx
    obtain ⟨g, hg⟩ := List.mem_iff_getElem?.mp hx
    have hnot : ∀ r, ¬ Entering r x := by
      intro r hent
      obtain ⟨wake, t, ht⟩ := exists_step_of_entering (k := k) hg hent
      rw [hstuck] at ht
      cases ht
    match x with
    | .running (r, .exited) => exact .inl ⟨r, rfl⟩
    | .parked r => exact .inr ⟨r, rfl⟩
    | .running (r, .ready) => exact absurd .lock (hnot r)
    | .woken r => exact absurd .wait (hnot r)
  intro x hx
  by_contra hleft
  rw [not_exists] at hleft
  exact h.not_deadlocked ⟨⟨x, hx, hleft⟩, hidle⟩

/-! ## The main theorem -/

/-- **The program ends, in every schedule.** With a producer and a consumer, a capacity above
the number of each and something to produce, no schedule runs for ever or gets stuck before
all goroutines have returned. At the end all products were made, some are left, and every
consumer has consumed those that are left, beside the ones consumed before.
SOURCE: produce_consume/model1/main3.go:25-93 -/
theorem shared_condition_completes (k : Constants) (hk : Sized k) :
    Completes (Products.step k)
      (fun t => Finished t ∧ t.producedCount = k.totalProducts ∧ 1 ≤ t.productCount ∧
        (t.consumed : ℤ) + t.productCount = k.totalProducts + k.consumers * t.productCount)
      (newProducts k) := by
  refine completes_of_measure (I := fun s => Balanced k s ∧ Books k s) (μ := remaining k) ?_ ?_
    ⟨balanced_newProducts hk, books_newProducts k⟩
  · rintro s a t ⟨hs, hbooks⟩ ha
    have he := effect_of_step ha
    exact ⟨⟨hs.step hk he, hbooks.step he⟩, hs.remaining_step he⟩
  · rintro s ⟨hs, hbooks⟩ hstuck
    have hfin := finished_of_stuck hs hstuck
    have hdone := hbooks.done_of_finished hk.producers hfin
    have hall := hs.done_iff.mp hdone
    have hbalance := hbooks.balance
    rw [left_of_finished hbooks.roles hfin, hall] at hbalance
    exact ⟨hfin, hall, hbooks.some_left hdone, hbalance⟩

/-- The program with the constants of the source. -/
theorem shared_condition_completes_main :
    Completes (Products.step mainConstants)
      (fun t => Finished t ∧ t.producedCount = mainConstants.totalProducts ∧
        1 ≤ t.productCount ∧ (t.consumed : ℤ) + t.productCount =
          mainConstants.totalProducts + mainConstants.consumers * t.productCount)
      (newProducts mainConstants) :=
  shared_condition_completes mainConstants
    ⟨by decide, by decide, by decide, by decide, by decide⟩

end GolangSandbox.Analysis
