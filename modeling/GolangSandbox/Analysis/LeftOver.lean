import GolangSandbox.Analysis.DeadlockFreedom

/-!
# What is left when production ends

A consumer that finds `done` prints one consumption for every product that is left, and
leaves `productCount` as it is. The next consumer finds the same products. So every
consumer that returns adds all of `productCount` to the consumptions (`Books`), and there
is at least one product left, the one that set `done`. The consumptions add up to the
products only if exactly one consumer does this.
-/

set_option autoImplicit false

namespace GolangSandbox.Analysis

open GolangSandbox.Model GolangSandbox.Program GolangSandbox.Program.Products

variable {k : Constants} {s t : Products} {g : ℕ} {r : Role} {x y : Routine}

/-- `main` passes `wg.Wait`: all goroutines have returned. -/
def Finished (s : Products) : Prop := ∀ x ∈ s.routines, ∃ r, x = .running (r, .exited)

/-- How many consumers have returned. -/
def left (s : Products) : ℕ := s.routines.count (.running (.consumer, .exited))

/-! ## Who has returned -/

/-- A step of somebody who stays leaves the number of those who returned. -/
theorem left_set (hg : s.routines[g]? = some x) (hx : Entering r x)
    (hy : y ≠ .running (.consumer, .exited)) :
    (s.routines.set g y).count (.running (.consumer, .exited)) = left s := by
  have h := count_set_add hg y (.running (.consumer, .exited))
  rw [if_neg (hx.ne_exited .consumer), if_neg hy] at h
  exact h

theorem left_signal {wake : Option ℕ} {ts ts' : List Routine}
    (h : Thread.signal ts wake = some ts') :
    ts'.count (.running (.consumer, .exited)) = ts.count (.running (.consumer, .exited)) := by
  rw [List.count_eq_countP, List.count_eq_countP]
  exact Thread.countP_of_map (Thread.map_signal _ (fun _ => rfl) h)

theorem left_broadcast (ts : List Routine) :
    (Thread.broadcast ts).count (.running (.consumer, .exited)) =
      ts.count (.running (.consumer, .exited)) := by
  rw [List.count_eq_countP, List.count_eq_countP]
  exact Thread.countP_of_map (Thread.map_broadcast _ (fun _ => rfl) ts)

/-- When everybody has returned, all consumers have. -/
theorem left_of_finished (h : SameRoles k s) (hfin : Finished s) : left s = k.consumers := by
  have hrole := countP_role h .consumer
  simp only [number] at hrole
  rw [left, ← hrole, List.count_eq_countP]
  apply List.countP_congr
  intro x hx
  obtain ⟨r, rfl⟩ := hfin x hx
  cases r <;> simp [roleOf]

/-! ## The books -/

/-- What was produced and what was consumed. -/
structure Books (k : Constants) (s : Products) : Prop where
  roles : SameRoles k s
  nonneg : 0 ≤ s.productCount
  some_left : s.done = true → 1 ≤ s.productCount
  exited : ∀ r, .running (r, .exited) ∈ s.routines → s.done = true
  balance : (s.consumed : ℤ) + s.productCount = s.producedCount + left s * s.productCount

/-- Before `done` nobody has returned. -/
theorem Books.left_eq_zero (h : Books k s) (hopen : s.done = false) : left s = 0 := by
  apply List.count_eq_zero.mpr
  intro hmem
  rw [h.exited _ hmem] at hopen
  cases hopen

theorem books_newProducts (k : Constants) : Books k (newProducts k) where
  roles := sameRoles_newProducts k
  nonneg := Int.le_refl 0
  some_left := by
    intro hdone
    cases hdone
  exited := by
    intro r hr
    simp [newProducts] at hr
  balance := by simp [newProducts]

/-- **The step lemma.** Until `done` is set a step moves one product from the produced to
the consumed ones, and from then on a consumer that returns adds what is left. -/
theorem Books.step (h : Books k s) (he : Effect k s g t) : Books k t := by
  have hroles := h.roles.step he
  have hexited := exited_step h.exited he
  have hnonneg := h.nonneg
  have hbalance := h.balance
  cases he with
  | @park r x hg hx hblocked hopen =>
    refine ⟨hroles, hnonneg, h.some_left, hexited, ?_⟩
    have hleft := left_set hg hx (y := .parked r) (by simp)
    simp only [left, goOn] at hbalance ⊢
    rw [hleft]
    exact hbalance
  | @exit r x hg hx hdone =>
    refine ⟨hroles, hnonneg, h.some_left, hexited, ?_⟩
    cases r with
    | producer =>
      have hleft := left_set hg hx (y := .running (.producer, .exited)) (by simp)
      simp only [left, goOn, leftover, Nat.add_zero] at hbalance ⊢
      rw [hleft]
      exact hbalance
    | consumer =>
      have hcount := count_set_add hg (.running (.consumer, .exited))
        (.running (.consumer, .exited))
      rw [if_neg (hx.ne_exited .consumer), if_pos rfl] at hcount
      simp only [left, goOn, leftover] at hbalance ⊢
      rw [Nat.add_zero] at hcount
      rw [hcount]
      push_cast
      rw [Int.toNat_of_nonneg hnonneg, Int.add_mul]
      omega
  | last hg hx hroom hopen hlast =>
    have hleft := left_set hg hx (y := .running (.producer, .ready)) (by simp)
    have hzero := h.left_eq_zero hopen
    refine ⟨hroles, ?_, ?_, hexited, ?_⟩
    · simp only
      omega
    · simp only
      omega
    · rw [hzero] at hleft hbalance
      simp only [left]
      rw [left_broadcast, hleft]
      omega
  | produce hg hx hroom hopen hmore hsignal =>
    have hleft := left_set hg hx (y := .running (.producer, .ready)) (by simp)
    have hzero := h.left_eq_zero hopen
    refine ⟨hroles, ?_, ?_, hexited, ?_⟩
    · simp only
      omega
    · intro hdone
      rw [hopen] at hdone
      cases hdone
    · rw [hzero] at hleft hbalance
      simp only [left]
      rw [left_signal hsignal, hleft]
      omega
  | consume hg hx hsome hopen hsignal =>
    have hleft := left_set hg hx (y := .running (.consumer, .ready)) (by simp)
    have hzero := h.left_eq_zero hopen
    refine ⟨hroles, ?_, ?_, hexited, ?_⟩
    · simp only
      omega
    · intro hdone
      rw [hopen] at hdone
      cases hdone
    · rw [hzero] at hleft hbalance
      simp only [left]
      rw [left_signal hsignal, hleft]
      push_cast
      omega

theorem books_of_run {as : List Products.Action}
    (h : run (Products.step k) (newProducts k) as = some s) : Books k s :=
  run_invariant (books_newProducts k) (fun _ _ _ hs ha => hs.step (effect_of_step ha)) h

/-- With a producer, `main` ends only after `done` was set. -/
theorem Books.done_of_finished (h : Books k s) (hproducers : 1 ≤ k.producers)
    (hfin : Finished s) : s.done = true := by
  have hpos : 0 < s.routines.countP (roleOf · = .producer) := by
    rw [countP_role h.roles]
    exact hproducers
  obtain ⟨x, hx, -⟩ := List.countP_pos_iff.mp hpos
  obtain ⟨r, rfl⟩ := hfin x hx
  exact h.exited r hx

/-! ## The end of `main` -/

/-- **Each product is consumed once exactly if there is one consumer.** With several, each
of them consumes all products that are left when production ends, and at least one is.
SOURCE: produce_consume/model1/main3.go:55-93 -/
theorem consumed_eq_produced_iff (k : Constants) (hproducers : 1 ≤ k.producers)
    (as : List Products.Action) (s : Products)
    (h : run (Products.step k) (newProducts k) as = some s) (hfin : Finished s) :
    (s.consumed : ℤ) = s.producedCount ↔ k.consumers = 1 := by
  have hs := books_of_run h
  have hone := hs.some_left (hs.done_of_finished hproducers hfin)
  have hbalance := hs.balance
  rw [left_of_finished hs.roles hfin] at hbalance
  constructor
  · intro heq
    have hmul : (k.consumers : ℤ) * s.productCount = 1 * s.productCount := by omega
    have hcast := Int.eq_of_mul_eq_mul_right (by omega) hmul
    exact_mod_cast hcast
  · intro hc
    rw [hc] at hbalance
    omega

/-- Each product is consumed at once but the last one, which both consumers find. -/
def lastOneTwice : List Products.Action :=
  (List.replicate 99 [⟨2, none⟩, ⟨0, none⟩]).flatten ++ [⟨2, none⟩] ++
    (List.range 7).map fun g => ⟨g, none⟩

/-- The program of the source consumes 101 times what was produced 100 times. -/
theorem last_product_consumed_twice :
    ∃ s, run (Products.step mainConstants) (newProducts mainConstants) lastOneTwice = some s ∧
      Finished s ∧ (s.consumed : ℤ) ≠ s.producedCount := by
  let routines : List Routine := List.replicate 2 (.running (.consumer, .exited)) ++
    List.replicate 5 (.running (.producer, .exited))
  refine ⟨⟨1, 100, true, routines, 101⟩, by decide +kernel, fun x hx => ?_, by decide⟩
  have hexited : ∀ x ∈ routines, x = .running (roleOf x, .exited) := by decide
  exact ⟨roleOf x, hexited x hx⟩

/-- With one consumer and a total of two, both products are consumed once. -/
theorem consumed_eq_produced_single :
    ∃ s, run (Products.step ⟨1, 1, 2, 2⟩) (newProducts ⟨1, 1, 2, 2⟩)
        [⟨1, none⟩, ⟨1, none⟩, ⟨0, none⟩, ⟨1, none⟩] = some s ∧
      (s.consumed : ℤ) = s.producedCount := by
  refine ⟨⟨2, 2, true, [.running (.consumer, .exited), .running (.producer, .exited)], 2⟩, ?_⟩
  have hrun : run (Products.step ⟨1, 1, 2, 2⟩) (newProducts ⟨1, 1, 2, 2⟩)
      [⟨1, none⟩, ⟨1, none⟩, ⟨0, none⟩, ⟨1, none⟩] = some ⟨2, 2, true,
        [.running (.consumer, .exited), .running (.producer, .exited)], 2⟩ := by decide
  refine ⟨hrun, (consumed_eq_produced_iff ⟨1, 1, 2, 2⟩ (by decide) _ _ hrun ?_).mpr rfl⟩
  simp [Finished]

end GolangSandbox.Analysis
