import GolangSandbox.Program.SharedCond

/-!
# Deadlock freedom with one condition variable

`Signal` may wake a goroutine that cannot go on: a producer wakes a producer while the
buffer is full. Three facts about the numbers of parked producers and consumers exclude
that everybody waits in the end (`SomeAwake`):

* when all producers are parked, there are more products than parked consumers;
* when all consumers are parked, there are more free places than parked producers;
* not all of both are parked.

A goroutine that produces or consumes is itself awake, so only the fact about the other
kind has to be kept. Either its signal reaches the other kind, which is then not parked as
a whole, or it reaches its own kind, and both sides of the inequality go down by one. The
facts hold when the last goroutine of a kind parks because the capacity is larger than the
number of goroutines of the other kind.
-/

set_option autoImplicit false

namespace GolangSandbox.Analysis

open GolangSandbox.Model GolangSandbox.Program GolangSandbox.Program.Products

variable {k : Constants} {s t : Products} {g : ℕ} {r r' : Role} {x y : Routine}

/-- How many goroutines of a role `main` starts. -/
def number (k : Constants) : Role → ℕ
  | .producer => k.producers
  | .consumer => k.consumers

/-- How many goroutines of a role wait. -/
def waiting (s : Products) (r : Role) : ℕ := s.routines.count (.parked r)

/-- Somebody is left, and nobody who is left can run: all of them wait, and none was
woken. -/
def Deadlocked (s : Products) : Prop :=
  (∃ x ∈ s.routines, ∀ r, x ≠ .running (r, .exited)) ∧
    ∀ x ∈ s.routines, (∃ r, x = .running (r, .exited)) ∨ ∃ r, x = .parked r

/-! ## The goroutines of a role -/

/-- The goroutines keep their roles. -/
def SameRoles (k : Constants) (s : Products) : Prop :=
  s.routines.map roleOf =
    List.replicate k.consumers .consumer ++ List.replicate k.producers .producer

theorem sameRoles_newProducts (k : Constants) : SameRoles k (newProducts k) := by
  simp [SameRoles, newProducts, roleOf]

theorem roleOf_of_entering (hx : Entering r x) : roleOf x = r := by
  cases hx <;> rfl

theorem SameRoles.step (h : SameRoles k s) (he : Effect k s g t) : SameRoles k t := by
  have hset : ∀ {r : Role} {x y : Routine}, s.routines[g]? = some x → Entering r x →
      roleOf y = r → (s.routines.set g y).map roleOf =
        List.replicate k.consumers .consumer ++ List.replicate k.producers .producer := by
    intro r x y hg hx hy
    rw [map_set_of_eq hg (hy.trans (roleOf_of_entering hx).symm)]
    exact h
  cases he with
  | park hg hx _ _ => exact hset hg hx rfl
  | exit hg hx _ => exact hset hg hx rfl
  | last hg hx _ _ _ =>
    rw [SameRoles, Thread.map_broadcast roleOf fun _ => rfl]
    exact hset hg hx rfl
  | produce hg hx _ _ _ hsignal =>
    rw [SameRoles, Thread.map_signal roleOf (fun _ => rfl) hsignal]
    exact hset hg hx rfl
  | consume hg hx _ _ hsignal =>
    rw [SameRoles, Thread.map_signal roleOf (fun _ => rfl) hsignal]
    exact hset hg hx rfl

theorem countP_role (h : SameRoles k s) (r : Role) :
    s.routines.countP (roleOf · = r) = number k r := by
  have hcount : (s.routines.map roleOf).count r = number k r := by
    rw [h]
    cases r <;> simp [number, List.count_replicate]
  rw [← hcount, List.count_eq_countP, List.countP_map]
  apply List.countP_congr
  intro x _
  simp

theorem waiting_eq_countP (s : Products) (r : Role) :
    waiting s r = s.routines.countP (· = .parked r) := by
  rw [waiting, List.count_eq_countP]
  apply List.countP_congr
  intro x _
  simp

/-- A goroutine that waits has the role it waits in. -/
theorem role_of_eq_parked (r : Role) (x : Routine) :
    decide (x = .parked r) = true → decide (roleOf x = r) = true := by
  simp only [decide_eq_true_eq]
  rintro rfl
  rfl

theorem waiting_le (h : SameRoles k s) (r : Role) : waiting s r ≤ number k r := by
  rw [waiting_eq_countP, ← countP_role h]
  exact List.countP_mono_left fun x _ => role_of_eq_parked r x

/-- All goroutines of a role wait when as many wait as there are. -/
theorem waiting_eq_iff (h : SameRoles k s) :
    waiting s r = number k r ↔ ∀ x ∈ s.routines, roleOf x = r → x = .parked r := by
  rw [waiting_eq_countP, ← countP_role h, countP_eq_countP_iff (role_of_eq_parked r)]
  simp only [decide_eq_true_eq]

/-- A goroutine that does not wait is missing among those of its role. -/
theorem waiting_lt (h : SameRoles k s) (hg : s.routines[g]? = some x) (hr : roleOf x = r)
    (hx : ∀ r, x ≠ .parked r) : waiting s r < number k r := by
  apply Nat.lt_of_le_of_ne (waiting_le h r)
  intro heq
  exact hx r ((waiting_eq_iff h).mp heq x (List.mem_of_getElem? hg) hr)

/-- Who does not wait before or after a step is not counted. -/
theorem count_parked_set (hg : s.routines[g]? = some x) (hx : Entering r x)
    (hy : ∀ r, y ≠ .parked r) (r' : Role) :
    (s.routines.set g y).count (.parked r') = waiting s r' := by
  have h := count_set_add hg y (.parked r')
  rw [if_neg (hx.ne_parked r'), if_neg (hy r')] at h
  exact h

/-! ## The invariant -/

/-- What the constants have to be: there is a goroutine of each kind, more room than
goroutines of either kind, and something to produce. -/
structure Sized (k : Constants) : Prop where
  producers : 1 ≤ k.producers
  consumers : 1 ≤ k.consumers
  producers_lt : k.producers < k.products
  consumers_lt : k.consumers < k.products
  total : 1 ≤ k.totalProducts

theorem Sized.number_pos (h : Sized k) (r : Role) : 1 ≤ number k r := by
  cases r with
  | producer => exact h.producers
  | consumer => exact h.consumers

theorem Sized.number_lt (h : Sized k) (r : Role) : (number k r : ℤ) < k.products := by
  cases r with
  | producer => exact h.producers_lt
  | consumer => exact h.consumers_lt

/-- The role a goroutine works for. -/
def other : Role → Role
  | .producer => .consumer
  | .consumer => .producer

theorem other_ne (r : Role) : other r ≠ r := by
  cases r <;> exact nofun

theorem eq_other_of_ne (h : r' ≠ r) : r' = other r := by
  cases r <;> cases r' <;> first | rfl | exact absurd rfl h

/-- What the goroutines of a role leave for those of the other role to do: products to
consume, or places to fill. -/
def workLeft (k : Constants) (s : Products) : Role → ℤ
  | .producer => s.productCount
  | .consumer => k.products - s.productCount

/-- The work left by the two roles adds up to the capacity. -/
theorem workLeft_other (k : Constants) (s : Products) (r : Role) :
    workLeft k s (other r) + workLeft k s r = k.products := by
  cases r with
  | producer => exact Int.sub_add_cancel k.products s.productCount
  | consumer =>
    simp only [other, workLeft]
    omega

/-- What the counts say about the goroutines that wait: when all of one role wait, there is
more to do for the other role than goroutines of it wait. -/
structure SomeAwake (k : Constants) (s : Products) : Prop where
  work : ∀ r, waiting s r = number k r → (waiting s (other r) : ℤ) < workLeft k s r
  not_all : ¬ ∀ r, waiting s r = number k r

/-- The invariant. -/
structure Balanced (k : Constants) (s : Products) : Prop where
  roles : SameRoles k s
  nonneg : 0 ≤ s.productCount
  le_products : s.productCount ≤ k.products
  produced_le : s.producedCount ≤ k.totalProducts
  done_iff : s.done = true ↔ s.producedCount = k.totalProducts
  none_waits : s.done = true → ∀ r, waiting s r = 0
  exited : ∀ r, .running (r, .exited) ∈ s.routines → s.done = true
  awake : SomeAwake k s

theorem waiting_newProducts (k : Constants) (r : Role) : waiting (newProducts k) r = 0 := by
  simp [waiting, newProducts, List.count_append, List.count_replicate]

/-- Nobody waits, so not all goroutines of a role do. -/
theorem SomeAwake.of_none (hk : Sized k) (h : ∀ r, waiting s r = 0) : SomeAwake k s := by
  have hsome : ∀ r, waiting s r ≠ number k r := by
    intro r
    have hpos := hk.number_pos r
    rw [h]
    omega
  exact ⟨fun r hall => absurd hall (hsome r), fun hall => hsome .producer (hall .producer)⟩

theorem balanced_newProducts (hk : Sized k) : Balanced k (newProducts k) where
  roles := sameRoles_newProducts k
  nonneg := Int.le_refl 0
  le_products := by
    have := hk.producers_lt
    simp only [newProducts]
    omega
  produced_le := by
    have := hk.total
    simp only [newProducts]
    omega
  done_iff := by
    have := hk.total
    simp only [newProducts, Bool.false_eq_true, false_iff]
    omega
  none_waits := fun _ => waiting_newProducts k
  exited := by
    intro r hr
    simp [newProducts] at hr
  awake := .of_none hk (waiting_newProducts k)

/-! ## One step -/

variable {wake : Option ℕ} {routines : List Routine}

/-- After `Signal`, the goroutine that ran is awake. -/
theorem acting_awake (h : SameRoles k t) (hg : s.routines[g]? = some x)
    (hsignal : Thread.signal (s.routines.set g (.running (r, .ready))) wake = some t.routines) :
    waiting t r < number k r := by
  have hlt := (List.getElem?_eq_some_iff.mp hg).1
  have hself : t.routines[g]? = some (.running (r, .ready)) := by
    rw [Thread.running_signal hsignal, List.getElem?_set_self hlt]
  apply waiting_lt h hself rfl
  intro r' hr'
  cases hr'

/-- If all goroutines of the other role still wait after `Signal`, it woke one of the own
role. -/
theorem woke_own_role (hpos : 1 ≤ number k (other r)) (hg : s.routines[g]? = some x)
    (hx : Entering r x)
    (hsignal : Thread.signal (s.routines.set g (.running (r, .ready))) wake = some t.routines)
    (hroles : SameRoles k s) (hall : waiting t (other r) = number k (other r)) :
    waiting s (other r) = number k (other r) ∧ waiting t r + 1 = waiting s r := by
  have hset := count_parked_set hg hx (y := .running (r, .ready)) (fun r hr => by cases hr)
  have hle := waiting_le hroles (other r)
  obtain ⟨hnone, heq⟩ | ⟨woken, hpark, -⟩ := Thread.count_signal hsignal
  · have hzero : waiting t (other r) = 0 := by
      rw [waiting, heq]
      exact hnone (other r)
    omega
  · have hother := hpark (other r)
    have hown := hpark r
    rw [hset] at hother hown
    simp only [waiting] at hall hle hother hown ⊢
    by_cases hwoken : woken = r
    · subst hwoken
      rw [if_neg (other_ne woken)] at hother
      rw [if_pos rfl] at hown
      omega
    · rw [if_pos (eq_other_of_ne hwoken).symm] at hother
      omega

/-- Nobody exits with a signal. -/
theorem exited_of_signal {p : Role × Place} (hready : p.2 = .exited)
    (hsignal : Thread.signal (s.routines.set g (.running (r, .ready))) wake = some routines)
    (hp : .running p ∈ routines) : .running p ∈ s.routines := by
  obtain ⟨i, hi⟩ := List.mem_iff_getElem?.mp hp
  rw [Thread.running_signal hsignal] at hi
  obtain hmem | heq := List.mem_or_eq_of_mem_set (List.mem_of_getElem? hi)
  · exact hmem
  · cases heq
    cases hready

/-- A goroutine that parks is one more that waits. -/
theorem waiting_park (hg : s.routines[g]? = some x) (hx : Entering r x) (r' : Role) :
    waiting (s.goOn g (.parked r)) r' = waiting s r' + if r = r' then 1 else 0 := by
  have h := count_set_add hg (.parked r) (.parked r')
  rw [if_neg (hx.ne_parked r')] at h
  simpa only [waiting, goOn, Thread.parked.injEq, Nat.add_zero] using h

/-- A goroutine that parks has nothing to do. -/
theorem workLeft_of_blocked (h : Blocked k s r) : workLeft k s (other r) ≤ 0 := by
  cases r with
  | producer => exact Int.sub_nonpos_of_le h
  | consumer => exact h

/-- A goroutine may park. It does when there is nothing to do for its role, so not all of
the other role wait, and the other role has as much to do as fits. -/
theorem SomeAwake.park (h : SomeAwake k s) (hk : Sized k) (hroles : SameRoles k s)
    (hg : s.routines[g]? = some x) (hx : Entering r x) (hblocked : Blocked k s r) :
    SomeAwake k (s.goOn g (.parked r)) := by
  have hwait := waiting_park hg hx
  have hnothing := workLeft_of_blocked hblocked
  have hsome : waiting s (other r) ≠ number k (other r) := by
    intro hall
    have := h.work (other r) hall
    omega
  have hother : waiting (s.goOn g (.parked r)) (other r) = waiting s (other r) := by
    rw [hwait, if_neg (other_ne r).symm, Nat.add_zero]
  constructor
  · intro r' hall
    by_cases hrole : r' = r
    · subst hrole
      have hcapacity : workLeft k (s.goOn g (.parked r')) r' = workLeft k s r' := rfl
      have hsum := workLeft_other k s r'
      have hle := waiting_le hroles (other r')
      have hlt := hk.number_lt (other r')
      rw [hother, hcapacity]
      omega
    · rw [eq_other_of_ne hrole, hother] at hall
      exact absurd hall hsome
  · intro hall
    rw [← hother] at hsome
    exact hsome (hall (other r))

/-- What a goroutine makes or takes leaves one less to do for its own role, and a wake-up
that stays in the role takes one of those who wait for it. -/
theorem SomeAwake.act (h : SomeAwake k s) (hk : Sized k) (hroles : SameRoles k s)
    (hroles' : SameRoles k t) (hg : s.routines[g]? = some x) (hx : Entering r x)
    (hwork : workLeft k t (other r) = workLeft k s (other r) - 1)
    (hsignal : Thread.signal (s.routines.set g (.running (r, .ready))) wake =
      some t.routines) : SomeAwake k t := by
  have hself := acting_awake hroles' hg hsignal
  constructor
  · intro r' hall
    by_cases hrole : r' = r
    · subst hrole
      exact absurd hall (Nat.ne_of_lt hself)
    · rw [eq_other_of_ne hrole] at hall ⊢
      obtain ⟨hbefore, hone⟩ :=
        woke_own_role (hk.number_pos (other r)) hg hx hsignal hroles hall
      have hlt := h.work (other r) hbefore
      rw [← eq_other_of_ne (other_ne r).symm] at hlt ⊢
      omega
  · exact fun hall => absurd (hall r) (Nat.ne_of_lt hself)

/-- Only a goroutine that finds `done` set exits. -/
theorem exited_step (h : ∀ r, .running (r, .exited) ∈ s.routines → s.done = true)
    (he : Effect k s g t) : ∀ r, .running (r, .exited) ∈ t.routines → t.done = true := by
  intro r hr
  cases he with
  | park hg hx hblocked hopen =>
    obtain hmem | heq := List.mem_or_eq_of_mem_set hr
    · exact h r hmem
    · cases heq
  | exit hg hx hdone => exact hdone
  | last hg hx hroom hopen hlast => rfl
  | produce hg hx hroom hopen hmore hsignal => exact h r (exited_of_signal rfl hsignal hr)
  | consume hg hx hsome hopen hsignal => exact h r (exited_of_signal rfl hsignal hr)

/-- **The step lemma.** -/
theorem Balanced.step (h : Balanced k s) (hk : Sized k) (he : Effect k s g t) :
    Balanced k t := by
  have hroles := h.roles.step he
  have hexited := exited_step h.exited he
  have hlow := h.nonneg
  have hhigh := h.le_products
  cases he with
  | park hg hx hblocked hopen =>
    refine ⟨hroles, hlow, hhigh, h.produced_le, h.done_iff, ?_, hexited,
      h.awake.park hk h.roles hg hx hblocked⟩
    intro hdone
    rw [goOn, hopen] at hdone
    cases hdone
  | @exit r x hg hx hdone =>
    have hnone : ∀ r', waiting (({ s with consumed := s.consumed + leftover s r } :
        Products).goOn g (.running (r, .exited))) r' = 0 := by
      intro r'
      have hset := count_parked_set hg hx (y := .running (r, .exited))
        (fun r hr => by cases hr) r'
      rw [h.none_waits hdone] at hset
      exact hset
    exact ⟨hroles, hlow, hhigh, h.produced_le, h.done_iff, fun _ => hnone, hexited,
      .of_none hk hnone⟩
  | last hg hx hroom hopen hlast =>
    have hnotlast : s.producedCount ≠ k.totalProducts := by
      intro heq
      rw [h.done_iff.mpr heq] at hopen
      cases hopen
    have hle := h.produced_le
    have hnone : ∀ r', (Thread.broadcast
        (s.routines.set g (.running (.producer, .ready)))).count (.parked r') = 0 := by
      intro r'
      exact List.count_eq_zero.mpr (Thread.notMem_broadcast _ r')
    refine ⟨hroles, ?_, ?_, ?_, ?_, fun _ => hnone, hexited, .of_none hk hnone⟩
    · simp only
      omega
    · simp only
      omega
    · simp only
      omega
    · simp only [true_iff]
      omega
  | produce hg hx hroom hopen hmore hsignal =>
    refine ⟨hroles, ?_, ?_, ?_, ?_, ?_, hexited,
      h.awake.act hk h.roles hroles hg hx ?_ hsignal⟩
    · simp only
      omega
    · simp only
      omega
    · simp only
      omega
    · simp only [hopen, Bool.false_eq_true, false_iff]
      omega
    · intro hdone
      rw [hopen] at hdone
      cases hdone
    · simp only [other, workLeft]
      omega
  | consume hg hx hsome hopen hsignal =>
    refine ⟨hroles, ?_, ?_, h.produced_le, h.done_iff, ?_, hexited,
      h.awake.act hk h.roles hroles hg hx ?_ hsignal⟩
    · simp only
      omega
    · simp only
      omega
    · intro hdone
      rw [hopen] at hdone
      cases hdone
    · simp only [other, workLeft]

theorem balanced_of_run (hk : Sized k) {as : List Products.Action}
    (h : run (Products.step k) (newProducts k) as = some s) : Balanced k s :=
  run_invariant (balanced_newProducts hk) (fun _ _ _ hs ha => hs.step hk (effect_of_step ha)) h

/-! ## Deadlock freedom -/

theorem Balanced.not_deadlocked (h : Balanced k s) : ¬ Deadlocked s := by
  rintro ⟨⟨x, hx, hleft⟩, hall⟩
  have hparked : ∀ x ∈ s.routines, s.done = true ∨ ∃ r, x = .parked r := by
    intro x hx
    obtain ⟨r, rfl⟩ | hparked := hall x hx
    · exact .inl (h.exited r hx)
    · exact .inr hparked
  by_cases hdone : s.done = true
  · obtain ⟨r, rfl⟩ | ⟨r, rfl⟩ := hall x hx
    · exact hleft r rfl
    · exact List.count_eq_zero.mp (h.none_waits hdone r) hx
  · have hrole : ∀ r, waiting s r = number k r := by
      intro r
      apply (waiting_eq_iff h.roles).mpr
      intro x hx hr
      obtain hd | ⟨r', rfl⟩ := hparked x hx
      · exact absurd hd hdone
      · exact congrArg Thread.parked hr
    exact h.awake.not_all hrole

/-- A goroutine that is not parked gets the lock and runs its section. -/
theorem exists_step_of_entering (hg : s.routines[g]? = some x) (hx : Entering r x) :
    ∃ wake t, s.step k ⟨g, wake⟩ = some t := by
  have hproduce : ∃ wake t, s.produce k g wake = some t := by
    obtain ⟨wake, ts, hsignal⟩ :=
      Thread.exists_signal (s.routines.set g (.running (.producer, .ready)))
    refine ⟨wake, ?_⟩
    unfold produce
    dsimp only [goOn]
    rw [hsignal]
    split
    · exact ⟨_, rfl⟩
    split
    · exact ⟨_, rfl⟩
    split
    · exact ⟨_, rfl⟩
    · exact ⟨_, rfl⟩
  have hconsume : ∃ wake t, s.consume g wake = some t := by
    obtain ⟨wake, ts, hsignal⟩ :=
      Thread.exists_signal (s.routines.set g (.running (.consumer, .ready)))
    refine ⟨wake, ?_⟩
    unfold consume
    dsimp only [goOn]
    rw [hsignal]
    split
    · exact ⟨_, rfl⟩
    split
    · exact ⟨_, rfl⟩
    · exact ⟨_, rfl⟩
  unfold step
  cases hx with
  | lock => cases r <;> simpa only [hg]
  | wait => cases r <;> simpa only [hg]

/-- **The program goes on** until all goroutines have returned. -/
theorem shared_condition_progress (hk : Sized k) {as : List Products.Action}
    (h : run (Products.step k) (newProducts k) as = some s)
    (hleft : ∃ x ∈ s.routines, ∀ r, x ≠ .running (r, .exited)) :
    ∃ a t, s.step k a = some t := by
  have hs := (balanced_of_run hk h).not_deadlocked
  have hgo : ∃ x ∈ s.routines, ∃ r, Entering r x := by
    by_contra hnone
    apply hs
    refine ⟨hleft, fun x hx => ?_⟩
    match x with
    | .running (r, .exited) => exact .inl ⟨r, rfl⟩
    | .parked r => exact .inr ⟨r, rfl⟩
    | .running (r, .ready) => exact absurd ⟨_, hx, r, .lock⟩ hnone
    | .woken r => exact absurd ⟨_, hx, r, .wait⟩ hnone
  obtain ⟨x, hx, r, hent⟩ := hgo
  obtain ⟨g, hg⟩ := List.mem_iff_getElem?.mp hx
  obtain ⟨wake, t, ht⟩ := exists_step_of_entering hg hent
  exact ⟨⟨g, wake⟩, t, ht⟩

/-- **Deadlock freedom of the buffer with one condition variable**, for any numbers of
producers and consumers, any capacity above both and any total. A section under the lock
is one step, so the lock is free in every state of a run.
SOURCE: produce_consume/model1/main3.go:25-93 -/
theorem shared_condition_no_deadlock (k : Constants) (hproducers : 1 ≤ k.producers)
    (hconsumers : 1 ≤ k.consumers) (hproducers_lt : k.producers < k.products)
    (hconsumers_lt : k.consumers < k.products) (htotal : 1 ≤ k.totalProducts)
    (as : List Products.Action) (s : Products)
    (h : run (Products.step k) (newProducts k) as = some s) :
    ¬ Deadlocked s ∧ 0 ≤ s.productCount ∧ s.productCount ≤ k.products ∧
      s.producedCount ≤ k.totalProducts ∧
      (s.done = true ↔ s.producedCount = k.totalProducts) := by
  have hs := balanced_of_run ⟨hproducers, hconsumers, hproducers_lt, hconsumers_lt, htotal⟩ h
  exact ⟨hs.not_deadlocked, hs.nonneg, hs.le_products, hs.produced_le, hs.done_iff⟩

/-- Both consumers of the source park, and the first product wakes one of them. -/
theorem shared_condition_no_deadlock_woken :
    ∃ s, run (Products.step mainConstants) (newProducts mainConstants)
        [⟨0, none⟩, ⟨1, none⟩, ⟨2, some 0⟩] = some s ∧ ¬ Deadlocked s := by
  refine ⟨_, rfl, ?_⟩
  exact (shared_condition_no_deadlock mainConstants (by decide) (by decide) (by decide)
    (by decide) (by decide) [⟨0, none⟩, ⟨1, none⟩, ⟨2, some 0⟩] _ rfl).1

end GolangSandbox.Analysis
