import GolangSandbox.Analysis.JobConservation

/-!
# Exclusive hand-off between goroutines and workers

The `jobChan` of a worker is a token. A worker puts it into `workerPool`, a goroutine
takes it out and keeps it until its send is received, and the worker does not publish it
again before that. So a channel is in the pool or held by a goroutine exactly while its
worker is at its `select`, and there it is once (`HandOff`).

A worker that takes its quit signal leaves its channel where it is. `HandOff` therefore
counts a worker that has returned like one at its `select`, and holds whether or not
`stop` is called.
-/

set_option autoImplicit false

namespace GolangSandbox.Analysis

open GolangSandbox.Model GolangSandbox.Program GolangSandbox.Program.Dispatcher

variable {s t : Dispatcher}

/-- The channel a goroutine holds, as the index of its worker. -/
def holding : Goroutine → List ℕ
  | .announcing w | .loading w | .sending w _ => [w]
  | _ => []

/-- The channels in the buffer of `workerPool` and those held by goroutines. -/
def channels (s : Dispatcher) : List ℕ := s.workerPool ++ s.goroutines.flatMap holding

/-- The worker has published its channel and not received a job since. -/
def Published (s : Dispatcher) (w : ℕ) : Prop :=
  s.workers[w]? = some .selecting ∨ s.workers[w]? = some .stopped

instance (s : Dispatcher) : DecidablePred (Published s) := fun w => by
  unfold Published
  infer_instance

/-- A channel is out exactly while its worker waits for a job on it, and it is out once. -/
structure HandOff (s : Dispatcher) : Prop where
  size : s.workers.length = s.maxWorkers
  once : ∀ w, (channels s).count w = if Published s w then 1 else 0

/-! ## Every step keeps the invariant -/

theorem handOff_newDispatcher (maxWorkers maxQueueSize : ℕ) :
    HandOff (newDispatcher maxWorkers maxQueueSize) where
  size := List.length_replicate
  once w := by
    have hnot : ¬ Published (newDispatcher maxWorkers maxQueueSize) w := by
      simp [Published, newDispatcher, List.getElem?_replicate]
    rw [if_neg hnot]
    rfl

/-- What a worker that has changed its place has published. -/
theorem published_set {workers : List Worker} {w : ℕ} {x y : Worker} (hw : workers[w]? = some x)
    (hs : s.workers = workers) (ht : t.workers = workers.set w y) (w' : ℕ) :
    Published t w' ↔ if w' = w then y = .selecting ∨ y = .stopped else Published s w' := by
  have hlt := (List.getElem?_eq_some_iff.mp hw).1
  unfold Published
  rw [ht, hs]
  by_cases h : w' = w
  · rw [if_pos h, h, List.getElem?_set_self hlt, Option.some.injEq, Option.some.injEq]
  · rw [if_neg h, List.getElem?_set_ne (Ne.symm h)]

/-- A goroutine goes on, and its channel with it. -/
theorem count_holding_set {gs : List Goroutine} {g : ℕ} {p : Goroutine} (hg : gs[g]? = some p)
    (p' : Goroutine) (w : ℕ) :
    ((gs.set g p').flatMap holding).count w + (holding p).count w =
      (gs.flatMap holding).count w + (holding p').count w := by
  have hperm := flatMap_set_perm (y := p') holding hg
  have hcount := hperm.count_eq w
  rwa [List.count_append, List.count_append] at hcount

theorem count_channels (s : Dispatcher) (w : ℕ) :
    (channels s).count w = s.workerPool.count w + (s.goroutines.flatMap holding).count w :=
  List.count_append

/-- The pool, the goroutines and the workers are as before, or a goroutine went on without
changing what it holds. -/
theorem HandOff.congr (h : HandOff s) (hmax : t.maxWorkers = s.maxWorkers)
    (hworkers : t.workers = s.workers) (hpool : t.workerPool = s.workerPool)
    (hholding : t.goroutines.flatMap holding = s.goroutines.flatMap holding) : HandOff t where
  size := by rw [hworkers, hmax, h.size]
  once w := by
    rw [count_channels, hpool, hholding, ← count_channels, h.once]
    simp only [Published, hworkers]

theorem HandOff.goOn (h : HandOff s) {g : ℕ} {p p' : Goroutine} (hg : s.goroutines[g]? = some p)
    (hsame : holding p' = holding p) : HandOff (s.goOn g p') :=
  h.congr rfl rfl rfl (flatMap_set_eq holding hg hsame)

/-- A goroutine takes a channel out of the pool. -/
theorem HandOff.fetch (h : HandOff s) {g w : ℕ} {workerPool : List ℕ}
    (hg : s.goroutines[g]? = some .fetching) (hpool : s.workerPool = w :: workerPool) :
    HandOff (({ s with workerPool := workerPool } : Dispatcher).goOn g (.announcing w)) where
  size := h.size
  once w' := by
    have hset := count_holding_set hg (.announcing w) w'
    have hcount := h.once w'
    rw [count_channels, hpool, List.count_cons] at hcount
    rw [count_channels]
    show workerPool.count w' + ((s.goroutines.set g (.announcing w)).flatMap holding).count w' =
      if Published s w' then 1 else 0
    rw [← hcount]
    simp only [holding, List.count_nil, List.count_singleton] at hset
    omega

/-- A worker receives a job on the channel a goroutine holds. -/
theorem HandOff.send (h : HandOff s) {g w : ℕ} {j : Job}
    (hg : s.goroutines[g]? = some (.sending w j)) (hw : s.workers[w]? = some .selecting) :
    HandOff (({ s with
      workers := s.workers.set w (.running j)
      received := s.received ++ [(w, j)] } : Dispatcher).goOn g .finished) where
  size := by
    show (s.workers.set w _).length = _
    rw [List.length_set, h.size]
    rfl
  once w' := by
    have hset := count_holding_set hg .finished w'
    have hcount := h.once w'
    rw [count_channels] at hcount ⊢
    rw [if_congr (published_set hw rfl rfl w') rfl rfl]
    show s.workerPool.count w' + ((s.goroutines.set g .finished).flatMap holding).count w' = _
    simp only [holding, List.count_nil, List.count_singleton] at hset
    by_cases hww : w' = w
    · subst hww
      rw [if_pos (.inl hw)] at hcount
      simp only [beq_self_eq_true, if_true, reduceCtorEq, or_self, if_false] at hset ⊢
      omega
    · rw [if_neg (by simpa using Ne.symm hww)] at hset
      simp only [hww, if_false]
      omega

/-- A worker publishes its channel. -/
theorem HandOff.publish (h : HandOff s) {w : ℕ} (hw : s.workers[w]? = some .publishing) :
    HandOff { s with
      workerPool := s.workerPool ++ [w]
      workers := s.workers.set w .selecting } where
  size := by rw [List.length_set, h.size]
  once w' := by
    have hcount := h.once w'
    rw [count_channels] at hcount ⊢
    rw [if_congr (published_set hw rfl rfl w') rfl rfl, List.count_append, List.count_singleton]
    by_cases hww : w' = w
    · subst hww
      rw [if_neg (by simp [Published, hw])] at hcount
      simp only [beq_self_eq_true, if_true, true_or]
      omega
    · have hbeq : (w == w') = false := by simpa using Ne.symm hww
      simp only [hww, hbeq, Bool.false_eq_true, if_false]
      omega

/-- A worker goes on without publishing or receiving. -/
theorem HandOff.work (h : HandOff s) {w : ℕ} {x y : Worker} {stopping : List ℕ}
    (hw : s.workers[w]? = some x)
    (hsame : (y = .selecting ∨ y = .stopped) ↔ x = .selecting ∨ x = .stopped) :
    HandOff { s with workers := s.workers.set w y, stopping := stopping } where
  size := by rw [List.length_set, h.size]
  once w' := by
    rw [if_congr (published_set hw rfl rfl w') rfl rfl]
    refine (h.once w').trans (if_congr ?_ rfl rfl)
    by_cases hww : w' = w
    · subst hww
      rw [if_pos rfl, hsame, Published, hw, Option.some.injEq, Option.some.injEq]
    · rw [if_neg hww]

/-- **The step lemma.** -/
theorem HandOff.step (h : HandOff s) {a : Dispatcher.Action} (ha : s.step a = some t) :
    HandOff t := by
  cases effect_of_step ha with
  | submit hroom => exact h.congr rfl rfl rfl rfl
  | handoff hpc hq => exact h.congr rfl rfl rfl rfl
  | receive hpc hq => exact h.congr rfl rfl rfl rfl
  | assign hpc => exact h.congr rfl rfl rfl rfl
  | spawn hpc =>
    refine h.congr rfl rfl rfl ?_
    show (s.goroutines ++ [Goroutine.printing]).flatMap holding = _
    rw [List.flatMap_append]
    exact List.append_nil _
  | print hg => exact h.goOn hg rfl
  | fetch hg hpool => exact h.fetch hg hpool
  | announce hg => exact h.goOn hg rfl
  | load hg => exact h.goOn hg rfl
  | send hg hw => exact h.send hg hw
  | publish hw hroom => exact h.publish hw
  | complete hw => exact h.work hw (by simp)
  | stop => exact h.congr rfl rfl rfl rfl
  | quit hstop hw => exact h.work hw (by simp)

theorem handOff_of_run {maxWorkers maxQueueSize : ℕ} {as : List Dispatcher.Action}
    (h : run Dispatcher.step (newDispatcher maxWorkers maxQueueSize) as = some s) : HandOff s :=
  run_invariant (handOff_newDispatcher _ _) (fun _ _ _ hs ha => hs.step ha) h

/-! ## Who holds what -/

theorem mem_channels_of_holding {g w : ℕ} {p : Goroutine} (hg : s.goroutines[g]? = some p)
    (hw : w ∈ holding p) : w ∈ channels s :=
  List.mem_append_right _ (List.mem_flatMap.mpr ⟨p, List.mem_of_getElem? hg, hw⟩)

theorem HandOff.mem_channels (h : HandOff s) {w : ℕ} : w ∈ channels s ↔ Published s w := by
  rw [← List.count_pos_iff, h.once]
  by_cases hw : Published s w <;> simp [hw]

theorem HandOff.nodup_channels (h : HandOff s) : (channels s).Nodup := by
  rw [List.nodup_iff_count_le_one]
  intro w
  rw [h.once]
  split <;> omega

/-- No two goroutines hold the same channel. -/
theorem HandOff.holder_unique (h : HandOff s) {g g' w : ℕ} {p p' : Goroutine}
    (hg : s.goroutines[g]? = some p) (hg' : s.goroutines[g']? = some p') (hw : w ∈ holding p)
    (hw' : w ∈ holding p') : g = g' := by
  by_contra hne
  have hcount := h.once w
  rw [count_channels] at hcount
  -- Without the first holder the second one still holds the channel.
  have hset := count_holding_set hg .finished w
  have hstill : w ∈ (s.goroutines.set g .finished).flatMap holding := by
    refine List.mem_flatMap.mpr ⟨p', ?_, hw'⟩
    exact List.mem_of_getElem? (i := g') (by rwa [List.getElem?_set_ne hne])
  have hpos := List.count_pos_iff.mpr hstill
  have hone := List.count_pos_iff.mpr hw
  have hnone : (holding .finished).count w = 0 := rfl
  split at hcount <;> omega

/-- While a worker is about to publish its channel there is room for it. -/
theorem HandOff.room (h : HandOff s) {w : ℕ} (hw : s.workers[w]? = some .publishing) :
    s.workerPool.length < s.maxWorkers := by
  have hnot : w ∉ s.workerPool := by
    intro hmem
    have hpub := h.mem_channels.mp (List.mem_append_left _ hmem)
    simp [Published, hw] at hpub
  have hnodup : (w :: s.workerPool).Nodup :=
    List.nodup_cons.mpr ⟨hnot, (List.nodup_append.mp h.nodup_channels).1⟩
  have hsub : w :: s.workerPool ⊆ List.range s.maxWorkers := by
    intro w' hw'
    rw [List.mem_range, ← h.size]
    obtain rfl | hmem := List.mem_cons.mp hw'
    · exact (List.getElem?_eq_some_iff.mp hw).1
    · obtain hsel | hstop := h.mem_channels.mp (List.mem_append_left _ hmem)
      · exact (List.getElem?_eq_some_iff.mp hsel).1
      · exact (List.getElem?_eq_some_iff.mp hstop).1
  have hle := List.Nodup.length_le_of_subset hnodup hsub
  rwa [List.length_cons, List.length_range] at hle

/-! ## Without `stop` -/

/-- Only a worker that takes its quit signal returns. -/
theorem notMem_stopped_step (h : .stopped ∉ s.workers) {a : Dispatcher.Action}
    (hquit : ∀ w, a ≠ .quit w) (ha : s.step a = some t) : .stopped ∉ t.workers := by
  have hset : ∀ {w : ℕ} {y : Worker}, y ≠ .stopped → .stopped ∉ s.workers.set w y := by
    intro w y hy hmem
    obtain hmem | heq := List.mem_or_eq_of_mem_set hmem
    · exact h hmem
    · exact hy heq.symm
  cases effect_of_step ha with
  | send hg hw => exact hset (by simp)
  | publish hw hroom => exact hset (by simp)
  | complete hw => exact hset (by simp)
  | @quit w => exact absurd rfl (hquit w)
  | _ => exact h

/-- Nobody was told to stop, and nobody has. -/
def Unstopped (s : Dispatcher) : Prop := s.stopping = [] ∧ .stopped ∉ s.workers

theorem Unstopped.step (h : Unstopped s) {a : Dispatcher.Action} (hstop : ∀ w, a ≠ .stop w)
    (ha : s.step a = some t) : Unstopped t := by
  have hquit : ∀ w, a ≠ .quit w := by
    rintro w rfl
    cases effect_of_step ha with
    | quit hw _ =>
      rw [h.1] at hw
      cases hw
  refine ⟨?_, notMem_stopped_step h.2 hquit ha⟩
  cases effect_of_step ha with
  | @stop w => exact absurd rfl (hstop w)
  | @quit w => exact absurd rfl (hquit w)
  | _ => exact h.1

theorem unstopped_of_run {maxWorkers maxQueueSize : ℕ} {as : List Dispatcher.Action}
    (h : run Dispatcher.step (newDispatcher maxWorkers maxQueueSize) as = some s)
    (hstop : ∀ w, .stop w ∉ as) : Unstopped s := by
  have hall : ∀ a ∈ as, ∀ w, a ≠ .stop w := by
    rintro a ha w rfl
    exact hstop w ha
  refine run_induction_along (I := fun _ s => Unstopped s) ⟨rfl, ?_⟩ ?_ h (along_of_forall hall _)
  · simp [newDispatcher]
  · exact fun _ _ _ _ _ hs ha hstep => hs.step ha hstep

/-- **Exclusive hand-off.** As long as `stop` is not called: the channel of a worker is at
most once in the pool or with a goroutine, and it is there exactly while the worker is at
its `select`. So there is room for a worker that publishes its channel, no two goroutines
hold the same channel, and who sends on a channel finds its worker ready.
SOURCE: handleMillionRequest/main.go:34-49, 67-94 -/
theorem exclusive_hand_off (maxWorkers maxQueueSize : ℕ) (as : List Dispatcher.Action)
    (s : Dispatcher)
    (h : run Dispatcher.step (newDispatcher maxWorkers maxQueueSize) as = some s)
    (hstop : ∀ w, .stop w ∉ as) :
    (∀ w : ℕ, (channels s).count w ≤ 1 ∧
      (w ∈ channels s ↔ s.workers[w]? = some .selecting)) ∧
    (∀ w : ℕ, s.workers[w]? = some .publishing → s.workerPool.length < s.maxWorkers) ∧
    (∀ (g g' w : ℕ) p p', s.goroutines[g]? = some p → s.goroutines[g']? = some p' →
      w ∈ holding p → w ∈ holding p' → g = g') ∧
    ∀ (g w : ℕ) j, s.goroutines[g]? = some (.sending w j) → s.workers[w]? = some .selecting := by
  have hs := handOff_of_run h
  have hun := unstopped_of_run h hstop
  have hpub : ∀ w, Published s w ↔ s.workers[w]? = some .selecting := by
    intro w
    refine or_iff_left fun hstopped => ?_
    exact hun.2 (List.mem_of_getElem? hstopped)
  refine ⟨fun w => ⟨List.nodup_iff_count_le_one.mp hs.nodup_channels w, ?_⟩,
    fun w hw => hs.room hw, fun g g' w p p' hg hg' hw hw' => hs.holder_unique hg hg' hw hw', ?_⟩
  · rw [hs.mem_channels, hpub]
  · intro g w j hg
    rw [← hpub, ← hs.mem_channels]
    exact mem_channels_of_holding hg (List.mem_singleton_self w)

/-- Two workers; the first one's channel is on its way with a job. -/
theorem exclusive_hand_off_two :
    ∃ s, run Dispatcher.step (newDispatcher 2 1)
        [.worker 0, .worker 1, .submit ⟨[97], 1⟩, .dispatch, .dispatch, .dispatch, .goroutine 0,
          .goroutine 0, .goroutine 0, .goroutine 0] = some s ∧
      s.goroutines = [.sending 0 ⟨[97], 1⟩] ∧ s.workers[0]? = some .selecting := by
  refine ⟨_, rfl, by decide, ?_⟩
  exact (exclusive_hand_off 2 1
    [.worker 0, .worker 1, .submit ⟨[97], 1⟩, .dispatch, .dispatch, .dispatch, .goroutine 0,
      .goroutine 0, .goroutine 0, .goroutine 0] _ rfl (by simp)).2.2.2 0 0 ⟨[97], 1⟩ (by decide)

end GolangSandbox.Analysis
