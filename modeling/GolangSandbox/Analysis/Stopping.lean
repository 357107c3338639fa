import GolangSandbox.Analysis.HandOff

/-!
# What stopping a worker does to the jobs

A worker takes its quit signal at its `select`, and there its channel is out (`HandOff`):
in the pool or with a goroutine. Nobody takes it back, so the goroutine that holds it, or
the one that will fetch it, sends to a worker that has returned and blocks for ever
(`Stranded`). Any quit signal a worker takes can lead there (`exists_stranded`).

As long as no worker takes one, every job that `dispatch` has taken off the queue, and not
overwritten in `job`, can be brought to a worker by the goroutines and workers alone. The
argument follows the goroutine of the job back from its send: it needs a channel, so the
pool must not be empty, so worker 0 must publish, so the job aimed at it must be received.
-/

set_option autoImplicit false

namespace GolangSandbox.Analysis

open GolangSandbox.Model GolangSandbox.Program GolangSandbox.Program.Dispatcher

variable {s t : Dispatcher}

/-- The goroutine holds the channel of a worker that has returned. -/
structure Stranded (s : Dispatcher) (g w : ℕ) : Prop where
  held : ∃ p, s.goroutines[g]? = some p ∧ w ∈ holding p
  stopped : s.workers[w]? = some .stopped

/-! ## A stranded goroutine -/

/-- Another goroutine, or this one with the same channel, goes on. -/
theorem Stranded.goOn {g w : ℕ} (h : Stranded s g w) {g' : ℕ} {p p' : Goroutine}
    (hg : s.goroutines[g']? = some p) (hkeep : w ∈ holding p → w ∈ holding p') :
    Stranded (s.goOn g' p') g w := by
  obtain ⟨⟨q, hq, hw⟩, hstopped⟩ := h
  refine ⟨?_, hstopped⟩
  by_cases hgg : g' = g
  · subst hgg
    rw [hg, Option.some.injEq] at hq
    subst hq
    exact ⟨p', List.getElem?_set_self (List.getElem?_eq_some_iff.mp hg).1, hkeep hw⟩
  · exact ⟨q, (List.getElem?_set_ne hgg).trans hq, hw⟩

/-- Another worker goes on. -/
theorem Stranded.work {g w : ℕ} (h : Stranded s g w) (ht : t.goroutines = s.goroutines)
    {w' : ℕ} {x y : Worker} (hw : s.workers[w']? = some x) (hx : x ≠ .stopped)
    (hworkers : t.workers = s.workers.set w' y) : Stranded t g w := by
  refine ⟨ht ▸ h.held, ?_⟩
  have hne : w' ≠ w := by
    rintro rfl
    rw [h.stopped, Option.some.injEq] at hw
    exact hx hw.symm
  rw [hworkers, List.getElem?_set_ne hne, h.stopped]

/-- A stranded goroutine stays stranded: its send is never received. -/
theorem Stranded.step {g w : ℕ} (h : Stranded s g w) {a : Dispatcher.Action}
    (ha : s.step a = some t) : Stranded t g w := by
  cases effect_of_step ha with
  | spawn hpc =>
    obtain ⟨p, hp, hw⟩ := h.held
    refine ⟨⟨p, ?_, hw⟩, h.stopped⟩
    rw [List.getElem?_append_left (List.getElem?_eq_some_iff.mp hp).1, hp]
  | print hg => exact h.goOn hg (by simp [holding])
  | @fetch g' w' workerPool hg hpool =>
    have h' : Stranded { s with workerPool := workerPool } g w := ⟨h.held, h.stopped⟩
    exact h'.goOn hg (by simp [holding])
  | announce hg => exact h.goOn hg id
  | load hg => exact h.goOn hg id
  | @send g' w' j hg hw =>
    have h' : Stranded { s with
        workers := s.workers.set w' (.running j)
        received := s.received ++ [(w', j)] } g w := h.work rfl hw (by simp) rfl
    refine h'.goOn hg fun hmem => ?_
    -- The worker of a stranded channel is not at its `select`.
    obtain rfl := List.mem_singleton.mp hmem
    have hstopped := h.stopped
    rw [hw] at hstopped
    cases hstopped
  | publish hw hroom => exact h.work rfl hw (by simp) rfl
  | complete hw => exact h.work rfl hw (by simp) rfl
  | quit hstop hw => exact h.work rfl hw (by simp) rfl
  | _ => exact ⟨h.held, h.stopped⟩

theorem stranded_of_run {g w : ℕ} (h : Stranded s g w) {as : List Dispatcher.Action}
    (hrun : run Dispatcher.step s as = some t) : Stranded t g w :=
  run_invariant (I := fun s => Stranded s g w) h (fun _ _ _ hs ha => hs.step ha) hrun

/-! ## Every quit signal can strand a job -/

/-- The dispatcher can always be brought to start one more goroutine. -/
theorem exists_spawn (s : Dispatcher) : ∃ as t, run Dispatcher.step s as = some t ∧
    t.goroutines = s.goroutines ++ [.printing] ∧ t.workerPool = s.workerPool ∧
      t.workers = s.workers := by
  have hspawning : ∀ s : Dispatcher, s.dispatch = .spawning → s.step .dispatch =
      some { s with dispatch := .receiving, goroutines := s.goroutines ++ [.printing] } := by
    intro s hpc
    simp only [Dispatcher.step, stepDispatch, hpc]
  have hassigning : ∀ (s : Dispatcher) (j : Job), s.dispatch = .assigning j →
      s.step .dispatch = some { s with job := j, dispatch := .spawning } := by
    intro s j hpc
    simp only [Dispatcher.step, stepDispatch, hpc]
  cases hpc : s.dispatch with
  | spawning =>
    exact ⟨[.dispatch], _, run_cons_eq_some.mpr ⟨_, hspawning s hpc, rfl⟩, rfl, rfl, rfl⟩
  | assigning j =>
    refine ⟨[.dispatch, .dispatch], _, run_cons_eq_some.mpr ⟨_, hassigning s j hpc,
      run_cons_eq_some.mpr ⟨_, hspawning _ rfl, rfl⟩⟩, rfl, rfl, rfl⟩
  | receiving =>
    cases hq : s.jobQueue with
    | nil =>
      have hstep : s.step (.handoff default) = some { s with
          dispatch := .assigning default
          accepted := s.accepted ++ [default] } := by
        rw [Dispatcher.step, if_pos ⟨hpc, hq⟩]
      exact ⟨[.handoff default, .dispatch, .dispatch], _, run_cons_eq_some.mpr ⟨_, hstep,
        run_cons_eq_some.mpr ⟨_, hassigning _ _ rfl,
          run_cons_eq_some.mpr ⟨_, hspawning _ rfl, rfl⟩⟩⟩, rfl, rfl, rfl⟩
    | cons j jobQueue =>
      have hstep : s.step .dispatch = some { s with
          jobQueue := jobQueue
          dispatch := .assigning j } := by
        simp only [Dispatcher.step, stepDispatch, hpc, hq]
      exact ⟨[.dispatch, .dispatch, .dispatch], _, run_cons_eq_some.mpr ⟨_, hstep,
        run_cons_eq_some.mpr ⟨_, hassigning _ _ rfl,
          run_cons_eq_some.mpr ⟨_, hspawning _ rfl, rfl⟩⟩⟩, rfl, rfl, rfl⟩

/-- A new goroutine can take the first channel out of the pool. -/
theorem exists_fetch_head {v : ℕ} {workerPool : List ℕ} (hpool : s.workerPool = v :: workerPool) :
    ∃ as t, run Dispatcher.step s as = some t ∧
      t.goroutines = s.goroutines ++ [.announcing v] ∧ t.workerPool = workerPool ∧
        t.workers = s.workers := by
  obtain ⟨as, u, hrun, hgs, hpool', hworkers⟩ := exists_spawn s
  have hprint : u.step (.goroutine s.goroutines.length) =
      some (u.goOn s.goroutines.length .fetching) := by
    simp only [Dispatcher.step, stepGoroutine, hgs, List.getElem?_concat_length,
      Option.bind_some]
  let fetched : Dispatcher :=
    ({ u with workerPool := workerPool } : Dispatcher).goOn s.goroutines.length (.announcing v)
  have hfetch : (u.goOn s.goroutines.length .fetching).step (.goroutine s.goroutines.length) =
      some fetched := by
    simp [Dispatcher.step, stepGoroutine, Dispatcher.goOn, hgs, hpool', hpool, fetched]
  refine ⟨as ++ [.goroutine s.goroutines.length, .goroutine s.goroutines.length], fetched,
    run_append_eq_some.mpr ⟨u, hrun, run_cons_eq_some.mpr ⟨_, hprint,
      run_cons_eq_some.mpr ⟨_, hfetch, rfl⟩⟩⟩, ?_, rfl, hworkers⟩
  simp [Dispatcher.goOn, hgs, fetched]

/-- New goroutines can take the channels out of the pool up to any one of them. -/
theorem exists_fetch {i w : ℕ} (hw : s.workerPool[i]? = some w) :
    ∃ (as : List Dispatcher.Action) (t : Dispatcher) (g : ℕ) (p : Goroutine),
      run Dispatcher.step s as = some t ∧ t.goroutines[g]? = some p ∧ w ∈ holding p ∧
        t.workers = s.workers := by
  induction i generalizing s with
  | zero =>
    obtain ⟨workerPool, hpool⟩ := List.head?_eq_some_iff.mp (List.head?_eq_getElem?.trans hw)
    obtain ⟨as, t, hrun, hgs, -, hworkers⟩ := exists_fetch_head hpool
    refine ⟨as, t, s.goroutines.length, .announcing w, hrun, ?_, List.mem_singleton_self w,
      hworkers⟩
    rw [hgs, List.getElem?_concat_length]
  | succ i ih =>
    obtain ⟨v, workerPool, hpool⟩ : ∃ v workerPool, s.workerPool = v :: workerPool :=
      List.exists_cons_of_ne_nil fun hnil => by simp [hnil] at hw
    obtain ⟨as, u, hrun, -, hpool', hworkers⟩ := exists_fetch_head hpool
    rw [hpool, List.getElem?_cons_succ, ← hpool'] at hw
    obtain ⟨bs, t, g, p, hrun', hp, hmem, hworkers'⟩ := ih hw
    exact ⟨as ++ bs, t, g, p, run_append_eq_some.mpr ⟨u, hrun, hrun'⟩, hp, hmem,
      hworkers'.trans hworkers⟩

/-- **Every quit signal that is taken can strand a goroutine**, whatever the other workers
do from then on. -/
theorem exists_stranded (h : HandOff s) {w : ℕ} (hquit : s.step (.quit w) = some t) :
    ∃ as u g, run Dispatcher.step t as = some u ∧ Stranded u g w := by
  have hstopped : t.workers[w]? = some .stopped := by
    cases effect_of_step hquit with
    | quit hstop hw => exact List.getElem?_set_self (List.getElem?_eq_some_iff.mp hw).1
  have hout := (h.step hquit).mem_channels.mpr (.inr hstopped)
  obtain hpool | hheld := List.mem_append.mp hout
  · obtain ⟨i, hi⟩ := List.mem_iff_getElem?.mp hpool
    obtain ⟨as, u, g, p, hrun, hp, hmem, hworkers⟩ := exists_fetch hi
    exact ⟨as, u, g, hrun, ⟨p, hp, hmem⟩, hworkers ▸ hstopped⟩
  · obtain ⟨p, hp, hmem⟩ := List.mem_flatMap.mp hheld
    obtain ⟨g, hg⟩ := List.mem_iff_getElem?.mp hp
    exact ⟨[], t, g, rfl, ⟨p, hg, hmem⟩, hstopped⟩

/-! ## Without quit signals every job can be received -/

/-- A step of `dispatch`, a goroutine or a worker, with no help from outside. -/
def Internal : Dispatcher.Action → Prop
  | .dispatch | .goroutine _ | .worker _ => True
  | .submit _ | .handoff _ | .stop _ | .quit _ => False

/-- The dispatcher can go on by itself such that a worker receives the job. -/
def CanReceive (s : Dispatcher) (j : Job) : Prop :=
  ∃ as t, (∀ a ∈ as, Internal a) ∧ run Dispatcher.step s as = some t ∧ j ∈ receivedJobs t

/-- All workers run, and the channels are where they should be. -/
structure Live (s : Dispatcher) : Prop where
  handOff : HandOff s
  running : .stopped ∉ s.workers

section Receive

variable {g w : ℕ} {j : Job} {p : Goroutine}

theorem Live.step (h : Live s) {a : Dispatcher.Action} (hquit : ∀ w, a ≠ .quit w)
    (ha : s.step a = some t) : Live t :=
  ⟨h.handOff.step ha, notMem_stopped_step h.running hquit ha⟩

theorem Live.run (h : Live s) {as : List Dispatcher.Action} (has : ∀ a ∈ as, Internal a)
    (hrun : run Dispatcher.step s as = some t) : Live t := by
  refine run_induction_along (I := fun _ s => Live s) h ?_ hrun (along_of_forall has _)
  rintro as t a u - ht ha hu
  refine ht.step ?_ hu
  rintro w rfl
  exact ha

/-- A channel that is out belongs to a worker at its `select`. -/
theorem Live.selecting (h : Live s) (hw : w ∈ channels s) : s.workers[w]? = some .selecting :=
  (h.handOff.mem_channels.mp hw).resolve_right fun hstop =>
    h.running (List.mem_of_getElem? hstop)

theorem CanReceive.of_run {as : List Dispatcher.Action} (has : ∀ a ∈ as, Internal a)
    (hrun : GolangSandbox.Model.run Dispatcher.step s as = some t) (h : CanReceive t j) :
    CanReceive s j := by
  obtain ⟨bs, u, hbs, hu, hj⟩ := h
  refine ⟨as ++ bs, u, ?_, run_append_eq_some.mpr ⟨t, hrun, hu⟩, hj⟩
  intro a ha
  obtain ha | ha := List.mem_append.mp ha
  · exact has a ha
  · exact hbs a ha

theorem CanReceive.of_step {a : Dispatcher.Action} (ha : Internal a) (hstep : s.step a = some t)
    (h : CanReceive t j) : CanReceive s j := by
  have hrun : GolangSandbox.Model.run Dispatcher.step s [a] = some t :=
    run_cons_eq_some.mpr ⟨t, hstep, rfl⟩
  exact h.of_run (List.forall_mem_singleton.mpr ha) hrun

/-- The state after a goroutine has sent a job to a worker. -/
def afterSend (s : Dispatcher) (g w : ℕ) (j : Job) : Dispatcher :=
  ({ s with
    workers := s.workers.set w (.running j)
    received := s.received ++ [(w, j)] } : Dispatcher).goOn g .finished

theorem goOn_goOn (s : Dispatcher) (g : ℕ) (p p' : Goroutine) :
    (s.goOn g p).goOn g p' = s.goOn g p' := by
  simp only [Dispatcher.goOn, List.set_set]

theorem goOn_self (hg : s.goroutines[g]? = some p) (p' : Goroutine) :
    (s.goOn g p').goroutines[g]? = some p' :=
  List.getElem?_set_self (List.getElem?_eq_some_iff.mp hg).1

/-- A goroutine that holds the channel of a worker at its `select` sends its job by itself. -/
theorem exists_send (hg : s.goroutines[g]? = some p) (hw : w ∈ holding p)
    (hj : j ∈ carries s.job p) (hsel : s.workers[w]? = some .selecting) :
    ∃ as, (∀ a ∈ as, Internal a) ∧ run Dispatcher.step s as = some (afterSend s g w j) := by
  have hsend : ∀ s : Dispatcher, s.goroutines[g]? = some (.sending w j) →
      s.workers[w]? = some .selecting → s.step (.goroutine g) = some (afterSend s g w j) := by
    intro s hg hsel
    simp only [Dispatcher.step, stepGoroutine, hg, Option.bind_some, hsel, if_true, afterSend]
  have hload : ∀ s : Dispatcher, s.goroutines[g]? = some (.loading w) →
      s.step (.goroutine g) = some (s.goOn g (.sending w s.job)) := by
    intro s hg
    simp only [Dispatcher.step, stepGoroutine, hg, Option.bind_some]
  have hafter : ∀ p, afterSend (s.goOn g p) g w j = afterSend s g w j := fun p =>
    goOn_goOn { s with workers := s.workers.set w _, received := s.received ++ [(w, j)] } g p _
  cases p with
  | sending w' j' =>
    obtain rfl := List.mem_singleton.mp hw
    obtain rfl := List.mem_singleton.mp hj
    exact ⟨[.goroutine g], by simp [Internal], run_cons_eq_some.mpr ⟨_, hsend s hg hsel, rfl⟩⟩
  | loading w' =>
    obtain rfl := List.mem_singleton.mp hw
    obtain rfl := List.mem_singleton.mp hj
    refine ⟨[.goroutine g, .goroutine g], by simp [Internal], run_cons_eq_some.mpr
      ⟨_, hload s hg, run_cons_eq_some.mpr ⟨_, hsend _ (goOn_self hg _) hsel, ?_⟩⟩⟩
    rw [hafter, run_nil]
  | announcing w' =>
    obtain rfl := List.mem_singleton.mp hw
    obtain rfl := List.mem_singleton.mp hj
    have hannounce : s.step (.goroutine g) = some (s.goOn g (.loading w)) := by
      simp only [Dispatcher.step, stepGoroutine, hg, Option.bind_some]
    refine ⟨[.goroutine g, .goroutine g, .goroutine g], by simp [Internal],
      run_cons_eq_some.mpr ⟨_, hannounce, run_cons_eq_some.mpr ⟨_, hload _ (goOn_self hg _),
        run_cons_eq_some.mpr ⟨_, hsend _ (goOn_self (goOn_self hg _) _) hsel, ?_⟩⟩⟩⟩
    rw [goOn_goOn, hafter, run_nil]
  | _ => cases hw

theorem canReceive_of_holding (h : Live s) (hg : s.goroutines[g]? = some p) (hw : w ∈ holding p)
    (hj : j ∈ carries s.job p) : CanReceive s j := by
  have hsel := h.selecting (mem_channels_of_holding hg hw)
  obtain ⟨as, has, hrun⟩ := exists_send hg hw hj hsel
  refine ⟨as, _, has, hrun, ?_⟩
  show j ∈ (s.received ++ [(w, j)]).map Prod.snd
  simp

/-- The pool has been filled, and the goroutines that wait for it still do. -/
structure Filled (s t : Dispatcher) : Prop where
  pool : t.workerPool ≠ []
  job : t.job = s.job
  fetching : ∀ g : ℕ, s.goroutines[g]? = some .fetching → t.goroutines[g]? = some .fetching

theorem exists_filled_of_publishing (h : Live s) (hw : s.workers[w]? = some .publishing) :
    ∃ as t, (∀ a ∈ as, Internal a) ∧ run Dispatcher.step s as = some t ∧ Filled s t := by
  have hpublish : s.step (.worker w) = some { s with
      workerPool := s.workerPool ++ [w]
      workers := s.workers.set w .selecting } := by
    simp only [Dispatcher.step, stepWorker, hw, Option.bind_some, h.handOff.room hw, if_true]
  exact ⟨[.worker w], _, by simp [Internal], run_cons_eq_some.mpr ⟨_, hpublish, rfl⟩, by simp,
    rfl, fun _ => id⟩

theorem exists_filled_of_running (h : Live s) (hw : s.workers[w]? = some (.running j)) :
    ∃ as t, (∀ a ∈ as, Internal a) ∧ run Dispatcher.step s as = some t ∧ Filled s t := by
  have hcomplete : s.step (.worker w) =
      some { s with workers := s.workers.set w .publishing } := by
    simp only [Dispatcher.step, stepWorker, hw, Option.bind_some]
  have hlive := h.step (by simp) hcomplete
  obtain ⟨as, t, has, hrun, hfill⟩ := exists_filled_of_publishing (w := w) hlive
    (List.getElem?_set_self (List.getElem?_eq_some_iff.mp hw).1)
  refine ⟨.worker w :: as, t, ?_, run_cons_eq_some.mpr ⟨_, hcomplete, hrun⟩, hfill.pool,
    hfill.job, hfill.fetching⟩
  exact List.forall_mem_cons.mpr ⟨trivial, has⟩

/-- As long as there is a worker, the pool is not empty for ever: the channel of the first
worker is in it, or a goroutine can send on it, or the worker can publish it. -/
theorem exists_filled (h : Live s) (hmax : 0 < s.maxWorkers) :
    ∃ as t, (∀ a ∈ as, Internal a) ∧ run Dispatcher.step s as = some t ∧ Filled s t := by
  by_cases hpool : s.workerPool = []
  swap
  · exact ⟨[], s, by simp, rfl, hpool, rfl, fun _ => id⟩
  have hlt : 0 < s.workers.length := h.handOff.size ▸ hmax
  have hw := List.getElem?_eq_getElem hlt
  cases hx : s.workers[0] with
  | publishing => exact exists_filled_of_publishing h (hx ▸ hw)
  | running j => exact exists_filled_of_running h (hx ▸ hw)
  | stopped => exact absurd (List.mem_of_getElem? (hx ▸ hw)) h.running
  | selecting =>
    have hsel : s.workers[0]? = some .selecting := hx ▸ hw
    have hout : 0 ∈ channels s := h.handOff.mem_channels.mpr (.inl hsel)
    rw [channels, hpool, List.nil_append, List.mem_flatMap] at hout
    obtain ⟨p, hp, hheld⟩ := hout
    obtain ⟨g, hg⟩ := List.mem_iff_getElem?.mp hp
    obtain ⟨j, hj⟩ : ∃ j, j ∈ carries s.job p := by
      cases p <;> first | exact ⟨_, List.mem_singleton_self _⟩ | cases hheld
    obtain ⟨as, has, hrun⟩ := exists_send hg hheld hj hsel
    obtain ⟨bs, t, hbs, hrun', hfill⟩ := exists_filled_of_running (w := 0) (j := j)
      (h.run has hrun) (List.getElem?_set_self hlt)
    refine ⟨as ++ bs, t, ?_, run_append_eq_some.mpr ⟨_, hrun, hrun'⟩, hfill.pool, hfill.job,
      fun g' hg' => hfill.fetching g' ?_⟩
    · intro a ha
      obtain ha | ha := List.mem_append.mp ha
      · exact has a ha
      · exact hbs a ha
    · have hne : g ≠ g' := by
        rintro rfl
        rw [hg, Option.some.injEq] at hg'
        subst hg'
        cases hheld
      exact (List.getElem?_set_ne hne).trans hg'

/-- A goroutine that waits for a channel can get one. -/
theorem canReceive_of_fetching (h : Live s) (hmax : 0 < s.maxWorkers)
    (hg : s.goroutines[g]? = some .fetching) : CanReceive s s.job := by
  obtain ⟨as, t, has, hrun, hpool, hjob, hfetching⟩ := exists_filled h hmax
  refine CanReceive.of_run has hrun ?_
  obtain ⟨w, workerPool, hcons⟩ := List.exists_cons_of_ne_nil hpool
  have hg' := hfetching g hg
  have hfetch : t.step (.goroutine g) =
      some (({ t with workerPool := workerPool } : Dispatcher).goOn g (.announcing w)) := by
    simp only [Dispatcher.step, stepGoroutine, hg', Option.bind_some, hcons]
  refine CanReceive.of_step (a := .goroutine g) trivial hfetch ?_
  refine canReceive_of_holding ((h.run has hrun).step (by simp) hfetch)
    (p := .announcing w) (goOn_self (s := { t with workerPool := workerPool }) hg' _)
    (List.mem_singleton_self w) ?_
  show s.job ∈ [t.job]
  rw [hjob]
  exact List.mem_singleton_self _

/-- What a goroutine carries can be received. -/
theorem canReceive_of_carries (h : Live s) (hmax : 0 < s.maxWorkers)
    (hg : s.goroutines[g]? = some p) (hj : j ∈ carries s.job p) : CanReceive s j := by
  cases p with
  | printing =>
    obtain rfl := List.mem_singleton.mp hj
    have hprint : s.step (.goroutine g) = some (s.goOn g .fetching) := by
      simp only [Dispatcher.step, stepGoroutine, hg, Option.bind_some]
    have hrec := canReceive_of_fetching (h.step (by simp) hprint) hmax (goOn_self hg _)
    exact hrec.of_step (a := .goroutine g) trivial hprint
  | fetching =>
    obtain rfl := List.mem_singleton.mp hj
    exact canReceive_of_fetching h hmax hg
  | announcing w => exact canReceive_of_holding h hg (List.mem_singleton_self w) hj
  | loading w => exact canReceive_of_holding h hg (List.mem_singleton_self w) hj
  | sending w k => exact canReceive_of_holding h hg (List.mem_singleton_self w) hj
  | finished => cases hj

/-- What `dispatch` has taken off the queue can be received. -/
theorem canReceive_of_held (h : Live s) (hmax : 0 < s.maxWorkers) (hj : j ∈ held s) :
    CanReceive s j := by
  have hspawning : ∀ s : Dispatcher, Live s → 0 < s.maxWorkers → s.dispatch = .spawning →
      CanReceive s s.job := by
    intro s h hmax hpc
    have hspawn : s.step .dispatch =
        some { s with dispatch := .receiving, goroutines := s.goroutines ++ [.printing] } := by
      simp only [Dispatcher.step, stepDispatch, hpc]
    refine CanReceive.of_step (a := .dispatch) trivial hspawn ?_
    exact canReceive_of_carries (p := .printing) (h.step (by simp) hspawn) hmax
      List.getElem?_concat_length (List.mem_singleton_self _)
  unfold held at hj
  split at hj
  · cases hj
  · rename_i j' hpc
    obtain rfl := List.mem_singleton.mp hj
    have hassign : s.step .dispatch = some { s with job := j, dispatch := .spawning } := by
      simp only [Dispatcher.step, stepDispatch, hpc]
    have hrec := hspawning _ (h.step (by simp) hassign) hmax rfl
    exact hrec.of_step (a := .dispatch) trivial hassign
  · rename_i hpc
    obtain rfl := List.mem_singleton.mp hj
    exact hspawning s h hmax hpc

/-- Every job that was taken off the queue and is not lost can be received. -/
theorem canReceive_of_conserved (h : Live s) (hmax : 0 < s.maxWorkers) (hcons : Conserved s)
    (hj : j ∈ s.accepted) (hq : j ∉ s.jobQueue) : CanReceive s j := by
  have hmem := hcons.subset hj
  rw [List.mem_append, List.mem_append, List.mem_append] at hmem
  obtain ((hqueue | hheld) | hcarried) | hreceived := hmem
  · exact absurd hqueue hq
  · exact canReceive_of_held h hmax hheld
  · obtain ⟨p, hp, hj⟩ := List.mem_flatMap.mp hcarried
    obtain ⟨g, hg⟩ := List.mem_iff_getElem?.mp hp
    exact canReceive_of_carries h hmax hg hj
  · exact ⟨[], s, by simp, rfl, hreceived⟩

end Receive

/-! ## The main theorem -/

theorem live_of_run {maxWorkers maxQueueSize : ℕ} {as : List Dispatcher.Action}
    (h : run Dispatcher.step (newDispatcher maxWorkers maxQueueSize) as = some s)
    (hquit : ∀ w, .quit w ∉ as) : Live s := by
  have hall : ∀ a ∈ as, ∀ w, a ≠ .quit w := by
    rintro a ha w rfl
    exact hquit w ha
  refine run_induction_along (I := fun _ s => Live s) ⟨handOff_newDispatcher _ _, ?_⟩ ?_ h
    (along_of_forall hall _)
  · simp [newDispatcher]
  · exact fun _ _ _ _ _ hs ha hstep => hs.step ha hstep

theorem maxWorkers_step {a : Dispatcher.Action} (ha : s.step a = some t) :
    t.maxWorkers = s.maxWorkers := by
  cases effect_of_step ha <;> rfl

theorem maxWorkers_of_run {as : List Dispatcher.Action}
    (h : run Dispatcher.step s as = some t) : t.maxWorkers = s.maxWorkers :=
  run_monotone (R := fun s t : Dispatcher => t.maxWorkers = s.maxWorkers) (fun _ => rfl)
    (fun _ _ _ hst htu => htu.trans hst) (fun _ _ _ ha => maxWorkers_step ha) h

/-- **Stopping and stranded jobs.** As long as no worker takes its quit signal, however
often `stop` is called, no goroutine holds the channel of a worker that has returned, and
every job that was taken off the queue and not overwritten in `job` can still be received.
After any quit signal that is taken, the run can go on such that a goroutine holds the
channel of the returned worker for ever.
SOURCE: handleMillionRequest/main.go:34-55, 85-94 -/
theorem stopping_strands (maxWorkers maxQueueSize : ℕ) (as : List Dispatcher.Action)
    (s : Dispatcher)
    (h : run Dispatcher.step (newDispatcher maxWorkers maxQueueSize) as = some s) :
    ((∀ w, .quit w ∉ as) →
      (∀ g w, ¬ Stranded s g w) ∧
      (0 < maxWorkers →
        Along Dispatcher.step NoOverwrite (newDispatcher maxWorkers maxQueueSize) as →
        ∀ j ∈ s.accepted, j ∉ s.jobQueue → CanReceive s j)) ∧
    ∀ w t, s.step (.quit w) = some t → ∃ bs u g, run Dispatcher.step t bs = some u ∧
      ∀ cs v, run Dispatcher.step u cs = some v → Stranded v g w := by
  refine ⟨fun hquit => ?_, fun w t hquit => ?_⟩
  · have hlive := live_of_run h hquit
    refine ⟨fun g w hstranded => ?_, fun hmax hsafe j hj hq => ?_⟩
    · exact hlive.running (List.mem_of_getElem? hstranded.stopped)
    · have hmax' : 0 < s.maxWorkers := (maxWorkers_of_run h) ▸ hmax
      exact canReceive_of_conserved hlive hmax' (conserved_of_run h hsafe) hj hq
  · obtain ⟨bs, u, g, hrun, hstranded⟩ := exists_stranded (handOff_of_run h) hquit
    exact ⟨bs, u, g, hrun, fun cs v hv => stranded_of_run hstranded hv⟩

/-- A worker was told to stop but has not taken the signal: the job that was just taken
off the queue can be received. -/
theorem stopping_strands_pending :
    ∃ s, run Dispatcher.step (newDispatcher 2 1)
        [.worker 0, .worker 1, .stop 0, .submit ⟨[97], 1⟩, .dispatch] = some s ∧
      CanReceive s ⟨[97], 1⟩ := by
  refine ⟨_, rfl, ?_⟩
  refine ((stopping_strands 2 1 [.worker 0, .worker 1, .stop 0, .submit ⟨[97], 1⟩, .dispatch]
    _ rfl).1 (by simp)).2 (by decide) ?_ _ (by decide) (by decide)
  refine (along_cons_of_step rfl).mpr ⟨by simp [NoOverwrite], ?_⟩
  refine (along_cons_of_step rfl).mpr ⟨by simp [NoOverwrite], ?_⟩
  refine (along_cons_of_step rfl).mpr ⟨by simp [NoOverwrite], ?_⟩
  refine (along_cons_of_step rfl).mpr ⟨by simp [NoOverwrite], ?_⟩
  refine (along_cons_of_step rfl).mpr ⟨?_, trivial⟩
  rintro - ⟨j, hj⟩
  cases hj

/-- Two workers publish their channels, the first one is stopped, and then a job arrives:
the goroutine gets the channel of the stopped worker and blocks for ever, while the second
worker waits for a job. -/
theorem stopped_worker_strands_job :
    ∃ s, run Dispatcher.step (newDispatcher 2 1)
        [.worker 0, .worker 1, .stop 0, .quit 0, .submit ⟨[97], 1⟩, .dispatch, .dispatch,
          .dispatch, .goroutine 0, .goroutine 0, .goroutine 0, .goroutine 0] = some s ∧
      s.goroutines = [.sending 0 ⟨[97], 1⟩] ∧ s.workers = [.stopped, .selecting] ∧
      s.received = [] ∧
      ∀ as t, run Dispatcher.step s as = some t → Stranded t 0 0 := by
  refine ⟨_, rfl, by decide, by decide, by decide, fun as t hrun => ?_⟩
  exact stranded_of_run ⟨⟨.sending 0 ⟨[97], 1⟩, by decide, by decide⟩, by decide⟩ hrun

end GolangSandbox.Analysis
