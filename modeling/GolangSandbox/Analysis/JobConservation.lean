import GolangSandbox.Model.Bookkeeping
import GolangSandbox.Model.Transition
import GolangSandbox.Program.Dispatcher

/-!
# Job conservation in the dispatcher

A job on its way from `jobQueue` to a worker is either held by `dispatch`, or it is in
the shared variable `job` with one goroutine that has not read it yet, or a goroutine
has read it and is sending it. As long as `dispatch` does not assign to `job` while
such a goroutine exists, the jobs accepted are exactly those in transit and those
received (`Conserved`).

An assignment at the wrong moment takes the job of the waiting goroutine out of the
program: it is in no place any more that anything reads (`Lost`). So a run that ends
with nothing in transit has delivered every job once if and only if it had no such
assignment.
-/

set_option autoImplicit false

namespace GolangSandbox.Analysis

open GolangSandbox.Model GolangSandbox.Program GolangSandbox.Program.Dispatcher

variable {s t : Dispatcher}

/-- The goroutine still has to read `job` for its send. -/
def Pending : Goroutine → Prop
  | .sending _ _ | .finished => False
  | _ => True

instance : DecidablePred Pending := fun p => by
  cases p <;> unfold Pending <;> infer_instance

/-- The step does not assign to `job` while a goroutine still has to read it. -/
def NoOverwrite (s : Dispatcher) (a : Dispatcher.Action) : Prop :=
  a = .dispatch → (∃ j, s.dispatch = .assigning j) → ∀ p ∈ s.goroutines, ¬ Pending p

/-- The jobs a goroutine will send, if `job` keeps its value. -/
def carries (job : Job) : Goroutine → List Job
  | .sending _ j => [j]
  | .finished => []
  | _ => [job]

/-- The job `dispatch` has taken off the queue and not yet given to a goroutine. -/
def held (s : Dispatcher) : List Job :=
  match s.dispatch with
  | .receiving => []
  | .assigning j => [j]
  | .spawning => [s.job]

/-- The jobs that workers have received, in order. -/
def receivedJobs (s : Dispatcher) : List Job := s.received.map Prod.snd

/-- The queue is empty, `dispatch` waits for the next job, and all its goroutines have
finished. -/
def Drained (s : Dispatcher) : Prop :=
  s.jobQueue = [] ∧ s.dispatch = .receiving ∧ ∀ p ∈ s.goroutines, p = .finished

instance (s : Dispatcher) : Decidable (Drained s) := by
  unfold Drained
  infer_instance

/-- The jobs accepted are the ones in transit and the ones received. -/
def Conserved (s : Dispatcher) : Prop :=
  s.accepted.Perm
    (s.jobQueue ++ held s ++ s.goroutines.flatMap (carries s.job) ++ receivedJobs s)

/-! ## Conservation -/

theorem conserved_newDispatcher (maxWorkers maxQueueSize : ℕ) :
    Conserved (newDispatcher maxWorkers maxQueueSize) := List.Perm.refl _

/-- The value of `job` matters only to goroutines that have not read it. -/
theorem carries_congr {gs : List Goroutine} (h : ∀ p ∈ gs, ¬ Pending p) (j j' : Job) :
    gs.flatMap (carries j) = gs.flatMap (carries j') := by
  apply List.flatMap_congr
  intro p hp
  have hp' := h p hp
  cases p with
  | sending w k => rfl
  | finished => rfl
  | _ => exact absurd trivial hp'

/-- Between two reads of `job` a goroutine carries the same job. -/
theorem Conserved.goOn (h : Conserved s) {g : ℕ} {p p' : Goroutine}
    (hg : s.goroutines[g]? = some p) (hsame : carries s.job p' = carries s.job p) :
    Conserved (s.goOn g p') := by
  have hflat := flatMap_set_eq (carries s.job) hg hsame
  unfold Conserved at h ⊢
  show s.accepted.Perm (s.jobQueue ++ held s ++ (s.goroutines.set g p').flatMap (carries s.job) ++
    receivedJobs s)
  rw [hflat]
  exact h

/-- A worker receives the job a goroutine sends. -/
theorem Conserved.send (h : Conserved s) {g w : ℕ} {j : Job} (workers : List Worker)
    (hg : s.goroutines[g]? = some (.sending w j)) :
    Conserved (({ s with
      workers := workers
      received := s.received ++ [(w, j)] } : Dispatcher).goOn g .finished) := by
  have hflat := flatMap_set_perm (y := .finished) (carries s.job) hg
  simp only [carries, List.append_nil] at hflat
  have hswap : ((s.goroutines.set g .finished).flatMap (carries s.job) ++ [j] ++
      receivedJobs s).Perm
      ((s.goroutines.set g .finished).flatMap (carries s.job) ++ (receivedJobs s ++ [j])) := by
    rw [List.append_assoc]
    exact List.Perm.append_left _ List.perm_append_comm
  unfold Conserved at h ⊢
  show s.accepted.Perm (s.jobQueue ++ held s ++
    (s.goroutines.set g .finished).flatMap (carries s.job) ++
      (s.received ++ [(w, j)]).map Prod.snd)
  rw [List.map_append, List.append_assoc]
  refine (h.trans ?_).trans (List.Perm.append_left _ hswap)
  rw [List.append_assoc]
  exact List.Perm.append_left _ (hflat.symm.append_right _)

/-- The step lemma of conservation. -/
theorem Conserved.step (h : Conserved s) {a : Dispatcher.Action} (hsafe : NoOverwrite s a)
    (ha : s.step a = some t) : Conserved t := by
  cases effect_of_step ha with
  | @submit j hroom =>
    unfold Conserved at h ⊢
    simp only [List.append_assoc] at h
    have hinsert := perm_insert h j
    simp only [← List.append_assoc] at hinsert
    exact hinsert
  | @handoff j hpc hq =>
    unfold Conserved at h ⊢
    simp only [held, hpc, hq, List.nil_append] at h ⊢
    rw [← List.nil_append (List.flatMap _ _ ++ _)] at h
    exact perm_insert h j
  | receive hpc hq =>
    unfold Conserved at h ⊢
    refine h.trans ?_
    simp only [held, hpc, hq, List.append_nil, receivedJobs]
    refine (List.Perm.append_right _ ?_).append_right _
    exact (List.perm_append_singleton _ _).symm
  | @assign j hpc =>
    -- Nobody reads `job` any more, so the value it had does not matter.
    have hnone := hsafe rfl ⟨j, hpc⟩
    unfold Conserved at h ⊢
    simp only [held, hpc] at h
    rw [carries_congr hnone s.job j] at h
    exact h
  | spawn hpc =>
    unfold Conserved at h ⊢
    refine h.trans ?_
    simp only [held, hpc, List.append_nil, List.flatMap_append, receivedJobs]
    refine List.Perm.append_right _ ?_
    rw [List.append_assoc]
    exact List.Perm.append_left _ List.perm_append_comm
  | print hg => exact h.goOn hg rfl
  | @fetch g w workerPool hg hpool =>
    have h' : Conserved { s with workerPool := workerPool } := h
    exact h'.goOn hg rfl
  | announce hg => exact h.goOn hg rfl
  | load hg => exact h.goOn hg rfl
  | send hg hw => exact h.send _ hg
  | publish hw hroom => exact h
  | complete hw => exact h
  | stop => exact h
  | quit hstop hw => exact h

theorem conserved_of_run {maxWorkers maxQueueSize : ℕ} {as : List Dispatcher.Action}
    (h : run Dispatcher.step (newDispatcher maxWorkers maxQueueSize) as = some s)
    (hsafe : Along Dispatcher.step NoOverwrite (newDispatcher maxWorkers maxQueueSize) as) :
    Conserved s :=
  run_induction_along (I := fun _ s => Conserved s) (conserved_newDispatcher _ _)
    (fun _ _ _ _ _ hs ha hstep => hs.step ha hstep) h hsafe

/-- With distinct jobs, conservation says that no job is received twice. -/
theorem Conserved.count_le_one (h : Conserved s) (hdistinct : s.accepted.Nodup) (j : Job) :
    (receivedJobs s).count j ≤ 1 := by
  have hcount := h.count_eq j
  have hle := List.nodup_iff_count_le_one.mp hdistinct j
  rw [List.count_append] at hcount
  omega

/-- When nothing is in transit, it says that every job was received. -/
theorem Conserved.perm_of_drained (h : Conserved s) (hdrained : Drained s) :
    s.accepted.Perm (receivedJobs s) := by
  obtain ⟨hq, hpc, hfinished⟩ := hdrained
  have hnone : s.goroutines.flatMap (carries s.job) = [] := by
    rw [List.flatMap_eq_nil_iff]
    intro p hp
    rw [hfinished p hp]
    rfl
  unfold Conserved at h
  rw [hq, held, hpc, hnone] at h
  exact h

theorem Conserved.count_eq_one (h : Conserved s) (hdistinct : s.accepted.Nodup)
    (hdrained : Drained s) {j : Job} (hj : j ∈ s.accepted) : (receivedJobs s).count j = 1 := by
  rw [← (h.perm_of_drained hdrained).count_eq]
  exact List.count_eq_one_of_mem hdistinct hj

/-! ## A lost job -/

/-- The job was accepted and is in no place that anything still reads. -/
structure Lost (j : Job) (s : Dispatcher) : Prop where
  accepted : j ∈ s.accepted
  queue : j ∉ s.jobQueue
  job : s.job ≠ j
  held : s.dispatch ≠ .assigning j
  sending : ∀ w, .sending w j ∉ s.goroutines
  received : j ∉ receivedJobs s

/-- Accepted jobs stay accepted, in order. -/
theorem accepted_mono {a : Dispatcher.Action} (ha : s.step a = some t) :
    s.accepted <+: t.accepted := by
  cases effect_of_step ha with
  | submit hroom => exact List.prefix_append _ _
  | handoff hpc hq => exact List.prefix_append _ _
  | _ => exact List.prefix_refl _

/-- A lost job stays lost when a goroutine goes on without sending it. -/
theorem Lost.goOn {j : Job} (h : Lost j s) (g : ℕ) {p : Goroutine}
    (hp : ∀ w, p ≠ .sending w j) : Lost j (s.goOn g p) := by
  refine ⟨h.accepted, h.queue, h.job, h.held, fun w hmem => ?_, h.received⟩
  obtain hmem | hmem := List.mem_or_eq_of_mem_set hmem
  · exact h.sending w hmem
  · exact hp w hmem.symm

/-- A lost job stays lost, because nobody puts it on the queue again. -/
theorem Lost.step {j : Job} (h : Lost j s) {a : Dispatcher.Action}
    (hdistinct : t.accepted.Nodup) (ha : s.step a = some t) : Lost j t := by
  have haccepted := (accepted_mono ha).subset h.accepted
  have hfresh : ∀ j', t.accepted = s.accepted ++ [j'] → j' ≠ j := by
    rintro j' heq rfl
    rw [heq, List.nodup_append] at hdistinct
    exact hdistinct.2.2 _ h.accepted _ (List.mem_singleton_self _) rfl
  cases effect_of_step ha with
  | @submit j' hroom =>
    refine ⟨haccepted, ?_, h.job, h.held, h.sending, h.received⟩
    rw [List.mem_append, List.mem_singleton, not_or]
    exact ⟨h.queue, (hfresh j' rfl).symm⟩
  | @handoff j' hpc hq =>
    refine ⟨haccepted, h.queue, h.job, ?_, h.sending, h.received⟩
    intro hpc
    exact hfresh j' rfl (DispatchPc.assigning.inj hpc)
  | receive hpc hq =>
    have hqueue := h.queue
    rw [hq, List.mem_cons, not_or] at hqueue
    refine ⟨haccepted, hqueue.2, h.job, ?_, h.sending, h.received⟩
    intro hpc
    exact hqueue.1 (DispatchPc.assigning.inj hpc).symm
  | assign hpc =>
    refine ⟨haccepted, h.queue, ?_, by simp, h.sending, h.received⟩
    rintro rfl
    exact h.held hpc
  | spawn hpc =>
    refine ⟨haccepted, h.queue, h.job, by simp, fun w => ?_, h.received⟩
    rw [List.mem_append, List.mem_singleton, not_or]
    exact ⟨h.sending w, by simp⟩
  | print hg => exact h.goOn _ (by simp)
  | @fetch g w workerPool hg hpool =>
    have h' : Lost j { s with workerPool := workerPool } :=
      ⟨h.accepted, h.queue, h.job, h.held, h.sending, h.received⟩
    exact h'.goOn g (by simp)
  | announce hg => exact h.goOn _ (by simp)
  | load hg =>
    refine h.goOn _ ?_
    intro w hsending
    exact h.job (Goroutine.sending.inj hsending).2
  | @send g w j' hg hw =>
    have hne : j ≠ j' := by
      rintro rfl
      exact h.sending w (List.mem_of_getElem? hg)
    have h' : Lost j { s with
        workers := s.workers.set w (.running j')
        received := s.received ++ [(w, j')] } := by
      refine ⟨h.accepted, h.queue, h.job, h.held, h.sending, ?_⟩
      rw [receivedJobs, List.map_append, List.mem_append, not_or]
      exact ⟨h.received, by simpa using hne⟩
    exact h'.goOn g (by simp)
  | publish hw hroom =>
    exact ⟨haccepted, h.queue, h.job, h.held, h.sending, h.received⟩
  | complete hw => exact ⟨haccepted, h.queue, h.job, h.held, h.sending, h.received⟩
  | stop => exact ⟨haccepted, h.queue, h.job, h.held, h.sending, h.received⟩
  | quit hstop hw => exact ⟨haccepted, h.queue, h.job, h.held, h.sending, h.received⟩

theorem lost_of_run {j : Job} {as : List Dispatcher.Action} (hj : Lost j s)
    (h : run Dispatcher.step s as = some t) (hdistinct : t.accepted.Nodup) : Lost j t := by
  refine run_induction (I := fun _ t => t.accepted.Nodup → Lost j t) (fun _ => hj) ?_ h hdistinct
  intro as t a u _ ht ha hu
  exact (ht ((accepted_mono ha).sublist.nodup hu)).step hu ha

/-- **An assignment while a goroutine is still to read `job` loses a job.** -/
theorem lost_of_overwrite (h : Conserved s) (hdistinct : s.accepted.Nodup)
    {a : Dispatcher.Action} (hbad : ¬ NoOverwrite s a) (ha : s.step a = some t) :
    Lost s.job t := by
  unfold NoOverwrite at hbad
  simp only [Classical.not_imp, not_forall, not_not] at hbad
  obtain ⟨rfl, ⟨j, hpc⟩, p, hp, hpending⟩ := hbad
  cases effect_of_step ha with
  | receive hpc' hq =>
    rw [hpc] at hpc'
    cases hpc'
  | spawn hpc' =>
    rw [hpc] at hpc'
    cases hpc'
  | assign hpc' =>
    obtain rfl := DispatchPc.assigning.inj (hpc.symm.trans hpc')
    -- The job is in `job` only, and only for this goroutine.
    have hcarries : s.job ∈ carries s.job p := by
      cases p with
      | sending w k => exact hpending.elim
      | finished => exact hpending.elim
      | _ => exact List.mem_singleton_self _
    have hflat : 0 < (s.goroutines.flatMap (carries s.job)).count s.job :=
      List.count_pos_iff.mpr (List.mem_flatMap.mpr ⟨p, hp, hcarries⟩)
    have hcount := h.count_eq s.job
    have hle := List.nodup_iff_count_le_one.mp hdistinct s.job
    simp only [held, hpc, List.count_append] at hcount
    have haccepted : 0 < s.accepted.count s.job := by omega
    have hqueue : s.jobQueue.count s.job = 0 := by omega
    have hreceived : (receivedJobs s).count s.job = 0 := by omega
    refine ⟨List.count_pos_iff.mp haccepted, List.count_eq_zero.mp hqueue, ?_, by simp,
      fun w hmem => ?_, List.count_eq_zero.mp hreceived⟩
    · intro heq
      have hone : [j].count s.job = 1 := by rw [← heq, List.count_singleton_self]
      omega
    · have hne : Goroutine.sending w s.job ≠ p := by
        rintro rfl
        exact hpending
      have htwo := two_le_count_flatMap hp hmem hne hcarries (List.mem_singleton_self s.job)
      omega

/-! ## The main theorem -/

/-- **Job conservation.** In a run in which `dispatch` never assigns to `job` while one of
its goroutines still has to read it, no job is received twice, and whenever nothing is
in transit every job has been received exactly once. A run that ends with nothing in
transit and every job received exactly once is such a run.
SOURCE: handleMillionRequest/main.go:34-49, 76-94 -/
theorem job_conservation (maxWorkers maxQueueSize : ℕ) (as : List Dispatcher.Action)
    (t : Dispatcher)
    (h : run Dispatcher.step (newDispatcher maxWorkers maxQueueSize) as = some t)
    (hdistinct : t.accepted.Nodup) :
    (Along Dispatcher.step NoOverwrite (newDispatcher maxWorkers maxQueueSize) as →
      (∀ j, (receivedJobs t).count j ≤ 1) ∧
        (Drained t → ∀ j ∈ t.accepted, (receivedJobs t).count j = 1)) ∧
    (Drained t → (∀ j ∈ t.accepted, (receivedJobs t).count j = 1) →
      Along Dispatcher.step NoOverwrite (newDispatcher maxWorkers maxQueueSize) as) := by
  constructor
  · intro hsafe
    have ht := conserved_of_run h hsafe
    exact ⟨ht.count_le_one hdistinct, fun hdrained j hj => ht.count_eq_one hdistinct hdrained hj⟩
  · intro hdrained hall
    by_contra hbad
    obtain ⟨as₁, a, as₂, s, rfl, hs, hsafe, ha⟩ := exists_first_violation h hbad
    obtain ⟨s', hs', hrest⟩ := run_append_eq_some.mp h
    rw [hs, Option.some.injEq] at hs'
    subst hs'
    obtain ⟨u, hu, hrun⟩ := run_cons_eq_some.mp hrest
    have hmono : s.accepted <+: t.accepted :=
      run_monotone (R := fun s t : Dispatcher => s.accepted <+: t.accepted)
        (fun s => List.prefix_refl _) (fun _ _ _ => List.IsPrefix.trans)
        (fun _ _ _ => accepted_mono) hrest
    have hlost := lost_of_overwrite (conserved_of_run hs hsafe)
      (hmono.sublist.nodup hdistinct) ha hu
    have hlost' := lost_of_run hlost hrun hdistinct
    have hone := hall s.job hlost'.accepted
    rw [List.count_eq_zero.mpr hlost'.received] at hone
    cases hone

/-- Two jobs, with a second assignment only when the first job is on its way to a worker. -/
def patientRun (j₁ j₂ : Job) : List Dispatcher.Action :=
  [.submit j₁, .submit j₂, .dispatch, .dispatch, .dispatch, .worker 0, .goroutine 0, .goroutine 0,
    .goroutine 0, .goroutine 0, .dispatch, .dispatch, .dispatch, .goroutine 0, .worker 0,
    .worker 0, .goroutine 1, .goroutine 1, .goroutine 1, .goroutine 1, .goroutine 1]

/-- Two jobs; the second is assigned before the goroutine of the first reads `job`. -/
def hastyRun (j₁ j₂ : Job) : List Dispatcher.Action :=
  [.submit j₁, .submit j₂, .dispatch, .dispatch, .dispatch, .dispatch, .dispatch, .dispatch,
    .worker 0, .goroutine 0, .goroutine 0, .goroutine 0, .goroutine 0, .goroutine 0, .worker 0,
    .worker 0, .goroutine 1, .goroutine 1, .goroutine 1, .goroutine 1, .goroutine 1]

theorem job_conservation_patient :
    ∃ t, run Dispatcher.step (newDispatcher 1 2) (patientRun ⟨[97], 1⟩ ⟨[98], 1⟩) = some t ∧
      Along Dispatcher.step NoOverwrite (newDispatcher 1 2) (patientRun ⟨[97], 1⟩ ⟨[98], 1⟩) := by
  refine ⟨_, rfl, ?_⟩
  refine (job_conservation 1 2 (patientRun ⟨[97], 1⟩ ⟨[98], 1⟩) _ rfl ?_).2 ?_ ?_
  · decide
  · decide
  · decide

theorem hasty_dispatch_loses_job :
    ∃ t, run Dispatcher.step (newDispatcher 1 2) (hastyRun ⟨[97], 1⟩ ⟨[98], 1⟩) = some t ∧
      t.accepted = [⟨[97], 1⟩, ⟨[98], 1⟩] ∧ Drained t ∧
      t.received = [(0, ⟨[98], 1⟩), (0, ⟨[98], 1⟩)] := by
  refine ⟨_, rfl, ?_⟩
  decide

end GolangSandbox.Analysis
