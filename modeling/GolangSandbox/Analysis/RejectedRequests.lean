import GolangSandbox.Program.WorkServer

/-!
# Rejected requests

A request gets one of three answers: 405 or 400 with no job, or a job (`requestHandler_cases`).
The last is the request that passes the checks of its method and its delay; its status is 201
unless its name is empty, when 400 is already written (`Nameless`). So the queue gets exactly
the jobs of the requests answered with 201 if and only if nobody sends a nameless one: without
such a request a step either answers with an error and leaves the dispatcher alone, or enqueues
and answers with 201 (`JobsOfCreated.step`); a nameless one is answered with 400 and enqueued.
-/

set_option autoImplicit false

namespace GolangSandbox.Analysis

open GolangSandbox.Model GolangSandbox.Program GolangSandbox.Program.WorkServer

variable {parseDuration : Bytes → Except Bytes ℤ} {s t : WorkServer} {r : Request}

/-! ## The answers -/

/-- The delay of the request is from 1 to 10 seconds. -/
def ValidDelay (parseDuration : Bytes → Except Bytes ℤ) (r : Request) : Prop :=
  ∃ delay, parseDuration r.delay = .ok delay ∧ second ≤ delay ∧ delay ≤ 10 * second

/-- The only check that the request does not pass is the one of its name. -/
def Nameless (parseDuration : Bytes → Except Bytes ℤ) (r : Request) : Prop :=
  r.method = text "POST" ∧ ValidDelay parseDuration r ∧ r.name = []

/-- The job that a request asks for. -/
def jobOf (parseDuration : Bytes → Except Bytes ℤ) (r : Request) : Option Job :=
  (parseDuration r.delay).toOption.map fun delay => ⟨r.name, delay⟩

/-- Answered with a status of the 4xx or 5xx kind. -/
def IsError (w : ResponseWriter) : Prop := ∃ code, w.status = some code ∧ 400 ≤ code

/-- A request that gets a job enqueued passed the checks of method and delay; its status says
whether it had a name. -/
theorem requestHandler_cases (parseDuration : Bytes → Except Bytes ℤ) (r : Request) :
    (∃ w, requestHandler parseDuration r = (w, none) ∧ IsError w ∧
      ¬ (r.method = text "POST" ∧ ValidDelay parseDuration r)) ∨
    ∃ w job, requestHandler parseDuration r = (w, some job) ∧ r.method = text "POST" ∧
      ValidDelay parseDuration r ∧ jobOf parseDuration r = some job ∧
      w.status = if r.name = [] then some 400 else some 201 := by
  unfold requestHandler
  split
  · rename_i hmethod
    exact .inl ⟨_, rfl, ⟨405, rfl, by decide⟩, fun h => hmethod h.1⟩
  · rename_i hmethod
    cases hparse : parseDuration r.delay with
    | error err =>
      refine .inl ⟨_, rfl, ⟨400, rfl, by decide⟩, ?_⟩
      rintro ⟨-, delay, hdelay, -⟩
      rw [hparse] at hdelay
      cases hdelay
    | ok delay =>
      by_cases hrange : delay < second ∨ 10 * second < delay
      · simp only [if_pos hrange]
        refine .inl ⟨_, rfl, ⟨400, rfl, by decide⟩, ?_⟩
        rintro ⟨-, delay', hdelay, hlow, hhigh⟩
        rw [hparse, Except.ok.injEq] at hdelay
        omega
      · simp only [if_neg hrange]
        rw [not_or, Int.not_lt, Int.not_lt] at hrange
        refine .inr ⟨_, _, rfl, not_not.mp hmethod, ⟨delay, hparse, hrange⟩, ?_, ?_⟩
        · rw [jobOf, hparse]
          rfl
        · split
          · rfl
          · rfl

/-- What handling a request does to the server. -/
theorem step_request {direct : Bool} (h : s.step parseDuration (.request r direct) = some t) :
    (∃ w, IsError w ∧ t = { s with answered := s.answered ++ [(r, w)] }) ∨
    ∃ w job d, r.method = text "POST" ∧ ValidDelay parseDuration r ∧
      jobOf parseDuration r = some job ∧
      (w.status = if r.name = [] then some 400 else some 201) ∧
      s.dispatcher.step (enqueue direct job) = some d ∧
      t = { dispatcher := d, answered := s.answered ++ [(r, w)] } := by
  unfold WorkServer.step at h
  obtain ⟨w, heq, hw, -⟩ | ⟨w, job, heq, hmethod, hdelay, hjob, hstatus⟩ :=
    requestHandler_cases parseDuration r
  · simp only [heq, Option.some.injEq] at h
    exact .inl ⟨w, hw, h.symm⟩
  · simp only [heq, Option.map_eq_some_iff] at h
    obtain ⟨d, hd, rfl⟩ := h
    exact .inr ⟨w, job, d, hmethod, hdelay, hjob, hstatus, hd, rfl⟩

theorem accepted_enqueue {d d' : Dispatcher} {direct : Bool} {job : Job}
    (h : d.step (enqueue direct job) = some d') : d'.accepted = d.accepted ++ [job] := by
  unfold enqueue at h
  split at h
  · cases Dispatcher.effect_of_step h
    rfl
  · cases Dispatcher.effect_of_step h
    rfl

theorem accepted_internal {d d' : Dispatcher} {a : Dispatcher.Action} (ha : isInternal a = true)
    (h : d.step a = some d') : d'.accepted = d.accepted := by
  cases Dispatcher.effect_of_step h with
  | submit => cases ha
  | handoff => cases ha
  | _ => rfl

/-! ## Requests that are not nameless -/

/-- The requests answered with 201. -/
def created (s : WorkServer) : List Request :=
  (s.answered.filter (·.2.status = some 201)).map Prod.fst

/-- The jobs enqueued are the ones of the requests answered with 201, and each of these passes
all checks. -/
structure JobsOfCreated (parseDuration : Bytes → Except Bytes ℤ) (s : WorkServer) : Prop where
  accepted : s.dispatcher.accepted.map some = (created s).map (jobOf parseDuration)
  valid : ∀ r ∈ created s, r.name ≠ [] ∧ ValidDelay parseDuration r

/-- A request answered with an error does nothing else. -/
def ErrorsOnly (parseDuration : Bytes → Except Bytes ℤ) (s : WorkServer) (a : Action) : Prop :=
  ∀ r direct t, a = .request r direct → s.step parseDuration a = some t →
    IsError (requestHandler parseDuration r).1 → t.dispatcher = s.dispatcher

/-- The action is not a nameless request. -/
def Named (parseDuration : Bytes → Except Bytes ℤ) (a : Action) : Prop :=
  ∀ r direct, a = .request r direct → ¬ Nameless parseDuration r

theorem created_answered {w : ResponseWriter} {d : Dispatcher} :
    created { dispatcher := d, answered := s.answered ++ [(r, w)] } =
      created s ++ if w.status = some 201 then [r] else [] := by
  unfold created
  rw [List.filter_append, List.map_append]
  split
  · rename_i h
    simp [h]
  · rename_i h
    simp [h]

theorem jobsOfCreated_start (maxWorkers maxQueueSize : ℕ) :
    JobsOfCreated parseDuration (start maxWorkers maxQueueSize) :=
  ⟨rfl, fun _ h => absurd h List.not_mem_nil⟩

/-- The step lemma. -/
theorem JobsOfCreated.step (h : JobsOfCreated parseDuration s) {a : Action}
    (hnamed : Named parseDuration a) (ha : s.step parseDuration a = some t) :
    JobsOfCreated parseDuration t := by
  cases a with
  | request r direct =>
    obtain ⟨w, ⟨code, hcode, hle⟩, rfl⟩ | ⟨w, job, d, hmethod, hdelay, hjob, hstatus, hd, rfl⟩ :=
      step_request ha
    · have hne : w.status ≠ some 201 := by
        rw [hcode]
        intro heq
        obtain rfl := Option.some.inj heq
        exact absurd hle (by decide)
      have hcreated := created_answered (s := s) (r := r) (w := w) (d := s.dispatcher)
      rw [if_neg hne, List.append_nil] at hcreated
      constructor
      · rw [hcreated]
        exact h.accepted
      · rw [hcreated]
        exact h.valid
    · have hname : r.name ≠ [] := fun hname => hnamed r direct rfl ⟨hmethod, hdelay, hname⟩
      rw [if_neg hname] at hstatus
      have hcreated := created_answered (s := s) (r := r) (w := w) (d := d)
      rw [if_pos hstatus] at hcreated
      constructor
      · rw [hcreated, accepted_enqueue hd, List.map_append, List.map_append, h.accepted]
        simp only [List.map_cons, List.map_nil, hjob]
      · intro r' hr'
        rw [hcreated, List.mem_append, List.mem_singleton] at hr'
        obtain hr' | rfl := hr'
        · exact h.valid r' hr'
        · exact ⟨hname, hdelay⟩
  | internal a =>
    simp only [WorkServer.step, Option.ite_none_right_eq_some, Option.map_eq_some_iff] at ha
    obtain ⟨hinternal, d, hd, rfl⟩ := ha
    exact ⟨(congrArg _ (accepted_internal hinternal hd)).trans h.accepted, h.valid⟩

/-- A request that is not nameless and answered with an error does nothing else. -/
theorem errorsOnly_of_named {a : Action} (hnamed : Named parseDuration a) :
    ErrorsOnly parseDuration s a := by
  rintro r direct t rfl ha ⟨code, hcode, hle⟩
  unfold WorkServer.step at ha
  obtain ⟨w, heq, hw, -⟩ | ⟨w, job, heq, hmethod, hdelay, hjob, hstatus⟩ :=
    requestHandler_cases parseDuration r
  · simp only [heq, Option.some.injEq] at ha
    rw [← ha]
  · have hname : r.name ≠ [] := fun hname => hnamed r direct rfl ⟨hmethod, hdelay, hname⟩
    rw [heq, hstatus, if_neg hname] at hcode
    obtain rfl := Option.some.inj hcode
    exact absurd hle (by decide)

/-- A nameless request is answered with an error and changes the dispatcher. -/
theorem not_errorsOnly {a : Action} (hnamed : ¬ Named parseDuration a)
    (ha : s.step parseDuration a = some t) : ¬ ErrorsOnly parseDuration s a := by
  unfold Named at hnamed
  push Not at hnamed
  obtain ⟨r, direct, rfl, hmethod, ⟨delay, hparse, hlow, hhigh⟩, hname⟩ := hnamed
  intro honly
  have hstep := ha
  unfold WorkServer.step at hstep
  obtain ⟨w, heq, -, hnot⟩ | ⟨w, job, heq, -, -, -, hstatus⟩ :=
    requestHandler_cases parseDuration r
  · exact hnot ⟨hmethod, delay, hparse, hlow, hhigh⟩
  · simp only [heq, Option.map_eq_some_iff] at hstep
    obtain ⟨d, hd, rfl⟩ := hstep
    rw [if_pos hname] at hstatus
    have hsame : d = s.dispatcher := honly r direct _ rfl ha ⟨400, by rw [heq, hstatus], by decide⟩
    have hlonger := congrArg List.length (accepted_enqueue hd)
    rw [hsame, List.length_append, List.length_singleton] at hlonger
    omega

/-! ## The main theorem -/

/-- **A rejected work request enqueues nothing**, unless it is rejected for its name. In every
run the jobs enqueued are the ones of the requests answered with 201, in order, each of these
has a name and a delay from 1 to 10 seconds, and a request answered with an error leaves the
dispatcher with its queue as it is, if and only if no request of the run is a `POST` with a
delay from 1 to 10 seconds and no name.
SOURCE: handleMillionRequest/main.go:95-121, 133-141 -/
theorem rejected_requests_iff (parseDuration : Bytes → Except Bytes ℤ)
    (maxWorkers maxQueueSize : ℕ) (as : List Action) (s : WorkServer)
    (h : run (WorkServer.step parseDuration) (start maxWorkers maxQueueSize) as = some s) :
    (JobsOfCreated parseDuration s ∧
      Along (WorkServer.step parseDuration) (ErrorsOnly parseDuration)
        (start maxWorkers maxQueueSize) as) ↔
    ∀ r direct, .request r direct ∈ as → ¬ Nameless parseDuration r := by
  constructor
  · rintro ⟨-, honly⟩
    have hnamed : Along (WorkServer.step parseDuration) (fun _ a => Named parseDuration a)
        (start maxWorkers maxQueueSize) as := by
      by_contra hnot
      obtain ⟨as₁, a, as₂, u, rfl, hu, -, ha⟩ := exists_first_violation h hnot
      rw [along_append hu] at honly
      obtain ⟨u', hu', hrest⟩ := run_append_eq_some.mp h
      obtain rfl := Option.some.inj (hu.symm.trans hu')
      obtain ⟨v, hv, -⟩ := run_cons_eq_some.mp hrest
      exact not_errorsOnly ha hv honly.2.1
    intro r direct hmem
    exact forall_of_along h hnamed _ hmem r direct rfl
  · intro hnone
    have hnamed : Along (WorkServer.step parseDuration) (fun _ a => Named parseDuration a)
        (start maxWorkers maxQueueSize) as := by
      refine along_of_forall (fun a hmem => ?_) _
      rintro r direct rfl
      exact hnone r direct hmem
    refine ⟨?_, hnamed.imp fun s a ha => errorsOnly_of_named ha⟩
    exact run_induction_along (I := fun _ s => JobsOfCreated parseDuration s)
      (jobsOfCreated_start _ _) (fun _ _ _ _ _ hs ha hstep => hs.step ha hstep) h hnamed

/-- `time.ParseDuration` on a digit followed by `s`. -/
def parseSeconds : Bytes → Except Bytes ℤ
  | [c, 115] => if 48 ≤ c ∧ c ≤ 57 then .ok ((c.toNat - 48) * second) else .error (text "invalid")
  | _ => .error (text "invalid")

theorem rejected_requests_named :
    let r : Request := ⟨text "POST", text "2s", text "a"⟩
    (∃ s, run (WorkServer.step parseSeconds) (start 1 1) [.request r false] = some s ∧
      s.dispatcher.accepted = [⟨text "a", 2 * second⟩] ∧ JobsOfCreated parseSeconds s) := by
  refine ⟨_, rfl, by decide, ?_⟩
  refine ((rejected_requests_iff parseSeconds 1 1
    [.request ⟨text "POST", text "2s", text "a"⟩ false] _ rfl).mpr ?_).1
  intro r direct hmem hnameless
  obtain ⟨rfl, -⟩ := Action.request.inj (List.mem_singleton.mp hmem)
  exact absurd hnameless.2.2 (by decide)

/-- A `POST` of one second without a name is answered with 400, and its job is enqueued. -/
theorem nameless_request_enqueued :
    ∃ s, run (WorkServer.step parseSeconds) (start 1 1)
        [.request ⟨text "POST", text "1s", []⟩ false] = some s ∧
      s.answered.map (·.2.status) = [some 400] ∧
      s.dispatcher.jobQueue = [⟨[], second⟩] ∧ ¬ JobsOfCreated parseSeconds s := by
  refine ⟨_, rfl, by decide, by decide, ?_⟩
  intro hjobs
  exact absurd hjobs.accepted (by decide)

end GolangSandbox.Analysis
