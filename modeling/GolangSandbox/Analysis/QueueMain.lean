import GolangSandbox.Analysis.QueueShutdown
import GolangSandbox.Model.Termination
import GolangSandbox.Program.QueueMain

/-!
# The end of the program with the condition-variable queue

Whenever `main` calls `Terminated`, all producers and all consumer loops come to their end if
they are given the time. Once the queue is terminated nobody is parked any more, so a consumer
gets the mutex, and gets an item or the zero `Data` after which it leaves. `workLoad` counts a
section for each item to be made, one for its removal, one for a consumer that it wakes, and
the return of `main`.

The items have nonzero values, so a loop leaves only when the queue is terminated and empty.
If all items were made by then the queue stays empty, and so everything has been consumed at
the end. Otherwise the items that are made after the last loop has left stay in the buffer.

The process does not wait for any of this. It ends when `main` returns, and then the items that
are still to be made are not made any more (`queue_main_completes`, its first half). What the
goroutines come to is said of the schedules in which `main` returns after they have stopped.
-/

set_option autoImplicit false

namespace GolangSandbox.Analysis

open GolangSandbox.Model GolangSandbox.Program GolangSandbox.Program.QueueMain

variable {items producers consumers : ℕ} {s t : QueueMain} {q : Queue}

/-- A consumer loop that is awake has a section to run. -/
def loopSteps : Consumer → ℕ
  | .parked _ => 0
  | x => if Queue.exited x then 0 else 1

/-- The sections that are still to run. -/
def workLoad (items : ℕ) (s : QueueMain) : ℕ :=
  3 * load (items - ·) s.producers + s.queue.buffer.length +
    (if s.queue.terminated then 0 else s.queue.consumers.length + 1) +
    load loopSteps s.queue.consumers + (if s.returned then 0 else 1)

/-- All items have been made. -/
def AllMade (items : ℕ) (s : QueueMain) : Prop := ∀ j ∈ s.producers, j = items

theorem loopSteps_le_one (x : Consumer) : loopSteps x ≤ 1 := by
  unfold loopSteps
  split
  · exact Nat.zero_le _
  · split
    · exact Nat.zero_le _
    · exact Nat.le_refl _

/-- The consumer that runs a section had one to run. -/
theorem loopSteps_of_entering {a : Queue.Action} {c : ℕ} {x : Consumer}
    (ha : Queue.Entering a c x) (hstay : Queue.exited x = false) : loopSteps x = 1 := by
  cases ha with
  | call => simp [loopSteps, hstay]
  | wake => rfl

/-- An action is that of one consumer. -/
theorem entering_unique {a : Queue.Action} {c c' : ℕ} {x x' : Consumer}
    (ha : Queue.Entering a c x) (ha' : Queue.Entering a c' x') (hc : q.consumers[c]? = some x)
    (hc' : q.consumers[c']? = some x') : c' = c ∧ x' = x := by
  have heq : c' = c := by
    cases ha <;> cases ha' <;> rfl
  subst heq
  exact ⟨rfl, Option.some.inj (hc'.symm.trans hc)⟩

theorem nextData_ne_zero (p j : ℕ) : (nextData p j).value ≠ 0 := by
  unfold nextData
  simp only
  omega

/-! ## The invariant -/

/-- The invariant of the program. -/
structure Paced (items producers consumers : ℕ) (s : QueueMain) : Prop where
  fifo : Fifo s.queue
  nonzero : ∀ d ∈ s.queue.buffer, d.value ≠ 0
  ended : ∀ x ∈ s.queue.consumers, Queue.exited x = true → s.queue.terminated = true
  awake : s.queue.terminated = true → ∀ k, .parked k ∉ s.queue.consumers
  progress : ∀ j ∈ s.producers, j ≤ items
  count : s.queue.produced.length = load id s.producers
  makers : s.producers.length = producers
  loops : s.queue.consumers.length = consumers
  leaving : s.returned = true → s.queue.terminated = true

theorem paced_newQueueMain (items producers consumers : ℕ) :
    Paced items producers consumers (newQueueMain producers consumers) where
  fifo := rfl
  nonzero d hd := by cases hd
  ended x hx hexit := by
    obtain rfl := List.eq_of_mem_replicate hx
    cases hexit
  awake hdone := by cases hdone
  progress j hj := by
    rw [List.eq_of_mem_replicate hj]
    exact Nat.zero_le _
  count := by
    show 0 = load id (List.replicate producers 0)
    induction producers with
    | zero => rfl
    | succ n ih =>
      rw [List.replicate_succ, load_cons, ← ih]
      rfl
  makers := List.length_replicate
  loops := List.length_replicate
  leaving h := by cases h

/-- A consumer that goes on outside `Wait`. -/
theorem parked_set {c : ℕ} {y : Consumer} (h : ∀ k, .parked k ∉ q.consumers)
    (hy : ∀ k, y ≠ .parked k) (k : Unit) : .parked k ∉ q.consumers.set c y := by
  intro hmem
  obtain hmem | heq := List.mem_or_eq_of_mem_set hmem
  · exact h k hmem
  · exact hy k heq.symm

/-- A producer puts in its next item. -/
theorem Paced.produce (h : Paced items producers consumers s) {p j : ℕ} {wake : Option ℕ}
    (hp : s.producers[p]? = some j) (hj : j < items)
    (hqueue : s.queue.step (.produce (nextData p j) wake) = some q) :
    Paced items producers consumers
        { s with queue := q, producers := s.producers.set p (j + 1) } ∧
      workLoad items { s with queue := q, producers := s.producers.set p (j + 1) } <
        workLoad items s := by
  have hfifo := h.fifo.step hqueue
  have hsum := load_set (f := id) hp (j + 1)
  have hleft := load_set (f := (items - ·)) hp (j + 1)
  cases Queue.effect_of_step hqueue with
  | @produce _ _ woken hsignal =>
    have hwoken := load_signal (f := loopSteps) (fun _ => Nat.le_refl 1) hsignal
    have hsame := Thread.map_signal Queue.exited (fun _ => rfl) hsignal
    have hended := (forall_exited hsame (· = true → s.queue.terminated = true)).mpr h.ended
    refine ⟨⟨hfifo, fun d hd => ?_, hended, fun hdone k => ?_, fun j' hj' => ?_, ?_,
      List.length_set.trans h.makers, hwoken.2.trans h.loops, h.leaving⟩, ?_⟩
    · obtain hd | hd := List.mem_append.mp hd
      · exact h.nonzero d hd
      · rw [List.mem_singleton.mp hd]
        exact nextData_ne_zero p j
    · obtain ⟨-, rfl⟩ | ⟨i, k', hi, -⟩ := Thread.signal_cases hsignal
      · exact h.awake hdone k
      · exact absurd (List.mem_of_getElem? hi) (h.awake hdone k')
    · obtain hmem | rfl := List.mem_or_eq_of_mem_set hj'
      · exact h.progress j' hmem
      · exact hj
    · have hcount := h.count
      show (s.queue.produced ++ [nextData p j]).length = load id (s.producers.set p (j + 1))
      rw [List.length_append, List.length_singleton]
      simp only [id_eq] at hsum
      omega
    · simp only [workLoad, List.length_append, List.length_singleton, hwoken.2]
      omega
  | park ha => cases ha
  | finish ha => cases ha
  | remove ha => cases ha

/-- A consumer gets the mutex. -/
theorem Paced.consume (h : Paced items producers consumers s) {a : Queue.Action} {c : ℕ}
    {x : Consumer} (ha : Queue.Entering a c x) (hc : s.queue.consumers[c]? = some x)
    (hstay : Queue.exited x = false) (hqueue : s.queue.step a = some q) :
    Paced items producers consumers { s with queue := q } ∧
      workLoad items { s with queue := q } < workLoad items s := by
  have hfifo := h.fifo.step hqueue
  have hone := loopSteps_of_entering ha hstay
  cases Queue.effect_of_step hqueue with
  | produce hsignal => cases ha
  | park ha' hc' hbuffer hopen =>
    obtain ⟨rfl, rfl⟩ := entering_unique ha ha' hc hc'
    obtain ⟨hback, -⟩ := exited_of_set hc (y := .parked ()) rfl
    have hset := load_set (f := loopSteps) hc (.parked ())
    have hzero : loopSteps (.parked ()) = 0 := rfl
    refine ⟨⟨hfifo, h.nonzero, fun z hz hexit => ?_, fun hdone => ?_, h.progress, h.count,
      h.makers, List.length_set.trans h.loops, h.leaving⟩, ?_⟩
    · obtain ⟨z', hz', hexit'⟩ := hback z hz hexit
      exact h.ended z' hz' hexit'
    · rw [hopen] at hdone
      cases hdone
    · simp only [workLoad, List.length_set]
      omega
  | finish ha' hc' hbuffer hdone =>
    obtain ⟨rfl, rfl⟩ := entering_unique ha ha' hc hc'
    have hset := load_set (f := loopSteps) hc (.running (some ⟨0⟩))
    have hzero : loopSteps (.running (some ⟨0⟩)) = 0 := rfl
    refine ⟨⟨hfifo, h.nonzero, fun _ _ _ => hdone, fun hdone => ?_, h.progress, h.count,
      h.makers, List.length_set.trans h.loops, h.leaving⟩, ?_⟩
    · exact parked_set (h.awake hdone) (by simp)
    · simp only [workLoad, List.length_set]
      omega
  | @remove _ _ _ data buffer ha' hc' hbuffer =>
    obtain ⟨rfl, rfl⟩ := entering_unique ha ha' hc hc'
    have hdata := h.nonzero data (hbuffer ▸ List.mem_cons_self)
    have hloop : Queue.exited (.running (some data)) = false := by
      simpa [Queue.exited] using hdata
    obtain ⟨hback, -⟩ := exited_of_set hc hloop
    have hset := load_set (f := loopSteps) hc (.running (some data))
    have hagain : loopSteps (.running (some data)) = 1 := by simp [loopSteps, hloop]
    refine ⟨⟨hfifo, fun d hd => ?_, fun z hz hexit => ?_, fun hdone => ?_, h.progress, h.count,
      h.makers, List.length_set.trans h.loops, h.leaving⟩, ?_⟩
    · exact h.nonzero d (hbuffer ▸ List.mem_cons_of_mem _ hd)
    · obtain ⟨z', hz', hexit'⟩ := hback z hz hexit
      exact h.ended z' hz' hexit'
    · exact parked_set (h.awake hdone) (by simp)
    · simp only [workLoad, List.length_set, hbuffer, List.length_cons]
      omega
  | setTerminated => cases ha

/-- `main` calls `Terminated`. -/
theorem Paced.terminate (h : Paced items producers consumers s)
    (hopen : s.queue.terminated = false) :
    Paced items producers consumers { s with queue := s.queue.setTerminated } ∧
      workLoad items { s with queue := s.queue.setTerminated } < workLoad items s := by
  have hwoken := load_broadcast loopSteps_le_one s.queue.consumers
  have hlength : (Thread.broadcast s.queue.consumers).length = s.queue.consumers.length :=
    List.length_map _
  refine ⟨⟨h.fifo, h.nonzero, fun _ _ _ => rfl, fun _ k => ?_, h.progress, h.count, h.makers,
    hlength.trans h.loops, fun _ => rfl⟩, ?_⟩
  · exact Thread.notMem_broadcast _ k
  · simp only [workLoad, Queue.setTerminated, hopen, Bool.false_eq_true, if_false, if_true]
    omega

/-- `main` returns. -/
theorem Paced.exit (h : Paced items producers consumers s)
    (hdone : s.queue.terminated = true) (hopen : s.returned = false) :
    Paced items producers consumers { s with returned := true } ∧
      workLoad items { s with returned := true } < workLoad items s := by
  refine ⟨⟨h.fifo, h.nonzero, h.ended, h.awake, h.progress, h.count, h.makers, h.loops,
    fun _ => hdone⟩, ?_⟩
  simp only [workLoad, hopen, Bool.false_eq_true, if_false, if_true]
  omega

/-- **The step lemma**, with the measure. -/
theorem Paced.step (h : Paced items producers consumers s) (he : Effect items s t) :
    Paced items producers consumers t ∧ workLoad items t < workLoad items s := by
  cases he with
  | produce hp hj hqueue => exact h.produce hp hj hqueue
  | consume ha hc hstay hqueue => exact h.consume ha hc hstay hqueue
  | terminate hopen => exact h.terminate hopen
  | exit hdone hopen => exact h.exit hdone hopen

/-! ## Nothing is stranded when production is over -/

/-- All items have been made, and a loop has left only when none of them was left. -/
def Clearing (items : ℕ) (s : QueueMain) : Prop :=
  AllMade items s ∧ ((∃ x ∈ s.queue.consumers, Queue.exited x = true) → s.queue.buffer = [])

theorem Clearing.step (h : Clearing items s) (hs : Paced items producers consumers s)
    (he : Effect items s t) : Clearing items t := by
  obtain ⟨hmade, hleft⟩ := h
  cases he with
  | @produce p j wake queue hp hj hqueue =>
    have heq := hmade j (List.mem_of_getElem? hp)
    omega
  | @consume a c x queue ha hc hstay hqueue =>
    refine ⟨hmade, ?_⟩
    cases Queue.effect_of_step hqueue with
    | produce hsignal => cases ha
    | park ha' hc' hbuffer hopen => exact fun _ => hbuffer
    | finish ha' hc' hbuffer hdone => exact fun _ => hbuffer
    | @remove _ _ _ data buffer ha' hc' hbuffer =>
      -- Whoever had left would have left an empty buffer.
      have hdata := hs.nonzero data (hbuffer ▸ List.mem_cons_self)
      have hloop : Queue.exited (.running (some data)) = false := by
        simpa [Queue.exited] using hdata
      rintro ⟨z, hz, hexit⟩
      obtain ⟨z', hz', hexit'⟩ := (exited_of_set hc' hloop).1 z hz hexit
      have hempty := hleft ⟨z', hz', hexit'⟩
      rw [hbuffer] at hempty
      cases hempty
    | setTerminated => cases ha
  | terminate hopen =>
    refine ⟨hmade, ?_⟩
    rintro ⟨z, hz, hexit⟩
    have hsame := Thread.map_broadcast Queue.exited (fun _ => rfl) s.queue.consumers
    have hmem : true ∈ s.queue.consumers.map Queue.exited :=
      hsame ▸ List.mem_map.mpr ⟨z, hz, hexit⟩
    obtain ⟨z', hz', hexit'⟩ := List.mem_map.mp hmem
    exact hleft ⟨z', hz', hexit'⟩
  | exit hdone hopen => exact ⟨hmade, hleft⟩

/-! ## The end -/

/-- Where no goroutine moves before `main` returns, `Terminated` was called, all items were
made and all loops have left. -/
theorem Paced.ended_of_stuck (h : Paced items producers consumers s) (hopen : s.returned = false)
    (hstuck : Stuck (only (· ≠ .exit) (QueueMain.step items)) s) :
    s.queue.terminated = true ∧ AllMade items s ∧
      ∀ x ∈ s.queue.consumers, Queue.exited x = true := by
  have hquiet := stuck_only.mp hstuck
  have hdone : s.queue.terminated = true := by
    by_contra hrunning
    have hnone := hquiet .setTerminated (by simp)
    simp only [QueueMain.step, hopen, hrunning, Bool.false_eq_true, if_false] at hnone
    cases hnone
  refine ⟨hdone, fun j hj => ?_, fun x hx => ?_⟩
  · by_contra hne
    have hlt : j < items := Nat.lt_of_le_of_ne (h.progress j hj) hne
    obtain ⟨p, hp⟩ := List.mem_iff_getElem?.mp hj
    obtain ⟨wake, woken, hsignal⟩ := Thread.exists_signal s.queue.consumers
    have hnone := hquiet (.produce p wake) (by simp)
    simp only [QueueMain.step, hopen, Bool.false_eq_true, if_false, hp, Option.bind_some, hlt,
      if_true, Queue.loopStep, Queue.step, Queue.produce, hsignal, Option.map_some] at hnone
    cases hnone
  · by_contra hstay
    obtain ⟨c, hc⟩ := List.mem_iff_getElem?.mp hx
    cases x with
    | running r =>
      have hnone := hquiet (.consume c) (by simp)
      simp only [QueueMain.step, hopen, Queue.loopStep, hc, Option.any_some, hstay, Queue.step,
        Bool.false_eq_true, if_false, Option.map_some] at hnone
      cases hnone
    | parked k => exact h.awake hdone k hx
    | woken k =>
      have hnone := hquiet (.resume c) (by simp)
      simp only [QueueMain.step, hopen, Bool.false_eq_true, if_false, Queue.loopStep, hc,
        Queue.step, Option.map_some] at hnone
      cases hnone

/-- Where nothing moves any more, `main` has returned. -/
theorem Paced.returned_of_stuck (h : Paced items producers consumers s)
    (hstuck : Stuck (QueueMain.step items) s) : s.returned = true := by
  by_contra hopen
  rw [Bool.not_eq_true] at hopen
  have hquiet : Stuck (only (· ≠ .exit) (QueueMain.step items)) s :=
    stuck_only.mpr fun a _ => hstuck a
  have hnone := hstuck .exit
  simp only [QueueMain.step, hopen, (h.ended_of_stuck hopen hquiet).1, Bool.false_eq_true,
    if_false, if_true] at hnone
  cases hnone

/-- All producers have made all their items. -/
theorem load_of_allMade (h : AllMade items s) :
    load id s.producers = s.producers.length * items := by
  have hall : s.producers = List.replicate s.producers.length items :=
    List.eq_replicate_of_mem h
  rw [load, List.map_id, hall, List.sum_replicate_nat, List.length_replicate]

theorem Paced.length_produced_le (h : Paced items producers consumers s) :
    s.queue.produced.length ≤ producers * items := by
  have hle : load id s.producers ≤ s.producers.length * items := load_le_mul h.progress
  rwa [← h.count, h.makers] at hle

/-- **The program ends, whenever `main` calls `Terminated`**, for any numbers of producers,
items and consumers. From every reachable state every schedule ends with `main` returned, the
items consumed being the first ones made, in order. If `main` returns only when nobody else can
move, all items are made by then and all consumer loops have left; and if all items are made
and `main` has not yet called `Terminated`, then every item is consumed at the end, provided
that there is a consumer.
SOURCE: produce_consume/model1/main2.go:26-96 -/
theorem queue_main_completes (items producers consumers : ℕ) (as : List QueueMain.Action)
    (s : QueueMain)
    (h : run (QueueMain.step items) (newQueueMain producers consumers) as = some s) :
    Completes (QueueMain.step items)
        (fun t => t.returned = true ∧ t.queue.terminated = true ∧
          t.queue.produced.length ≤ producers * items ∧
          t.queue.produced = t.queue.removed ++ t.queue.buffer) s ∧
      (s.returned = false → Completes (only (· ≠ .exit) (QueueMain.step items))
        (fun t => (∀ x ∈ t.queue.consumers, Queue.exited x = true) ∧
          t.queue.produced.length = producers * items ∧
          t.queue.produced = t.queue.removed ++ t.queue.buffer ∧
          (0 < consumers → AllMade items s → s.queue.terminated = false →
            t.queue.removed = t.queue.produced)) s) := by
  have hs : Paced items producers consumers s :=
    run_invariant (paced_newQueueMain items producers consumers)
      (fun _ _ _ hs ha => (hs.step (effect_of_step ha).1).1) h
  constructor
  · refine completes_of_measure (I := Paced items producers consumers) (μ := workLoad items)
      (fun t a u ht ha => ht.step (effect_of_step ha).1) (fun t ht hstuck => ?_) hs
    have hreturned := ht.returned_of_stuck hstuck
    exact ⟨hreturned, ht.leaving hreturned, ht.length_produced_le, ht.fifo⟩
  intro hrunning
  refine completes_of_measure
    (I := fun t => Paced items producers consumers t ∧ t.returned = false ∧
      (AllMade items s → s.queue.terminated = false → Clearing items t))
    (μ := workLoad items) ?_ ?_ ⟨hs, hrunning, fun hmade hopen => ⟨hmade, ?_⟩⟩
  · rintro t a u ⟨ht, -, hclear⟩ ha
    obtain ⟨hstay, ha⟩ := only_eq_some.mp ha
    obtain ⟨he, hopen⟩ := effect_of_step ha
    obtain ⟨hu, hlt⟩ := ht.step he
    exact ⟨⟨hu, hopen hstay, fun hmade hopen => (hclear hmade hopen).step ht he⟩, hlt⟩
  · rintro t ⟨ht, hgoing, hclear⟩ hstuck
    obtain ⟨-, hmade, hall⟩ := ht.ended_of_stuck hgoing hstuck
    refine ⟨hall, ?_, ht.fifo, fun hpos hmade' hopen => ?_⟩
    · rw [ht.count, load_of_allMade hmade, ht.makers]
    · have hsome : ∃ x ∈ t.queue.consumers, Queue.exited x = true := by
        have hlt : 0 < t.queue.consumers.length := by
          rw [ht.loops]
          exact hpos
        exact ⟨_, List.getElem_mem hlt, hall _ (List.getElem_mem hlt)⟩
      have hfifo := ht.fifo
      rw [Fifo, (hclear hmade' hopen).2 hsome, List.append_nil] at hfifo
      exact hfifo.symm
  · rintro ⟨x, hx, hexit⟩
    rw [hs.ended x hx hexit] at hopen
    cases hopen

/-- The numbers of the source, from the state in which the first producer has put in its first
item. -/
theorem queue_main_completes_main :
    ∃ s, run (QueueMain.step 5) (newQueueMain 3 2) [.produce 0 none] = some s ∧
      Completes (QueueMain.step 5)
        (fun t => t.returned = true ∧ t.queue.terminated = true ∧
          t.queue.produced.length ≤ 3 * 5 ∧
          t.queue.produced = t.queue.removed ++ t.queue.buffer) s ∧
      Completes (only (· ≠ .exit) (QueueMain.step 5))
        (fun t => (∀ x ∈ t.queue.consumers, Queue.exited x = true) ∧
          t.queue.produced.length = 3 * 5 ∧
          t.queue.produced = t.queue.removed ++ t.queue.buffer ∧
          (0 < 2 → AllMade 5 s → s.queue.terminated = false →
            t.queue.removed = t.queue.produced)) s := by
  refine ⟨_, rfl, ?_⟩
  obtain ⟨hends, hquiet⟩ := queue_main_completes 5 3 2 [.produce 0 none] _ rfl
  exact ⟨hends, hquiet rfl⟩

end GolangSandbox.Analysis
