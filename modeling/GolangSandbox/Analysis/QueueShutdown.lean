import GolangSandbox.Program.CondQueue

/-!
# What goes through the condition-variable queue

The queue itself loses nothing: what was produced is what was removed followed by what is
buffered (`Fifo`), and a `Consume` that returns without an item returns only when the
queue is terminated and empty.

The loops of `main` take a zero `Value` for the end of the queue. So a loop can leave at
an item that happens to be zero, and nobody is left for an item that is produced when all
loops have left. If neither happens, a loop leaves only at the end, and when all of them
have left nothing is buffered (`Draining`).
-/

set_option autoImplicit false

namespace GolangSandbox.Analysis

open GolangSandbox.Model GolangSandbox.Program GolangSandbox.Program.Queue

variable {q q' : Queue}

/-! ## The queue -/

/-- Nothing is lost, doubled or reordered. -/
def Fifo (q : Queue) : Prop := q.produced = q.removed ++ q.buffer

/-- The step lemma of the queue. -/
theorem Fifo.step (h : Fifo q) {a : Queue.Action} (ha : q.step a = some q') : Fifo q' := by
  unfold Fifo at h ⊢
  cases effect_of_step ha with
  | produce hsignal =>
    show q.produced ++ _ = q.removed ++ (q.buffer ++ _)
    rw [h, List.append_assoc]
  | park hent hc hbuffer hopen => exact h
  | finish hent hc hbuffer hdone => exact h
  | @remove _ c x data buffer hent hc hbuffer =>
    show q.produced = q.removed ++ [data] ++ buffer
    rw [h, hbuffer, List.append_assoc]
    rfl
  | setTerminated => exact h

theorem fifo_of_run {consumers : ℕ} {as : List Queue.Action}
    (h : run Queue.step (newQueue consumers) as = some q) : Fifo q :=
  run_invariant (show Fifo (newQueue consumers) from rfl) (fun _ _ _ hq ha => hq.step ha) h

/-- A call that returns has removed what it returns, or there is nothing to come. -/
theorem returned_of_step {a : Queue.Action} {c : ℕ} {x : Consumer} {data : Data}
    (hent : Entering a c x) (ha : q.step a = some q')
    (hret : q'.consumers[c]? = some (.running (some data))) :
    q'.removed = q.removed ++ [data] ∨
      q'.removed = q.removed ∧ q'.terminated = true ∧ q'.buffer = [] ∧ data = ⟨0⟩ := by
  have hsame : ∀ {c' : ℕ} {x' : Consumer}, Entering a c' x' → c' = c := by
    intro c' x' hent'
    cases hent <;> cases hent' <;> rfl
  have hself : ∀ {c' : ℕ} {x' y : Consumer}, Entering a c' x' → q.consumers[c']? = some x' →
      (q.consumers.set c' y)[c]? = some (.running (some data)) → y = .running (some data) := by
    intro c' x' y hent' hc' hget
    obtain rfl := hsame hent'
    rw [List.getElem?_set_self (List.getElem?_eq_some_iff.mp hc').1] at hget
    exact Option.some.inj hget
  cases effect_of_step ha with
  | produce hsignal => cases hent
  | park hent' hc hbuffer hopen => cases hself hent' hc hret
  | finish hent' hc hbuffer hdone =>
    have hdata := hself hent' hc hret
    simp only [Thread.running.injEq, Option.some.injEq] at hdata
    exact .inr ⟨rfl, hdone, hbuffer, hdata.symm⟩
  | remove hent' hc hbuffer =>
    have hdata := hself hent' hc hret
    simp only [Thread.running.injEq, Option.some.injEq] at hdata
    rw [hdata]
    exact .inl rfl
  | setTerminated => cases hent

/-- **The queue is first in, first out.** In every run the data produced are the data
removed followed by the buffer, and whenever a call of `Consume` returns, it returns the
item it has removed, or the zero `Data` of a queue that is terminated and empty.
SOURCE: produce_consume/model1/main2.go:26-61 -/
theorem queue_fifo (consumers : ℕ) (as : List Queue.Action) (q : Queue)
    (h : run Queue.step (newQueue consumers) as = some q) :
    q.produced = q.removed ++ q.buffer ∧
      ∀ (a : Queue.Action) (q' : Queue) (c : ℕ) (x : Consumer) (data : Data), Entering a c x →
        q.step a = some q' → q'.consumers[c]? = some (.running (some data)) →
        q'.removed = q.removed ++ [data] ∨
          q'.removed = q.removed ∧ q'.terminated = true ∧ q'.buffer = [] ∧ data = ⟨0⟩ :=
  ⟨fifo_of_run h, fun _ _ _ _ _ hent ha hret => returned_of_step hent ha hret⟩

/-- Two items; a woken consumer finds that its item was taken, and parks again. -/
theorem queue_fifo_overtaken :
    ∃ q, run Queue.step (newQueue 2)
        [.consume 0, .produce ⟨11⟩ (some 0), .consume 1, .resume 0, .produce ⟨12⟩ (some 0)] =
          some q ∧
      q.removed = [⟨11⟩] ∧ q.buffer = [⟨12⟩] ∧ q.produced = q.removed ++ q.buffer := by
  refine ⟨_, rfl, by decide, by decide, ?_⟩
  exact (queue_fifo 2
    [.consume 0, .produce ⟨11⟩ (some 0), .consume 1, .resume 0, .produce ⟨12⟩ (some 0)] _ rfl).1

/-! ## The loops of `main` -/

/-- An item that is produced has a nonzero value, and a loop that can still take it. -/
def Awaited (q : Queue) (a : Queue.Action) : Prop :=
  ∀ data wake, a = .produce data wake → data.value ≠ 0 ∧ ∃ x ∈ q.consumers, exited x = false

/-- A loop leaves only at the end, and the last one leaves nothing behind. -/
structure Draining (q : Queue) : Prop where
  ended : ∀ x ∈ q.consumers, exited x = true → q.terminated = true
  drained : (∀ x ∈ q.consumers, exited x = true) → q.buffer = []
  nonzero : ∀ data ∈ q.buffer, data.value ≠ 0

theorem draining_newQueue (consumers : ℕ) : Draining (newQueue consumers) where
  ended := by
    intro x hx hexit
    obtain rfl := List.eq_of_mem_replicate hx
    cases hexit
  drained _ := rfl
  nonzero _ h := by cases h

/-- Waking consumers changes nothing about who has left. -/
theorem forall_exited {xs ys : List Consumer} (h : xs.map exited = ys.map exited)
    (P : Bool → Prop) : (∀ x ∈ xs, P (exited x)) ↔ ∀ y ∈ ys, P (exited y) := by
  rw [← List.forall_mem_map, h, List.forall_mem_map]

/-- A loop that goes on: whoever has left had left before, and not all have. -/
theorem exited_of_set {c : ℕ} {x y : Consumer} (hc : q.consumers[c]? = some x)
    (hy : exited y = false) :
    (∀ z ∈ q.consumers.set c y, exited z = true → ∃ z' ∈ q.consumers, exited z' = true) ∧
      ¬ ∀ z ∈ q.consumers.set c y, exited z = true := by
  refine ⟨fun z hz hexit => ?_, fun hall => ?_⟩
  · obtain hz | rfl := List.mem_or_eq_of_mem_set hz
    · exact ⟨z, hz, hexit⟩
    · rw [hy] at hexit
      cases hexit
  · have hself := List.getElem?_set_self (a := y) (List.getElem?_eq_some_iff.mp hc).1
    have := hall y (List.mem_of_getElem? hself)
    rw [hy] at this
    cases this

/-- **The step lemma.** -/
theorem Draining.step (h : Draining q) {a : Queue.Action} (hsafe : Awaited q a)
    (ha : q.loopStep a = some q') : Draining q' := by
  cases effect_of_step (step_of_loopStep ha) with
  | @produce data wake consumers hsignal =>
    have hsame := Thread.map_signal exited (fun _ => rfl) hsignal
    obtain ⟨hne, x, hx, hstill⟩ := hsafe data wake rfl
    refine ⟨(forall_exited hsame (· = true → _)).mpr h.ended, fun hall => ?_, ?_⟩
    · have := (forall_exited hsame (· = true)).mp hall x hx
      rw [hstill] at this
      cases this
    · intro d hd
      obtain hd | hd := List.mem_append.mp hd
      · exact h.nonzero d hd
      · rwa [List.mem_singleton.mp hd]
  | park hent hc hbuffer hopen =>
    obtain ⟨hback, hnot⟩ := exited_of_set hc (y := .parked ()) rfl
    refine ⟨fun x hx hexit => ?_, fun hall => absurd hall hnot, h.nonzero⟩
    obtain ⟨x', hx', hexit'⟩ := hback x hx hexit
    exact h.ended x' hx' hexit'
  | finish hent hc hbuffer hdone => exact ⟨fun _ _ _ => hdone, fun _ => hbuffer, h.nonzero⟩
  | @remove _ c x data buffer hent hc hbuffer =>
    have hdata := h.nonzero data (hbuffer ▸ List.mem_cons_self)
    have hstay : exited (.running (some data)) = false := by simpa [exited] using hdata
    obtain ⟨hback, hnot⟩ := exited_of_set hc hstay
    refine ⟨fun x hx hexit => ?_, fun hall => absurd hall hnot, fun d hd => ?_⟩
    · obtain ⟨x', hx', hexit'⟩ := hback x hx hexit
      exact h.ended x' hx' hexit'
    · exact h.nonzero d (hbuffer ▸ List.mem_cons_of_mem _ hd)
  | setTerminated =>
    have hsame := Thread.map_broadcast exited (fun _ => rfl) q.consumers
    refine ⟨fun _ _ _ => rfl, fun hall => h.drained ?_, h.nonzero⟩
    exact (forall_exited hsame (· = true)).mp hall

/-- **No item is stranded at shutdown**, if every item has a nonzero value and is produced
while a consumer loop is still there: when all loops have left, every item was removed,
and no loop leaves before `Terminated`.
SOURCE: produce_consume/model1/main2.go:36-61, 78-92 -/
theorem no_item_stranded (consumers : ℕ) (as : List Queue.Action) (q : Queue)
    (h : run Queue.loopStep (newQueue consumers) as = some q)
    (hsafe : Along Queue.loopStep Awaited (newQueue consumers) as) :
    ((∀ x ∈ q.consumers, exited x = true) → q.removed = q.produced) ∧
      ((∃ x ∈ q.consumers, exited x = true) → q.terminated = true) := by
  have hdrain : Draining q := run_induction_along (I := fun _ q => Draining q)
    (draining_newQueue consumers) (fun _ _ _ _ _ hq hC ha => hq.step hC ha) h hsafe
  have hfifo : Fifo q := fifo_of_run (run_of_run_loopStep h)
  refine ⟨fun hall => ?_, fun ⟨x, hx, hexit⟩ => hdrain.ended x hx hexit⟩
  rw [Fifo, hdrain.drained hall, List.append_nil] at hfifo
  exact hfifo.symm

/-- One loop gets one item and then the end of the queue. -/
theorem no_item_stranded_one :
    ∃ q, run Queue.loopStep (newQueue 1)
        [.consume 0, .produce ⟨11⟩ (some 0), .setTerminated, .resume 0, .consume 0] = some q ∧
      q.produced = [⟨11⟩] ∧ q.removed = q.produced := by
  refine ⟨_, rfl, by decide, ?_⟩
  refine (no_item_stranded 1
    [.consume 0, .produce ⟨11⟩ (some 0), .setTerminated, .resume 0, .consume 0] _ rfl ?_).1
      (by decide)
  refine (along_cons_of_step rfl).mpr ⟨by simp [Awaited], ?_⟩
  refine (along_cons_of_step rfl).mpr ⟨?_, ?_⟩
  · rintro data wake heq
    cases heq
    decide
  refine (along_cons_of_step rfl).mpr ⟨by simp [Awaited], ?_⟩
  refine (along_cons_of_step rfl).mpr ⟨by simp [Awaited], ?_⟩
  exact (along_cons_of_step rfl).mpr ⟨by simp [Awaited], trivial⟩

/-- A loop leaves at an item with value zero, before `Terminated`, and nobody takes the
next item. The same happens to an item that is produced behind the end of the queue. -/
theorem zero_value_strands_item :
    (∃ q, run Queue.loopStep (newQueue 1)
        [.produce ⟨0⟩ none, .consume 0, .produce ⟨11⟩ none] = some q ∧
      (∀ x ∈ q.consumers, exited x = true) ∧ q.terminated = false ∧
      q.removed = [⟨0⟩] ∧ q.produced = [⟨0⟩, ⟨11⟩]) ∧
    ∃ q, run Queue.loopStep (newQueue 1)
        [.setTerminated, .consume 0, .produce ⟨11⟩ none] = some q ∧
      (∀ x ∈ q.consumers, exited x = true) ∧ q.removed = [] ∧ q.produced = [⟨11⟩] :=
  ⟨⟨_, rfl, by decide⟩, ⟨_, rfl, by decide⟩⟩

end GolangSandbox.Analysis
