import Mathlib.Algebra.GroupWithZero.Nat
import GolangSandbox.Model.Condition
import GolangSandbox.Model.Transition
import Mathlib.Logic.Function.Basic

/-!
# Programs that run to their end

A schedule decides which goroutine moves, and a program may have runs that never
stop, or that stop too early because nothing can move. `Completes step P s` excludes both:
from `s` no schedule takes more than some number of steps, and wherever no step is possible
any more `P` holds.

It is proved with a measure that every step lowers (`completes_of_measure`): the invariant
says what is true along the way, and that a state in which nothing moves is a final one is
the freedom from deadlock. As a completing program cannot run for ever, it reaches its end
by just going on (`Completes.exists_run`), from every state on the way
(`Completes.of_run`).

`only C step` is the program in which the surroundings are quiet: it takes the actions that
meet `C` and no others. `load f ts` is the measure of a list of threads, each with the
steps `f` it has still to take.
-/

set_option autoImplicit false

namespace GolangSandbox.Model

section Completes

variable {σ α : Type*} (step : σ → α → Option σ)

/-- Nothing can move. -/
def Stuck (s : σ) : Prop := ∀ a, step s a = none

/-- Whatever the schedule is, the program stops, and in a state with `P`. -/
def Completes (P : σ → Prop) (s : σ) : Prop :=
  ∃ n, ∀ as t, run step s as = some t → as.length ≤ n ∧ (Stuck step t → P t)

variable {step}

theorem not_stuck_iff {s : σ} : ¬ Stuck step s ↔ ∃ a t, step s a = some t := by
  simp only [Stuck, not_forall, ← ne_eq, Option.ne_none_iff_exists']

/-- A measure that every step lowers bounds what is left of a run. -/
theorem length_add_le_of_measure {I : σ → Prop} {μ : σ → ℕ}
    (hstep : ∀ s a t, I s → step s a = some t → I t ∧ μ t < μ s)
    {s t : σ} {as : List α} (hs : I s) (h : run step s as = some t) :
    I t ∧ as.length + μ t ≤ μ s := by
  refine run_induction (I := fun as t => I t ∧ as.length + μ t ≤ μ s) ⟨hs, ?_⟩ ?_ h
  · exact Nat.le_of_eq (Nat.zero_add _)
  · rintro as t a u _ ⟨ht, hle⟩ ha
    obtain ⟨hu, hlt⟩ := hstep t a u ht ha
    refine ⟨hu, ?_⟩
    rw [List.length_append, List.length_singleton]
    omega

/-- **The completion rule.** A measure that every step lowers, an invariant, and no deadlock
before the end. -/
theorem completes_of_measure {I P : σ → Prop} {μ : σ → ℕ}
    (hstep : ∀ s a t, I s → step s a = some t → I t ∧ μ t < μ s)
    (hstuck : ∀ s, I s → Stuck step s → P s) {s : σ} (hs : I s) : Completes step P s := by
  refine ⟨μ s, fun as t h => ?_⟩
  obtain ⟨ht, hle⟩ := length_add_le_of_measure hstep hs h
  exact ⟨by omega, hstuck t ht⟩

variable {P : σ → Prop}

theorem Completes.imp {Q : σ → Prop} (hPQ : ∀ s, P s → Q s) {s : σ} (h : Completes step P s) :
    Completes step Q s := by
  obtain ⟨n, hn⟩ := h
  exact ⟨n, fun as t hrun => ⟨(hn as t hrun).1, fun hstuck => hPQ t ((hn as t hrun).2 hstuck)⟩⟩

/-- It still completes after some of its steps. -/
theorem Completes.of_run {s t : σ} {as : List α} (h : Completes step P s)
    (hrun : run step s as = some t) : Completes step P t := by
  obtain ⟨n, hn⟩ := h
  refine ⟨n, fun bs u hu => ?_⟩
  have hall := hn (as ++ bs) u (run_append_eq_some.mpr ⟨t, hrun, hu⟩)
  rw [List.length_append] at hall
  exact ⟨by omega, hall.2⟩

/-- **It gets there by going on.** A run to the end exists, since no run goes on for ever. -/
theorem Completes.exists_run {s : σ} (h : Completes step P s) :
    ∃ as t, run step s as = some t ∧ Stuck step t ∧ P t := by
  obtain ⟨n, hn⟩ := h
  -- A run that cannot be continued is found within the bound.
  have key : ∀ m as t, run step s as = some t → n - as.length ≤ m →
      ∃ bs u, run step s bs = some u ∧ Stuck step u := by
    intro m
    induction m with
    | zero =>
      intro as t ht hm
      refine ⟨as, t, ht, ?_⟩
      by_contra hmoves
      obtain ⟨a, u, hu⟩ := not_stuck_iff.mp hmoves
      have hle := (hn (as ++ [a]) u (run_concat_eq_some.mpr ⟨t, ht, hu⟩)).1
      rw [List.length_append, List.length_singleton] at hle
      omega
    | succ m ih =>
      intro as t ht hm
      by_cases hstuck : Stuck step t
      · exact ⟨as, t, ht, hstuck⟩
      · obtain ⟨a, u, hu⟩ := not_stuck_iff.mp hstuck
        refine ih (as ++ [a]) u (run_concat_eq_some.mpr ⟨t, ht, hu⟩) ?_
        rw [List.length_append, List.length_singleton]
        omega
  obtain ⟨as, t, ht, hstuck⟩ := key n [] s (run_nil step s) (Nat.sub_le _ _)
  exact ⟨as, t, ht, hstuck, (hn as t ht).2 hstuck⟩

end Completes

/-! ## Quiet surroundings -/

section Only

variable {σ α : Type*} (C : α → Prop) [DecidablePred C] (step : σ → α → Option σ)

/-- The actions that meet `C`. -/
def only (s : σ) (a : α) : Option σ := if C a then step s a else none

variable {C step}

theorem only_eq_some {s t : σ} {a : α} : only C step s a = some t ↔ C a ∧ step s a = some t := by
  rw [only, Option.ite_none_right_eq_some]

theorem stuck_only {s : σ} : Stuck (only C step) s ↔ ∀ a, C a → step s a = none := by
  refine forall_congr' fun a => ?_
  rw [only]
  split
  · rename_i ha
    exact ⟨fun h _ => h, fun h => h ha⟩
  · rename_i ha
    exact iff_of_true rfl fun hC => absurd hC ha

/-- A run of such actions is a run. -/
theorem run_of_run_only {s t : σ} {as : List α} (h : run (only C step) s as = some t) :
    run step s as = some t ∧ ∀ a ∈ as, C a := by
  refine run_induction (I := fun as t => run step s as = some t ∧ ∀ a ∈ as, C a)
    ⟨rfl, List.forall_mem_nil C⟩ ?_ h
  rintro as t a u _ ⟨ht, hall⟩ ha
  obtain ⟨hC, hu⟩ := only_eq_some.mp ha
  refine ⟨run_concat_eq_some.mpr ⟨t, ht, hu⟩, fun b hb => ?_⟩
  obtain hb | hb := List.mem_append.mp hb
  · exact hall b hb
  · exact List.mem_singleton.mp hb ▸ hC

end Only

/-! ## The measure of a list of threads -/

section Load

variable {α : Type*} (f : α → ℕ)

/-- What all threads have still to do. -/
def load (ts : List α) : ℕ := (ts.map f).sum

@[simp] theorem load_nil : load f [] = 0 := rfl

@[simp] theorem load_cons (t : α) (ts : List α) : load f (t :: ts) = f t + load f ts := by
  rw [load, load, List.map_cons, List.sum_cons]

theorem load_append (ts us : List α) : load f (ts ++ us) = load f ts + load f us := by
  rw [load, load, load, List.map_append, List.sum_append]

variable {f}

/-- One thread goes on: what it had to do, and what it has to do now. -/
theorem load_set {ts : List α} {i : ℕ} {t : α} (ht : ts[i]? = some t) (u : α) :
    load f (ts.set i u) + f t = load f ts + f u := by
  induction ts generalizing i with
  | nil => cases ht
  | cons v ts ih =>
    cases i with
    | zero =>
      rw [List.getElem?_cons_zero, Option.some.injEq] at ht
      subst ht
      rw [List.set_cons_zero, load_cons, load_cons]
      omega
    | succ i =>
      rw [List.getElem?_cons_succ] at ht
      have hrest := ih ht
      rw [List.set_cons_succ, load_cons, load_cons]
      omega

theorem load_eq_zero {ts : List α} (h : ∀ t ∈ ts, f t = 0) : load f ts = 0 := by
  induction ts with
  | nil => rfl
  | cons t ts ih =>
    rw [List.forall_mem_cons] at h
    rw [load_cons, h.1, ih h.2]

/-- One of several parties has something else to do than before. -/
theorem load_change {ts : List α} (hnd : ts.Nodup) {t : α} (ht : t ∈ ts) {g : α → ℕ}
    (hother : ∀ u, u ≠ t → g u = f u) : load g ts + f t = load f ts + g t := by
  induction ts with
  | nil => cases ht
  | cons v ts ih =>
    rw [List.nodup_cons] at hnd
    rw [load_cons, load_cons]
    obtain rfl | hmem := List.mem_cons.mp ht
    · have hrest : load g ts = load f ts := by
        refine congrArg List.sum (List.map_congr_left fun u hu => hother u ?_)
        rintro rfl
        exact hnd.1 hu
      omega
    · have hsame := hother v (by
        rintro rfl
        exact hnd.1 hmem)
      have hrest := ih hnd.2 hmem
      omega

/-- One of the first `n` threads goes on. -/
theorem load_range_update {n k : ℕ} {threads : ℕ → α} (hk : k < n) (u : α) :
    load f ((List.range n).map (Function.update threads k u)) + f (threads k) =
      load f ((List.range n).map threads) + f u := by
  have hmap : (List.range n).map (Function.update threads k u) =
      ((List.range n).map threads).set k u := by
    apply List.ext_getElem?
    intro i
    rw [List.getElem?_map, List.getElem?_set, List.getElem?_map, List.length_map,
      List.length_range]
    by_cases hik : k = i
    · subst hik
      rw [if_pos rfl, if_pos hk, List.getElem?_range hk, Option.map_some, Function.update_self]
    · rw [if_neg hik]
      by_cases hi : i < n
      · rw [List.getElem?_range hi, Option.map_some, Option.map_some,
          Function.update_of_ne (Ne.symm hik)]
      · rw [List.getElem?_eq_none (by rw [List.length_range]; omega), Option.map_none,
          Option.map_none]
  have hget : ((List.range n).map threads)[k]? = some (threads k) := by
    rw [List.getElem?_map, List.getElem?_range hk, Option.map_some]
  rw [hmap]
  exact load_set hget u

/-- Nobody has more than `n` steps to take. -/
theorem load_le_mul {n : ℕ} {ts : List α} (hf : ∀ t ∈ ts, f t ≤ n) :
    load f ts ≤ ts.length * n := by
  induction ts with
  | nil => exact Nat.zero_le _
  | cons t ts ih =>
    obtain ⟨ht, hts⟩ := List.forall_mem_cons.mp hf
    have hrest := ih hts
    rw [load_cons, List.length_cons, Nat.succ_mul]
    omega

theorem load_le_length (hf : ∀ t, f t ≤ 1) (ts : List α) : load f ts ≤ ts.length := by
  have hle := load_le_mul fun t (_ : t ∈ ts) => hf t
  rwa [Nat.mul_one] at hle

/-- A signal wakes at most one thread. -/
theorem load_signal {κ ρ : Type} {f : Thread κ ρ → ℕ} (hf : ∀ k, f (.woken k) ≤ f (.parked k) + 1)
    {ts us : List (Thread κ ρ)} {wake : Option ℕ} (h : Thread.signal ts wake = some us) :
    load f us ≤ load f ts + 1 ∧ us.length = ts.length := by
  obtain ⟨-, rfl⟩ | ⟨i, k, hi, rfl⟩ := Thread.signal_cases h
  · exact ⟨Nat.le_succ _, rfl⟩
  · have hset := load_set (f := f) hi (.woken k)
    have hwoken := hf k
    exact ⟨by omega, List.length_set⟩

/-- A broadcast wakes at most all of them. -/
theorem load_broadcast {κ ρ : Type} {f : Thread κ ρ → ℕ} (hf : ∀ t, f t ≤ 1)
    (ts : List (Thread κ ρ)) : load f (Thread.broadcast ts) ≤ ts.length := by
  have hle := load_le_length hf (Thread.broadcast ts)
  rwa [Thread.broadcast, List.length_map] at hle

end Load

end GolangSandbox.Model
