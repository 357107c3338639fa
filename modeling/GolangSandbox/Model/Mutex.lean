import Mathlib.Logic.Function.Basic
import Mathlib.Tactic.Common

/-!
# Mutual exclusion

Any number of threads, of which a thread is inside or not, and a semaphore. `Exclusive` says
that the semaphore is 1 while nobody is inside and 0 while one thread is. It is kept when a
thread that found the semaphore positive goes in (`Exclusive.enter`), when the thread inside
goes out (`Exclusive.leave`), and when a thread moves and does neither (`Exclusive.stay`).
What only the thread inside may change, nobody else changes (`Exclusive.outside`).
-/

set_option autoImplicit false

namespace GolangSandbox.Model

variable {τ : Type}

/-- At most one thread is inside, and the semaphore says whether one is. -/
structure Exclusive (inside : τ → Prop) (sem : ℕ) (threads : ℕ → τ) : Prop where
  alone : ∀ j k, inside (threads j) → inside (threads k) → j = k
  held : sem = 0 → ∃ k, inside (threads k)
  free : 0 < sem → sem = 1 ∧ ∀ k, ¬ inside (threads k)

namespace Exclusive

variable {inside : τ → Prop} {sem : ℕ} {threads : ℕ → τ} {k : ℕ} {t : τ}

/-- Nobody is inside, and the semaphore is 1. -/
theorem of_free (h : ∀ k, ¬ inside (threads k)) : Exclusive inside 1 threads where
  alone := fun j _ hj _ => absurd hj (h j)
  held := fun hzero => absurd hzero Nat.one_ne_zero
  free := fun _ => ⟨rfl, h⟩

/-- The semaphore is 0 if a thread is inside. -/
theorem sem_eq_zero (h : Exclusive inside sem threads) (hk : inside (threads k)) : sem = 0 := by
  by_contra hne
  exact (h.free (Nat.pos_of_ne_zero hne)).2 k hk

/-- While one thread is inside, no other is. -/
theorem outside (h : Exclusive inside sem threads) (hk : inside (threads k)) {j : ℕ}
    (hj : j ≠ k) : ¬ inside (threads j) := fun hin => hj (h.alone j k hin hk)

theorem enter (h : Exclusive inside sem threads) (hpos : 0 < sem) (ht : inside t) :
    Exclusive inside (sem - 1) (Function.update threads k t) := by
  obtain ⟨rfl, hnone⟩ := h.free hpos
  have hother : ∀ j, inside (Function.update threads k t j) → j = k := by
    intro j hj
    by_contra hne
    rw [Function.update_of_ne hne] at hj
    exact hnone j hj
  refine ⟨fun i j hi hj => (hother i hi).trans (hother j hj).symm, fun _ => ⟨k, ?_⟩, ?_⟩
  · rw [Function.update_self]
    exact ht
  · intro hlt
    exact absurd hlt (Nat.lt_irrefl 0)

theorem leave (h : Exclusive inside sem threads) (hk : inside (threads k)) (ht : ¬ inside t) :
    Exclusive inside (sem + 1) (Function.update threads k t) := by
  rw [h.sem_eq_zero hk]
  apply of_free
  intro j
  by_cases hj : j = k
  · rw [hj, Function.update_self]
    exact ht
  · rw [Function.update_of_ne hj]
    exact h.outside hk hj

theorem stay (h : Exclusive inside sem threads) (ht : inside t ↔ inside (threads k)) :
    Exclusive inside sem (Function.update threads k t) := by
  have hsame : ∀ j, inside (Function.update threads k t j) ↔ inside (threads j) := by
    intro j
    by_cases hj : j = k
    · rw [hj, Function.update_self]
      exact ht
    · rw [Function.update_of_ne hj]
  refine ⟨fun i j hi hj => ?_, fun hzero => ?_, fun hpos => ⟨(h.free hpos).1, fun j hj => ?_⟩⟩
  · exact h.alone i j ((hsame i).mp hi) ((hsame j).mp hj)
  · obtain ⟨j, hj⟩ := h.held hzero
    exact ⟨j, (hsame j).mpr hj⟩
  · exact (h.free hpos).2 j ((hsame j).mp hj)

end Exclusive

/-- What holds of every thread holds of every thread after one has moved, if it holds of that
one. -/
theorem forall_threads_update {P : τ → Prop} {threads : ℕ → τ} (h : ∀ j, P (threads j)) {k : ℕ}
    {t : τ} (ht : P t) (j : ℕ) : P (Function.update threads k t j) := by
  by_cases hj : j = k
  · rw [hj, Function.update_self]
    exact ht
  · rw [Function.update_of_ne hj]
    exact h j

/-- A thread that is elsewhere than the one that moved has come is another one. -/
theorem of_update_eq {threads : ℕ → τ} {j k : ℕ} {t u : τ}
    (h : Function.update threads k t j = u) (hne : t ≠ u) : j ≠ k ∧ threads j = u := by
  by_cases hj : j = k
  · rw [hj, Function.update_self] at h
    exact absurd h hne
  · rw [Function.update_of_ne hj] at h
    exact ⟨hj, h⟩

end GolangSandbox.Model
