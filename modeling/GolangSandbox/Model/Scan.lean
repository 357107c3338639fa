import Mathlib.Data.List.Basic
import Mathlib.Tactic.Common

/-!
# Reading an array cell by cell while it changes

A reader goes through the cells `p, p + 1, …, n - 1` of an array that others write
to meanwhile. `Tracked A n p d x` says that the reader, who has met `x` so far `d`
times, will have met it exactly once at the end if nothing changes any more: either
it has met `x` and `x` is in no cell ahead, or it has not and `x` is in exactly one.

`Tracked.read` is the step of the reader; `Tracked.overwrite` and `Tracked.shift`
say which writes of others keep it. A shift moves the cells behind `j` down by one
and leaves the last one in place; it is harmless to `x` unless it takes `x` past the
reader or leaves a second copy of it ahead.
-/

set_option autoImplicit false

namespace GolangSandbox.Model

section Scan

variable {α : Type} {A A' : ℕ → α} {n p d i j m : ℕ} {x y : α}

/-- The reader at `p` of the cells up to `n` meets `x` once in all, having met it `d`
times. -/
def Tracked (A : ℕ → α) (n p d : ℕ) (x : α) : Prop :=
  (d = 1 ∧ ∀ q, p ≤ q → q < n → A q ≠ x) ∨
    (d = 0 ∧ ∃ i, p ≤ i ∧ i < n ∧ A i = x ∧ ∀ q, p ≤ q → q < n → A q = x → q = i)

/-- The reader stands in front of cell `i`, or has met what is in it. -/
def Placed (n p d i : ℕ) : Prop := (d = 1 ∧ i < p) ∨ (d = 0 ∧ p ≤ i ∧ i < n)

/-- At the start every value that occurs once is tracked. -/
theorem Tracked.start (hi : i < n) (hx : A i = x) (huniq : ∀ q < n, A q = x → q = i) :
    Tracked A n 0 0 x :=
  .inr ⟨rfl, i, Nat.zero_le _, hi, hx, fun q _ hq => huniq q hq⟩

/-- A reader at the end has met a tracked value once. -/
theorem Tracked.finish (h : Tracked A n p d x) (hp : n ≤ p) : d = 1 := by
  obtain ⟨hd, -⟩ | ⟨-, i, hpi, hin, -⟩ := h
  · exact hd
  · omega

theorem Tracked.congr (h : Tracked A n p d x)
    (hA : ∀ q, p ≤ q → q < n → (A' q = x ↔ A q = x)) : Tracked A' n p d x := by
  obtain ⟨hd, hno⟩ | ⟨hd, i, hpi, hin, hi, huniq⟩ := h
  · exact .inl ⟨hd, fun q hpq hqn hq => hno q hpq hqn ((hA q hpq hqn).mp hq)⟩
  · exact .inr ⟨hd, i, hpi, hin, (hA i hpi hin).mpr hi,
      fun q hpq hqn hq => huniq q hpq hqn ((hA q hpq hqn).mp hq)⟩

/-- The reader meets a tracked value that it has not met yet, or another one. -/
theorem Tracked.read_self (h : Tracked A n p d x) (hp : p < n) (hx : A p = x) :
    d = 0 ∧ Tracked A n (p + 1) (d + 1) x := by
  obtain ⟨-, hno⟩ | ⟨hd, i, hpi, hin, hi, huniq⟩ := h
  · exact absurd hx (hno p (Nat.le_refl _) hp)
  · refine ⟨hd, .inl ⟨by omega, fun q hpq hqn hq => ?_⟩⟩
    have hqi := huniq q (by omega) hqn hq
    have hpi' := huniq p (Nat.le_refl _) hp hx
    omega

theorem Tracked.read_ne (h : Tracked A n p d x) (hx : A p ≠ x) :
    Tracked A n (p + 1) d x := by
  obtain ⟨hd, hno⟩ | ⟨hd, i, hpi, hin, hi, huniq⟩ := h
  · exact .inl ⟨hd, fun q hpq hqn => hno q (by omega) hqn⟩
  · have hne : i ≠ p := by
      rintro rfl
      exact hx hi
    exact .inr ⟨hd, i, by omega, hin, hi, fun q hpq hqn => huniq q (by omega) hqn⟩

/-- The reader is still placed in front of the cell of a value it has not met. -/
theorem Placed.read (h : Placed n p d i) (hne : i ≠ p) : Placed n (p + 1) d i := by
  unfold Placed at *
  omega

/-- A cell behind all values of interest may be overwritten by another value. -/
theorem Tracked.overwrite (h : Tracked A n p d x) (hpl : Placed n p d i) (hx : A i = x)
    (him : i < m) (hA : ∀ q, A' q = if q = m then y else A q) (hy : y ≠ x) :
    Tracked A' n p d x := by
  refine h.congr fun q hpq hqn => ?_
  rw [hA]
  split
  · -- The overwritten cell did not hold a second copy.
    rename_i hqm
    subst hqm
    refine iff_of_false hy fun hq => ?_
    obtain ⟨-, hno⟩ | ⟨hd, i', -, -, -, huniq⟩ := h
    · exact hno q hpq hqn hq
    · have hi' := huniq q hpq hqn hq
      obtain ⟨hd', -⟩ | ⟨-, hpi, hin⟩ := hpl
      · omega
      · have := huniq i hpi hin hx
        omega
  · exact Iff.rfl

/-- **A shift that neither takes `x` past the reader nor copies it ahead keeps `x`
tracked**, at the cell it has moved to. -/
theorem Tracked.shift (h : Tracked A n p d x) (hpl : Placed n p d i) (hx : A i = x)
    (huniq : ∀ q < m, A q = x → q = i) (him : i < m) (hij : i ≠ j)
    (hA : ∀ q, A' q = if j ≤ q ∧ q < m - 1 then A (q + 1) else A q)
    (hsafe : ¬ (j < i ∧ p ≤ i ∧ (j < p ∨ i = m - 1))) :
    Tracked A' n p d x ∧ Placed n p d (if i < j then i else i - 1) := by
  have hpl' : Placed n p d (if i < j then i else i - 1) := by
    unfold Placed at *
    split <;> omega
  refine ⟨?_, hpl'⟩
  -- A cell of the new array that holds `x` is the one `x` has moved to.
  have hcell : ∀ q, p ≤ q → q < n → A' q = x → d = 0 ∧ q = if i < j then i else i - 1 := by
    intro q hpq hqn hq
    rw [hA] at hq
    split at hq
    · rename_i hqj
      have hqi := huniq (q + 1) (by omega) hq
      unfold Placed at hpl
      split <;> omega
    · rename_i hqj
      obtain ⟨-, hno⟩ | ⟨hd, i', -, -, -, huniq'⟩ := h
      · exact absurd hq (hno q hpq hqn)
      · have hqi' := huniq' q hpq hqn hq
        obtain ⟨hd', -⟩ | ⟨-, hpi, hin⟩ := hpl
        · omega
        · have hii' := huniq' i hpi hin hx
          split <;> omega
  unfold Placed at hpl'
  obtain ⟨hd, hip⟩ | ⟨hd, hpi, hin⟩ := hpl'
  · refine .inl ⟨hd, fun q hpq hqn hq => ?_⟩
    have := hcell q hpq hqn hq
    omega
  · refine .inr ⟨hd, _, hpi, hin, ?_, fun q hpq hqn hq => (hcell q hpq hqn hq).2⟩
    rw [hA]
    split_ifs with h₁ h₂ h₂
    · omega
    · exact hx
    · rw [Nat.sub_add_cancel (by omega), hx]
    · omega

end Scan

end GolangSandbox.Model
