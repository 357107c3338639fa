import Mathlib.Algebra.BigOperators.Intervals
import Mathlib.Algebra.BigOperators.Group.Finset.Piecewise

/-!
# A range in blocks

The first `n * c` numbers cut into `n` blocks of `c` numbers: the blocks are disjoint, they
cover the range (`mem_block_iff`), and a sum over the range is the sum of the sums over the
blocks (`sum_blocks`). `sum_update_add` is what a sum over all parties becomes when one of
them moves.
-/

set_option autoImplicit false

namespace GolangSandbox.Model

/-- The block `k` of length `c`. -/
def block (c k : ℕ) : Finset ℕ := Finset.Ico (k * c) (k * c + c)

variable {c j k n x : ℕ}

theorem mem_block : x ∈ block c k ↔ k * c ≤ x ∧ x < k * c + c := Finset.mem_Ico

/-- A number is in the block of its quotient. -/
theorem mem_block_iff : x ∈ block c k ↔ 0 < c ∧ x / c = k := by
  rw [mem_block]
  constructor
  · rintro ⟨hle, hlt⟩
    have hpos : 0 < c := by omega
    refine ⟨hpos, Nat.div_eq_of_lt_le hle ?_⟩
    rw [Nat.add_mul, Nat.one_mul]
    exact hlt
  · rintro ⟨hpos, rfl⟩
    refine ⟨Nat.div_mul_le_self x c, ?_⟩
    have hmod := Nat.mod_lt x hpos
    have hdiv := Nat.div_add_mod' x c
    omega

theorem disjoint_block (hjk : j ≠ k) : Disjoint (block c j) (block c k) := by
  rw [Finset.disjoint_left]
  intro x hj hk
  rw [mem_block_iff] at hj hk
  exact hjk (hj.2.symm.trans hk.2)

/-- The first `n` blocks cover the range. -/
theorem exists_mem_block : (∃ k < n, x ∈ block c k) ↔ x < n * c := by
  constructor
  · rintro ⟨k, hk, hx⟩
    rw [mem_block_iff] at hx
    obtain ⟨hpos, rfl⟩ := hx
    exact (Nat.div_lt_iff_lt_mul hpos).mp hk
  · intro hx
    have hpos : 0 < c := by
      apply Nat.pos_of_ne_zero
      rintro rfl
      omega
    exact ⟨x / c, (Nat.div_lt_iff_lt_mul hpos).mpr hx, mem_block_iff.mpr ⟨hpos, rfl⟩⟩

variable {M : Type*} [AddCommMonoid M]

/-- **The blocks add up to the range.** -/
theorem sum_blocks (f : ℕ → M) (c n : ℕ) :
    ∑ k ∈ Finset.range n, ∑ x ∈ block c k, f x = ∑ x ∈ Finset.range (n * c), f x := by
  induction n with
  | zero => simp
  | succ n ih =>
    have hle : n * c ≤ n * c + c := Nat.le_add_right _ _
    rw [Finset.sum_range_succ, ih, block, Finset.sum_range_add_sum_Ico f hle, Nat.add_mul,
      Nat.one_mul]

/-- The party `k` moves from `g k` to `y`. -/
theorem sum_update_add {ι β : Type*} [DecidableEq ι] {s : Finset ι} {k : ι} (hk : k ∈ s)
    (f : ι → β → M) (g : ι → β) (y : β) :
    ∑ j ∈ s, f j (Function.update g k y j) + f k (g k) = ∑ j ∈ s, f j (g j) + f k y := by
  have hrest : ∑ j ∈ s.erase k, f j (Function.update g k y j) = ∑ j ∈ s.erase k, f j (g j) := by
    apply Finset.sum_congr rfl
    intro j hj
    rw [Function.update_of_ne (Finset.ne_of_mem_erase hj)]
  rw [← Finset.sum_erase_add s _ hk, ← Finset.sum_erase_add s (fun j => f j (g j)) hk, hrest,
    Function.update_self, add_right_comm]

end GolangSandbox.Model
