import Mathlib.Logic.Function.Basic
import Mathlib.Tactic.Common

/-!
# A heap of numbered blocks

`malloc` may return any address that is not allocated, one that was freed before as well. A
block has the number of its allocation, so two allocations at one address are told apart. An
access to an address that is not allocated fails, and so does a read of a block without a
value.

`Points` says which block is at an address. Blocks with different numbers are at different
addresses, so whoever owns a block keeps it while others allocate (`Points.malloc`), write
(`Points.put`) and free (`Points.drop`).
-/

set_option autoImplicit false

namespace GolangSandbox.Model

/-- What is allocated at an address. -/
structure Block (α : Type) where
  number : ℕ
  value : Option α
  deriving DecidableEq, Repr

/-- The blocks, and the number of the next allocation. -/
structure Heap (α : Type) where
  cells : ℕ → Option (Block α)
  next : ℕ

namespace Heap

variable {α : Type} (h : Heap α)

def empty : Heap α := ⟨fun _ => none, 0⟩

/-- The heap after the allocation of `p`. -/
def new (p : ℕ) : Heap α := ⟨Function.update h.cells p (some ⟨h.next, none⟩), h.next + 1⟩

/-- The heap with a value in the block `i` at `p`. -/
def put (p i : ℕ) (a : α) : Heap α :=
  { h with cells := Function.update h.cells p (some ⟨i, some a⟩) }

/-- The heap without a block at `p`. -/
def drop (p : ℕ) : Heap α := { h with cells := Function.update h.cells p none }

/-- `p = malloc()`. -/
def malloc (p : ℕ) : Option (Heap α) := if (h.cells p).isNone then some (h.new p) else none

/-- `*p = a`, with the number of the block that is written. -/
def store (p : ℕ) (a : α) : Option (ℕ × Heap α) :=
  (h.cells p).map fun b => (b.number, h.put p b.number a)

/-- `*p`, with the number of the block that is read. -/
def load (p : ℕ) : Option (ℕ × α) :=
  (h.cells p).bind fun b => b.value.map fun a => (b.number, a)

/-- `free(p)`, with the number of the block that is freed. -/
def free (p : ℕ) : Option (ℕ × Heap α) := (h.cells p).map fun b => (b.number, h.drop p)

/-- The block at `p` has the number `i` and the value `v`. -/
def Points (p i : ℕ) (v : Option α) : Prop := h.cells p = some ⟨i, v⟩

variable {h} {p q i j : ℕ} {v w : Option α} {a : α}

/-- What an operation on a block returns. -/
theorem Points.store_eq (hp : h.Points p i v) : h.store p a = some (i, h.put p i a) := by
  unfold store
  rw [hp, Option.map_some]

theorem Points.load_eq (hp : h.Points p i (some a)) : h.load p = some (i, a) := by
  unfold load
  rw [hp]
  rfl

theorem Points.free_eq (hp : h.Points p i v) : h.free p = some (i, h.drop p) := by
  unfold free
  rw [hp, Option.map_some]

/-- Blocks with different numbers are at different addresses. -/
theorem Points.ne (hp : h.Points p i v) (hq : h.Points q j w) (hij : i ≠ j) : p ≠ q := by
  rintro rfl
  have hblock := hp.symm.trans hq
  rw [Option.some.injEq, Block.mk.injEq] at hblock
  exact hij hblock.1

theorem points_new : (h.new p).Points p h.next none := Function.update_self ..

theorem points_put : (h.put p i a).Points p i (some a) := Function.update_self ..

/-- A block is not touched by an allocation. -/
theorem Points.malloc (hq : h.Points q j w) (hp : h.cells p = none) : (h.new p).Points q j w := by
  have hne : q ≠ p := by
    rintro rfl
    rw [hq] at hp
    cases hp
  exact (Function.update_of_ne hne _ _).trans hq

/-- A block is not touched by a write to another one. -/
theorem Points.put (hq : h.Points q j w) (hp : h.Points p i v) (hij : j ≠ i) :
    (h.put p i a).Points q j w :=
  (Function.update_of_ne (hq.ne hp hij) _ _).trans hq

/-- A block is not touched when another one is freed. -/
theorem Points.drop (hq : h.Points q j w) (hp : h.Points p i v) (hij : j ≠ i) :
    (h.drop p).Points q j w :=
  (Function.update_of_ne (hq.ne hp hij) _ _).trans hq

end Heap

end GolangSandbox.Model
