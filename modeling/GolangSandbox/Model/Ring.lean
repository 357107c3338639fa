import Mathlib.Data.List.Basic
import Mathlib.Data.Nat.ModEq
import Mathlib.Tactic.Common

/-!
# Bounded buffers

A bounded buffer takes items at its end and gives them back from its front. Taking waits for
a free slot and giving waits for an item; here an operation that has to wait is `none`, and
`IsBounded` says with a relation between a buffer and the list of its items when that is and
what an operation does otherwise.

A ring is a bounded buffer on an array (`isBounded_ring`). Its two counters only go up, and the
items are at the places that follow `front`, modulo the size. As never more than `size` places
follow, an insertion writes to none of them (`mod_ne_of_lt`).
-/

set_option autoImplicit false

namespace GolangSandbox.Model

/-- The operations of a buffer. -/
structure BoundedBuffer (β α : Type) where
  init : ℕ → β
  insert : β → α → Option β
  remove : β → Option (α × β)

/-- The buffer keeps at most `size` items, first in, first out. -/
structure IsBounded {β α : Type} (B : BoundedBuffer β α) (size : ℕ) (items : β → List α → Prop) :
    Prop where
  init : items (B.init size) []
  insert : ∀ b xs x, items b xs → xs.length < size →
    ∃ c, B.insert b x = some c ∧ items c (xs ++ [x])
  full : ∀ b xs x, items b xs → size ≤ xs.length → B.insert b x = none
  remove : ∀ b x xs, items b (x :: xs) → ∃ c, B.remove b = some (x, c) ∧ items c xs
  empty : ∀ b, items b [] → B.remove b = none

namespace IsBounded

variable {β α : Type} {B : BoundedBuffer β α} {size : ℕ} {items : β → List α → Prop} {b c : β}
  {x : α} {xs : List α}

/-- An insertion that does not wait had a free slot. -/
theorem of_insert (h : IsBounded B size items) (hb : items b xs) (hc : B.insert b x = some c) :
    xs.length < size ∧ items c (xs ++ [x]) := by
  by_cases hlt : xs.length < size
  · obtain ⟨d, hd, hitems⟩ := h.insert b xs x hb hlt
    obtain rfl := Option.some.inj (hc.symm.trans hd)
    exact ⟨hlt, hitems⟩
  · rw [h.full b xs x hb (Nat.le_of_not_lt hlt)] at hc
    cases hc

/-- A removal that does not wait takes the first item. -/
theorem of_remove (h : IsBounded B size items) (hb : items b xs)
    (hc : B.remove b = some (x, c)) : ∃ ys, xs = x :: ys ∧ items c ys := by
  cases xs with
  | nil =>
    rw [h.empty b hb] at hc
    cases hc
  | cons y ys =>
    obtain ⟨d, hd, hitems⟩ := h.remove b y ys hb
    obtain ⟨rfl, rfl⟩ := Prod.mk.inj (Option.some.inj (hc.symm.trans hd))
    exact ⟨ys, rfl, hitems⟩

end IsBounded

/-! ## Rings -/

/-- An array with the places of its first item and its last item, counted without wrapping. -/
structure RingBuffer (α : Type) where
  buf : List α
  front : ℕ
  rear : ℕ
  deriving DecidableEq, Repr

namespace RingBuffer

variable {α : Type}

/-- The ring as a bounded buffer: `buf[(front + 1) % size]` is the first item, and
`buf[rear % size]` the last one. -/
def buffer (fill : α) : BoundedBuffer (RingBuffer α) α where
  init size := ⟨List.replicate size fill, 0, 0⟩
  insert r x :=
    if r.rear - r.front < r.buf.length then
      some { r with buf := r.buf.set ((r.rear + 1) % r.buf.length) x, rear := r.rear + 1 }
    else none
  remove r :=
    if r.front < r.rear then
      r.buf[(r.front + 1) % r.buf.length]?.map fun x => (x, { r with front := r.front + 1 })
    else none

/-- The items of a ring. -/
structure Items (size : ℕ) (r : RingBuffer α) (xs : List α) : Prop where
  length_buf : r.buf.length = size
  rear : r.rear = r.front + xs.length
  length_le : xs.length ≤ size
  getElem : ∀ i x, xs[i]? = some x → r.buf[(r.front + 1 + i) % size]? = some x

/-- Places that are less than the size apart are different. -/
theorem mod_ne_of_lt {size a i j : ℕ} (hij : i < j) (hj : j < i + size) :
    (a + i) % size ≠ (a + j) % size := by
  intro h
  have hdvd : size ∣ a + j - (a + i) := (Nat.modEq_iff_dvd' (by omega)).mp h
  have hle := Nat.le_of_dvd (by omega) hdvd
  omega

variable {size : ℕ} {r : RingBuffer α} {xs : List α} {x : α}

theorem Items.insert (h : Items size r xs) (hlt : xs.length < size) :
    Items size { r with buf := r.buf.set ((r.rear + 1) % r.buf.length) x, rear := r.rear + 1 }
      (xs ++ [x]) := by
  have hplace : r.rear + 1 = r.front + 1 + xs.length := by
    have hrear := h.rear
    omega
  have hwrite : (r.rear + 1) % size < r.buf.length := by
    rw [h.length_buf]
    exact Nat.mod_lt _ (by omega)
  refine ⟨(List.length_set).trans h.length_buf, ?_, ?_, ?_⟩
  · show r.rear + 1 = r.front + (xs ++ [x]).length
    rw [List.length_append, List.length_singleton, h.rear, Nat.add_assoc]
  · rw [List.length_append]
    exact hlt
  · intro i y hi
    show (r.buf.set ((r.rear + 1) % r.buf.length) x)[(r.front + 1 + i) % size]? = some y
    rw [h.length_buf]
    obtain hold | heq | hgt := Nat.lt_trichotomy i xs.length
    · rw [List.getElem?_append_left hold] at hi
      rw [List.getElem?_set_ne, h.getElem i y hi]
      rw [hplace]
      exact (mod_ne_of_lt hold (by omega)).symm
    · rw [heq, List.getElem?_concat_length] at hi
      rw [heq, ← hplace, List.getElem?_set_self hwrite]
      exact hi
    · rw [List.getElem?_eq_none (by rw [List.length_append]; exact hgt)] at hi
      cases hi

theorem Items.remove (h : Items size r (x :: xs)) :
    r.buf[(r.front + 1) % r.buf.length]? = some x ∧
      Items size { r with front := r.front + 1 } xs := by
  have hlength := h.length_le
  have hrear := h.rear
  rw [List.length_cons] at hlength hrear
  refine ⟨?_, h.length_buf, ?_, ?_, ?_⟩
  · rw [h.length_buf]
    exact h.getElem 0 x rfl
  · show r.rear = r.front + 1 + xs.length
    omega
  · exact Nat.le_of_succ_le hlength
  · intro i y hi
    have hnext := h.getElem (i + 1) y hi
    rwa [Nat.add_comm i 1, ← Nat.add_assoc] at hnext

/-- **A ring is a bounded buffer.** -/
theorem isBounded_ring (fill : α) (size : ℕ) : IsBounded (buffer fill) size (Items size) where
  init := ⟨List.length_replicate, rfl, Nat.zero_le _, nofun⟩
  insert := by
    intro r xs x h hlt
    refine ⟨_, if_pos ?_, h.insert hlt⟩
    rw [h.rear, h.length_buf, Nat.add_sub_cancel_left]
    exact hlt
  full := by
    intro r xs x h hle
    refine if_neg ?_
    rw [h.rear, h.length_buf, Nat.add_sub_cancel_left]
    exact Nat.not_lt_of_le hle
  remove := by
    intro r x xs h
    obtain ⟨hfirst, hrest⟩ := h.remove
    have hlt : r.front < r.rear := by
      have hrear := h.rear
      rw [List.length_cons] at hrear
      omega
    refine ⟨_, ?_, hrest⟩
    simp only [buffer]
    rw [if_pos hlt, hfirst, Option.map_some]
  empty := by
    intro r h
    refine if_neg ?_
    have hrear := h.rear
    rw [List.length_nil, Nat.add_zero] at hrear
    exact Nat.not_lt_of_le (Nat.le_of_eq hrear)

end RingBuffer

end GolangSandbox.Model
