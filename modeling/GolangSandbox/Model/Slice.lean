import Mathlib.Data.List.Basic
import Mathlib.Tactic.Common

/-!
# Slices over shared backing arrays

A slice is a header: a backing array, an offset into it, a length and a capacity.
Headers are values and arrays are shared, so a write through one header is seen
through every other header on the same array. `append` writes in place when the
capacity allows it and otherwise allocates a new array, which cuts the sharing.

Everything an operation does is stated cell by cell (`cell_append_of_fits`,
`cell_append_of_grows`, `deleteAt_spec`); what a header shows is read off its
cells (`getElem?_contents`). The capacity of a newly allocated array is a free
choice: the language promises only that it is large enough.
-/

set_option autoImplicit false

namespace GolangSandbox.Model

/-- The backing arrays allocated so far. An array keeps its length for ever. -/
abbrev Arrays (α : Type) := List (List α)

/-- A slice header. The invariant every slice operation keeps is a field. -/
structure Slice where
  array : ℕ
  off : ℕ
  len : ℕ
  cap : ℕ
  len_le_cap : len ≤ cap
  deriving DecidableEq, Repr

section Cells

variable {α : Type}

/-- The value at index `i` of backing array `a`. -/
def cell (h : Arrays α) (a i : ℕ) : Option α := h[a]?.bind fun arr => arr[i]?

/-- Replace the elements of an array from position `p` on by `xs`. -/
def overwrite (arr : List α) (p : ℕ) (xs : List α) : List α :=
  arr.take p ++ xs ++ arr.drop (p + xs.length)

theorem length_overwrite {arr xs : List α} {p : ℕ} (h : p + xs.length ≤ arr.length) :
    (overwrite arr p xs).length = arr.length := by
  simp only [overwrite, List.length_append, List.length_take, List.length_drop]
  omega

/-- Overwriting changes the positions it covers and no other. -/
theorem getElem?_overwrite {arr xs : List α} {p : ℕ} (h : p + xs.length ≤ arr.length)
    (i : ℕ) :
    (overwrite arr p xs)[i]? =
      if p ≤ i ∧ i < p + xs.length then xs[i - p]? else arr[i]? := by
  have hp : (arr.take p).length = p := by rw [List.length_take]; omega
  unfold overwrite
  by_cases hlo : i < p
  · rw [List.append_assoc, List.getElem?_append_left (by omega), List.getElem?_take_of_lt hlo,
      if_neg (by omega)]
  · by_cases hhi : i < p + xs.length
    · rw [List.getElem?_append_left (by simp only [List.length_append, hp]; omega),
        List.getElem?_append_right (by omega), hp, if_pos ⟨by omega, hhi⟩]
    · rw [List.getElem?_append_right (by simp only [List.length_append, hp]; omega),
        List.getElem?_drop, if_neg (by omega)]
      congr 1
      simp only [List.length_append, hp]
      omega

/-- The arrays of `h` are still there in `h'`, with their lengths. -/
def Extends (h h' : Arrays α) : Prop :=
  ∀ (a : ℕ) (arr : List α), h[a]? = some arr →
    ∃ arr' : List α, h'[a]? = some arr' ∧ arr'.length = arr.length

theorem Extends.refl (h : Arrays α) : Extends h h := fun _ arr ha => ⟨arr, ha, rfl⟩

theorem Extends.trans {h h' h'' : Arrays α} (h₁ : Extends h h') (h₂ : Extends h' h'') :
    Extends h h'' := by
  intro a arr ha
  obtain ⟨arr', ha', hl⟩ := h₁ a arr ha
  obtain ⟨arr'', ha'', hl'⟩ := h₂ a arr' ha'
  exact ⟨arr'', ha'', hl'.trans hl⟩

end Cells

namespace Slice

variable {α : Type}

/-- The nil slice: no element and no capacity, on the empty array `0`. -/
def nil : Slice := ⟨0, 0, 0, 0, Nat.le_refl 0⟩

/-- The header lies inside an array that exists. -/
def Backed (s : Slice) (h : Arrays α) : Prop :=
  ∃ arr : List α, h[s.array]? = some arr ∧ s.off + s.cap ≤ arr.length

/-- What the header shows of its array. -/
def contents (s : Slice) (h : Arrays α) : List α :=
  ((h[s.array]?.getD []).drop s.off).take s.len

/-- The element `s[i]`; `none` is the panic of an index out of range. -/
def index (s : Slice) (h : Arrays α) (i : ℕ) : Option α :=
  if i < s.len then cell h s.array (s.off + i) else none

/-- The header `s[lo:hi]`; `none` is the panic of slice bounds out of range. -/
def reslice (s : Slice) (lo hi : ℕ) : Option Slice :=
  if h : lo ≤ hi ∧ hi ≤ s.cap then
    some ⟨s.array, s.off + lo, hi - lo, s.cap - lo, by omega⟩
  else none

/-- `append(s, xs...)`. A new array gets `extra` cells beyond what is needed,
holding the zero value. -/
def append [Inhabited α] (s : Slice) (h : Arrays α) (xs : List α) (extra : ℕ) :
    Arrays α × Slice :=
  if fits : s.len + xs.length ≤ s.cap then
    (h.modify s.array fun arr => overwrite arr (s.off + s.len) xs,
      ⟨s.array, s.off, s.len + xs.length, s.cap, fits⟩)
  else
    (h ++ [s.contents h ++ xs ++ List.replicate extra default],
      ⟨h.length, 0, s.len + xs.length, s.len + xs.length + extra, by omega⟩)

/-- `append(s[:i], s[i+1:]...)`, the idiom that removes index `i`. It never
allocates: the result is no longer than `s`. -/
def deleteAt [Inhabited α] (s : Slice) (h : Arrays α) (i : ℕ) : Option (Arrays α × Slice) := do
  let left ← s.reslice 0 i
  let right ← s.reslice (i + 1) s.len
  pure (left.append h (right.contents h) 0)

/-! ## Reading -/

theorem getElem?_contents (s : Slice) (h : Arrays α) (i : ℕ) :
    (s.contents h)[i]? = s.index h i := by
  unfold contents index cell
  rw [List.getElem?_take]
  split
  · rw [List.getElem?_drop]
    cases h[s.array]? <;> simp
  · rfl

theorem length_contents {s : Slice} {h : Arrays α} (hb : s.Backed h) :
    (s.contents h).length = s.len := by
  obtain ⟨arr, ha, hc⟩ := hb
  have := s.len_le_cap
  simp only [contents, ha, Option.getD_some, List.length_take, List.length_drop]
  omega

theorem Backed.mono {s : Slice} {h h' : Arrays α} (hb : s.Backed h) (he : Extends h h') :
    s.Backed h' := by
  obtain ⟨arr, ha, hc⟩ := hb
  obtain ⟨arr', ha', hl⟩ := he s.array arr ha
  exact ⟨arr', ha', by omega⟩

theorem Backed.array_lt {s : Slice} {h : Arrays α} (hb : s.Backed h) :
    s.array < h.length := by
  obtain ⟨arr, ha, -⟩ := hb
  exact (List.getElem?_eq_some_iff.mp ha).1

/-! ## Appending -/

section Append

variable [Inhabited α] {s : Slice} {h : Arrays α} {xs : List α} {extra : ℕ}

theorem append_of_fits (fits : s.len + xs.length ≤ s.cap) :
    s.append h xs extra = (h.modify s.array fun arr => overwrite arr (s.off + s.len) xs,
      ⟨s.array, s.off, s.len + xs.length, s.cap, fits⟩) := dif_pos fits

theorem append_of_grows (grows : ¬ s.len + xs.length ≤ s.cap) :
    s.append h xs extra = (h ++ [s.contents h ++ xs ++ List.replicate extra default],
      ⟨h.length, 0, s.len + xs.length, s.len + xs.length + extra, by omega⟩) := dif_neg grows

theorem array_append_of_fits (fits : s.len + xs.length ≤ s.cap) :
    (s.append h xs extra).2.array = s.array := by rw [append_of_fits fits]

theorem off_append_of_fits (fits : s.len + xs.length ≤ s.cap) :
    (s.append h xs extra).2.off = s.off := by rw [append_of_fits fits]

theorem cap_append_of_fits (fits : s.len + xs.length ≤ s.cap) :
    (s.append h xs extra).2.cap = s.cap := by rw [append_of_fits fits]

theorem array_append_of_grows (grows : ¬ s.len + xs.length ≤ s.cap) :
    (s.append h xs extra).2.array = h.length := by rw [append_of_grows grows]

theorem off_append_of_grows (grows : ¬ s.len + xs.length ≤ s.cap) :
    (s.append h xs extra).2.off = 0 := by rw [append_of_grows grows]

@[simp] theorem len_append : (s.append h xs extra).2.len = s.len + xs.length := by
  unfold append
  split <;> rfl

/-- An append in place changes the cells behind the last element, in its own array. -/
theorem cell_append_of_fits (hb : s.Backed h) (fits : s.len + xs.length ≤ s.cap) (a i : ℕ) :
    cell (s.append h xs extra).1 a i =
      if a = s.array ∧ s.off + s.len ≤ i ∧ i < s.off + s.len + xs.length then
        xs[i - (s.off + s.len)]?
      else cell h a i := by
  obtain ⟨arr, ha, hc⟩ := hb
  rw [append_of_fits fits]
  unfold cell
  simp only [List.getElem?_modify]
  by_cases haa : s.array = a
  · subst haa
    simp only [ha, ↓reduceIte, Option.bind_some, true_and]
    exact getElem?_overwrite (by omega) i
  · rw [if_neg (by rintro ⟨rfl, -⟩; exact haa rfl)]
    cases h[a]? <;> simp [haa]

/-- An append that allocates changes no cell of an array that was there before. -/
theorem cell_append_of_grows (grows : ¬ s.len + xs.length ≤ s.cap) {a : ℕ}
    (ha : a < h.length) (i : ℕ) : cell (s.append h xs extra).1 a i = cell h a i := by
  rw [append_of_grows grows]
  unfold cell
  rw [List.getElem?_append_left ha]

theorem extends_append (hb : s.Backed h) : Extends h (s.append h xs extra).1 := by
  intro a arr ha
  by_cases fits : s.len + xs.length ≤ s.cap
  · rw [append_of_fits fits]
    simp only [List.getElem?_modify, ha, Option.map_eq_map, Option.map_some]
    refine ⟨_, rfl, ?_⟩
    split
    · rename_i heq
      obtain ⟨arr', ha', hc⟩ := hb
      rw [heq, ha, Option.some.injEq] at ha'
      subst ha'
      exact length_overwrite (by omega)
    · rfl
  · rw [append_of_grows fits]
    exact ⟨arr, by rw [List.getElem?_append_left (List.getElem?_eq_some_iff.mp ha).1, ha], rfl⟩

theorem backed_append (hb : s.Backed h) :
    (s.append h xs extra).2.Backed (s.append h xs extra).1 := by
  by_cases fits : s.len + xs.length ≤ s.cap
  · have hext : Extends h (s.append h xs extra).1 := extends_append hb
    have hb' := hb.mono hext
    rw [append_of_fits fits] at hb' ⊢
    exact hb'
  · have hl := length_contents hb
    rw [append_of_grows fits]
    refine ⟨_, List.getElem?_concat_length, ?_⟩
    simp only [List.length_append, List.length_replicate]
    omega

/-- `append` shows the old elements and then the new ones, wherever it writes them. -/
theorem contents_append (hb : s.Backed h) :
    (s.append h xs extra).2.contents (s.append h xs extra).1 = s.contents h ++ xs := by
  have hl := length_contents hb
  apply List.ext_getElem?
  intro i
  rw [getElem?_contents]
  unfold index
  rw [len_append]
  by_cases hi : i < s.len + xs.length
  · rw [if_pos hi]
    by_cases fits : s.len + xs.length ≤ s.cap
    · rw [cell_append_of_fits hb fits, array_append_of_fits fits, off_append_of_fits fits]
      by_cases hlo : i < s.len
      · rw [if_neg (by omega), List.getElem?_append_left (by omega), getElem?_contents, index,
          if_pos hlo]
      · rw [if_pos ⟨rfl, by omega, by omega⟩, List.getElem?_append_right (by omega), hl]
        congr 1
        omega
    · rw [append_of_grows fits]
      simp only [cell, List.getElem?_concat_length, Option.bind_some, Nat.zero_add]
      rw [List.getElem?_append_left (by simp only [List.length_append]; omega)]
  · rw [if_neg hi, List.getElem?_eq_none (by simp only [List.length_append]; omega)]

end Append

/-! ## Removing one index -/

section DeleteAt

variable [Inhabited α] {s : Slice} {h : Arrays α} {i : ℕ}

/-- **What removing index `i` does**, when it is in range: the array is kept, the
elements behind `i` move down by one in place, and the cell behind the new last
element keeps the old last element. -/
theorem deleteAt_spec (hb : s.Backed h) (hi : i < s.len) :
    ∃ h' s', s.deleteAt h i = some (h', s') ∧ s'.array = s.array ∧ s'.off = s.off ∧
      s'.len = s.len - 1 ∧ s'.cap = s.cap ∧ s'.Backed h' ∧ Extends h h' ∧
      (∀ a j, cell h' a j =
        if a = s.array ∧ s.off + i ≤ j ∧ j < s.off + (s.len - 1) then cell h a (j + 1)
        else cell h a j) ∧
      s'.contents h' = (s.contents h).eraseIdx i := by
  have hcap := s.len_le_cap
  set left : Slice := ⟨s.array, s.off, i, s.cap, by omega⟩ with hleft
  set right : Slice := ⟨s.array, s.off + (i + 1), s.len - (i + 1), s.cap - (i + 1), by omega⟩
    with hright
  have hlb : left.Backed h := hb
  have hrb : right.Backed h := by
    obtain ⟨arr, ha, hc⟩ := hb
    exact ⟨arr, ha, by simp only [hright]; omega⟩
  have hrl : (right.contents h).length = s.len - (i + 1) := length_contents hrb
  have hfits : left.len + (right.contents h).length ≤ left.cap := by
    rw [hrl]; simp only [hleft]; omega
  have hdel : s.deleteAt h i = some (left.append h (right.contents h) 0) := by
    simp only [deleteAt, reslice, Nat.zero_le, true_and, Nat.add_zero, Nat.sub_zero,
      dif_pos (show i ≤ s.cap by omega), dif_pos (show i + 1 ≤ s.len ∧ s.len ≤ s.cap by omega),
      Option.bind_eq_bind, Option.bind_some, Option.pure_def, hleft, hright]
  have hcell : ∀ a j, cell (left.append h (right.contents h) 0).1 a j =
      if a = s.array ∧ s.off + i ≤ j ∧ j < s.off + (s.len - 1) then cell h a (j + 1)
      else cell h a j := by
    intro a j
    rw [cell_append_of_fits hlb hfits, hrl]
    simp only [hleft]
    by_cases hj : a = s.array ∧ s.off + i ≤ j ∧ j < s.off + (s.len - 1)
    · obtain ⟨rfl, hlo, hhi⟩ := hj
      rw [if_pos ⟨rfl, hlo, by omega⟩, if_pos ⟨rfl, hlo, hhi⟩, getElem?_contents]
      simp only [index, hright]
      rw [if_pos (by omega)]
      congr 1
      omega
    · rw [if_neg hj, if_neg (by omega)]
  refine ⟨(left.append h (right.contents h) 0).1, (left.append h (right.contents h) 0).2, hdel,
    array_append_of_fits hfits, off_append_of_fits hfits, ?_, cap_append_of_fits hfits,
    backed_append hlb, extends_append hlb, hcell, ?_⟩
  · rw [len_append, hrl]
    simp only [hleft]
    omega
  · rw [contents_append hlb, List.eraseIdx_eq_take_drop_succ]
    have htake : left.contents h = (s.contents h).take i := by
      simp only [contents, hleft, List.take_take]
      congr 1
      omega
    have hdrop : right.contents h = (s.contents h).drop (i + 1) := by
      simp only [contents, hright, List.drop_take, List.drop_drop]
    rw [htake, hdrop]

end DeleteAt

end Slice

end GolangSandbox.Model
