import Mathlib.Data.List.Basic
import Mathlib.Tactic.Common

/-!
# A buffered reader over a finite source

A source is a finite list of elements followed by an error that every later read
returns. `readString` is the delimited read of a buffered reader: it returns the
elements through the first delimiter, or everything that is left together with
the error when there is no delimiter.

The two equations `readString_append_cons` and `readString_of_notMem` determine
it, and `cut_eq_some` inverts a cut.
-/

set_option autoImplicit false

namespace GolangSandbox.Model

/-- What is still unread, and the error behind it. -/
structure Source (α ε : Type) where
  data : List α
  fault : ε
  deriving DecidableEq, Repr

section Cut

variable {α : Type} [DecidableEq α] {d : α}

/-- Cut a list behind the first `d`. -/
def cut (d : α) : List α → Option (List α × List α)
  | [] => none
  | x :: xs => if x = d then some ([x], xs) else (cut d xs).map fun p => (x :: p.1, p.2)

/-- The cut of a list that shows its first delimiter. -/
theorem cut_append_cons {p : List α} (hp : d ∉ p) (rest : List α) :
    cut d (p ++ d :: rest) = some (p ++ [d], rest) := by
  induction p with
  | nil => simp [cut]
  | cons x p ih =>
    rw [List.mem_cons, not_or] at hp
    simp only [List.cons_append, cut, if_neg (Ne.symm hp.1), ih hp.2, Option.map_some]

theorem cut_of_notMem {s : List α} (hs : d ∉ s) : cut d s = none := by
  induction s with
  | nil => rfl
  | cons x s ih =>
    rw [List.mem_cons, not_or] at hs
    simp only [cut, if_neg (Ne.symm hs.1), ih hs.2, Option.map_none]

theorem cut_eq_some {s line rest : List α} :
    cut d s = some (line, rest) ↔ ∃ p, d ∉ p ∧ line = p ++ [d] ∧ s = p ++ d :: rest := by
  constructor
  · intro h
    have hd : d ∈ s := by
      by_contra hd
      rw [cut_of_notMem hd] at h
      cases h
    obtain ⟨p, rest', rfl, hp⟩ := List.eq_append_cons_of_mem hd
    rw [cut_append_cons hp, Option.some.injEq, Prod.mk.injEq] at h
    obtain ⟨rfl, rfl⟩ := h
    exact ⟨p, hp, rfl, rfl⟩
  · rintro ⟨p, hp, rfl, rfl⟩
    exact cut_append_cons hp rest

/-- The part of a list in front of its first delimiter is determined by the list. -/
theorem append_cons_inj {p q s t : List α} (hp : d ∉ p) (hq : d ∉ q)
    (h : p ++ d :: s = q ++ d :: t) : p = q ∧ s = t := by
  have hcut := congrArg (cut d) h
  rw [cut_append_cons hp, cut_append_cons hq, Option.some.injEq, Prod.mk.injEq] at hcut
  exact ⟨List.append_cancel_right hcut.1, hcut.2⟩

end Cut

namespace Source

variable {α ε : Type} [DecidableEq α] {d : α}

/-- Read through the first `delim`. Without one, all remaining data is returned
with the error, and nothing is left. -/
def readString (r : Source α ε) (delim : α) : List α × Option ε × Source α ε :=
  match cut delim r.data with
  | some (line, rest) => (line, none, ⟨rest, r.fault⟩)
  | none => (r.data, some r.fault, ⟨[], r.fault⟩)

theorem readString_append_cons {p : List α} (hp : d ∉ p) (rest : List α) (f : ε) :
    readString ⟨p ++ d :: rest, f⟩ d = (p ++ [d], none, ⟨rest, f⟩) := by
  simp only [readString, cut_append_cons hp]

theorem readString_of_notMem {s : List α} (hs : d ∉ s) (f : ε) :
    readString ⟨s, f⟩ d = (s, some f, ⟨[], f⟩) := by
  simp only [readString, cut_of_notMem hs]

end Source

end GolangSandbox.Model
