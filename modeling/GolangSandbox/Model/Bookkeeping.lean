import Mathlib.Data.List.Nodup
import Mathlib.Data.List.Perm.Basic
import Mathlib.Tactic.Common

/-!
# Keeping books with lists

A conservation proof compares what went into a system with a list of the places where
it can be. These are the facts it needs: what moving one item does to such a list
(`perm_insert`, `flatMap_set_perm`, `flatMap_set_eq`) or to a count over it
(`countP_set_add`, `count_set_add`), how to compare two lists owner by owner
(`perm_of_filter_eq`), and which of two items comes first in a list that only grows at
its end (`pair_sublist_of_prefix`).
-/

set_option autoImplicit false

namespace GolangSandbox.Model

variable {α β : Type}

/-! ## A list that grows at its end -/

/-- The entries of a list with one more at its end. -/
theorem getElem?_concat_eq_some {xs : List α} {x y : α} {i : ℕ} :
    (xs ++ [x])[i]? = some y ↔ xs[i]? = some y ∨ (i = xs.length ∧ y = x) := by
  obtain hlt | heq | hgt := Nat.lt_trichotomy i xs.length
  · rw [List.getElem?_append_left hlt]
    exact ⟨.inl, fun h => h.resolve_right fun hlast => Nat.ne_of_lt hlt hlast.1⟩
  · rw [heq, List.getElem?_concat_length, List.getElem?_eq_none (Nat.le_refl _)]
    simp [eq_comm]
  · rw [List.getElem?_eq_none (by simp only [List.length_append, List.length_singleton]; omega),
      List.getElem?_eq_none (Nat.le_of_lt hgt)]
    exact iff_of_false nofun fun h => h.elim nofun fun hlast => Nat.ne_of_gt hgt hlast.1

/-! ## Moving one item -/

/-- A new item may be entered at any place. -/
theorem perm_insert {xs ys zs : List α} (h : xs.Perm (ys ++ zs)) (x : α) :
    (xs ++ [x]).Perm (ys ++ [x] ++ zs) := by
  refine (h.append_right [x]).trans ?_
  rw [List.append_assoc, List.append_assoc]
  exact List.Perm.append_left _ List.perm_append_comm

/-- One holder changes what it holds. -/
theorem flatMap_set_perm (f : α → List β) {xs : List α} {i : ℕ} {x y : α}
    (hx : xs[i]? = some x) :
    ((xs.set i y).flatMap f ++ f x).Perm (xs.flatMap f ++ f y) := by
  obtain ⟨hlt, rfl⟩ := List.getElem?_eq_some_iff.mp hx
  have hsplit : xs = xs.take i ++ xs[i] :: xs.drop (i + 1) := by simp
  have hset : xs.set i y = xs.take i ++ y :: xs.drop (i + 1) := by
    rw [List.set_eq_take_append_cons_drop, if_pos hlt]
  rw [hset]
  conv_rhs => rw [hsplit]
  simp only [List.flatMap_append, List.flatMap_cons, List.append_assoc]
  apply List.Perm.append_left
  refine List.perm_append_comm.trans ?_
  rw [← List.append_assoc]
  exact List.perm_append_comm.append_right _

/-- One holder changes, but not in what it holds. -/
theorem flatMap_set_eq (f : α → List β) {xs : List α} {i : ℕ} {x y : α}
    (hx : xs[i]? = some x) (hxy : f y = f x) : (xs.set i y).flatMap f = xs.flatMap f := by
  obtain ⟨hlt, rfl⟩ := List.getElem?_eq_some_iff.mp hx
  have hlt' : i < (xs.map f).length := by rwa [List.length_map]
  have hget : f xs[i] = (xs.map f)[i] := (List.getElem_map f).symm
  rw [List.flatMap_def, List.flatMap_def, List.map_set, hxy, hget, List.set_getElem_self]

/-- One entry changes: what it counted for, and what it counts for now. -/
theorem countP_set_add (p : α → Bool) {xs : List α} {i : ℕ} {x : α} (hx : xs[i]? = some x)
    (y : α) : (xs.set i y).countP p + (if p x then 1 else 0) =
      xs.countP p + if p y then 1 else 0 := by
  obtain ⟨hlt, rfl⟩ := List.getElem?_eq_some_iff.mp hx
  have hle : (if p xs[i] then 1 else 0) ≤ xs.countP p := by
    split
    · rename_i hp
      exact List.countP_pos_iff.mpr ⟨xs[i], List.getElem_mem hlt, hp⟩
    · exact Nat.zero_le _
  rw [List.countP_set hlt]
  omega

theorem count_set_add [DecidableEq α] {xs : List α} {i : ℕ} {x : α} (hx : xs[i]? = some x)
    (y a : α) : (xs.set i y).count a + (if x = a then 1 else 0) =
      xs.count a + if y = a then 1 else 0 := by
  have h := countP_set_add (· == a) hx y
  simpa only [List.count_eq_countP, beq_iff_eq] using h

/-- A stronger predicate counts as much only if it holds wherever the weaker one does. -/
theorem countP_eq_countP_iff {p q : α → Bool} {xs : List α} (hpq : ∀ x, p x = true → q x = true) :
    xs.countP p = xs.countP q ↔ ∀ x ∈ xs, q x = true → p x = true := by
  induction xs with
  | nil => simp
  | cons x xs ih =>
    have hle : xs.countP p ≤ xs.countP q := List.countP_mono_left fun x _ => hpq x
    rw [List.forall_mem_cons, ← ih, List.countP_cons, List.countP_cons]
    by_cases hp : p x = true
    · simp [hp, hpq x hp]
    · by_cases hq : q x = true
      · simp [hp, hq]
        omega
      · simp [hp, hq]

/-- What an element is replaced by does not matter to a function that gives both the same. -/
theorem map_set_of_eq {f : α → β} {xs : List α} {i : ℕ} {x y : α} (hx : xs[i]? = some x)
    (h : f y = f x) : (xs.set i y).map f = xs.map f := by
  have hget : (xs.map f)[i]? = some (f x) := by
    rw [List.getElem?_map, hx, Option.map_some]
  obtain ⟨hlt, heq⟩ := List.getElem?_eq_some_iff.mp hget
  rw [List.map_set, h, ← heq, List.set_getElem_self]

/-- The entries of a list of which one was replaced. -/
theorem getElem?_set_eq_some {xs : List α} {i j : ℕ} {x y : α} (h : (xs.set i x)[j]? = some y) :
    j = i ∧ y = x ∨ j ≠ i ∧ xs[j]? = some y := by
  rw [List.getElem?_set] at h
  split at h
  · rename_i hij
    split at h
    · exact .inl ⟨hij.symm, (Option.some.inj h).symm⟩
    · cases h
  · rename_i hij
    exact .inr ⟨Ne.symm hij, h⟩

/-- What two holders hold is held twice. -/
theorem two_le_count_flatMap [DecidableEq β] {f : α → List β} {xs : List α} {p q : α} {x : β}
    (hp : p ∈ xs) (hq : q ∈ xs) (hpq : q ≠ p) (hxp : x ∈ f p) (hxq : x ∈ f q) :
    2 ≤ (xs.flatMap f).count x := by
  obtain ⟨ys, zs, rfl⟩ := List.append_of_mem hp
  have hp1 : 0 < (f p).count x := List.count_pos_iff.mpr hxp
  have hq1 : 0 < (ys.flatMap f).count x + (zs.flatMap f).count x := by
    rw [List.mem_append, List.mem_cons] at hq
    obtain hq | hq | hq := hq
    · have := List.count_pos_iff.mpr (List.mem_flatMap.mpr ⟨q, hq, hxq⟩)
      omega
    · exact absurd hq hpq
    · have := List.count_pos_iff.mpr (List.mem_flatMap.mpr ⟨q, hq, hxq⟩)
      omega
  rw [List.flatMap_append, List.flatMap_cons, List.count_append, List.count_append]
  omega

/-! ## Comparing two lists -/

/-- Two lists with the same part for every owner agree up to order. -/
theorem perm_of_filter_eq [DecidableEq α] [DecidableEq β] (owner : α → β) {xs ys : List α}
    (h : ∀ b, xs.filter (fun x => owner x = b) = ys.filter fun x => owner x = b) :
    xs.Perm ys := by
  rw [List.perm_iff_count]
  intro a
  have howner : ∀ zs : List α, (zs.filter fun x => owner x = owner a).count a = zs.count a :=
    fun zs => List.count_filter (by simp)
  rw [← howner xs, ← howner ys, h]

/-- What belongs to one owner in a list that is put together owner by owner. -/
theorem filter_flatMap_owner [DecidableEq β] {owner : α → β} {f : β → List α}
    (howner : ∀ b, ∀ x ∈ f b, owner x = b) {bs : List β} (hnd : bs.Nodup) (b : β) :
    (bs.flatMap f).filter (fun x => owner x = b) = if b ∈ bs then f b else [] := by
  induction bs with
  | nil => rfl
  | cons c bs ih =>
    rw [List.nodup_cons] at hnd
    rw [List.flatMap_cons, List.filter_append, ih hnd.2]
    by_cases hcb : c = b
    · subst hcb
      have hall : (f c).filter (fun x => owner x = c) = f c :=
        List.filter_eq_self.mpr fun x hx => decide_eq_true (howner c x hx)
      rw [hall, if_neg hnd.1, if_pos List.mem_cons_self, List.append_nil]
    · have hnone : (f c).filter (fun x => owner x = b) = [] :=
        List.filter_eq_nil_iff.mpr fun x hx => by
          rw [howner c x hx, decide_eq_true_eq]
          exact hcb
      rw [hnone, List.nil_append]
      simp only [List.mem_cons, Ne.symm hcb, false_or]

/-- Looking up all indices gives the list back. -/
theorem filterMap_getElem?_range (xs : List α) :
    (List.range xs.length).filterMap (fun k => xs[k]?) = xs := by
  have hmap : (List.range xs.length).map (fun k => xs[k]?) = xs.map some := by
    apply List.ext_getElem?
    intro i
    by_cases hi : i < xs.length
    · simp [hi]
    · simp [hi]
  have := congrArg (List.filterMap id) hmap
  simpa [List.filterMap_map] using this

/-! ## Order in a list that grows -/

/-- What was there before comes first. -/
theorem pair_sublist_of_prefix {xs ys : List α} {a b : α} (h : xs <+: ys) (ha : a ∈ xs)
    (hb : b ∉ xs) (hb' : b ∈ ys) : [a, b].Sublist ys := by
  obtain ⟨zs, rfl⟩ := h
  have hbz : b ∈ zs := (List.mem_append.mp hb').resolve_left hb
  exact (List.singleton_sublist.mpr ha).append (List.singleton_sublist.mpr hbz)

theorem pair_sublist_range' {p n i : ℕ} (hp : p < i) (hi : i < p + n) :
    [i - 1, i].Sublist (List.range' p n) := by
  have hpair : [i - 1, i] = List.range' (i - 1) 2 := by
    simp [List.range'_succ, Nat.sub_add_cancel (by omega : 1 ≤ i)]
  have hleft := List.range'_append_1 (s := p) (m := i - 1 - p) (n := n - (i - 1 - p))
  have hright := List.range'_append_1 (s := i - 1) (m := 2) (n := n - (i + 1 - p))
  rw [show p + (i - 1 - p) = i - 1 by omega, show i - 1 - p + (n - (i - 1 - p)) = n by omega]
    at hleft
  rw [show 2 + (n - (i + 1 - p)) = n - (i - 1 - p) by omega] at hright
  rw [hpair, ← hleft, ← hright]
  exact (List.sublist_append_left _ _).trans (List.sublist_append_right _ _)

/-- There is always a number that was not used. -/
theorem exists_fresh (cs : List ℕ) : ∃ c, c ∉ cs := by
  have hbound : ∃ n : ℕ, ∀ c ∈ cs, c < n := by
    induction cs with
    | nil => exact ⟨0, by simp⟩
    | cons c cs ih =>
      obtain ⟨n, hn⟩ := ih
      refine ⟨max n (c + 1), fun c' hc' => ?_⟩
      obtain rfl | hc' := List.mem_cons.mp hc'
      · omega
      · have := hn c' hc'
        omega
  obtain ⟨n, hn⟩ := hbound
  exact ⟨n, fun h => Nat.lt_irrefl n (hn n h)⟩

end GolangSandbox.Model
