import Mathlib.Tactic.Common

/-!
# Counting loops, and loops that only a break leaves

`for (i = …; cond; i++) body`, where the body may fail. The loop is a recursion over a
number of rounds that bounds it.

What holds of a loop is proved about the states it passes: `Reaches` says that the loop
comes to the index `j` in the state `u`. `Reaches.rule` is the rule for loop invariants,
`exists_reaches` finds the state in which a loop that has ended stopped, and
`exists_forLoop` says when a loop does not fail.

`breakLoop` is `for { body }`, which stops when a round breaks. It ends when every other
round decreases a measure (`breakLoop_ends`), and it does not when an invariant excludes
the break (`breakLoop_endless`).
-/

set_option autoImplicit false

namespace GolangSandbox.Model

variable {σ ε : Type} (cond : ℕ → σ → Prop) (body : ℕ → σ → Except ε σ)

/-- From index `i` and state `s`, the loop comes to index `j` and state `u`. -/
inductive Reaches (i : ℕ) (s : σ) : ℕ → σ → Prop where
  | start : Reaches i s i s
  | next {j : ℕ} {u v : σ} (h : Reaches i s j u) (hc : cond j u) (hb : body j u = .ok v) :
      Reaches i s (j + 1) v

variable {cond body} {i j k n : ℕ} {s t u v : σ}

/-- **The rule for loop invariants.** -/
theorem Reaches.rule {I : ℕ → σ → Prop} (h : Reaches cond body i s j u) (hstart : I i s)
    (hbody : ∀ j u v, cond j u → body j u = .ok v → I j u → I (j + 1) v) : I j u := by
  induction h with
  | start => exact hstart
  | next _ hc hb ih => exact hbody _ _ _ hc hb ih

/-- One round first. -/
theorem Reaches.cons (hc : cond i s) (hb : body i s = .ok v)
    (h : Reaches cond body (i + 1) v j u) : Reaches cond body i s j u := by
  induction h with
  | start => exact .next .start hc hb
  | next _ hc' hb' ih => exact .next ih hc' hb'

/-- The loop passes every index on its way. -/
theorem Reaches.through (h : Reaches cond body i s k t) (hij : i ≤ j) (hjk : j < k) :
    ∃ u v, Reaches cond body i s j u ∧ cond j u ∧ body j u = .ok v ∧
      Reaches cond body (j + 1) v k t := by
  induction h with
  | start => omega
  | @next k' w w' hreach hc hb ih =>
    by_cases hlast : j = k'
    · subst hlast
      exact ⟨w, w', hreach, hc, hb, .start⟩
    · obtain ⟨u, v, hu, hcu, hbu, hrest⟩ := ih (by omega)
      exact ⟨u, v, hu, hcu, hbu, .next hrest hc hb⟩

/-! ## Running a loop -/

variable [∀ i s, Decidable (cond i s)]

variable (cond body) in
/-- At most `rounds` rounds of the loop from the index `i` on. -/
def forLoop : ℕ → ℕ → σ → Except ε σ
  | 0, _, s => .ok s
  | rounds + 1, i, s => if cond i s then (body i s).bind (forLoop rounds (i + 1)) else .ok s

/-- A loop that has ended stopped at an index where its condition does not hold, or after
its last round. -/
theorem exists_reaches (h : forLoop cond body n i s = .ok t) :
    ∃ j ≤ i + n, Reaches cond body i s j t ∧ (j < i + n → ¬ cond j t) := by
  induction n generalizing i s with
  | zero =>
    cases h
    exact ⟨i, Nat.le_refl i, .start, fun hlt => absurd hlt (Nat.lt_irrefl i)⟩
  | succ n ih =>
    rw [forLoop] at h
    split at h
    · rename_i hc
      cases hb : body i s with
      | error e =>
        rw [hb] at h
        cases h
      | ok v =>
        rw [hb] at h
        obtain ⟨j, hj, hreach, hstop⟩ := ih h
        exact ⟨j, by omega, .cons hc hb hreach, fun hlt => hstop (by omega)⟩
    · rename_i hc
      cases h
      exact ⟨i, Nat.le_add_right i _, .start, fun _ => hc⟩

/-- A loop whose body does not fail where the loop comes to it ends. -/
theorem exists_forLoop (h : ∀ j u, Reaches cond body i s j u → cond j u → ∃ v, body j u = .ok v) :
    ∃ t, forLoop cond body n i s = .ok t := by
  induction n generalizing i s with
  | zero => exact ⟨s, rfl⟩
  | succ n ih =>
    by_cases hc : cond i s
    · obtain ⟨v, hb⟩ := h i s .start hc
      obtain ⟨t, ht⟩ := ih fun j u hreach => h j u (.cons hc hb hreach)
      exact ⟨t, by rw [forLoop, if_pos hc, hb]; exact ht⟩
    · exact ⟨s, by rw [forLoop, if_neg hc]⟩

/-! ## Loops that only a break leaves -/

section Break

/-- At most `rounds` rounds of `for { body }`. The body says with its new state whether it
breaks; `none` means that the loop has not ended yet. -/
def breakLoop (body : σ → σ × Bool) : ℕ → σ → Option σ
  | 0, _ => none
  | rounds + 1, s => if (body s).2 then some (body s).1 else breakLoop body rounds (body s).1

variable {body : σ → σ × Bool} {I Q : σ → Prop}

/-- **The rule for total correctness.** A round keeps the invariant and decreases the
measure, or it breaks and the result holds. -/
theorem breakLoop_ends (measure : σ → ℕ) (hbreak : ∀ s, I s → (body s).2 = true → Q (body s).1)
    (hround : ∀ s, I s → (body s).2 = false → I (body s).1 ∧ measure (body s).1 < measure s)
    (hs : I s) (hn : measure s < n) : ∃ t, breakLoop body n s = some t ∧ Q t := by
  induction n generalizing s with
  | zero => exact absurd hn (Nat.not_lt_zero _)
  | succ n ih =>
    cases hb : (body s).2 with
    | true => exact ⟨(body s).1, by rw [breakLoop, if_pos hb], hbreak s hs hb⟩
    | false =>
      obtain ⟨hinv, hlt⟩ := hround s hs hb
      obtain ⟨t, ht, hq⟩ := ih hinv (by omega)
      exact ⟨t, by rw [breakLoop, if_neg (by rw [hb]; decide), ht], hq⟩

/-- A loop whose invariant excludes the break does not end. -/
theorem breakLoop_endless (hround : ∀ s, I s → (body s).2 = false ∧ I (body s).1) (hs : I s)
    (n : ℕ) : breakLoop body n s = none := by
  induction n generalizing s with
  | zero => rfl
  | succ n ih =>
    obtain ⟨hb, hinv⟩ := hround s hs
    rw [breakLoop, if_neg (by rw [hb]; decide), ih hinv]

end Break

end GolangSandbox.Model
