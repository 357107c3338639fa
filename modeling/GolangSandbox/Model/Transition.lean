import Mathlib.Data.List.Induction
import Mathlib.Tactic.Common

/-!
# Runs of a step function

A concurrent program is a partial step function `step : σ → α → Option σ`: the
action says which goroutine moves and how every free choice is resolved, and
`none` says that the action is not possible in that state. A schedule is a list
of actions, so a statement about every interleaving is a statement about every
list.

`run_induction` is the rule every invariant is proved with: what holds of the
empty run and is kept when one action is added holds of every run. `Along C`
restricts a run to steps that meet a condition on the state before the step,
and `run_simulates` carries a run of one step function over to another.
-/

set_option autoImplicit false

namespace GolangSandbox.Model

section Runs

variable {σ α : Type*} (step : σ → α → Option σ)

/-- The state reached from `s` by the actions of `as`, in order. -/
def run (s : σ) (as : List α) : Option σ := as.foldlM step s

@[simp] theorem run_nil (s : σ) : run step s [] = some s := rfl

@[simp] theorem run_cons (s : σ) (a : α) (as : List α) :
    run step s (a :: as) = (step s a).bind fun t => run step t as := rfl

/-- A run of a concatenation is the run of its first part, then of its second. -/
theorem run_append (s : σ) (as bs : List α) :
    run step s (as ++ bs) = (run step s as).bind fun t => run step t bs := by
  simp only [run, List.foldlM_append]
  rfl

variable {step}

/-- The middle state of a run of a concatenation. -/
theorem run_append_eq_some {s u : σ} {as bs : List α} :
    run step s (as ++ bs) = some u ↔
      ∃ t, run step s as = some t ∧ run step t bs = some u := by
  rw [run_append, Option.bind_eq_some_iff]

/-- The first step of a nonempty run. -/
theorem run_cons_eq_some {s u : σ} {a : α} {as : List α} :
    run step s (a :: as) = some u ↔ ∃ t, step s a = some t ∧ run step t as = some u := by
  rw [run_cons, Option.bind_eq_some_iff]

/-- The last step of a nonempty run. -/
theorem run_concat_eq_some {s u : σ} {as : List α} {a : α} :
    run step s (as ++ [a]) = some u ↔ ∃ t, run step s as = some t ∧ step t a = some u := by
  rw [run_append_eq_some]
  simp

/-- **The run rule.** A relation between the actions taken so far and the state
reached holds of every run if it holds of the empty one and every further step
keeps it. -/
theorem run_induction {I : List α → σ → Prop} {s : σ} (hnil : I [] s)
    (hstep : ∀ as t a u, run step s as = some t → I as t → step t a = some u →
      I (as ++ [a]) u)
    {as : List α} {t : σ} (h : run step s as = some t) : I as t := by
  induction as using List.reverseRecOn generalizing t with
  | nil =>
    rw [run_nil, Option.some.injEq] at h
    exact h ▸ hnil
  | append_singleton as a ih =>
    obtain ⟨u, hu, ha⟩ := run_concat_eq_some.mp h
    exact hstep as u a t hu (ih hu) ha

/-- The run rule for a property of the state alone. -/
theorem run_invariant {I : σ → Prop} {s t : σ} {as : List α} (hs : I s)
    (hstep : ∀ t a u, I t → step t a = some u → I u) (h : run step s as = some t) : I t :=
  run_induction (I := fun _ t => I t) hs (fun _ t a u _ ht ha => hstep t a u ht ha) h

/-- A reflexive and transitive relation that every step respects holds between
the ends of every run. -/
theorem run_monotone {R : σ → σ → Prop} (hrefl : ∀ s, R s s)
    (htrans : ∀ s t u, R s t → R t u → R s u)
    (hstep : ∀ s a t, step s a = some t → R s t)
    {s t : σ} {as : List α} (h : run step s as = some t) : R s t :=
  run_induction (I := fun _ t => R s t) (hrefl s)
    (fun _ t a u _ ht ha => htrans s t u ht (hstep t a u ha)) h

end Runs

/-! ## Runs whose steps meet a condition -/

section Along

variable {σ α : Type*}

/-- Every step of the run of `as` from `s` meets `C`, a condition on the state
before the step and the action taken there. -/
def Along (step : σ → α → Option σ) (C : σ → α → Prop) : σ → List α → Prop
  | _, [] => True
  | s, a :: as => C s a ∧ ∀ t, step s a = some t → Along step C t as

variable {step : σ → α → Option σ} {C : σ → α → Prop}

@[simp] theorem along_nil (s : σ) : Along step C s [] := trivial

theorem along_cons {s : σ} {a : α} {as : List α} :
    Along step C s (a :: as) ↔ C s a ∧ ∀ t, step s a = some t → Along step C t as := Iff.rfl

/-- A condition on the actions alone. -/
theorem along_of_forall {P : α → Prop} {as : List α} (h : ∀ a ∈ as, P a) (s : σ) :
    Along step (fun _ a => P a) s as := by
  induction as generalizing s with
  | nil => trivial
  | cons a as ih =>
    rw [List.forall_mem_cons] at h
    exact ⟨h.1, fun t _ => ih h.2 t⟩

theorem Along.imp {D : σ → α → Prop} (hCD : ∀ s a, C s a → D s a) {s : σ} {as : List α}
    (h : Along step C s as) : Along step D s as := by
  induction as generalizing s with
  | nil => trivial
  | cons a as ih => exact ⟨hCD s a h.1, fun t ht => ih (h.2 t ht)⟩

theorem along_cons_of_step {s t : σ} {a : α} {as : List α} (h : step s a = some t) :
    Along step C s (a :: as) ↔ C s a ∧ Along step C t as := by
  rw [along_cons, h]
  refine and_congr_right fun _ => ⟨fun hall => hall t rfl, ?_⟩
  rintro hall u hu
  exact Option.some.inj hu ▸ hall

/-- A condition that can be decided can be decided along a run. -/
instance decidableAlong [∀ s a, Decidable (C s a)] :
    (s : σ) → (as : List α) → Decidable (Along step C s as)
  | _, [] => isTrue trivial
  | s, a :: as =>
    match h : step s a with
    | none => decidable_of_iff (C s a) (by simp [along_cons, h])
    | some t =>
      have := decidableAlong t as
      decidable_of_iff (C s a ∧ Along step C t as) (along_cons_of_step h).symm

/-- Both parts of a run that meets a condition meet it. -/
theorem along_append {s t : σ} {as bs : List α} (h : run step s as = some t) :
    Along step C s (as ++ bs) ↔ Along step C s as ∧ Along step C t bs := by
  induction as generalizing s with
  | nil =>
    rw [run_nil, Option.some.injEq] at h
    simp [h]
  | cons a as ih =>
    obtain ⟨u, hu, hrun⟩ := run_cons_eq_some.mp h
    simp only [List.cons_append, along_cons, and_assoc, and_congr_right_iff]
    intro _
    constructor
    · intro hall
      have := (ih hrun).mp (hall u hu)
      refine ⟨fun v hv => ?_, this.2⟩
      rw [hu, Option.some.injEq] at hv
      exact hv ▸ this.1
    · rintro ⟨hall, hbs⟩ v hv
      rw [hu, Option.some.injEq] at hv
      subst hv
      exact (ih hrun).mpr ⟨hall u hu, hbs⟩

/-- In a run that meets a condition on the actions alone every action meets it. -/
theorem forall_of_along {P : α → Prop} {s t : σ} {as : List α} (h : run step s as = some t)
    (hP : Along step (fun _ a => P a) s as) : ∀ a ∈ as, P a := by
  induction as generalizing s with
  | nil => exact List.forall_mem_nil P
  | cons a as ih =>
    obtain ⟨u, hu, hrun⟩ := run_cons_eq_some.mp h
    exact List.forall_mem_cons.mpr ⟨hP.1, ih hrun (hP.2 u hu)⟩

/-- **The run rule under a condition.** Only steps that meet the condition have
to keep the relation. -/
theorem run_induction_along {I : List α → σ → Prop} {s : σ} (hnil : I [] s)
    (hstep : ∀ as t a u, run step s as = some t → I as t → C t a → step t a = some u →
      I (as ++ [a]) u)
    {as : List α} {t : σ} (h : run step s as = some t) (hC : Along step C s as) : I as t := by
  have key : Along step C s as → I as t := by
    refine run_induction (I := fun as t => Along step C s as → I as t) (fun _ => hnil) ?_ h
    intro as t a u hrun ih ha hC
    rw [along_append hrun] at hC
    exact hstep as t a u hrun (ih hC.1) hC.2.1 ha
  exact key hC

/-- A run that leaves the condition has a first step that does. -/
theorem exists_first_violation {s t : σ} {as : List α} (h : run step s as = some t)
    (hC : ¬ Along step C s as) :
    ∃ as₁ a as₂ u, as = as₁ ++ a :: as₂ ∧ run step s as₁ = some u ∧ Along step C s as₁ ∧
      ¬ C u a := by
  induction as generalizing s with
  | nil => exact absurd (along_nil s) hC
  | cons a as ih =>
    obtain ⟨u, hu, hrun⟩ := run_cons_eq_some.mp h
    rw [along_cons_of_step hu] at hC
    by_cases ha : C s a
    · obtain ⟨as₁, b, as₂, v, rfl, hv, hC₁, hb⟩ := ih hrun fun hrest => hC ⟨ha, hrest⟩
      exact ⟨a :: as₁, b, as₂, v, rfl, run_cons_eq_some.mpr ⟨u, hu, hv⟩,
        (along_cons_of_step hu).mpr ⟨ha, hC₁⟩, hb⟩
    · exact ⟨[], a, as, s, rfl, rfl, along_nil s, ha⟩

end Along

/-! ## Simulation -/

section Simulation

variable {σ α τ β : Type*} {step : σ → α → Option σ} {astep : τ → β → Option τ}

/-- **The simulation rule.** If every concrete step is matched by abstract steps,
every concrete run is matched by an abstract run. -/
theorem run_simulates (R : σ → τ → Prop)
    (hstep : ∀ s a s' t, R s t → step s a = some s' →
      ∃ bs t', run astep t bs = some t' ∧ R s' t')
    {s s' : σ} {t : τ} {as : List α} (hR : R s t) (h : run step s as = some s') :
    ∃ bs t', run astep t bs = some t' ∧ R s' t' := by
  refine run_invariant (I := fun s' => ∃ bs t', run astep t bs = some t' ∧ R s' t')
    ⟨[], t, rfl, hR⟩ ?_ h
  rintro u a u' ⟨bs, t', ht', hR'⟩ ha
  obtain ⟨bs', t'', ht'', hR''⟩ := hstep u a u' t' hR' ha
  exact ⟨bs ++ bs', t'', run_append_eq_some.mpr ⟨t', ht', ht''⟩, hR''⟩

end Simulation

end GolangSandbox.Model
