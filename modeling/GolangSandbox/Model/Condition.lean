import GolangSandbox.Model.Bookkeeping

/-!
# Condition variables

The threads of a program as seen from one condition variable and its lock. A thread is
`running`, at a place of its own, or it is `parked` in the wait, or it was `woken` and has
to get the lock again before it looks at its condition. Where a thread waits (`κ`) stays
with it when it is woken.

`signal` wakes one parked thread, any one, and does nothing only when there is none.
`broadcast` wakes all of them, so that nobody is parked (`notMem_broadcast`). A signal does
not touch a running thread (`running_signal`), and what it does to the numbers of parked
and woken threads is `count_signal`. What does not depend on whether a thread is awake is
unchanged by both (`map_signal`, `map_broadcast`).
-/

set_option autoImplicit false

namespace GolangSandbox.Model

/-- A thread of a program with one condition variable. -/
inductive Thread (κ ρ : Type) where
  | running (p : ρ)
  | parked (k : κ)
  | woken (k : κ)
  deriving DecidableEq, Repr

namespace Thread

variable {κ ρ : Type}

/-- The thread waits and was not woken. -/
def isParked : Thread κ ρ → Bool
  | parked _ => true
  | _ => false

/-- Wake the thread if it is parked. -/
def wake : Thread κ ρ → Thread κ ρ
  | parked k => woken k
  | t => t

/-- The threads after a signal that woke the one with this index. -/
def signal (ts : List (Thread κ ρ)) : Option ℕ → Option (List (Thread κ ρ))
  | some i =>
    match ts[i]? with
    | some (parked k) => some (ts.set i (woken k))
    | _ => none
  | none => if ts.any isParked then none else some ts

/-- The threads after a broadcast. -/
def broadcast (ts : List (Thread κ ρ)) : List (Thread κ ρ) := ts.map wake

variable {ts ts' : List (Thread κ ρ)}

theorem isParked_eq_true {t : Thread κ ρ} : t.isParked = true ↔ ∃ k, t = parked k := by
  cases t <;> simp [isParked]

/-- **What a signal does**: nothing if nobody is parked, and otherwise it wakes one thread. -/
theorem signal_cases {choice : Option ℕ} (h : signal ts choice = some ts') :
    ((∀ k, parked k ∉ ts) ∧ ts' = ts) ∨
      ∃ i k, ts[i]? = some (parked k) ∧ ts' = ts.set i (woken k) := by
  cases choice with
  | none =>
    simp only [signal] at h
    split at h
    · cases h
    · rename_i hany
      refine .inl ⟨fun k hk => hany ?_, (Option.some.inj h).symm⟩
      exact List.any_eq_true.mpr ⟨_, hk, rfl⟩
  | some i =>
    simp only [signal] at h
    split at h
    · rename_i k hk
      exact .inr ⟨i, k, hk, (Option.some.inj h).symm⟩
    · cases h

/-- A signal finds somebody to wake, or there was nobody. -/
theorem exists_signal (ts : List (Thread κ ρ)) :
    ∃ choice ts', signal ts choice = some ts' := by
  by_cases hany : ts.any isParked
  · obtain ⟨t, ht, hp⟩ := List.any_eq_true.mp hany
    obtain ⟨k, rfl⟩ := isParked_eq_true.mp hp
    obtain ⟨i, hi⟩ := List.mem_iff_getElem?.mp ht
    exact ⟨some i, ts.set i (woken k), by simp only [signal, hi]⟩
  · exact ⟨none, ts, by simp only [signal, hany, Bool.false_eq_true, if_false]⟩

/-- A signal does not touch a running thread. -/
theorem running_signal {choice : Option ℕ} (h : signal ts choice = some ts') {i : ℕ} {p : ρ} :
    ts'[i]? = some (running p) ↔ ts[i]? = some (running p) := by
  obtain ⟨-, rfl⟩ | ⟨j, k, hj, rfl⟩ := signal_cases h
  · exact Iff.rfl
  · by_cases hij : j = i
    · subst hij
      rw [List.getElem?_set_self (List.getElem?_eq_some_iff.mp hj).1, hj]
      simp
    · rw [List.getElem?_set_ne hij]

/-- What does not depend on whether a thread is awake is kept by a signal. -/
theorem map_signal {β : Type} (f : Thread κ ρ → β) (hf : ∀ k, f (woken k) = f (parked k))
    {choice : Option ℕ} (h : signal ts choice = some ts') : ts'.map f = ts.map f := by
  obtain ⟨-, rfl⟩ | ⟨i, k, hi, rfl⟩ := signal_cases h
  · rfl
  · exact map_set_of_eq hi (hf k)

theorem map_broadcast {β : Type} (f : Thread κ ρ → β) (hf : ∀ k, f (woken k) = f (parked k))
    (ts : List (Thread κ ρ)) : (broadcast ts).map f = ts.map f := by
  rw [broadcast, List.map_map]
  apply List.map_congr_left
  intro t _
  cases t with
  | running p => rfl
  | parked k => exact hf k
  | woken k => rfl

theorem countP_of_map {p : Thread κ ρ → Bool} (h : ts'.map p = ts.map p) :
    ts'.countP p = ts.countP p := by
  have hcount : ∀ us : List (Thread κ ρ), us.countP p = (us.map p).countP id := fun us => by
    rw [List.countP_map]
    rfl
  rw [hcount, hcount, h]

/-- After a broadcast nobody is parked. -/
theorem notMem_broadcast (ts : List (Thread κ ρ)) (k : κ) : parked k ∉ broadcast ts := by
  intro hk
  obtain ⟨t, -, ht⟩ := List.mem_map.mp hk
  cases t <;> cases ht

/-! ## Counting -/

variable [DecidableEq κ] [DecidableEq ρ]

/-- **What a signal does to the counts**: nothing if nobody is parked, and otherwise one
thread goes from parked to woken, where it waits. -/
theorem count_signal {choice : Option ℕ} (h : signal ts choice = some ts') :
    ((∀ k, ts.count (parked k) = 0) ∧ ts' = ts) ∨
      ∃ k, (∀ k', ts'.count (parked k') + (if k' = k then 1 else 0) = ts.count (parked k')) ∧
        ∀ k', ts'.count (woken k') = ts.count (woken k') + if k' = k then 1 else 0 := by
  obtain ⟨hnone, rfl⟩ | ⟨i, k, hi, rfl⟩ := signal_cases h
  · exact .inl ⟨fun k => List.count_eq_zero.mpr (hnone k), rfl⟩
  · refine .inr ⟨k, fun k' => ?_, fun k' => ?_⟩
    · have h := count_set_add hi (woken k) (parked k')
      simpa only [parked.injEq, reduceCtorEq, if_false, Nat.add_zero, @eq_comm _ k k'] using h
    · have h := count_set_add hi (woken k) (woken k')
      simpa only [woken.injEq, reduceCtorEq, if_false, Nat.add_zero, @eq_comm _ k k'] using h

end Thread

end GolangSandbox.Model
