import GolangSandbox.Model.Condition
import GolangSandbox.Model.Transition
import Mathlib.Data.Int.Notation

/-!
# Producers and consumers with one shared condition variable

`produce_consume/model1/main3.go`: producers and consumers count products up and down
under one lock, and all of them wait on one condition variable. `Signal` may wake either
kind. The producer that makes the last product sets `done` and wakes everybody.

A section under the lock is one step, from `Lock` to the `Wait` or `Unlock` that ends it,
and a goroutine that was woken runs the same section again from its loop condition. The
constants of the source are parameters. How many products were consumed, on either of the
two paths, is kept as history.
-/

set_option autoImplicit false

namespace GolangSandbox.Program

open GolangSandbox.Model

/-- SOURCE: produce_consume/model1/main3.go:9-14 -/
structure Constants where
  producers : ℕ
  consumers : ℕ
  products : ℤ
  totalProducts : ℤ

/-- The constants as they are in the source. -/
def mainConstants : Constants := ⟨5, 2, 20, 5 * 20⟩

/-- What a goroutine runs. -/
inductive Role where
  | producer
  | consumer
  deriving DecidableEq, Repr

/-- Where a goroutine is outside its sections: in front of `Lock`, or returned. -/
inductive Place where
  | ready
  | exited
  deriving DecidableEq, Repr

/-- A goroutine of `main`; it waits in the loop of its own function. -/
abbrev Routine := Thread Role (Role × Place)

/-- The function a goroutine runs, wherever it is. -/
def roleOf : Routine → Role
  | .running p => p.1
  | .parked r => r
  | .woken r => r

/-- The shared state.
SOURCE: produce_consume/model1/main3.go:16-23 -/
structure Products where
  productCount : ℤ
  producedCount : ℤ
  done : Bool
  routines : List Routine
  consumed : ℕ
  deriving DecidableEq, Repr

namespace Products

/-- `main` has started all goroutines.
SOURCE: produce_consume/model1/main3.go:81-90 -/
def newProducts (k : Constants) : Products where
  productCount := 0
  producedCount := 0
  done := false
  routines := List.replicate k.consumers (.running (.consumer, .ready)) ++
    List.replicate k.producers (.running (.producer, .ready))
  consumed := 0

/-- The goroutine `g` goes on at `x`. -/
def goOn (s : Products) (g : ℕ) (x : Routine) : Products :=
  { s with routines := s.routines.set g x }

/-- The section of `Produce`; `wake` is the goroutine that `Signal` wakes.
SOURCE: produce_consume/model1/main3.go:25-53 -/
def produce (k : Constants) (s : Products) (g : ℕ) (wake : Option ℕ) : Option Products :=
  if s.productCount ≥ k.products ∧ s.done = false then some (s.goOn g (.parked .producer))
  else if s.done then some (s.goOn g (.running (.producer, .exited)))
  else
    let made : Products :=
      ({ s with
        productCount := s.productCount + 1
        producedCount := s.producedCount + 1 } : Products).goOn g (.running (.producer, .ready))
    if made.producedCount ≥ k.totalProducts then
      some { made with done := true, routines := Thread.broadcast made.routines }
    else
      (Thread.signal made.routines wake).map fun routines => { made with routines := routines }

/-- The section of `Consume`. When `done` is set it prints a consumption for every product
that is left, and does not count `productCount` down.
SOURCE: produce_consume/model1/main3.go:55-79 -/
def consume (s : Products) (g : ℕ) (wake : Option ℕ) : Option Products :=
  if s.productCount ≤ 0 ∧ s.done = false then some (s.goOn g (.parked .consumer))
  else if s.done then
    some (({ s with consumed := s.consumed + s.productCount.toNat } : Products).goOn g
      (.running (.consumer, .exited)))
  else
    let taken : Products :=
      ({ s with
        productCount := s.productCount - 1
        consumed := s.consumed + 1 } : Products).goOn g (.running (.consumer, .ready))
    (Thread.signal taken.routines wake).map fun routines => { taken with routines := routines }

/-- The goroutine `g` gets the lock, in `Lock` or back from `Wait`. -/
structure Action where
  g : ℕ
  wake : Option ℕ
  deriving DecidableEq, Repr

/-- One section under the lock. -/
def step (k : Constants) (s : Products) (a : Action) : Option Products :=
  match s.routines[a.g]? with
  | some (.running (.producer, .ready)) | some (.woken .producer) => s.produce k a.g a.wake
  | some (.running (.consumer, .ready)) | some (.woken .consumer) => s.consume a.g a.wake
  | _ => none

/-! ## What a step does -/

/-- Where a goroutine is when it gets the lock. -/
inductive Entering (r : Role) : Routine → Prop where
  | lock : Entering r (.running (r, .ready))
  | wait : Entering r (.woken r)

theorem Entering.ne_parked {r : Role} {x : Routine} (hx : Entering r x) (r' : Role) :
    x ≠ .parked r' := by
  rintro rfl
  cases hx

theorem Entering.ne_exited {r : Role} {x : Routine} (hx : Entering r x) (r' : Role) :
    x ≠ .running (r', .exited) := by
  rintro rfl
  cases hx

/-- The loop condition that sends a goroutine into `Wait`, apart from `done`. -/
def Blocked (k : Constants) (s : Products) : Role → Prop
  | .producer => k.products ≤ s.productCount
  | .consumer => s.productCount ≤ 0

/-- What a goroutine consumes when it leaves. -/
def leftover (s : Products) : Role → ℕ
  | .producer => 0
  | .consumer => s.productCount.toNat

/-- What a section leads to, with what makes it possible. -/
inductive Effect (k : Constants) (s : Products) (g : ℕ) : Products → Prop where
  | park {r : Role} {x : Routine} (hg : s.routines[g]? = some x) (hx : Entering r x)
      (hblocked : Blocked k s r) (hopen : s.done = false) : Effect k s g (s.goOn g (.parked r))
  | exit {r : Role} {x : Routine} (hg : s.routines[g]? = some x) (hx : Entering r x)
      (hdone : s.done = true) :
      Effect k s g (({ s with consumed := s.consumed + leftover s r } : Products).goOn g
        (.running (r, .exited)))
  | last {x : Routine} (hg : s.routines[g]? = some x) (hx : Entering .producer x)
      (hroom : s.productCount < k.products) (hopen : s.done = false)
      (hlast : k.totalProducts ≤ s.producedCount + 1) :
      Effect k s g
        { s with
          productCount := s.productCount + 1
          producedCount := s.producedCount + 1
          done := true
          routines := Thread.broadcast (s.routines.set g (.running (.producer, .ready))) }
  | produce {x : Routine} {wake : Option ℕ} {routines : List Routine}
      (hg : s.routines[g]? = some x) (hx : Entering .producer x)
      (hroom : s.productCount < k.products) (hopen : s.done = false)
      (hmore : s.producedCount + 1 < k.totalProducts)
      (hsignal : Thread.signal (s.routines.set g (.running (.producer, .ready))) wake =
        some routines) :
      Effect k s g
        { s with
          productCount := s.productCount + 1
          producedCount := s.producedCount + 1
          routines := routines }
  | consume {x : Routine} {wake : Option ℕ} {routines : List Routine}
      (hg : s.routines[g]? = some x) (hx : Entering .consumer x)
      (hsome : 0 < s.productCount) (hopen : s.done = false)
      (hsignal : Thread.signal (s.routines.set g (.running (.consumer, .ready))) wake =
        some routines) :
      Effect k s g
        { s with
          productCount := s.productCount - 1
          consumed := s.consumed + 1
          routines := routines }

variable {k : Constants} {s t : Products} {g : ℕ} {wake : Option ℕ} {x : Routine}

theorem effect_of_produce (hg : s.routines[g]? = some x) (hx : Entering .producer x)
    (h : s.produce k g wake = some t) : Effect k s g t := by
  unfold produce at h
  split at h
  · rename_i hpark
    exact Option.some.inj h ▸ .park hg hx hpark.1 hpark.2
  rename_i hgo
  split at h
  · rename_i hdone
    have hexit := Effect.exit (k := k) hg hx hdone
    rw [leftover, Nat.add_zero] at hexit
    exact Option.some.inj h ▸ hexit
  rename_i hopen
  rw [Bool.not_eq_true] at hopen
  have hroom : s.productCount < k.products := by
    by_contra hfull
    exact hgo ⟨by omega, hopen⟩
  dsimp only [goOn] at h
  split at h
  · rename_i hlast
    exact Option.some.inj h ▸ .last hg hx hroom hopen hlast
  · rename_i hmore
    obtain ⟨routines, hsignal, rfl⟩ := Option.map_eq_some_iff.mp h
    exact .produce hg hx hroom hopen (by simpa using hmore) hsignal

theorem effect_of_consume (hg : s.routines[g]? = some x) (hx : Entering .consumer x)
    (h : s.consume g wake = some t) : Effect k s g t := by
  unfold consume at h
  split at h
  · rename_i hpark
    exact Option.some.inj h ▸ .park hg hx hpark.1 hpark.2
  rename_i hgo
  split at h
  · rename_i hdone
    exact Option.some.inj h ▸ .exit hg hx hdone
  rename_i hopen
  rw [Bool.not_eq_true] at hopen
  have hsome : 0 < s.productCount := by
    by_contra hnone
    exact hgo ⟨by omega, hopen⟩
  obtain ⟨routines, hsignal, rfl⟩ := Option.map_eq_some_iff.mp h
  exact .consume hg hx hsome hopen hsignal

theorem effect_of_step {a : Action} (h : s.step k a = some t) : Effect k s a.g t := by
  unfold step at h
  split at h
  · rename_i hg
    exact effect_of_produce hg .lock h
  · rename_i hg
    exact effect_of_produce hg .wait h
  · rename_i hg
    exact effect_of_consume hg .lock h
  · rename_i hg
    exact effect_of_consume hg .wait h
  · cases h

end Products

end GolangSandbox.Program
