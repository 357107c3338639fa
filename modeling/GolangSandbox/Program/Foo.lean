import GolangSandbox.Model.Transition
import Mathlib.Data.Int.Notation

/-!
# Printing in order

`leetcode_concurrency/1114.go`: `run` starts a goroutine for every number of its input, and
the methods `first`, `second` and `third` pass a signal on through two channels without
buffers.

A print, a call of `wg.Done` and a step of `run` are one step each. A send on a channel
without a buffer needs a receiver, so the two make one step together (`pass`). A number
that is no key of the map gives a nil function, and `go` with a nil function ends the
program, as does a `wg.Done` too many; both are `panicked`. When `run` returns, `main` does,
and the program is over. The texts are as the source has them, the third one misspelt.
-/

set_option autoImplicit false

namespace GolangSandbox.Program

/-- The methods of `Foo`. -/
inductive Method where
  | first
  | second
  | third
  deriving DecidableEq, Repr

/-- Where a goroutine is: at the receive, in front of its print, at the send, in front of the
deferred `wg.Done`, or returned. -/
inductive Stage where
  | receiving
  | printing
  | sending
  | leaving
  | returned
  deriving DecidableEq, Repr

/-- The program while `run` is going on, with what was printed.
SOURCE: leetcode_concurrency/1114.go:8-12, 39-63 -/
structure Foo where
  input : List ℤ
  wg : ℤ
  routines : List (Method × Stage)
  printed : List String
  returned : Bool
  panicked : Bool
  deriving DecidableEq, Repr

namespace Foo

/-- `run` has made the channels and the map and called `wg.Add(3)`.
SOURCE: leetcode_concurrency/1114.go:39-58 -/
def newFoo (input : List ℤ) : Foo where
  input := input
  wg := 3
  routines := []
  printed := []
  returned := false
  panicked := false

/-- The map from numbers to methods.
SOURCE: leetcode_concurrency/1114.go:45-49 -/
def methodOf (v : ℤ) : Option Method :=
  if v = 1 then some .first
  else if v = 2 then some .second
  else if v = 3 then some .third
  else none

/-- What a method prints.
SOURCE: leetcode_concurrency/1114.go:16, 26, 36 -/
def printText : Method → String
  | .first => "first"
  | .second => "second"
  | .third => "thrid"

/-- Where a method begins. Only `first` waits for nobody.
SOURCE: leetcode_concurrency/1114.go:14-16, 21-24, 31-34 -/
def begins : Method → Stage
  | .first => .printing
  | .second | .third => .receiving

/-- Where a method goes on after its print. Only `third` signals to nobody.
SOURCE: leetcode_concurrency/1114.go:16-18, 26-28, 36-37 -/
def afterPrint : Method → Stage
  | .first | .second => .sending
  | .third => .leaving

theorem printText_inj {m m' : Method} : printText m = printText m' ↔ m = m' := by
  constructor
  · cases m <;> cases m' <;> simp [printText]
  · rintro rfl
    rfl

/-- The methods at the two ends of a channel: `c1` and `c2`.
SOURCE: leetcode_concurrency/1114.go:18, 24, 28, 34 -/
def signals : Method → Option Method
  | .first => some .second
  | .second => some .third
  | .third => none

/-- The steps: the loop of `run` starts a goroutine, `run` passes `wg.Wait`, a goroutine prints
or calls `wg.Done`, and a sender passes its signal to a receiver. -/
inductive Action where
  | spawn
  | wait
  | go (i : ℕ)
  | pass (i j : ℕ)
  deriving DecidableEq, Repr

/-- SOURCE: leetcode_concurrency/1114.go:59-61 -/
def spawn (s : Foo) : Option Foo :=
  match s.input with
  | [] => none
  | v :: input =>
    match methodOf v with
    | some m => some { s with input := input, routines := s.routines ++ [(m, begins m)] }
    | none => some { s with panicked := true }

/-- SOURCE: leetcode_concurrency/1114.go:62 -/
def wait (s : Foo) : Option Foo :=
  if s.input = [] ∧ s.wg = 0 then some { s with returned := true } else none

/-- A print, or the deferred `wg.Done`.
SOURCE: leetcode_concurrency/1114.go:14-37 -/
def go (s : Foo) (i : ℕ) : Option Foo :=
  match s.routines[i]? with
  | some (m, .printing) =>
    some { s with
      routines := s.routines.set i (m, afterPrint m)
      printed := s.printed ++ [printText m] }
  | some (m, .leaving) =>
    if s.wg - 1 < 0 then some { s with panicked := true }
    else some { s with routines := s.routines.set i (m, .returned), wg := s.wg - 1 }
  | _ => none

/-- The goroutine `i` sends and `j` receives.
SOURCE: leetcode_concurrency/1114.go:18, 24, 28, 34 -/
def pass (s : Foo) (i j : ℕ) : Option Foo :=
  match s.routines[i]?, s.routines[j]? with
  | some (m, .sending), some (m', .receiving) =>
    if signals m = some m' then
      some { s with routines := (s.routines.set i (m, .leaving)).set j (m', .printing) }
    else none
  | _, _ => none

/-- One step. A panic and the end of `run` are the end of the program. -/
def step (s : Foo) (a : Action) : Option Foo :=
  if s.panicked ∨ s.returned then none
  else
    match a with
    | .spawn => s.spawn
    | .wait => s.wait
    | .go i => s.go i
    | .pass i j => s.pass i j

/-! ## What a step does -/

/-- What the step of an action leads to, with what makes it possible. -/
inductive Effect (s : Foo) : Action → Foo → Prop where
  | spawn {v : ℤ} {input : List ℤ} {m : Method} (hinput : s.input = v :: input)
      (hm : methodOf v = some m) :
      Effect s .spawn { s with input := input, routines := s.routines ++ [(m, begins m)] }
  | badKey {v : ℤ} {input : List ℤ} (hinput : s.input = v :: input) (hm : methodOf v = none) :
      Effect s .spawn { s with panicked := true }
  | wait (hinput : s.input = []) (hwg : s.wg = 0) : Effect s .wait { s with returned := true }
  | print {i : ℕ} {m : Method} (hi : s.routines[i]? = some (m, .printing)) :
      Effect s (.go i)
        { s with
          routines := s.routines.set i (m, afterPrint m)
          printed := s.printed ++ [printText m] }
  | done {i : ℕ} {m : Method} (hi : s.routines[i]? = some (m, .leaving)) (hwg : 1 ≤ s.wg) :
      Effect s (.go i) { s with routines := s.routines.set i (m, .returned), wg := s.wg - 1 }
  | doneTooOften {i : ℕ} {m : Method} (hi : s.routines[i]? = some (m, .leaving))
      (hwg : s.wg < 1) : Effect s (.go i) { s with panicked := true }
  | pass {i j : ℕ} {m m' : Method} (hi : s.routines[i]? = some (m, .sending))
      (hj : s.routines[j]? = some (m', .receiving)) (hm : signals m = some m') :
      Effect s (.pass i j)
        { s with routines := (s.routines.set i (m, .leaving)).set j (m', .printing) }

variable {s t : Foo}

theorem effect_of_spawn (h : s.spawn = some t) : Effect s .spawn t := by
  unfold spawn at h
  split at h
  · cases h
  rename_i v input hinput
  split at h
  · rename_i m hm
    exact Option.some.inj h ▸ .spawn hinput hm
  · rename_i hm
    exact Option.some.inj h ▸ .badKey hinput hm

theorem effect_of_go {i : ℕ} (h : s.go i = some t) : Effect s (.go i) t := by
  unfold go at h
  split at h
  · rename_i m hi
    exact Option.some.inj h ▸ .print hi
  · rename_i m hi
    split at h
    · exact Option.some.inj h ▸ .doneTooOften hi (by omega)
    · exact Option.some.inj h ▸ .done hi (by omega)
  · cases h

theorem effect_of_pass {i j : ℕ} (h : s.pass i j = some t) : Effect s (.pass i j) t := by
  unfold pass at h
  split at h
  · rename_i m m' hi hj
    rw [Option.ite_none_right_eq_some] at h
    exact Option.some.inj h.2 ▸ .pass hi hj h.1
  · cases h

/-- A step happens only while the program is going on. -/
theorem effect_of_step {a : Action} (h : s.step a = some t) :
    s.panicked = false ∧ s.returned = false ∧ Effect s a t := by
  unfold step at h
  split at h
  · cases h
  rename_i hover
  rw [not_or, Bool.not_eq_true, Bool.not_eq_true] at hover
  refine ⟨hover.1, hover.2, ?_⟩
  cases a with
  | spawn => exact effect_of_spawn h
  | wait =>
    simp only [wait, Option.ite_none_right_eq_some] at h
    exact Option.some.inj h.2 ▸ .wait h.1.1 h.1.2
  | go i => exact effect_of_go h
  | pass i j => exact effect_of_pass h

end Foo

end GolangSandbox.Program
