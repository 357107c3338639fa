import GolangSandbox.Model.Bookkeeping
import GolangSandbox.Model.Termination
import GolangSandbox.Program.Foo

/-!
# The order of the prints, and when `run` returns

A signal on a channel is received by one goroutine, so as many goroutines of `second` are past
their receive as of `first` are past their send (`Handed`), and the same for `third`. This
orders the prints, whatever the input is.

Where nothing moves, on each channel all senders have sent or all receivers have received.
With `a`, `b` and `c` goroutines of the three methods the two channels have then passed
`min a b` and `min (min a b) c` signals, and the latter number of goroutines of `second` and of
`third` have returned beside the former number of `first` (`doneCalls`). `run` waits for three
calls of `wg.Done`: with fewer it waits for ever, and with more there is a schedule in which
the counter becomes negative before `run` looks at it.
-/

set_option autoImplicit false

namespace GolangSandbox.Analysis

open GolangSandbox.Model GolangSandbox.Program GolangSandbox.Program.Foo

variable {s t : Foo} {m m' : Method} {st : Stage} {ts : List (Method × Stage)} {i : ℕ}

/-- How many goroutines run a method and are at a place with `p`. -/
def howMany (ts : List (Method × Stage)) (m : Method) (p : Stage → Bool) : ℕ :=
  ts.countP fun x => x.1 = m && p x.2

/-- The goroutine is past its receive. -/
def pastReceive : Stage → Bool
  | .receiving => false
  | _ => true

/-- The goroutine is past its print. -/
def pastPrint : Stage → Bool
  | .receiving | .printing => false
  | _ => true

/-- The goroutine is past its send. -/
def pastSend : Stage → Bool
  | .leaving | .returned => true
  | _ => false

/-- The goroutine has called `wg.Done`. -/
def pastDone : Stage → Bool
  | .returned => true
  | _ => false

/-- A goroutine goes on within its method. -/
theorem howMany_set (hi : ts[i]? = some (m, st)) (st' : Stage) (m' : Method) (p : Stage → Bool) :
    howMany (ts.set i (m, st')) m' p + (if m = m' ∧ p st = true then 1 else 0) =
      howMany ts m' p + if m = m' ∧ p st' = true then 1 else 0 := by
  have hset := countP_set_add (fun x : Method × Stage => x.1 = m' && p x.2) hi (m, st')
  unfold howMany
  simpa only [Bool.and_eq_true, decide_eq_true_eq] using hset

theorem howMany_concat (ts : List (Method × Stage)) (m : Method) (st : Stage) (m' : Method)
    (p : Stage → Bool) : howMany (ts ++ [(m, st)]) m' p =
      howMany ts m' p + if m = m' ∧ p st = true then 1 else 0 := by
  rw [howMany, List.countP_append, List.countP_singleton]
  simp only [Bool.and_eq_true, decide_eq_true_eq]
  rfl

theorem howMany_mono {p q : Stage → Bool} (hpq : ∀ st, p st = true → q st = true)
    (ts : List (Method × Stage)) (m : Method) : howMany ts m p ≤ howMany ts m q := by
  refine List.countP_mono_left fun x _ hx => ?_
  rw [Bool.and_eq_true] at hx ⊢
  exact ⟨hx.1, hpq x.2 hx.2⟩

/-- Two conditions that agree wherever a goroutine of the method is. -/
theorem howMany_congr {p q : Stage → Bool} (h : ∀ st, (m, st) ∈ ts → p st = q st) :
    howMany ts m p = howMany ts m q := by
  refine List.countP_congr fun x hx => ?_
  obtain ⟨m', st⟩ := x
  by_cases hm : m' = m
  · subst hm
    simp only [h st hx]
  · simp [hm]

/-! ## The invariant -/

/-- The goroutines of a method that `run` starts for an input. -/
def wantedFor (input : List ℤ) (m : Method) : ℕ := input.countP (methodOf · = some m)

/-- The calls of `wg.Done` that are made in all, if the program goes on. -/
def doneCalls (input : List ℤ) : ℕ :=
  let first := min (wantedFor input .first) (wantedFor input .second)
  first + 2 * min first (wantedFor input .third)

/-- The invariant while nothing has panicked. -/
structure Handed (input : List ℤ) (s : Foo) : Prop where
  handed : ∀ m m', signals m = some m' →
    howMany s.routines m pastSend = howMany s.routines m' pastReceive
  printed : ∀ m, s.printed.count (printText m) = howMany s.routines m pastPrint
  texts : ∀ x ∈ s.printed, ∃ m, printText m = x
  wg : s.wg = 3 - (howMany s.routines .first pastDone + howMany s.routines .second pastDone +
    howMany s.routines .third pastDone : ℕ)
  nonneg : 0 ≤ s.wg
  first : (.first, .receiving) ∉ s.routines
  third : (.third, .sending) ∉ s.routines
  started : ∀ m, howMany s.routines m (fun _ => true) + wantedFor s.input m = wantedFor input m
  rest : s.input <:+ input
  keys : (∃ v ∈ input, methodOf v = none) → ∃ v ∈ s.input, methodOf v = none
  finished : s.returned = true → s.input = [] ∧ s.wg = 0

/-- The prints are in order, at every moment. -/
def FirstThenSecond (printed : List String) : Prop :=
  ∀ l, l <+: printed → l.count "second" ≤ l.count "first" ∧ l.count "thrid" ≤ l.count "second"

theorem handed_newFoo (input : List ℤ) : Handed input (newFoo input) where
  handed _ _ _ := rfl
  printed _ := rfl
  texts _ h := absurd h List.not_mem_nil
  wg := rfl
  nonneg := (by decide : (0 : ℤ) ≤ 3)
  first := List.not_mem_nil
  third := List.not_mem_nil
  started m := Nat.zero_add _
  rest := List.suffix_refl input
  keys h := h
  finished h := by cases h

/-- A goroutine is nowhere new but at its next place. -/
theorem notMem_set {x y : Method × Stage} (h : x ∉ ts) (hxy : x ≠ y) : x ∉ ts.set i y := by
  intro hmem
  obtain hmem | heq := List.mem_or_eq_of_mem_set hmem
  · exact h hmem
  · exact hxy heq

/-- The loop of `run` starts a goroutine. -/
theorem Handed.spawn {input rest : List ℤ} {v : ℤ} (h : Handed input s)
    (hover : s.returned = false) (hinput : s.input = v :: rest) (hm : methodOf v = some m) :
    Handed input { s with input := rest, routines := s.routines ++ [(m, begins m)] } := by
  have hconcat := howMany_concat s.routines m (begins m)
  have hsend : pastSend (begins m) = false := by cases m <;> rfl
  have hprint : pastPrint (begins m) = false := by cases m <;> rfl
  have hdone : pastDone (begins m) = false := by cases m <;> rfl
  refine ⟨fun m₁ m₂ hsignals => ?_, fun m₁ => ?_, h.texts, ?_, h.nonneg, ?_, ?_,
    fun m₁ => ?_, ?_, ?_, ?_⟩
  · have hreceive : ¬ (m = m₂ ∧ pastReceive (begins m) = true) := by
      rintro ⟨rfl, htrue⟩
      cases m <;> cases m₁ <;> cases hsignals <;> cases htrue
    show howMany (s.routines ++ _) m₁ pastSend = howMany (s.routines ++ _) m₂ pastReceive
    rw [hconcat, hconcat, if_neg hreceive, hsend, if_neg (by simp)]
    exact h.handed m₁ m₂ hsignals
  · show _ = howMany (s.routines ++ _) m₁ pastPrint
    rw [hconcat, hprint, if_neg (by simp)]
    exact h.printed m₁
  · simp only [hconcat, hdone, Bool.false_eq_true, and_false, if_false, Nat.add_zero]
    exact h.wg
  · rw [List.mem_append, List.mem_singleton]
    rintro (hmem | heq)
    · exact h.first hmem
    · cases m <;> cases heq
  · rw [List.mem_append, List.mem_singleton]
    rintro (hmem | heq)
    · exact h.third hmem
    · cases m <;> cases heq
  · have hstarted := h.started m₁
    rw [hinput, wantedFor, List.countP_cons, hm] at hstarted
    show howMany (s.routines ++ _) m₁ (fun _ => true) + wantedFor rest m₁ = wantedFor input m₁
    rw [hconcat, ← hstarted, wantedFor]
    simp only [and_true, Option.some.injEq, decide_eq_true_eq]
    omega
  · have hrest := h.rest
    rw [hinput] at hrest
    exact (List.suffix_cons v rest).trans hrest
  · intro hbad
    obtain ⟨v', hv', hnone⟩ := h.keys hbad
    rw [hinput, List.mem_cons] at hv'
    obtain rfl | hv' := hv'
    · rw [hm] at hnone
      cases hnone
    · exact ⟨v', hv', hnone⟩
  · intro hreturned
    rw [hover] at hreturned
    cases hreturned

/-- A goroutine prints and goes on. -/
theorem Handed.print {input : List ℤ} (h : Handed input s) (hover : s.returned = false)
    (hi : s.routines[i]? = some (m, .printing)) :
    Handed input { s with
      routines := s.routines.set i (m, afterPrint m)
      printed := s.printed ++ [printText m] } := by
  have hset := howMany_set hi (afterPrint m)
  have hdone : pastDone (afterPrint m) = false := by cases m <;> rfl
  have hreceive : pastReceive (afterPrint m) = true := by cases m <;> rfl
  have hprint : pastPrint (afterPrint m) = true := by cases m <;> rfl
  have hsame : ∀ m₁ p, p .printing = p (afterPrint m) →
      howMany (s.routines.set i (m, afterPrint m)) m₁ p = howMany s.routines m₁ p := by
    intro m₁ p hp
    have h₁ := hset m₁ p
    rw [hp] at h₁
    exact Nat.add_right_cancel h₁
  refine ⟨fun m₁ m₂ hsignals => ?_, fun m₁ => ?_, fun x hx => ?_, ?_, h.nonneg, ?_, ?_,
    fun m₁ => ?_, h.rest, h.keys, ?_⟩
  · -- A method that signals is not past its send after its print.
    have hsend : ¬ (m = m₁ ∧ pastSend (afterPrint m) = true) := by
      rintro ⟨rfl, htrue⟩
      cases m <;> cases hsignals <;> cases htrue
    have h₁ := hset m₁ pastSend
    rw [if_neg hsend, if_neg (by simp [pastSend])] at h₁
    show howMany (s.routines.set i _) m₁ pastSend = howMany (s.routines.set i _) m₂ pastReceive
    rw [hsame m₂ pastReceive hreceive.symm]
    exact h₁.trans (h.handed m₁ m₂ hsignals)
  · have h₁ := hset m₁ pastPrint
    have hprinted := h.printed m₁
    rw [hprint, if_neg (by simp [pastPrint]), Nat.add_zero] at h₁
    show (s.printed ++ [printText m]).count (printText m₁) =
      howMany (s.routines.set i _) m₁ pastPrint
    rw [h₁, List.count_append, List.count_singleton, hprinted]
    simp only [and_true, beq_iff_eq, printText_inj]
  · rw [List.mem_append, List.mem_singleton] at hx
    obtain hx | rfl := hx
    · exact h.texts x hx
    · exact ⟨m, rfl⟩
  · simp only [hsame _ pastDone hdone.symm]
    exact h.wg
  · exact notMem_set h.first (by cases m <;> simp [afterPrint])
  · exact notMem_set h.third (by cases m <;> simp [afterPrint])
  · have hstarted := h.started m₁
    rwa [← hsame m₁ (fun _ => true) rfl] at hstarted
  · intro hreturned
    rw [hover] at hreturned
    cases hreturned

/-- A goroutine calls `wg.Done`. -/
theorem Handed.done {input : List ℤ} (h : Handed input s) (hover : s.returned = false)
    (hi : s.routines[i]? = some (m, .leaving)) (hwg : 1 ≤ s.wg) :
    Handed input { s with
      routines := s.routines.set i (m, .returned)
      wg := s.wg - 1 } := by
  have hset := howMany_set hi .returned
  have hsame : ∀ m₁ p, p .leaving = p .returned →
      howMany (s.routines.set i (m, .returned)) m₁ p = howMany s.routines m₁ p := by
    intro m₁ p hp
    have h₁ := hset m₁ p
    rw [hp] at h₁
    exact Nat.add_right_cancel h₁
  refine ⟨fun m₁ m₂ hsignals => ?_, fun m₁ => ?_, h.texts, ?_, ?_, ?_, ?_, fun m₁ => ?_, h.rest,
    h.keys, ?_⟩
  · show howMany (s.routines.set i _) m₁ pastSend = howMany (s.routines.set i _) m₂ pastReceive
    rw [hsame m₁ pastSend rfl, hsame m₂ pastReceive rfl]
    exact h.handed m₁ m₂ hsignals
  · show _ = howMany (s.routines.set i _) m₁ pastPrint
    rw [hsame m₁ pastPrint rfl]
    exact h.printed m₁
  · have hold := h.wg
    have hone := hset .first pastDone
    have htwo := hset .second pastDone
    have hthree := hset .third pastDone
    dsimp only
    rw [hold]
    cases m <;> simp [pastDone] at hone htwo hthree <;> omega
  · show 0 ≤ s.wg - 1
    omega
  · exact notMem_set h.first (by simp)
  · exact notMem_set h.third (by simp)
  · have hstarted := h.started m₁
    rwa [← hsame m₁ (fun _ => true) rfl] at hstarted
  · intro hreturned
    rw [hover] at hreturned
    cases hreturned

/-- A sender passes its signal on. -/
theorem Handed.pass {input : List ℤ} {j : ℕ} (h : Handed input s) (hover : s.returned = false)
    (hi : s.routines[i]? = some (m, .sending)) (hj : s.routines[j]? = some (m', .receiving))
    (hm : signals m = some m') :
    Handed input { s with
      routines := (s.routines.set i (m, .leaving)).set j (m', .printing) } := by
  have hne : i ≠ j := by
    rintro rfl
    rw [hi] at hj
    cases hj
  have hj' : (s.routines.set i (m, .leaving))[j]? = some (m', .receiving) := by
    rwa [List.getElem?_set_ne hne]
  have hsend := howMany_set hi .leaving
  have hreceive := howMany_set hj' .printing
  have hsame : ∀ m₁ p, p .sending = p .leaving → p .receiving = p .printing →
      howMany ((s.routines.set i (m, .leaving)).set j (m', .printing)) m₁ p =
        howMany s.routines m₁ p := by
    intro m₁ p hp hp'
    have h₁ := hsend m₁ p
    have h₂ := hreceive m₁ p
    rw [hp] at h₁
    rw [hp'] at h₂
    exact (Nat.add_right_cancel h₂).trans (Nat.add_right_cancel h₁)
  refine ⟨fun m₁ m₂ hsignals => ?_, fun m₁ => ?_, h.texts, ?_, h.nonneg, ?_, ?_, fun m₁ => ?_,
    h.rest, h.keys, ?_⟩
  · -- One more is past the send of this channel, and one more past its receive.
    have hold := h.handed m₁ m₂ hsignals
    have h₁ := hsend m₁ pastSend
    have h₂ := hreceive m₁ pastSend
    have h₃ := hsend m₂ pastReceive
    have h₄ := hreceive m₂ pastReceive
    simp only [pastSend, pastReceive, Bool.false_eq_true, and_false, and_true, if_false,
      Nat.add_zero] at h₁ h₂ h₃ h₄
    show howMany ((s.routines.set i _).set j _) m₁ pastSend =
      howMany ((s.routines.set i _).set j _) m₂ pastReceive
    have hiff : m = m₁ ↔ m' = m₂ := by
      cases m <;> cases m₁ <;> cases hm <;> cases hsignals <;> simp
    by_cases heq : m = m₁
    · rw [if_pos heq] at h₁
      rw [if_pos (hiff.mp heq)] at h₄
      omega
    · rw [if_neg heq] at h₁
      rw [if_neg fun heq' => heq (hiff.mpr heq')] at h₄
      omega
  · show _ = howMany ((s.routines.set i _).set j _) m₁ pastPrint
    rw [hsame m₁ pastPrint rfl rfl]
    exact h.printed m₁
  · simp only [hsame _ pastDone rfl rfl]
    exact h.wg
  · exact notMem_set (notMem_set h.first (by simp)) (by simp)
  · exact notMem_set (notMem_set h.third (by simp)) (by simp)
  · have hstarted := h.started m₁
    rwa [← hsame m₁ (fun _ => true) rfl rfl] at hstarted
  · intro hreturned
    rw [hover] at hreturned
    cases hreturned

/-- The step lemma, for a step that does not panic. -/
theorem Handed.step {input : List ℤ} (h : Handed input s) {a : Foo.Action}
    (ha : s.step a = some t) (hsound : t.panicked = false) : Handed input t := by
  obtain ⟨-, hover, he⟩ := effect_of_step ha
  cases he with
  | spawn hinput hm => exact h.spawn hover hinput hm
  | badKey hinput hm => cases hsound
  | wait hinput hwg =>
    exact ⟨h.handed, h.printed, h.texts, h.wg, h.nonneg, h.first, h.third, h.started, h.rest,
      h.keys, fun _ => ⟨hinput, hwg⟩⟩
  | print hi => exact h.print hover hi
  | done hi hwg => exact h.done hover hi hwg
  | doneTooOften hi hwg => cases hsound
  | pass hi hj hm => exact h.pass hover hi hj hm

theorem handed_of_run {input : List ℤ} {as : List Foo.Action}
    (h : run Foo.step (newFoo input) as = some s) (hsound : s.panicked = false) :
    Handed input s :=
  run_invariant (I := fun s => s.panicked = false → Handed input s)
    (fun _ => handed_newFoo input)
    (fun _ _ _ hs ha hsound => (hs (effect_of_step ha).1).step ha hsound) h hsound

/-! ## The order of the prints -/

/-- What is printed is in order when it is printed. -/
theorem Handed.count_printed_le {input : List ℤ} (h : Handed input s) :
    s.printed.count "second" ≤ s.printed.count "first" ∧
      s.printed.count "thrid" ≤ s.printed.count "second" := by
  have hreceive : ∀ st, pastPrint st = true → pastReceive st = true := by
    intro st
    cases st <;> simp [pastPrint, pastReceive]
  have hprint : ∀ st, pastSend st = true → pastPrint st = true := by
    intro st
    cases st <;> simp [pastPrint, pastSend]
  have hone := h.handed .first .second rfl
  have htwo := h.handed .second .third rfl
  have h₁ := howMany_mono hreceive s.routines .second
  have h₂ := howMany_mono hprint s.routines .first
  have h₃ := howMany_mono hreceive s.routines .third
  have h₄ := howMany_mono hprint s.routines .second
  have hprinted := fun m => h.printed m
  have hfirst := hprinted .first
  have hsecond := hprinted .second
  have hthird := hprinted .third
  simp only [printText] at hfirst hsecond hthird
  omega

/-- Everything that was printed so far is the printed part of a state on the way. -/
theorem FirstThenSecond.concat {printed : List String} {x : String} (h : FirstThenSecond printed)
    (hnew : (printed ++ [x]).count "second" ≤ (printed ++ [x]).count "first" ∧
      (printed ++ [x]).count "thrid" ≤ (printed ++ [x]).count "second") :
    FirstThenSecond (printed ++ [x]) := by
  intro l hl
  obtain heq | hprefix := List.prefix_concat_iff.mp hl
  · rw [heq]
    exact hnew
  · exact h l hprefix

/-- The step lemma of the order. -/
theorem FirstThenSecond.step {input : List ℤ} (h : FirstThenSecond s.printed) (hs : Handed input s)
    {a : Foo.Action} (ha : s.step a = some t) : FirstThenSecond t.printed := by
  obtain ⟨-, hover, he⟩ := effect_of_step ha
  cases he with
  | print hi => exact h.concat (hs.print hover hi).count_printed_le
  | _ => exact h

theorem firstThenSecond_nil : FirstThenSecond [] := by
  intro l hl
  rw [List.prefix_nil.mp hl]
  exact ⟨Nat.le_refl 0, Nat.le_refl 0⟩

/-- **In order for every input.** In every run, whatever numbers the input holds and however
often, no `second` is printed before a `first` of its own and no `thrid` before a `second`.
SOURCE: leetcode_concurrency/1114.go:14-63 -/
theorem prints_in_order (input : List ℤ) (as : List Foo.Action) (s : Foo)
    (h : run Foo.step (newFoo input) as = some s) :
    ∀ l, l <+: s.printed →
      l.count "second" ≤ l.count "first" ∧ l.count "thrid" ≤ l.count "second" := by
  refine run_induction (I := fun _ s => FirstThenSecond s.printed) firstThenSecond_nil ?_ h
  intro as s a t hs horder ha
  exact horder.step (handed_of_run hs (effect_of_step ha).1) ha

/-- Two goroutines of `first` and one of `second`. -/
theorem prints_in_order_three :
    ∃ s, run Foo.step (newFoo [1, 2, 1])
        [.spawn, .spawn, .spawn, .go 0, .pass 0 1, .go 2, .go 1] = some s ∧
      s.printed = ["first", "first", "second"] ∧
      ∀ l, l <+: s.printed →
        l.count "second" ≤ l.count "first" ∧ l.count "thrid" ≤ l.count "second" :=
  ⟨_, rfl, rfl, prints_in_order [1, 2, 1]
    [.spawn, .spawn, .spawn, .go 0, .pass 0 1, .go 2, .go 1] _ rfl⟩

/-! ## The measure -/

/-- The steps that a goroutine has still to take. -/
def stagesLeft : Method × Stage → ℕ
  | (_, .receiving) => 4
  | (_, .printing) => 3
  | (_, .sending) => 2
  | (_, .leaving) => 1
  | (_, .returned) => 0

/-- What is left of the program. -/
def fooLeft (s : Foo) : ℕ :=
  6 * s.input.length + load stagesLeft s.routines + (if s.returned then 0 else 1) +
    if s.panicked then 0 else 1

/-- Every step lowers what is left. -/
theorem fooLeft_step {a : Foo.Action} (ha : s.step a = some t) : fooLeft t < fooLeft s := by
  obtain ⟨hsound, hover, he⟩ := effect_of_step ha
  cases he with
  | @spawn v rest m hinput hm =>
    have hbegin : stagesLeft (m, begins m) ≤ 4 := by cases m <;> simp [begins, stagesLeft]
    simp only [fooLeft, hinput, List.length_cons, load_append, load_cons, load_nil]
    omega
  | badKey hinput hm =>
    simp only [fooLeft, hsound, if_true, Bool.false_eq_true, if_false]
    omega
  | wait hinput hwg =>
    simp only [fooLeft, hover, if_true, Bool.false_eq_true, if_false]
    omega
  | @print i m hi =>
    have hset := load_set (f := stagesLeft) hi (m, afterPrint m)
    have hafter : stagesLeft (m, afterPrint m) ≤ 2 := by cases m <;> simp [afterPrint, stagesLeft]
    have hbefore : stagesLeft (m, .printing) = 3 := rfl
    simp only [fooLeft]
    omega
  | @done i m hi hwg =>
    have hset := load_set (f := stagesLeft) hi (m, .returned)
    simp only [stagesLeft] at hset
    simp only [fooLeft]
    omega
  | doneTooOften hi hwg =>
    simp only [fooLeft, hsound, if_true, Bool.false_eq_true, if_false]
    omega
  | @pass i j m m' hi hj hm =>
    have hne : i ≠ j := by
      rintro rfl
      rw [hi] at hj
      cases hj
    have hj' : (s.routines.set i (m, .leaving))[j]? = some (m', .receiving) := by
      rwa [List.getElem?_set_ne hne]
    have hset := load_set (f := stagesLeft) hi (m, .leaving)
    have hset' := load_set (f := stagesLeft) hj' (m', .printing)
    simp only [stagesLeft] at hset hset'
    simp only [fooLeft]
    omega

/-! ## Where nothing moves -/

/-- The program goes on but for `wg.Wait`. -/
structure Resting (s : Foo) : Prop where
  input : s.input = []
  go : ∀ i, s.go i = none
  pass : ∀ i j, s.pass i j = none

/-- A goroutine that can go by itself does. -/
theorem Resting.stage (h : Resting s) {x : Method × Stage} (hx : x ∈ s.routines) :
    x.2 = .receiving ∨ x.2 = .sending ∨ x.2 = .returned := by
  obtain ⟨i, hi⟩ := List.mem_iff_getElem?.mp hx
  have hgo := h.go i
  obtain ⟨m, st⟩ := x
  unfold Foo.go at hgo
  cases st with
  | receiving => exact .inl rfl
  | printing =>
    simp only [hi] at hgo
    cases hgo
  | sending => exact .inr (.inl rfl)
  | leaving =>
    simp only [hi] at hgo
    split at hgo
    · cases hgo
    · cases hgo
  | returned => exact .inr (.inr rfl)

/-- No channel has both a sender and a receiver. -/
theorem Resting.one_side (h : Resting s) (m m' : Method) (hm : signals m = some m') :
    (m, .sending) ∉ s.routines ∨ (m', .receiving) ∉ s.routines := by
  by_contra hboth
  rw [not_or, not_not, not_not] at hboth
  obtain ⟨i, hi⟩ := List.mem_iff_getElem?.mp hboth.1
  obtain ⟨j, hj⟩ := List.mem_iff_getElem?.mp hboth.2
  have hnone := h.pass i j
  simp only [Foo.pass, hi, hj, hm, if_true] at hnone
  cases hnone

/-- The calls of `wg.Done` so far. -/
def doneSoFar (s : Foo) : ℕ :=
  howMany s.routines .first pastDone + howMany s.routines .second pastDone +
    howMany s.routines .third pastDone

/-- The signals that the two channels pass are at most as many as there are goroutines. -/
theorem Handed.passed_le {input : List ℤ} (h : Handed input s) :
    howMany s.routines .first pastSend ≤ min (wantedFor input .first) (wantedFor input .second) ∧
      howMany s.routines .second pastSend ≤ howMany s.routines .first pastSend ∧
      howMany s.routines .second pastSend ≤ wantedFor input .third := by
  have hreceive : ∀ st, pastSend st = true → pastReceive st = true := by
    intro st
    cases st <;> simp [pastSend, pastReceive]
  have hone := h.handed .first .second rfl
  have htwo := h.handed .second .third rfl
  have hall : ∀ m p, howMany s.routines m p ≤ wantedFor input m := by
    intro m p
    have hstarted := h.started m
    have hle := howMany_mono (p := p) (q := fun _ => true) (fun _ _ => rfl) s.routines m
    omega
  have h₁ := hall .first pastSend
  have h₂ := hall .second pastReceive
  have h₃ := hall .third pastReceive
  have h₄ := howMany_mono hreceive s.routines .second
  omega

/-- A goroutine calls `wg.Done` after its send, and `third` after its receive. -/
theorem Handed.doneSoFar_le {input : List ℤ} (h : Handed input s) :
    doneSoFar s ≤ howMany s.routines .first pastSend + 2 * howMany s.routines .second pastSend := by
  have hsend : ∀ st, pastDone st = true → pastSend st = true := by
    intro st
    cases st <;> simp [pastDone, pastSend]
  have hreceive : ∀ st, pastDone st = true → pastReceive st = true := by
    intro st
    cases st <;> simp [pastDone, pastReceive]
  have h₁ := howMany_mono hsend s.routines .first
  have h₂ := howMany_mono hsend s.routines .second
  have h₃ := howMany_mono hreceive s.routines .third
  have htwo := h.handed .second .third rfl
  unfold doneSoFar
  omega

/-- A goroutine that is about to call `wg.Done` is one of those that will have. -/
theorem Handed.doneSoFar_lt {input : List ℤ} (h : Handed input s)
    (hi : s.routines[i]? = some (m, .leaving)) : doneSoFar s < doneCalls input := by
  have hset := howMany_set hi .returned
  have hle : ∀ m₁ p, p .leaving = p .returned → (∀ st, pastDone st = true → p st = true) →
      howMany s.routines m₁ pastDone + (if m = m₁ then 1 else 0) ≤ howMany s.routines m₁ p := by
    intro m₁ p hp hmono
    have h₁ := hset m₁ pastDone
    have h₂ := hset m₁ p
    have h₃ := howMany_mono hmono (s.routines.set i (m, .returned)) m₁
    rw [hp] at h₂
    have hsame := Nat.add_right_cancel h₂
    simp only [pastDone, Bool.false_eq_true, and_false, if_false, and_true] at h₁
    omega
  have hsend : ∀ st, pastDone st = true → pastSend st = true := by
    intro st
    cases st <;> simp [pastDone, pastSend]
  have hreceive : ∀ st, pastDone st = true → pastReceive st = true := by
    intro st
    cases st <;> simp [pastDone, pastReceive]
  have h₁ := hle .first pastSend rfl hsend
  have h₂ := hle .second pastSend rfl hsend
  have h₃ := hle .third pastReceive rfl hreceive
  have htwo := h.handed .second .third rfl
  obtain ⟨hx, hy, hz⟩ := h.passed_le
  unfold doneSoFar doneCalls
  dsimp only
  cases m <;> simp only [reduceCtorEq, if_true, if_false] at h₁ h₂ h₃ <;> omega

/-- **Where nothing moves but `run`**, both channels have passed as many signals as they can,
and everybody who took part has called `wg.Done`. -/
theorem Resting.doneSoFar_eq {input : List ℤ} (h : Resting s) (hs : Handed input s) :
    doneSoFar s = doneCalls input := by
  have hplace : ∀ m st, (m, st) ∈ s.routines → st = .receiving ∨ st = .sending ∨ st = .returned :=
    fun m st hx => h.stage hx
  have hall : ∀ m, howMany s.routines m (fun _ => true) = wantedFor input m := by
    intro m
    rw [← hs.started m, h.input]
    rfl
  have hdone : ∀ m, howMany s.routines m pastDone = howMany s.routines m pastSend := by
    refine fun m => howMany_congr fun st hst => ?_
    obtain rfl | rfl | rfl := hplace m st hst <;> rfl
  have hthird : howMany s.routines .third pastSend = howMany s.routines .third pastReceive := by
    refine howMany_congr fun st hst => ?_
    obtain rfl | rfl | rfl := hplace .third st hst
    · rfl
    · exact absurd hst hs.third
    · rfl
  have hone := hs.handed .first .second rfl
  have htwo := hs.handed .second .third rfl
  -- On each channel one of the two sides has nobody left.
  have hfirst : howMany s.routines .first pastSend = wantedFor input .first ∨
      howMany s.routines .first pastSend = wantedFor input .second := by
    obtain hnone | hnone := h.one_side .first .second rfl
    · refine .inl ((howMany_congr fun st hst => ?_).trans (hall .first))
      obtain rfl | rfl | rfl := hplace .first st hst
      · exact absurd hst hs.first
      · exact absurd hst hnone
      · rfl
    · refine .inr (hone.trans ((howMany_congr fun st hst => ?_).trans (hall .second)))
      obtain rfl | rfl | rfl := hplace .second st hst
      · exact absurd hst hnone
      · rfl
      · rfl
  have hsecond : howMany s.routines .second pastSend = howMany s.routines .first pastSend ∨
      howMany s.routines .second pastSend = wantedFor input .third := by
    obtain hnone | hnone := h.one_side .second .third rfl
    · refine .inl (Eq.trans (howMany_congr fun st hst => ?_) hone.symm)
      obtain rfl | rfl | rfl := hplace .second st hst
      · rfl
      · exact absurd hst hnone
      · rfl
    · refine .inr (htwo.trans ((howMany_congr fun st hst => ?_).trans (hall .third)))
      obtain rfl | rfl | rfl := hplace .third st hst
      · exact absurd hst hnone
      · rfl
      · rfl
  obtain ⟨hx, hy, hz⟩ := hs.passed_le
  unfold doneSoFar doneCalls
  rw [hdone, hdone, hdone, hthird]
  dsimp only
  omega

/-! ## When `run` returns -/

theorem resting_of_stuck (hsound : s.panicked = false) (hover : s.returned = false)
    (hstuck : ∀ a, a ≠ .wait → s.step a = none) : Resting s := by
  have hgoing : ¬ (s.panicked ∨ s.returned) := by simp [hsound, hover]
  refine ⟨?_, fun i => ?_, fun i j => ?_⟩
  · have hspawn : s.spawn = none := by
      have hnone := hstuck .spawn (by simp)
      rwa [Foo.step, if_neg hgoing] at hnone
    unfold Foo.spawn at hspawn
    split at hspawn
    · rename_i hinput
      exact hinput
    · split at hspawn
      · cases hspawn
      · cases hspawn
  · have hgo := hstuck (.go i) (by simp)
    rwa [Foo.step, if_neg hgoing] at hgo
  · have hpass := hstuck (.pass i j) (by simp)
    rwa [Foo.step, if_neg hgoing] at hpass

/-- With three calls of `wg.Done` to come and no bad key nothing panics. -/
theorem Handed.sound_step {input : List ℤ} (h : Handed input s)
    (hkeys : ∀ v ∈ input, methodOf v ≠ none) (hthree : doneCalls input ≤ 3) {a : Foo.Action}
    (ha : s.step a = some t) : t.panicked = false := by
  obtain ⟨hsound, -, he⟩ := effect_of_step ha
  cases he with
  | @badKey v rest hinput hm =>
    refine absurd hm (hkeys v (h.rest.subset ?_))
    rw [hinput]
    exact List.mem_cons_self
  | doneTooOften hi hwg =>
    have hlt := h.doneSoFar_lt hi
    have heq := h.wg
    have hnonneg := h.nonneg
    unfold doneSoFar at hlt
    omega
  | _ => exact hsound

/-- `run` returns when it can. -/
theorem Handed.returned_of_stuck {input : List ℤ} (h : Handed input s)
    (hthree : doneCalls input = 3) (hsound : s.panicked = false) (hstuck : Stuck Foo.step s) :
    s.returned = true := by
  by_contra hover
  rw [Bool.not_eq_true] at hover
  have hrest := resting_of_stuck hsound hover fun a _ => hstuck a
  have hdone := hrest.doneSoFar_eq h
  have hwg := h.wg
  unfold doneSoFar at hdone
  have hzero : s.wg = 0 := by omega
  have hnone := hstuck .wait
  rw [Foo.step, if_neg (by simp [hsound, hover])] at hnone
  simp only [Foo.wait, hrest.input, hzero, and_self, if_true] at hnone
  cases hnone

/-- With more than three calls there is a schedule with a panic: `run` comes too late. -/
theorem exists_panic (input : List ℤ) (hmany : 3 < doneCalls input) :
    ∃ as t, run Foo.step (newFoo input) as = some t ∧ t.panicked = true := by
  have hcompletes : Completes (only (· ≠ .wait) Foo.step) (fun _ => True) (newFoo input) :=
    completes_of_measure (I := fun _ => True) (μ := fooLeft)
      (fun _ _ _ _ ha => ⟨trivial, fooLeft_step (only_eq_some.mp ha).2⟩) (fun _ _ _ => trivial)
      trivial
  obtain ⟨as, t, ht, hstuck, -⟩ := hcompletes.exists_run
  obtain ⟨hrun, hall⟩ := run_of_run_only ht
  refine ⟨as, t, hrun, ?_⟩
  by_contra hsound
  rw [Bool.not_eq_true] at hsound
  have hover : t.returned = false := by
    refine run_induction_along (C := fun _ a => a ≠ .wait) (I := fun _ t => t.returned = false)
      rfl ?_ hrun (along_of_forall hall _)
    intro as s a t _ hs ha hstep
    obtain ⟨-, -, he⟩ := effect_of_step hstep
    cases he with
    | wait hinput hwg => exact absurd rfl ha
    | _ => exact hs
  have hhanded := handed_of_run hrun hsound
  have hdone := (resting_of_stuck hsound hover (stuck_only.mp hstuck)).doneSoFar_eq hhanded
  have hwg := hhanded.wg
  have hnonneg := hhanded.nonneg
  unfold doneSoFar at hdone
  omega

theorem methodOf_eq_none {v : ℤ} : methodOf v = none ↔ ¬ (v = 1 ∨ v = 2 ∨ v = 3) := by
  unfold methodOf
  split
  · simp [*]
  · split
    · simp [*]
    · split
      · simp [*]
      · simp [*]

theorem wantedFor_eq_count {v : ℤ} (hv : ∀ w, methodOf w = some m ↔ w = v) (input : List ℤ) :
    wantedFor input m = input.count v := by
  rw [wantedFor, List.count_eq_countP]
  refine List.countP_congr fun w _ => ?_
  simp [hv w]

theorem doneCalls_eq (input : List ℤ) :
    doneCalls input = min (input.count 1) (input.count 2) +
      2 * min (min (input.count 1) (input.count 2)) (input.count 3) := by
  have h₁ : ∀ w, methodOf w = some .first ↔ w = 1 := by
    intro w
    unfold methodOf
    split_ifs <;> simp [*]
  have h₂ : ∀ w, methodOf w = some .second ↔ w = 2 := by
    intro w
    unfold methodOf
    split_ifs <;> simp [*]
  have h₃ : ∀ w, methodOf w = some .third ↔ w = 3 := by
    intro w
    unfold methodOf
    split_ifs <;> simp [*]
  rw [doneCalls, wantedFor_eq_count h₁, wantedFor_eq_count h₂, wantedFor_eq_count h₃]

/-- **When `run` returns in every schedule.** For every input: no schedule panics or waits
for ever exactly if all numbers are keys of the map and the numbers of goroutines of the three
methods make three calls of `wg.Done`.
SOURCE: leetcode_concurrency/1114.go:14-63 -/
theorem run_returns_iff (input : List ℤ) :
    Completes Foo.step (fun t => t.returned = true ∧ t.panicked = false) (newFoo input) ↔
      (∀ v ∈ input, v = 1 ∨ v = 2 ∨ v = 3) ∧
        min (input.count 1) (input.count 2) +
          2 * min (min (input.count 1) (input.count 2)) (input.count 3) = 3 := by
  have hkeys : (∀ v ∈ input, v = 1 ∨ v = 2 ∨ v = 3) ↔ ∀ v ∈ input, methodOf v ≠ none := by
    refine forall₂_congr fun v _ => ?_
    rw [ne_eq, methodOf_eq_none, not_not]
  rw [hkeys, ← doneCalls_eq]
  constructor
  · intro h
    obtain ⟨as, t, hrun, -, hreturned, hsound⟩ := h.exists_run
    have ht := handed_of_run hrun hsound
    obtain ⟨hinput, hwg⟩ := ht.finished hreturned
    refine ⟨fun v hv hnone => ?_, ?_⟩
    · obtain ⟨w, hw, -⟩ := ht.keys ⟨v, hv, hnone⟩
      rw [hinput] at hw
      cases hw
    · have hle := ht.doneSoFar_le
      have heq := ht.wg
      obtain ⟨hx, hy, hz⟩ := ht.passed_le
      have hthree : 3 ≤ doneCalls input := by
        unfold doneSoFar at hle
        unfold doneCalls
        dsimp only
        omega
      by_contra hne
      obtain ⟨bs, u, hu, hpanic⟩ := exists_panic input (by omega)
      have hstuck : Stuck Foo.step u := by
        intro a
        unfold Foo.step
        rw [if_pos (.inl hpanic)]
      obtain ⟨n, hn⟩ := h
      have hbad := ((hn bs u hu).2 hstuck).2
      rw [hpanic] at hbad
      cases hbad
  · rintro ⟨hall, hthree⟩
    refine completes_of_measure (I := fun s => Handed input s ∧ s.panicked = false)
      (μ := fooLeft) ?_ ?_ ⟨handed_newFoo input, rfl⟩
    · rintro s a t ⟨hs, -⟩ ha
      have hsound := hs.sound_step hall (Nat.le_of_eq hthree) ha
      exact ⟨⟨hs.step ha hsound, hsound⟩, fooLeft_step ha⟩
    · rintro s ⟨hs, hsound⟩ hstuck
      exact ⟨hs.returned_of_stuck hthree hsound hstuck, hsound⟩

/-! ## The three methods once each -/

theorem length_eq_count {l : List String} (h : ∀ x ∈ l, ∃ m, printText m = x) :
    l.length = l.count "first" + l.count "second" + l.count "thrid" := by
  induction l with
  | nil => rfl
  | cons x l ih =>
    obtain ⟨⟨m, rfl⟩, hl⟩ := List.forall_mem_cons.mp h
    rw [List.length_cons, ih hl]
    cases m <;> simp [printText] <;> omega

/-- In order and once each leaves one possibility. -/
theorem FirstThenSecond.eq_of_once {l : List String} (h : FirstThenSecond l)
    (htexts : ∀ x ∈ l, ∃ m, printText m = x) (hone : l.count "first" = 1)
    (htwo : l.count "second" = 1) (hthree : l.count "thrid" = 1) :
    l = ["first", "second", "thrid"] := by
  have hlength := length_eq_count htexts
  rw [hone, htwo, hthree] at hlength
  obtain ⟨x, y, z, rfl⟩ := List.length_eq_three.mp hlength
  have hx := h [x] ⟨[y, z], rfl⟩
  have hy := h [x, y] ⟨[z], rfl⟩
  obtain ⟨m₁, rfl⟩ := htexts x (by simp)
  obtain ⟨m₂, rfl⟩ := htexts y (by simp)
  obtain ⟨m₃, rfl⟩ := htexts z (by simp)
  cases m₁ with
  | first =>
    cases m₂ with
    | first => simp [printText] at hone
    | second =>
      cases m₃ with
      | third => rfl
      | _ => simp [printText] at hthree
    | third => simp [printText] at hy
  | second => simp [printText] at hx
  | third => simp [printText] at hx

/-- **Any order of the three calls prints the same.** Whatever order `run` starts the three
methods in, every schedule ends with `run` returned and the three prints made in order.
SOURCE: leetcode_concurrency/1114.go:14-67 -/
theorem prints_first_second_third (input : List ℤ) (hinput : input.Perm [1, 2, 3]) :
    Completes Foo.step
      (fun t => t.returned = true ∧ t.panicked = false ∧ t.printed = ["first", "second", "thrid"])
      (newFoo input) := by
  have hcount : ∀ v : ℤ, input.count v = [1, 2, 3].count v := fun v => hinput.count_eq v
  have hthree : doneCalls input = 3 := by
    rw [doneCalls_eq, hcount, hcount, hcount]
    rfl
  have hall : ∀ v ∈ input, methodOf v ≠ none := by
    intro v hv hnone
    rw [hinput.mem_iff] at hv
    refine methodOf_eq_none.mp hnone ?_
    simpa using hv
  refine completes_of_measure
    (I := fun s => Handed input s ∧ s.panicked = false ∧ FirstThenSecond s.printed)
    (μ := fooLeft) ?_ ?_ ⟨handed_newFoo input, rfl, firstThenSecond_nil⟩
  · rintro s a t ⟨hs, -, horder⟩ ha
    have hsound := hs.sound_step hall (Nat.le_of_eq hthree) ha
    exact ⟨⟨hs.step ha hsound, hsound, horder.step hs ha⟩, fooLeft_step ha⟩
  · rintro s ⟨hs, hsound, horder⟩ hstuck
    have hreturned := hs.returned_of_stuck hthree hsound hstuck
    -- All three have called `wg.Done`, so each of them has printed.
    have hdone : doneSoFar s = 3 := by
      have hwg := hs.wg
      have hzero := (hs.finished hreturned).2
      unfold doneSoFar
      omega
    have hprint : ∀ st, pastDone st = true → pastPrint st = true := by
      intro st
      cases st <;> simp [pastDone, pastPrint]
    have hle : ∀ m, howMany s.routines m pastDone ≤ s.printed.count (printText m) ∧
        s.printed.count (printText m) ≤ wantedFor input m := by
      intro m
      have hstarted := hs.started m
      have hmono := howMany_mono (p := pastPrint) (q := fun _ => true) (fun _ _ => rfl)
        s.routines m
      rw [hs.printed]
      exact ⟨howMany_mono hprint s.routines m, by omega⟩
    have hwanted : ∀ m, wantedFor input m = 1 := by
      intro m
      rw [wantedFor, hinput.countP_eq]
      cases m <;> rfl
    have h₁ := hle .first
    have h₂ := hle .second
    have h₃ := hle .third
    rw [hwanted] at h₁ h₂ h₃
    simp only [printText] at h₁ h₂ h₃
    unfold doneSoFar at hdone
    exact ⟨hreturned, hsound, horder.eq_of_once hs.texts (by omega) (by omega) (by omega)⟩

/-- The order of the source. -/
theorem prints_first_second_third_main :
    Completes Foo.step
      (fun t => t.returned = true ∧ t.panicked = false ∧ t.printed = ["first", "second", "thrid"])
      (newFoo [3, 2, 1]) :=
  prints_first_second_third [3, 2, 1] (by decide)

end GolangSandbox.Analysis
