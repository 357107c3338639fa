import Mathlib.Algebra.Group.Int.Defs
import Mathlib.Logic.Function.Basic
import Mathlib.Tactic.Common

/-!
# The parallel sums

`csapp/echo/psum-array.c`, `psum-local.c` and `psum-mutex.c` (`atio` is read as `atoi`).
`Startup` is what they make of their two arguments. After that, `main` creates `nthreads`
threads, joins them and takes the result. The programs differ in the thread routine and in what
`main` does after the joins, so a program is a `SumProgram` in one frame (`Process`).

A step is one access to shared memory or one operation on the semaphore; the two accesses of
`psum[myid] += i` and of `gsum += i` are two steps. The variables are never negative and are
natural numbers here; `Process.Holds` says which values they have. An access outside an
array of `MAXTHREADS` cells is undefined, and so is a read of a cell that was not assigned.
-/

set_option autoImplicit false

namespace GolangSandbox.Program

/-- SOURCE: csapp/echo/psum-array.c:6 -/
def MAXTHREADS : ℕ := 32

/-! ## The command line -/

/-- What `main` does with its arguments before it creates threads: it prints an error and
exits, its behaviour is undefined, or it goes on with these numbers of threads and elements. -/
inductive Startup where
  | rejected
  | undefined
  | runs (nthreads nelems : ℤ)
  deriving DecidableEq, Repr

/-- `1L << n`. The shift is defined if `n` is not negative and the result is a 64-bit `long`. -/
def shiftOne (n : ℤ) : Option ℤ := if 0 ≤ n ∧ n ≤ 62 then some (2 ^ n.toNat) else none

/-- The start with a check of the arguments; a remainder by zero is undefined.
SOURCE: csapp/echo/psum-array.c:24-34, psum-local.c:24-34 -/
def checkedStart (nthreads logNelems : ℤ) : Startup :=
  match shiftOne logNelems with
  | none => .undefined
  | some nelems =>
    if nthreads = 0 then .undefined
    else if nelems.tmod nthreads ≠ 0 ∨ logNelems > 31 then .rejected
    else .runs nthreads nelems

/-- The start without one; a division by zero is undefined.
SOURCE: csapp/echo/psum-mutex.c:24-30 -/
def uncheckedStart (nthreads logNelems : ℤ) : Startup :=
  match shiftOne logNelems with
  | none => .undefined
  | some nelems => if nthreads = 0 then .undefined else .runs nthreads nelems

/-! ## The threads -/

/-- The numbers of threads and of elements. -/
structure Arguments where
  nthreads : ℕ
  nelems : ℕ
  deriving DecidableEq, Repr

/-- SOURCE: csapp/echo/psum-array.c:34 -/
def Arguments.nelemsPerThread (args : Arguments) : ℕ := args.nelems / args.nthreads

/-- The value that `main` compares the result with.
SOURCE: csapp/echo/psum-array.c:50 -/
def Arguments.expected (args : Arguments) : ℕ := args.nelems * (args.nelems - 1) / 2

/-- Where `main` is: in one of its three loops, or at `exit`, where it has printed an error
or not. -/
inductive Main where
  | creating (i : ℕ)
  | joining (i : ℕ)
  | summing (i result : ℕ)
  | exited (result : ℕ) (error : Bool)
  | undefined
  deriving DecidableEq, Repr

/-- What a thread does when it is its turn: it waits, its behaviour is undefined, or it makes
a step. -/
inductive Turn (α : Type) where
  | waits
  | undefined
  | next (state : α)

/-- What the programs differ in: the shared variables, and the thread routine with its
program counter. `exec` gets `nelems_per_thread` and the cell that `vargp` points to; `collect`
is what `main` does with the shared variables after the joins. The last two fields say which
values the variables of type `long` have. -/
structure SumProgram (γ τ : Type) where
  globals : γ
  entry : τ
  exec : ℕ → Option ℕ → γ → τ → Turn (γ × τ)
  hasReturned : τ → Bool
  collect : Arguments → γ → ℕ → ℕ → Main
  globalLongs : γ → ℕ → Prop
  localLongs : τ → List ℕ

/-- The variables that the thread routines have in common; `stop` is `end`. -/
structure Locals where
  myid : ℕ
  start : ℕ
  stop : ℕ
  i : ℕ
  deriving DecidableEq, Repr

namespace Locals

/-- SOURCE: csapp/echo/psum-array.c:61-66 -/
def init (nelemsPerThread myid : ℕ) : Locals where
  myid := myid
  start := myid * nelemsPerThread
  stop := myid * nelemsPerThread + nelemsPerThread
  i := myid * nelemsPerThread

def next (l : Locals) : Locals := { l with i := l.i + 1 }

def longs (l : Locals) : List ℕ := [l.myid, l.start, l.stop, l.i]

end Locals

/-- The test of the argument, then the first statement of a thread routine.
SOURCE: csapp/echo/psum-array.c:61 -/
def readArgument {γ τ : Type} (nelemsPerThread : ℕ) (vargp : Option ℕ) (globals : γ)
    (loop : Locals → τ) : Turn (γ × τ) :=
  match vargp with
  | none => .undefined
  | some myid => .next (globals, loop (Locals.init nelemsPerThread myid))

/-- `main` adds up the partial sums and compares.
SOURCE: csapp/echo/psum-array.c:45-51, psum-local.c:45-51 -/
def addUp (args : Arguments) (psum : ℕ → ℕ) (i result : ℕ) : Main :=
  if i < args.nthreads then
    if i < MAXTHREADS then .summing (i + 1) (result + psum i) else .undefined
  else .exited result (decide (result ≠ args.expected))

/-! ## Each thread adds in its own cell -/

/-- `loaded` is between the read and the write of `psum[myid] += i`. -/
inductive ArrayPc where
  | entry
  | loop (l : Locals)
  | loaded (l : Locals) (cell : ℕ)
  | returned
  deriving DecidableEq, Repr

/-- SOURCE: csapp/echo/psum-array.c:59-70 -/
def sumArray : SumProgram (ℕ → ℕ) ArrayPc where
  globals := fun _ => 0
  entry := .entry
  exec := fun nelemsPerThread vargp psum pc =>
    match pc with
    | .entry => readArgument nelemsPerThread vargp psum .loop
    | .loop l =>
      if l.i < l.stop then
        if l.myid < MAXTHREADS then .next (psum, .loaded l (psum l.myid)) else .undefined
      else .next (psum, .returned)
    | .loaded l cell => .next (Function.update psum l.myid (cell + l.i), .loop l.next)
    | .returned => .waits
  hasReturned := fun pc => decide (pc = .returned)
  collect := addUp
  globalLongs := fun psum v => ∃ k, psum k = v
  localLongs := fun pc =>
    match pc with
    | .loop l => l.longs
    | .loaded l cell => cell :: l.longs
    | .entry | .returned => []

/-! ## Each thread adds in a local variable -/

inductive LocalPc where
  | entry
  | loop (l : Locals) (sum : ℕ)
  | returned
  deriving DecidableEq, Repr

/-- SOURCE: csapp/echo/psum-local.c:56-66 -/
def sumLocal : SumProgram (ℕ → ℕ) LocalPc where
  globals := fun _ => 0
  entry := .entry
  exec := fun nelemsPerThread vargp psum pc =>
    match pc with
    | .entry => readArgument nelemsPerThread vargp psum fun l => .loop l 0
    | .loop l sum =>
      if l.i < l.stop then .next (psum, .loop l.next (sum + l.i))
      else if l.myid < MAXTHREADS then .next (Function.update psum l.myid sum, .returned)
      else .undefined
    | .returned => .waits
  hasReturned := fun pc => decide (pc = .returned)
  collect := addUp
  globalLongs := fun psum v => ∃ k, psum k = v
  localLongs := fun pc =>
    match pc with
    | .loop l sum => sum :: l.longs
    | .entry | .returned => []

/-! ## All threads add in one variable -/

/-- The shared sum and the value of the semaphore. -/
structure Guarded where
  gsum : ℕ
  mutex : ℕ
  deriving DecidableEq, Repr

/-- Between `P` and `V`: before the read of `gsum`, before the write, after it. -/
inductive MutexPc where
  | entry
  | loop (l : Locals)
  | locked (l : Locals)
  | loaded (l : Locals) (gsum : ℕ)
  | stored (l : Locals)
  | returned
  deriving DecidableEq, Repr

/-- SOURCE: csapp/echo/psum-mutex.c:52-65 -/
def sumMutex : SumProgram Guarded MutexPc where
  globals := ⟨0, 1⟩
  entry := .entry
  exec := fun nelemsPerThread vargp g pc =>
    match pc with
    | .entry => readArgument nelemsPerThread vargp g .loop
    | .loop l =>
      if l.i < l.stop then
        if 0 < g.mutex then .next ({ g with mutex := g.mutex - 1 }, .locked l) else .waits
      else .next (g, .returned)
    | .locked l => .next (g, .loaded l g.gsum)
    | .loaded l gsum => .next ({ g with gsum := gsum + l.i }, .stored l)
    | .stored l => .next ({ g with mutex := g.mutex + 1 }, .loop l.next)
    | .returned => .waits
  hasReturned := fun pc => decide (pc = .returned)
  collect := fun args g _ _ => .exited g.gsum (decide (g.gsum ≠ args.expected))
  globalLongs := fun g v => g.gsum = v
  localLongs := fun pc =>
    match pc with
    | .loop l | .locked l | .stored l => l.longs
    | .loaded l gsum => gsum :: l.longs
    | .entry | .returned => []

/-! ## The process -/

/-- The cells of `myid` that are assigned, and the threads that are created: thread `k` has
the argument `&myid[k]`. -/
structure Process (γ τ : Type) where
  main : Main
  myid : ℕ → Option ℕ
  threads : ℕ → Option τ
  globals : γ

/-- Who makes a step. -/
inductive Mover where
  | main
  | thread (k : ℕ)
  deriving DecidableEq, Repr

namespace Process

variable {γ τ : Type} (r : SumProgram γ τ) (args : Arguments)

/-- After `nelems / nthreads`, which is undefined without a thread.
SOURCE: csapp/echo/psum-array.c:14-36 -/
def start : Process γ τ where
  main := if args.nthreads = 0 then .undefined else .creating 0
  myid := fun _ => none
  threads := fun _ => none
  globals := r.globals

/-- SOURCE: csapp/echo/psum-array.c:36-53, psum-local.c:36-53, psum-mutex.c:32-49 -/
def mainStep (s : Process γ τ) : Option (Process γ τ) :=
  match s.main with
  | .creating i =>
    if i < args.nthreads then
      if i < MAXTHREADS then
        some { s with
          main := .creating (i + 1)
          myid := Function.update s.myid i (some i)
          threads := Function.update s.threads i (some r.entry) }
      else some { s with main := .undefined }
    else some { s with main := .joining 0 }
  | .joining i =>
    if i < args.nthreads then
      if i < MAXTHREADS then
        if (s.threads i).any r.hasReturned then some { s with main := .joining (i + 1) }
        else none
      else some { s with main := .undefined }
    else some { s with main := .summing 0 0 }
  | .summing i result => some { s with main := r.collect args s.globals i result }
  | .exited .. | .undefined => none

/-- A step of the thread `k`. -/
def threadStep (s : Process γ τ) (k : ℕ) : Option (Process γ τ) :=
  (s.threads k).bind fun pc =>
    match r.exec args.nelemsPerThread (s.myid k) s.globals pc with
    | .waits => none
    | .undefined => some { s with main := .undefined }
    | .next (globals, pc) =>
      some { s with
        threads := Function.update s.threads k (some pc)
        globals := globals }

/-- A step of the process, which has ended at `exit`. -/
def step (s : Process γ τ) (a : Mover) : Option (Process γ τ) :=
  match s.main, a with
  | .exited .., _ | .undefined, _ => none
  | _, .main => s.mainStep r args
  | _, .thread k => s.threadStep r args k

end Process

/-- The values of the variables of `main`. -/
def Main.longs (args : Arguments) : Main → List ℕ
  | .creating i | .joining i => [i]
  | .summing i result => [i, result]
  | .exited result _ => [result, args.nelems * (args.nelems - 1)]
  | .undefined => []

/-- A variable of type `long` has the value, or an expression in the last test of `main`. -/
def Process.Holds {γ τ : Type} (r : SumProgram γ τ) (args : Arguments) (s : Process γ τ)
    (v : ℕ) : Prop :=
  v ∈ [args.nthreads, args.nelems, args.nelemsPerThread] ∨ v ∈ s.main.longs args ∨
    (∃ k, s.myid k = some v) ∨ r.globalLongs s.globals v ∨
    ∃ k pc, s.threads k = some pc ∧ v ∈ r.localLongs pc

end GolangSandbox.Program
