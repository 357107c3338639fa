import GolangSandbox.Model.Heap
import GolangSandbox.Model.Transition
import Mathlib.Data.Int.Notation

/-!
# The echo server with a thread for each connection

`csapp/echo/echo5.c`: `main` accepts a connection into a new block of the heap and passes the
block to a new thread, which reads the descriptor from it and frees it.

Each access to the heap is a step of its own, and so is each call of a wrapper; a wrapper that
fails ends the process, which is a run that ends. `Accept` returns a descriptor that is not
open, and `Malloc` an address that is not allocated. An access to the heap that fails, and a
`Close` of a descriptor that is not open, are undefined. Threads have the numbers in the
order of their creation. The accesses to the blocks, and the descriptors accepted, echoed on
and closed, are kept in order.
-/

set_option autoImplicit false

namespace GolangSandbox.Program

open GolangSandbox.Model

/-- Where `main` is: at `Malloc`, at `Accept`, in front of the write to `*connfdp`, or at
`Pthread_create`. -/
inductive AcceptPc where
  | allocating
  | accepting (connfdp : ℕ)
  | storing (connfdp : ℕ) (connfd : ℤ)
  | creating (connfdp : ℕ)
  | undefined
  deriving DecidableEq, Repr

/-- Where a thread is: in front of the read of `*vargp`, or at one of its calls. -/
inductive ServePc where
  | reading (vargp : ℕ)
  | detaching (vargp : ℕ) (connfd : ℤ)
  | freeing (vargp : ℕ) (connfd : ℤ)
  | echoing (connfd : ℤ)
  | closing (connfd : ℤ)
  | returned
  deriving DecidableEq, Repr

/-- An access to the block `number`. -/
inductive Access where
  | malloc (number : ℕ)
  | store (number : ℕ) (connfd : ℤ)
  | read (number thread : ℕ) (connfd : ℤ)
  | free (number thread : ℕ)
  deriving DecidableEq, Repr

/-- The block of an access. -/
def Access.number : Access → ℕ
  | .malloc number | .store number _ | .read number _ _ | .free number _ => number

/-- The process, and its open connections. -/
structure EchoThreads where
  heap : Heap ℤ
  descriptors : List ℤ
  main : AcceptPc
  threads : List ServePc
  accesses : List Access
  accepted : List ℤ
  echoed : List ℤ
  closed : List ℤ

namespace EchoThreads

/-- SOURCE: csapp/echo/echo5.c:23 -/
def start : EchoThreads where
  heap := .empty
  descriptors := []
  main := .allocating
  threads := []
  accesses := []
  accepted := []
  echoed := []
  closed := []

/-- `Malloc` and `Accept` return what the action says; `main` or a thread takes another step. -/
inductive Action where
  | malloc (p : ℕ)
  | accept (connfd : ℤ)
  | main
  | thread (k : ℕ)
  deriving DecidableEq, Repr

/-- The behaviour is undefined. -/
def fault (s : EchoThreads) : EchoThreads := { s with main := .undefined }

/-- The thread goes on at `pc`. -/
def goOn (s : EchoThreads) (k : ℕ) (pc : ServePc) : EchoThreads :=
  { s with threads := s.threads.set k pc }

/-- The steps of `main` with a fixed outcome.
SOURCE: csapp/echo/echo5.c:29-30 -/
def stepMain (s : EchoThreads) : Option EchoThreads :=
  match s.main with
  | .storing connfdp connfd =>
    match s.heap.store connfdp connfd with
    | none => some s.fault
    | some (number, heap) =>
      some { s with
        heap := heap
        main := .creating connfdp
        accesses := s.accesses ++ [.store number connfd] }
  | .creating connfdp =>
    some { s with main := .allocating, threads := s.threads ++ [.reading connfdp] }
  | .allocating | .accepting _ | .undefined => none

/-- A step of the thread `k`.
SOURCE: csapp/echo/echo5.c:35-45 -/
def stepThread (s : EchoThreads) (k : ℕ) : Option EchoThreads :=
  s.threads[k]?.bind fun
    | .reading vargp =>
      match s.heap.load vargp with
      | none => some s.fault
      | some (number, connfd) =>
        some (({ s with
          accesses := s.accesses ++ [.read number k connfd] } : EchoThreads).goOn k
            (.detaching vargp connfd))
    | .detaching vargp connfd => some (s.goOn k (.freeing vargp connfd))
    | .freeing vargp connfd =>
      match s.heap.free vargp with
      | none => some s.fault
      | some (number, heap) =>
        some (({ s with
          heap := heap
          accesses := s.accesses ++ [.free number k] } : EchoThreads).goOn k (.echoing connfd))
    | .echoing connfd =>
      some (({ s with echoed := s.echoed ++ [connfd] } : EchoThreads).goOn k (.closing connfd))
    | .closing connfd =>
      if connfd ∈ s.descriptors then
        some (({ s with
          descriptors := s.descriptors.erase connfd
          closed := s.closed ++ [connfd] } : EchoThreads).goOn k .returned)
      else some s.fault
    | .returned => none

/-- One step.
SOURCE: csapp/echo/echo5.c:25-45 -/
def step (s : EchoThreads) (a : Action) : Option EchoThreads :=
  match s.main, a with
  | .undefined, _ => none
  | .allocating, .malloc p =>
    (s.heap.malloc p).map fun heap =>
      { s with
        heap := heap
        main := .accepting p
        accesses := s.accesses ++ [.malloc s.heap.next] }
  | .accepting connfdp, .accept connfd =>
    if connfd ∈ s.descriptors then none
    else
      some { s with
        descriptors := connfd :: s.descriptors
        main := .storing connfdp connfd
        accepted := s.accepted ++ [connfd] }
  | _, .malloc _ | _, .accept _ => none
  | _, .main => s.stepMain
  | _, .thread k => s.stepThread k

/-! ## What a step does -/

/-- What a step leads to, with what makes it possible. -/
inductive Effect (s : EchoThreads) : EchoThreads → Prop where
  | malloc {p : ℕ} (hmain : s.main = .allocating) (hp : s.heap.cells p = none) :
      Effect s { s with
        heap := s.heap.new p
        main := .accepting p
        accesses := s.accesses ++ [.malloc s.heap.next] }
  | accept {p : ℕ} {connfd : ℤ} (hmain : s.main = .accepting p)
      (hfd : connfd ∉ s.descriptors) :
      Effect s { s with
        descriptors := connfd :: s.descriptors
        main := .storing p connfd
        accepted := s.accepted ++ [connfd] }
  | store {p number : ℕ} {connfd : ℤ} {heap : Heap ℤ} (hmain : s.main = .storing p connfd)
      (hstore : s.heap.store p connfd = some (number, heap)) :
      Effect s { s with
        heap := heap
        main := .creating p
        accesses := s.accesses ++ [.store number connfd] }
  | storeFault {p : ℕ} {connfd : ℤ} (hmain : s.main = .storing p connfd)
      (hstore : s.heap.store p connfd = none) : Effect s s.fault
  | create {p : ℕ} (hmain : s.main = .creating p) :
      Effect s { s with main := .allocating, threads := s.threads ++ [.reading p] }
  | read {k p number : ℕ} {connfd : ℤ} (hk : s.threads[k]? = some (.reading p))
      (hload : s.heap.load p = some (number, connfd)) :
      Effect s (({ s with
        accesses := s.accesses ++ [.read number k connfd] } : EchoThreads).goOn k
          (.detaching p connfd))
  | readFault {k p : ℕ} (hk : s.threads[k]? = some (.reading p)) (hload : s.heap.load p = none) :
      Effect s s.fault
  | detach {k p : ℕ} {connfd : ℤ} (hk : s.threads[k]? = some (.detaching p connfd)) :
      Effect s (s.goOn k (.freeing p connfd))
  | free {k p number : ℕ} {connfd : ℤ} {heap : Heap ℤ}
      (hk : s.threads[k]? = some (.freeing p connfd))
      (hfree : s.heap.free p = some (number, heap)) :
      Effect s (({ s with
        heap := heap
        accesses := s.accesses ++ [.free number k] } : EchoThreads).goOn k (.echoing connfd))
  | freeFault {k p : ℕ} {connfd : ℤ} (hk : s.threads[k]? = some (.freeing p connfd))
      (hfree : s.heap.free p = none) : Effect s s.fault
  | echo {k : ℕ} {connfd : ℤ} (hk : s.threads[k]? = some (.echoing connfd)) :
      Effect s (({ s with echoed := s.echoed ++ [connfd] } : EchoThreads).goOn k
        (.closing connfd))
  | close {k : ℕ} {connfd : ℤ} (hk : s.threads[k]? = some (.closing connfd))
      (hfd : connfd ∈ s.descriptors) :
      Effect s (({ s with
        descriptors := s.descriptors.erase connfd
        closed := s.closed ++ [connfd] } : EchoThreads).goOn k .returned)
  | closeFault {k : ℕ} {connfd : ℤ} (hk : s.threads[k]? = some (.closing connfd))
      (hfd : connfd ∉ s.descriptors) : Effect s s.fault

variable {s t : EchoThreads}

theorem effect_of_stepMain (h : s.stepMain = some t) : Effect s t := by
  unfold stepMain at h
  split at h
  · rename_i p connfd hmain
    split at h
    · rename_i hstore
      exact Option.some.inj h ▸ .storeFault hmain hstore
    · rename_i number heap hstore
      exact Option.some.inj h ▸ .store hmain hstore
  · rename_i p hmain
    exact Option.some.inj h ▸ .create hmain
  · cases h
  · cases h
  · cases h

theorem effect_of_stepThread {k : ℕ} (h : s.stepThread k = some t) : Effect s t := by
  obtain ⟨pc, hk, hstep⟩ := Option.bind_eq_some_iff.mp h
  cases pc with
  | reading p =>
    dsimp only at hstep
    split at hstep
    · rename_i hload
      exact Option.some.inj hstep ▸ .readFault hk hload
    · rename_i number connfd hload
      exact Option.some.inj hstep ▸ .read hk hload
  | detaching p connfd => exact Option.some.inj hstep ▸ .detach hk
  | freeing p connfd =>
    dsimp only at hstep
    split at hstep
    · rename_i hfree
      exact Option.some.inj hstep ▸ .freeFault hk hfree
    · rename_i number heap hfree
      exact Option.some.inj hstep ▸ .free hk hfree
  | echoing connfd => exact Option.some.inj hstep ▸ .echo hk
  | closing connfd =>
    dsimp only at hstep
    split at hstep
    · rename_i hfd
      exact Option.some.inj hstep ▸ .close hk hfd
    · rename_i hfd
      exact Option.some.inj hstep ▸ .closeFault hk hfd
  | returned => cases hstep

theorem effect_of_step {a : Action} (h : s.step a = some t) : Effect s t := by
  unfold step at h
  split at h
  · cases h
  · rename_i p hmain
    obtain ⟨heap, hheap, rfl⟩ := Option.map_eq_some_iff.mp h
    unfold Heap.malloc at hheap
    rw [Option.ite_none_right_eq_some, Option.isNone_iff_eq_none] at hheap
    obtain ⟨hp, rfl⟩ := hheap.imp id Option.some.inj
    exact .malloc hmain hp
  · rename_i p connfd hmain
    rw [Option.ite_none_left_eq_some] at h
    exact Option.some.inj h.2 ▸ .accept hmain h.1
  · cases h
  · cases h
  · exact effect_of_stepMain h
  · exact effect_of_stepThread h

end EchoThreads

end GolangSandbox.Program
