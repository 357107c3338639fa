import GolangSandbox.Model.Transition
import GolangSandbox.Program.Rio
import Mathlib.Logic.Function.Basic

/-!
# The prethreaded echo server

`csapp/echo/echo6_echoserverpre.c` and `echo6_echocnt.c`: worker threads take connected
descriptors from a buffer and echo lines; `echo_cnt` counts the bytes of all threads.

A step is one access to shared memory or one operation that may block, so `byte_cnt += n` is
two steps and the read by `printf` is a third. There are any number of threads. `sbuf_remove`
gives any descriptor (its code is not here), and `Rio_readlineb` any number of bytes below
`MAXLINE`; a wrapper that fails ends the process, which is a run that ends. `byte_cnt` is a
32-bit `int` that wraps. Static memory is zero. What was added and printed, in order, and how
often the counter was initialised are kept beside the program.
-/

set_option autoImplicit false

namespace GolangSandbox.Program

/-- `pthread_once_t`: nobody called, one thread is in the routine, the routine returned. -/
inductive OnceControl where
  | notStarted
  | running
  | done
  deriving DecidableEq, Repr

/-- Where a worker is. The bytes `n` of a line are kept until it is written back; between `P`
and `V` the thread is in front of the read of `byte_cnt`, of its write, of `printf`, of `V`. -/
inductive EchoPc where
  | removing
  | once (connfd : ℤ)
  | initSem (connfd : ℤ)
  | initCnt (connfd : ℤ)
  | reading (connfd : ℤ)
  | locking (connfd : ℤ) (n : ℕ)
  | loading (connfd : ℤ) (n : ℕ)
  | storing (connfd : ℤ) (n : ℕ) (cnt : BitVec 32)
  | printing (connfd : ℤ) (n : ℕ)
  | unlocking (connfd : ℤ) (n : ℕ)
  | writing (connfd : ℤ) (n : ℕ)
  | closing (connfd : ℤ)
  deriving DecidableEq, Repr

/-- The numbers of one line of output: `received n (total total) bytes on fd connfd`. -/
structure Printed where
  n : ℕ
  total : BitVec 32
  connfd : ℤ
  deriving DecidableEq, Repr

/-- The workers and what they share. -/
structure EchoServer where
  once : OnceControl
  mutex : ℕ
  byteCnt : BitVec 32
  threads : ℕ → EchoPc
  added : List ℕ
  printed : List Printed
  inits : ℕ

namespace EchoServer

/-- SOURCE: csapp/echo/echo6_echoserverpre.c:24-28, echo6_echocnt.c:3-4, 17 -/
def start : EchoServer where
  once := .notStarted
  mutex := 0
  byteCnt := 0
  threads := fun _ => .removing
  added := []
  printed := []
  inits := 0

/-- The thread goes on at `pc`. -/
def goOn (s : EchoServer) (k : ℕ) (pc : EchoPc) : EchoServer :=
  { s with threads := Function.update s.threads k pc }

/-- A worker takes a descriptor, reads a line, or takes another step. -/
inductive Action where
  | remove (k : ℕ) (connfd : ℤ)
  | read (k n : ℕ)
  | proceed (k : ℕ)
  deriving DecidableEq, Repr

/-- The steps whose outcome is fixed.
SOURCE: csapp/echo/echo6_echocnt.c:6-28, echo6_echoserverpre.c:36-43 -/
def proceed (s : EchoServer) (k : ℕ) : Option EchoServer :=
  match s.threads k with
  | .removing | .reading _ => none
  | .once connfd =>
    match s.once with
    | .notStarted => some (({ s with once := .running } : EchoServer).goOn k (.initSem connfd))
    | .running => none
    | .done => some (s.goOn k (.reading connfd))
  | .initSem connfd =>
    some (({ s with mutex := 1, inits := s.inits + 1 } : EchoServer).goOn k (.initCnt connfd))
  | .initCnt connfd =>
    some (({ s with byteCnt := 0, once := .done } : EchoServer).goOn k (.reading connfd))
  | .locking connfd n =>
    if 0 < s.mutex then
      some (({ s with mutex := s.mutex - 1 } : EchoServer).goOn k (.loading connfd n))
    else none
  | .loading connfd n => some (s.goOn k (.storing connfd n s.byteCnt))
  | .storing connfd n cnt =>
    some (({ s with
      byteCnt := cnt + BitVec.ofNat 32 n
      added := s.added ++ [n] } : EchoServer).goOn k (.printing connfd n))
  | .printing connfd n =>
    some (({ s with
      printed := s.printed ++ [⟨n, s.byteCnt, connfd⟩] } : EchoServer).goOn k (.unlocking connfd n))
  | .unlocking connfd n =>
    some (({ s with mutex := s.mutex + 1 } : EchoServer).goOn k (.writing connfd n))
  | .writing connfd _ => some (s.goOn k (.reading connfd))
  | .closing _ => some (s.goOn k .removing)

/-- One step.
SOURCE: csapp/echo/echo6_echocnt.c:20-27, echo6_echoserverpre.c:36-43 -/
def step (s : EchoServer) : Action → Option EchoServer
  | .remove k connfd =>
    match s.threads k with
    | .removing => some (s.goOn k (.once connfd))
    | _ => none
  | .read k n =>
    match s.threads k with
    | .reading connfd =>
      if n < MAXLINE then
        some (s.goOn k (if n = 0 then .closing connfd else .locking connfd n))
      else none
    | _ => none
  | .proceed k => s.proceed k

/-! ## What a step does -/

/-- What a step leads to, with what makes it possible. -/
inductive Effect (s : EchoServer) : EchoServer → Prop where
  | remove {k : ℕ} (connfd : ℤ) (hk : s.threads k = .removing) :
      Effect s (s.goOn k (.once connfd))
  | line {k n : ℕ} {connfd : ℤ} (hk : s.threads k = .reading connfd) (hpos : 0 < n)
      (hn : n < MAXLINE) : Effect s (s.goOn k (.locking connfd n))
  | endOfFile {k : ℕ} {connfd : ℤ} (hk : s.threads k = .reading connfd) :
      Effect s (s.goOn k (.closing connfd))
  | first {k : ℕ} {connfd : ℤ} (hk : s.threads k = .once connfd) (ho : s.once = .notStarted) :
      Effect s (({ s with once := .running } : EchoServer).goOn k (.initSem connfd))
  | pass {k : ℕ} {connfd : ℤ} (hk : s.threads k = .once connfd) (ho : s.once = .done) :
      Effect s (s.goOn k (.reading connfd))
  | initSem {k : ℕ} {connfd : ℤ} (hk : s.threads k = .initSem connfd) :
      Effect s (({ s with mutex := 1, inits := s.inits + 1 } : EchoServer).goOn k
        (.initCnt connfd))
  | initCnt {k : ℕ} {connfd : ℤ} (hk : s.threads k = .initCnt connfd) :
      Effect s (({ s with byteCnt := 0, once := .done } : EchoServer).goOn k (.reading connfd))
  | lock {k n : ℕ} {connfd : ℤ} (hk : s.threads k = .locking connfd n) (hpos : 0 < s.mutex) :
      Effect s (({ s with mutex := s.mutex - 1 } : EchoServer).goOn k (.loading connfd n))
  | load {k n : ℕ} {connfd : ℤ} (hk : s.threads k = .loading connfd n) :
      Effect s (s.goOn k (.storing connfd n s.byteCnt))
  | store {k n : ℕ} {connfd : ℤ} {cnt : BitVec 32} (hk : s.threads k = .storing connfd n cnt) :
      Effect s (({ s with
        byteCnt := cnt + BitVec.ofNat 32 n
        added := s.added ++ [n] } : EchoServer).goOn k (.printing connfd n))
  | print {k n : ℕ} {connfd : ℤ} (hk : s.threads k = .printing connfd n) :
      Effect s (({ s with
        printed := s.printed ++ [⟨n, s.byteCnt, connfd⟩] } : EchoServer).goOn k
          (.unlocking connfd n))
  | unlock {k n : ℕ} {connfd : ℤ} (hk : s.threads k = .unlocking connfd n) :
      Effect s (({ s with mutex := s.mutex + 1 } : EchoServer).goOn k (.writing connfd n))
  | write {k n : ℕ} {connfd : ℤ} (hk : s.threads k = .writing connfd n) :
      Effect s (s.goOn k (.reading connfd))
  | close {k : ℕ} {connfd : ℤ} (hk : s.threads k = .closing connfd) :
      Effect s (s.goOn k .removing)

variable {s t : EchoServer}

theorem effect_of_proceed {k : ℕ} (h : s.proceed k = some t) : Effect s t := by
  unfold proceed at h
  split at h
  · cases h
  · cases h
  · rename_i connfd hk
    split at h
    · rename_i ho
      exact Option.some.inj h ▸ .first hk ho
    · cases h
    · rename_i ho
      exact Option.some.inj h ▸ .pass hk ho
  · rename_i connfd hk
    exact Option.some.inj h ▸ .initSem hk
  · rename_i connfd hk
    exact Option.some.inj h ▸ .initCnt hk
  · rename_i connfd n hk
    rw [Option.ite_none_right_eq_some] at h
    exact Option.some.inj h.2 ▸ .lock hk h.1
  · rename_i connfd n hk
    exact Option.some.inj h ▸ .load hk
  · rename_i connfd n cnt hk
    exact Option.some.inj h ▸ .store hk
  · rename_i connfd n hk
    exact Option.some.inj h ▸ .print hk
  · rename_i connfd n hk
    exact Option.some.inj h ▸ .unlock hk
  · rename_i connfd n hk
    exact Option.some.inj h ▸ .write hk
  · rename_i connfd hk
    exact Option.some.inj h ▸ .close hk

theorem effect_of_step {a : Action} (h : s.step a = some t) : Effect s t := by
  unfold step at h
  cases a with
  | remove k connfd =>
    dsimp only at h
    split at h
    · rename_i hk
      exact Option.some.inj h ▸ .remove connfd hk
    · cases h
  | read k n =>
    dsimp only at h
    split at h
    · rename_i connfd hk
      rw [Option.ite_none_right_eq_some] at h
      obtain ⟨hn, heq⟩ := h
      obtain rfl := Option.some.inj heq
      split
      · exact .endOfFile hk
      · rename_i hne
        exact .line hk (Nat.pos_of_ne_zero hne) hn
    · cases h
  | proceed k => exact effect_of_proceed h

end EchoServer

end GolangSandbox.Program
