import GolangSandbox.Model.Transition
import Mathlib.Data.Int.Notation

/-!
# The echo server with a process for each connection

`csapp/echo/echo2.c`: the parent accepts a connection and forks a child that serves it. A
child that has exited is a zombie until the parent waits for it, which it does in the handler
of `SIGCHLD`.

The signal is one bit: every exit sets it, and its delivery, which may come between any two
steps of the parent, clears it. The handler runs to its end before the parent goes on, with the
signal blocked, so that an exit during the handler only sets the bit. A child may exit at any
point, since the wrappers exit when a call fails and a signal may kill it.

Every process has a list of its open descriptors. A child gets a copy of the one of the parent,
and its descriptors are closed when it exits. A wrapper that fails in the parent ends the
server, which is a run that ends.
-/

set_option autoImplicit false

namespace GolangSandbox.Program

open GolangSandbox.Model

/-- Where the parent is: at `Accept`, at `Fork`, or at `Close`. -/
inductive ParentPc where
  | accepting
  | forking (connfd : ℤ)
  | closing (connfd : ℤ)
  deriving DecidableEq, Repr

/-- Where the handler is: not running, in front of a `waitpid`, or at its `return`. -/
inductive HandlerPc where
  | inactive
  | waiting
  | returning
  deriving DecidableEq, Repr

/-- Where a child is: at one of its calls, or after its exit. -/
inductive ChildPc where
  | closingListen (connfd : ℤ)
  | echoing (connfd : ℤ)
  | closingConn (connfd : ℤ)
  | exiting
  | zombie
  | reaped
  deriving DecidableEq, Repr

/-- The child has not exited. -/
def ChildPc.running : ChildPc → Bool
  | .zombie | .reaped => false
  | .closingListen _ | .echoing _ | .closingConn _ | .exiting => true

/-- A child of the server. -/
structure Child where
  pid : ℤ
  pid_pos : 0 < pid
  pc : ChildPc
  descriptors : List ℤ
  deriving DecidableEq, Repr

/-- The server: the parent, its handler with the pending bit of the signal, and the children in
the order of their creation. -/
structure ForkServer where
  listenfd : ℤ
  parent : ParentPc
  handler : HandlerPc
  pending : Bool
  descriptors : List ℤ
  children : List Child
  deriving DecidableEq, Repr

/-- `waitpid(-1, 0, WNOHANG)`: the process of the child `k`, which has exited and is reaped by
the call. If no such child is left, 0 as long as a child runs and -1 if there is no child. -/
def waitpid (children : List Child) (k : ℕ) : Option (ℤ × List Child) :=
  if ∃ c ∈ children, c.pc = .zombie then
    children[k]?.bind fun c =>
      if c.pc = .zombie then some (c.pid, children.set k { c with pc := .reaped }) else none
  else if ∃ c ∈ children, c.pc.running = true then some (0, children)
  else some (-1, children)

namespace ForkServer

/-- SOURCE: csapp/echo/echo2.c:27-28 -/
def start (listenfd : ℤ) : ForkServer where
  listenfd := listenfd
  parent := .accepting
  handler := .inactive
  pending := false
  descriptors := [listenfd]
  children := []

/-- `Accept` and `Fork` return in the parent what the action says, and the parent closes its
connection; the child `k` takes a step or exits; the signal is delivered, and the handler calls
`waitpid`, which returns the child `k` if it returns one, or returns. -/
inductive Action where
  | accept (connfd : ℤ)
  | fork (pid : ℤ)
  | close
  | child (k : ℕ)
  | exit (k : ℕ)
  | deliver
  | waitpid (k : ℕ)
  | ret
  deriving DecidableEq, Repr

/-- The child `k` is now `c`. -/
def setChild (s : ForkServer) (k : ℕ) (c : Child) : ForkServer :=
  { s with children := s.children.set k c }

/-- A step of the parent in its loop. The pid of a child is free again when it is reaped.
SOURCE: csapp/echo/echo2.c:29-41 -/
def stepParent (s : ForkServer) (a : Action) : Option ForkServer :=
  match s.parent, a with
  | .accepting, .accept connfd =>
    if connfd ∈ s.descriptors then none
    else
      some { s with
        descriptors := connfd :: s.descriptors
        parent := .forking connfd }
  | .forking connfd, .fork pid =>
    if hpid : 0 < pid ∧ ∀ c ∈ s.children, c.pid = pid → c.pc = .reaped then
      some { s with
        parent := .closing connfd
        children := s.children ++ [⟨pid, hpid.1, .closingListen connfd, s.descriptors⟩] }
    else none
  | .closing connfd, .close =>
    if connfd ∈ s.descriptors then
      some { s with
        descriptors := s.descriptors.erase connfd
        parent := .accepting }
    else none
  | _, _ => none

/-- A step of the child `k` inside its branch.
SOURCE: csapp/echo/echo2.c:34-37 -/
def stepChild (s : ForkServer) (k : ℕ) : Option ForkServer :=
  s.children[k]?.bind fun c =>
    match c.pc with
    | .closingListen connfd =>
      if s.listenfd ∈ c.descriptors then
        some (s.setChild k { c with
          pc := .echoing connfd
          descriptors := c.descriptors.erase s.listenfd })
      else none
    | .echoing connfd => some (s.setChild k { c with pc := .closingConn connfd })
    | .closingConn connfd =>
      if connfd ∈ c.descriptors then
        some (s.setChild k { c with
          pc := .exiting
          descriptors := c.descriptors.erase connfd })
      else none
    | .exiting | .zombie | .reaped => none

/-- One step. The parent goes on in its loop only while the handler does not run.
SOURCE: csapp/echo/echo2.c:7-12, csapp/echo/echo2.c:29-41 -/
def step (s : ForkServer) (a : Action) : Option ForkServer :=
  match a with
  | .accept _ | .fork _ | .close =>
    if s.handler = .inactive then s.stepParent a else none
  | .child k => s.stepChild k
  | .exit k =>
    s.children[k]?.bind fun c =>
      if c.pc.running then
        some { s.setChild k { c with pc := .zombie, descriptors := [] } with pending := true }
      else none
  | .deliver =>
    if s.pending = true ∧ s.handler = .inactive then
      some { s with pending := false, handler := .waiting }
    else none
  | .waitpid k =>
    if s.handler = .waiting then
      (Program.waitpid s.children k).map fun (r, children) =>
        { s with
          children := children
          handler := if r > 0 then .waiting else .returning }
    else none
  | .ret => if s.handler = .returning then some { s with handler := .inactive } else none

/-! ## What a step does -/

/-- `waitpid` reaps a zombie and returns its process, which is positive, or finds no zombie and
returns a number that is not. -/
theorem waitpid_eq_some {children children' : List Child} {k : ℕ} {r : ℤ}
    (h : Program.waitpid children k = some (r, children')) :
    (∃ c, children[k]? = some c ∧ c.pc = .zombie ∧ 0 < r ∧
      children' = children.set k { c with pc := .reaped }) ∨
    ((∀ c ∈ children, c.pc ≠ .zombie) ∧ ¬ 0 < r ∧ children' = children) := by
  unfold Program.waitpid at h
  split at h
  · obtain ⟨c, hk, hc⟩ := Option.bind_eq_some_iff.mp h
    rw [Option.ite_none_right_eq_some] at hc
    obtain ⟨hzombie, hret⟩ := hc
    obtain ⟨rfl, rfl⟩ := Prod.mk.inj (Option.some.inj hret)
    exact .inl ⟨c, hk, hzombie, c.pid_pos, rfl⟩
  · rename_i hnone
    have hzombie : ∀ c ∈ children, c.pc ≠ .zombie := fun c hc hpc => hnone ⟨c, hc, hpc⟩
    split at h
    all_goals
      obtain ⟨rfl, rfl⟩ := Prod.mk.inj (Option.some.inj h)
      exact .inr ⟨hzombie, by decide, rfl⟩

/-- What a step leads to, with what makes it possible. -/
inductive Effect (s : ForkServer) : ForkServer → Prop where
  | accept {connfd : ℤ} (hhandler : s.handler = .inactive) (hparent : s.parent = .accepting)
      (hfd : connfd ∉ s.descriptors) :
      Effect s { s with
        descriptors := connfd :: s.descriptors
        parent := .forking connfd }
  | fork {connfd pid : ℤ} (hpid : 0 < pid)
      (hfree : ∀ c ∈ s.children, c.pid = pid → c.pc = .reaped)
      (hhandler : s.handler = .inactive) (hparent : s.parent = .forking connfd) :
      Effect s { s with
        parent := .closing connfd
        children := s.children ++ [⟨pid, hpid, .closingListen connfd, s.descriptors⟩] }
  | close {connfd : ℤ} (hhandler : s.handler = .inactive) (hparent : s.parent = .closing connfd)
      (hfd : connfd ∈ s.descriptors) :
      Effect s { s with
        descriptors := s.descriptors.erase connfd
        parent := .accepting }
  | closeListen {k : ℕ} {c : Child} {connfd : ℤ} (hk : s.children[k]? = some c)
      (hpc : c.pc = .closingListen connfd) (hfd : s.listenfd ∈ c.descriptors) :
      Effect s (s.setChild k { c with
        pc := .echoing connfd
        descriptors := c.descriptors.erase s.listenfd })
  | echo {k : ℕ} {c : Child} {connfd : ℤ} (hk : s.children[k]? = some c)
      (hpc : c.pc = .echoing connfd) :
      Effect s (s.setChild k { c with pc := .closingConn connfd })
  | closeConn {k : ℕ} {c : Child} {connfd : ℤ} (hk : s.children[k]? = some c)
      (hpc : c.pc = .closingConn connfd) (hfd : connfd ∈ c.descriptors) :
      Effect s (s.setChild k { c with
        pc := .exiting
        descriptors := c.descriptors.erase connfd })
  | exit {k : ℕ} {c : Child} (hk : s.children[k]? = some c) (hpc : c.pc.running = true) :
      Effect s { s.setChild k { c with pc := .zombie, descriptors := [] } with pending := true }
  | deliver (hpending : s.pending = true) (hhandler : s.handler = .inactive) :
      Effect s { s with pending := false, handler := .waiting }
  | reap {k : ℕ} {c : Child} (hhandler : s.handler = .waiting) (hk : s.children[k]? = some c)
      (hpc : c.pc = .zombie) : Effect s (s.setChild k { c with pc := .reaped })
  | noZombie (hhandler : s.handler = .waiting) (hchildren : ∀ c ∈ s.children, c.pc ≠ .zombie) :
      Effect s { s with handler := .returning }
  | ret (hhandler : s.handler = .returning) : Effect s { s with handler := .inactive }

variable {s t : ForkServer}

theorem effect_of_stepParent {a : Action} (hhandler : s.handler = .inactive)
    (h : s.stepParent a = some t) : Effect s t := by
  unfold stepParent at h
  split at h
  · rename_i connfd hparent
    rw [Option.ite_none_left_eq_some] at h
    exact Option.some.inj h.2 ▸ .accept hhandler hparent h.1
  · rename_i connfd pid hparent
    split at h
    · rename_i hpid
      exact Option.some.inj h ▸ .fork hpid.1 hpid.2 hhandler hparent
    · cases h
  · rename_i connfd hparent
    rw [Option.ite_none_right_eq_some] at h
    exact Option.some.inj h.2 ▸ .close hhandler hparent h.1
  · cases h

theorem effect_of_stepChild {k : ℕ} (h : s.stepChild k = some t) : Effect s t := by
  obtain ⟨c, hk, hstep⟩ := Option.bind_eq_some_iff.mp h
  split at hstep
  · rename_i connfd hpc
    rw [Option.ite_none_right_eq_some] at hstep
    exact Option.some.inj hstep.2 ▸ .closeListen hk hpc hstep.1
  · rename_i connfd hpc
    exact Option.some.inj hstep ▸ .echo hk hpc
  · rename_i connfd hpc
    rw [Option.ite_none_right_eq_some] at hstep
    exact Option.some.inj hstep.2 ▸ .closeConn hk hpc hstep.1
  · cases hstep
  · cases hstep
  · cases hstep

theorem effect_of_waitpid {k : ℕ} {r : ℤ} {children : List Child} (hhandler : s.handler = .waiting)
    (h : Program.waitpid s.children k = some (r, children)) :
    Effect s { s with
      children := children
      handler := if r > 0 then .waiting else .returning } := by
  obtain ⟨c, hk, hpc, hr, rfl⟩ | ⟨hchildren, hr, rfl⟩ := waitpid_eq_some h
  · rw [if_pos hr, ← hhandler]
    exact .reap hhandler hk hpc
  · rw [if_neg hr]
    exact .noZombie hhandler hchildren

theorem effect_of_step {a : Action} (h : s.step a = some t) : Effect s t := by
  unfold step at h
  split at h
  · rw [Option.ite_none_right_eq_some] at h
    exact effect_of_stepParent h.1 h.2
  · rw [Option.ite_none_right_eq_some] at h
    exact effect_of_stepParent h.1 h.2
  · rw [Option.ite_none_right_eq_some] at h
    exact effect_of_stepParent h.1 h.2
  · exact effect_of_stepChild h
  · obtain ⟨c, hk, hexit⟩ := Option.bind_eq_some_iff.mp h
    rw [Option.ite_none_right_eq_some] at hexit
    exact Option.some.inj hexit.2 ▸ .exit hk hexit.1
  · rw [Option.ite_none_right_eq_some] at h
    exact Option.some.inj h.2 ▸ .deliver h.1.1 h.1.2
  · rw [Option.ite_none_right_eq_some, Option.map_eq_some_iff] at h
    obtain ⟨hhandler, ⟨r, children⟩, hwait, rfl⟩ := h
    exact effect_of_waitpid hhandler hwait
  · rw [Option.ite_none_right_eq_some] at h
    exact Option.some.inj h.2 ▸ .ret h.1

end ForkServer

end GolangSandbox.Program
