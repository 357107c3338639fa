import GolangSandbox.Model.Loop
import GolangSandbox.Model.Transition
import GolangSandbox.Program.Rio
import Mathlib.Data.Finset.Card
import Mathlib.Logic.Function.Basic

/-!
# The select server

`csapp/echo/echo4.c`: a pool of clients with one `select` loop. `DF_CLR` is read as
`FD_CLR`, and `check_client` is the `check_clients` that `main` calls.

One round of the loop in `main` is one step (`iteration`); the step says which descriptors
`Select` finds ready, what `Accept` returns, which bytes come in, and how `Rio_readlineb`
reads them. A round ends the process or is undefined where the code does (`Halt`). Reads
and writes on an open connection succeed. The bytes in the sockets, what was received and
echoed on each connection and which lines were read are kept beside the pool.
-/

set_option autoImplicit false

namespace GolangSandbox.Program

open GolangSandbox.Model

/-- How a round may fail to return: the process exits, or the behaviour is undefined. -/
inductive Halt where
  | exited
  | undefined
  deriving DecidableEq, Repr

/-- The pool of connected descriptors.
SOURCE: csapp/echo/echo4.c:3-11 -/
structure Pool where
  maxfd : ℤ
  readSet : Finset ℤ
  readySet : Finset ℤ
  nready : ℤ
  maxi : ℤ
  clientfd : ℕ → ℤ
  clientrio : ℕ → Rio

/-- A connection: all bytes received, those still in the socket, those echoed, and the
lines that `Rio_readlineb` returned. -/
structure Connection where
  received : Bytes
  inbound : Bytes
  echoed : Bytes
  reads : List Bytes
  deriving DecidableEq, Repr

/-- A new connection. -/
def Connection.fresh : Connection := ⟨[], [], [], []⟩

/-- The process with the connections of its descriptors, and those it has closed. -/
structure Server where
  listenfd : ℤ
  pool : Pool
  byteCnt : BitVec 32
  connections : ℤ → Option Connection
  closed : List Connection

/-- SOURCE: csapp/echo/echo4.c:46-58 -/
def initPool (listenfd : ℤ) : Pool where
  maxfd := listenfd
  readSet := {listenfd}
  readySet := ∅
  nready := 0
  maxi := -1
  clientfd := fun _ => -1
  clientrio := fun _ => ⟨0, []⟩

/-- `FD_SETSIZE` is a parameter. The first free slot gets the descriptor.
SOURCE: csapp/echo/echo4.c:60-82 -/
def addClient (FD_SETSIZE : ℕ) (connfd : ℤ) (p : Pool) : Except Halt Pool :=
  let p : Pool := { p with nready := p.nready - 1 }
  match (List.range FD_SETSIZE).find? fun i => decide (p.clientfd i < 0) with
  | none => .error .exited
  | some i =>
    if connfd < FD_SETSIZE then
      .ok { p with
        clientfd := Function.update p.clientfd i connfd
        clientrio := Function.update p.clientrio i (rioReadinitb connfd)
        readSet := insert connfd p.readSet
        maxfd := if connfd > p.maxfd then connfd else p.maxfd
        maxi := if (i : ℤ) > p.maxi then i else p.maxi }
    else .error .undefined

namespace Server

/-- The server at the start of its loop; descriptors are not negative.
SOURCE: csapp/echo/echo4.c:26-27 -/
def newServer (listenfd : ℕ) : Server where
  listenfd := listenfd
  pool := initPool listenfd
  byteCnt := 0
  connections := fun _ => none
  closed := []

/-- `Close`, which exits on an invalid descriptor. -/
def close (s : Server) (fd : ℤ) : Except Halt Server :=
  match s.connections fd with
  | none => .error .exited
  | some c =>
    .ok { s with
      connections := Function.update s.connections fd none
      closed := s.closed ++ [c] }

/-- The ready branch: one line is read, from a copy of the buffer that is then dropped, and
echoed.
SOURCE: csapp/echo/echo4.c:95-102 -/
def echo (readlineb : Readlineb) (connfd : ℤ) (rio : Rio) (s : Server) : Except Halt Server :=
  match s.connections connfd with
  | none => .error .exited
  | some c =>
    let (buf, _, inbound) := readlineb rio c.inbound
    let c := { c with inbound := inbound, reads := c.reads ++ [buf] }
    let s := { s with pool := { s.pool with nready := s.pool.nready - 1 } }
    if buf.length ≠ 0 then
      .ok { s with
        byteCnt := s.byteCnt + BitVec.ofNat 32 buf.length
        connections :=
          Function.update s.connections connfd (some { c with echoed := c.echoed ++ buf }) }
    else .ok { s with connections := Function.update s.connections connfd (some c) }

/-- One round of the loop over the slots.
SOURCE: csapp/echo/echo4.c:90-109 -/
def visit (readlineb : Readlineb) (i : ℕ) (s : Server) : Except Halt Server :=
  let connfd := s.pool.clientfd i
  let rio := s.pool.clientrio i
  if connfd > 0 ∧ connfd ∈ s.pool.readySet then s.echo readlineb connfd rio
  else
    (s.close connfd).map fun s =>
      { s with
        pool := { s.pool with
          readSet := s.pool.readSet.erase connfd
          clientfd := Function.update s.pool.clientfd i (-1) } }

/-- The loop condition. -/
def Continues (i : ℕ) (s : Server) : Prop := (i : ℤ) ≤ s.pool.maxi ∧ s.pool.nready > 0

instance (i : ℕ) (s : Server) : Decidable (Continues i s) :=
  inferInstanceAs (Decidable (_ ∧ _))

/-- `maxi` does not change during the loop, which therefore has at most `maxi + 1` rounds.
SOURCE: csapp/echo/echo4.c:84-110 -/
def checkClient (readlineb : Readlineb) (s : Server) : Except Halt Server :=
  forLoop Continues (visit readlineb) (s.pool.maxi + 1).toNat 0 s

/-- What happens around the program in one round: `Select` finds `ready`, `Accept` returns
`connfd`, the bytes `arrivals` come in, and `readlineb` is how they are read. -/
structure Pass where
  ready : Finset ℤ
  connfd : ℕ
  arrivals : ℤ → Bytes
  readlineb : Readlineb

/-- Bytes come in on the connections. -/
def deliver (arrivals : ℤ → Bytes) (s : Server) : Server :=
  { s with
    connections := fun fd =>
      (s.connections fd).map fun c =>
        { c with received := c.received ++ arrivals fd, inbound := c.inbound ++ arrivals fd } }

/-- SOURCE: csapp/echo/echo4.c:31-32 -/
def select (ready : Finset ℤ) (s : Server) : Server :=
  { s with pool := { s.pool with readySet := ready, nready := ready.card } }

/-- SOURCE: csapp/echo/echo4.c:35-39 -/
def accept (FD_SETSIZE : ℕ) (connfd : ℕ) (s : Server) : Except Halt Server :=
  if s.listenfd ∈ s.pool.readySet then
    (addClient FD_SETSIZE connfd s.pool).map fun p =>
      { s with
        pool := p
        connections := Function.update s.connections connfd (some .fresh) }
  else .ok s

/-- The round up to the call of `check_clients`. -/
def prepare (FD_SETSIZE : ℕ) (s : Server) (p : Pass) : Except Halt Server :=
  ((s.deliver p.arrivals).select p.ready).accept FD_SETSIZE p.connfd

/-- One round of the loop in `main`.
SOURCE: csapp/echo/echo4.c:29-43 -/
def iteration (FD_SETSIZE : ℕ) (s : Server) (p : Pass) : Except Halt Server :=
  (s.prepare FD_SETSIZE p).bind (checkClient p.readlineb)

/-- What the system may do: `Select` returns a part of `read_set`, `Accept` a descriptor
that is not open. -/
def Possible (s : Server) (p : Pass) : Prop :=
  p.ready ⊆ s.pool.readSet ∧
    (s.listenfd ∈ p.ready → (p.connfd : ℤ) ≠ s.listenfd ∧ s.connections p.connfd = none)

instance (s : Server) (p : Pass) : Decidable (Possible s p) :=
  inferInstanceAs (Decidable (_ ∧ (_ → _)))

/-- A round that returns. -/
def step (FD_SETSIZE : ℕ) (s : Server) (p : Pass) : Option Server :=
  if Possible s p then (s.iteration FD_SETSIZE p).toOption else none

end Server

/-! ## What a round does -/

/-- A connection after one line was read from it and echoed. -/
def Connection.readOnce (c : Connection) (readlineb : Readlineb) (rio : Rio) : Connection :=
  { c with
    inbound := (readlineb rio c.inbound).2.2
    echoed := c.echoed ++ (readlineb rio c.inbound).1
    reads := c.reads ++ [(readlineb rio c.inbound).1] }

/-- The pool with a client in the slot `i`. -/
def Pool.withClient (p : Pool) (i : ℕ) (connfd : ℤ) : Pool :=
  { p with
    nready := p.nready - 1
    clientfd := Function.update p.clientfd i connfd
    clientrio := Function.update p.clientrio i (rioReadinitb connfd)
    readSet := insert connfd p.readSet
    maxfd := if connfd > p.maxfd then connfd else p.maxfd
    maxi := if (i : ℤ) > p.maxi then i else p.maxi }

/-- When `addClient` returns, the first free slot has the client. -/
theorem addClient_ok {FD_SETSIZE : ℕ} {connfd : ℤ} {p p' : Pool}
    (h : addClient FD_SETSIZE connfd p = .ok p') :
    ∃ i < FD_SETSIZE, p.clientfd i < 0 ∧ connfd < FD_SETSIZE ∧ p' = p.withClient i connfd := by
  unfold addClient at h
  dsimp only at h
  split at h
  · cases h
  rename_i i hfind
  obtain ⟨hfree, hlt, -⟩ := List.find?_range_eq_some.mp hfind
  split at h
  · rename_i hfd
    exact ⟨i, List.mem_range.mp hlt, of_decide_eq_true hfree, hfd, (Except.ok.inj h).symm⟩
  · cases h

namespace Server

variable {readlineb : Readlineb} {i : ℕ} {s t : Server}

/-- The server after the line of a ready slot. -/
def served (readlineb : Readlineb) (i : ℕ) (c : Connection) (s : Server) : Server :=
  { s with
    pool := { s.pool with nready := s.pool.nready - 1 }
    byteCnt := s.byteCnt +
      BitVec.ofNat 32 (readlineb (s.pool.clientrio i) c.inbound).1.length
    connections := Function.update s.connections (s.pool.clientfd i)
      (some (c.readOnce readlineb (s.pool.clientrio i))) }

/-- The server after the slot was cleared. -/
def cleared (i : ℕ) (c : Connection) (s : Server) : Server :=
  { s with
    pool := { s.pool with
      readSet := s.pool.readSet.erase (s.pool.clientfd i)
      clientfd := Function.update s.pool.clientfd i (-1) }
    connections := Function.update s.connections (s.pool.clientfd i) none
    closed := s.closed ++ [c] }

/-- The server with a new client in a free slot. -/
def added (i connfd : ℕ) (s : Server) : Server :=
  { s with
    pool := s.pool.withClient i connfd
    connections := Function.update s.connections connfd (some .fresh) }

/-- The slot is ready for the test of `check_client`. -/
def Positive (s : Server) (i : ℕ) : Prop :=
  0 < s.pool.clientfd i ∧ s.pool.clientfd i ∈ s.pool.readySet

instance (s : Server) (i : ℕ) : Decidable (Positive s i) := inferInstanceAs (Decidable (_ ∧ _))

theorem echo_eq {c : Connection} (hc : s.connections (s.pool.clientfd i) = some c) :
    s.echo readlineb (s.pool.clientfd i) (s.pool.clientrio i) =
      .ok (s.served readlineb i c) := by
  unfold echo
  rw [hc]
  dsimp only
  split
  · rfl
  · rename_i hempty
    have hnil : (readlineb (s.pool.clientrio i) c.inbound).1 = [] := by
      apply List.length_eq_zero_iff.mp
      exact Classical.not_not.mp hempty
    simp only [served, Connection.readOnce, hnil, List.append_nil, List.length_nil,
      BitVec.add_zero]

/-- The connection of a slot decides whether the process survives the visit. -/
theorem visit_eq {c : Connection} (hc : s.connections (s.pool.clientfd i) = some c) :
    s.visit readlineb i =
      .ok (if s.Positive i then s.served readlineb i c else s.cleared i c) := by
  unfold visit
  dsimp only
  by_cases hpos : s.Positive i
  · have hpos' : s.pool.clientfd i > 0 ∧ s.pool.clientfd i ∈ s.pool.readySet := hpos
    rw [if_pos hpos', if_pos hpos, echo_eq hc]
  · have hpos' : ¬ (s.pool.clientfd i > 0 ∧ s.pool.clientfd i ∈ s.pool.readySet) := hpos
    rw [if_neg hpos', if_neg hpos, close, hc]
    rfl

/-- The process exits at a slot without a connection. -/
theorem visit_exits (hc : s.connections (s.pool.clientfd i) = none) :
    s.visit readlineb i = .error .exited := by
  unfold visit
  dsimp only
  split
  · rw [echo, hc]
  · rw [close, hc]
    rfl

/-- **What a visit does** when it returns. -/
theorem visit_ok (h : s.visit readlineb i = .ok t) :
    ∃ c, s.connections (s.pool.clientfd i) = some c ∧
      ((s.Positive i ∧ t = s.served readlineb i c) ∨
        (¬ s.Positive i ∧ t = s.cleared i c)) := by
  cases hc : s.connections (s.pool.clientfd i) with
  | none =>
    rw [visit_exits hc] at h
    cases h
  | some c =>
    rw [visit_eq hc] at h
    refine ⟨c, rfl, ?_⟩
    split at h
    · rename_i hpos
      exact .inl ⟨hpos, (Except.ok.inj h).symm⟩
    · rename_i hidle
      exact .inr ⟨hidle, (Except.ok.inj h).symm⟩

/-- What `accept` does when it returns. -/
theorem accept_ok {FD_SETSIZE connfd : ℕ} (h : s.accept FD_SETSIZE connfd = .ok t) :
    (s.listenfd ∉ s.pool.readySet ∧ t = s) ∨
      (s.listenfd ∈ s.pool.readySet ∧ ∃ i < FD_SETSIZE, s.pool.clientfd i < 0 ∧
        connfd < FD_SETSIZE ∧ t = s.added i connfd) := by
  unfold accept at h
  split at h
  · rename_i hlisten
    cases hadd : addClient FD_SETSIZE connfd s.pool with
    | error e =>
      rw [hadd] at h
      cases h
    | ok p =>
      rw [hadd] at h
      obtain ⟨i, hi, hfree, hfd, rfl⟩ := addClient_ok hadd
      refine .inr ⟨hlisten, i, hi, hfree, ?_, (Except.ok.inj h).symm⟩
      exact_mod_cast hfd
  · rename_i hlisten
    exact .inl ⟨hlisten, (Except.ok.inj h).symm⟩

end Server

end GolangSandbox.Program
