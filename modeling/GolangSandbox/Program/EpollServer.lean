import GolangSandbox.Model.Transition
import GolangSandbox.Program.Strings

/-!
# The server with epoll and one buffer

`socket_program/linux/server.c`, with the missing semicolons and the name of `sockaddr_in` as
they are meant. The loop waits for events on the listening socket and on the connections, and
reads the data of every connection into one buffer, which it prints as a string. The buffer is
all NUL at the start and is never cleared.

`epoll_wait` returns different descriptors out of those it watches, and none if it fails.
`accept` returns a descriptor that is not watched, or -1, which `epoll_ctl` refuses. `read`
copies what it has read to the front of the buffer, at most its size; nothing if it fails or
the connection has ended. To print a buffer without a NUL is undefined.
-/

set_option autoImplicit false

namespace GolangSandbox.Program

open GolangSandbox.Model

/-- SOURCE: socket_program/linux/server.c:9 -/
def MAX_EVENTS : ℕ := 10

/-- The size of the buffer, which is also the limit of a `read`.
SOURCE: socket_program/linux/server.c:19, socket_program/linux/server.c:45 -/
def bufferSize : ℕ := 1024

/-- The string that `%s` prints, if it ends in the buffer. -/
def formatString (buffer : Bytes) : Option Bytes :=
  if nul ∈ buffer then some (cstring buffer) else none

/-- SOURCE: socket_program/linux/server.c:46 -/
def messageLine (message : Bytes) : Bytes := text "Message from client: " ++ message ++ [10]

/-- SOURCE: socket_program/linux/server.c:47 -/
def reply : Bytes := text "Hello from server"

/-- Where the server is: in its inner loop, with the events that are left, where it calls
`epoll_wait` when there are none. -/
inductive EpollPc where
  | handling (events : List ℤ)
  | undefined
  deriving DecidableEq, Repr

/-- The server: the descriptors that are watched, the buffer, and what was read, printed and
sent, in order. -/
structure EpollServer where
  server_fd : ℤ
  pc : EpollPc
  interest : List ℤ
  buffer : Bytes
  received : List (ℤ × Bytes)
  printed : List Bytes
  sent : List (ℤ × Bytes)

namespace EpollServer

/-- SOURCE: socket_program/linux/server.c:19-33 -/
def start (server_fd : ℤ) : EpollServer where
  server_fd := server_fd
  pc := .handling []
  interest := [server_fd]
  buffer := List.replicate bufferSize nul
  received := []
  printed := []
  sent := []

/-- `epoll_wait`, `accept` or `read` returns what the action says. -/
inductive Action where
  | wait (events : List ℤ)
  | accept (client_fd : ℤ)
  | read (message : Bytes)
  deriving DecidableEq, Repr

/-- A connection has data.
SOURCE: socket_program/linux/server.c:45-48 -/
def serve (s : EpollServer) (fd : ℤ) (events : List ℤ) (message : Bytes) : EpollServer :=
  let buffer := message ++ s.buffer.drop message.length
  let received := s.received ++ [(fd, message)]
  match formatString buffer with
  | none => { s with pc := .undefined, buffer := buffer, received := received }
  | some printed =>
    { s with
      pc := .handling events
      interest := s.interest.erase fd
      buffer := buffer
      received := received
      printed := s.printed ++ [messageLine printed]
      sent := s.sent ++ [(fd, reply)] }

/-- One step.
SOURCE: socket_program/linux/server.c:35-51 -/
def step (s : EpollServer) (a : Action) : Option EpollServer :=
  match s.pc, a with
  | .handling [], .wait events =>
    if events.Nodup ∧ events.length ≤ MAX_EVENTS ∧ ∀ fd ∈ events, fd ∈ s.interest then
      some { s with pc := .handling events }
    else none
  | .handling (fd :: events), .accept client_fd =>
    if fd = s.server_fd ∧ client_fd ∉ s.interest then
      some { s with
        pc := .handling events
        interest := if client_fd = -1 then s.interest else client_fd :: s.interest }
    else none
  | .handling (fd :: events), .read message =>
    if fd ≠ s.server_fd ∧ message.length ≤ bufferSize then some (s.serve fd events message)
    else none
  | _, _ => none

/-! ## What a step does -/

/-- What a step leads to, with what makes it possible. -/
inductive Effect (s : EpollServer) : EpollServer → Prop where
  | wait {events : List ℤ} (hpc : s.pc = .handling []) (hnodup : events.Nodup)
      (hlength : events.length ≤ MAX_EVENTS) (hevents : ∀ fd ∈ events, fd ∈ s.interest) :
      Effect s { s with pc := .handling events }
  | accept {events : List ℤ} {client_fd : ℤ} (hpc : s.pc = .handling (s.server_fd :: events))
      (hfd : client_fd ∉ s.interest) :
      Effect s { s with
        pc := .handling events
        interest := if client_fd = -1 then s.interest else client_fd :: s.interest }
  | serve {fd : ℤ} {events : List ℤ} {message printed : Bytes}
      (hpc : s.pc = .handling (fd :: events)) (hfd : fd ≠ s.server_fd)
      (hlength : message.length ≤ bufferSize)
      (hprint : formatString (message ++ s.buffer.drop message.length) = some printed) :
      Effect s { s with
        pc := .handling events
        interest := s.interest.erase fd
        buffer := message ++ s.buffer.drop message.length
        received := s.received ++ [(fd, message)]
        printed := s.printed ++ [messageLine printed]
        sent := s.sent ++ [(fd, reply)] }
  | overrun {fd : ℤ} {events : List ℤ} {message : Bytes}
      (hpc : s.pc = .handling (fd :: events)) (hfd : fd ≠ s.server_fd)
      (hlength : message.length ≤ bufferSize)
      (hprint : formatString (message ++ s.buffer.drop message.length) = none) :
      Effect s { s with
        pc := .undefined
        buffer := message ++ s.buffer.drop message.length
        received := s.received ++ [(fd, message)] }

variable {s t : EpollServer}

theorem effect_of_serve {fd : ℤ} {events : List ℤ} {message : Bytes}
    (hpc : s.pc = .handling (fd :: events)) (hfd : fd ≠ s.server_fd)
    (hlength : message.length ≤ bufferSize) : Effect s (s.serve fd events message) := by
  dsimp only [serve]
  split
  · rename_i hprint
    exact .overrun hpc hfd hlength hprint
  · rename_i printed hprint
    exact .serve hpc hfd hlength hprint

theorem effect_of_step {a : Action} (h : s.step a = some t) : Effect s t := by
  unfold step at h
  split at h
  · rename_i events hpc
    rw [Option.ite_none_right_eq_some] at h
    obtain ⟨⟨hnodup, hlength, hevents⟩, ht⟩ := h
    exact Option.some.inj ht ▸ .wait hpc hnodup hlength hevents
  · rename_i fd events client_fd hpc
    rw [Option.ite_none_right_eq_some] at h
    obtain ⟨⟨rfl, hfd⟩, ht⟩ := h
    exact Option.some.inj ht ▸ .accept hpc hfd
  · rename_i fd events message hpc
    rw [Option.ite_none_right_eq_some] at h
    obtain ⟨⟨hfd, hlength⟩, ht⟩ := h
    exact Option.some.inj ht ▸ effect_of_serve hpc hfd hlength
  · cases h

end EpollServer

end GolangSandbox.Program
