import GolangSandbox.Model.Transition
import GolangSandbox.Program.Rio
import GolangSandbox.Program.Strings

/-!
# The echo server that also takes commands

`csapp/echo/echo3.c`: `main` waits with `Select` for its terminal and for connections. A line
of the terminal is read with `Fgets` and printed; a connection is served by `echo` until its
client closes it, and then closed. At the end of the terminal the process exits.

`Fgets` reads through a buffer of the library, which `Select` does not know: it sees only the
bytes that the buffer has not taken in. A call takes the first line of what is buffered, at
most `MAXLINE - 1` bytes, and refills the buffer while there is no such line. A refill takes in
some of the bytes that were typed, waits if there are none, and finds the end after the last
one. `echo.c` is not here: a call of `echo` is one step, after which the client is gone.
`Accept` returns a descriptor that is not open. What was typed and printed is kept.
-/

set_option autoImplicit false

namespace GolangSandbox.Program

open GolangSandbox.Model

/-- Where `main` is: at `Select`, in `Fgets` (with what `Select` has said about the listening
socket), at `Accept`, in `echo`, at `Close`, or exited. -/
inductive SelectPc where
  | selecting
  | reading (listening : Bool)
  | accepting
  | echoing (connfd : ℤ)
  | closing (connfd : ℤ)
  | exited
  deriving DecidableEq, Repr

/-- The server: the bytes typed that were not read, whether the terminal is at its end, the
buffer of `stdin`, the clients that wait, and the open descriptors. -/
structure SelectEcho where
  pc : SelectPc
  terminal : Bytes
  ended : Bool
  stdin : Bytes
  waiting : ℕ
  descriptors : List ℤ
  typed : Bytes
  printed : Bytes
  deriving DecidableEq, Repr

namespace SelectEcho

/-- SOURCE: csapp/echo/echo3.c:23-27 -/
def start (listenfd : ℤ) : SelectEcho where
  pc := .selecting
  terminal := []
  ended := false
  stdin := []
  waiting := 0
  descriptors := [0, listenfd]
  typed := []
  printed := []

/-- Bytes are typed, the terminal comes to its end, or a client connects; or `main` takes a
step, where `refill` takes in the number of bytes it says. -/
inductive Action where
  | enter (bytes : Bytes)
  | finish
  | connect
  | select
  | refill (n : ℕ)
  | command
  | accept (connfd : ℤ)
  | echo
  | close
  deriving DecidableEq, Repr

/-- The buffer has a line for `Fgets`. -/
def HasLine (stdin : Bytes) : Prop := newline ∈ stdin ∨ MAXLINE - 1 ≤ stdin.length

instance (stdin : Bytes) : Decidable (HasLine stdin) := inferInstanceAs (Decidable (_ ∨ _))

/-- Where `main` goes on behind `command`. -/
def behind (listening : Bool) : SelectPc := if listening then .accepting else .selecting

/-- `Select` returns what is ready.
SOURCE: csapp/echo/echo3.c:30-34 -/
def select (s : SelectEcho) : Option SelectEcho :=
  if s.terminal ≠ [] ∨ s.ended = true then some { s with pc := .reading (decide (0 < s.waiting)) }
  else if 0 < s.waiting then some { s with pc := .accepting }
  else none

/-- SOURCE: csapp/echo/echo3.c:45 -/
def refill (s : SelectEcho) (n : ℕ) : Option SelectEcho :=
  if ¬ HasLine s.stdin ∧ 0 < n ∧ n ≤ s.terminal.length then
    some { s with stdin := s.stdin ++ s.terminal.take n, terminal := s.terminal.drop n }
  else none

/-- The end of `Fgets`, and what `command` does then.
SOURCE: csapp/echo/echo3.c:43-48 -/
def command (s : SelectEcho) (listening : Bool) : Option SelectEcho :=
  if HasLine s.stdin ∨ s.terminal = [] ∧ s.ended = true then
    if s.stdin = [] then some { s with pc := .exited }
    else
      some { s with
        pc := behind listening
        stdin := s.stdin.drop (firstLine s.stdin).length
        printed := s.printed ++ cstring (firstLine s.stdin) }
  else none

/-- SOURCE: csapp/echo/echo3.c:36 -/
def accept (s : SelectEcho) (connfd : ℤ) : Option SelectEcho :=
  if 0 < s.waiting ∧ connfd ∉ s.descriptors then
    some { s with
      pc := .echoing connfd
      waiting := s.waiting - 1
      descriptors := connfd :: s.descriptors }
  else none

/-- SOURCE: csapp/echo/echo3.c:38 -/
def close (s : SelectEcho) (connfd : ℤ) : Option SelectEcho :=
  if connfd ∈ s.descriptors then
    some { s with pc := .selecting, descriptors := s.descriptors.erase connfd }
  else none

/-- A step of `main`.
SOURCE: csapp/echo/echo3.c:29-48 -/
def stepMain (s : SelectEcho) (a : Action) : Option SelectEcho :=
  match s.pc, a with
  | .selecting, .select => s.select
  | .reading _, .refill n => s.refill n
  | .reading listening, .command => s.command listening
  | .accepting, .accept connfd => s.accept connfd
  | .echoing connfd, .echo => some { s with pc := .closing connfd }
  | .closing connfd, .close => s.close connfd
  | _, _ => none

/-- One step. What is typed after the end of the terminal, or of the process, is not a step. -/
def step (s : SelectEcho) (a : Action) : Option SelectEcho :=
  match a with
  | .enter bytes =>
    if s.ended then none
    else some { s with terminal := s.terminal ++ bytes, typed := s.typed ++ bytes }
  | .finish => some { s with ended := true }
  | .connect => some { s with waiting := s.waiting + 1 }
  | _ => s.stepMain a

/-! ## What a step does -/

/-- What an action leads to, with what makes it possible. -/
inductive Effect (s : SelectEcho) : Action → SelectEcho → Prop where
  | enter {bytes : Bytes} (hended : s.ended = false) :
      Effect s (.enter bytes)
        { s with terminal := s.terminal ++ bytes, typed := s.typed ++ bytes }
  | finish : Effect s .finish { s with ended := true }
  | connect : Effect s .connect { s with waiting := s.waiting + 1 }
  | ready (hpc : s.pc = .selecting) (hready : s.terminal ≠ [] ∨ s.ended = true) :
      Effect s .select { s with pc := .reading (decide (0 < s.waiting)) }
  | called (hpc : s.pc = .selecting) (hwaiting : 0 < s.waiting) :
      Effect s .select { s with pc := .accepting }
  | refill {n : ℕ} {listening : Bool} (hpc : s.pc = .reading listening) (hn : 0 < n)
      (hle : n ≤ s.terminal.length) (hline : ¬ HasLine s.stdin) :
      Effect s (.refill n)
        { s with stdin := s.stdin ++ s.terminal.take n, terminal := s.terminal.drop n }
  | exit {listening : Bool} (hpc : s.pc = .reading listening) (hterminal : s.terminal = [])
      (hended : s.ended = true) (hstdin : s.stdin = []) :
      Effect s .command { s with pc := .exited }
  | command {listening : Bool} (hpc : s.pc = .reading listening) (hstdin : s.stdin ≠ [])
      (hline : HasLine s.stdin ∨ s.terminal = [] ∧ s.ended = true) :
      Effect s .command { s with
        pc := behind listening
        stdin := s.stdin.drop (firstLine s.stdin).length
        printed := s.printed ++ cstring (firstLine s.stdin) }
  | accept {connfd : ℤ} (hpc : s.pc = .accepting) (hwaiting : 0 < s.waiting)
      (hfd : connfd ∉ s.descriptors) :
      Effect s (.accept connfd) { s with
        pc := .echoing connfd
        waiting := s.waiting - 1
        descriptors := connfd :: s.descriptors }
  | echo {connfd : ℤ} (hpc : s.pc = .echoing connfd) :
      Effect s .echo { s with pc := .closing connfd }
  | close {connfd : ℤ} (hpc : s.pc = .closing connfd) (hfd : connfd ∈ s.descriptors) :
      Effect s .close { s with pc := .selecting, descriptors := s.descriptors.erase connfd }

variable {s t : SelectEcho}

theorem not_hasLine_nil : ¬ HasLine [] := by
  simp [HasLine, MAXLINE]

theorem effect_of_select (hpc : s.pc = .selecting) (h : s.select = some t) :
    Effect s .select t := by
  unfold select at h
  split at h
  · rename_i hready
    exact Option.some.inj h ▸ .ready hpc hready
  · rw [Option.ite_none_right_eq_some] at h
    exact Option.some.inj h.2 ▸ .called hpc h.1

theorem effect_of_command {listening : Bool} (hpc : s.pc = .reading listening)
    (h : s.command listening = some t) : Effect s .command t := by
  unfold command at h
  rw [Option.ite_none_right_eq_some] at h
  obtain ⟨hline, h⟩ := h
  split at h
  · rename_i hstdin
    have hend := hline.resolve_left (hstdin ▸ not_hasLine_nil)
    exact Option.some.inj h ▸ .exit hpc hend.1 hend.2 hstdin
  · rename_i hstdin
    exact Option.some.inj h ▸ .command hpc hstdin hline

theorem effect_of_stepMain {a : Action} (h : s.stepMain a = some t) : Effect s a t := by
  unfold stepMain at h
  split at h
  · rename_i hpc
    exact effect_of_select hpc h
  · rename_i listening n hpc
    simp only [refill, Option.ite_none_right_eq_some] at h
    obtain ⟨⟨hline, hn, hle⟩, ht⟩ := h
    exact Option.some.inj ht ▸ .refill hpc hn hle hline
  · rename_i listening hpc
    exact effect_of_command hpc h
  · rename_i connfd hpc
    simp only [accept, Option.ite_none_right_eq_some] at h
    exact Option.some.inj h.2 ▸ .accept hpc h.1.1 h.1.2
  · rename_i connfd hpc
    exact Option.some.inj h ▸ .echo hpc
  · rename_i connfd hpc
    simp only [close, Option.ite_none_right_eq_some] at h
    exact Option.some.inj h.2 ▸ .close hpc h.1
  · cases h

theorem effect_of_step {a : Action} (h : s.step a = some t) : Effect s a t := by
  cases a with
  | enter bytes =>
    simp only [step, Option.ite_none_left_eq_some] at h
    exact Option.some.inj h.2 ▸ .enter (Bool.not_eq_true _ ▸ h.1)
  | finish => exact Option.some.inj h ▸ .finish
  | connect => exact Option.some.inj h ▸ .connect
  | select => exact effect_of_stepMain h
  | refill n => exact effect_of_stepMain h
  | command => exact effect_of_stepMain h
  | accept connfd => exact effect_of_stepMain h
  | echo => exact effect_of_stepMain h
  | close => exact effect_of_stepMain h

end SelectEcho

end GolangSandbox.Program
