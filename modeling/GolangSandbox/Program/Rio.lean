import GolangSandbox.Program.Protocol
import Mathlib.Data.Int.Notation

/-!
# The Rio package

`csapp/echo/csapp.h` declares the read buffer `rio_t` and `Rio_readlineb`; the code of the
package is not part of the repository. A read is a parameter of the programs that use it:
from a buffer and the bytes that come in on its descriptor during the call it makes the
line, the buffer afterwards, and the bytes that it has not taken in. `ReadsLine` is what is
known about it.
-/

set_option autoImplicit false

namespace GolangSandbox.Program

/-- SOURCE: csapp/echo/csapp.h:41 -/
def RIO_BUFSIZE : ℕ := 8192

/-- SOURCE: csapp/echo/csapp.h:55 -/
def MAXLINE : ℕ := 8192

/-- A read buffer: its descriptor, and the `rio_cnt` bytes from `rio_bufptr` on.
SOURCE: csapp/echo/csapp.h:42-47 -/
structure Rio where
  rioFd : ℤ
  unread : Bytes
  deriving DecidableEq, Repr

/-- SOURCE: csapp/echo/csapp.h:155 -/
def rioReadinitb (fd : ℤ) : Rio := ⟨fd, []⟩

/-- `Rio_readlineb` with the limit `MAXLINE`. The bytes that come in include those it waits
for when there is no newline yet; a read that finds none is at the end of the stream. -/
abbrev Readlineb := Rio → Bytes → Bytes × Rio × Bytes

/-- The bytes through the first newline, at most `MAXLINE - 1` of them. -/
def firstLine (bytes : Bytes) : Bytes :=
  (bytes.take (bytes.idxOf newline + 1)).take (MAXLINE - 1)

/-- The documented behaviour of `Rio_readlineb`: it returns the first line, keeps or leaves
the rest, and refills an empty buffer with what is there, as far as it fits. -/
structure ReadsLine (readlineb : Readlineb) : Prop where
  line : ∀ rio inbound, (readlineb rio inbound).1 = firstLine (rio.unread ++ inbound)
  conserves : ∀ rio inbound, (readlineb rio inbound).1 ++ (readlineb rio inbound).2.1.unread ++
    (readlineb rio inbound).2.2 = rio.unread ++ inbound
  refills : ∀ rio inbound, rio.unread = [] → min inbound.length RIO_BUFSIZE ≤
    ((readlineb rio inbound).1 ++ (readlineb rio inbound).2.1.unread).length

/-- The first line is what the bytes begin with. -/
theorem firstLine_begins (bytes : Bytes) : firstLine bytes <+: bytes :=
  (List.take_prefix _ _).trans (List.take_prefix _ _)

/-- A line is shorter than the buffer. -/
theorem length_firstLine_lt (bytes : Bytes) : (firstLine bytes).length < RIO_BUFSIZE := by
  have h : (firstLine bytes).length ≤ MAXLINE - 1 := List.length_take_le _ _
  simp only [MAXLINE, RIO_BUFSIZE] at h ⊢
  omega

/-- A reader that takes in the bytes once. -/
def oneRefill : Readlineb := fun rio inbound =>
  (firstLine (rio.unread ++ inbound),
    { rio with
      unread := (rio.unread ++ inbound.take RIO_BUFSIZE).drop
        (firstLine (rio.unread ++ inbound)).length },
    inbound.drop RIO_BUFSIZE)

theorem oneRefill_append (rio : Rio) (inbound : Bytes) :
    (oneRefill rio inbound).1 ++ (oneRefill rio inbound).2.1.unread =
      rio.unread ++ inbound.take RIO_BUFSIZE := by
  have htaken : rio.unread ++ inbound.take RIO_BUFSIZE <+: rio.unread ++ inbound :=
    (List.prefix_append_right_inj _).mpr (List.take_prefix _ _)
  have hlength : (firstLine (rio.unread ++ inbound)).length ≤
      (rio.unread ++ inbound.take RIO_BUFSIZE).length := by
    have hlt := length_firstLine_lt (rio.unread ++ inbound)
    have hle := (firstLine_begins (rio.unread ++ inbound)).length_le
    rw [List.length_append] at hle
    rw [List.length_append, List.length_take]
    omega
  have hline := List.prefix_of_prefix_length_le (firstLine_begins _) htaken hlength
  exact (List.prefix_iff_eq_append.mp hline)

/-- The reader behaves as `Rio_readlineb` does. -/
theorem readsLine_oneRefill : ReadsLine oneRefill where
  line := fun _ _ => rfl
  conserves := by
    intro rio inbound
    rw [oneRefill_append, List.append_assoc]
    exact congrArg _ (List.take_append_drop _ _)
  refills := by
    intro rio inbound hempty
    rw [oneRefill_append, List.length_append, List.length_take, Nat.min_comm]
    exact Nat.le_add_left _ _

end GolangSandbox.Program
