import GolangSandbox.Program.TinyWeb

/-!
# What the tiny web server sends

`csapp/charpter11/tinyweb.c`: `serve_static` and `serve_dynamic`, and with `clienterror` the
bytes that a transaction writes to the client.

The files, the programs that are run and `Mmap` are outside of the server (`Machine`); a file
does not change between `stat` and `Mmap`, and writes to the client succeed. The wrapper `Open`
ends the process when the server may not read the file; `doit` has asked only whether its owner
may. The wrapper `Mmap` ends it when `mmap` fails, which it does for a length of zero and for
one that is negative as an `int`, since it is passed as a `size_t`.
-/

set_option autoImplicit false

namespace GolangSandbox.Program

/-- `%d`. -/
def formatInt (n : ℤ) : Bytes := if n < 0 then [45] ++ decimal n.natAbs else decimal n.natAbs

/-- A file size as the `int` that `serve_static` takes. -/
def intOfSize (size : ℕ) : ℤ := (BitVec.ofNat 32 size).toInt

/-- The longest path of the system, with its NUL. -/
def PATH_MAX : ℕ := 4096

/-- The files and programs of the machine: what `stat` finds, whether the server may open a
file to read it, what is in it, and what a program writes; a call of `Mmap` that does not return
is `none`. -/
structure Machine where
  stat : Bytes → Option Stat
  mayOpen : Bytes → Bool
  contents : Bytes → Bytes
  cgi : Bytes → Bytes → Bytes
  mmap : Bytes → ℤ → Option Bytes
  stat_length : ∀ f st, stat f = some st → f.length < PATH_MAX
  size_eq : ∀ f st, stat f = some st → st.size = (contents f).length
  mmap_pos : ∀ file n, 0 < n → n ≤ file.length → mmap file n = some (file.take n.toNat)
  mmap_nonpos : ∀ file n, n ≤ 0 → mmap file n = none

/-- The writes to the client, and whether the process goes on. -/
structure Reply where
  writes : List Bytes
  goesOn : Bool
  deriving DecidableEq, Repr

namespace Reply

/-- What comes in at the client. -/
def bytes (r : Reply) : Bytes := r.writes.flatten

end Reply

/-- `buf` when it is written, each `sprintf(buf, "%s...", buf)` read as appending.
SOURCE: csapp/charpter11/tinyweb.c:184-189 -/
def staticHead (filename : Bytes) (filesize : ℤ) : Bytes :=
  let buf := text "HTTP1/.0 200 OK\r\n"
  let buf := buf ++ text "Server: Tiny Web Server\r\n"
  let buf := buf ++ text "Connection: close\r\n"
  let buf := buf ++ text "Content-length: " ++ formatInt filesize ++ crlf
  buf ++ text "Content-type: " ++ getFiletype filename ++ crlf ++ crlf

/-- SOURCE: csapp/charpter11/tinyweb.c:178-204 -/
def serveStatic (m : Machine) (filename : Bytes) (filesize : ℤ) : Reply :=
  let buf := staticHead filename filesize
  if m.mayOpen filename then
    match m.mmap (m.contents filename) filesize with
    | none => ⟨[buf.take (strlen buf)], false⟩
    | some srcp => ⟨[buf.take (strlen buf), srcp.take filesize.toNat], true⟩
  else ⟨[buf.take (strlen buf)], false⟩

/-- The program writes to the client itself, and the server waits for it.
SOURCE: csapp/charpter11/tinyweb.c:231-251 -/
def serveDynamic (m : Machine) (filename cgiargs : Bytes) : Reply :=
  ⟨[text "HTTP/1.0 200 OK\r\n", text "Server: Tiny Web Server\r\n", m.cgi filename cgiargs], true⟩

/-- The answer as it is sent, `none` if it is undefined, as it is when the body of an error does
not fit `body[MAXBUF]` with its NUL.
SOURCE: csapp/charpter11/tinyweb.c:70, 78, 85-88, 93-96, 106 -/
def respond (m : Machine) : Answer → Option Reply
  | .clienterror cause e =>
    if (errorBody cause e).length + 1 ≤ MAXBUF then some ⟨clienterror cause e, true⟩ else none
  | .serveStatic filename filesize => some (serveStatic m filename (intOfSize filesize))
  | .serveDynamic filename cgiargs => some (serveDynamic m filename cgiargs)
  | .undefined => none

end GolangSandbox.Program
