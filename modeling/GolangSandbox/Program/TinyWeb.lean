import GolangSandbox.Program.Rio
import GolangSandbox.Program.Strings

/-!
# The tiny web server

`csapp/charpter11/tinyweb.c`, one transaction: `doit` with the request line, the header
loop, `parse_uri` and `clienterror`, and `get_filetype`, which `serve_static` calls.

A read is a parameter (`Readlineb`), and so is the file system; a read that returns no bytes
leaves the buffer as it was, and a buffer that nothing was written to is `none`.
`read_requesthdrs` has a bound on the number of its reads, and `none` says that it has not
returned by then. Writes succeed, and nothing is printed on the server's own output.
-/

set_option autoImplicit false

namespace GolangSandbox.Program

/-! ## Scanning -/

/-- SOURCE: csapp/charpter11/csapp.h:56 -/
def MAXBUF : ℕ := 8192

/-- One `%s` of `sscanf`: leading white space is skipped, and the word and what is behind it
are returned if there is a word. -/
def scanWord (s : Bytes) : Option (Bytes × Bytes) :=
  let s := s.dropWhile isspace
  if s = [] then none else some (s.takeWhile (! isspace ·), s.dropWhile (! isspace ·))

/-- `sscanf(buf, "%s %s %s", method, uri, version)`; a word that is not there is not
assigned. -/
def scanRequestLine (buf : Bytes) : Option Bytes × Option Bytes × Option Bytes :=
  match scanWord buf with
  | none => (none, none, none)
  | some (method, buf) =>
    match scanWord buf with
    | none => (some method, none, none)
    | some (uri, buf) => (some method, some uri, (scanWord buf).map Prod.fst)

/-! ## Reading the request -/

/-- The read buffer of a connection, and the bytes that come in before the client closes. -/
structure Incoming where
  rio : Rio
  inbound : Bytes
  deriving DecidableEq, Repr

namespace Incoming

/-- The bytes that are not read yet. -/
def remaining (s : Incoming) : Bytes := s.rio.unread ++ s.inbound

/-- `Rio_readlineb(rp, buf, MAXLINE)`: what it puts in the buffer, if it does. -/
def readLine (readlineb : Readlineb) (s : Incoming) : Option Bytes × Incoming :=
  let (line, rio, inbound) := readlineb s.rio s.inbound
  (if line = [] then none else some (cstring line), ⟨rio, inbound⟩)

end Incoming

/-- The loop of `read_requesthdrs`, with at most `calls` reads.
SOURCE: csapp/charpter11/tinyweb.c:135-138 -/
def skipHeaders (readlineb : Readlineb) : ℕ → Bytes → Incoming → Option Incoming
  | 0, buf, s => if buf = crlf then some s else none
  | calls + 1, buf, s =>
    if buf = crlf then some s
    else
      let (line, s) := s.readLine readlineb
      skipHeaders readlineb calls (line.getD buf) s

/-- `uninitialised` is what is in `buf` before the first read. A bound of `calls + 1` reads.
SOURCE: csapp/charpter11/tinyweb.c:130-140 -/
def readRequesthdrs (readlineb : Readlineb) (uninitialised : Bytes) (calls : ℕ) (s : Incoming) :
    Option Incoming :=
  let (line, s) := s.readLine readlineb
  skipHeaders readlineb calls (line.getD uninitialised) s

/-! ## The request line -/

/-- What `parse_uri` returns and puts in its buffers. -/
structure Target where
  isStatic : Bool
  filename : Bytes
  cgiargs : Bytes
  deriving DecidableEq, Repr

def cgiBin : Bytes := text "cgi-bin"

def homeHtml : Bytes := text "home.html"

/-- Undefined for an empty static URI, since `uri[strlen(uri)-1]` is then outside of it.
SOURCE: csapp/charpter11/tinyweb.c:147-171 -/
def parseUri (uri : Bytes) : Option Target :=
  if ! strstr uri cgiBin then
    match uri.getLast? with
    | none => none
    | some c =>
      let filename := [dot] ++ uri
      some ⟨true, if c = slash then filename ++ homeHtml else filename, []⟩
  else
    match uri.dropWhile (· != questionMark) with
    | _ :: args => some ⟨false, [dot] ++ uri.takeWhile (· != questionMark), args⟩
    | [] => some ⟨false, [dot] ++ uri, []⟩

/-- What is in `filetype` when it returns.
SOURCE: csapp/charpter11/tinyweb.c:214-229 -/
def getFiletype (filename : Bytes) : Bytes :=
  if strstr filename (text ".html") then text ".html"
  else if strstr filename (text ".gif") then text "image/gif"
  else if strstr filename (text ".png") then text "iamge/png"
  else if strstr filename (text ".jpg") then text "image/jpg"
  else if strstr filename (text ".jpeg") then text "image/jpeg"
  else text "text/plain"

/-! ## Errors -/

/-- The texts of an error. -/
structure ErrorText where
  errnum : Bytes
  shortmsg : Bytes
  longmsg : Bytes
  deriving DecidableEq, Repr

/-- SOURCE: csapp/charpter11/tinyweb.c:70 -/
def notImplemented : ErrorText :=
  ⟨text "501", text "Not implemented", text "Tiny does not implement this method"⟩

/-- SOURCE: csapp/charpter11/tinyweb.c:78 -/
def notFound : ErrorText := ⟨text "404", text "Not Found", text "Tiny couldn't find this file"⟩

/-- SOURCE: csapp/charpter11/tinyweb.c:85 -/
def cannotRead : ErrorText := ⟨text "403", text "Forbidden", text "Tiny couldn't read the file"⟩

/-- SOURCE: csapp/charpter11/tinyweb.c:93 -/
def cannotRun : ErrorText :=
  ⟨text "403", text "Forbidden", text "Tiny couldn't run the CGI program"⟩

/-- The response body of an error, each `sprintf(body, "%s...", body)` read as appending.
SOURCE: csapp/charpter11/tinyweb.c:108-113 -/
def errorBody (cause : Bytes) (e : ErrorText) : Bytes :=
  let body := text "<html><title>Tiny Error</title>"
  let body := body ++ text "<body bgcolor=ffffff>\r\n"
  let body := body ++ e.errnum ++ text ": " ++ e.shortmsg ++ crlf
  let body := body ++ text "<p>" ++ e.longmsg ++ text ": " ++ cause ++ crlf
  body ++ text "<hr><em>The Tiny Web server</em>\r\n"

/-- The four writes to the client.
SOURCE: csapp/charpter11/tinyweb.c:104-125 -/
def clienterror (cause : Bytes) (e : ErrorText) : List Bytes :=
  let body := errorBody cause e
  [text "HTTP/1.0 " ++ e.errnum ++ [space] ++ e.shortmsg ++ text " \r\n",
    text "Content-type: text/html\r\n",
    text "Content-length: " ++ decimal (strlen body) ++ crlf ++ crlf,
    body.take (strlen body)]

/-! ## A transaction -/

/-- The fields of `struct stat` that `doit` looks at. -/
structure Stat where
  isRegular : Bool
  userRead : Bool
  userExecute : Bool
  size : ℕ
  deriving DecidableEq, Repr

/-- How a transaction ends: with one of the three functions that answer, or by a use of a
variable that was not assigned or of a byte outside of a string. -/
inductive Answer where
  | clienterror (cause : Bytes) (e : ErrorText)
  | serveStatic (filename : Bytes) (filesize : ℕ)
  | serveDynamic (filename cgiargs : Bytes)
  | undefined
  deriving DecidableEq, Repr

/-- `doit` from the call of `stat` on.
SOURCE: csapp/charpter11/tinyweb.c:77-97 -/
def answerFile (stat : Bytes → Option Stat) (t : Target) : Answer :=
  match stat t.filename with
  | none => .clienterror t.filename notFound
  | some sbuf =>
    if t.isStatic then
      if ¬ sbuf.isRegular ∨ ¬ sbuf.userRead then .clienterror t.filename cannotRead
      else .serveStatic t.filename sbuf.size
    else if ¬ sbuf.isRegular ∨ ¬ sbuf.userExecute then .clienterror t.filename cannotRun
    else .serveDynamic t.filename t.cgiargs

/-- `none` if `read_requesthdrs` has not returned after `calls + 1` reads.
SOURCE: csapp/charpter11/tinyweb.c:55-98 -/
def doit (readlineb : Readlineb) (stat : Bytes → Option Stat) (uninitialised : Bytes) (calls : ℕ)
    (s : Incoming) : Option Answer :=
  let (buf, s) := s.readLine readlineb
  match buf with
  | none => some .undefined
  | some buf =>
    let (method, uri, _) := scanRequestLine buf
    match method with
    | none => some .undefined
    | some method =>
      if ¬ SameIgnoringCase method (text "GET") then some (.clienterror method notImplemented)
      else
        (readRequesthdrs readlineb uninitialised calls s).map fun _ =>
          match uri.bind parseUri with
          | none => .undefined
          | some t => answerFile stat t

/-! ## What `parse_uri` returns -/

variable {uri : Bytes}

theorem parseUri_static (hstatic : strstr uri cgiBin = false) (hne : uri ≠ []) :
    parseUri uri = some ⟨true,
      [dot] ++ uri ++ (if uri.getLast? = some slash then homeHtml else []), []⟩ := by
  rw [parseUri, hstatic]
  obtain ⟨c, hc⟩ := Option.ne_none_iff_exists'.mp (mt List.getLast?_eq_none_iff.mp hne)
  simp only [hc, Option.some.injEq, Bool.not_false, if_true]
  split
  · rfl
  · rw [List.append_nil]

theorem parseUri_nil : parseUri [] = none := by decide

theorem parseUri_dynamic (hdynamic : strstr uri cgiBin = true) :
    parseUri uri = some ⟨false, [dot] ++ uri.takeWhile (· != questionMark),
      (uri.dropWhile (· != questionMark)).tail⟩ := by
  rw [parseUri, hdynamic]
  have hsplit := List.takeWhile_append_dropWhile (p := (· != questionMark)) (l := uri)
  cases hargs : uri.dropWhile (· != questionMark) with
  | nil =>
    rw [hargs, List.append_nil] at hsplit
    rw [hsplit]
    rfl
  | cons c args => rfl

/-- Only an empty URI has no target. -/
theorem parseUri_eq_none : parseUri uri = none ↔ uri = [] := by
  constructor
  · intro h
    by_contra hne
    cases hdynamic : strstr uri cgiBin with
    | true =>
      rw [parseUri_dynamic hdynamic] at h
      cases h
    | false =>
      rw [parseUri_static hdynamic hne] at h
      cases h
  · rintro rfl
    exact parseUri_nil

end GolangSandbox.Program
