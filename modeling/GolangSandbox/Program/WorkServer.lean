import GolangSandbox.Model.Transition
import GolangSandbox.Program.Dispatcher
import GolangSandbox.Program.Strings
import Mathlib.Algebra.Group.Int.Defs

/-!
# The work server

The HTTP side of `handleMillionRequest`: `requestHandler` checks a request and sends a job
on `jobQueue`. `net/http` runs it in a goroutine of its own for each request. All it shares
is the queue, on which it makes at most one send, so a request is one step of the server,
which takes place when its send does. The steps of the dispatcher run in between.

`time.ParseDuration` is a parameter: it gives a number of nanoseconds or the text of its
error. `delay.Seconds()` is compared with 1 and 10 as a `float64`, which comes out as the
comparison of the nanoseconds.
-/

set_option autoImplicit false

namespace GolangSandbox.Program

/-- What `requestHandler` reads of a request; a form value that is not there is empty. -/
structure Request where
  method : Bytes
  delay : Bytes
  name : Bytes
  deriving DecidableEq, Repr

/-- What was written for a request: headers, the status line once it is out, and the body. -/
structure ResponseWriter where
  header : List (Bytes × Bytes)
  status : Option ℕ
  body : Bytes
  deriving DecidableEq, Repr

namespace ResponseWriter

/-- Nothing is written yet. -/
def fresh : ResponseWriter := ⟨[], none, []⟩

/-- `Header().Set` replaces the value of a key. -/
def set (w : ResponseWriter) (key value : Bytes) : ResponseWriter :=
  { w with header := w.header.filter (·.1 ≠ key) ++ [(key, value)] }

/-- `WriteHeader`: only the first call has an effect. -/
def writeHeader (w : ResponseWriter) (code : ℕ) : ResponseWriter :=
  { w with status := w.status.or (some code) }

/-- `http.Error`. -/
def error (w : ResponseWriter) (message : Bytes) (code : ℕ) : ResponseWriter :=
  let w := ((w.set (text "Content-Type") (text "text/plain; charset=utf-8")).set
    (text "X-Content-Type-Options") (text "nosniff")).writeHeader code
  { w with body := w.body ++ message ++ [newline] }

end ResponseWriter

/-- `time.Second`, in nanoseconds. -/
def second : ℤ := 10 ^ 9

variable (parseDuration : Bytes → Except Bytes ℤ)

/-- What is written for a request, and the job that is sent on `jobQueue`.
SOURCE: handleMillionRequest/main.go:95-121 -/
def requestHandler (r : Request) : ResponseWriter × Option Job :=
  if r.method ≠ text "POST" then
    ((ResponseWriter.fresh.set (text "Allow") (text "POST")).writeHeader 405, none)
  else
    match parseDuration r.delay with
    | .error err => (ResponseWriter.fresh.error (text "Bad delay value: " ++ err) 400, none)
    | .ok delay =>
      if delay < second ∨ 10 * second < delay then
        (ResponseWriter.fresh.error
          (text "The delay must be between 1 and 10 seconds, inclusively") 400, none)
      else
        -- The handler goes on after this error.
        let w := if r.name = [] then
          ResponseWriter.fresh.error (text "You must specify a name") 400
        else .fresh
        (w.writeHeader 201, some ⟨r.name, delay⟩)

/-- The dispatcher, and the requests handled with what was written for each. -/
structure WorkServer where
  dispatcher : Dispatcher
  answered : List (Request × ResponseWriter)
  deriving DecidableEq, Repr

namespace WorkServer

/-- SOURCE: handleMillionRequest/main.go:123-144 -/
def start (maxWorkers maxQueueSize : ℕ) : WorkServer :=
  ⟨Dispatcher.newDispatcher maxWorkers maxQueueSize, []⟩

/-- A request is handled, its job, if there is one, going to the waiting `dispatch` (`direct`)
or to the buffer of the queue; or something else in the program takes a step. -/
inductive Action where
  | request (r : Request) (direct : Bool)
  | internal (a : Dispatcher.Action)
  deriving DecidableEq, Repr

/-- The send of a handler. -/
def enqueue (direct : Bool) (job : Job) : Dispatcher.Action :=
  if direct then .handoff job else .submit job

/-- Only handlers send on `jobQueue`. -/
def isInternal : Dispatcher.Action → Bool
  | .submit _ | .handoff _ => false
  | _ => true

/-- One step. A request whose job finds no room is not handled yet.
SOURCE: handleMillionRequest/main.go:139-141 -/
def step (s : WorkServer) : Action → Option WorkServer
  | .request r direct =>
    match requestHandler parseDuration r with
    | (w, none) => some { s with answered := s.answered ++ [(r, w)] }
    | (w, some job) => (s.dispatcher.step (enqueue direct job)).map fun d =>
        { dispatcher := d, answered := s.answered ++ [(r, w)] }
  | .internal a =>
    if isInternal a then (s.dispatcher.step a).map fun d => { s with dispatcher := d } else none

end WorkServer

end GolangSandbox.Program
