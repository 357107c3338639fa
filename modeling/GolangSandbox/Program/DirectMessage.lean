import GolangSandbox.Program.ChatRoom

/-!
# A message to one client

`Send` of the chat server goes through `s.clients` and writes to the first client that has the
name. Nothing in the repository calls it, so the call is one step here, with the registry and
the names as they are at that moment. `none` is a panic.
-/

set_option autoImplicit false

namespace GolangSandbox.Program

open GolangSandbox.Model GolangSandbox.Interface
open GolangSandbox.Program.CommandWiter (write)

/-- The error of `Send`: its own, or that of a write to a connection that `remove` has closed.
SOURCE: chatserver/server/tcp_server.go:24-26 -/
inductive SendError where
  | unknownClient
  | closed
  deriving DecidableEq, Repr

namespace ChatRoom

/-- `client.writer.Write(command)`. -/
def writeTo (s : ChatRoom) (client : ClientId) (command : Command) :
    ChatRoom × Option SendError :=
  if client ∈ s.server.removed then (s, some .closed)
  else
    (s.modify client fun x =>
      { x with wrote := x.wrote ++ write command, inbox := x.inbox ++ write command }, none)

/-- The loop of `Send` over the indices that are left.
SOURCE: chatserver/server/tcp_server.go:63-67 -/
def sendLoop (s : ChatRoom) (name : Bytes) (command : Command) :
    List ℕ → Option (ChatRoom × Option SendError)
  | [] => some (s, some .unknownClient)
  | i :: rest =>
    match s.server.clients.index s.server.arrays i with
    | some (some client) =>
      if (s.sessions client).name = name then some (s.writeTo client command)
      else sendLoop s name command rest
    | _ => none

/-- SOURCE: chatserver/server/tcp_server.go:62-69 -/
def send (s : ChatRoom) (name : Bytes) (command : Command) :
    Option (ChatRoom × Option SendError) :=
  s.sendLoop name command (List.range s.server.clients.len)

variable {s : ChatRoom} {name : Bytes} {command : Command}

/-- The loop over cells that hold these clients finds the first one with the name. -/
theorem sendLoop_eq {indices : List ℕ} {clients : List ClientId}
    (h : indices.map (s.server.clients.index s.server.arrays) =
      clients.map fun client => some (some client)) :
    s.sendLoop name command indices =
      some ((clients.find? fun client => (s.sessions client).name = name).elim
        (s, some .unknownClient) fun client => s.writeTo client command) := by
  induction indices generalizing clients with
  | nil =>
    obtain rfl := List.map_eq_nil_iff.mp h.symm
    rfl
  | cons i rest ih =>
    cases clients with
    | nil => cases h
    | cons client clients =>
      rw [List.map_cons, List.map_cons, List.cons.injEq] at h
      rw [sendLoop, h.1]
      by_cases hname : (s.sessions client).name = name
      · simp [hname]
      · simp [hname, ih h.2]

end ChatRoom

end GolangSandbox.Program
