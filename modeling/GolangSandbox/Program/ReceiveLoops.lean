import GolangSandbox.Program.ChatRoom
import GolangSandbox.Model.Loop

/-!
# The receive loops on a connection that fails

`TcpChatServer.serve` and `TcpChatClient.Start` on one connection: a finite stream and the
error that every later read returns, which need not be `io.EOF`. Each round of a loop calls
`Read` once, so the number of rounds is the number of calls.

The loop of `serve` changes nothing of the server but the running broadcasts, and its
deferred `remove` runs in the state that the other goroutines have brought the server to by
then. Nothing waits in the loops but `Read` and the send on `incoming`, whose receiver takes
every message.
-/

set_option autoImplicit false

namespace GolangSandbox.Program

open GolangSandbox.Model
open GolangSandbox.Program.ChatRoom (handle receive)

/-! ## The server -/

/-- What the loop of `serve` works on: the reader, the name of the client, and the commands
that it has called `Broadcast` with. -/
structure Service where
  cmdReader : CommandReader
  name : Bytes
  broadcast : List MessageCommand
  deriving DecidableEq, Repr

namespace Service

/-- The loop starts with the client as `accept` made it.
SOURCE: chatserver/server/tcp_server.go:80-83, 103 -/
def new (conn : CommandReader) : Service := ⟨conn, [], []⟩

/-- One round of the loop, and whether it breaks. An error other than the end of the stream
is logged.
SOURCE: chatserver/server/tcp_server.go:107-128 -/
def round (x : Service) : Service × Bool :=
  match CommandReader.read x.cmdReader with
  | (cmd, err, r) =>
    (⟨r, (handle x.name cmd).1, x.broadcast ++ (handle x.name cmd).2.toList⟩,
      err = some (.fault .eof))

end Service

/-- The server, with the clients whose connections it has closed. -/
structure Switchboard (μ : Type) where
  server : TcpChatServer μ
  closed : List ClientId

namespace Switchboard

variable {μ : Type}

/-- `remove` closes the connection behind its loop.
SOURCE: chatserver/server/tcp_server.go:88-99 -/
def remove (s : Switchboard μ) (client : ClientId) : Option (Switchboard μ) :=
  (s.server.remove client).map fun server => ⟨server, s.closed ++ [client]⟩

/-- `serve` for a client, with at most `calls` calls of `Read`; `s` is the server when the
deferred `remove` runs. `none` means that the loop has not ended or that `remove` panics.
SOURCE: chatserver/server/tcp_server.go:101-129 -/
def serve (s : Switchboard μ) (client : ClientId) (conn : CommandReader) (calls : ℕ) :
    Option (Service × Switchboard μ) :=
  (breakLoop Service.round calls (.new conn)).bind fun x =>
    (s.remove client).map fun s => (x, s)

end Switchboard

/-! ## The client -/

/-- What the loop of `Start` works on: the reader, and what it has sent on `incoming`. -/
structure Receipt where
  cmdReader : CommandReader
  incoming : List MessageCommand
  deriving DecidableEq, Repr

namespace Receipt

/-- One round of the loop, and whether it breaks. An error other than the end of the stream
is logged.
SOURCE: chatserver/client/tcp_client.go:37-53 -/
def round (x : Receipt) : Receipt × Bool :=
  match CommandReader.read x.cmdReader with
  | (cmd, err, r) =>
    if err = some (.fault .eof) then (⟨r, x.incoming⟩, true)
    else (⟨r, x.incoming ++ receive cmd⟩, false)

/-- `Start`, with at most `calls` calls of `Read`; `none` means that it has not returned.
SOURCE: chatserver/client/tcp_client.go:36-54 -/
def start (conn : CommandReader) (calls : ℕ) : Option Receipt :=
  breakLoop round calls ⟨conn, []⟩

end Receipt

end GolangSandbox.Program
