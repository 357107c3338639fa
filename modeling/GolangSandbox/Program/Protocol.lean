import GolangSandbox.Model.Source

/-!
# The text protocol of the chat server

`chatserver/protocol`: the three commands, the writer and the reader. Strings are
byte strings. A connection is read to its end or to a transport error, so a
reader is a `Source` of bytes with a `Fault` behind them.

`Write` takes an `interface{}`; its default branch, which writes nothing and
returns `UnknownCommand`, is taken by values of other dynamic types only, and
`Command` has none of these. The writes themselves succeed.
-/

set_option autoImplicit false

namespace GolangSandbox.Program

open GolangSandbox.Model

abbrev Bytes := List UInt8

/-- The delimiter of the keyword and of the user of a `MESSAGE`. -/
def space : UInt8 := 32

/-- The delimiter of a command. -/
def newline : UInt8 := 10

/-- `"SEND "` -/
def sendTag : Bytes := [83, 69, 78, 68, 32]

/-- `"NAME "` -/
def nameTag : Bytes := [78, 65, 77, 69, 32]

/-- `"MESSAGE "` -/
def messageTag : Bytes := [77, 69, 83, 83, 65, 71, 69, 32]

/-- Sending a new message from a client.
SOURCE: chatserver/protocol/command.go:9-12 -/
structure SendCommand where
  message : Bytes
  deriving DecidableEq, Repr

/-- Setting the display name of a client.
SOURCE: chatserver/protocol/command.go:14-17 -/
structure NameCommand where
  name : Bytes
  deriving DecidableEq, Repr

/-- Notifying a new message.
SOURCE: chatserver/protocol/command.go:19-23 -/
structure MessageCommand where
  name : Bytes
  message : Bytes
  deriving DecidableEq, Repr

/-- The dynamic types a command takes. -/
inductive Command where
  | send (v : SendCommand)
  | name (v : NameCommand)
  | message (v : MessageCommand)
  deriving DecidableEq, Repr

/-- The error behind the last byte of a connection. -/
inductive Fault where
  | eof
  | transport (code : ℕ)
  deriving DecidableEq, Repr

/-- The errors `Read` returns. -/
inductive ReadError where
  | fault (f : Fault)
  | unknownCommand
  deriving DecidableEq, Repr

/-- The bytes `Write` emits for a command, in one `Write` of the connection.
SOURCE: chatserver/protocol/writer.go:21-35 -/
def CommandWiter.write : Command → Bytes
  | .send v => sendTag ++ v.message ++ [newline]
  | .message v => messageTag ++ v.name ++ [space] ++ v.message ++ [newline]
  | .name v => nameTag ++ v.name ++ [newline]

abbrev CommandReader := Source UInt8 Fault

/-- One `Read`: the command, the error, and the reader behind them. The last byte
of each field is its delimiter and is cut off.
SOURCE: chatserver/protocol/reader.go:19-58 -/
def CommandReader.read (r : CommandReader) : Option Command × Option ReadError × CommandReader :=
  match r.readString space with
  | (_, some err, r) => (none, some (.fault err), r)
  | (commandName, none, r) =>
    if commandName = messageTag then
      match r.readString space with
      | (_, some err, r) => (none, some (.fault err), r)
      | (user, none, r) =>
        match r.readString newline with
        | (_, some err, r) => (none, some (.fault err), r)
        | (message, none, r) => (some (.message ⟨user.dropLast, message.dropLast⟩), none, r)
    else if commandName = sendTag then
      match r.readString newline with
      | (_, some err, r) => (none, some (.fault err), r)
      | (message, none, r) => (some (.send ⟨message.dropLast⟩), none, r)
    else if commandName = nameTag then
      match r.readString newline with
      | (_, some err, r) => (none, some (.fault err), r)
      | (name, none, r) => (some (.name ⟨name.dropLast⟩), none, r)
    else (none, some .unknownCommand, r)

end GolangSandbox.Program
