import GolangSandbox.Program.Registry
import GolangSandbox.Program.ReadAll
import Mathlib.Logic.Function.Basic

/-!
# The chat room: server, connections and clients

The registry of `TcpChatServer` together with what goes over the connections: a
client calls `SetName` and `SendMessage`, its `serve` goroutine reads the bytes and
spawns a `Broadcast` for every `SEND`, the broadcasts write to the registered
clients, and the `Start` loop of a client pushes what it reads on `incoming`. A peer
that is not this client program may send any bytes (`raw`).

A connection delivers bytes in order and completely, and a `Write` is one step. A
`Read` blocks until it can return, so the step is not possible before; when the
peer has closed its side it returns what is left with `io.EOF`. The bytes a peer
has sent, and the broadcasts written to a connection, are kept as history.
-/

set_option autoImplicit false

namespace GolangSandbox.Program

open GolangSandbox.Model GolangSandbox.Interface
open GolangSandbox.Program.CommandWiter (write)

/-- What a `Broadcast` goroutine is called with, and the client whose `serve` spawned it. -/
structure Relay where
  sender : ClientId
  command : MessageCommand
  deriving DecidableEq, Repr

/-- One connection with its two ends: `name`, `input` and `serving` belong to the
`client` object and its `serve` goroutine, `closed`, `inbox`, `receiving` and
`incoming` to the peer and its `Start` loop.
SOURCE: chatserver/server/tcp_server.go:12-16, chatserver/client/tcp_client.go:10-16 -/
structure Session where
  name : Bytes
  received : Bytes
  input : Bytes
  serving : Bool
  closed : Bool
  written : List ℕ
  wrote : Bytes
  inbox : Bytes
  receiving : Bool
  incoming : List MessageCommand
  deriving DecidableEq, Repr

/-- The session of a client object before it is first used: the name is the empty string.
SOURCE: chatserver/server/tcp_server.go:80-83 -/
def Session.new : Session := ⟨[], [], [], true, false, [], [], [], true, []⟩

/-- The server and the sessions of its clients. -/
structure ChatRoom where
  server : TcpChatServer Relay
  sessions : ClientId → Session

namespace ChatRoom

/-- A new server that nobody has dialled. Every session is as `accept` makes it. -/
def newRoom : ChatRoom := ⟨TcpChatServer.newServer, fun _ => Session.new⟩

/-- Change the session of one client. -/
def modify (s : ChatRoom) (client : ClientId) (f : Session → Session) : ChatRoom :=
  { s with sessions := Function.update s.sessions client (f (s.sessions client)) }

/-- The peer writes bytes to its connection. -/
def transmit (s : ChatRoom) (client : ClientId) (bytes : Bytes) : ChatRoom :=
  s.modify client fun x => { x with received := x.received ++ bytes, input := x.input ++ bytes }

/-- The bytes of the `k`-th broadcast go over the connection. -/
def wire (k : ℕ) (command : MessageCommand) (x : Session) : Session :=
  { x with
    written := x.written ++ [k]
    wrote := x.wrote ++ write (.message command)
    inbox := x.inbox ++ write (.message command) }

/-- `Broadcast` writes its command to a client and ignores the error; writing to a
connection that `remove` has closed fails.
SOURCE: chatserver/server/tcp_server.go:56-58, 98 -/
def put (s : ChatRoom) (client : ClientId) (k : ℕ) (command : MessageCommand) : ChatRoom :=
  if client ∈ s.server.removed then s else s.modify client (wire k command)

/-- The type switch of `serve`: the name of the client after the command, and the
command a new `Broadcast` is called with.
SOURCE: chatserver/server/tcp_server.go:113-123 -/
def handle (name : Bytes) : Option Command → Bytes × Option MessageCommand
  | some (.send v) => (name, some ⟨name, v.message⟩)
  | some (.name v) => (v.name, none)
  | _ => (name, none)

/-- `go s.Broadcast(command)`, called by the `serve` goroutine of `client`. -/
def spawn (s : ChatRoom) (client : ClientId) : Option MessageCommand → ChatRoom
  | some command =>
    { s with server := { s.server with casts := s.server.casts ++ [⟨⟨client, command⟩, none⟩] } }
  | none => s

/-- One iteration of `serve`. It blocks at the end of the input as long as the peer
has not closed its side.
SOURCE: chatserver/server/tcp_server.go:107-128 -/
def serve (s : ChatRoom) (client : ClientId) : Option ChatRoom :=
  match CommandReader.read ⟨(s.sessions client).input, .eof⟩ with
  | (cmd, err, r) =>
    if err = some (.fault .eof) ∧ (s.sessions client).closed = false then none
    else
      some <| (s.spawn client (handle (s.sessions client).name cmd).2).modify client fun x =>
        { x with
          name := (handle x.name cmd).1
          input := r.data
          serving := err ≠ some (.fault .eof) }

/-- The type switch of `Start`: other commands are logged.
SOURCE: chatserver/client/tcp_client.go:45-52 -/
def receive : Option Command → List MessageCommand
  | some (.message v) => [v]
  | _ => []

/-- One iteration of `Start`. It blocks at the end of the input as long as the server
has not closed the connection, and leaves the loop behind it.
SOURCE: chatserver/client/tcp_client.go:37-53 -/
def pull (s : ChatRoom) (client : ClientId) : Option ChatRoom :=
  match CommandReader.read ⟨(s.sessions client).inbox, .eof⟩ with
  | (cmd, err, r) =>
    if err = some (.fault .eof) then
      if client ∈ s.server.removed then
        some (s.modify client fun x => { x with inbox := r.data, receiving := false })
      else none
    else some (s.modify client fun x =>
      { x with inbox := r.data, incoming := x.incoming ++ receive cmd })

/-- The steps of the chat room. -/
inductive Action where
  | accept (client : ClientId) (extra : ℕ)
  | setName (client : ClientId) (name : Bytes)
  | sendMessage (client : ClientId) (message : Bytes)
  | raw (client : ClientId) (bytes : Bytes)
  | close (client : ClientId)
  | serve (client : ClientId)
  | start (k : ℕ)
  | deliver (k : ℕ) (client : ClientId)
  | remove (client : ClientId)
  | pull (client : ClientId)
  deriving DecidableEq

/-- The client whose session the action is about. -/
def Action.client : Action → Option ClientId
  | .setName client _ | .sendMessage client _ | .raw client _ | .close client | .serve client
  | .deliver _ client | .pull client => some client
  | .accept _ _ | .start _ | .remove _ => none

/-- A peer may send on a connection that was accepted and that it has not closed. -/
def Open (s : ChatRoom) (client : ClientId) : Prop :=
  client ∈ s.server.accepted ∧ (s.sessions client).closed = false

/-- The goroutine that takes the step exists: `remove` is deferred to the end of `serve`. -/
def Enabled (s : ChatRoom) : Action → Prop
  | .setName client _ | .sendMessage client _ | .raw client _ | .close client => s.Open client
  | .serve client => client ∈ s.server.accepted ∧ (s.sessions client).serving = true
  | .remove client => (s.sessions client).serving = false
  | .pull client => client ∈ s.server.accepted ∧ (s.sessions client).receiving = true
  | _ => True

instance (s : ChatRoom) : DecidablePred s.Enabled := fun a => by
  cases a <;> unfold Enabled <;> (try unfold Open) <;> infer_instance

/-- What an action does; `none` means that the goroutine blocks.
SOURCE: chatserver/client/tcp_client.go:65-73 (`SetName`, `SendMessage`) -/
def exec (s : ChatRoom) : Action → Option ChatRoom
  | .accept client extra =>
      (s.server.step (.accept client extra)).map fun server => { s with server := server }
  | .setName client name => some (s.transmit client (write (.name ⟨name⟩)))
  | .sendMessage client message => some (s.transmit client (write (.send ⟨message⟩)))
  | .raw client bytes => some (s.transmit client bytes)
  | .close client => some (s.modify client fun x => { x with closed := true })
  | .serve client => s.serve client
  | .start k => (s.server.step (.start k)).map fun server => { s with server := server }
  | .deliver k client => (s.server.step (.deliver k client)).bind fun server =>
      server.casts[k]?.map fun b =>
        ({ s with server := server } : ChatRoom).put client k b.command.command
  | .remove client => (s.server.step (.remove client)).map fun server => { s with server := server }
  | .pull client => s.pull client

/-- One step of the chat room. -/
def step (s : ChatRoom) (a : Action) : Option ChatRoom := if s.Enabled a then s.exec a else none

/-- What the broadcasts spawned so far were called with, in order. -/
def relays (s : ChatRoom) : List Relay := s.server.casts.map Cast.command

/-- What the server has broadcast for a client, in order. -/
def broadcastsOf (s : ChatRoom) (client : ClientId) : List MessageCommand :=
  (s.relays.filter fun m => m.sender = client).map Relay.command

/-- The broadcasts that were written to a client, in the order of the writes. -/
def writtenTo (s : ChatRoom) (client : ClientId) : List Relay :=
  (s.sessions client).written.filterMap fun k => s.relays[k]?

/-! ## What a step does -/

variable {s t : ChatRoom} {client : ClientId}

@[simp] theorem server_modify (f : Session → Session) : (s.modify client f).server = s.server := rfl

@[simp] theorem relays_modify (f : Session → Session) : (s.modify client f).relays = s.relays := rfl

@[simp] theorem sessions_modify_self (f : Session → Session) :
    (s.modify client f).sessions client = f (s.sessions client) := Function.update_self ..

@[simp] theorem sessions_modify_of_ne {c : ClientId} (h : c ≠ client) (f : Session → Session) :
    (s.modify client f).sessions c = s.sessions c := Function.update_of_ne h ..

@[simp] theorem server_put (k : ℕ) (command : MessageCommand) :
    (s.put client k command).server = s.server := by
  unfold put
  split <;> rfl

@[simp] theorem sessions_spawn (m : Option MessageCommand) :
    (s.spawn client m).sessions = s.sessions := by
  cases m <;> rfl

theorem step_eq_some {a : Action} : s.step a = some t ↔ s.Enabled a ∧ s.exec a = some t := by
  unfold step
  split <;> simp_all

/-- **What an iteration of `serve` does**, by the shape of the unread input: it handles
one command, it skips an unknown token, or it leaves the loop. -/
theorem serve_cases (h : s.serve client = some t) :
    (∃ cmd rest, WireSafe cmd ∧ (s.sessions client).input = write cmd ++ rest ∧
      t = (s.spawn client (handle (s.sessions client).name (some cmd)).2).modify client fun x =>
        { x with name := (handle x.name (some cmd)).1, input := rest, serving := true }) ∨
    (∃ tok rest, space ∉ tok ∧ tok ∉ keywords ∧
      (s.sessions client).input = tok ++ space :: rest ∧
      t = s.modify client fun x => { x with input := rest, serving := true }) ∨
    (Truncated (s.sessions client).input ∧ (s.sessions client).closed = true ∧
      t = s.modify client fun x => { x with input := [], serving := false }) := by
  unfold serve at h
  generalize hin : (s.sessions client).input = input at h ⊢
  cases shape input with
  | @command cmd rest hcmd =>
    rw [read_write rest .eof hcmd] at h
    simp only [reduceCtorEq, false_and, ↓reduceIte, Option.some.injEq, ne_eq, not_false_eq_true,
      decide_true] at h
    exact .inl ⟨cmd, rest, hcmd, rfl, h.symm⟩
  | @unknown tok rest htok hkey =>
    rw [read_unknown rest .eof htok hkey] at h
    simp only [Option.some.injEq, reduceCtorEq, false_and, ↓reduceIte, ne_eq, not_false_eq_true,
      decide_true, handle, spawn] at h
    exact .inr (.inl ⟨tok, rest, htok, hkey, rfl, h.symm⟩)
  | truncated hs =>
    rw [read_truncated .eof hs] at h
    simp only [true_and, ne_eq, not_true_eq_false, decide_false, handle, spawn] at h
    split at h
    · cases h
    · rename_i hopen
      exact .inr (.inr ⟨hs, by simpa using hopen, (Option.some.inj h).symm⟩)

/-- What an iteration of `Start` does, by the shape of the unread bytes. -/
theorem pull_cases (h : s.pull client = some t) :
    (∃ cmd rest, WireSafe cmd ∧ (s.sessions client).inbox = write cmd ++ rest ∧
      t = s.modify client fun x =>
        { x with inbox := rest, incoming := x.incoming ++ receive (some cmd) }) ∨
    (∃ tok rest, space ∉ tok ∧ tok ∉ keywords ∧
      (s.sessions client).inbox = tok ++ space :: rest ∧
      t = s.modify client fun x => { x with inbox := rest }) ∨
    (Truncated (s.sessions client).inbox ∧ client ∈ s.server.removed ∧
      t = s.modify client fun x => { x with inbox := [], receiving := false }) := by
  unfold pull at h
  generalize hin : (s.sessions client).inbox = inbox at h ⊢
  cases shape inbox with
  | @command cmd rest hcmd =>
    rw [read_write rest .eof hcmd] at h
    simp only [reduceCtorEq, ↓reduceIte, Option.some.injEq] at h
    exact .inl ⟨cmd, rest, hcmd, rfl, h.symm⟩
  | @unknown tok rest htok hkey =>
    rw [read_unknown rest .eof htok hkey] at h
    simp only [Option.some.injEq, reduceCtorEq, ↓reduceIte, receive, List.append_nil] at h
    exact .inr (.inl ⟨tok, rest, htok, hkey, rfl, h.symm⟩)
  | truncated hs =>
    rw [read_truncated .eof hs] at h
    simp only [↓reduceIte] at h
    split at h
    · rename_i hrem
      exact .inr (.inr ⟨hs, hrem, (Option.some.inj h).symm⟩)
    · cases h

/-- The step of the registry that an action is and nothing else. -/
def Action.registry : Action → Option (TcpChatServer.Action Relay)
  | .accept client extra => some (.accept client extra)
  | .start k => some (.start k)
  | .remove client => some (.remove client)
  | _ => none

/-- What a peer sends with an action. -/
def Action.sent : Action → Option (ClientId × Bytes)
  | .setName client name => some (client, write (.name ⟨name⟩))
  | .sendMessage client message => some (client, write (.send ⟨message⟩))
  | .raw client bytes => some (client, bytes)
  | _ => none

/-- What the step of an action leads to, with what makes it possible. -/
inductive Effect (s : ChatRoom) : Action → ChatRoom → Prop where
  | registry {a : Action} {b : TcpChatServer.Action Relay} {server : TcpChatServer Relay}
      (ha : a.registry = some b) (hserver : s.server.step b = some server) :
      Effect s a { s with server := server }
  | sent {a : Action} {client : ClientId} {bytes : Bytes} (ha : a.sent = some (client, bytes)) :
      Effect s a (s.transmit client bytes)
  | close {client : ClientId} :
      Effect s (.close client) (s.modify client fun x => { x with closed := true })
  | serve {client : ClientId} {t : ChatRoom} (hserving : (s.sessions client).serving = true)
      (h : s.serve client = some t) : Effect s (.serve client) t
  | deliver {k : ℕ} {client : ClientId} {server : TcpChatServer Relay} {b : Cast Relay}
      (hserver : s.server.step (.deliver k client) = some server)
      (hb : server.casts[k]? = some b) :
      Effect s (.deliver k client)
        (({ s with server := server } : ChatRoom).put client k b.command.command)
  | pull {client : ClientId} {t : ChatRoom} (h : s.pull client = some t) :
      Effect s (.pull client) t

theorem effect_of_step {a : Action} (h : s.step a = some t) : Effect s a t := by
  obtain ⟨hen, hex⟩ := step_eq_some.mp h
  cases a with
  | accept client extra =>
    obtain ⟨server, hserver, rfl⟩ := Option.map_eq_some_iff.mp hex
    exact .registry rfl hserver
  | start k =>
    obtain ⟨server, hserver, rfl⟩ := Option.map_eq_some_iff.mp hex
    exact .registry rfl hserver
  | remove client =>
    obtain ⟨server, hserver, rfl⟩ := Option.map_eq_some_iff.mp hex
    exact .registry rfl hserver
  | setName client name =>
    rw [exec, Option.some.injEq] at hex
    exact hex ▸ .sent rfl
  | sendMessage client message =>
    rw [exec, Option.some.injEq] at hex
    exact hex ▸ .sent rfl
  | raw client bytes =>
    rw [exec, Option.some.injEq] at hex
    exact hex ▸ .sent rfl
  | close client =>
    rw [exec, Option.some.injEq] at hex
    exact hex ▸ .close
  | serve client => exact .serve hen.2 hex
  | deliver k client =>
    obtain ⟨server, hserver, hput⟩ := Option.bind_eq_some_iff.mp hex
    obtain ⟨b, hb, rfl⟩ := Option.map_eq_some_iff.mp hput
    exact .deliver hserver hb
  | pull client => exact .pull hex

theorem client_of_sent {a : Action} {c : ClientId} {bytes : Bytes}
    (ha : a.sent = some (c, bytes)) : a.client = some c := by
  cases a with
  | setName client name => exact congrArg (Option.map Prod.fst) ha
  | sendMessage client message => exact congrArg (Option.map Prod.fst) ha
  | raw client bytes => exact congrArg (Option.map Prod.fst) ha
  | _ => cases ha

/-- A field of the sessions that an update does not touch. -/
theorem project_modify {β : Type} {f : Session → Session} (proj : Session → β)
    (hf : ∀ x, proj (f x) = proj x) (c : ClientId) :
    proj ((s.modify client f).sessions c) = proj (s.sessions c) := by
  by_cases h : c = client
  · rw [h, sessions_modify_self, hf]
  · rw [sessions_modify_of_ne h]

/-- A step leaves the sessions of other clients alone. -/
theorem sessions_step {a : Action} {c : ClientId} (h : s.step a = some t)
    (hc : a.client ≠ some c) : t.sessions c = s.sessions c := by
  have hne : ∀ client, a.client = some client → c ≠ client := by
    rintro client hclient rfl
    exact hc hclient
  cases effect_of_step h with
  | registry ha hserver => rfl
  | sent ha => exact sessions_modify_of_ne (hne _ (client_of_sent ha)) _
  | close => exact sessions_modify_of_ne (hne _ rfl) _
  | serve _ hserve =>
    obtain ⟨cmd, rest, -, -, rfl⟩ | ⟨tok, rest, -, -, -, rfl⟩ | ⟨-, -, rfl⟩ := serve_cases hserve
    · rw [sessions_modify_of_ne (hne _ rfl), sessions_spawn]
    · exact sessions_modify_of_ne (hne _ rfl) _
    · exact sessions_modify_of_ne (hne _ rfl) _
  | deliver hserver hb =>
    unfold put
    split
    · rfl
    · exact sessions_modify_of_ne (hne _ rfl) _
  | pull hpull =>
    obtain ⟨cmd, rest, -, -, rfl⟩ | ⟨tok, rest, -, -, -, rfl⟩ | ⟨-, -, rfl⟩ := pull_cases hpull
    all_goals exact sessions_modify_of_ne (hne _ rfl) _

/-- **Every step of the room is a step of the registry or leaves it alone.** -/
theorem server_step {a : Action} (h : s.step a = some t) :
    t.server = s.server ∨ ∃ b, s.server.step b = some t.server := by
  cases effect_of_step h with
  | registry ha hserver => exact .inr ⟨_, hserver⟩
  | sent ha => exact .inl rfl
  | close => exact .inl rfl
  | @serve client _ _ hserve =>
    obtain ⟨cmd, rest, -, -, rfl⟩ | ⟨tok, rest, -, -, -, rfl⟩ | ⟨-, -, rfl⟩ := serve_cases hserve
    · cases hm : (handle (s.sessions client).name (some cmd)).2 with
      | none => exact .inl rfl
      | some m => exact .inr ⟨.broadcast ⟨client, m⟩, TcpChatServer.step_eq_some.mpr ⟨trivial, rfl⟩⟩
    · exact .inl rfl
    · exact .inl rfl
  | deliver hserver hb =>
    rw [server_put]
    exact .inr ⟨_, hserver⟩
  | pull hpull =>
    obtain ⟨cmd, rest, -, -, rfl⟩ | ⟨tok, rest, -, -, -, rfl⟩ | ⟨-, -, rfl⟩ := pull_cases hpull
    all_goals exact .inl rfl

/-! ## The two ends of a session -/

/-- What belongs to the server end. -/
def serverEnd (x : Session) : Bytes × Bytes × Bytes × Bool × Bool :=
  (x.name, x.received, x.input, x.serving, x.closed)

/-- What belongs to the client end. -/
def clientEnd (x : Session) : List ℕ × Bytes × Bytes × List MessageCommand :=
  (x.written, x.wrote, x.inbox, x.incoming)

/-- Sending, closing and serving leave the client ends alone. -/
theorem clientEnd_step {a : Action} (h : s.step a = some t)
    (ha : ∀ k client, a ≠ .deliver k client) (ha' : ∀ client, a ≠ .pull client) (c : ClientId) :
    clientEnd (t.sessions c) = clientEnd (s.sessions c) := by
  cases effect_of_step h with
  | registry ha hserver => rfl
  | sent ha => exact project_modify clientEnd (fun _ => by rfl) c
  | close => exact project_modify clientEnd (fun _ => by rfl) c
  | serve _ hserve =>
    obtain ⟨cmd, rest, -, -, rfl⟩ | ⟨tok, rest, -, -, -, rfl⟩ | ⟨-, -, rfl⟩ := serve_cases hserve
    · refine (project_modify clientEnd (fun _ => by rfl) c).trans ?_
      rw [sessions_spawn]
    · exact project_modify clientEnd (fun _ => by rfl) c
    · exact project_modify clientEnd (fun _ => by rfl) c
  | deliver hserver hb => exact absurd rfl (ha _ _)
  | pull hpull => exact absurd rfl (ha' _)

/-- A `Start` loop changes neither the server ends nor what was written. -/
theorem serverEnd_pull (h : s.pull client = some t) (c : ClientId) :
    serverEnd (t.sessions c) = serverEnd (s.sessions c) ∧
      (t.sessions c).written = (s.sessions c).written := by
  obtain ⟨cmd, rest, -, -, rfl⟩ | ⟨tok, rest, -, -, -, rfl⟩ | ⟨-, -, rfl⟩ := pull_cases h
  all_goals
    exact ⟨project_modify serverEnd (fun _ => by rfl) c,
      project_modify Session.written (fun _ => by rfl) c⟩

/-- Writing to a client leaves the server ends alone. -/
theorem serverEnd_put (k : ℕ) (command : MessageCommand) (c : ClientId) :
    serverEnd ((s.put client k command).sessions c) = serverEnd (s.sessions c) := by
  unfold put
  split
  · rfl
  · exact project_modify serverEnd (fun _ => by rfl) c

end ChatRoom

end GolangSandbox.Program
