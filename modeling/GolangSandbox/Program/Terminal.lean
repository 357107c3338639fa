import GolangSandbox.Interface.Lines
import GolangSandbox.Program.ChatRoom

/-!
# The chat room with its terminals

`chatserver/tui` over `TcpChatClient`: every peer of the room is this program. A person enters
lines; the login view takes the first one that is not empty as the name, and the chat view
sends every other. A goroutine receives the messages from `incoming` and has each one added
to the history.

The widgets come from tui-go, which is not here. An entry holds one line of text and calls its
`OnSubmit` at the enter key; keys go to the widget that `SetWidget` has set; `Update` runs a
function on the goroutine of the UI and waits for its end; after `Quit` the UI returns, and
with it `main`, which closes the connection. The channel `incoming` has no buffer, so `Start`
goes on when the goroutine is back at its receive. The lines that were entered are kept.
-/

set_option autoImplicit false

namespace GolangSandbox.Program

open GolangSandbox.Interface (Line)

/-- The separator of a label, `": "`. -/
def separator : Bytes := [58, 32]

/-- The line of the history for a message.
SOURCE: chatserver/tui/chatview.go:60-64 -/
def label (user msg : Bytes) : Bytes := user ++ separator ++ msg

/-- A client program: whether the chat view is set, the message that waits for `Update`, the
labels of the history, and whether the UI runs. -/
structure Terminal where
  chatting : Bool
  hand : Option MessageCommand
  history : List Bytes
  running : Bool
  entered : List Bytes
  deriving DecidableEq, Repr

/-- SOURCE: chatserver/tui/tui.go:9-13, chatserver/tui/chatview.go:18-20 -/
def Terminal.startUI : Terminal := ⟨false, none, [], true, []⟩

/-- The room and the client programs. -/
structure ChatApp where
  room : ChatRoom
  terminals : ClientId → Terminal

namespace ChatApp

def newApp : ChatApp := ⟨.newRoom, fun _ => .startUI⟩

/-- A step of the room, and what it means for a terminal. -/
def put (s : ChatApp) (client : ClientId) (x : Terminal) (room : ChatRoom) : ChatApp :=
  ⟨room, Function.update s.terminals client x⟩

/-- `OnSubmit` of the entry of the view that is set. The errors of `SetName` and
`SendMessage` are ignored.
SOURCE: chatserver/tui/loginview.go:37-44, chatserver/tui/chatview.go:32-39,
chatserver/tui/tui.go:23-30 -/
def submit (s : ChatApp) (client : ClientId) (line : Line) : Option ChatApp :=
  if line.bytes = [] then some s
  else if (s.terminals client).chatting then
    (s.room.step (.sendMessage client line.bytes)).map
      (s.put client
        { s.terminals client with entered := (s.terminals client).entered ++ [line.bytes] })
  else
    (s.room.step (.setName client line.bytes)).map
      (s.put client { s.terminals client with
        chatting := true
        entered := (s.terminals client).entered ++ [line.bytes] })

/-- An iteration of `Start`; what it sends on `incoming` is received.
SOURCE: chatserver/client/tcp_client.go:36-54, chatserver/tui/tui.go:32-33 -/
def pull (s : ChatApp) (client : ClientId) : Option ChatApp :=
  if (s.terminals client).hand = none then
    (s.room.step (.pull client)).map fun room =>
      s.put client { s.terminals client with
        hand := (room.sessions client).incoming[(s.room.sessions client).incoming.length]? } room
  else none

/-- The UI runs the function given to `Update`.
SOURCE: chatserver/tui/tui.go:34-38, chatserver/tui/chatview.go:60-66 -/
def addMessage (s : ChatApp) (client : ClientId) : Option ChatApp :=
  (s.terminals client).hand.map fun msg =>
    s.put client { s.terminals client with
      hand := none
      history := (s.terminals client).history ++ [label msg.name msg.message] } s.room

/-- `Esc` or `Ctrl+c`.
SOURCE: chatserver/tui/tui.go:18-21, chatserver/tui/cmd/main.go:20-25 -/
def quit (s : ChatApp) (client : ClientId) : Option ChatApp :=
  (s.room.step (.close client)).map
    (s.put client { s.terminals client with running := false })

/-- A client connects, a person enters a line or quits, or a goroutine takes a step. -/
inductive Action where
  | accept (client : ClientId) (extra : ℕ)
  | submit (client : ClientId) (line : Line)
  | quit (client : ClientId)
  | serve (client : ClientId)
  | start (k : ℕ)
  | deliver (k : ℕ) (client : ClientId)
  | remove (client : ClientId)
  | pull (client : ClientId)
  | addMessage (client : ClientId)
  deriving DecidableEq

/-- The step of the server that an action is. -/
def Action.server : Action → Option ChatRoom.Action
  | .accept client extra => some (.accept client extra)
  | .serve client => some (.serve client)
  | .start k => some (.start k)
  | .deliver k client => some (.deliver k client)
  | .remove client => some (.remove client)
  | .submit _ _ | .quit _ | .pull _ | .addMessage _ => none

/-- One step. A process that has ended takes none. -/
def step (s : ChatApp) (a : Action) : Option ChatApp :=
  match a.server with
  | some b => (s.room.step b).map fun room => { s with room := room }
  | none =>
    match a with
    | .submit client line =>
      if (s.terminals client).running then s.submit client line else none
    | .quit client => if (s.terminals client).running then s.quit client else none
    | .pull client => if (s.terminals client).running then s.pull client else none
    | .addMessage client => if (s.terminals client).running then s.addMessage client else none
    | _ => none

/-! ## What a step does -/

/-- What an action leads to, with what makes it possible. -/
inductive Effect (s : ChatApp) : Action → ChatApp → Prop where
  | server {a : Action} {b : ChatRoom.Action} {room : ChatRoom} (hb : a.server = some b)
      (hroom : s.room.step b = some room) : Effect s a { s with room := room }
  | blank {client : ClientId} {line : Line} (hline : line.bytes = []) :
      Effect s (.submit client line) s
  | login {client : ClientId} {line : Line} {room : ChatRoom}
      (hrunning : (s.terminals client).running = true) (hline : line.bytes ≠ [])
      (hview : (s.terminals client).chatting = false)
      (hroom : s.room.step (.setName client line.bytes) = some room) :
      Effect s (.submit client line) (s.put client { s.terminals client with
        chatting := true
        entered := (s.terminals client).entered ++ [line.bytes] } room)
  | send {client : ClientId} {line : Line} {room : ChatRoom}
      (hrunning : (s.terminals client).running = true) (hline : line.bytes ≠ [])
      (hview : (s.terminals client).chatting = true)
      (hroom : s.room.step (.sendMessage client line.bytes) = some room) :
      Effect s (.submit client line) (s.put client { s.terminals client with
        entered := (s.terminals client).entered ++ [line.bytes] } room)
  | quit {client : ClientId} {room : ChatRoom}
      (hroom : s.room.step (.close client) = some room) :
      Effect s (.quit client)
        (s.put client { s.terminals client with running := false } room)
  | pull {client : ClientId} {room : ChatRoom}
      (hrunning : (s.terminals client).running = true)
      (hhand : (s.terminals client).hand = none)
      (hroom : s.room.step (.pull client) = some room) :
      Effect s (.pull client) (s.put client { s.terminals client with
        hand := (room.sessions client).incoming[(s.room.sessions client).incoming.length]? }
          room)
  | addMessage {client : ClientId} {msg : MessageCommand}
      (hrunning : (s.terminals client).running = true)
      (hhand : (s.terminals client).hand = some msg) :
      Effect s (.addMessage client) (s.put client { s.terminals client with
        hand := none
        history := (s.terminals client).history ++ [label msg.name msg.message] } s.room)

variable {s t : ChatApp} {client : ClientId}

theorem effect_of_submit {line : Line} (hrunning : (s.terminals client).running = true)
    (h : s.submit client line = some t) : Effect s (.submit client line) t := by
  unfold submit at h
  split at h
  · rename_i hline
    exact Option.some.inj h ▸ .blank hline
  rename_i hline
  split at h
  · rename_i hview
    obtain ⟨room, hroom, rfl⟩ := Option.map_eq_some_iff.mp h
    exact .send hrunning hline hview hroom
  · rename_i hview
    obtain ⟨room, hroom, rfl⟩ := Option.map_eq_some_iff.mp h
    exact .login hrunning hline (Bool.not_eq_true _ ▸ hview) hroom

theorem effect_of_pull (hrunning : (s.terminals client).running = true)
    (h : s.pull client = some t) : Effect s (.pull client) t := by
  unfold pull at h
  rw [Option.ite_none_right_eq_some] at h
  obtain ⟨room, hroom, rfl⟩ := Option.map_eq_some_iff.mp h.2
  exact .pull hrunning h.1 hroom

theorem effect_of_step {a : Action} (h : s.step a = some t) : Effect s a t := by
  have hserver : ∀ b, a.server = some b →
      ((s.room.step b).map fun room => { s with room := room }) = some t → Effect s a t := by
    intro b hb hstep
    obtain ⟨room, hroom, rfl⟩ := Option.map_eq_some_iff.mp hstep
    exact .server hb hroom
  cases a with
  | accept client extra => exact hserver _ rfl h
  | serve client => exact hserver _ rfl h
  | start k => exact hserver _ rfl h
  | deliver k client => exact hserver _ rfl h
  | remove client => exact hserver _ rfl h
  | submit client line =>
    obtain ⟨hrunning, hsubmit⟩ := (Option.ite_none_right_eq_some).mp h
    exact effect_of_submit hrunning hsubmit
  | quit client =>
    obtain ⟨-, hquit⟩ := (Option.ite_none_right_eq_some).mp h
    obtain ⟨room, hroom, rfl⟩ := Option.map_eq_some_iff.mp hquit
    exact .quit hroom
  | pull client =>
    obtain ⟨hrunning, hpull⟩ := (Option.ite_none_right_eq_some).mp h
    exact effect_of_pull hrunning hpull
  | addMessage client =>
    obtain ⟨hrunning, hadd⟩ := (Option.ite_none_right_eq_some).mp h
    obtain ⟨msg, hhand, rfl⟩ := Option.map_eq_some_iff.mp hadd
    exact .addMessage hrunning hhand

@[simp] theorem room_put (x : Terminal) (room : ChatRoom) : (s.put client x room).room = room := rfl

@[simp] theorem terminals_put_self (x : Terminal) (room : ChatRoom) :
    (s.put client x room).terminals client = x := Function.update_self ..

@[simp] theorem terminals_put_of_ne {c : ClientId} (h : c ≠ client) (x : Terminal)
    (room : ChatRoom) : (s.put client x room).terminals c = s.terminals c :=
  Function.update_of_ne h ..

/-- The step of the room that an effect is, if it is one. -/
theorem room_step {a : Action} (h : Effect s a t) :
    t.room = s.room ∨ ∃ b, s.room.step b = some t.room := by
  cases h with
  | server hb hroom => exact .inr ⟨_, hroom⟩
  | blank hline => exact .inl rfl
  | login hrunning hline hview hroom => exact .inr ⟨_, hroom⟩
  | send hrunning hline hview hroom => exact .inr ⟨_, hroom⟩
  | quit hroom => exact .inr ⟨_, hroom⟩
  | pull hrunning hhand hroom => exact .inr ⟨_, hroom⟩
  | addMessage hrunning hhand => exact .inl rfl

end ChatApp

end GolangSandbox.Program
