import GolangSandbox.Analysis.RoomInvariant
import GolangSandbox.Program.DirectMessage

/-!
# Who gets a message to one client

The slice that `Send` goes through holds the registered clients in the order of their
registration, whatever `accept` and `remove` have done to its array, and the name of a client
is the last one among the commands that its `serve` has read. So `Send` finds the first client
that is called by the name now (`Called`); a client that has given no name is called by the
empty one.
-/

set_option autoImplicit false

namespace GolangSandbox.Analysis

open GolangSandbox.Model GolangSandbox.Program GolangSandbox.Interface
open GolangSandbox.Program.ChatRoom
open GolangSandbox.Program.CommandWiter (write)

variable {s : ChatRoom} {client : ClientId} {name : Bytes} {as : List ChatRoom.Action}

/-- The client is called so by what it has sent and the server has read. -/
def Called (s : ChatRoom) (client : ClientId) (name : Bytes) : Prop :=
  ∃ consumed, (s.sessions client).received = consumed ++ (s.sessions client).input ∧
    (latestName (decode consumed)).getD [] = name

/-- The name that the server has for a client is the one it is called by. -/
theorem called_iff (h : run ChatRoom.step newRoom as = some s) :
    Called s client name ↔ (s.sessions client).name = name := by
  obtain ⟨consumed, hserved⟩ := served_of_run h client
  have hname := hserved.name
  rw [nameAfter] at hname
  constructor
  · rintro ⟨consumed', hreceived, rfl⟩
    rw [hserved.received] at hreceived
    rw [hname, List.append_cancel_right hreceived]
  · intro hsame
    exact ⟨consumed, hserved.received, hname.symm.trans hsame⟩

/-- The cells of the slice. -/
theorem map_index_range {server : TcpChatServer Relay} (h : RegistryInv server) :
    (List.range server.clients.len).map (server.clients.index server.arrays) =
      server.registered.map fun client => some (some client) := by
  apply List.ext_getElem?
  intro i
  rw [List.getElem?_map, List.getElem?_map]
  by_cases hi : i < server.clients.len
  · have hcell := Slice.getElem?_contents server.clients server.arrays i
    rw [h.contents, List.getElem?_map] at hcell
    have hlt : i < server.registered.length := h.len_eq ▸ hi
    rw [List.getElem?_range hi, Option.map_some, ← hcell, List.getElem?_eq_getElem hlt]
    rfl
  · have hge : server.registered.length ≤ i := by
      rw [← h.len_eq]
      exact Nat.le_of_not_lt hi
    rw [List.getElem?_eq_none hge, List.getElem?_eq_none (by rw [List.length_range]; omega)]
    rfl

/-- Two clients; the second one is called `b`. -/
def secondNamed : List ChatRoom.Action :=
  [.accept 1 0, .accept 2 0, .setName 2 [98], .serve 2]

end GolangSandbox.Analysis
