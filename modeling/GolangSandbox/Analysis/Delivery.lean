import GolangSandbox.Analysis.FanOut

/-!
# End-to-end delivery

Clients that keep to the rules of the protocol join, then talk, and nobody leaves.
When every byte has been read and every broadcast is finished, each of them has
received the whole room log, in some order.

The log is compared client by client. The bytes a client sent are its calls, so the
broadcasts spawned for it are those of its calls (`broadcastsOf_eq`), which are its
part of the log (`filter_roomLog`); every broadcast was written once to every
receiver (`FanOut.writtenTo_perm`), and was read as it was sent.
-/

set_option autoImplicit false

namespace GolangSandbox.Analysis

open GolangSandbox.Model GolangSandbox.Program GolangSandbox.Interface
open GolangSandbox.Program.ChatRoom
open GolangSandbox.Program.CommandWiter (write)

variable {s₀ s t : ChatRoom} {r c : ClientId}

/-- The command a call of `SetName` or `SendMessage` by the client sends.
SOURCE: chatserver/client/tcp_client.go:65-73 -/
def callOf (client : ClientId) : ChatRoom.Action → Option Command
  | .setName c name => if c = client then some (.name ⟨name⟩) else none
  | .sendMessage c message => if c = client then some (.send ⟨message⟩) else none
  | _ => none

/-- The calls of one client in a run. -/
def callsOf (client : ClientId) (as : List ChatRoom.Action) : List Command :=
  as.filterMap (callOf client)

/-- What is said in a run by clients with these names: every `SendMessage`, under the
name its sender has set most recently. -/
def roomLogFrom (names : ClientId → Bytes) : List ChatRoom.Action → List Relay
  | [] => []
  | .setName client name :: as => roomLogFrom (Function.update names client name) as
  | .sendMessage client message :: as =>
    ⟨client, ⟨names client, message⟩⟩ :: roomLogFrom names as
  | _ :: as => roomLogFrom names as

/-- The room log of a run; a client that has set no name has the empty one. -/
def roomLog (as : List ChatRoom.Action) : List Relay := roomLogFrom (fun _ => []) as

/-- Clients call `SetName` and `SendMessage` as the protocol asks, and stay.
SOURCE: chatserver/README.md:13-18 -/
def Polite : ChatRoom.Action → Prop
  | .setName _ name => space ∉ name ∧ newline ∉ name
  | .sendMessage _ message => newline ∉ message
  | .serve _ | .start _ | .deliver _ _ | .pull _ => True
  | .accept _ _ | .raw _ _ | .close _ | .remove _ => False

/-- All bytes have been read and all broadcasts are finished. -/
def Quiescent (s : ChatRoom) : Prop :=
  (∀ client, (s.sessions client).input = [] ∧ (s.sessions client).inbox = []) ∧
    ∀ b ∈ s.server.casts, b.Finished

/-! ## The calls and the log -/

theorem Polite.steady {a : ChatRoom.Action} (h : Polite a) : Steady a := by
  cases a <;> trivial

theorem wireSafe_callsOf {as : List ChatRoom.Action} (h : ∀ a ∈ as, Polite a) :
    ∀ cmd ∈ callsOf c as, WireSafe cmd := by
  intro cmd hcmd
  obtain ⟨a, ha, hcall⟩ := List.mem_filterMap.mp hcmd
  have hpolite := h a ha
  cases a with
  | setName client name =>
    rw [callOf, Option.ite_none_right_eq_some, Option.some.injEq] at hcall
    obtain ⟨-, rfl⟩ := hcall
    exact hpolite.2
  | sendMessage client message =>
    rw [callOf, Option.ite_none_right_eq_some, Option.some.injEq] at hcall
    obtain ⟨-, rfl⟩ := hcall
    exact hpolite
  | _ => cases hcall

/-- The part of the log that one client says is what its calls make the server send. -/
theorem filter_roomLogFrom (names : ClientId → Bytes) (client : ClientId)
    (as : List ChatRoom.Action) :
    ((roomLogFrom names as).filter fun m => m.sender = client).map Relay.command =
      broadcasts (names client) (callsOf client as) := by
  induction as generalizing names with
  | nil => rfl
  | cons a as ih =>
    cases a with
    | setName c name =>
      rw [roomLogFrom, ih]
      by_cases hc : c = client
      · subst hc
        simp [callsOf, callOf, broadcasts]
      · simp [callsOf, callOf, hc, Function.update_of_ne (Ne.symm hc)]
    | sendMessage c message =>
      rw [roomLogFrom]
      by_cases hc : c = client
      · subst hc
        simp [ih, callsOf, callOf, broadcasts]
      · simp [ih, callsOf, callOf, hc]
    | _ => exact ih names

/-- Nobody says anything under a name with a space. -/
theorem space_notMem_roomLogFrom {names : ClientId → Bytes} {as : List ChatRoom.Action}
    (hnames : ∀ client, space ∉ names client) (has : ∀ a ∈ as, Polite a) :
    ∀ m ∈ roomLogFrom names as, space ∉ m.command.name := by
  induction as generalizing names with
  | nil => simp [roomLogFrom]
  | cons a as ih =>
    rw [List.forall_mem_cons] at has
    cases a with
    | setName client name =>
      refine ih (fun c => ?_) has.2
      by_cases hc : c = client
      · rw [hc, Function.update_self]
        exact has.1.1
      · rw [Function.update_of_ne hc]
        exact hnames c
    | sendMessage client message =>
      intro m hm
      obtain rfl | hm := List.mem_cons.mp hm
      · exact hnames client
      · exact ih hnames has.2 m hm
    | _ => exact ih hnames has.2

/-! ## What the clients have sent -/

/-- What a polite client sends with an action is the encoding of its call. -/
theorem sent_eq {a : ChatRoom.Action} (hpolite : Polite a) {c : ClientId} {bytes : Bytes}
    (hsent : a.sent = some (c, bytes)) (client : ClientId) :
    (callsOf client [a]).flatMap write = if c = client then bytes else [] := by
  cases a with
  | setName c' name =>
    obtain ⟨rfl, rfl⟩ := Prod.mk.inj (Option.some.inj hsent)
    by_cases hc : c' = client <;> simp [callsOf, callOf, hc]
  | sendMessage c' message =>
    obtain ⟨rfl, rfl⟩ := Prod.mk.inj (Option.some.inj hsent)
    by_cases hc : c' = client <;> simp [callsOf, callOf, hc]
  | raw c' bytes => exact hpolite.elim
  | _ => cases hsent

theorem callsOf_of_not_sent {a : ChatRoom.Action} (hsent : a.sent = none) (client : ClientId) :
    callsOf client [a] = [] := by
  cases a <;> first | rfl | cases hsent

/-- The server receives the encoded calls of a client. -/
theorem received_step {a : ChatRoom.Action} (hpolite : Polite a) (ha : s.step a = some t)
    (client : ClientId) :
    (t.sessions client).received =
      (s.sessions client).received ++ (callsOf client [a]).flatMap write := by
  have hnone : a.sent = none → (t.sessions client).received = (s.sessions client).received →
      (t.sessions client).received =
        (s.sessions client).received ++ (callsOf client [a]).flatMap write := by
    intro hsent hsame
    rw [hsame, callsOf_of_not_sent hsent, List.flatMap_nil, List.append_nil]
  cases effect_of_step ha with
  | registry hreg hserver => exact hnone (by cases a <;> first | rfl | cases hreg) rfl
  | @sent _ c bytes hsent =>
    rw [sent_eq hpolite hsent]
    by_cases hc : c = client
    · rw [if_pos hc, hc, transmit, sessions_modify_self]
    · rw [if_neg hc, transmit, sessions_modify_of_ne (Ne.symm hc), List.append_nil]
  | close => exact hpolite.elim
  | serve _ hserve =>
    apply hnone rfl
    obtain ⟨cmd, rest, -, -, rfl⟩ | ⟨tok, rest, -, -, -, rfl⟩ | ⟨-, -, rfl⟩ := serve_cases hserve
    · refine (project_modify Session.received (fun _ => by rfl) client).trans ?_
      rw [sessions_spawn]
    · exact project_modify Session.received (fun _ => by rfl) client
    · exact project_modify Session.received (fun _ => by rfl) client
  | deliver hserver hb =>
    apply hnone rfl
    exact congrArg (fun e => e.2.1) (serverEnd_put _ _ client)
  | pull hpull =>
    apply hnone rfl
    exact congrArg (fun e => e.2.1) (serverEnd_pull hpull client).1

theorem received_of_run {as : List ChatRoom.Action} (hpolite : ∀ a ∈ as, Polite a)
    (h : run ChatRoom.step s₀ as = some s) (client : ClientId) :
    (s.sessions client).received =
      (s₀.sessions client).received ++ (callsOf client as).flatMap write := by
  refine run_induction_along (I := fun as (s : ChatRoom) => (s.sessions client).received =
    (s₀.sessions client).received ++ (callsOf client as).flatMap write)
    (List.append_nil _).symm ?_ h (along_of_forall hpolite _)
  intro as s a t _ hs ha hstep
  rw [received_step ha hstep, hs, callsOf, callsOf, callsOf, List.filterMap_append,
    List.flatMap_append, List.append_assoc]

/-! ## The main theorem -/

/-- A list of relays by one sender is determined by their commands. -/
theorem filter_sender_eq (ms : List Relay) (client : ClientId) :
    (ms.filter fun m => m.sender = client) =
      ((ms.filter fun m => m.sender = client).map Relay.command).map (⟨client, ·⟩) := by
  rw [List.map_map]
  conv_lhs => rw [← List.map_id (ms.filter fun m => m.sender = client)]
  apply List.map_congr_left
  intro m hm
  have hsender := List.of_mem_filter hm
  simp only [decide_eq_true_eq] at hsender
  rw [Function.comp_apply, ← hsender]
  rfl

section Delivery

variable {joins as : List ChatRoom.Action}

/-- When the server has read everything, the broadcasts of a client are those of its calls. -/
theorem broadcastsOf_eq (hjoins : ∀ a ∈ joins, Joins a)
    (h₀ : run ChatRoom.step newRoom joins = some s₀) (hpolite : ∀ a ∈ as, Polite a)
    (h : run ChatRoom.step s₀ as = some s) (client : ClientId)
    (hinput : (s.sessions client).input = []) :
    s.broadcastsOf client = broadcasts [] (callsOf client as) := by
  have hrun : run ChatRoom.step newRoom (joins ++ as) = some s :=
    run_append_eq_some.mpr ⟨s₀, h₀, h⟩
  obtain ⟨consumed, hserved⟩ := served_of_run hrun client
  have hreceived := received_of_run hpolite h client
  rw [(joined_of_run hjoins h₀).2.2] at hreceived
  have hconsumed : consumed = (callsOf client as).flatMap write := by
    rw [hserved.received, hinput, List.append_nil] at hreceived
    exact hreceived
  rw [hserved.spawned, hconsumed, decode_flatMap_write (wireSafe_callsOf hpolite)]

/-- When the server has read everything, the broadcasts are the room log. -/
theorem relays_perm_roomLog (hjoins : ∀ a ∈ joins, Joins a)
    (h₀ : run ChatRoom.step newRoom joins = some s₀) (hpolite : ∀ a ∈ as, Polite a)
    (h : run ChatRoom.step s₀ as = some s)
    (hinput : ∀ client, (s.sessions client).input = []) : s.relays.Perm (roomLog as) := by
  apply perm_of_filter_eq Relay.sender
  intro client
  have hcommands : (s.relays.filter fun m => m.sender = client).map Relay.command =
      ((roomLog as).filter fun m => m.sender = client).map Relay.command := by
    rw [roomLog, filter_roomLogFrom]
    exact broadcastsOf_eq hjoins h₀ hpolite h client (hinput client)
  rw [filter_sender_eq s.relays, filter_sender_eq (roomLog as), hcommands]

/-- A receiver that has read everything has received what was written to it. -/
theorem Connected.incoming_eq (h : Connected s r) (hinbox : (s.sessions r).inbox = []) :
    (s.sessions r).incoming = (s.writtenTo r).map fun m => readAs m.command := by
  obtain ⟨queued, -, hlines, hincoming⟩ := h.unread
  cases queued with
  | nil => rwa [List.map_nil, List.append_nil] at hincoming
  | cons m queued =>
    rw [hinbox, lines, List.flatMap_cons] at hlines
    have hpos := length_write_pos (.message m)
    have hnil := (List.append_eq_nil_iff.mp hlines.symm).1
    rw [hnil] at hpos
    exact absurd hpos (Nat.lt_irrefl 0)

end Delivery

/-- **End-to-end delivery.** A fixed set of clients joins and then calls `SetName` and
`SendMessage` in any way, under every schedule. Once all bytes are read and all
broadcasts are finished, every client has received a permutation of the room log.
SOURCE: chatserver/server/tcp_server.go:55-60, 101-129, chatserver/client/tcp_client.go:36-73 -/
theorem end_to_end_delivery (joins as : List ChatRoom.Action) (s₀ s : ChatRoom) (r : ClientId)
    (hjoins : ∀ a ∈ joins, Joins a) (h₀ : run ChatRoom.step newRoom joins = some s₀)
    (hpolite : ∀ a ∈ as, Polite a) (h : run ChatRoom.step s₀ as = some s)
    (hquiet : Quiescent s) (hr : r ∈ s₀.server.registered) :
    (s.sessions r).incoming.Perm ((roomLog as).map Relay.command) := by
  have hrun : run ChatRoom.step newRoom (joins ++ as) = some s :=
    run_append_eq_some.mpr ⟨s₀, h₀, h⟩
  have hlog := relays_perm_roomLog hjoins h₀ hpolite h fun client => (hquiet.1 client).1
  have hfan := fanOut_of_run hjoins h₀ (fun a ha => (hpolite a ha).steady) h
  have hwritten := hfan.writtenTo_perm (registryInv_of_room h₀) hr hquiet.2
  have hread : (s.writtenTo r).map (fun m => readAs m.command) =
      (s.writtenTo r).map Relay.command := by
    apply List.map_congr_left
    intro m hm
    apply readAs_of_notMem
    exact space_notMem_roomLogFrom (by simp) hpolite m (hlog.subset (hwritten.subset hm))
  rw [(connected_of_run hrun r).incoming_eq (hquiet.1 r).2, hread]
  exact (hwritten.trans hlog).map Relay.command

/-- Two clients talk; the second `Broadcast` that is spawned writes first. -/
def twoTalk : List ChatRoom.Action :=
  [.setName 1 [97], .sendMessage 1 [120], .sendMessage 2 [121], .serve 2, .serve 1, .serve 1,
    .start 0, .start 1, .deliver 1 1, .deliver 0 1, .deliver 0 2, .deliver 1 2,
    .pull 1, .pull 1, .pull 2, .pull 2]

theorem end_to_end_delivery_two :
    ∃ s, run ChatRoom.step newRoom ([.accept 1 0, .accept 2 0] ++ twoTalk) = some s ∧
      (s.sessions 1).incoming.Perm [⟨[97], [120]⟩, ⟨[], [121]⟩] := by
  refine ⟨_, rfl, ?_⟩
  refine end_to_end_delivery [.accept 1 0, .accept 2 0] twoTalk _ _ 1 ?_ rfl ?_ rfl
    ⟨fun client => ?_, ?_⟩ (by decide)
  · simp [Joins]
  · simp [twoTalk, Polite, space, newline]
  · by_cases h₁ : client = 1
    · subst h₁
      decide
    by_cases h₂ : client = 2
    · subst h₂
      decide
    have hothers : ∀ a ∈ [.accept 1 0, .accept 2 0] ++ twoTalk, a.client ≠ some client := by
      simp [twoTalk, ChatRoom.Action.client, Ne.symm h₁, Ne.symm h₂]
    have hnew := sessions_of_run (s := newRoom) hothers rfl
    rw [hnew]
    exact ⟨rfl, rfl⟩
  · decide

end GolangSandbox.Analysis
