import GolangSandbox.Analysis.Delivery
import GolangSandbox.Analysis.History
import GolangSandbox.Model.Termination

/-!
# Every line on every screen

A fixed set of terminals is connected. When nobody enters anything any more, the room comes to
rest, and then every terminal shows every text that was entered at any of them, once.

A step is paid for by what causes it (`stepsAhead`). A byte that the server has not read pays
for a broadcast, a broadcast for a write to each client, and a write for the `Read` and the
label at its receiver. At rest nobody has unread bytes, because the bytes of a client are whole
commands and `Read` does not wait within one.
-/

set_option autoImplicit false

namespace GolangSandbox.Analysis

open GolangSandbox.Model GolangSandbox.Program GolangSandbox.Interface
open GolangSandbox.Program.ChatRoom GolangSandbox.Program.ChatApp
open GolangSandbox.Program.CommandWiter (write)

variable {s₀ s t : ChatApp} {a : ChatApp.Action} {c client : ClientId} {n : ℕ}

/-! ## Steps that are taken -/

/-- Nobody connects, and nobody does anything at a terminal. -/
def Unattended : ChatApp.Action → Prop
  | .accept _ _ | .submit _ _ | .quit _ => False
  | .serve _ | .start _ | .deliver _ _ | .remove _ | .pull _ | .addMessage _ => True

instance : DecidablePred Unattended
  | .accept _ _ | .submit _ _ | .quit _ => isFalse id
  | .serve _ | .start _ | .deliver _ _ | .remove _ | .pull _ | .addMessage _ => isTrue trivial

/-- Nobody connects or quits. -/
def Staying : ChatApp.Action → Prop
  | .accept _ _ | .quit _ => False
  | _ => True

theorem Unattended.staying (h : Unattended a) : Staying a := by
  cases a with
  | accept c extra => exact h.elim
  | quit c => exact h.elim
  | _ => trivial

/-! ## What is left to do -/

/-- The steps that a broadcast to `n` clients causes. -/
def castLeft (n : ℕ) (b : Cast Relay) : ℕ :=
  match b.loop with
  | none => 3 * n + 1
  | some l => 3 * (n - l.pos)

/-- The steps that a terminal and its connection cause. -/
def personLeft (n : ℕ) (s : ChatApp) (c : ClientId) : ℕ :=
  (3 * n + 2) * (s.room.sessions c).input.length +
    2 * ((s.room.sessions c).written.length - (s.room.sessions c).incoming.length) +
      (s.terminals c).hand.toList.length

def stepsAhead (n : ℕ) (s : ChatApp) : ℕ :=
  load (personLeft n s) s.room.server.accepted + load (castLeft n) s.room.server.casts

/-- The state of the app since the terminals of `s₀` have connected. -/
structure Gathered (s₀ s : ChatApp) : Prop where
  room : ∃ bs, run ChatRoom.step newRoom bs = some s.room
  fanOut : FanOut s₀.room s.room
  typed : ∀ c, Typed s c
  running : ∀ c, (s.terminals c).running = true
  receiving : ∀ c, (s.room.sessions c).receiving = true
  absent : ∀ c, c ∉ s.room.server.accepted →
    (s.terminals c).entered = [] ∧ (s.terminals c).hand = none

namespace Gathered

theorem open_session (h : Gathered s₀ s) (c : ClientId) :
    (s.room.sessions c).closed = false := (h.typed c).open_iff.mp (h.running c)

theorem serving (h : Gathered s₀ s) (c : ClientId) : (s.room.sessions c).serving = true := by
  obtain ⟨bs, hroom⟩ := h.room
  obtain ⟨consumed, hserved⟩ := served_of_run hroom c
  by_contra hstopped
  have hclosed := hserved.closed (Bool.not_eq_true _ ▸ hstopped)
  rw [h.open_session c] at hclosed
  cases hclosed

theorem connected (h : Gathered s₀ s) (c : ClientId) : Connected s.room c := by
  obtain ⟨bs, hroom⟩ := h.room
  exact connected_of_run hroom c

theorem registry (h : Gathered s₀ s) : RegistryInv s.room.server := by
  obtain ⟨bs, hroom⟩ := h.room
  exact registryInv_of_room hroom

/-- Nobody was removed. -/
theorem registered_eq (h : Gathered s₀ s) :
    s.room.server.registered = s.room.server.accepted := by
  rw [TcpChatServer.registered, List.filter_eq_self]
  intro c hc
  simp [h.fanOut.removed]

/-- The messages written to a client are those it has read and those it has not. -/
theorem exists_queued (h : Gathered s₀ s) (c : ClientId) :
    ∃ queued : List MessageCommand, (∀ m ∈ queued, LineSafe m) ∧
      (s.room.sessions c).inbox = lines queued ∧
      (s.room.sessions c).written.length =
        (s.room.sessions c).incoming.length + queued.length := by
  have hc := h.connected c
  obtain ⟨queued, hsafe, hinbox, hincoming⟩ := hc.unread
  refine ⟨queued, hsafe, hinbox, ?_⟩
  have hlength := congrArg List.length hincoming
  have hall : (s.room.writtenTo c).length = (s.room.sessions c).written.length := by
    rw [writtenTo, List.filterMap_length_eq_length]
    intro k hk
    rw [List.getElem?_eq_getElem (hc.bound k hk)]
    rfl
  rw [List.length_append, List.length_map, List.length_map, hall] at hlength
  exact hlength.symm

end Gathered

/-- `Start` takes the next message. -/
theorem pull_of_queued {room : ChatRoom} {m : MessageCommand} {queued : List MessageCommand}
    (hm : LineSafe m) (hinbox : (room.sessions c).inbox = lines (m :: queued)) :
    room.pull c = some (room.modify c fun x =>
      { x with inbox := lines queued, incoming := x.incoming ++ [readAs m] }) := by
  unfold ChatRoom.pull
  rw [hinbox, show lines (m :: queued) = write (.message m) ++ lines queued from rfl,
    read_write_message hm]
  rfl

/-- Without a message `Start` waits. -/
theorem pull_of_empty {room : ChatRoom} (hinbox : (room.sessions c).inbox = lines [])
    (hremoved : room.server.removed = []) : room.pull c = none := by
  unfold ChatRoom.pull
  rw [hinbox, show lines [] = [] from rfl,
    read_truncated .eof (.keyword List.not_mem_nil)]
  simp [hremoved]

/-! ## The step lemma -/

/-- A step with a session changes what is left by what that terminal has to do. -/
theorem load_person {cs : List ClientId} (hnd : cs.Nodup) (hc : c ∈ cs)
    (hsessions : ∀ d, d ≠ c → t.room.sessions d = s.room.sessions d)
    (hterminals : ∀ d, d ≠ c → t.terminals d = s.terminals d) :
    load (personLeft n t) cs + personLeft n s c =
      load (personLeft n s) cs + personLeft n t c := by
  refine load_change hnd hc fun d hd => ?_
  rw [personLeft, personLeft, hsessions d hd, hterminals d hd]

/-- `Start` goes on as long as the server has not closed the connection. -/
theorem receiving_step {room room' : ChatRoom} {b : ChatRoom.Action}
    (h : room.step b = some room') (hremoved : room.server.removed = []) (c : ClientId) :
    (room'.sessions c).receiving = (room.sessions c).receiving := by
  cases ChatRoom.effect_of_step h with
  | registry hreg hserver => rfl
  | sent hsent => exact project_modify Session.receiving (fun _ => by rfl) c
  | close => exact project_modify Session.receiving (fun _ => by rfl) c
  | serve _ hserve =>
    obtain ⟨cmd, rest, -, -, rfl⟩ | ⟨tok, rest, -, -, -, rfl⟩ | ⟨-, -, rfl⟩ := serve_cases hserve
    · refine (project_modify Session.receiving (fun _ => by rfl) c).trans ?_
      rw [sessions_spawn]
    · exact project_modify Session.receiving (fun _ => by rfl) c
    · exact project_modify Session.receiving (fun _ => by rfl) c
  | deliver hserver hb =>
    unfold ChatRoom.put
    split
    · rfl
    · exact project_modify Session.receiving (fun _ => by rfl) c
  | pull hpull =>
    obtain ⟨cmd, rest, -, -, rfl⟩ | ⟨tok, rest, -, -, -, rfl⟩ | ⟨-, hremove, rfl⟩ :=
      pull_cases hpull
    · exact project_modify Session.receiving (fun _ => by rfl) c
    · exact project_modify Session.receiving (fun _ => by rfl) c
    · rw [hremoved] at hremove
      cases hremove

/-- A broadcast begins its loop. -/
theorem lower_start {k : ℕ} {room : ChatRoom} (hroom : s.room.step (.start k) = some room) :
    stepsAhead n { s with room := room } < stepsAhead n s := by
  obtain ⟨-, hexec⟩ := ChatRoom.step_eq_some.mp hroom
  obtain ⟨server, hserver, rfl⟩ := Option.map_eq_some_iff.mp hexec
  obtain ⟨x, hx, hnone, rfl⟩ :=
    TcpChatServer.start_eq_some.mp (TcpChatServer.step_eq_some.mp hserver).2
  have hload := load_set (f := castLeft n) hx
    { x with loop := some ⟨s.room.server.clients, 0⟩ }
  simp only [castLeft, hnone, Nat.sub_zero] at hload
  simp only [stepsAhead]
  show load (personLeft n s) s.room.server.accepted + _ < _
  omega

namespace Gathered

/-- A step of the room in which nobody joins or leaves. -/
theorem of_room (h : Gathered s₀ s) (h₀ : RegistryInv s₀.room.server) {b : ChatRoom.Action}
    (hroom : s.room.step b = some t.room) (hsteady : Steady b) (htyped : ∀ c, Typed t c)
    (hrunning : ∀ c, (t.terminals c).running = (s.terminals c).running)
    (habsent : ∀ c, c ∉ s.room.server.accepted →
      (t.terminals c).entered = (s.terminals c).entered ∧
        (t.terminals c).hand = (s.terminals c).hand) : Gathered s₀ t := by
  obtain ⟨bs, hrun⟩ := h.room
  have hfan := h.fanOut.step h₀ hsteady hroom
  refine ⟨⟨bs ++ [b], run_concat_eq_some.mpr ⟨s.room, hrun, hroom⟩⟩, hfan, htyped, ?_, ?_, ?_⟩
  · intro c
    rw [hrunning, h.running]
  · intro c
    rw [receiving_step hroom h.fanOut.removed, h.receiving]
  · intro c hc
    rw [hfan.accepted, ← h.fanOut.accepted] at hc
    rw [(habsent c hc).1, (habsent c hc).2]
    exact h.absent c hc

/-- A terminal that is connected goes on. -/
theorem of_put (h : Gathered s₀ s) (h₀ : RegistryInv s₀.room.server) {b : ChatRoom.Action}
    {x : Terminal} {room : ChatRoom} (hroom : s.room.step b = some room) (hsteady : Steady b)
    (hc : c ∈ s.room.server.accepted) (hx : x.running = true)
    (htyped : ∀ d, Typed (s.put c x room) d) : Gathered s₀ (s.put c x room) := by
  refine h.of_room h₀ hroom hsteady htyped (fun d => ?_) fun d hd => ?_
  · by_cases hdc : d = c
    · rw [hdc, terminals_put_self, hx, h.running]
    · rw [terminals_put_of_ne hdc]
  · have hdc : d ≠ c := by
      rintro rfl
      exact hd hc
    rw [terminals_put_of_ne hdc]
    exact ⟨rfl, rfl⟩

/-- **The step lemma.** -/
theorem step (h : Gathered s₀ s) (h₀ : RegistryInv s₀.room.server) (hstay : Staying a)
    (he : ChatApp.Effect s a t) : Gathered s₀ t := by
  have htyped : ∀ c, Typed t c := fun c => (h.typed c).step he
  cases he with
  | @server a b room hb hroom =>
    have hsteady : Steady b := by
      cases a with
      | accept client extra => exact hstay.elim
      | remove client =>
        obtain rfl := Option.some.inj hb
        have hstopped := (ChatRoom.step_eq_some.mp hroom).1
        rw [Enabled, h.serving client] at hstopped
        cases hstopped
      | serve client =>
        obtain rfl := Option.some.inj hb
        trivial
      | start k =>
        obtain rfl := Option.some.inj hb
        trivial
      | deliver k client =>
        obtain rfl := Option.some.inj hb
        trivial
      | _ => cases hb
    exact h.of_room h₀ hroom hsteady htyped (fun _ => rfl) fun _ _ => ⟨rfl, rfl⟩
  | blank hline => exact h
  | login hrunning hline hview hroom =>
    exact h.of_put h₀ hroom trivial (ChatRoom.step_eq_some.mp hroom).1.1 hrunning htyped
  | send hrunning hline hview hroom =>
    exact h.of_put h₀ hroom trivial (ChatRoom.step_eq_some.mp hroom).1.1 hrunning htyped
  | quit hroom => exact hstay.elim
  | pull hrunning hhand hroom =>
    exact h.of_put h₀ hroom trivial (ChatRoom.step_eq_some.mp hroom).1.1 hrunning htyped
  | @addMessage client msg hrunning hhand =>
    refine ⟨h.room, h.fanOut, htyped, fun c => ?_, h.receiving, fun c hc => ?_⟩
    · by_cases hcc : c = client
      · rw [hcc, terminals_put_self]
        exact hrunning
      · rw [terminals_put_of_ne hcc]
        exact h.running c
    · have hcc : c ≠ client := by
        rintro rfl
        rw [(h.absent c hc).2] at hhand
        cases hhand
      rw [terminals_put_of_ne hcc]
      exact h.absent c hc

/-- `serve` reads a command, and may start a broadcast. -/
theorem lower_serve (h : Gathered s₀ s) {room : ChatRoom}
    (hroom : s.room.step (.serve c) = some room) :
    stepsAhead n { s with room := room } < stepsAhead n s := by
  obtain ⟨henabled, hserve⟩ := ChatRoom.step_eq_some.mp hroom
  obtain ⟨done, rest, hcommands, hinput⟩ := (h.typed c).unread
  have hsafe : ∀ cmd ∈ rest, WireSafe cmd := fun cmd hcmd =>
    wireSafe_commandsOf (fun l hl => ((h.typed c).lines l hl).2) cmd
      (hcommands ▸ List.mem_append_right done hcmd)
  obtain ⟨cmd, rest, rfl, rfl⟩ | ⟨-, hclosed, -⟩ := serve_of_commands hsafe hinput hserve
  swap
  · rw [h.open_session c] at hclosed
    cases hclosed
  have hpos := length_write_pos cmd
  rw [List.flatMap_cons] at hinput
  have hlength := congrArg List.length hinput
  rw [List.length_append] at hlength
  -- A broadcast is spawned, or none.
  generalize hm : (handle (s.room.sessions c).name (some cmd)).2 = m
  have hcasts : load (castLeft n) (s.room.spawn c m).server.casts ≤
      load (castLeft n) s.room.server.casts + (3 * n + 1) := by
    cases m with
    | none => exact Nat.le_add_right _ _
    | some m =>
      rw [ChatRoom.spawn, load_append, load_cons, load_nil]
      exact Nat.le_refl _
  have haccepted : (s.room.spawn c m).server.accepted = s.room.server.accepted := by
    cases m <;> rfl
  have hload := load_person (n := n) (s := s)
    (t := { s with room := (s.room.spawn c m).modify c fun x =>
      { x with
        name := (handle x.name (some cmd)).1
        input := rest.flatMap write
        serving := true } }) h.registry.nodup henabled.1
    (fun d hd => by rw [sessions_modify_of_ne hd, sessions_spawn]) fun _ _ => rfl
  simp only [personLeft, sessions_modify_self, sessions_spawn, hlength] at hload
  have hbytes : (3 * n + 2) * (rest.flatMap write).length + (3 * n + 2) ≤
      (3 * n + 2) * ((write cmd).length + (rest.flatMap write).length) := by
    rw [Nat.mul_add]
    have hone := Nat.mul_le_mul_left (3 * n + 2) hpos
    omega
  simp only [stepsAhead, server_modify, haccepted]
  omega

theorem lower_deliver (h : Gathered s₀ s) {k : ℕ} {room : ChatRoom}
    (hn : n = s.room.server.accepted.length)
    (hroom : s.room.step (.deliver k c) = some room) :
    stepsAhead n { s with room := room } < stepsAhead n s := by
  obtain ⟨-, hexec⟩ := ChatRoom.step_eq_some.mp hroom
  obtain ⟨server, hserver, hput⟩ := Option.bind_eq_some_iff.mp hexec
  obtain ⟨b, hb, rfl⟩ := Option.map_eq_some_iff.mp hput
  obtain ⟨x, l, hx, hl, hindex, rfl⟩ :=
    TcpChatServer.deliver_eq_some.mp (TcpChatServer.step_eq_some.mp hserver).2
  -- The loop ranges over the registered clients, and stands at one of them.
  have hheader : l.header = s.room.server.clients := by
    rw [h.fanOut.header x (List.mem_of_getElem? hx) l hl, h.fanOut.clients]
  rw [hheader, ← Slice.getElem?_contents, h.registry.contents, List.getElem?_map,
    Option.map_eq_some_iff] at hindex
  obtain ⟨c', hc', hcc⟩ := hindex
  obtain rfl := Option.some.inj hcc
  rw [h.registered_eq] at hc'
  have hpos := (List.getElem?_eq_some_iff.mp hc').1
  have hmem := List.mem_of_getElem? hc'
  obtain ⟨queued, -, -, hwritten⟩ := h.exists_queued c'
  have hload := load_set (f := castLeft n) hx { x with loop := some ⟨l.header, l.pos + 1⟩ }
  simp only [castLeft, hl] at hload
  rw [ChatRoom.put, if_neg (by simp [h.fanOut.removed])]
  have hperson := load_person (n := n) (s := s)
    (t := { s with room := ({ s.room with server := { s.room.server with
      casts := s.room.server.casts.set k { x with loop := some ⟨l.header, l.pos + 1⟩ } } } :
        ChatRoom).modify c' (wire k b.command.command) }) h.registry.nodup hmem
    (fun d hd => sessions_modify_of_ne hd _) fun _ _ => rfl
  simp only [personLeft, sessions_modify_self, wire, List.length_append,
    List.length_singleton] at hperson
  simp only [stepsAhead, server_modify]
  omega

/-- `Start` takes a message, and the goroutine has it in its hand. -/
theorem lower_pull (h : Gathered s₀ s) {room : ChatRoom}
    (hhand : (s.terminals c).hand = none) (hroom : s.room.step (.pull c) = some room) :
    stepsAhead n (s.put c { s.terminals c with
      hand := (room.sessions c).incoming[(s.room.sessions c).incoming.length]? } room) <
        stepsAhead n s := by
  obtain ⟨henabled, hpull⟩ := ChatRoom.step_eq_some.mp hroom
  obtain ⟨queued, hsafe, hinbox, hwritten⟩ := h.exists_queued c
  cases queued with
  | nil =>
    have hwaits := pull_of_empty hinbox h.fanOut.removed
    rw [ChatRoom.exec, hwaits] at hpull
    cases hpull
  | cons m queued =>
    rw [List.forall_mem_cons] at hsafe
    rw [ChatRoom.exec, pull_of_queued hsafe.1 hinbox] at hpull
    obtain rfl := Option.some.inj hpull
    have hperson := load_person (n := n) (s := s)
      (t := s.put c { s.terminals c with
        hand := ((s.room.modify c fun x =>
          { x with
            inbox := lines queued
            incoming := x.incoming ++ [readAs m] }).sessions c).incoming[
              (s.room.sessions c).incoming.length]? } (s.room.modify c fun x =>
          { x with inbox := lines queued, incoming := x.incoming ++ [readAs m] }))
      h.registry.nodup henabled.1
      (fun d hd => by rw [room_put, sessions_modify_of_ne hd])
      fun d hd => terminals_put_of_ne hd _ _
    simp only [personLeft, room_put, terminals_put_self, sessions_modify_self,
      List.getElem?_concat_length, Option.toList_some, List.length_singleton,
      List.length_append, hhand, Option.toList_none, List.length_nil] at hperson
    rw [List.length_cons] at hwritten
    simp only [stepsAhead, room_put, server_modify, sessions_modify_self,
      List.getElem?_concat_length] at hperson ⊢
    omega

theorem lower_addMessage (h : Gathered s₀ s) {msg : MessageCommand}
    (hhand : (s.terminals c).hand = some msg) :
    stepsAhead n (s.put c { s.terminals c with
      hand := none
      history := (s.terminals c).history ++ [label msg.name msg.message] } s.room) <
        stepsAhead n s := by
  have hc : c ∈ s.room.server.accepted := by
    by_contra hc
    rw [(h.absent c hc).2] at hhand
    cases hhand
  have hperson := load_person (n := n) (s := s)
    (t := s.put c { s.terminals c with
      hand := none
      history := (s.terminals c).history ++ [label msg.name msg.message] } s.room)
    h.registry.nodup hc (fun _ _ => rfl) fun d hd => terminals_put_of_ne hd _ _
  simp only [personLeft, room_put, terminals_put_self, hhand, Option.toList_some,
    Option.toList_none, List.length_singleton, List.length_nil] at hperson
  simp only [stepsAhead, room_put]
  omega

/-- **Every step lowers what is left** when nobody acts at a terminal. -/
theorem lower (h : Gathered s₀ s) (hn : n = s.room.server.accepted.length)
    (hquiet : Unattended a) (he : ChatApp.Effect s a t) : stepsAhead n t < stepsAhead n s := by
  cases he with
  | @server a b room hb hroom =>
    cases a with
    | accept client extra => exact hquiet.elim
    | remove client =>
      obtain rfl := Option.some.inj hb
      have hstopped := (ChatRoom.step_eq_some.mp hroom).1
      rw [Enabled, h.serving client] at hstopped
      cases hstopped
    | serve client =>
      obtain rfl := Option.some.inj hb
      exact h.lower_serve hroom
    | start k =>
      obtain rfl := Option.some.inj hb
      exact lower_start hroom
    | deliver k client =>
      obtain rfl := Option.some.inj hb
      exact h.lower_deliver hn hroom
    | _ => cases hb
  | blank hline => exact hquiet.elim
  | login hrunning hline hview hroom => exact hquiet.elim
  | send hrunning hline hview hroom => exact hquiet.elim
  | quit hroom => exact hquiet.elim
  | pull hrunning hhand hroom => exact h.lower_pull hhand hroom
  | addMessage hrunning hhand => exact h.lower_addMessage hhand

end Gathered

/-! ## No deadlock -/

namespace Gathered

/-- When nothing is possible at a connection, its bytes have been read. -/
theorem read_of_stuck (h : Gathered s₀ s)
    (hstuck : Stuck (only Unattended ChatApp.step) s) (c : ClientId) :
    (s.room.sessions c).input = [] := by
  obtain ⟨done, rest, hcommands, hinput⟩ := (h.typed c).unread
  cases rest with
  | nil => exact hinput
  | cons cmd rest =>
    have hsafe : WireSafe cmd := wireSafe_commandsOf (fun l hl => ((h.typed c).lines l hl).2) cmd
      (hcommands ▸ List.mem_append_right done List.mem_cons_self)
    have hc : c ∈ s.room.server.accepted := by
      by_contra hc
      rw [(h.absent c hc).1] at hcommands
      exact List.cons_ne_nil _ _ (List.append_eq_nil_iff.mp hcommands.symm).2
    have henabled : s.room.Enabled (.serve c) := ⟨hc, h.serving c⟩
    have hserve : s.room.serve c ≠ none := by
      unfold ChatRoom.serve
      rw [hinput, List.flatMap_cons, read_write _ _ hsafe]
      simp
    have hnone := stuck_only.mp hstuck (.serve c) trivial
    simp only [ChatApp.step, ChatApp.Action.server, Option.map_eq_none_iff, ChatRoom.step,
      if_pos henabled, ChatRoom.exec] at hnone
    exact absurd hnone hserve

/-- No broadcast waits. -/
theorem finished_of_stuck (h : Gathered s₀ s)
    (hstuck : Stuck (only Unattended ChatApp.step) s) :
    ∀ b ∈ s.room.server.casts, b.Finished := by
  intro b hb
  obtain ⟨k, hk⟩ := List.mem_iff_getElem?.mp hb
  cases hloop : b.loop with
  | none =>
    have hstart : s.room.server.step (.start k) ≠ none :=
      Option.ne_none_iff_exists'.mpr ⟨_, TcpChatServer.step_eq_some.mpr
        ⟨trivial, TcpChatServer.start_eq_some.mpr ⟨b, hk, hloop, rfl⟩⟩⟩
    have hnone := stuck_only.mp hstuck (.start k) trivial
    have henabled : s.room.Enabled (.start k) := trivial
    simp only [ChatApp.step, ChatApp.Action.server, Option.map_eq_none_iff, ChatRoom.step,
      if_pos henabled, ChatRoom.exec] at hnone
    exact absurd hnone hstart
  | some l =>
    refine ⟨l, hloop, ?_⟩
    by_contra hlt
    have hheader : l.header = s.room.server.clients := by
      rw [h.fanOut.header b hb l hloop, h.fanOut.clients]
    have hpos : l.pos < s.room.server.registered.length := by
      rw [← h.registry.len_eq, ← hheader]
      exact Nat.lt_of_not_le hlt
    have hindex : l.header.index s.room.server.arrays l.pos =
        some (some s.room.server.registered[l.pos]) := by
      rw [hheader, ← Slice.getElem?_contents, h.registry.contents, List.getElem?_map,
        List.getElem?_eq_getElem hpos, Option.map_some]
    have hserver := TcpChatServer.step_eq_some (a := .deliver k s.room.server.registered[l.pos])
      |>.mpr ⟨trivial, TcpChatServer.deliver_eq_some.mpr ⟨b, l, hk, hloop, hindex, rfl⟩⟩
    have hnone := stuck_only.mp hstuck (.deliver k s.room.server.registered[l.pos]) trivial
    have henabled : s.room.Enabled (.deliver k s.room.server.registered[l.pos]) := trivial
    simp only [ChatApp.step, ChatApp.Action.server, Option.map_eq_none_iff, ChatRoom.step,
      if_pos henabled, ChatRoom.exec, hserver, Option.bind_some,
      List.getElem?_set_self (List.getElem?_eq_some_iff.mp hk).1] at hnone
    cases hnone

/-- Everything that came in is shown. -/
theorem shown_of_stuck (h : Gathered s₀ s)
    (hstuck : Stuck (only Unattended ChatApp.step) s) (hc : c ∈ s.room.server.accepted) :
    (s.terminals c).history =
      (s.room.writtenTo c).map fun m => shownAs (readAs m.command) := by
  have hhand : (s.terminals c).hand = none := by
    cases hmsg : (s.terminals c).hand with
    | none => rfl
    | some msg =>
      have hnone := stuck_only.mp hstuck (.addMessage c) trivial
      simp [ChatApp.step, ChatApp.Action.server, h.running, ChatApp.addMessage, hmsg] at hnone
  have hinbox : (s.room.sessions c).inbox = [] := by
    obtain ⟨queued, hsafe, hinbox, -⟩ := h.exists_queued c
    cases queued with
    | nil => exact hinbox
    | cons m queued =>
      rw [List.forall_mem_cons] at hsafe
      have hpull := pull_of_queued hsafe.1 hinbox
      have henabled : s.room.Enabled (.pull c) := ⟨hc, h.receiving c⟩
      have hnone := stuck_only.mp hstuck (.pull c) trivial
      simp [ChatApp.step, ChatApp.Action.server, h.running, ChatApp.pull, hhand, ChatRoom.step,
        henabled, ChatRoom.exec, hpull] at hnone
  have hshown := (h.typed c).shown
  rw [hhand, Option.toList_none, List.map_nil, List.append_nil,
    (h.connected c).incoming_eq hinbox, List.map_map] at hshown
  exact hshown.symm

end Gathered

/-! ## The main theorem -/

/-- What was entered at all terminals, under the names of those who entered it. -/
def saidIn (s : ChatApp) : List Relay :=
  s.room.server.accepted.flatMap fun c => (saidBy (s.terminals c).entered).map (⟨c, ·⟩)

/-- When the server has read everything, the broadcasts are what was entered. -/
theorem Gathered.relays_perm (h : Gathered s₀ s)
    (hread : ∀ c, (s.room.sessions c).input = []) : s.room.relays.Perm (saidIn s) := by
  obtain ⟨bs, hroom⟩ := h.room
  apply perm_of_filter_eq Relay.sender
  intro c
  have hbroadcasts : s.room.broadcastsOf c = saidBy (s.terminals c).entered := by
    obtain ⟨consumed, hserved⟩ := served_of_run hroom c
    obtain ⟨done, rest, hcommands, hinput, heq⟩ := (h.typed c).broadcasts hserved
    have hrest : rest = [] := by
      cases rest with
      | nil => rfl
      | cons cmd rest =>
        rw [hread c, List.flatMap_cons] at hinput
        have hpos := length_write_pos cmd
        rw [(List.append_eq_nil_iff.mp hinput.symm).1] at hpos
        exact absurd hpos (Nat.lt_irrefl 0)
    rw [hrest, List.append_nil] at hcommands
    rw [heq, ← hcommands, broadcasts_commandsOf]
  have howner : ∀ b, ∀ m ∈ (saidBy (s.terminals b).entered).map (⟨b, ·⟩ : _ → Relay),
      m.sender = b := by
    intro b m hm
    obtain ⟨command, -, rfl⟩ := List.mem_map.mp hm
    rfl
  rw [filter_sender_eq, saidIn, filter_flatMap_owner howner h.registry.nodup]
  show (s.room.broadcastsOf c).map _ = _
  rw [hbroadcasts]
  split
  · rfl
  · rename_i hc
    rw [(h.absent c hc).1]
    rfl

/-- What a person has entered stays, and nobody else enters anything. -/
theorem entered_step (hquiet : Unattended a) (he : ChatApp.Effect s a t) (c : ClientId) :
    (t.terminals c).entered = (s.terminals c).entered := by
  have hput : ∀ (client : ClientId) (x : Terminal) (room : ChatRoom),
      x.entered = (s.terminals client).entered →
        ((s.put client x room).terminals c).entered = (s.terminals c).entered := by
    intro client x room hx
    by_cases hc : c = client
    · rw [hc, terminals_put_self, hx]
    · rw [terminals_put_of_ne hc]
  cases he with
  | server hb hroom => rfl
  | blank hline => exact hquiet.elim
  | login hrunning hline hview hroom => exact hquiet.elim
  | send hrunning hline hview hroom => exact hquiet.elim
  | quit hroom => exact hquiet.elim
  | pull hrunning hhand hroom => exact hput _ _ _ rfl
  | addMessage hrunning hhand => exact hput _ _ _ rfl

/-- Terminals have connected, and nothing else has happened. -/
theorem gathered_of_joins {joins : List ChatApp.Action}
    (hjoins : ∀ a ∈ joins, ∃ client extra, a = .accept client extra)
    (h : run ChatApp.step newApp joins = some s) : Gathered s s := by
  obtain ⟨bs, hbs, hroom, hterminals⟩ : ∃ bs, (∀ b ∈ bs, Joins b) ∧
      run ChatRoom.step newRoom bs = some s.room ∧ s.terminals = newApp.terminals := by
    refine run_induction_along (I := fun _ (s : ChatApp) => ∃ bs, (∀ b ∈ bs, Joins b) ∧
      run ChatRoom.step newRoom bs = some s.room ∧ s.terminals = newApp.terminals)
      ⟨[], List.forall_mem_nil _, rfl, rfl⟩ ?_ h (along_of_forall hjoins _)
    rintro as s a t - ⟨bs, hbs, hroom, hterminals⟩ ⟨client, extra, rfl⟩ ha
    obtain ⟨room, hstep, rfl⟩ := Option.map_eq_some_iff.mp ha
    refine ⟨bs ++ [.accept client extra], ?_, run_concat_eq_some.mpr ⟨s.room, hroom, hstep⟩,
      hterminals⟩
    intro b hb
    obtain hb | hb := List.mem_append.mp hb
    · exact hbs b hb
    · exact ⟨client, extra, List.mem_singleton.mp hb⟩
  have hnew : ∀ c, s.terminals c = .startUI := fun c => congrFun hterminals c
  refine ⟨⟨bs, hroom⟩, fanOut_of_run hbs hroom (List.forall_mem_nil _) rfl,
    fun c => typed_of_run h c, fun c => ?_, fun c => ?_, fun c _ => ?_⟩
  · rw [hnew c]
    rfl
  · rw [(joined_of_run hbs hroom).2.2]
    rfl
  · rw [hnew c]
    exact ⟨rfl, rfl⟩

/-- **Every line comes to every screen.** A fixed set of terminals connects, and people enter
lines, under any schedule. From every state that is reached, every schedule in which nobody
enters anything more ends, and then every terminal shows every text that was entered at any of
them exactly once, in some order, with the name of the one who entered it (cut at its first
space, if it has one).
SOURCE: chatserver/tui/tui.go:9-45, chatserver/tui/loginview.go:37-44,
chatserver/tui/chatview.go:32-66, chatserver/client/tcp_client.go:36-73,
chatserver/server/tcp_server.go:43-60, 75-86, 101-129 -/
theorem every_line_on_every_screen (joins as : List ChatApp.Action) (s₀ s : ChatApp)
    (hjoins : ∀ a ∈ joins, ∃ client extra, a = .accept client extra)
    (h₀ : run ChatApp.step newApp joins = some s₀) (hstay : ∀ a ∈ as, Staying a)
    (h : run ChatApp.step s₀ as = some s) :
    Completes (only Unattended ChatApp.step)
      (fun t => ∀ r ∈ s.room.server.accepted, (t.terminals r).history.Perm
        ((saidIn s).map fun m => shownAs (readAs m.command))) s := by
  have hgathered := gathered_of_joins hjoins h₀
  have hinv := hgathered.registry
  have hs : Gathered s₀ s :=
    run_induction_along (I := fun _ s => Gathered s₀ s) hgathered
      (fun _ _ _ _ _ ht ha hstep => ht.step hinv ha (ChatApp.effect_of_step hstep)) h
      (along_of_forall hstay _)
  refine completes_of_measure
    (I := fun t => Gathered s₀ t ∧ ∀ c, (t.terminals c).entered = (s.terminals c).entered)
    (μ := stepsAhead s₀.room.server.accepted.length) ?_ ?_ ⟨hs, fun _ => rfl⟩
  · rintro t a u ⟨ht, hentered⟩ ha
    obtain ⟨hquiet, hstep⟩ := only_eq_some.mp ha
    have he := ChatApp.effect_of_step hstep
    refine ⟨⟨ht.step hinv hquiet.staying he, fun c => ?_⟩, ht.lower ?_ hquiet he⟩
    · rw [entered_step hquiet he, hentered]
    · rw [ht.fanOut.accepted]
  · rintro t ⟨ht, hentered⟩ hstuck r hr
    have haccepted : t.room.server.accepted = s.room.server.accepted := by
      rw [ht.fanOut.accepted, hs.fanOut.accepted]
    have hsaid : saidIn t = saidIn s := by
      simp only [saidIn, haccepted, hentered]
    have hwritten : (t.room.writtenTo r).Perm t.room.relays := by
      refine ht.fanOut.writtenTo_perm hinv ?_ (ht.finished_of_stuck hstuck)
      rw [hgathered.registered_eq, ← hs.fanOut.accepted]
      exact hr
    rw [ht.shown_of_stuck hstuck (haccepted ▸ hr), ← hsaid]
    exact (hwritten.trans (ht.relays_perm (ht.read_of_stuck hstuck))).map _

/-- Two people; the one called `a` has entered `x`. -/
theorem every_line_on_every_screen_two :
    ∃ s₀ s, run ChatApp.step newApp [.accept 1 0, .accept 2 0] = some s₀ ∧
      run ChatApp.step s₀
        [.submit 1 ⟨[97], by decide⟩, .submit 1 ⟨[120], by decide⟩] = some s ∧
      (saidIn s).map (fun m => shownAs (readAs m.command)) = [[97, 58, 32, 120]] ∧
      Completes (only Unattended ChatApp.step)
        (fun t => ∀ r ∈ s.room.server.accepted, (t.terminals r).history.Perm
          ((saidIn s).map fun m => shownAs (readAs m.command))) s := by
  refine ⟨_, _, rfl, rfl, by decide, ?_⟩
  refine every_line_on_every_screen [.accept 1 0, .accept 2 0]
    [.submit 1 ⟨[97], by decide⟩, .submit 1 ⟨[120], by decide⟩] _ _ ?_ rfl ?_ rfl
  · simp
  · simp [Staying]

end GolangSandbox.Analysis
