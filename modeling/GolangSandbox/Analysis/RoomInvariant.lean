import GolangSandbox.Analysis.RegistryInvariant
import GolangSandbox.Interface.Conversation

/-!
# The invariants of the chat room

They hold in every run, whatever bytes the peers send. The two ends of a connection
are independent of each other. At the server end (`Served`) the bytes consumed so far
decode to the commands that were handled, so what was broadcast for a client is
`broadcasts` of them. At the client end (`Connected`) the bytes written are those of
the broadcasts in `written`, and the unread ones are those of the last of them.

Every step is a step of the registry or leaves it alone, so the registry invariant
carries over (`registryInv_of_room`).
-/

set_option autoImplicit false

namespace GolangSandbox.Analysis

open GolangSandbox.Model GolangSandbox.Program GolangSandbox.Interface
open GolangSandbox.Program.ChatRoom
open GolangSandbox.Program.CommandWiter (write)

variable {s t : ChatRoom} {client : ClientId}

/-! ## The registry inside the room -/

/-- **The room refines the registry**: what a run of the room does to the server is a
run of the registry. -/
theorem exists_registry_run {as : List ChatRoom.Action}
    (h : run ChatRoom.step newRoom as = some s) :
    ∃ bs, run TcpChatServer.step TcpChatServer.newServer bs = some s.server := by
  have hstep : ∀ (s : ChatRoom) a t server, s.server = server → s.step a = some t →
      ∃ bs server', run TcpChatServer.step server bs = some server' ∧ t.server = server' := by
    rintro s a t _ rfl ha
    obtain hsame | ⟨b, hb⟩ := server_step ha
    · exact ⟨[], s.server, rfl, hsame⟩
    · exact ⟨[b], t.server, run_cons_eq_some.mpr ⟨t.server, hb, rfl⟩, rfl⟩
  obtain ⟨bs, server, hbs, rfl⟩ := run_simulates (fun s server => s.server = server) hstep rfl h
  exact ⟨bs, hbs⟩

theorem registryInv_of_room {as : List ChatRoom.Action}
    (h : run ChatRoom.step newRoom as = some s) : RegistryInv s.server := by
  obtain ⟨bs, hbs⟩ := exists_registry_run h
  exact registryInv_of_run hbs

/-- A run leaves the sessions of clients it is not about alone. -/
theorem sessions_of_run {as : List ChatRoom.Action} (has : ∀ a ∈ as, a.client ≠ some client)
    (h : run ChatRoom.step s as = some t) : t.sessions client = s.sessions client := by
  refine run_induction_along (I := fun _ t => t.sessions client = s.sessions client) rfl ?_ h
    (along_of_forall has _)
  intro as t a u _ ht ha hstep
  exact (sessions_step hstep ha).trans ht

/-! ## The broadcasts -/

/-- What a broadcast is called with does not change. -/
theorem map_command_step {r r' : TcpChatServer Relay} {b : TcpChatServer.Action Relay}
    (h : r.step b = some r') :
    r'.casts.map Cast.command = r.casts.map Cast.command ++
      (match b with
      | .broadcast m => [m]
      | _ => []) := by
  obtain ⟨-, hex⟩ := TcpChatServer.step_eq_some.mp h
  have hset : ∀ {k : ℕ} {x : Cast Relay} (l : Option RangeLoop), r.casts[k]? = some x →
      (r.casts.set k { x with loop := l }).map Cast.command = r.casts.map Cast.command := by
    intro k x l hx
    have hmap : (r.casts.map Cast.command)[k]? = some x.command := by
      rw [List.getElem?_map, hx, Option.map_some]
    obtain ⟨hlt, hget⟩ := List.getElem?_eq_some_iff.mp hmap
    rw [List.map_set, ← hget, List.set_getElem_self]
  cases b with
  | accept client extra =>
    rw [TcpChatServer.exec, Option.some.injEq] at hex
    subst hex
    simp [TcpChatServer.accept]
  | remove client =>
    obtain ⟨p, -, rfl⟩ := Option.map_eq_some_iff.mp hex
    simp
  | broadcast m =>
    rw [TcpChatServer.exec, Option.some.injEq] at hex
    subst hex
    simp
  | start k =>
    obtain ⟨x, hx, -, rfl⟩ := TcpChatServer.start_eq_some.mp hex
    simp [hset _ hx]
  | deliver k client =>
    obtain ⟨x, l, hx, -, -, rfl⟩ := TcpChatServer.deliver_eq_some.mp hex
    simp [hset _ hx]

theorem relays_spawn (s : ChatRoom) (client : ClientId) (m : Option MessageCommand) :
    (s.spawn client m).relays = s.relays ++ m.toList.map (⟨client, ·⟩) := by
  cases m <;> simp [relays, spawn]

theorem broadcastsOf_spawn (s : ChatRoom) (client c : ClientId) (m : Option MessageCommand) :
    (s.spawn client m).broadcastsOf c =
      s.broadcastsOf c ++ if client = c then m.toList else [] := by
  rw [broadcastsOf, relays_spawn, List.filter_append, List.map_append, broadcastsOf]
  congr 1
  cases m with
  | none => simp
  | some m => by_cases h : client = c <;> simp [h]

theorem relays_eq {server : TcpChatServer Relay} {b : TcpChatServer.Action Relay}
    (h : s.server.step b = some server) (hb : ∀ m, b ≠ .broadcast m) :
    server.casts.map Cast.command = s.relays := by
  rw [map_command_step h]
  cases b with
  | broadcast m => exact absurd rfl (hb m)
  | _ => exact List.append_nil _

theorem registry_ne_broadcast {a : ChatRoom.Action} {b : TcpChatServer.Action Relay}
    (ha : a.registry = some b) (m : Relay) : b ≠ .broadcast m := by
  rintro rfl
  cases a <;> cases ha

/-- A step other than `serve` spawns nothing. -/
theorem relays_step {a : ChatRoom.Action} (h : s.step a = some t)
    (ha : ∀ client, a ≠ .serve client) : t.relays = s.relays := by
  cases effect_of_step h with
  | registry hreg hserver => exact relays_eq hserver (registry_ne_broadcast hreg)
  | sent hsent => rfl
  | close => rfl
  | serve _ hserve => exact absurd rfl (ha _)
  | deliver hserver hb =>
    rw [relays, server_put]
    exact relays_eq hserver (by simp)
  | pull hpull =>
    obtain ⟨cmd, rest, -, -, rfl⟩ | ⟨tok, rest, -, -, -, rfl⟩ | ⟨-, -, rfl⟩ := pull_cases hpull
    all_goals rfl

/-- Broadcasts are spawned behind the ones that exist. -/
theorem relays_mono {a : ChatRoom.Action} (h : s.step a = some t) :
    ∃ ms, t.relays = s.relays ++ ms := by
  by_cases ha : ∃ client, a = .serve client
  · obtain ⟨client, rfl⟩ := ha
    obtain ⟨-, hex⟩ := step_eq_some.mp h
    obtain ⟨cmd, rest, -, -, rfl⟩ | ⟨tok, rest, -, -, -, rfl⟩ | ⟨-, -, rfl⟩ := serve_cases hex
    · exact ⟨_, relays_spawn s client _⟩
    · exact ⟨[], (List.append_nil _).symm⟩
    · exact ⟨[], (List.append_nil _).symm⟩
  · rw [relays_step h fun client hc => ha ⟨client, hc⟩]
    exact ⟨[], (List.append_nil _).symm⟩

/-- What is broadcast for a client is spawned by its own `serve` goroutine. -/
theorem broadcastsOf_step {a : ChatRoom.Action} (h : s.step a = some t)
    (ha : a ≠ .serve client) : t.broadcastsOf client = s.broadcastsOf client := by
  by_cases hserve : ∃ c, a = .serve c
  · obtain ⟨c, rfl⟩ := hserve
    have hc : c ≠ client := fun hc => ha (hc ▸ rfl)
    obtain ⟨-, hex⟩ := step_eq_some.mp h
    obtain ⟨cmd, rest, -, -, rfl⟩ | ⟨tok, rest, -, -, -, rfl⟩ | ⟨-, -, rfl⟩ := serve_cases hex
    · show (s.spawn c _).broadcastsOf client = _
      rw [broadcastsOf_spawn, if_neg hc, List.append_nil]
    · rfl
    · rfl
  · rw [broadcastsOf, relays_step h fun c hc => hserve ⟨c, hc⟩]
    rfl

/-! ## The server end of a connection -/

/-- The peer has sent the bytes `consumed` and the unread input, and what `serve` has
made of `consumed` is what the commands in it ask for. -/
structure Served (s : ChatRoom) (client : ClientId) (consumed : Bytes) : Prop where
  received : (s.sessions client).received = consumed ++ (s.sessions client).input
  boundary : (s.sessions client).serving = true → Boundary consumed
  closed : (s.sessions client).serving = false → (s.sessions client).closed = true
  name : (s.sessions client).name = nameAfter [] (decode consumed)
  spawned : s.broadcastsOf client = broadcasts [] (decode consumed)

section Served

variable {consumed : Bytes}

theorem served_newRoom (client : ClientId) : Served newRoom client [] where
  received := rfl
  boundary _ := boundary_nil
  closed h := by cases h
  name := by rw [decode_nil]; rfl
  spawned := by rw [decode_nil]; rfl

theorem Served.congr (h : Served s client consumed)
    (hend : serverEnd (t.sessions client) = serverEnd (s.sessions client))
    (hspawned : t.broadcastsOf client = s.broadcastsOf client) : Served t client consumed := by
  simp only [serverEnd, Prod.mk.injEq] at hend
  obtain ⟨hname, hreceived, hinput, hserving, hclosed⟩ := hend
  refine ⟨?_, ?_, ?_, hname.trans h.name, hspawned.trans h.spawned⟩
  · rw [hreceived, hinput, h.received]
  · rw [hserving]
    exact h.boundary
  · rw [hserving, hclosed]
    exact h.closed

theorem Served.transmit (h : Served s client consumed) (bytes : Bytes) :
    Served (s.transmit client bytes) client consumed := by
  have hself : (s.transmit client bytes).sessions client =
      { s.sessions client with
        received := (s.sessions client).received ++ bytes
        input := (s.sessions client).input ++ bytes } := sessions_modify_self _
  refine ⟨?_, ?_, ?_, ?_, h.spawned⟩
  · rw [hself, h.received, List.append_assoc]
  · rw [hself]
    exact h.boundary
  · rw [hself]
    exact h.closed
  · rw [hself]
    exact h.name

/-- The `serve` goroutine of the client handles what it reads. -/
theorem Served.serve (h : Served s client consumed)
    (hen : (s.sessions client).serving = true) (hex : s.serve client = some t) :
    ∃ consumed', Served t client consumed' := by
  have hb := h.boundary hen
  obtain ⟨cmd, rest, hcmd, hin, rfl⟩ | ⟨tok, rest, htok, hkey, hin, rfl⟩ | ⟨hs, hclosed, rfl⟩ :=
    serve_cases hex
  · obtain ⟨hb', hdec⟩ := hb.write hcmd
    refine ⟨consumed ++ write cmd, ?_, fun _ => hb', ?_, ?_, ?_⟩
    · simp only [sessions_modify_self, sessions_spawn, h.received, hin, List.append_assoc]
    · simp
    · simp only [sessions_modify_self, sessions_spawn, hdec, nameAfter_append, ← h.name]
      exact (handle_spec _ cmd).1
    · show (s.spawn client _).broadcastsOf client = _
      rw [broadcastsOf_spawn, if_pos rfl, hdec, broadcasts_append, h.spawned, ← h.name,
        (handle_spec _ cmd).2]
  · obtain ⟨hb', hdec⟩ := hb.unknown htok hkey
    refine ⟨consumed ++ (tok ++ [space]), ?_, fun _ => hb', ?_, ?_, ?_⟩
    · simp [h.received, hin]
    · simp
    · simpa [hdec] using h.name
    · rw [hdec]
      exact h.spawned
  · have hdec := hb.truncated hs
    refine ⟨consumed ++ (s.sessions client).input, ?_, ?_, ?_, ?_, ?_⟩
    · simp [h.received]
    · simp
    · simp [hclosed]
    · simpa [hdec] using h.name
    · rw [hdec]
      exact h.spawned

/-- The step lemma of the server end. -/
theorem Served.step (h : Served s client consumed) {a : ChatRoom.Action}
    (ha : s.step a = some t) : ∃ consumed', Served t client consumed' := by
  by_cases hc : a.client = some client
  swap
  · have hserve : a ≠ .serve client := by
      rintro rfl
      exact hc rfl
    exact ⟨consumed, h.congr (by rw [sessions_step ha hc]) (broadcastsOf_step ha hserve)⟩
  cases effect_of_step ha with
  | registry hreg hserver => exact ⟨consumed, h.congr rfl (broadcastsOf_step ha (by
      rintro rfl
      cases hreg))⟩
  | sent hsent =>
    obtain rfl := Option.some.inj ((client_of_sent hsent).symm.trans hc)
    exact ⟨consumed, h.transmit _⟩
  | close =>
    obtain rfl := Option.some.inj hc
    refine ⟨consumed, ?_, ?_, ?_, ?_, h.spawned⟩
    · simpa using h.received
    · simpa using h.boundary
    · simp
    · simpa using h.name
  | serve hserving hserve =>
    obtain rfl := Option.some.inj hc
    exact h.serve hserving hserve
  | deliver hserver hb =>
    exact ⟨consumed, h.congr (serverEnd_put _ _ client) (broadcastsOf_step ha (by simp))⟩
  | pull hpull =>
    exact ⟨consumed, h.congr (serverEnd_pull hpull client).1 (broadcastsOf_step ha (by simp))⟩

/-- **What was broadcast for a client is what the consumed part of its stream asks for.** -/
theorem served_of_run {as : List ChatRoom.Action} (h : run ChatRoom.step newRoom as = some s)
    (client : ClientId) : ∃ consumed, Served s client consumed :=
  run_invariant (I := fun s => ∃ consumed, Served s client consumed)
    ⟨[], served_newRoom client⟩ (fun _ _ _ ⟨_, hs⟩ ha => hs.step ha) h

/-- No broadcast carries a newline. -/
theorem lineSafe_of_mem_relays {as : List ChatRoom.Action}
    (h : run ChatRoom.step newRoom as = some s) {m : Relay} (hm : m ∈ s.relays) :
    LineSafe m.command := by
  obtain ⟨consumed, hs⟩ := served_of_run h m.sender
  have hmem : m.command ∈ s.broadcastsOf m.sender :=
    List.mem_map_of_mem (List.mem_filter.mpr ⟨hm, by simp⟩)
  rw [hs.spawned] at hmem
  exact lineSafe_of_mem_broadcasts (fun cmd hcmd => wireSafe_of_mem_decode hcmd) hmem

end Served

end GolangSandbox.Analysis
