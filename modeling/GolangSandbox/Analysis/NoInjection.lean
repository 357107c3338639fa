import GolangSandbox.Analysis.RoomInvariant

/-!
# What a receiver reads

Whatever the peers send, no broadcast carries a newline, so on the connection of a
receiver every broadcast is one line and the reader takes exactly that line. A name
with a space moves the border between name and message and nothing else.

`Connected` is the invariant of the client end of a connection: the bytes written are
those of the broadcasts in `written`; what `Start` has read of them is on `incoming`,
and the rest is still in the inbox, message by message.
-/

set_option autoImplicit false

namespace GolangSandbox.Analysis

open GolangSandbox.Model GolangSandbox.Program GolangSandbox.Interface
open GolangSandbox.Program.ChatRoom
open GolangSandbox.Program.CommandWiter (write)

variable {s t : ChatRoom} {r : ClientId}

/-- The bytes of a list of messages. -/
def lines (ms : List MessageCommand) : Bytes := ms.flatMap fun m => write (.message m)

/-- What was written to the receiver, read and unread. -/
structure Connected (s : ChatRoom) (r : ClientId) : Prop where
  bound : ∀ k ∈ (s.sessions r).written, k < s.relays.length
  wrote : (s.sessions r).wrote = lines ((s.writtenTo r).map Relay.command)
  unread : ∃ queued : List MessageCommand, (∀ m ∈ queued, LineSafe m) ∧
    (s.sessions r).inbox = lines queued ∧
    (s.sessions r).incoming ++ queued.map readAs =
      (s.writtenTo r).map fun m => readAs m.command

theorem connected_newRoom (r : ClientId) : Connected newRoom r where
  bound := by simp [newRoom, Session.new]
  wrote := rfl
  unread := ⟨[], by simp, rfl, rfl⟩

/-- Broadcasts that are spawned do not change which ones were written. -/
theorem writtenTo_eq (hbound : ∀ k ∈ (s.sessions r).written, k < s.relays.length)
    (hwritten : (t.sessions r).written = (s.sessions r).written) {ms : List Relay}
    (hrelays : t.relays = s.relays ++ ms) : t.writtenTo r = s.writtenTo r := by
  rw [writtenTo, writtenTo, hwritten, hrelays]
  apply List.filterMap_congr
  intro k hk
  exact List.getElem?_append_left (hbound k hk)

theorem Connected.congr (h : Connected s r)
    (hend : clientEnd (t.sessions r) = clientEnd (s.sessions r)) {ms : List Relay}
    (hrelays : t.relays = s.relays ++ ms) : Connected t r := by
  simp only [clientEnd, Prod.mk.injEq] at hend
  obtain ⟨hwritten, hwrote, hinbox, hincoming⟩ := hend
  have hto := writtenTo_eq h.bound hwritten hrelays
  refine ⟨fun k hk => ?_, ?_, ?_⟩
  · rw [hwritten] at hk
    have := h.bound k hk
    rw [hrelays, List.length_append]
    omega
  · rw [hwrote, hto, h.wrote]
  · rw [hinbox, hincoming, hto]
    exact h.unread

/-- A broadcast is written to the receiver. -/
theorem Connected.put (h : Connected s r) {k : ℕ} {m : Relay} (hk : s.relays[k]? = some m)
    (hsafe : LineSafe m.command) : Connected (s.put r k m.command) r := by
  unfold ChatRoom.put
  split
  · exact h
  have hto : (s.modify r (wire k m.command)).writtenTo r = s.writtenTo r ++ [m] := by
    rw [writtenTo, sessions_modify_self, relays_modify, wire, List.filterMap_append, writtenTo,
      List.filterMap_cons, hk]
    rfl
  obtain ⟨queued, hqsafe, hinbox, hincoming⟩ := h.unread
  refine ⟨fun k' hk' => ?_, ?_, queued ++ [m.command], ?_, ?_, ?_⟩
  · rw [sessions_modify_self, wire, List.mem_append, List.mem_singleton] at hk'
    obtain hk' | rfl := hk'
    · exact h.bound k' hk'
    · exact (List.getElem?_eq_some_iff.mp hk).1
  · rw [sessions_modify_self, hto, wire, h.wrote]
    simp [lines]
  · intro m' hm'
    rw [List.mem_append, List.mem_singleton] at hm'
    obtain hm' | rfl := hm'
    · exact hqsafe m' hm'
    · exact hsafe
  · rw [sessions_modify_self, wire, hinbox]
    simp [lines]
  · rw [sessions_modify_self, wire, hto, List.map_append, List.map_append, ← hincoming,
      List.append_assoc]
    rfl

/-- The `Start` loop of the receiver takes the next message, if there is one. -/
theorem Connected.pull (h : Connected s r) (hex : s.pull r = some t) : Connected t r := by
  obtain ⟨queued, hqsafe, hinbox, hincoming⟩ := h.unread
  unfold ChatRoom.pull at hex
  cases queued with
  | nil =>
    rw [hinbox, show lines [] = [] from rfl,
      read_truncated .eof (.keyword List.not_mem_nil)] at hex
    simp only [↓reduceIte] at hex
    split at hex
    · rw [Option.some.injEq] at hex
      subst hex
      refine h.congr ?_ (List.append_nil _).symm
      simp [clientEnd, hinbox, lines]
    · cases hex
  | cons m queued =>
    rw [List.forall_mem_cons] at hqsafe
    rw [hinbox, show lines (m :: queued) = write (.message m) ++ lines queued from rfl,
      read_write_message hqsafe.1] at hex
    simp only [reduceCtorEq, ↓reduceIte, Option.some.injEq] at hex
    have hto : t.writtenTo r = s.writtenTo r := by
      have hrelays : t.relays = s.relays ++ [] := by rw [← hex, relays_modify, List.append_nil]
      refine writtenTo_eq h.bound ?_ hrelays
      rw [← hex, sessions_modify_self]
    subst hex
    refine ⟨?_, ?_, queued, hqsafe.2, ?_, ?_⟩
    · simpa using h.bound
    · rw [hto, sessions_modify_self]
      exact h.wrote
    · rw [sessions_modify_self]
    · rw [hto, sessions_modify_self, ← hincoming]
      simp [receive]

/-- The step lemma of the client end. -/
theorem Connected.step (h : Connected s r) (hsafe : ∀ m ∈ s.relays, LineSafe m.command)
    {a : ChatRoom.Action} (ha : s.step a = some t) : Connected t r := by
  obtain ⟨ms, hrelays⟩ := relays_mono ha
  by_cases hc : a.client = some r
  swap
  · exact h.congr (by rw [sessions_step ha hc]) hrelays
  by_cases hdel : ∃ k client, a = .deliver k client
  · obtain ⟨k, c, rfl⟩ := hdel
    obtain rfl : c = r := Option.some.inj hc
    cases effect_of_step ha with
    | registry hreg hserver => cases hreg
    | sent hsent => cases hsent
    | @deliver _ _ server b hserver hb =>
      have hsame := relays_eq hserver (by simp)
      have hk : s.relays[k]? = some b.command := by
        rw [← hsame, List.getElem?_map, hb, Option.map_some]
      have h' : Connected { s with server := server } c :=
        h.congr rfl (hsame.trans (List.append_nil _).symm)
      refine h'.put ?_ (hsafe b.command (List.mem_of_getElem? hk))
      rw [relays, hsame]
      exact hk
  by_cases hpull : ∃ client, a = .pull client
  · obtain ⟨c, rfl⟩ := hpull
    obtain rfl : c = r := Option.some.inj hc
    exact h.pull (step_eq_some.mp ha).2
  · have hend := clientEnd_step ha (fun k client h => hdel ⟨k, client, h⟩)
      (fun client h => hpull ⟨client, h⟩) r
    exact h.congr hend hrelays

theorem connected_of_run {as : List ChatRoom.Action} (h : run ChatRoom.step newRoom as = some s)
    (r : ClientId) : Connected s r := by
  refine run_induction (I := fun _ s => Connected s r) (connected_newRoom r) ?_ h
  intro as s a t hrun hs ha
  exact hs.step (fun m hm => lineSafe_of_mem_relays hrun hm) ha

/-- **No injection through the relay.** Whatever the peers send and however the
goroutines interleave, the bytes written to a receiver are read back without an error
as one message for each broadcast written, in that order; each is read from exactly
the bytes of its broadcast, and name, space and message together are those of the
broadcast.
SOURCE: chatserver/server/tcp_server.go:55-60, 101-129, chatserver/protocol/reader.go:60-75 -/
theorem no_injection (as : List ChatRoom.Action) (s : ChatRoom)
    (h : run ChatRoom.step newRoom as = some s) (r : ClientId) :
    ∃ ds : List MessageCommand,
      CommandReader.readAll ⟨(s.sessions r).wrote, .eof⟩ =
        (ds.map Command.message, none, ⟨[], .eof⟩) ∧
      (s.sessions r).wrote = (s.writtenTo r).flatMap (fun m => write (.message m.command)) ∧
      List.Forall₂ (fun d m =>
        (∀ rest f, CommandReader.read ⟨write (.message m.command) ++ rest, f⟩ =
          (some (.message d), none, ⟨rest, f⟩)) ∧
        d.name ++ [space] ++ d.message = m.command.name ++ [space] ++ m.command.message)
        ds (s.writtenTo r) := by
  have hr := connected_of_run h r
  have hsafe : ∀ m ∈ s.writtenTo r, LineSafe m.command := by
    intro m hm
    obtain ⟨k, -, hk⟩ := List.mem_filterMap.mp hm
    exact lineSafe_of_mem_relays h (List.mem_of_getElem? hk)
  have hwrote : (s.sessions r).wrote =
      (s.writtenTo r).flatMap fun m => write (.message m.command) := by
    rw [hr.wrote, lines, List.flatMap_map]
  refine ⟨(s.writtenTo r).map fun m => readAs m.command, ?_, hwrote, ?_⟩
  · have hbytes : (s.sessions r).wrote =
        (((s.writtenTo r).map fun m => readAs m.command).map Command.message).flatMap write := by
      rw [hwrote, List.flatMap_map, List.flatMap_map]
      simp only [write_readAs]
    rw [hbytes]
    apply readAll_flatMap_write
    intro cmd hcmd
    obtain ⟨d, hd, rfl⟩ := List.mem_map.mp hcmd
    obtain ⟨m, hm, rfl⟩ := List.mem_map.mp hd
    exact wireSafe_readAs (hsafe m hm)
  · rw [List.forall₂_map_left_iff, List.forall₂_same]
    intro m hm
    exact ⟨read_write_message (hsafe m hm), readAs_joined m.command⟩

/-- A peer calls itself `a b`; its message is read under the name `a`. -/
theorem no_injection_spaced :
    ∃ (s : ChatRoom) (ds : List MessageCommand), run ChatRoom.step newRoom
        [.accept 1 0, .raw 1 (nameTag ++ [97, 32, 98, 10] ++ sendTag ++ [120, 10]), .serve 1,
          .serve 1, .start 0, .deliver 0 1] = some s ∧
      s.writtenTo 1 = [⟨1, ⟨[97, 32, 98], [120]⟩⟩] ∧
      CommandReader.readAll ⟨(s.sessions 1).wrote, .eof⟩ =
        (ds.map Command.message, none, ⟨[], .eof⟩) := by
  have hread := fun s h => no_injection
    [.accept 1 0, .raw 1 (nameTag ++ [97, 32, 98, 10] ++ sendTag ++ [120, 10]), .serve 1,
      .serve 1, .start 0, .deliver 0 1] s h 1
  obtain ⟨ds, hds, -⟩ := hread _ rfl
  exact ⟨_, ds, rfl, by decide, hds⟩

end GolangSandbox.Analysis
