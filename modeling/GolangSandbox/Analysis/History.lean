import GolangSandbox.Analysis.NoInjection
import GolangSandbox.Program.Terminal

/-!
# What a person sees

The lines entered at a terminal are a name and then texts, so the server receives one `NAME`
and then `SEND`s (`Typed.received`), reads them one by one (`Typed.unread`), and broadcasts the
texts under that name. What is on `incoming` is in the history but for the message that the
goroutine has in its hand (`Typed.shown`).

So a line of a history was typed by somebody. As the server puts a space behind the name, a
name with a space is shown cut at the space.
-/

set_option autoImplicit false

namespace GolangSandbox.Analysis

open GolangSandbox.Model GolangSandbox.Program GolangSandbox.Interface
open GolangSandbox.Program.ChatRoom GolangSandbox.Program.ChatApp
open GolangSandbox.Program.CommandWiter (write)

/-! ## Steps of the room -/

section Room

variable {s t : ChatRoom} {a : ChatRoom.Action} {client : ClientId}

/-- Only `Start` sends on `incoming`. -/
theorem incoming_step (h : s.step a = some t) (ha : ∀ client, a ≠ .pull client) (c : ClientId) :
    (t.sessions c).incoming = (s.sessions c).incoming := by
  by_cases hdeliver : ∃ k client, a = .deliver k client
  · obtain ⟨k, client, rfl⟩ := hdeliver
    cases ChatRoom.effect_of_step h with
    | registry hreg hserver => cases hreg
    | sent hsent => cases hsent
    | deliver hserver hb =>
      unfold ChatRoom.put
      split
      · rfl
      · exact project_modify Session.incoming (fun _ => by rfl) c
  · have hend := clientEnd_step h (fun k client hk => hdeliver ⟨k, client, hk⟩) ha c
    exact congrArg (fun x : List ℕ × Bytes × Bytes × List MessageCommand => x.2.2.2) hend

/-- The server end of a session changes when its peer acts and when `serve` reads. -/
theorem serverEnd_step (h : s.step a = some t) (hserve : ∀ client, a ≠ .serve client)
    (hsent : a.sent = none) (hclose : ∀ client, a ≠ .close client) (c : ClientId) :
    serverEnd (t.sessions c) = serverEnd (s.sessions c) := by
  cases ChatRoom.effect_of_step h with
  | registry hreg hserver => rfl
  | sent hs =>
    rw [hsent] at hs
    cases hs
  | close => exact absurd rfl (hclose _)
  | serve _ _ => exact absurd rfl (hserve _)
  | deliver hserver hb => exact serverEnd_put _ _ c
  | pull hpull => exact (serverEnd_pull hpull c).1

/-- `Start` sends at most one message. -/
theorem incoming_pull (h : s.pull client = some t) :
    (t.sessions client).incoming = (s.sessions client).incoming ++
      ((t.sessions client).incoming[(s.sessions client).incoming.length]?).toList := by
  have happend : ∀ cmd : Option Command, (receive cmd)[0]?.toList = receive cmd := by
    intro cmd
    unfold receive
    split
    · rfl
    · rfl
  obtain ⟨cmd, rest, -, -, rfl⟩ | ⟨tok, rest, -, -, -, rfl⟩ | ⟨-, -, rfl⟩ := pull_cases h
  · rw [sessions_modify_self, List.getElem?_append_right (Nat.le_refl _), Nat.sub_self, happend]
  · rw [sessions_modify_self, List.getElem?_eq_none (Nat.le_refl _), Option.toList_none,
      List.append_nil]
  · rw [sessions_modify_self, List.getElem?_eq_none (Nat.le_refl _), Option.toList_none,
      List.append_nil]

/-- **An iteration of `serve` on input that consists of commands** takes the first one, or
there is none and the peer has closed its side. -/
theorem serve_of_commands {cmds : List Command} (hcmds : ∀ cmd ∈ cmds, WireSafe cmd)
    (hinput : (s.sessions client).input = cmds.flatMap write) (h : s.serve client = some t) :
    (∃ cmd rest, cmds = cmd :: rest ∧
      t = (s.spawn client (handle (s.sessions client).name (some cmd)).2).modify client fun x =>
        { x with
          name := (handle x.name (some cmd)).1
          input := rest.flatMap write
          serving := true }) ∨
      (cmds = [] ∧ (s.sessions client).closed = true ∧
        t = s.modify client fun x => { x with input := [], serving := false }) := by
  cases cmds with
  | nil =>
    obtain ⟨cmd, rest, -, hin, -⟩ | ⟨tok, rest, -, -, hin, -⟩ | ⟨-, hclosed, rfl⟩ :=
      serve_cases h
    · have hpos := length_write_pos cmd
      rw [hinput, List.flatMap_nil] at hin
      rw [(List.append_eq_nil_iff.mp hin.symm).1] at hpos
      exact absurd hpos (Nat.lt_irrefl 0)
    · rw [hinput, List.flatMap_nil] at hin
      exact absurd (List.append_eq_nil_iff.mp hin.symm).2 (List.cons_ne_nil _ _)
    · exact .inr ⟨rfl, hclosed, rfl⟩
  | cons cmd cmds =>
    rw [List.forall_mem_cons] at hcmds
    rw [List.flatMap_cons] at hinput
    have hread := read_write (cmds.flatMap write) .eof hcmds.1
    obtain ⟨cmd', rest, hsafe, hin, rfl⟩ | ⟨tok, rest, htok, hkey, hin, -⟩ | ⟨htruncated, -, -⟩ :=
      serve_cases h
    · rw [← hinput, hin, read_write rest .eof hsafe] at hread
      simp only [Prod.mk.injEq, Option.some.injEq, Source.mk.injEq, true_and, and_true] at hread
      obtain ⟨rfl, rfl⟩ := hread
      exact .inl ⟨cmd', cmds, rfl, rfl⟩
    · rw [← hinput, hin, read_unknown rest .eof htok hkey] at hread
      cases hread
    · rw [← hinput, read_truncated .eof htruncated] at hread
      cases hread

end Room

/-! ## The terminals -/

/-- What a terminal sends for the lines that were entered: a name, and then texts. -/
def commandsOf : List Bytes → List Command
  | [] => []
  | name :: texts => .name ⟨name⟩ :: texts.map fun text => .send ⟨text⟩

/-- What is broadcast for them. -/
def saidBy : List Bytes → List MessageCommand
  | [] => []
  | name :: texts => texts.map fun text => ⟨name, text⟩

/-- What the history shows of a message. -/
def shownAs (m : MessageCommand) : Bytes := label m.name m.message

theorem commandsOf_concat {lines : List Bytes} (hlines : lines ≠ []) (text : Bytes) :
    commandsOf (lines ++ [text]) = commandsOf lines ++ [.send ⟨text⟩] := by
  cases lines with
  | nil => exact absurd rfl hlines
  | cons name texts =>
    simp only [List.cons_append, commandsOf, List.map_append, List.map_cons, List.map_nil]

theorem wireSafe_commandsOf {lines : List Bytes} (hlines : ∀ l ∈ lines, newline ∉ l) :
    ∀ cmd ∈ commandsOf lines, WireSafe cmd := by
  cases lines with
  | nil => exact List.forall_mem_nil _
  | cons name texts =>
    rw [List.forall_mem_cons] at hlines
    refine List.forall_mem_cons.mpr ⟨hlines.1, fun cmd hcmd => ?_⟩
    obtain ⟨text, htext, rfl⟩ := List.mem_map.mp hcmd
    exact hlines.2 text htext

theorem broadcasts_sends (name : Bytes) (texts : List Bytes) :
    broadcasts name (texts.map fun text => .send ⟨text⟩) =
      texts.map fun text => ⟨name, text⟩ := by
  induction texts with
  | nil => rfl
  | cons text texts ih => rw [List.map_cons, broadcasts, ih, List.map_cons]

/-- **What is broadcast is what was typed**, as far as the server has read it. -/
theorem broadcasts_commandsOf (lines : List Bytes) :
    broadcasts [] (commandsOf lines) = saidBy lines := by
  cases lines with
  | nil => rfl
  | cons name texts => exact broadcasts_sends name texts

theorem broadcasts_mono {name : Bytes} {cmds cmds' : List Command} (h : cmds <+: cmds') :
    broadcasts name cmds <+: broadcasts name cmds' := by
  obtain ⟨rest, rfl⟩ := h
  rw [broadcasts_append]
  exact List.prefix_append _ _

variable {s t : ChatApp} {a : ChatApp.Action} {c client : ClientId}

/-- The invariant of a terminal and its connection. -/
structure Typed (s : ChatApp) (c : ClientId) : Prop where
  lines : ∀ l ∈ (s.terminals c).entered, l ≠ [] ∧ newline ∉ l
  view : (s.terminals c).chatting = true ↔ (s.terminals c).entered ≠ []
  received : (s.room.sessions c).received = (commandsOf (s.terminals c).entered).flatMap write
  unread : ∃ done rest, commandsOf (s.terminals c).entered = done ++ rest ∧
    (s.room.sessions c).input = rest.flatMap write
  shown : (s.room.sessions c).incoming.map shownAs =
    (s.terminals c).history ++ (s.terminals c).hand.toList.map shownAs
  open_iff : (s.terminals c).running = true ↔ (s.room.sessions c).closed = false

theorem typed_newApp (c : ClientId) : Typed newApp c where
  lines := List.forall_mem_nil _
  view := iff_of_false Bool.false_ne_true (fun h => h rfl)
  received := rfl
  unread := ⟨[], [], rfl, rfl⟩
  shown := rfl
  open_iff := iff_of_true rfl rfl

namespace Typed

/-- Another step than one of `serve` leaves the terminal alone. -/
theorem congr (h : Typed s c) (hterminal : t.terminals c = s.terminals c)
    (hend : serverEnd (t.room.sessions c) = serverEnd (s.room.sessions c))
    (hincoming : (t.room.sessions c).incoming = (s.room.sessions c).incoming) : Typed t c := by
  simp only [serverEnd, Prod.mk.injEq] at hend
  obtain ⟨-, hreceived, hinput, -, hclosed⟩ := hend
  refine ⟨?_, ?_, ?_, ?_, ?_, ?_⟩
  · rw [hterminal]
    exact h.lines
  · rw [hterminal]
    exact h.view
  · rw [hterminal, hreceived]
    exact h.received
  · rw [hterminal, hinput]
    exact h.unread
  · rw [hterminal, hincoming]
    exact h.shown
  · rw [hterminal, hclosed]
    exact h.open_iff

/-- `serve` reads a command of its client. -/
theorem serve (h : Typed s c) {room : ChatRoom} (hserve : s.room.serve c = some room) :
    Typed { s with room := room } c := by
  obtain ⟨done, rest, hcommands, hinput⟩ := h.unread
  have hsafe : ∀ cmd ∈ rest, WireSafe cmd := fun cmd hcmd =>
    wireSafe_commandsOf (fun l hl => (h.lines l hl).2) cmd
      (hcommands ▸ List.mem_append_right done hcmd)
  obtain ⟨cmd, rest', rfl, rfl⟩ | ⟨rfl, hclosed, rfl⟩ := serve_of_commands hsafe hinput hserve
  · refine ⟨h.lines, h.view, ?_, ⟨done ++ [cmd], rest', ?_, ?_⟩, ?_, ?_⟩
    · rw [sessions_modify_self, sessions_spawn]
      exact h.received
    · rw [List.append_assoc]
      exact hcommands
    · rw [sessions_modify_self]
    · rw [sessions_modify_self, sessions_spawn]
      exact h.shown
    · rw [sessions_modify_self, sessions_spawn]
      exact h.open_iff
  · refine ⟨h.lines, h.view, ?_, ⟨done, [], hcommands, ?_⟩, ?_, ?_⟩
    · rw [sessions_modify_self]
      exact h.received
    · rw [sessions_modify_self]
      rfl
    · rw [sessions_modify_self]
      exact h.shown
    · rw [sessions_modify_self]
      exact h.open_iff

/-- A person enters a line, and its command is sent. -/
theorem enter (h : Typed s c) {line : Bytes} {m : Command} {room : ChatRoom} {chatting : Bool}
    (hline : line ≠ [] ∧ newline ∉ line)
    (hcommands : commandsOf ((s.terminals c).entered ++ [line]) =
      commandsOf (s.terminals c).entered ++ [m])
    (hroom : room = s.room.transmit c (write m)) (hchatting : chatting = true) :
    Typed (s.put c { s.terminals c with
      chatting := chatting
      entered := (s.terminals c).entered ++ [line] } room) c := by
  subst hroom hchatting
  obtain ⟨done, rest, hread, hinput⟩ := h.unread
  refine ⟨?_, ?_, ?_, ⟨done, rest ++ [m], ?_, ?_⟩, ?_, ?_⟩
  · rw [terminals_put_self]
    intro l hl
    obtain hl | hl := List.mem_append.mp hl
    · exact h.lines l hl
    · exact List.mem_singleton.mp hl ▸ hline
  · rw [terminals_put_self]
    exact iff_of_true rfl (by simp)
  · rw [terminals_put_self, room_put, transmit, sessions_modify_self, hcommands,
      List.flatMap_append, List.flatMap_singleton, h.received]
  · rw [terminals_put_self, hcommands, hread, List.append_assoc]
  · rw [room_put, transmit, sessions_modify_self, List.flatMap_append, List.flatMap_singleton,
      hinput]
  · rw [terminals_put_self, room_put, transmit, sessions_modify_self]
    exact h.shown
  · rw [terminals_put_self, room_put, transmit, sessions_modify_self]
    exact h.open_iff

/-- A step of the server. -/
theorem server (h : Typed s c) {b : ChatRoom.Action} {room : ChatRoom} (hb : a.server = some b)
    (hroom : s.room.step b = some room) : Typed { s with room := room } c := by
  have hpull : ∀ client, b ≠ .pull client := by
    rintro client rfl
    cases a <;> cases hb
  have hincoming := incoming_step hroom hpull c
  by_cases hserve : b = .serve c
  · subst hserve
    exact h.serve (ChatRoom.step_eq_some.mp hroom).2
  · refine h.congr rfl ?_ hincoming
    by_cases hother : ∃ client, b = .serve client
    · obtain ⟨client, rfl⟩ := hother
      refine congrArg serverEnd (sessions_step hroom ?_)
      rintro hc
      obtain rfl := Option.some.inj hc
      exact hserve rfl
    · refine serverEnd_step hroom (fun client hs => hother ⟨client, hs⟩) ?_ ?_ c
      · cases a <;> cases hb <;> rfl
      · rintro client rfl
        cases a <;> cases hb

/-- A step about another client. -/
theorem other (h : Typed s c) {x : Terminal} {room : ChatRoom} {b : ChatRoom.Action}
    (hne : c ≠ client) (hclient : b.client = some client)
    (hroom : s.room.step b = some room) : Typed (s.put client x room) c := by
  have hsession : room.sessions c = s.room.sessions c := by
    refine sessions_step hroom ?_
    rw [hclient]
    exact fun heq => hne (Option.some.inj heq).symm
  refine h.congr (terminals_put_of_ne hne _ _) ?_ ?_
  · rw [room_put, hsession]
  · rw [room_put, hsession]

/-- The goroutine receives what `Start` sends. -/
theorem pull (h : Typed s c) {room : ChatRoom} (hhand : (s.terminals c).hand = none)
    (hroom : s.room.step (.pull c) = some room) :
    Typed (s.put c { s.terminals c with
      hand := (room.sessions c).incoming[(s.room.sessions c).incoming.length]? } room) c := by
  have hend := (serverEnd_pull (ChatRoom.step_eq_some.mp hroom).2 c).1
  have hincoming := incoming_pull (ChatRoom.step_eq_some.mp hroom).2
  have hshown := h.shown
  rw [hhand, Option.toList_none, List.map_nil, List.append_nil] at hshown
  simp only [serverEnd, Prod.mk.injEq] at hend
  obtain ⟨-, hreceived, hinput, -, hclosed⟩ := hend
  refine ⟨?_, ?_, ?_, ?_, ?_, ?_⟩
  · rw [terminals_put_self]
    exact h.lines
  · rw [terminals_put_self]
    exact h.view
  · rw [terminals_put_self, room_put, hreceived]
    exact h.received
  · rw [terminals_put_self, room_put, hinput]
    exact h.unread
  · rw [terminals_put_self, room_put]
    have hmap := congrArg (List.map shownAs) hincoming
    rw [List.map_append, hshown] at hmap
    exact hmap
  · rw [terminals_put_self, room_put, hclosed]
    exact h.open_iff

/-- The label is added to the history. -/
theorem addMessage (h : Typed s c) {msg : MessageCommand}
    (hhand : (s.terminals c).hand = some msg) :
    Typed (s.put c { s.terminals c with
      hand := none
      history := (s.terminals c).history ++ [label msg.name msg.message] } s.room) c := by
  have hshown := h.shown
  rw [hhand] at hshown
  refine ⟨?_, ?_, ?_, ?_, ?_, ?_⟩
  · rw [terminals_put_self]
    exact h.lines
  · rw [terminals_put_self]
    exact h.view
  · rw [terminals_put_self]
    exact h.received
  · rw [terminals_put_self]
    exact h.unread
  · rw [terminals_put_self, room_put]
    exact hshown.trans (List.append_nil _).symm
  · rw [terminals_put_self]
    exact h.open_iff

theorem quit (h : Typed s c) {room : ChatRoom} (hroom : s.room.step (.close c) = some room) :
    Typed (s.put c { s.terminals c with running := false } room) c := by
  obtain rfl := Option.some.inj (ChatRoom.step_eq_some.mp hroom).2
  refine ⟨?_, ?_, ?_, ?_, ?_, ?_⟩
  · rw [terminals_put_self]
    exact h.lines
  · rw [terminals_put_self]
    exact h.view
  · rw [terminals_put_self, room_put, sessions_modify_self]
    exact h.received
  · rw [terminals_put_self, room_put, sessions_modify_self]
    exact h.unread
  · rw [terminals_put_self, room_put, sessions_modify_self]
    exact h.shown
  · rw [terminals_put_self, room_put, sessions_modify_self]
    exact iff_of_false Bool.false_ne_true (by simp)

/-- **The step lemma.** -/
theorem step (h : Typed s c) (he : ChatApp.Effect s a t) : Typed t c := by
  cases he with
  | server hb hroom => exact h.server hb hroom
  | blank hline => exact h
  | @login client line room hrunning hline hview hroom =>
    by_cases hc : c = client
    · subst hc
      have hnil : (s.terminals c).entered = [] := by
        by_contra hne
        rw [h.view.mpr hne] at hview
        cases hview
      refine h.enter (m := .name ⟨line.bytes⟩) ⟨hline, line.newline_notMem⟩ ?_ ?_ rfl
      · rw [hnil]
        rfl
      · exact (Option.some.inj (ChatRoom.step_eq_some.mp hroom).2).symm
    · exact h.other hc rfl hroom
  | @send client line room hrunning hline hview hroom =>
    by_cases hc : c = client
    · subst hc
      refine h.enter (m := .send ⟨line.bytes⟩) ⟨hline, line.newline_notMem⟩ ?_ ?_ hview
      · exact commandsOf_concat (h.view.mp hview) line.bytes
      · exact (Option.some.inj (ChatRoom.step_eq_some.mp hroom).2).symm
    · exact h.other hc rfl hroom
  | @quit client room hroom =>
    by_cases hc : c = client
    · subst hc
      exact h.quit hroom
    · exact h.other hc rfl hroom
  | @pull client room hrunning hhand hroom =>
    by_cases hc : c = client
    · subst hc
      exact h.pull hhand hroom
    · exact h.other hc rfl hroom
  | @addMessage client msg hrunning hhand =>
    by_cases hc : c = client
    · subst hc
      exact h.addMessage hhand
    · exact h.congr (terminals_put_of_ne hc _ _) rfl rfl

end Typed

/-! ## Runs -/

theorem typed_of_run {as : List ChatApp.Action} (h : run ChatApp.step newApp as = some s)
    (c : ClientId) : Typed s c :=
  run_invariant (I := fun s => Typed s c) (typed_newApp c)
    (fun _ _ _ hs ha => hs.step (ChatApp.effect_of_step ha)) h

/-- The room of a run of the terminals has a run of its own. -/
theorem exists_room_run {as : List ChatApp.Action} {s₀ : ChatApp}
    (h : run ChatApp.step s₀ as = some s) :
    ∃ bs, run ChatRoom.step s₀.room bs = some s.room := by
  have hstep : ∀ (s : ChatApp) a t room, s.room = room → s.step a = some t →
      ∃ bs room', run ChatRoom.step room bs = some room' ∧ t.room = room' := by
    rintro s a t _ rfl ha
    obtain hsame | ⟨b, hb⟩ := room_step (ChatApp.effect_of_step ha)
    · exact ⟨[], s.room, rfl, hsame⟩
    · exact ⟨[b], t.room, run_cons_eq_some.mpr ⟨t.room, hb, rfl⟩, rfl⟩
  obtain ⟨bs, room, hbs, rfl⟩ := run_simulates (fun s room => s.room = room) hstep rfl h
  exact ⟨bs, hbs⟩

/-- What the server has broadcast for a client was entered at its terminal. -/
theorem Typed.broadcasts (h : Typed s c) {consumed : Bytes} (hs : Served s.room c consumed) :
    ∃ done rest, commandsOf (s.terminals c).entered = done ++ rest ∧
      (s.room.sessions c).input = rest.flatMap write ∧
      s.room.broadcastsOf c = broadcasts [] done := by
  obtain ⟨done, rest, hcommands, hinput⟩ := h.unread
  have hsafe : ∀ cmd ∈ done, WireSafe cmd := fun cmd hcmd =>
    wireSafe_commandsOf (fun l hl => (h.lines l hl).2) cmd
      (hcommands ▸ List.mem_append_left rest hcmd)
  have hconsumed : consumed = done.flatMap write := by
    have hreceived := hs.received
    rw [h.received, hcommands, List.flatMap_append, hinput] at hreceived
    exact (List.append_cancel_right hreceived).symm
  refine ⟨done, rest, hcommands, hinput, ?_⟩
  rw [hs.spawned, hconsumed, decode_flatMap_write hsafe]

/-- A person called `a` enters `x`, and sees `a: x`. -/
def oneTalks : List ChatApp.Action :=
  [.accept 1 0, .submit 1 ⟨[97], by decide⟩, .submit 1 ⟨[120], by decide⟩, .serve 1, .serve 1,
    .start 0, .deliver 0 1, .pull 1, .addMessage 1]

end GolangSandbox.Analysis
