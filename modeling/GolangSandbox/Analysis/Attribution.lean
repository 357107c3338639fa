import GolangSandbox.Analysis.RoomInvariant

/-!
# Whose message a receiver shows

A broadcast carries the name its sender has at that moment. The `NAME` command takes
everything up to the end of the line, so a name may contain spaces; the `MESSAGE`
command ends the name at the first space. A receiver therefore shows exactly the
sender's name and text as long as no message is sent under a name with a space, and
another name and another text otherwise.
-/

set_option autoImplicit false

namespace GolangSandbox.Analysis

open GolangSandbox.Model GolangSandbox.Program GolangSandbox.Interface
open GolangSandbox.Program.ChatRoom
open GolangSandbox.Program.CommandWiter (write)

/-- **Sender attribution.** In every run, whatever a client has sent: there is one broadcast
for every `SEND` in the consumed part of its stream, in order, and a receiver of it shows the
latest name before that `SEND` and its text, if and only if no `SEND` comes under a name with
a space.
SOURCE: chatserver/server/tcp_server.go:113-123, chatserver/protocol/reader.go:26-53 -/
theorem attribution_iff (as : List ChatRoom.Action) (s : ChatRoom)
    (h : run ChatRoom.step newRoom as = some s) (client : ClientId) (consumed : Bytes)
    (hconsumed : (s.sessions client).received = consumed ++ (s.sessions client).input) :
    AttributedSends (decode consumed) (s.broadcastsOf client) ↔
      SpacelessSends (decode consumed) := by
  obtain ⟨consumed', hserved⟩ := served_of_run h client
  have heq : consumed = consumed' := by
    rw [hserved.received] at hconsumed
    exact (List.append_cancel_right hconsumed).symm
  rw [hserved.spawned, heq]
  apply attributedSends_iff
  intro cmd hcmd
  exact wireSafe_of_mem_decode hcmd

/-- The client is called `a` and says `x`, then it is called `b` and says `x` again. -/
theorem attribution_iff_spaceless :
    ∃ s, run ChatRoom.step newRoom
        [.accept 1 0, .raw 1 (write (.name ⟨[97]⟩) ++ write (.send ⟨[120]⟩)), .serve 1, .serve 1,
          .raw 1 (write (.name ⟨[98]⟩) ++ write (.send ⟨[120]⟩)), .serve 1, .serve 1] = some s ∧
      s.broadcastsOf 1 = [⟨[97], [120]⟩, ⟨[98], [120]⟩] ∧
      AttributedSends [.name ⟨[97]⟩, .send ⟨[120]⟩, .name ⟨[98]⟩, .send ⟨[120]⟩]
        (s.broadcastsOf 1) := by
  have hdec : decode ([.name ⟨[97]⟩, .send ⟨[120]⟩, .name ⟨[98]⟩, .send ⟨[120]⟩].flatMap write) =
      [.name ⟨[97]⟩, .send ⟨[120]⟩, .name ⟨[98]⟩, .send ⟨[120]⟩] :=
    decode_flatMap_write (by simp [WireSafe, space, newline])
  refine ⟨_, rfl, by decide, ?_⟩
  rw [← hdec]
  refine (attribution_iff
    [.accept 1 0, .raw 1 (write (.name ⟨[97]⟩) ++ write (.send ⟨[120]⟩)), .serve 1, .serve 1,
      .raw 1 (write (.name ⟨[98]⟩) ++ write (.send ⟨[120]⟩)), .serve 1, .serve 1]
    _ rfl 1 _ (by decide)).mpr ?_
  rw [hdec]
  intro xs v ys hsplit name hname
  obtain ⟨w, hw, rfl⟩ := latestName_mem hname
  have hmem : Command.name w ∈
      [.name ⟨[97]⟩, .send ⟨[120]⟩, .name ⟨[98]⟩, .send ⟨[120]⟩] :=
    hsplit ▸ List.mem_append_left _ hw
  simp only [List.mem_cons, List.not_mem_nil, or_false, Command.name.injEq, reduceCtorEq,
    false_or] at hmem
  obtain rfl | rfl := hmem
  · decide
  · decide

/-- The client is called `a b` and says `x`; a receiver shows that `a` says `b x`. -/
theorem not_attributed_spaced :
    ∃ s, run ChatRoom.step newRoom
        [.accept 1 0, .raw 1 ([.name ⟨[97, 32, 98]⟩, .send ⟨[120]⟩].flatMap write), .serve 1,
          .serve 1] = some s ∧
      s.broadcastsOf 1 = [⟨[97, 32, 98], [120]⟩] ∧
      CommandReader.read ⟨write (.message ⟨[97, 32, 98], [120]⟩), .eof⟩ =
        (some (.message ⟨[97], [98, 32, 120]⟩), none, ⟨[], .eof⟩) ∧
      decode ([.name ⟨[97, 32, 98]⟩, .send ⟨[120]⟩].flatMap write) =
        [.name ⟨[97, 32, 98]⟩, .send ⟨[120]⟩] ∧
      ¬ AttributedSends [.name ⟨[97, 32, 98]⟩, .send ⟨[120]⟩] (s.broadcastsOf 1) := by
  refine ⟨_, rfl, by decide, by decide,
    decode_flatMap_write (by simp [WireSafe, space, newline]), fun h => ?_⟩
  obtain ⟨m, hm, hshows⟩ := h.2 [.name ⟨[97, 32, 98]⟩] ⟨[120]⟩ [] rfl
  obtain rfl : (⟨[97, 32, 98], [120]⟩ : MessageCommand) = m := Option.some.inj hm
  exact absurd (hshows [] .eof) (by decide)

end GolangSandbox.Analysis
