import GolangSandbox.Analysis.FanOut

/-!
# The order of one sender's messages

`serve` starts a goroutine for every `SEND`, so two broadcasts of one sender race to
every receiver, and either may write first (`later_message_first`). What is certain
is that no message is lost or doubled, and that a broadcast that has written to a
receiver stays in front of every broadcast that is spawned later.
-/

set_option autoImplicit false

namespace GolangSandbox.Analysis

open GolangSandbox.Model GolangSandbox.Program GolangSandbox.Interface
open GolangSandbox.Program.ChatRoom

variable {s₀ s t : ChatRoom} {r : ClientId}

/-- The messages of one sender that were written to a receiver, in that order. -/
def receivedFrom (s : ChatRoom) (sender r : ClientId) : List MessageCommand :=
  ((s.writtenTo r).filter fun m => m.sender = sender).map Relay.command

/-- What has been written to a receiver stays written, and new writes go behind it. -/
theorem written_mono {as : List ChatRoom.Action} (h : run ChatRoom.step s as = some t)
    (r : ClientId) : (s.sessions r).written <+: (t.sessions r).written := by
  refine run_monotone
    (R := fun s t : ChatRoom => (s.sessions r).written <+: (t.sessions r).written)
    (fun s => List.prefix_refl _) (fun s t u => List.IsPrefix.trans) ?_ h
  intro s a t ha
  by_cases hdel : ∃ k client, a = .deliver k client
  · obtain ⟨k, client, rfl⟩ := hdel
    by_cases hc : client = r
    · subst hc
      obtain ⟨-, hex⟩ := step_eq_some.mp ha
      obtain ⟨server, -, hput⟩ := Option.bind_eq_some_iff.mp hex
      obtain ⟨b, -, rfl⟩ := Option.map_eq_some_iff.mp hput
      unfold put
      split
      · exact List.prefix_refl _
      · rw [sessions_modify_self]
        exact List.prefix_append _ _
    · have hsame := sessions_step ha fun h => hc (Option.some.inj h)
      exact hsame ▸ List.prefix_refl _
  · have hsame := written_step ha (fun k client h => hdel ⟨k, client, h⟩) r
    exact hsame ▸ List.prefix_refl _

/-- **What is certain about the order of a sender's messages.** The broadcasts for a
sender are spawned in the order of the `SEND`s that `serve` has read from it. With a
fixed set of receivers none is written to a receiver twice, and when all broadcasts are
finished a receiver has been written exactly those of the sender. A broadcast that has
written to a receiver before `serve` spawns a later one precedes it there.
SOURCE: chatserver/server/tcp_server.go:55-60, 107-123 -/
theorem message_order (joins as : List ChatRoom.Action) (s₀ s : ChatRoom)
    (sender r : ClientId) (hjoins : ∀ a ∈ joins, Joins a)
    (h₀ : run ChatRoom.step newRoom joins = some s₀) (hsteady : ∀ a ∈ as, Steady a)
    (h : run ChatRoom.step s₀ as = some s) (hr : r ∈ s₀.server.registered) :
    (∃ consumed, (s.sessions sender).received = consumed ++ (s.sessions sender).input ∧
        s.broadcastsOf sender = broadcasts [] (decode consumed)) ∧
      (s.sessions r).written.Nodup ∧
      ((∀ b ∈ s.server.casts, b.Finished) →
        (receivedFrom s sender r).Perm (s.broadcastsOf sender)) ∧
      ∀ as₁ as₂ s₁ k k', as = as₁ ++ as₂ → run ChatRoom.step s₀ as₁ = some s₁ →
        k ∈ (s₁.sessions r).written → s₁.relays.length ≤ k' →
        k' ∈ (s.sessions r).written → [k, k'].Sublist (s.sessions r).written := by
  have hfan := fanOut_of_run hjoins h₀ hsteady h
  have hrun : run ChatRoom.step newRoom (joins ++ as) = some s :=
    run_append_eq_some.mpr ⟨s₀, h₀, h⟩
  obtain ⟨consumed, hserved⟩ := served_of_run hrun sender
  refine ⟨⟨consumed, hserved.received, hserved.spawned⟩, hfan.nodup_written hr,
    fun hfin => ?_, ?_⟩
  · have hperm := hfan.writtenTo_perm (registryInv_of_room h₀) hr hfin
    exact (hperm.filter _).map Relay.command
  · rintro as₁ as₂ s₁ k k' rfl h₁ hk hk' hkr'
    obtain ⟨s₁', h₁', h₂⟩ := run_append_eq_some.mp h
    rw [h₁, Option.some.injEq] at h₁'
    subst h₁'
    have hsteady₁ : ∀ a ∈ as₁, Steady a := fun a ha => hsteady a (List.mem_append_left _ ha)
    have hfan₁ := fanOut_of_run hjoins h₀ hsteady₁ h₁
    have hlen : s₁.relays.length = s₁.server.casts.length := List.length_map _
    apply pair_sublist_of_prefix (written_mono h₂ r) hk ?_ hkr'
    intro hmem
    have := hfan₁.bound r k' hmem
    omega

/-- One client says `x` and then `y`; the broadcast of `y` writes first. -/
def racingSends : List ChatRoom.Action :=
  [.sendMessage 1 [120], .sendMessage 1 [121], .serve 1, .serve 1, .start 0, .start 1,
    .deliver 1 1, .deliver 0 1, .pull 1, .pull 1]

theorem message_order_racing :
    ∃ s, run ChatRoom.step newRoom ([.accept 1 0] ++ racingSends) = some s ∧
      (receivedFrom s 1 1).Perm [⟨[], [120]⟩, ⟨[], [121]⟩] := by
  refine ⟨_, rfl, ?_⟩
  refine (message_order [.accept 1 0] racingSends _ _ 1 1 ?_ rfl ?_ rfl (by decide)).2.2.1 ?_
  · simp [Joins]
  · simp [racingSends, Steady]
  · decide

theorem later_message_first :
    ∃ s, run ChatRoom.step newRoom ([.accept 1 0] ++ racingSends) = some s ∧
      s.broadcastsOf 1 = [⟨[], [120]⟩, ⟨[], [121]⟩] ∧
      (s.sessions 1).incoming = [⟨[], [121]⟩, ⟨[], [120]⟩] ∧
      ¬ (receivedFrom s 1 1).Sublist (s.broadcastsOf 1) := by
  refine ⟨_, rfl, ?_⟩
  decide

end GolangSandbox.Analysis
