import Mathlib.Data.List.Nodup
import GolangSandbox.Program.EpollServer

/-!
# Every connection is answered once

A connection is closed where its event is handled, and the events behind it belong to other
descriptors, because `epoll_wait` returns different ones out of those that are watched. So what
is still to be handled is watched (`Watching`), also when `accept` has returned a descriptor
again that was closed in the same round. Every descriptor that `accept` returns is watched until
its one answer, so that answers and watched descriptors together are the accepted ones.
-/

set_option autoImplicit false

namespace GolangSandbox.Analysis

open GolangSandbox.Model GolangSandbox.Program GolangSandbox.Program.EpollServer

variable {s t : EpollServer} {events : List ℤ} {fd client_fd : ℤ} {message : Bytes}

/-! ## What the actions do -/

theorem wait_of_step (h : s.step (.wait events) = some t) :
    events.Nodup ∧ (∀ fd ∈ events, fd ∈ s.interest) ∧ t = { s with pc := .handling events } := by
  unfold EpollServer.step at h
  split at h
  · rename_i hpc hwait
    cases hwait
    rw [Option.ite_none_right_eq_some] at h
    exact ⟨h.1.1, h.1.2.2, (Option.some.inj h.2).symm⟩
  · rename_i hwait
    cases hwait
  · rename_i hwait
    cases hwait
  · cases h

theorem accept_of_step (h : s.step (.accept client_fd) = some t) :
    ∃ events, s.pc = .handling (s.server_fd :: events) ∧ client_fd ∉ s.interest ∧
      t = { s with
        pc := .handling events
        interest := if client_fd = -1 then s.interest else client_fd :: s.interest } := by
  unfold EpollServer.step at h
  split at h
  · rename_i haccept
    cases haccept
  · rename_i fd events _ hpc haccept
    cases haccept
    rw [Option.ite_none_right_eq_some] at h
    obtain ⟨⟨rfl, hfd⟩, ht⟩ := h
    exact ⟨events, hpc, hfd, (Option.some.inj ht).symm⟩
  · rename_i haccept
    cases haccept
  · cases h

theorem read_of_step (h : s.step (.read message) = some t) :
    ∃ fd events, s.pc = .handling (fd :: events) ∧ fd ≠ s.server_fd ∧
      t = s.serve fd events message := by
  unfold EpollServer.step at h
  split at h
  · rename_i hread
    cases hread
  · rename_i hread
    cases hread
  · rename_i fd events _ hpc hread
    cases hread
    rw [Option.ite_none_right_eq_some] at h
    exact ⟨fd, events, hpc, h.1.1, (Option.some.inj h.2).symm⟩
  · cases h

/-! ## What is watched -/

/-- What is still to be handled is watched, and so is the listening socket. -/
structure Watching (server_fd : ℤ) (s : EpollServer) : Prop where
  same : s.server_fd = server_fd
  nodup : s.interest.Nodup
  server : server_fd ∈ s.interest
  events : ∀ events, s.pc = .handling events → events.Nodup ∧ ∀ fd ∈ events, fd ∈ s.interest

/-- The descriptors that `accept` has returned are those that were answered and those that are
watched, as often. -/
structure Answered (server_fd : ℤ) (as : List EpollServer.Action) (s : EpollServer) : Prop where
  watching : Watching server_fd s
  balance : ∀ fd, fd ≠ -1 → fd ≠ server_fd →
    as.count (.accept fd) = (s.sent.map Prod.fst).count fd + s.interest.count fd
  replies : s.sent <+: s.received.map fun r => (r.1, reply)
  all_replied : s.pc ≠ .undefined → s.sent = s.received.map fun r => (r.1, reply)

theorem answered_start (server_fd : ℤ) : Answered server_fd [] (start server_fd) where
  watching := ⟨rfl, List.nodup_singleton _, List.mem_singleton_self _, by
    intro events hpc
    obtain rfl := EpollPc.handling.inj hpc
    exact ⟨List.nodup_nil, List.forall_mem_nil _⟩⟩
  balance fd _ hfd := by
    have hnone : (start server_fd).interest.count fd = 0 :=
      List.count_eq_zero.mpr (by simpa [start] using hfd)
    rw [hnone]
    rfl
  replies := List.nil_prefix
  all_replied _ := rfl

variable {server_fd : ℤ} {as : List EpollServer.Action}

theorem Answered.wait (h : Answered server_fd as s) (hnodup : events.Nodup)
    (hevents : ∀ fd ∈ events, fd ∈ s.interest) (hpc : s.pc ≠ .undefined) :
    Answered server_fd (as ++ [.wait events]) { s with pc := .handling events } where
  watching := ⟨h.watching.same, h.watching.nodup, h.watching.server, by
    intro events' hsame
    obtain rfl := EpollPc.handling.inj hsame
    exact ⟨hnodup, hevents⟩⟩
  balance fd hfail hfd := by
    rw [List.count_append, h.balance fd hfail hfd]
    rfl
  replies := h.replies
  all_replied _ := h.all_replied hpc

/-- An accepted connection is watched. -/
theorem Answered.accept (h : Answered server_fd as s)
    (hpc : s.pc = .handling (s.server_fd :: events)) (hnew : client_fd ∉ s.interest) :
    Answered server_fd (as ++ [.accept client_fd]) { s with
      pc := .handling events
      interest := if client_fd = -1 then s.interest else client_fd :: s.interest } := by
  obtain ⟨hnodup, hevents⟩ := h.watching.events _ hpc
  rw [List.nodup_cons] at hnodup
  rw [List.forall_mem_cons] at hevents
  have hreplied := h.all_replied (by simp [hpc])
  by_cases hfailed : client_fd = -1
  · rw [if_pos hfailed]
    refine ⟨⟨h.watching.same, h.watching.nodup, h.watching.server, ?_⟩, ?_, h.replies,
      fun _ => hreplied⟩
    · intro events' hsame
      obtain rfl := EpollPc.handling.inj hsame
      exact ⟨hnodup.2, hevents.2⟩
    · intro fd hfail hfd
      have hother : ¬ (EpollServer.Action.accept client_fd == .accept fd) = true := by
        simp [hfailed, Ne.symm hfail]
      rw [List.count_append, h.balance fd hfail hfd, List.count_singleton, if_neg hother,
        Nat.add_zero]
  · rw [if_neg hfailed]
    refine ⟨⟨h.watching.same, List.nodup_cons.mpr ⟨hnew, h.watching.nodup⟩,
      List.mem_cons_of_mem _ h.watching.server, ?_⟩, ?_, h.replies, fun _ => hreplied⟩
    · intro events' hsame
      obtain rfl := EpollPc.handling.inj hsame
      exact ⟨hnodup.2, fun fd hfd => List.mem_cons_of_mem _ (hevents.2 fd hfd)⟩
    · intro fd hfail hfd
      rw [List.count_append, h.balance fd hfail hfd, List.count_singleton, List.count_cons,
        Nat.add_assoc]
      simp

/-- A connection that has data is answered, and not watched any more. -/
theorem Answered.read (h : Answered server_fd as s) (hpc : s.pc = .handling (fd :: events))
    (hclient : fd ≠ s.server_fd) :
    Answered server_fd (as ++ [.read message]) (s.serve fd events message) := by
  obtain ⟨hnodup, hevents⟩ := h.watching.events _ hpc
  rw [List.nodup_cons] at hnodup
  rw [List.forall_mem_cons] at hevents
  have hreplied := h.all_replied (by simp [hpc])
  have hcount : ∀ fd', (as ++ [EpollServer.Action.read message]).count (.accept fd') =
      as.count (.accept fd') := by
    intro fd'
    rw [List.count_append]
    rfl
  have hreceived : (s.received ++ [(fd, message)]).map (fun r => (r.1, reply)) =
      s.sent ++ [(fd, reply)] := by
    rw [List.map_append, ← hreplied]
    rfl
  dsimp only [serve]
  split
  · refine ⟨⟨h.watching.same, h.watching.nodup, h.watching.server, ?_⟩, ?_, ?_, ?_⟩
    · intro events' hsame
      cases hsame
    · intro fd' hfail hfd
      rw [hcount, h.balance fd' hfail hfd]
    · exact hreceived ▸ List.prefix_append _ _
    · intro hundefined
      exact absurd rfl hundefined
  · refine ⟨⟨h.watching.same, h.watching.nodup.erase fd, ?_, ?_⟩, ?_, ?_, ?_⟩
    · exact (List.mem_erase_of_ne (h.watching.same ▸ hclient.symm)).mpr h.watching.server
    · intro events' hsame
      obtain rfl := EpollPc.handling.inj hsame
      refine ⟨hnodup.2, fun fd' hfd' => (List.mem_erase_of_ne ?_).mpr (hevents.2 fd' hfd')⟩
      rintro rfl
      exact hnodup.1 hfd'
    · intro fd' hfail hfd
      rw [hcount, h.balance fd' hfail hfd, List.map_append, List.count_append]
      by_cases hsame : fd' = fd
      · subst hsame
        have hone := List.count_pos_iff.mpr hevents.1
        have hself : [fd'].count fd' = 1 := List.count_singleton_self
        rw [List.count_erase_self, List.map_singleton, hself]
        omega
      · have hnone : [fd].count fd' = 0 := List.count_eq_zero.mpr (by simpa using hsame)
        rw [List.count_erase_of_ne hsame, List.map_singleton, hnone, Nat.add_zero]
    · exact hreceived ▸ List.prefix_rfl
    · intro _
      exact hreceived.symm

theorem answered_of_run (h : run EpollServer.step (start server_fd) as = some s) :
    Answered server_fd as s := by
  refine run_induction (I := fun as s => Answered server_fd as s) (answered_start server_fd) ?_ h
  intro as t a u _ ht ha
  cases a with
  | wait events =>
    have hpc : t.pc ≠ .undefined := by
      intro hundefined
      simp [EpollServer.step, hundefined] at ha
    obtain ⟨hnodup, hevents, rfl⟩ := wait_of_step ha
    exact ht.wait hnodup hevents hpc
  | accept client_fd =>
    obtain ⟨events, hpc, hnew, rfl⟩ := accept_of_step ha
    exact ht.accept hpc hnew
  | read message =>
    obtain ⟨fd, events, hpc, hclient, rfl⟩ := read_of_step ha
    exact ht.read hpc hclient

/-- **Every connection is answered once.** In every run, with descriptors that come back after
they were closed, the descriptor that is handled next is open and is not handled again in the
same round. Of every descriptor that `accept` has returned, each time was answered, but for the
last one when it is watched; and the answers are the replies to what was read, in order.
SOURCE: socket_program/linux/server.c:33-51 -/
theorem connections_answered_once (server_fd : ℤ) (as : List EpollServer.Action) (s : EpollServer)
    (h : run EpollServer.step (start server_fd) as = some s) :
    (∀ fd events, s.pc = .handling (fd :: events) → fd ∈ s.interest ∧ fd ∉ events) ∧
      (∀ fd, fd ≠ -1 → fd ≠ server_fd →
        as.count (.accept fd) = (s.sent.map Prod.fst).count fd + s.interest.count fd ∧
          s.interest.count fd ≤ 1) ∧
      s.sent <+: s.received.map (fun r => (r.1, reply)) ∧
      (s.pc ≠ .undefined → s.sent = s.received.map fun r => (r.1, reply)) := by
  have hs := answered_of_run h
  refine ⟨fun fd events hpc => ?_, fun fd hfail hfd => ?_, hs.replies, hs.all_replied⟩
  · obtain ⟨hnodup, hevents⟩ := hs.watching.events _ hpc
    exact ⟨hevents fd List.mem_cons_self, (List.nodup_cons.mp hnodup).1⟩
  · exact ⟨hs.balance fd hfail hfd, List.nodup_iff_count_le_one.mp hs.watching.nodup fd⟩

/-- The descriptor 5 is closed in the first part of a round, and accepted again in the second. -/
def sameDescriptor : List EpollServer.Action :=
  [.wait [3], .accept 5, .wait [5, 3], .read [97], .accept 5, .wait [5]]

theorem connections_answered_once_same :
    ∃ s, run EpollServer.step (start 3) sameDescriptor = some s ∧
      s.pc = .handling [5] ∧ s.sent = [(5, reply)] ∧
      sameDescriptor.count (.accept 5) =
        (s.sent.map Prod.fst).count 5 + s.interest.count 5 := by
  refine ⟨_, rfl, rfl, rfl, ?_⟩
  exact ((connections_answered_once 3 sameDescriptor _ rfl).2.1 5 (by decide) (by decide)).1

end GolangSandbox.Analysis
