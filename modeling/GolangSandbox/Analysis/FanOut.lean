import GolangSandbox.Analysis.NoInjection
import GolangSandbox.Model.Bookkeeping

/-!
# Fan-out to a fixed set of receivers

When nobody joins or leaves, the array every `Broadcast` reads does not change, and a
broadcast that stands at index `pos` has been written to exactly the receivers in
front of `pos`, once each (`FanOut.visited`). So no receiver is written a broadcast
twice, and when all broadcasts are finished every receiver has been written every one
of them, in an order that depends on the schedule.
-/

set_option autoImplicit false

namespace GolangSandbox.Analysis

open GolangSandbox.Model GolangSandbox.Program GolangSandbox.Interface
open GolangSandbox.Program.ChatRoom

variable {s₀ s t : ChatRoom} {r : ClientId}

/-- Only clients join. -/
def Joins (a : ChatRoom.Action) : Prop := ∃ client extra, a = .accept client extra

/-- Nobody joins or leaves. -/
def Steady : ChatRoom.Action → Prop
  | .accept _ _ | .remove _ => False
  | _ => True

/-- How often a broadcast has been written to the receiver at index `i`. -/
def visits (b : Cast Relay) (i : ℕ) : ℕ :=
  match b.loop with
  | none => 0
  | some l => if i < l.pos then 1 else 0

/-- The room since the clients of `s₀` have joined. -/
structure FanOut (s₀ s : ChatRoom) : Prop where
  arrays : s.server.arrays = s₀.server.arrays
  clients : s.server.clients = s₀.server.clients
  accepted : s.server.accepted = s₀.server.accepted
  removed : s.server.removed = []
  header : ∀ b ∈ s.server.casts, ∀ l, b.loop = some l → l.header = s₀.server.clients
  bound : ∀ r, ∀ k ∈ (s.sessions r).written, k < s.server.casts.length
  visited : ∀ (k : ℕ) (b : Cast Relay), s.server.casts[k]? = some b →
    ∀ (i : ℕ) (r : ClientId), s₀.server.registered[i]? = some r →
      (s.sessions r).written.count k = visits b i

/-! ## The step lemma -/

/-- Only a broadcast writes to a client. -/
theorem written_step {a : ChatRoom.Action} (h : s.step a = some t)
    (ha : ∀ k client, a ≠ .deliver k client) (r : ClientId) :
    (t.sessions r).written = (s.sessions r).written := by
  by_cases hpull : ∃ client, a = .pull client
  · obtain ⟨client, rfl⟩ := hpull
    exact (serverEnd_pull (step_eq_some.mp h).2 r).2
  · exact congrArg Prod.fst (clientEnd_step h ha (fun client hc => hpull ⟨client, hc⟩) r)

theorem FanOut.congr (h : FanOut s₀ s) (hserver : t.server = s.server)
    (hwritten : ∀ r, (t.sessions r).written = (s.sessions r).written) : FanOut s₀ t := by
  obtain ⟨harrays, hclients, haccepted, hremoved, hheader, hbound, hvisited⟩ := h
  rw [← hserver] at harrays hclients haccepted hremoved hheader hbound hvisited
  refine ⟨harrays, hclients, haccepted, hremoved, hheader, fun r => ?_, fun k b hb i r hi => ?_⟩
  · rw [hwritten]
    exact hbound r
  · rw [hwritten]
    exact hvisited k b hb i r hi

/-- A broadcast that is spawned has not been written to anybody. -/
theorem FanOut.spawn (h : FanOut s₀ s) (client : ClientId) (m : Option MessageCommand) :
    FanOut s₀ (s.spawn client m) := by
  cases m with
  | none => exact h
  | some m =>
    refine ⟨h.arrays, h.clients, h.accepted, h.removed, ?_, ?_, ?_⟩
    · intro b hb l hl
      rw [ChatRoom.spawn, List.mem_append, List.mem_singleton] at hb
      obtain hb | rfl := hb
      · exact h.header b hb l hl
      · cases hl
    · intro r k hk
      have hlt : k < s.server.casts.length := h.bound r k hk
      rw [ChatRoom.spawn, List.length_append]
      omega
    · intro k b hb i r hi
      rw [ChatRoom.spawn] at hb
      simp only [List.getElem?_append, List.getElem?_singleton] at hb
      split at hb
      · exact h.visited k b hb i r hi
      · rename_i hk
        split at hb
        · rw [Option.some.injEq] at hb
          subst hb
          rw [show visits _ i = 0 from rfl, List.count_eq_zero]
          exact fun hmem => hk (h.bound r k hmem)
        · cases hb

/-- A broadcast reaches its loop. -/
theorem FanOut.start (h : FanOut s₀ s) {k : ℕ} {server : TcpChatServer Relay}
    (hstart : s.server.start k = some server) : FanOut s₀ { s with server := server } := by
  obtain ⟨x, hx, hnone, rfl⟩ := TcpChatServer.start_eq_some.mp hstart
  refine ⟨h.arrays, h.clients, h.accepted, h.removed, ?_, ?_, ?_⟩
  · intro b hb l hl
    obtain hb | rfl := List.mem_or_eq_of_mem_set hb
    · exact h.header b hb l hl
    · rw [Option.some.injEq] at hl
      rw [← hl, h.clients]
  · intro r k' hk'
    rw [List.length_set]
    exact h.bound r k' hk'
  · intro k' b hb i r hi
    rw [List.getElem?_set] at hb
    split at hb
    · rename_i hkk
      subst hkk
      split at hb
      · rw [Option.some.injEq] at hb
        subst hb
        rw [h.visited k x hx i r hi, visits, hnone]
        rfl
      · cases hb
    · exact h.visited k' b hb i r hi

/-- An iteration writes to the receiver at the index of the loop. -/
theorem FanOut.deliver (h : FanOut s₀ s) (h₀ : RegistryInv s₀.server) {k : ℕ} {c : ClientId}
    {server : TcpChatServer Relay} (hdel : s.server.deliver k c = some server)
    {command : MessageCommand} :
    FanOut s₀ (({ s with server := server } : ChatRoom).put c k command) := by
  obtain ⟨x, l, hx, hl, hindex, rfl⟩ := TcpChatServer.deliver_eq_some.mp hdel
  have hheader := h.header x (List.mem_of_getElem? hx) l hl
  have hpos : s₀.server.registered[l.pos]? = some c := by
    rw [hheader, h.arrays, ← Slice.getElem?_contents, h₀.contents, List.getElem?_map,
      Option.map_eq_some_iff] at hindex
    obtain ⟨c', hc', hcc⟩ := hindex
    rwa [Option.some.inj hcc] at hc'
  have hklt := (List.getElem?_eq_some_iff.mp hx).1
  rw [ChatRoom.put, if_neg (by simp [h.removed])]
  refine ⟨h.arrays, h.clients, h.accepted, h.removed, ?_, ?_, ?_⟩
  · intro b hb l' hl'
    obtain hb | rfl := List.mem_or_eq_of_mem_set hb
    · exact h.header b hb l' hl'
    · rw [Option.some.injEq] at hl'
      rw [← hl', hheader]
  · intro r k' hk'
    rw [server_modify, List.length_set]
    by_cases hr : r = c
    · subst hr
      rw [sessions_modify_self, wire, List.mem_append, List.mem_singleton] at hk'
      obtain hk' | rfl := hk'
      · exact h.bound r k' hk'
      · exact hklt
    · rw [sessions_modify_of_ne hr] at hk'
      exact h.bound r k' hk'
  · intro k' b hb i r hi
    rw [server_modify, List.getElem?_set] at hb
    -- The receiver of this iteration is the one at the index of the loop.
    have hri : r = c ↔ i = l.pos := by
      constructor
      · rintro rfl
        exact (List.getElem?_inj (List.getElem?_eq_some_iff.mp hi).1 h₀.registered_nodup).mp
          (hi.trans hpos.symm)
      · rintro rfl
        rw [hi, Option.some.injEq] at hpos
        exact hpos
    split at hb
    · rename_i hkk
      subst hkk
      rw [Option.some.injEq] at hb
      subst hb
      have hold : (s.sessions r).written.count k = if i < l.pos then 1 else 0 := by
        rw [h.visited k x hx i r hi, visits, hl]
      show _ = if i < l.pos + 1 then 1 else 0
      by_cases hr : r = c
      · have hil := hri.mp hr
        subst hr
        rw [sessions_modify_self, wire, List.count_append, hold, List.count_singleton_self]
        simp [hil]
      · have hil : i ≠ l.pos := fun hil => hr (hri.mpr hil)
        rw [sessions_modify_of_ne hr, hold]
        split_ifs <;> omega
    · rename_i hkk
      have hold := h.visited k' b hb i r hi
      by_cases hr : r = c
      · subst hr
        rw [sessions_modify_self, wire, List.count_append, hold,
          List.count_eq_zero.mpr (by simpa using Ne.symm hkk), Nat.add_zero]
      · rw [sessions_modify_of_ne hr]
        exact hold

/-- The step lemma of the fan-out. -/
theorem FanOut.step (h : FanOut s₀ s) (h₀ : RegistryInv s₀.server) {a : ChatRoom.Action}
    (hsteady : Steady a) (ha : s.step a = some t) : FanOut s₀ t := by
  cases effect_of_step ha with
  | registry hreg hserver =>
    cases a with
    | start k =>
      obtain rfl := Option.some.inj hreg
      exact h.start (TcpChatServer.step_eq_some.mp hserver).2
    | accept client extra => exact hsteady.elim
    | remove client => exact hsteady.elim
    | _ => cases hreg
  | sent hsent =>
    refine h.congr rfl (written_step ha ?_)
    rintro k client rfl
    cases hsent
  | close => exact h.congr rfl (written_step ha (by simp))
  | serve _ hserve =>
    have hwritten := written_step ha (by simp)
    obtain ⟨cmd, rest, -, -, rfl⟩ | ⟨tok, rest, -, -, -, rfl⟩ | ⟨-, -, rfl⟩ := serve_cases hserve
    · refine (h.spawn _ _).congr (server_modify _) fun r => ?_
      rw [hwritten, sessions_spawn]
    · exact h.congr (server_modify _) hwritten
    · exact h.congr (server_modify _) hwritten
  | deliver hserver hb => exact h.deliver h₀ (TcpChatServer.step_eq_some.mp hserver).2
  | pull hpull =>
    refine h.congr ?_ (written_step ha (by simp))
    obtain ⟨cmd, rest, -, -, rfl⟩ | ⟨tok, rest, -, -, -, rfl⟩ | ⟨-, -, rfl⟩ := pull_cases hpull
    all_goals exact server_modify _

/-! ## Runs -/

/-- When clients have joined and nothing else has happened, there is no broadcast yet. -/
theorem joined_of_run {joins : List ChatRoom.Action} (hjoins : ∀ a ∈ joins, Joins a)
    (h : run ChatRoom.step newRoom joins = some s) :
    s.server.casts = [] ∧ s.server.removed = [] ∧ s.sessions = newRoom.sessions := by
  refine run_induction_along (I := fun _ (s : ChatRoom) =>
    s.server.casts = [] ∧ s.server.removed = [] ∧ s.sessions = newRoom.sessions)
    ⟨rfl, rfl, rfl⟩ ?_ h (along_of_forall hjoins _)
  rintro as s a t - hs ⟨client, extra, rfl⟩ ha
  obtain ⟨-, hex⟩ := step_eq_some.mp ha
  obtain ⟨server, hserver, rfl⟩ := Option.map_eq_some_iff.mp hex
  obtain ⟨-, haccept⟩ := TcpChatServer.step_eq_some.mp hserver
  rw [TcpChatServer.exec, Option.some.injEq] at haccept
  subst haccept
  exact hs

theorem fanOut_of_run {joins as : List ChatRoom.Action} (hjoins : ∀ a ∈ joins, Joins a)
    (h₀ : run ChatRoom.step newRoom joins = some s₀) (hsteady : ∀ a ∈ as, Steady a)
    (h : run ChatRoom.step s₀ as = some s) : FanOut s₀ s := by
  obtain ⟨hcasts, hremoved, hsessions⟩ := joined_of_run hjoins h₀
  have hinv := registryInv_of_room h₀
  refine run_induction_along (I := fun _ s => FanOut s₀ s) ?_ ?_ h (along_of_forall hsteady _)
  · refine ⟨rfl, rfl, rfl, hremoved, ?_, ?_, ?_⟩
    · simp [hcasts]
    · simp [hsessions, newRoom, Session.new]
    · simp [hcasts]
  · intro as s a t _ hs ha hstep
    exact hs.step hinv ha hstep

/-! ## What a receiver has been written -/

/-- **No broadcast is written to a receiver twice.** -/
theorem FanOut.nodup_written (h : FanOut s₀ s) (hr : r ∈ s₀.server.registered) :
    (s.sessions r).written.Nodup := by
  obtain ⟨i, hi⟩ := List.mem_iff_getElem?.mp hr
  rw [List.nodup_iff_count_le_one]
  intro k
  by_cases hk : k < s.server.casts.length
  · rw [h.visited k _ (List.getElem?_eq_getElem hk) i r hi, visits]
    split
    · omega
    · split <;> omega
  · rw [List.count_eq_zero.mpr fun hmem => hk (h.bound r k hmem)]
    omega

/-- **Every finished broadcast has been written to every receiver.** -/
theorem FanOut.mem_written (h : FanOut s₀ s) (h₀ : RegistryInv s₀.server)
    (hr : r ∈ s₀.server.registered) {k : ℕ} {b : Cast Relay} (hb : s.server.casts[k]? = some b)
    (hfin : b.Finished) : k ∈ (s.sessions r).written := by
  obtain ⟨i, hi⟩ := List.mem_iff_getElem?.mp hr
  obtain ⟨l, hl, hlen⟩ := hfin
  have hilt := (List.getElem?_eq_some_iff.mp hi).1
  rw [h.header b (List.mem_of_getElem? hb) l hl, h₀.len_eq] at hlen
  have hone : (s.sessions r).written.count k = 1 := by
    rw [h.visited k b hb i r hi, visits, hl]
    exact if_pos (by omega)
  apply List.count_pos_iff.mp
  omega

/-- When all broadcasts are finished, a receiver has been written all of them. -/
theorem FanOut.writtenTo_perm (h : FanOut s₀ s) (h₀ : RegistryInv s₀.server)
    (hr : r ∈ s₀.server.registered) (hfin : ∀ b ∈ s.server.casts, b.Finished) :
    (s.writtenTo r).Perm s.relays := by
  have hperm : (s.sessions r).written.Perm (List.range s.relays.length) := by
    rw [List.perm_ext_iff_of_nodup (h.nodup_written hr) List.nodup_range]
    intro k
    rw [List.mem_range, relays, List.length_map]
    refine ⟨h.bound r k, fun hk => ?_⟩
    have hget := List.getElem?_eq_getElem hk
    exact h.mem_written h₀ hr hget (hfin _ (List.mem_of_getElem? hget))
  have := hperm.filterMap fun k => s.relays[k]?
  rwa [filterMap_getElem?_range] at this

end GolangSandbox.Analysis
