import GolangSandbox.Program.Registry
import Mathlib.Data.List.Nodup
import Mathlib.Data.List.InsertIdx

/-!
# The registry invariant

After every step `s.clients` shows exactly the clients that were accepted and not
yet removed, each once and in acceptance order, and no `accept` or `remove` panics.
`remove` needs the list to be free of duplicates: only then does its loop, which
goes on behind the match, not meet the client a second time and slice out of bounds.

`RegistryInv` also records that the headers the running `Broadcast` loops captured
stay inside their arrays and never show a nil pointer.
-/

set_option autoImplicit false

namespace GolangSandbox.Analysis

open GolangSandbox.Model GolangSandbox.Program GolangSandbox.Program.TcpChatServer

variable {μ : Type} {s t : TcpChatServer μ}

/-- The clients that the `accept` steps of a run registered, in order. -/
def acceptedBy (as : List (Action μ)) : List ClientId :=
  as.filterMap fun
    | .accept client _ => some client
    | _ => none

/-- The clients that the `remove` steps of a run removed, in order. -/
def removedBy (as : List (Action μ)) : List ClientId :=
  as.filterMap fun
    | .remove client => some client
    | _ => none

/-- What every reachable registry satisfies. -/
structure RegistryInv (s : TcpChatServer μ) : Prop where
  nodup : s.accepted.Nodup
  removed_sub : ∀ c ∈ s.removed, c ∈ s.accepted
  backed : s.clients.Backed s.arrays
  off : s.clients.off = 0
  contents : s.clients.contents s.arrays = s.registered.map some
  casts : ∀ b ∈ s.casts, ∀ l, b.loop = some l →
    l.header.Backed s.arrays ∧ l.header.off = 0 ∧
      ∀ i < l.header.len, ∃ c, cell s.arrays l.header.array i = some (some c)

namespace RegistryInv

theorem registered_nodup (hs : RegistryInv s) : s.registered.Nodup := hs.nodup.filter _

theorem len_eq (hs : RegistryInv s) : s.clients.len = s.registered.length := by
  rw [← Slice.length_contents hs.backed, hs.contents, List.length_map]

/-- The cells in front of the length of `s.clients` are the registered clients. -/
theorem cell_eq (hs : RegistryInv s) {i : ℕ} (hi : i < s.clients.len) :
    cell s.arrays s.clients.array i = s.registered[i]?.map some := by
  have h := Slice.getElem?_contents s.clients s.arrays i
  rw [hs.contents, List.getElem?_map, Slice.index, if_pos hi, hs.off, Nat.zero_add] at h
  exact h.symm

theorem newServer : RegistryInv (TcpChatServer.newServer : TcpChatServer μ) where
  nodup := List.nodup_nil
  removed_sub := by simp [TcpChatServer.newServer]
  backed := ⟨[], rfl, Nat.le_refl 0⟩
  off := rfl
  contents := rfl
  casts := by simp [TcpChatServer.newServer]

end RegistryInv

/-! ## Accepting -/

theorem registered_accept (hs : RegistryInv s) {client : ClientId} (extra : ℕ)
    (hc : client ∉ s.accepted) :
    (s.accept client extra).registered = s.registered ++ [client] := by
  have hr : client ∉ s.removed := fun h => hc (hs.removed_sub client h)
  unfold registered accept
  rw [List.filter_append, List.filter_cons_of_pos (by simpa using hr), List.filter_nil]

/-- Appending a client changes no array that another header reads, except for the
one cell behind the last client when there is room for it. -/
theorem cell_accept (hs : RegistryInv s) (client : ClientId) (extra : ℕ) {a : ℕ}
    (ha : a < s.arrays.length) (i : ℕ) :
    cell (s.accept client extra).arrays a i =
      if s.clients.len + 1 ≤ s.clients.cap ∧ a = s.clients.array ∧ i = s.clients.len then
        some (some client)
      else cell s.arrays a i := by
  by_cases fits : s.clients.len + 1 ≤ s.clients.cap
  · have hfits : s.clients.len + [some client].length ≤ s.clients.cap := fits
    simp only [accept, Slice.cell_append_of_fits hs.backed hfits, hs.off, Nat.zero_add,
      List.length_singleton, fits, true_and]
    by_cases hi : a = s.clients.array ∧ i = s.clients.len
    · obtain ⟨rfl, rfl⟩ := hi
      simp
    · rw [if_neg hi, if_neg (by omega)]
  · have hgrows : ¬ s.clients.len + [some client].length ≤ s.clients.cap := fits
    simp only [accept, Slice.cell_append_of_grows hgrows ha, fits, false_and, if_false]

theorem RegistryInv.accept (hs : RegistryInv s) {client : ClientId} (extra : ℕ)
    (hc : client ∉ s.accepted) : RegistryInv (s.accept client extra) where
  nodup := by
    have := hs.nodup
    simp only [TcpChatServer.accept]
    rw [List.nodup_append]
    refine ⟨this, List.nodup_singleton _, ?_⟩
    rintro a ha b hb rfl
    rw [List.mem_singleton] at hb
    exact hc (hb ▸ ha)
  removed_sub := fun c h => List.mem_append_left _ (hs.removed_sub c h)
  backed := Slice.backed_append hs.backed
  off := by
    by_cases fits : s.clients.len + [some client].length ≤ s.clients.cap
    · exact (Slice.off_append_of_fits fits).trans hs.off
    · exact Slice.off_append_of_grows fits
  contents := by
    rw [registered_accept hs extra hc]
    exact (Slice.contents_append hs.backed).trans (by rw [hs.contents]; simp)
  casts := by
    intro b hb l hl
    obtain ⟨hback, hoff, hcell⟩ := hs.casts b hb l hl
    refine ⟨hback.mono (Slice.extends_append hs.backed), hoff, fun i hi => ?_⟩
    rw [cell_accept hs client extra hback.array_lt]
    split
    · exact ⟨client, rfl⟩
    · exact hcell i hi

/-! ## Removing -/

/-- **What `remove` does to a registered client**: it does not panic, it deletes the
index of the client, and it moves the clients behind it down in place. -/
theorem remove_spec (hs : RegistryInv s) {client : ClientId} {j : ℕ}
    (hj : s.registered[j]? = some client) :
    ∃ t, s.remove client = some t ∧
      t.accepted = s.accepted ∧ t.removed = s.removed ++ [client] ∧ t.casts = s.casts ∧
      t.clients.array = s.clients.array ∧ t.clients.off = 0 ∧
      t.clients.cap = s.clients.cap ∧ t.clients.Backed t.arrays ∧
      Extends s.arrays t.arrays ∧
      (∀ a i, cell t.arrays a i =
        if a = s.clients.array ∧ j ≤ i ∧ i < s.clients.len - 1 then cell s.arrays a (i + 1)
        else cell s.arrays a i) ∧
      t.clients.contents t.arrays = (s.registered.eraseIdx j).map some := by
  have hlt : j < s.clients.len := by
    rw [hs.len_eq]
    exact (List.getElem?_eq_some_iff.mp hj).1
  obtain ⟨arrays, clients, hdel, harr, hoff, -, hcap, hback, hext, hcell, hcont⟩ :=
    Slice.deleteAt_spec hs.backed hlt
  have hloop := foldlM_removeIter hs.backed hs.contents hs.registered_nodup hj
  refine ⟨{ s with arrays := arrays, clients := clients, removed := s.removed ++ [client] },
    ?_, rfl, rfl, rfl, harr, hoff.trans hs.off, hcap, hback, hext, ?_, ?_⟩
  · rw [remove, hloop, hdel, Option.map_some]
  · simpa only [hs.off, Nat.zero_add] using hcell
  · rw [hcont, hs.contents, List.eraseIdx_map]

/-- An enabled `remove` is about a registered client. -/
theorem exists_registered {client : ClientId} (h : s.Enabled (.remove client)) :
    ∃ j : ℕ, s.registered[j]? = some client := by
  obtain ⟨ha, hr⟩ : client ∈ s.accepted ∧ client ∉ s.removed := h
  apply List.mem_iff_getElem?.mp
  exact List.mem_filter.mpr ⟨ha, by simpa using hr⟩

theorem registered_remove (hs : RegistryInv s) {client : ClientId} {j : ℕ}
    (hj : s.registered[j]? = some client) (haccepted : t.accepted = s.accepted)
    (hremoved : t.removed = s.removed ++ [client]) :
    t.registered = s.registered.eraseIdx j := by
  have hlt := (List.getElem?_eq_some_iff.mp hj).1
  have hget : s.registered[j] = client := (List.getElem?_eq_some_iff.mp hj).2
  have herase : s.registered.erase client = s.registered.eraseIdx j := by
    rw [← hget, List.Nodup.erase_getElem hs.registered_nodup]
  rw [← herase, List.Nodup.erase_eq_filter hs.registered_nodup]
  unfold registered
  rw [haccepted, hremoved, List.filter_filter]
  apply List.filter_congr
  intro c _
  rw [Bool.eq_iff_iff]
  simp [and_comm]

theorem RegistryInv.remove (hs : RegistryInv s) {client : ClientId}
    (hen : s.Enabled (.remove client)) (h : s.remove client = some t) : RegistryInv t := by
  obtain ⟨j, hj⟩ := exists_registered hen
  obtain ⟨u, hu, haccepted, hremoved, hcasts, harr, hoff, hcap, hback, hext, hcell, hcont⟩ :=
    remove_spec hs hj
  rw [hu, Option.some.injEq] at h
  subst h
  refine ⟨haccepted ▸ hs.nodup, ?_, hback, hoff, ?_, ?_⟩
  · intro c hc
    rw [hremoved, List.mem_append, List.mem_singleton] at hc
    rw [haccepted]
    obtain hc | rfl := hc
    · exact hs.removed_sub c hc
    · exact hen.1
  · rw [hcont, registered_remove hs hj haccepted hremoved]
  · intro b hb l hl
    rw [hcasts] at hb
    obtain ⟨hrb, hro, hrc⟩ := hs.casts b hb l hl
    refine ⟨hrb.mono hext, hro, fun i hi => ?_⟩
    rw [hcell]
    split
    · -- The element that moved down is a registered client.
      rename_i hi'
      have hlt : i + 1 < s.clients.len := by omega
      rw [hi'.1, hs.cell_eq hlt]
      rw [hs.len_eq] at hlt
      exact ⟨_, by rw [List.getElem?_eq_getElem hlt, Option.map_some]⟩
    · exact hrc i hi

/-! ## Every step keeps the invariant -/

/-- **The step lemma.** -/
theorem RegistryInv.step (hs : RegistryInv s) {a : Action μ} (h : s.step a = some t) :
    RegistryInv t := by
  obtain ⟨hen, hex⟩ := step_eq_some.mp h
  cases a with
  | accept client extra =>
    rw [exec, Option.some.injEq] at hex
    exact hex ▸ hs.accept extra hen
  | remove client => exact hs.remove hen hex
  | broadcast command =>
    rw [exec, Option.some.injEq] at hex
    subst hex
    refine ⟨hs.nodup, hs.removed_sub, hs.backed, hs.off, hs.contents, ?_⟩
    intro b hb l hl
    rw [List.mem_append, List.mem_singleton] at hb
    obtain hb | rfl := hb
    · exact hs.casts b hb l hl
    · cases hl
  | start k =>
    obtain ⟨b, hb, -, rfl⟩ := start_eq_some.mp hex
    refine ⟨hs.nodup, hs.removed_sub, hs.backed, hs.off, hs.contents, ?_⟩
    intro x hx l hl
    obtain hx | rfl := List.mem_or_eq_of_mem_set hx
    · exact hs.casts x hx l hl
    · rw [Option.some.injEq] at hl
      subst hl
      refine ⟨hs.backed, hs.off, fun i hi => ?_⟩
      rw [hs.cell_eq hi]
      rw [hs.len_eq] at hi
      exact ⟨_, by rw [List.getElem?_eq_getElem hi, Option.map_some]⟩
  | deliver k client =>
    obtain ⟨b, l', hb, hl', -, rfl⟩ := deliver_eq_some.mp hex
    refine ⟨hs.nodup, hs.removed_sub, hs.backed, hs.off, hs.contents, ?_⟩
    intro x hx l hl
    obtain hx | rfl := List.mem_or_eq_of_mem_set hx
    · exact hs.casts x hx l hl
    · rw [Option.some.injEq] at hl
      subst hl
      exact hs.casts b (List.mem_of_getElem? hb) l' hl'

theorem registryInv_of_run {as : List (Action μ)}
    (h : run TcpChatServer.step newServer as = some s) : RegistryInv s :=
  run_invariant RegistryInv.newServer (fun _ _ _ hs ha => hs.step ha) h

theorem history_step {a : Action μ} (h : s.step a = some t) :
    t.accepted = s.accepted ++ acceptedBy [a] ∧ t.removed = s.removed ++ removedBy [a] := by
  obtain ⟨-, hex⟩ := step_eq_some.mp h
  cases a with
  | accept client extra =>
    rw [exec, Option.some.injEq] at hex
    subst hex
    exact ⟨rfl, (List.append_nil _).symm⟩
  | remove client =>
    obtain ⟨p, -, rfl⟩ := Option.map_eq_some_iff.mp hex
    exact ⟨(List.append_nil _).symm, rfl⟩
  | broadcast command =>
    rw [exec, Option.some.injEq] at hex
    subst hex
    exact ⟨(List.append_nil _).symm, (List.append_nil _).symm⟩
  | start k =>
    obtain ⟨b, -, -, rfl⟩ := start_eq_some.mp hex
    exact ⟨(List.append_nil _).symm, (List.append_nil _).symm⟩
  | deliver k client =>
    obtain ⟨b, l, -, -, -, rfl⟩ := deliver_eq_some.mp hex
    exact ⟨(List.append_nil _).symm, (List.append_nil _).symm⟩

/-- The server remembers who was accepted and who was removed. -/
theorem history_of_run {as : List (Action μ)} (h : run TcpChatServer.step s as = some t) :
    t.accepted = s.accepted ++ acceptedBy as ∧ t.removed = s.removed ++ removedBy as := by
  refine run_induction (I := fun as (t : TcpChatServer μ) =>
    t.accepted = s.accepted ++ acceptedBy as ∧ t.removed = s.removed ++ removedBy as)
    ⟨(List.append_nil _).symm, (List.append_nil _).symm⟩ ?_ h
  rintro as t a u - ⟨ha, hr⟩ hstep
  obtain ⟨ha', hr'⟩ := history_step hstep
  rw [ha', hr', ha, hr, List.append_assoc, List.append_assoc]
  simp only [acceptedBy, removedBy, ← List.filterMap_append, and_self]

/-- **The registry invariant.** After every run `s.clients` shows exactly the clients
accepted and not yet removed, each once, in acceptance order, and neither `accept`
nor `remove` panics there.
SOURCE: chatserver/server/tcp_server.go:75-99 -/
theorem registry_invariant (as : List (Action μ)) (s : TcpChatServer μ)
    (h : run TcpChatServer.step newServer as = some s) :
    s.clients.contents s.arrays = ((acceptedBy as).filter (· ∉ removedBy as)).map some ∧
      (acceptedBy as).Nodup ∧
      (∀ client extra, s.Enabled (.accept client extra) →
        (s.exec (.accept client extra)).isSome) ∧
      ∀ client, s.Enabled (.remove client) → (s.exec (.remove client)).isSome := by
  have hs := registryInv_of_run h
  obtain ⟨ha, hr⟩ : s.accepted = acceptedBy as ∧ s.removed = removedBy as := history_of_run h
  refine ⟨?_, ha ▸ hs.nodup, fun _ _ _ => rfl, fun client hen => ?_⟩
  · rw [hs.contents, registered, ha, hr]
  · obtain ⟨j, hj⟩ := exists_registered hen
    obtain ⟨t, ht, -⟩ := remove_spec hs hj
    rw [exec, ht, Option.isSome_some]

/-- Three clients, of which the first leaves: the array was reallocated twice, and the
stale last cell is not met. -/
theorem registry_invariant_three :
    ∃ s : TcpChatServer Unit,
      run TcpChatServer.step newServer
        [.accept 1 0, .accept 2 0, .accept 3 1, .remove 1] = some s ∧
      s.clients.contents s.arrays = [some 2, some 3] := by
  refine ⟨_, rfl, ?_⟩
  exact (registry_invariant (μ := Unit)
    [.accept 1 0, .accept 2 0, .accept 3 1, .remove 1] _ rfl).1

end GolangSandbox.Analysis
