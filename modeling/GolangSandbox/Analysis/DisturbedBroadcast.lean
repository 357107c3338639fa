import GolangSandbox.Analysis.BroadcastOnce
import GolangSandbox.Model.Bookkeeping

/-!
# What a disturbing removal leads to

A `remove` that `Disturbs` a running broadcast is never harmless: the run can go on
such that, when the broadcast is finished, some client that was registered all the
time was not written to exactly once. With the removed client behind the loop, the
next unread client moves behind it as well; its copy in the stale last cell is gone
as soon as a new client is accepted. With the removed client ahead, the last client
is met in the cell it moved to and again in the stale one.

Every started broadcast can be run to its end, because no cell it may read is nil
(`exists_finish`).
-/

set_option autoImplicit false

namespace GolangSandbox.Analysis

open GolangSandbox.Model GolangSandbox.Program GolangSandbox.Program.TcpChatServer

variable {μ : Type} {s t u : TcpChatServer μ} {k : ℕ}

/-! ## Finishing a loop -/

theorem deliveries_append (client : ClientId) (as bs : List (Action μ)) :
    deliveries k client (as ++ bs) = deliveries k client as + deliveries k client bs := by
  simp [deliveries, List.countP_append]

theorem deliveries_cons (client : ClientId) (a : Action μ) (as : List (Action μ)) :
    deliveries k client (a :: as) =
      (if isDelivery k client a then 1 else 0) + deliveries k client as := by
  rw [← List.singleton_append, deliveries_append]
  simp [deliveries, List.countP_singleton]

/-- A loop that is left alone writes to a client once for every cell ahead that shows it. -/
theorem exists_finish {n : ℕ} {b : Cast μ} {l : RangeLoop} (hs : RegistryInv s)
    (hb : s.casts[k]? = some b) (hl : b.loop = some l) (hn : l.header.len - l.pos = n) :
    ∃ as t b', run TcpChatServer.step s as = some t ∧ t.casts[k]? = some b' ∧ b'.Finished ∧
      t.registered = s.registered ∧ ∀ c, deliveries k c as =
        (List.range' l.pos n).countP fun q =>
          decide (cell s.arrays l.header.array q = some (some c)) := by
  induction n generalizing s b l with
  | zero => exact ⟨[], s, b, rfl, hb, ⟨l, hl, by omega⟩, rfl, fun _ => rfl⟩
  | succ n ih =>
    obtain ⟨-, hoff, hcell⟩ := hs.casts b (List.mem_of_getElem? hb) l hl
    obtain ⟨client, hclient⟩ := hcell l.pos (by omega)
    have hindex : l.header.index s.arrays l.pos = some (some client) := by
      rw [Slice.index, if_pos (by omega), hoff, Nat.zero_add, hclient]
    have hdel : s.deliver k client =
        some { s with casts := s.casts.set k { b with loop := some ⟨l.header, l.pos + 1⟩ } } :=
      deliver_eq_some.mpr ⟨b, l, hb, hl, hindex, rfl⟩
    have hstep := step_eq_some.mpr ⟨show s.Enabled (.deliver k client) from trivial, hdel⟩
    have hklt := (List.getElem?_eq_some_iff.mp hb).1
    obtain ⟨as, t, b', hrun, hb', hfin, hreg, hcount⟩ := ih (hs.step hstep)
      (List.getElem?_set_self hklt) (l := ⟨l.header, l.pos + 1⟩) rfl (by simp only; omega)
    refine ⟨.deliver k client :: as, t, b', run_cons_eq_some.mpr ⟨_, hstep, hrun⟩, hb', hfin,
      hreg, fun c => ?_⟩
    rw [deliveries_cons, hcount, List.range'_succ, List.countP_cons, hclient, Nat.add_comm]
    simp [isDelivery]

/-! ## The two ways to go wrong -/

/-- The clients that were registered earlier stand in front of the others. -/
theorem mem_registered_of_le {as : List (Action μ)} (h : run TcpChatServer.step s as = some t)
    (ht : RegistryInv t) {p i : ℕ} {c c' : ClientId} (hpi : p ≤ i)
    (hi : t.registered[i]? = some c) (hc : c ∈ s.registered)
    (hp : t.registered[p]? = some c') : c' ∈ s.registered := by
  obtain ⟨haccepted, hremoved⟩ := history_of_run h
  have hnodup := ht.nodup
  rw [haccepted, List.nodup_append] at hnodup
  rw [registered, haccepted, List.filter_append] at hi hp
  have hilt : i < (s.accepted.filter (· ∉ t.removed)).length := by
    by_contra hge
    rw [List.getElem?_append_right (by omega)] at hi
    have hnews := List.mem_of_mem_filter (List.mem_of_getElem? hi)
    exact hnodup.2.2 c (List.mem_of_mem_filter hc) c hnews rfl
  rw [List.getElem?_append_left (by omega)] at hp
  obtain ⟨hin, hout⟩ := List.mem_filter.mp (List.mem_of_getElem? hp)
  refine List.mem_filter.mpr ⟨hin, ?_⟩
  simp only [decide_eq_true_eq] at hout ⊢
  rw [hremoved] at hout
  exact fun hr => hout (List.mem_append_left _ hr)

/-- The removed client is behind the loop: the next unread client falls behind it too,
and accepting a client overwrites the copy in the stale last cell. -/
theorem skipped {olds : List ClientId} {as : List (Action μ)} {l : RangeLoop} {j : ℕ}
    {client c : ClientId} (h : Scanning olds k as s l) (hs : RegistryInv s)
    (hshare : s.clients.array = l.header.array) (hj : s.registered[j]? = some client)
    (hjp : j < l.pos) (hc : s.registered[l.pos]? = some c) (hco : c ∈ olds)
    (hen : s.Enabled (.remove client)) :
    ∃ as' t b, run TcpChatServer.step s (.remove client :: as') = some t ∧
      t.casts[k]? = some b ∧ b.Finished ∧ c ∈ t.registered ∧ deliveries k c (as ++ as') = 0 := by
  obtain ⟨t, ht, haccepted, hremoved, hcasts, harr, -, hcap, -, -, hcell, -⟩ := remove_spec hs hj
  have hstep : s.step (.remove client) = some t := step_eq_some.mpr ⟨hen, ht⟩
  have hti := hs.step hstep
  obtain ⟨fresh, hfresh⟩ := exists_fresh t.accepted
  have hstep' : t.step (.accept fresh 0) = some (t.accept fresh 0) :=
    step_eq_some.mpr ⟨hfresh, rfl⟩
  obtain ⟨b, hb, hl⟩ := h.here
  have hb' : (t.accept fresh 0).casts[k]? = some b := hcasts ▸ hb
  obtain ⟨as', u, b', hrun, hbu, hfin, hreg, hcount⟩ := exists_finish (hti.step hstep') hb' hl rfl
  have htreg := registered_remove hs hj haccepted hremoved
  have hne : fresh ≠ c := by
    rintro rfl
    exact hfresh (haccepted ▸ h.known fresh hco)
  obtain ⟨hplt, hx, -⟩ := cell_registered hs hc
  rw [hshare] at hx
  have hcr := List.mem_of_getElem? hc
  -- The loop has not met `c`, whose only cell ahead is the next one.
  have hzero : deliveries k c as = 0 := by
    obtain ⟨-, hlt⟩ | ⟨hd, -⟩ := h.placed hshare l.pos c hc hco
    · exact absurd hlt (Nat.lt_irrefl _)
    · exact hd
  have hnext : ∀ q, l.pos ≤ q → q < l.header.len →
      cell s.arrays l.header.array q = some (some c) → q = l.pos := by
    obtain ⟨hone, -⟩ | ⟨-, i, -, -, -, huniq⟩ := h.tracked c hco hcr
    · omega
    · intro q hpq hqn hq
      have hpn := huniq q hpq hqn hq
      have hpp := huniq l.pos (Nat.le_refl _) (by omega) hx
      omega
  have hlent : t.clients.len = s.clients.len - 1 := by
    rw [hti.len_eq, htreg, List.length_eraseIdx_of_lt (by rw [← hs.len_eq]; omega), hs.len_eq]
  have hroom : t.clients.len + 1 ≤ t.clients.cap := by
    have := s.clients.len_le_cap
    omega
  have hlast : ∀ q, l.pos ≤ q → q < l.header.len →
      cell (t.accept fresh 0).arrays l.header.array q ≠ some (some c) := by
    intro q hpq hqn
    rw [cell_accept hti fresh 0 (by rw [← hshare, ← harr]; exact hti.backed.array_lt)]
    split
    · simpa using hne
    · rename_i hq
      rw [harr, hshare] at hq
      rw [hcell]
      split
      · rename_i hjq
        intro hq'
        obtain ⟨-, -, huniq⟩ := cell_registered hs hc
        have := huniq (q + 1) (by omega) (by rw [hshare]; exact hq')
        omega
      · rename_i hjq
        intro hq'
        have hqp := hnext q hpq hqn hq'
        subst hqp
        exact hq ⟨hroom, rfl, by rw [hshare] at hjq; omega⟩
  refine ⟨.accept fresh 0 :: as', u, b', run_cons_eq_some.mpr ⟨_, hstep, run_cons_eq_some.mpr
    ⟨_, hstep', hrun⟩⟩, hbu, hfin, ?_, ?_⟩
  · rw [hreg, registered_accept hti 0 hfresh, htreg]
    refine List.mem_append_left _ (List.mem_of_getElem? (i := l.pos - 1) ?_)
    rw [List.getElem?_eraseIdx, if_neg (by omega), Nat.sub_add_cancel (by omega), hc]
  · rw [deliveries_append, deliveries_cons, hzero, hcount]
    simp only [isDelivery, Bool.false_eq_true, if_false, Nat.zero_add, List.countP_eq_zero]
    intro q hq
    obtain ⟨hlo, hhi⟩ := List.mem_range'_1.mp hq
    simpa using hlast q hlo (by omega)

/-- The removed client is ahead of the loop, and so is the last one: the loop meets the
last client in the cell it moved to and in the one it moved from. -/
theorem repeated {olds : List ClientId} {as : List (Action μ)} {l : RangeLoop} {i j : ℕ}
    {client c : ClientId} (h : Scanning olds k as s l) (hs : RegistryInv s)
    (hshare : s.clients.array = l.header.array) (hj : s.registered[j]? = some client)
    (hpj : l.pos ≤ j) (hji : j < i) (hi : i + 1 = s.registered.length)
    (hc : s.registered[i]? = some c) (hco : c ∈ olds) (hen : s.Enabled (.remove client)) :
    ∃ as' t b, run TcpChatServer.step s (.remove client :: as') = some t ∧
      t.casts[k]? = some b ∧ b.Finished ∧ c ∈ t.registered ∧ 2 ≤ deliveries k c (as ++ as') := by
  obtain ⟨t, ht, haccepted, hremoved, hcasts, -, -, -, -, -, hcell, -⟩ := remove_spec hs hj
  have hstep : s.step (.remove client) = some t := step_eq_some.mpr ⟨hen, ht⟩
  have hti := hs.step hstep
  obtain ⟨b, hb, hl⟩ := h.here
  have hbt : t.casts[k]? = some b := hcasts ▸ hb
  obtain ⟨as', u, b', hrun, hbu, hfin, hreg, hcount⟩ := exists_finish hti hbt hl rfl
  obtain ⟨hilt, hx, -⟩ := cell_registered hs hc
  rw [hshare] at hx
  have hlen := hs.len_eq
  have hin : i < l.header.len := by
    obtain ⟨-, hlt⟩ | ⟨-, -, hin⟩ := h.placed hshare i c hc hco
    · omega
    · exact hin
  have hmoved : cell t.arrays l.header.array (i - 1) = some (some c) := by
    rw [hcell, if_pos ⟨hshare.symm, by omega, by omega⟩, Nat.sub_add_cancel (by omega), hx]
  have hstale : cell t.arrays l.header.array i = some (some c) := by
    rw [hcell, if_neg (by omega), hx]
  refine ⟨as', u, b', run_cons_eq_some.mpr ⟨_, hstep, hrun⟩, hbu, hfin, ?_, ?_⟩
  · rw [hreg, registered_remove hs hj haccepted hremoved]
    refine List.mem_of_getElem? (i := i - 1) ?_
    rw [List.getElem?_eraseIdx, if_neg (by omega), Nat.sub_add_cancel (by omega), hc]
  · have hsub : [i - 1, i].Sublist (List.range' l.pos (l.header.len - l.pos)) :=
      pair_sublist_range' (by omega) (by omega)
    have htwo := hsub.countP_le (p := fun q =>
      decide (cell t.arrays l.header.array q = some (some c)))
    rw [deliveries_append, hcount]
    simp only [List.countP_cons, List.countP_nil, hmoved, hstale, decide_true, if_true] at htwo
    omega

/-- **The condition on removals is exact.** A `Broadcast` that ran undisturbed so far
and is now disturbed can end without having written to every client exactly once.
SOURCE: chatserver/server/tcp_server.go:55-60, 75-99 -/
theorem disturbs_breaks (as₁ as₂ : List (Action μ)) (s t : TcpChatServer μ) (k : ℕ)
    (client : ClientId) (h₁ : run TcpChatServer.step newServer as₁ = some s)
    (h₂ : run TcpChatServer.step s (.start k :: as₂) = some t)
    (hsafe : Along TcpChatServer.step (Undisturbed s.registered k) s (.start k :: as₂))
    (hen : t.Enabled (.remove client)) (hdist : Disturbs s.registered k t client) :
    ∃ as₃ u b, run TcpChatServer.step s (.start k :: as₂ ++ .remove client :: as₃) = some u ∧
      u.casts[k]? = some b ∧ b.Finished ∧
      ¬ DeliveredOnce k s (.start k :: as₂ ++ .remove client :: as₃) u := by
  obtain ⟨l, hscan⟩ := scanning_of_run h₁ h₂ hsafe
  have ht : RegistryInv t :=
    run_invariant (registryInv_of_run h₁) (fun _ _ _ hs ha => hs.step ha) h₂
  obtain ⟨b, l', j, i, hb, hl', hshare, hj, hji, hpi, ⟨c, hco, hi⟩, hcase⟩ := hdist
  obtain ⟨b', hb', hl⟩ := hscan.here
  rw [hb, Option.some.injEq] at hb'
  subst hb'
  rw [hl', Option.some.injEq] at hl
  subst hl
  have hremove : ∀ c' as', deliveries k c' (.start k :: as₂ ++ .remove client :: as') =
      deliveries k c' (.start k :: as₂ ++ as') := by
    intro c' as'
    rw [deliveries_append, deliveries_append, deliveries_cons c' (.remove client)]
    simp [isDelivery]
  by_cases hjp : j < l'.pos
  · have hilt := (List.getElem?_eq_some_iff.mp hi).1
    obtain ⟨c', hc'⟩ : ∃ c', t.registered[l'.pos]? = some c' :=
      ⟨_, List.getElem?_eq_getElem (by omega)⟩
    have hco' := mem_registered_of_le h₂ ht hpi hi hco hc'
    obtain ⟨as', u, b', hrun, hbu, hfin, hreg, hzero⟩ :=
      skipped hscan ht hshare hj hjp hc' hco' hen
    refine ⟨as', u, b', run_append_eq_some.mpr ⟨t, h₂, hrun⟩, hbu, hfin, fun hall => ?_⟩
    have hone := hall c' hco' hreg
    rw [hremove, hzero] at hone
    cases hone
  · have hlast := hcase.resolve_left hjp
    obtain ⟨as', u, b', hrun, hbu, hfin, hreg, htwo⟩ :=
      repeated hscan ht hshare hj (by omega) hji hlast hi hco hen
    refine ⟨as', u, b', run_append_eq_some.mpr ⟨t, h₂, hrun⟩, hbu, hfin, fun hall => ?_⟩
    have hone := hall c hco hreg
    rw [hremove] at hone
    omega

end GolangSandbox.Analysis
