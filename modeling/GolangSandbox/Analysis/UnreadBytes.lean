import GolangSandbox.Analysis.ReadyClients

/-!
# Bytes that are read and not echoed

`check_client` reads a line through a copy of the client's buffer. The first read of a pass
takes in what the socket holds, up to the size of the buffer; the line is echoed, and what
comes after it in the copy is gone with the copy. The buffer in the pool stays empty
(`Valid.clientrio`). The other way to lose bytes is to close a client that is not ready.

So a pass keeps everything if each visited client that is ready has one line to read and
each other visited client has nothing in its socket (`TakesAll`). Where it is not so, some
bytes are counted as received and never found again (`Short`), which no later round
repairs.
-/

set_option autoImplicit false

namespace GolangSandbox.Analysis

open GolangSandbox.Model GolangSandbox.Program GolangSandbox.Program.Server

variable {FD_SETSIZE : ℕ} {s t u : Server} {i j n : ℕ} {fd : ℤ} {readlineb : Readlineb}
  {c c' : Connection}

/-- For every client, what was echoed and what is held unread for it, in its buffer and in
its socket, is what was received. For a closed client nothing is held. -/
def Kept (s : Server) : Prop :=
  (∀ i c, s.connections (s.pool.clientfd i) = some c →
    c.echoed ++ ((s.pool.clientrio i).unread ++ c.inbound) = c.received) ∧
  ∀ c ∈ s.closed, c.echoed = c.received

/-- The same without the buffers, which are empty. -/
structure AllKept (s : Server) : Prop where
  connections : ∀ fd c, s.connections fd = some c → c.echoed ++ c.inbound = c.received
  closed : ∀ c ∈ s.closed, c.echoed = c.received

/-- The buffer of a slot with a connection is empty. -/
theorem Valid.unread_eq_nil (h : Valid FD_SETSIZE s)
    (hc : s.connections (s.pool.clientfd i) = some c) :
    (s.pool.clientrio i).unread = [] := by
  rw [h.clientrio i (h.hasSlot hc).1]
  rfl

theorem Valid.kept_iff (h : Valid FD_SETSIZE s) : Kept s ↔ AllKept s := by
  constructor
  · rintro ⟨hopen, hclosed⟩
    refine ⟨fun fd c hc => ?_, hclosed⟩
    obtain ⟨-, i, rfl⟩ := h.hasSlot hc
    have hkept := hopen i c hc
    rwa [h.unread_eq_nil hc, List.nil_append] at hkept
  · rintro ⟨hopen, hclosed⟩
    refine ⟨fun i c hc => ?_, hclosed⟩
    rw [h.unread_eq_nil hc, List.nil_append]
    exact hopen _ c hc

/-! ## Rounds that keep everything -/

/-- What a visited client must have for its visit to keep everything. -/
def Harmless (s : Server) (i : ℕ) (c : Connection) : Prop :=
  if s.Positive i then firstLine c.inbound = c.inbound else c.inbound = []

/-- When `main` calls `check_clients`, each visited ready client has at most one line to
read, and each other visited client nothing. -/
def TakesAll (FD_SETSIZE : ℕ) (s : Server) (p : Pass) : Prop :=
  ∀ t, s.prepare FD_SETSIZE p = .ok t → ∀ i c, Visited t i →
    t.connections (t.pool.clientfd i) = some c → Harmless t i c

theorem allKept_newServer (listenfd : ℕ) : AllKept (newServer listenfd) where
  connections := by
    intro fd c hc
    cases hc
  closed := by
    intro c hc
    cases hc

/-- What an update of the connections leads to. -/
theorem update_eq_some {f : ℤ → Option Connection} {x : Option Connection} {fd' : ℤ}
    (h : Function.update f fd x fd' = some c) : x = some c ∧ fd' = fd ∨ f fd' = some c := by
  rw [Function.update_apply] at h
  split at h
  · rename_i heq
    exact .inl ⟨h, heq⟩
  · exact .inr h

theorem AllKept.prepare {p : Pass} (h : AllKept s) (ht : s.prepare FD_SETSIZE p = .ok t) :
    AllKept t := by
  have hdeliver : AllKept ((s.deliver p.arrivals).select p.ready) := by
    refine ⟨fun fd c hc => ?_, h.closed⟩
    obtain ⟨c', hc', rfl⟩ := Option.map_eq_some_iff.mp hc
    simp only [← h.connections fd c' hc', List.append_assoc]
  obtain ⟨-, rfl⟩ | ⟨-, i, -, -, -, rfl⟩ := accept_ok ht
  · exact hdeliver
  · refine ⟨fun fd c hc => ?_, h.closed⟩
    obtain ⟨hfresh, -⟩ | hold := update_eq_some hc
    · cases hfresh
      rfl
    · exact hdeliver.connections fd c hold

/-- The only line that is there is read as it is. -/
theorem readOnce_of_line (hr : ReadsLine readlineb) {rio : Rio} (hrio : rio.unread = [])
    (hline : firstLine c.inbound = c.inbound) :
    (readlineb rio c.inbound).1 = c.inbound ∧ (readlineb rio c.inbound).2.2 = [] := by
  have hread := hr.line rio c.inbound
  have hall := hr.conserves rio c.inbound
  rw [hrio, List.nil_append, hline] at hread
  rw [hrio, List.nil_append, hread, List.append_assoc] at hall
  have hrest := List.append_cancel_left (hall.trans (List.append_nil c.inbound).symm)
  exact ⟨hread, (List.append_eq_nil_iff.mp hrest).2⟩

/-- A harmless visit. -/
theorem AllKept.visit (h : AllKept u) (hs : Valid FD_SETSIZE s) (hu : Valid FD_SETSIZE u)
    (hr : ReadsLine readlineb) (hframe : Frame s i u)
    (hharm : ∀ c, s.connections (s.pool.clientfd i) = some c → Harmless s i c)
    (ht : u.visit readlineb i = .ok t) : AllKept t := by
  obtain ⟨c, hc, hcases⟩ := visit_ok ht
  have hharm := hharm c (hframe.connection_eq hs hu hc)
  have hkept := h.connections _ c hc
  obtain ⟨hpos, rfl⟩ | ⟨hidle, rfl⟩ := hcases
  · rw [Harmless, if_pos (hframe.positive.mp hpos)] at hharm
    obtain ⟨hread, hrest⟩ := readOnce_of_line hr (hu.unread_eq_nil hc) hharm
    refine ⟨fun fd c' hc' => ?_, h.closed⟩
    obtain ⟨honce, -⟩ | hold := update_eq_some hc'
    · rw [← Option.some.inj honce]
      simp only [Connection.readOnce, hread, hrest, List.append_nil]
      exact hkept
    · exact h.connections fd c' hold
  · rw [Harmless, if_neg fun hpos => hidle (hframe.positive.mpr hpos)] at hharm
    rw [hharm, List.append_nil] at hkept
    refine ⟨fun fd c' hc' => ?_, fun c' hc' => ?_⟩
    · obtain ⟨hnone, -⟩ | hold := update_eq_some hc'
      · cases hnone
      · exact h.connections fd c' hold
    · obtain hold | hlast := List.mem_append.mp hc'
      · exact h.closed c' hold
      · rw [List.mem_singleton.mp hlast]
        exact hkept

/-- **The step lemma.** -/
theorem AllKept.step {p : Pass} (h : AllKept s) (hs : Valid FD_SETSIZE s)
    (hr : ReadsLine p.readlineb) (htakes : TakesAll FD_SETSIZE s p)
    (ht : s.step FD_SETSIZE p = some t) : AllKept t := by
  obtain ⟨hp, u, hu, hcheck⟩ := step_eq_some.mp ht
  have hvalid := hs.prepare hp hu
  obtain ⟨n, hcomes, -⟩ := exists_end hcheck
  have hboth : Frame u n t ∧ Valid FD_SETSIZE t ∧ AllKept t := by
    apply hcomes.rule (I := fun n t => Frame u n t ∧ Valid FD_SETSIZE t ∧ AllKept t)
    · exact ⟨frame_refl u, hvalid, h.prepare hu⟩
    · rintro i v w hscan hw ⟨hframe, hv, hkept⟩
      have hharm := htakes u hu i
      exact ⟨hframe.visit hw, hv.visit hw, hkept.visit hvalid hv hr hframe
        (fun c hc => hharm c (hframe.continues.mp hscan) hc) hw⟩
  exact hboth.2.2

theorem allKept_of_run {listenfd : ℕ} {ps : List Pass}
    (h : run (Server.step FD_SETSIZE) (newServer listenfd) ps = some s)
    (hr : ∀ p ∈ ps, ReadsLine p.readlineb)
    (hC : Along (Server.step FD_SETSIZE) (TakesAll FD_SETSIZE) (newServer listenfd) ps) :
    AllKept s := by
  have hkept := run_induction_along
    (I := fun ps s => (∀ p ∈ ps, ReadsLine p.readlineb) → AllKept s)
    (fun _ => allKept_newServer listenfd) ?_ h hC
  · exact hkept hr
  · intro ps t p u hrun ih htakes ht hr
    rw [List.forall_mem_append, List.forall_mem_singleton] at hr
    exact (ih hr.1).step (valid_of_run hrun) hr.2 htakes ht

/-! ## Bytes that are gone -/

/-- More was received than is echoed or in the socket. -/
def Short (c : Connection) : Prop := c.echoed.length + c.inbound.length < c.received.length

/-- Some connection has lost bytes. -/
def SomeShort (s : Server) : Prop :=
  (∃ fd c, s.connections fd = some c ∧ Short c) ∨
    ∃ c ∈ s.closed, c.echoed.length < c.received.length

theorem SomeShort.not_allKept (h : SomeShort s) : ¬ AllKept s := by
  intro hkept
  obtain ⟨fd, c, hc, hshort⟩ | ⟨c, hc, hshort⟩ := h
  · rw [Short, ← hkept.connections fd c hc, List.length_append] at hshort
    exact Nat.lt_irrefl _ hshort
  · rw [hkept.closed c hc] at hshort
    exact Nat.lt_irrefl _ hshort

/-- A read takes nothing back. -/
theorem Short.readOnce (h : Short c) (hr : ReadsLine readlineb) {rio : Rio}
    (hrio : rio.unread = []) : Short (c.readOnce readlineb rio) := by
  have hall := congrArg List.length (hr.conserves rio c.inbound)
  rw [hrio, List.nil_append, List.length_append, List.length_append] at hall
  simp only [Short, Connection.readOnce, List.length_append] at h ⊢
  omega

theorem SomeShort.visit (h : SomeShort s) (hs : Valid FD_SETSIZE s)
    (hr : ReadsLine readlineb) (ht : s.visit readlineb i = .ok t) : SomeShort t := by
  obtain ⟨c, hc, ⟨-, rfl⟩ | ⟨-, rfl⟩⟩ := visit_ok ht
  · obtain ⟨fd, c', hc', hshort⟩ | hclosed := h
    · refine .inl ?_
      by_cases hfd : fd = s.pool.clientfd i
      · subst hfd
        rw [hc, Option.some.injEq] at hc'
        subst hc'
        exact ⟨_, _, Function.update_self .., hshort.readOnce hr (hs.unread_eq_nil hc)⟩
      · exact ⟨fd, c', (Function.update_of_ne hfd ..).trans hc', hshort⟩
    · exact .inr hclosed
  · obtain ⟨fd, c', hc', hshort⟩ | ⟨c', hc', hshort⟩ := h
    · by_cases hfd : fd = s.pool.clientfd i
      · subst hfd
        rw [hc, Option.some.injEq] at hc'
        subst hc'
        rw [Short] at hshort
        exact .inr ⟨c, List.mem_append_right _ (List.mem_singleton_self c), by omega⟩
      · exact .inl ⟨fd, c', (Function.update_of_ne hfd ..).trans hc', hshort⟩
    · exact .inr ⟨c', List.mem_append_left _ hc', hshort⟩

theorem SomeShort.reaches {v : Server} (h : SomeShort v) (hv : Valid FD_SETSIZE v)
    (hr : ReadsLine readlineb)
    (ht : Reaches Continues (Server.visit readlineb) j v n t) : SomeShort t := by
  have hboth : Valid FD_SETSIZE t ∧ SomeShort t := by
    apply ht.rule (I := fun _ t => Valid FD_SETSIZE t ∧ SomeShort t) ⟨hv, h⟩
    rintro k u w - hw ⟨hu, hshort⟩
    exact ⟨hu.visit hw, hshort.visit hu hr hw⟩
  exact hboth.2

theorem SomeShort.prepare {p : Pass} (h : SomeShort s) (hp : s.Possible p)
    (ht : s.prepare FD_SETSIZE p = .ok t) : SomeShort t := by
  have hdeliver : SomeShort ((s.deliver p.arrivals).select p.ready) := by
    obtain ⟨fd, c, hc, hshort⟩ | hclosed := h
    · refine .inl ⟨fd, { c with
        received := c.received ++ p.arrivals fd
        inbound := c.inbound ++ p.arrivals fd }, ?_, ?_⟩
      · simp only [Server.select, Server.deliver, hc, Option.map_some]
      · simp only [Short, List.length_append] at hshort ⊢
        omega
    · exact .inr hclosed
  obtain ⟨-, rfl⟩ | ⟨hlisten, i, -, -, -, rfl⟩ := accept_ok ht
  · exact hdeliver
  · obtain ⟨fd, c, hc, hshort⟩ | hclosed := hdeliver
    · have hne : fd ≠ p.connfd := by
        rintro rfl
        have hnone := (hp.2 hlisten).2
        simp only [Server.select, Server.deliver, hnone, Option.map_none] at hc
        cases hc
      exact .inl ⟨fd, c, (Function.update_of_ne hne ..).trans hc, hshort⟩
    · exact .inr hclosed

theorem SomeShort.step {p : Pass} (h : SomeShort s) (hs : Valid FD_SETSIZE s)
    (hr : ReadsLine p.readlineb) (ht : s.step FD_SETSIZE p = some t) : SomeShort t := by
  obtain ⟨hp, u, hu, hcheck⟩ := step_eq_some.mp ht
  obtain ⟨n, hcomes, -⟩ := exists_end hcheck
  exact (h.prepare hp hu).reaches (hs.prepare hp hu) hr hcomes

theorem SomeShort.run {ps : List Pass} (h : SomeShort s) (hs : Valid FD_SETSIZE s)
    (hr : ∀ p ∈ ps, ReadsLine p.readlineb)
    (ht : run (Server.step FD_SETSIZE) s ps = some t) : SomeShort t := by
  have hboth := run_induction_along (C := fun _ p => ReadsLine p.readlineb)
    (I := fun _ t => Valid FD_SETSIZE t ∧ SomeShort t) ⟨hs, h⟩ ?_ ht (along_of_forall hr s)
  · exact hboth.2
  · rintro ps u p v - ⟨hu, hshort⟩ hp hv
    exact ⟨hu.step hv, hshort.step hu hp hv⟩

/-- Of several lines that are there, only the first is echoed, and the next byte is taken in
with it. -/
theorem short_readOnce (hr : ReadsLine readlineb) {rio : Rio} (hrio : rio.unread = [])
    (hkept : c.echoed ++ c.inbound = c.received) (hmore : firstLine c.inbound ≠ c.inbound) :
    Short (c.readOnce readlineb rio) := by
  have hread := hr.line rio c.inbound
  have hall := congrArg List.length (hr.conserves rio c.inbound)
  have hrefill := hr.refills rio c.inbound hrio
  have hlast := length_firstLine_lt c.inbound
  have hproper : (firstLine c.inbound).length < c.inbound.length := by
    apply Nat.lt_of_le_of_ne (firstLine_begins c.inbound).length_le
    intro heq
    exact hmore ((firstLine_begins c.inbound).eq_of_length heq)
  rw [hrio, List.nil_append] at hread
  rw [hrio, List.nil_append, hread, List.length_append, List.length_append] at hall
  rw [hread, List.length_append] at hrefill
  simp only [Short, Connection.readOnce, hread, ← hkept, List.length_append]
  omega

/-- **A visit that is not harmless** leaves bytes behind that nobody has. -/
theorem someShort_of_checkClient (hs : Valid FD_SETSIZE s) (hkept : AllKept s)
    (hr : ReadsLine readlineb) (ht : s.checkClient readlineb = .ok t) (hi : Visited s i)
    (hc : s.connections (s.pool.clientfd i) = some c) (hharm : ¬ Harmless s i c) :
    SomeShort t := by
  obtain ⟨n, hcomes, hend⟩ := exists_end ht
  obtain ⟨u, v, hu, -, hv, hrest⟩ := hcomes.through (Nat.zero_le i) ((hend i).mpr hi)
  have hframe := frame_of_comes hu
  have hvalid := hs.comes hu
  have hnow := hkept.connections _ c hc
  obtain ⟨c', hc', hcases⟩ := visit_ok hv
  have heq := hframe.connection_eq hs hvalid hc'
  rw [hc, Option.some.injEq] at heq
  subst heq
  have hshort : SomeShort v := by
    obtain ⟨hpos, rfl⟩ | ⟨hidle, rfl⟩ := hcases
    · rw [Harmless, if_pos (hframe.positive.mp hpos)] at hharm
      exact .inl ⟨_, _, Function.update_self ..,
        short_readOnce hr (hvalid.unread_eq_nil hc') hnow hharm⟩
    · rw [Harmless, if_neg fun hpos => hidle (hframe.positive.mpr hpos)] at hharm
      have hpos := List.length_pos_iff.mpr hharm
      have hlength := congrArg List.length hnow
      rw [List.length_append] at hlength
      exact .inr ⟨c, List.mem_append_right _ (List.mem_singleton_self c), by omega⟩
  exact hshort.reaches (hvalid.visit hv) hr hrest

/-! ## The claim for every run -/

/-- **When the server loses no bytes**, for every run and every `Rio_readlineb` that behaves
as documented: exactly when in each round each visited client that is ready has at most one
line to read, and each other visited client nothing.
SOURCE: csapp/echo/echo4.c:29-43, 84-110 -/
theorem no_bytes_lost_iff (FD_SETSIZE listenfd : ℕ) (ps : List Pass) (s : Server)
    (h : run (Server.step FD_SETSIZE) (newServer listenfd) ps = some s)
    (hr : ∀ p ∈ ps, ReadsLine p.readlineb) :
    Kept s ↔ Along (Server.step FD_SETSIZE) (TakesAll FD_SETSIZE) (newServer listenfd) ps := by
  rw [(valid_of_run h).kept_iff]
  refine ⟨fun hkept => ?_, allKept_of_run h hr⟩
  by_contra hC
  obtain ⟨before, p, after, u, rfl, hu, hfirst, htakes⟩ := exists_first_violation h hC
  obtain ⟨u', hu', hlast⟩ := run_append_eq_some.mp h
  rw [hu, Option.some.injEq] at hu'
  subst hu'
  obtain ⟨v, hv, hrest⟩ := run_cons_eq_some.mp hlast
  rw [List.forall_mem_append, List.forall_mem_cons] at hr
  obtain ⟨hbefore, hp, hafter⟩ := hr
  have hvalid := valid_of_run hu
  obtain ⟨hpossible, w, hw, hcheck⟩ := step_eq_some.mp hv
  have hnow := (allKept_of_run hu hbefore hfirst).prepare hw
  -- Some visit of this round is not harmless.
  rw [TakesAll] at htakes
  push Not at htakes
  obtain ⟨w', hw', i, c, hi, hc, hharm⟩ := htakes
  rw [hw, Except.ok.injEq] at hw'
  subst hw'
  have hshort := someShort_of_checkClient (hvalid.prepare hpossible hw) hnow hp hcheck hi hc hharm
  exact (hshort.run (hvalid.step hv) hafter hrest).not_allKept hkept

set_option maxRecDepth 10000 in
/-- Two lines arrive in one segment. The second one is neither echoed nor held. -/
theorem second_line_lost :
    ∃ s, run (Server.step 1024) (newServer 3)
        [connects 4, sends {4} [104, 105, 10, 121, 111, 10]] = some s ∧
      (∀ p ∈ [connects 4, sends {4} [104, 105, 10, 121, 111, 10]], ReadsLine p.readlineb) ∧
      ¬ Kept s := by
  refine ⟨_, rfl, ?_, ?_⟩
  · intro p hp
    obtain rfl | rfl := List.mem_pair.mp hp
    · exact readsLine_oneRefill
    · exact readsLine_oneRefill
  · intro hkept
    have hlost : ([104, 105, 10] : Bytes) = [104, 105, 10, 121, 111, 10] := hkept.1 0 _ rfl
    cases hlost

set_option maxRecDepth 10000 in
/-- Two clients that each send one line get it back. -/
theorem no_bytes_lost_both :
    ∃ s, run (Server.step 1024) (newServer 3)
        [connects 4, connects 5, sends {4, 5} [104, 105, 10]] = some s ∧ Kept s := by
  refine ⟨_, rfl, (no_bytes_lost_iff 1024 3
    [connects 4, connects 5, sends {4, 5} [104, 105, 10]] _ rfl ?_).mpr ?_⟩
  · intro p hp
    simp only [List.mem_cons, List.not_mem_nil, or_false] at hp
    obtain rfl | rfl | rfl := hp
    · exact readsLine_oneRefill
    · exact readsLine_oneRefill
    · exact readsLine_oneRefill
  · refine (along_cons_of_step rfl).mpr ⟨fun t ht i c hi hc => ?_, ?_⟩
    · obtain rfl := Except.ok.inj ht
      have hnone : (_ : ℤ) < 1 - 1 := hi.2
      omega
    refine (along_cons_of_step rfl).mpr ⟨fun t ht i c hi hc => ?_, ?_⟩
    · obtain rfl := Except.ok.inj ht
      have hnone : (_ : ℤ) < 1 - 1 := hi.2
      omega
    refine ⟨fun t ht i c hi hc => ?_, fun _ _ => trivial⟩
    obtain rfl := Except.ok.inj ht
    have hmax : (i : ℤ) ≤ 1 := hi.1
    obtain rfl | rfl : i = 0 ∨ i = 1 := by omega
    · obtain rfl := Option.some.inj hc
      rw [Harmless, if_pos (by decide)]
      rfl
    · obtain rfl := Option.some.inj hc
      rw [Harmless, if_pos (by decide)]
      rfl

end GolangSandbox.Analysis
