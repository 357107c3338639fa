import GolangSandbox.Analysis.PoolInvariant
import Mathlib.Data.Finset.Image

/-!
# Serving the ready clients

The `else` of `check_client` belongs to the test for readiness and not to the test for the
end of the stream. A visited slot that is not ready is closed, a client at its end is kept,
and a visited slot that is free ends the process. The loop visits the slots up to the last
ready one. So one pass serves the ready clients, and nobody else, exactly if no idle or
free slot comes before a ready one, no ready client is at its end, and no ready client has
the descriptor 0, which `connfd > 0` takes for a free slot.
-/

set_option autoImplicit false

namespace GolangSandbox.Analysis

open GolangSandbox.Model GolangSandbox.Program GolangSandbox.Program.Server

variable {FD_SETSIZE : ℕ} {s t u : Server} {i j n : ℕ} {fd : ℤ} {readlineb : Readlineb}

/-- The descriptor of the slot is ready. -/
def Ready (s : Server) (i : ℕ) : Prop := s.pool.clientfd i ∈ s.pool.readySet

instance (s : Server) (i : ℕ) : Decidable (Ready s i) :=
  inferInstanceAs (Decidable (_ ∈ s.pool.readySet))

/-- One line was read from the ready slot: it was echoed and the slot kept, or, at the end
of the stream, the connection was closed and the slot cleared. -/
def ServedOnce (readlineb : Readlineb) (s t : Server) (i : ℕ) (c : Connection) : Prop :=
  if (readlineb (s.pool.clientrio i) c.inbound).1 ≠ [] then
    t.pool.clientfd i = s.pool.clientfd i ∧ s.pool.clientfd i ∈ t.pool.readSet ∧
      t.connections (s.pool.clientfd i) = some (c.readOnce readlineb (s.pool.clientrio i))
  else
    t.pool.clientfd i = -1 ∧ s.pool.clientfd i ∉ t.pool.readSet ∧
      t.connections (s.pool.clientfd i) = none ∧
      c.readOnce readlineb (s.pool.clientrio i) ∈ t.closed

/-- The slot is as it was, and its connection open if it was. -/
def Untouched (s t : Server) (i : ℕ) : Prop :=
  t.pool.clientfd i = s.pool.clientfd i ∧ t.pool.clientrio i = s.pool.clientrio i ∧
    (s.pool.clientfd i ∈ t.pool.readSet ↔ s.pool.clientfd i ∈ s.pool.readSet) ∧
    t.connections (s.pool.clientfd i) = s.connections (s.pool.clientfd i)

/-- A pass over the slots serves exactly the ready clients. -/
def ServesReady (readlineb : Readlineb) (s : Server) (r : Except Halt Server) : Prop :=
  ∃ t, r = .ok t ∧
    (∀ i, Ready s i →
      ∃ c, s.connections (s.pool.clientfd i) = some c ∧ ServedOnce readlineb s t i c) ∧
    (∀ i, ¬ Ready s i → Untouched s t i) ∧ t.pool.nready = 0

/-- The slots up to a ready one are ready and not taken for free, and a ready client is not
at its end. -/
def InOrder (readlineb : Readlineb) (s : Server) : Prop :=
  ∀ j, Ready s j → (∀ i ≤ j, s.Positive i) ∧
    ∀ c, s.connections (s.pool.clientfd j) = some c →
      (readlineb (s.pool.clientrio j) c.inbound).1 ≠ []

/-! ## The number of ready clients -/

/-- The state in which `main` calls `check_clients`. -/
structure Prepared (FD_SETSIZE : ℕ) (s : Server) : Prop where
  valid : Valid FD_SETSIZE s
  readySet_subset : s.pool.readySet ⊆ s.pool.readSet
  nready : s.pool.nready = (s.pool.readySet.erase s.listenfd).card

theorem prepared_of_prepare {p : Pass} (h : Valid FD_SETSIZE s) (hp : s.Possible p)
    (ht : s.prepare FD_SETSIZE p = .ok t) : Prepared FD_SETSIZE t := by
  have hvalid := h.prepare hp ht
  obtain ⟨hlisten, rfl⟩ | ⟨hlisten, i, -, -, -, rfl⟩ := accept_ok ht
  · refine ⟨hvalid, hp.1, ?_⟩
    have herase : p.ready.erase s.listenfd = p.ready := Finset.erase_eq_of_notMem hlisten
    show (p.ready.card : ℤ) = (p.ready.erase s.listenfd).card
    rw [herase]
  · refine ⟨hvalid, fun fd hfd => Finset.mem_insert_of_mem (hp.1 hfd), ?_⟩
    have hmem : s.listenfd ∈ p.ready := hlisten
    have hpos : 0 < p.ready.card := Finset.card_pos.mpr ⟨_, hmem⟩
    show (p.ready.card : ℤ) - 1 = (p.ready.erase s.listenfd).card
    rw [Finset.card_erase_of_mem hmem]
    omega

/-- A ready slot has an open descriptor. -/
theorem Prepared.nonneg (h : Prepared FD_SETSIZE s) (hi : Ready s i) :
    0 ≤ s.pool.clientfd i := by
  obtain heq | hslot := (h.valid.mem_readSet _).mp (h.readySet_subset hi)
  · exact heq ▸ h.valid.listenfd_nonneg
  · exact hslot.1

theorem Prepared.lt (h : Prepared FD_SETSIZE s) (hi : Ready s i) : i < FD_SETSIZE := by
  have hle := h.valid.le_maxi i (h.nonneg hi)
  have hlt := h.valid.maxi_lt
  omega

theorem Prepared.connection (h : Prepared FD_SETSIZE s) (hi : Ready s i) :
    ∃ c, s.connections (s.pool.clientfd i) = some c :=
  h.valid.exists_connection (hasSlot_clientfd (h.nonneg hi))

theorem ready_of_positive (hi : s.Positive i) : Ready s i := hi.2

/-- The ready slots. -/
def readySlots (FD_SETSIZE : ℕ) (s : Server) : Finset ℕ :=
  (Finset.range FD_SETSIZE).filter (Ready s)

theorem Prepared.mem_readySlots (h : Prepared FD_SETSIZE s) :
    i ∈ readySlots FD_SETSIZE s ↔ Ready s i := by
  rw [readySlots, Finset.mem_filter, Finset.mem_range]
  exact ⟨fun hi => hi.2, fun hi => ⟨h.lt hi, hi⟩⟩

/-- `nready` counts the ready slots: the ready descriptors other than `listenfd` are those of
the ready slots, and the slots have different descriptors. -/
theorem Prepared.nready_eq (h : Prepared FD_SETSIZE s) :
    s.pool.nready = (readySlots FD_SETSIZE s).card := by
  have himage : (readySlots FD_SETSIZE s).image s.pool.clientfd =
      s.pool.readySet.erase s.listenfd := by
    ext fd
    rw [Finset.mem_image, Finset.mem_erase]
    constructor
    · rintro ⟨i, hi, rfl⟩
      rw [h.mem_readySlots] at hi
      refine ⟨?_, hi⟩
      intro heq
      exact h.valid.ne_listenfd (heq ▸ hasSlot_clientfd (h.nonneg hi))
    · rintro ⟨hne, hfd⟩
      obtain heq | ⟨-, i, hi⟩ := (h.valid.mem_readSet _).mp (h.readySet_subset hfd)
      · exact absurd heq hne
      · refine ⟨i, ?_, hi⟩
        rw [h.mem_readySlots, Ready, hi]
        exact hfd
  have hinj : Set.InjOn s.pool.clientfd (readySlots FD_SETSIZE s) := by
    intro i hi j _ heq
    exact h.valid.distinct i j (h.nonneg (h.mem_readySlots.mp hi)) heq
  rw [h.nready, ← himage, Finset.card_image_of_injOn hinj]

/-- The positive slots below `n` are among the ready ones. -/
theorem Prepared.count_le (h : Prepared FD_SETSIZE s) (n : ℕ) :
    (Nat.count s.Positive n : ℤ) ≤ s.pool.nready := by
  rw [h.nready_eq, Nat.count_eq_card_filter_range]
  refine Int.ofNat_le.mpr (Finset.card_le_card fun i hi => ?_)
  exact h.mem_readySlots.mpr (ready_of_positive (Finset.mem_filter.mp hi).2)

/-- A ready slot that is not among the positive ones below `n` is still to come. -/
theorem Prepared.count_lt (h : Prepared FD_SETSIZE s) (hj : Ready s j)
    (hnot : n ≤ j ∨ ¬ s.Positive j) : (Nat.count s.Positive n : ℤ) < s.pool.nready := by
  rw [h.nready_eq, Nat.count_eq_card_filter_range]
  refine Int.ofNat_lt.mpr (Finset.card_lt_card ⟨fun i hi => ?_, fun hsub => ?_⟩)
  · exact h.mem_readySlots.mpr (ready_of_positive (Finset.mem_filter.mp hi).2)
  · obtain ⟨hlt, hpos⟩ := Finset.mem_filter.mp (hsub (h.mem_readySlots.mpr hj))
    rw [Finset.mem_range] at hlt
    obtain hle | hidle := hnot
    · omega
    · exact hidle hpos

/-- While not all ready slots are counted, one of them is missing. -/
theorem Prepared.exists_ready (h : Prepared FD_SETSIZE s)
    (hlt : (Nat.count s.Positive n : ℤ) < s.pool.nready) :
    ∃ j, Ready s j ∧ (n ≤ j ∨ ¬ s.Positive j) := by
  rw [h.nready_eq, Nat.count_eq_card_filter_range] at hlt
  obtain ⟨j, hj, hnot⟩ := Finset.exists_mem_notMem_of_card_lt_card (Int.ofNat_lt.mp hlt)
  refine ⟨j, h.mem_readySlots.mp hj, ?_⟩
  by_contra hboth
  rw [not_or, Nat.not_le, Classical.not_not] at hboth
  exact hnot (Finset.mem_filter.mpr ⟨Finset.mem_range.mpr hboth.1, hboth.2⟩)

/-- The loop comes to every slot up to a ready one. -/
theorem Prepared.visited (h : Prepared FD_SETSIZE s) (hj : Ready s j) (hij : i ≤ j) :
    Visited s i := by
  have hvisited : Visited s j :=
    ⟨h.valid.le_maxi j (h.nonneg hj), h.count_lt hj (.inl (Nat.le_refl j))⟩
  exact hvisited.of_le hij

/-- Only slots for which the test succeeds are visited if the ready slots come first. -/
theorem Prepared.forall_positive_iff (h : Prepared FD_SETSIZE s) :
    (∀ i, Visited s i → s.Positive i) ↔ ∀ j, Ready s j → ∀ i ≤ j, s.Positive i := by
  constructor
  · intro hall j hj i hij
    exact hall i (h.visited hj hij)
  · intro hall i hi
    obtain ⟨j, hj, hnot⟩ := h.exists_ready hi.2
    obtain hle | hidle := hnot
    · exact hall j hj i hle
    · exact absurd (hall j hj j (Nat.le_refl j)) hidle

/-! ## A pass that closes nothing -/

/-- The slots below `i` were served, and nothing else has changed. -/
structure Serving (readlineb : Readlineb) (s : Server) (i : ℕ) (t : Server) : Prop where
  frame : Frame s i t
  clientfd : t.pool.clientfd = s.pool.clientfd
  readSet : t.pool.readSet = s.pool.readSet
  done : ∀ j < i, ∀ c, s.connections (s.pool.clientfd j) = some c →
    t.connections (s.pool.clientfd j) = some (c.readOnce readlineb (s.pool.clientrio j))

theorem Serving.visit (h : Serving readlineb s i t) (hs : Valid FD_SETSIZE s)
    (hi : s.Positive i) (hu : t.visit readlineb i = .ok u) :
    Serving readlineb s (i + 1) u := by
  have hframe := h.frame.visit hu
  have hsame := h.frame.connection hs (Nat.le_refl i) (Int.le_of_lt hi.1)
  obtain ⟨c, hc, ⟨-, rfl⟩ | ⟨hidle, rfl⟩⟩ := visit_ok hu
  · refine ⟨hframe, h.clientfd, h.readSet, fun j hj c' hc' => ?_⟩
    rw [h.clientfd] at hc
    have happly : ∀ fd, (t.served readlineb i c).connections fd =
        if fd = s.pool.clientfd i then
          some (c.readOnce readlineb (s.pool.clientrio i)) else t.connections fd := by
      intro fd
      rw [← h.clientfd, ← h.frame.clientrio]
      exact Function.update_apply ..
    rw [happly]
    by_cases hji : j = i
    · subst hji
      rw [if_pos rfl]
      rw [hc, hc', Option.some.injEq] at hsame
      rw [hsame]
    · have hne : s.pool.clientfd j ≠ s.pool.clientfd i := by
        intro heq
        exact hji (hs.distinct i j (Int.le_of_lt hi.1) heq.symm).symm
      rw [if_neg hne]
      exact h.done j (by omega) c' hc'
  · exact absurd (h.frame.positive.mpr hi) hidle

theorem serving_of_comes (hs : Valid FD_SETSIZE s) (hall : ∀ i, Visited s i → s.Positive i)
    (h : Comes readlineb s i t) : Serving readlineb s i t := by
  apply h.rule
  · exact ⟨frame_refl s, rfl, rfl, fun j hj => absurd hj (Nat.not_lt_zero j)⟩
  · intro j u v hscan hv hu
    exact hu.visit hs (hall j (hu.frame.continues.mp hscan)) hv

/-- Then the process does not exit. -/
theorem exists_checkClient (hs : Valid FD_SETSIZE s) (hall : ∀ i, Visited s i → s.Positive i)
    (readlineb : Readlineb) : ∃ t, s.checkClient readlineb = .ok t := by
  apply exists_forLoop
  intro j u hcomes hscan
  have hserving := serving_of_comes hs hall hcomes
  have hpos := hall j (hserving.frame.continues.mp hscan)
  have hnonneg : 0 ≤ u.pool.clientfd j := by
    rw [hserving.clientfd]
    exact Int.le_of_lt hpos.1
  obtain ⟨c, hc⟩ := (hs.comes hcomes).exists_connection (hasSlot_clientfd hnonneg)
  exact ⟨_, visit_eq hc⟩

theorem Prepared.servesReady (h : Prepared FD_SETSIZE s) (hin : InOrder readlineb s) :
    ServesReady readlineb s (s.checkClient readlineb) := by
  have hall := h.forall_positive_iff.mpr fun j hj => (hin j hj).1
  obtain ⟨t, ht⟩ := exists_checkClient h.valid hall readlineb
  obtain ⟨n, hcomes, hend⟩ := exists_end ht
  have hserving := serving_of_comes h.valid hall hcomes
  refine ⟨t, ht, fun i hi => ?_, fun i hi => ?_, ?_⟩
  · obtain ⟨c, hc⟩ := h.connection hi
    have hdone := hserving.done i ((hend i).mpr (h.visited hi (Nat.le_refl i))) c hc
    refine ⟨c, hc, ?_⟩
    rw [ServedOnce, if_pos ((hin i hi).2 c hc), hserving.clientfd, hserving.readSet]
    exact ⟨rfl, h.readySet_subset hi, hdone⟩
  · rw [Untouched, hserving.clientfd, hserving.frame.clientrio, hserving.readSet]
    refine ⟨rfl, rfl, Iff.rfl, hserving.frame.connections _ fun j hj heq => ?_⟩
    have hready := ready_of_positive (hall j ((hend j).mp hj))
    rw [Ready, heq] at hready
    exact hi hready
  · -- The loop stopped at the first slot that is not visited.
    have hlast : ¬ Visited s n := fun hn => Nat.lt_irrefl n ((hend n).mpr hn)
    have hframe := hserving.frame.nready
    have hle := h.count_le n
    by_contra hne
    obtain ⟨j, hj, hnot⟩ := h.exists_ready (n := n) (by omega)
    obtain hnj | hidle := hnot
    · exact hlast (h.visited hj hnj)
    · exact hidle (hall j (h.visited hj (Nat.le_refl j)))

/-! ## A pass that closes something -/

/-- A slot that was cleared stays so to the end of the loop. -/
theorem cleared_of_reaches {v : Server} (h : Reaches Continues (Server.visit readlineb) j v n t)
    (hi : i < j) (hv : v.pool.clientfd i = -1) : t.pool.clientfd i = -1 := by
  have hkept : i < n ∧ t.pool.clientfd i = -1 := by
    apply h.rule (I := fun n t => i < n ∧ t.pool.clientfd i = -1) ⟨hi, hv⟩
    rintro k u w - hw ⟨hik, hu⟩
    refine ⟨by omega, ?_⟩
    obtain ⟨c, -, ⟨-, rfl⟩ | ⟨-, rfl⟩⟩ := visit_ok hw
    · exact hu
    · rw [clientfd_cleared, if_neg (by omega)]
      exact hu
  exact hkept.2

/-- A visited slot that is not positive is cleared, and was not free. -/
theorem clientfd_of_idle (hs : Valid FD_SETSIZE s) (ht : s.checkClient readlineb = .ok t)
    (hi : Visited s i) (hidle : ¬ s.Positive i) :
    t.pool.clientfd i = -1 ∧ 0 ≤ s.pool.clientfd i := by
  obtain ⟨n, hcomes, hend⟩ := exists_end ht
  obtain ⟨u, v, hu, -, hv, hrest⟩ := hcomes.through (Nat.zero_le i) ((hend i).mpr hi)
  have hframe := frame_of_comes hu
  obtain ⟨c, hc, ⟨hpos, -⟩ | ⟨-, rfl⟩⟩ := visit_ok hv
  · exact absurd (hframe.positive.mp hpos) hidle
  · constructor
    · apply cleared_of_reaches hrest (Nat.lt_succ_self i)
      rw [clientfd_cleared, if_pos rfl]
    · rw [← hframe.clientfd i (Nat.le_refl i)]
      exact ((hs.comes hu).hasSlot hc).1

/-- If the ready clients, and nobody else, are served, the loop closes nothing. -/
theorem Prepared.forall_positive (h : Prepared FD_SETSIZE s)
    (hserves : ServesReady readlineb s (s.checkClient readlineb)) :
    ∀ i, Visited s i → s.Positive i := by
  obtain ⟨t, ht, hready, hidle, hzero⟩ := hserves
  intro i hi
  by_contra hpos
  obtain ⟨hcleared, hnonneg⟩ := clientfd_of_idle h.valid ht hi hpos
  by_cases hri : Ready s i
  · -- The descriptor is 0, and `nready` is not counted down for it.
    obtain ⟨n, hcomes, -⟩ := exists_end ht
    have hframe := (frame_of_comes hcomes).nready
    have hlt := h.count_lt (n := n) hri (.inr hpos)
    omega
  · have hsame := (hidle i hri).1
    omega

theorem Prepared.inOrder (h : Prepared FD_SETSIZE s)
    (hserves : ServesReady readlineb s (s.checkClient readlineb)) : InOrder readlineb s := by
  have hall := h.forall_positive hserves
  obtain ⟨t, ht, hready, -, -⟩ := hserves
  obtain ⟨n, hcomes, -⟩ := exists_end ht
  have hserving := serving_of_comes h.valid hall hcomes
  intro j hj
  refine ⟨h.forall_positive_iff.mp hall j hj, fun c hc hnil => ?_⟩
  obtain ⟨c', hc', honce⟩ := hready j hj
  rw [hc, Option.some.injEq] at hc'
  subst hc'
  rw [ServedOnce, if_neg (not_not.mpr hnil), hserving.clientfd] at honce
  have hnonneg := h.nonneg hj
  have hneg := honce.1
  omega

/-! ## The claim for every reachable state -/

/-- **When a pass over the slots serves exactly the ready clients**, in every state in
which `main` calls `check_clients`: exactly when the slots up to each ready one are ready,
no ready client is at its end, and none has the descriptor 0.
SOURCE: csapp/echo/echo4.c:29-43, 60-110 -/
theorem serves_ready_iff (FD_SETSIZE listenfd : ℕ) (ps : List Pass) (p : Pass) (s t : Server)
    (h : run (Server.step FD_SETSIZE) (newServer listenfd) ps = some s) (hp : s.Possible p)
    (ht : s.prepare FD_SETSIZE p = .ok t) :
    ServesReady p.readlineb t (t.checkClient p.readlineb) ↔
      InOrder p.readlineb t := by
  have hprepared := prepared_of_prepare (valid_of_run h) hp ht
  exact ⟨hprepared.inOrder, hprepared.servesReady⟩

/-- A round in which a client connects, on a server that listens on descriptor 3. -/
def connects (connfd : ℕ) : Pass := ⟨{3}, connfd, fun _ => [], oneRefill⟩

/-- A round in which the clients with these descriptors send these bytes. -/
def sends (ready : Finset ℤ) (bytes : Bytes) : Pass := ⟨ready, 0, fun _ => bytes, oneRefill⟩

set_option maxRecDepth 10000 in
/-- Two clients are connected and only the second one sends a line. The first is closed. -/
theorem idle_client_closed :
    ∃ s t, run (Server.step 1024) (newServer 3) [connects 4, connects 5] = some s ∧
      s.Possible (sends {5} [104, 105, 10]) ∧
      s.prepare 1024 (sends {5} [104, 105, 10]) = .ok t ∧
      ¬ ServesReady (sends {5} [104, 105, 10]).readlineb t
        (t.checkClient (sends {5} [104, 105, 10]).readlineb) := by
  have hrun : ∃ s, run (Server.step 1024) (newServer 3) [connects 4, connects 5] = some s ∧
      s.Possible (sends {5} [104, 105, 10]) ∧ ∃ t,
      s.prepare 1024 (sends {5} [104, 105, 10]) = .ok t ∧ Ready t 1 ∧ ¬ t.Positive 0 :=
    ⟨_, rfl, by decide, _, rfl, by decide, by decide⟩
  obtain ⟨s, hs, hp, t, ht, hready, hidle⟩ := hrun
  refine ⟨s, t, hs, hp, ht, fun hserves => hidle ?_⟩
  have hprepared := prepared_of_prepare (valid_of_run hs) hp ht
  exact (hprepared.inOrder hserves 1 hready).1 0 (by decide)

set_option maxRecDepth 10000 in
/-- Two clients are connected and both send a line. -/
theorem serves_ready_both :
    ∃ s t, run (Server.step 1024) (newServer 3) [connects 4, connects 5] = some s ∧
      s.prepare 1024 (sends {4, 5} [104, 105, 10]) = .ok t ∧ Ready t 0 ∧ Ready t 1 ∧
      ServesReady (sends {4, 5} [104, 105, 10]).readlineb t
        (t.checkClient (sends {4, 5} [104, 105, 10]).readlineb) := by
  refine ⟨_, _, rfl, rfl, by decide, by decide, (serves_ready_iff 1024 3 [connects 4, connects 5]
    (sends {4, 5} [104, 105, 10]) _ _ rfl (by decide) rfl).mpr ?_⟩
  intro j hj
  match j with
  | 0 =>
    refine ⟨fun i hi => ?_, fun c hc => ?_⟩
    · obtain rfl := Nat.le_zero.mp hi
      decide
    · cases hc
      decide
  | 1 =>
    refine ⟨fun i hi => ?_, fun c hc => ?_⟩
    · obtain rfl | rfl : i = 0 ∨ i = 1 := by omega
      · decide
      · decide
    · cases hc
      decide
  | j + 2 =>
    have hfree : (-1 : ℤ) ∈ ({4, 5} : Finset ℤ) := hj
    exact absurd hfree (by decide)

end GolangSandbox.Analysis
