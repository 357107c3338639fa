import GolangSandbox.Program.SelectPool
import Mathlib.Data.Nat.Count

/-!
# The pool of the select server

The slot array, the descriptor set, the two high-water marks and the open descriptors say
the same (`Valid`): `read_set` holds the listening descriptor and the descriptors of the
slots, which are distinct and open. A visit of a slot leaves what the loop has not come to
yet as it was (`Frame`), so the state before the loop decides which slots are visited: a
slot is visited if it is not above `maxi` and not all ready clients come before it.
`pool_represents` is what the fields of the pool say together, in every state of a run.
-/

set_option autoImplicit false

namespace GolangSandbox.Analysis

open GolangSandbox.Model GolangSandbox.Program GolangSandbox.Program.Server

variable {FD_SETSIZE : ℕ} {s t u : Server} {i j : ℕ} {fd : ℤ} {readlineb : Readlineb}

/-- The descriptor is in a slot. -/
def HasSlot (s : Server) (fd : ℤ) : Prop := 0 ≤ fd ∧ ∃ i, s.pool.clientfd i = fd

/-- The invariant of the pool. -/
structure Valid (FD_SETSIZE : ℕ) (s : Server) : Prop where
  mem_readSet : ∀ fd, fd ∈ s.pool.readSet ↔ fd = s.listenfd ∨ HasSlot s fd
  distinct : ∀ i j, 0 ≤ s.pool.clientfd i → s.pool.clientfd i = s.pool.clientfd j → i = j
  ne_listenfd : ¬ HasSlot s s.listenfd
  listenfd_nonneg : 0 ≤ s.listenfd
  le_maxi : ∀ i : ℕ, 0 ≤ s.pool.clientfd i → (i : ℤ) ≤ s.pool.maxi
  maxi_lt : s.pool.maxi < FD_SETSIZE
  le_maxfd : ∀ fd ∈ s.pool.readSet, fd ≤ s.pool.maxfd
  isOpen : ∀ fd, s.connections fd ≠ none ↔ HasSlot s fd
  clientrio : ∀ i, 0 ≤ s.pool.clientfd i →
    s.pool.clientrio i = rioReadinitb (s.pool.clientfd i)

theorem hasSlot_clientfd (hi : 0 ≤ s.pool.clientfd i) : HasSlot s (s.pool.clientfd i) :=
  ⟨hi, i, rfl⟩

/-- An open connection has a slot. -/
theorem Valid.hasSlot {c : Connection} (h : Valid FD_SETSIZE s) (hc : s.connections fd = some c) :
    HasSlot s fd := by
  apply (h.isOpen fd).mp
  rw [hc]
  exact nofun

/-- A descriptor in a slot is open. -/
theorem Valid.exists_connection (h : Valid FD_SETSIZE s) (hfd : HasSlot s fd) :
    ∃ c, s.connections fd = some c :=
  Option.ne_none_iff_exists'.mp ((h.isOpen fd).mpr hfd)

theorem valid_newServer (listenfd : ℕ) : Valid FD_SETSIZE (newServer listenfd) := by
  have hnone : ∀ fd, ¬ HasSlot (newServer listenfd) fd := by
    rintro fd ⟨hfd, i, hi⟩
    have hneg : (-1 : ℤ) = fd := hi
    omega
  refine ⟨?_, ?_, hnone _, ?_, ?_, ?_, ?_, ?_, ?_⟩
  · intro fd
    have : fd ∈ (newServer listenfd).pool.readSet ↔ fd = listenfd := Finset.mem_singleton
    rw [this]
    exact ⟨.inl, fun h => h.resolve_right (hnone fd)⟩
  · intro i j hi
    have hneg : (0 : ℤ) ≤ -1 := hi
    omega
  · exact Int.natCast_nonneg listenfd
  · intro i hi
    have hneg : (0 : ℤ) ≤ -1 := hi
    omega
  · have hneg : (-1 : ℤ) < FD_SETSIZE := by omega
    exact hneg
  · intro fd hfd
    have heq : fd = listenfd := Finset.mem_singleton.mp hfd
    exact Int.le_of_eq heq
  · intro fd
    exact iff_of_false (fun h => h rfl) (hnone fd)
  · intro i hi
    have hneg : (0 : ℤ) ≤ -1 := hi
    omega

theorem Valid.deliver (h : Valid FD_SETSIZE s) (arrivals : ℤ → Bytes) :
    Valid FD_SETSIZE (s.deliver arrivals) where
  mem_readSet := h.mem_readSet
  distinct := h.distinct
  ne_listenfd := h.ne_listenfd
  listenfd_nonneg := h.listenfd_nonneg
  le_maxi := h.le_maxi
  maxi_lt := h.maxi_lt
  le_maxfd := h.le_maxfd
  isOpen := by
    intro fd
    have hmap : (s.deliver arrivals).connections fd ≠ none ↔ s.connections fd ≠ none := by
      simp [Server.deliver]
    rw [hmap]
    exact h.isOpen fd
  clientrio := h.clientrio

theorem Valid.select (h : Valid FD_SETSIZE s) (ready : Finset ℤ) :
    Valid FD_SETSIZE (s.select ready) :=
  ⟨h.mem_readSet, h.distinct, h.ne_listenfd, h.listenfd_nonneg, h.le_maxi, h.maxi_lt,
    h.le_maxfd, h.isOpen, h.clientrio⟩

/-! ## A new client -/

theorem clientfd_added (s : Server) (i connfd j : ℕ) :
    (s.added i connfd).pool.clientfd j = if j = i then (connfd : ℤ) else s.pool.clientfd j :=
  Function.update_apply ..

theorem hasSlot_added {connfd : ℕ} (hfree : s.pool.clientfd i < 0) :
    HasSlot (s.added i connfd) fd ↔ HasSlot s fd ∨ fd = connfd := by
  constructor
  · rintro ⟨hfd, j, hj⟩
    rw [clientfd_added] at hj
    split at hj
    · exact .inr hj.symm
    · exact .inl ⟨hfd, j, hj⟩
  · rintro (⟨hfd, j, hj⟩ | rfl)
    · refine ⟨hfd, j, ?_⟩
      have hne : j ≠ i := by
        rintro rfl
        omega
      rw [clientfd_added, if_neg hne, hj]
    · exact ⟨Int.natCast_nonneg connfd, i, by rw [clientfd_added, if_pos rfl]⟩

theorem Valid.added {connfd : ℕ} (h : Valid FD_SETSIZE s) (hi : i < FD_SETSIZE)
    (hfree : s.pool.clientfd i < 0) (hlisten : (connfd : ℤ) ≠ s.listenfd)
    (hclosed : s.connections connfd = none) : Valid FD_SETSIZE (s.added i connfd) := by
  have hnew : ¬ HasSlot s connfd := by
    intro hhas
    exact (h.isOpen connfd).mpr hhas hclosed
  refine ⟨?_, ?_, ?_, h.listenfd_nonneg, ?_, ?_, ?_, ?_, ?_⟩
  · intro fd
    rw [hasSlot_added hfree, ← or_assoc]
    refine Finset.mem_insert.trans (or_comm.trans ?_)
    rw [h.mem_readSet]
    rfl
  · intro j k hj hjk
    rw [clientfd_added] at hj
    rw [clientfd_added, clientfd_added] at hjk
    by_cases hji : j = i
    · by_cases hki : k = i
      · exact hji.trans hki.symm
      · rw [if_pos hji, if_neg hki] at hjk
        exact absurd ⟨Int.natCast_nonneg connfd, k, hjk.symm⟩ hnew
    · rw [if_neg hji] at hj hjk
      by_cases hki : k = i
      · rw [if_pos hki] at hjk
        exact absurd ⟨Int.natCast_nonneg connfd, j, hjk⟩ hnew
      · rw [if_neg hki] at hjk
        exact h.distinct j k hj hjk
  · rw [hasSlot_added hfree]
    rintro (hhas | heq)
    · exact h.ne_listenfd hhas
    · exact hlisten heq.symm
  · intro j hj
    rw [clientfd_added] at hj
    have hmaxi : (s.added i connfd).pool.maxi = if (i : ℤ) > s.pool.maxi then (i : ℤ)
      else s.pool.maxi := rfl
    rw [hmaxi]
    by_cases hji : j = i
    · split <;> omega
    · rw [if_neg hji] at hj
      have := h.le_maxi j hj
      split <;> omega
  · have hmaxi : (s.added i connfd).pool.maxi = if (i : ℤ) > s.pool.maxi then (i : ℤ)
      else s.pool.maxi := rfl
    have := h.maxi_lt
    rw [hmaxi]
    split <;> omega
  · intro fd hfd
    have hmaxfd : (s.added i connfd).pool.maxfd = if (connfd : ℤ) > s.pool.maxfd then
      (connfd : ℤ) else s.pool.maxfd := rfl
    rw [hmaxfd]
    obtain rfl | hmem := Finset.mem_insert.mp hfd
    · split <;> omega
    · have := h.le_maxfd fd hmem
      split <;> omega
  · intro fd
    rw [hasSlot_added hfree, ← h.isOpen]
    have happly : (s.added i connfd).connections fd =
        if fd = connfd then some .fresh else s.connections fd := Function.update_apply ..
    rw [happly]
    by_cases hfd : fd = connfd
    · simp [hfd]
    · simp [hfd]
  · intro j hj
    rw [clientfd_added] at hj ⊢
    have happly : (s.added i connfd).pool.clientrio j =
        if j = i then rioReadinitb connfd else s.pool.clientrio j := Function.update_apply ..
    rw [happly]
    by_cases hji : j = i
    · rw [if_pos hji, if_pos hji]
    · rw [if_neg hji] at hj
      rw [if_neg hji, if_neg hji]
      exact h.clientrio j hj

/-- `main` adds a client for a descriptor that was not open. -/
theorem Valid.prepare {p : Pass} (h : Valid FD_SETSIZE s) (hp : s.Possible p)
    (ht : s.prepare FD_SETSIZE p = .ok t) : Valid FD_SETSIZE t := by
  have hbefore := (h.deliver p.arrivals).select p.ready
  obtain ⟨-, rfl⟩ | ⟨hlisten, i, hi, hfree, -, rfl⟩ := accept_ok ht
  · exact hbefore
  · obtain ⟨hne, hclosed⟩ := hp.2 hlisten
    apply hbefore.added hi hfree hne
    simp only [Server.select, Server.deliver, hclosed, Option.map_none]

/-! ## A visit -/

theorem hasSlot_served {c : Connection} : HasSlot (s.served readlineb i c) fd ↔ HasSlot s fd :=
  Iff.rfl

theorem Valid.served {c c' : Connection} (h : Valid FD_SETSIZE s)
    (hc : s.connections (s.pool.clientfd i) = some c) :
    Valid FD_SETSIZE (s.served readlineb i c') where
  mem_readSet := h.mem_readSet
  distinct := h.distinct
  ne_listenfd := h.ne_listenfd
  listenfd_nonneg := h.listenfd_nonneg
  le_maxi := h.le_maxi
  maxi_lt := h.maxi_lt
  le_maxfd := h.le_maxfd
  isOpen := by
    intro fd
    rw [hasSlot_served, ← h.isOpen]
    by_cases hfd : fd = s.pool.clientfd i
    · simp [Server.served, hfd, hc]
    · simp [Server.served, Function.update_of_ne hfd]
  clientrio := h.clientrio

theorem clientfd_cleared (s : Server) (i : ℕ) (c : Connection) (j : ℕ) :
    (s.cleared i c).pool.clientfd j = if j = i then -1 else s.pool.clientfd j :=
  Function.update_apply ..

theorem hasSlot_cleared {c : Connection} (h : Valid FD_SETSIZE s)
    (hi : 0 ≤ s.pool.clientfd i) :
    HasSlot (s.cleared i c) fd ↔ HasSlot s fd ∧ fd ≠ s.pool.clientfd i := by
  constructor
  · rintro ⟨hfd, j, hj⟩
    rw [clientfd_cleared] at hj
    split at hj
    · omega
    · rename_i hji
      refine ⟨⟨hfd, j, hj⟩, ?_⟩
      rintro rfl
      exact hji (h.distinct i j hi hj.symm).symm
  · rintro ⟨⟨hfd, j, hj⟩, hne⟩
    refine ⟨hfd, j, ?_⟩
    have hji : j ≠ i := by
      rintro rfl
      exact hne hj.symm
    rw [clientfd_cleared, if_neg hji, hj]

theorem Valid.cleared {c c' : Connection} (h : Valid FD_SETSIZE s)
    (hc : s.connections (s.pool.clientfd i) = some c) : Valid FD_SETSIZE (s.cleared i c') := by
  have hi := (h.hasSlot hc).1
  have hslot : ∀ fd, HasSlot (s.cleared i c') fd ↔ HasSlot s fd ∧ fd ≠ s.pool.clientfd i :=
    fun _ => hasSlot_cleared h hi
  refine ⟨?_, ?_, ?_, h.listenfd_nonneg, ?_, h.maxi_lt, ?_, ?_, ?_⟩
  · intro fd
    have hmem : fd ∈ (s.cleared i c').pool.readSet ↔
        fd ≠ s.pool.clientfd i ∧ fd ∈ s.pool.readSet := Finset.mem_erase
    have hlisten : s.listenfd ≠ s.pool.clientfd i := by
      intro heq
      exact h.ne_listenfd ⟨h.listenfd_nonneg, i, heq.symm⟩
    rw [hmem, h.mem_readSet, hslot]
    constructor
    · rintro ⟨hne, heq | hhas⟩
      · exact .inl heq
      · exact .inr ⟨hhas, hne⟩
    · rintro (heq | ⟨hhas, hne⟩)
      · exact ⟨fun hfd => hlisten (heq ▸ hfd), .inl heq⟩
      · exact ⟨hne, .inr hhas⟩
  · intro j k hj hjk
    rw [clientfd_cleared] at hj
    rw [clientfd_cleared, clientfd_cleared] at hjk
    split at hj
    · omega
    · rename_i hji
      rw [if_neg hji] at hjk
      split at hjk
      · omega
      · exact h.distinct j k hj hjk
  · rw [hslot]
    exact fun hhas => h.ne_listenfd hhas.1
  · intro j hj
    rw [clientfd_cleared] at hj
    split at hj
    · omega
    · exact h.le_maxi j hj
  · intro fd hfd
    exact h.le_maxfd fd (Finset.mem_of_mem_erase hfd)
  · intro fd
    rw [hslot, ← h.isOpen]
    by_cases hfd : fd = s.pool.clientfd i
    · simp [Server.cleared, hfd]
    · simp [Server.cleared, hfd]
  · intro j hj
    rw [clientfd_cleared] at hj ⊢
    split at hj
    · omega
    · rename_i hji
      rw [if_neg hji]
      exact h.clientrio j hj

theorem Valid.visit (h : Valid FD_SETSIZE s) (ht : s.visit readlineb i = .ok t) :
    Valid FD_SETSIZE t := by
  obtain ⟨c, hc, ⟨-, rfl⟩ | ⟨-, rfl⟩⟩ := visit_ok ht
  · exact h.served hc
  · exact h.cleared hc

/-! ## The loop over the slots -/

/-- The slots the loop visits: those up to `maxi` that are not behind all ready clients. -/
def Visited (s : Server) (i : ℕ) : Prop :=
  (i : ℤ) ≤ s.pool.maxi ∧ (Nat.count s.Positive i : ℤ) < s.pool.nready

/-- A slot before a visited one is visited. -/
theorem Visited.of_le (h : Visited s j) (hij : i ≤ j) : Visited s i := by
  have hcount : Nat.count s.Positive i ≤ Nat.count s.Positive j := Nat.count_monotone _ hij
  have hmaxi := h.1
  have hready := h.2
  exact ⟨by omega, by omega⟩

/-- What the loop leaves as it was when it comes to the slot `i`. -/
structure Frame (s : Server) (i : ℕ) (t : Server) : Prop where
  readySet : t.pool.readySet = s.pool.readySet
  maxi : t.pool.maxi = s.pool.maxi
  clientrio : t.pool.clientrio = s.pool.clientrio
  clientfd : ∀ j, i ≤ j → t.pool.clientfd j = s.pool.clientfd j
  connections : ∀ fd, (∀ j < i, s.pool.clientfd j ≠ fd) → t.connections fd = s.connections fd
  nready : t.pool.nready + Nat.count s.Positive i = s.pool.nready

theorem frame_refl (s : Server) : Frame s 0 s where
  readySet := rfl
  maxi := rfl
  clientrio := rfl
  clientfd := fun _ _ => rfl
  connections := fun _ _ => rfl
  nready := by rw [Nat.count_zero, Int.natCast_zero, Int.add_zero]

theorem Frame.positive (h : Frame s i t) : t.Positive i ↔ s.Positive i := by
  rw [Positive, Positive, h.clientfd i (Nat.le_refl i), h.readySet]

theorem Frame.continues (h : Frame s i t) : Continues i t ↔ Visited s i := by
  have hnready := h.nready
  rw [Continues, Visited, h.maxi]
  apply and_congr_right
  intro _
  constructor
  · intro hpos
    omega
  · intro hlt
    show 0 < t.pool.nready
    omega

/-- The connection of a slot the loop comes to is as it was, since the slots before have
other descriptors. -/
theorem Frame.connection (h : Frame s i t) (hs : Valid FD_SETSIZE s) (hij : i ≤ j)
    (hj : 0 ≤ s.pool.clientfd j) :
    t.connections (s.pool.clientfd j) = s.connections (s.pool.clientfd j) := by
  apply h.connections
  intro k hk heq
  have := hs.distinct j k hj heq.symm
  omega

/-- The connection that a visit finds is the one from before the loop. -/
theorem Frame.connection_eq {c : Connection} (h : Frame s i t) (hs : Valid FD_SETSIZE s)
    (ht : Valid FD_SETSIZE t) (hc : t.connections (t.pool.clientfd i) = some c) :
    s.connections (s.pool.clientfd i) = some c := by
  have hfd := h.clientfd i (Nat.le_refl i)
  have hnonneg := (ht.hasSlot hc).1
  rw [hfd] at hnonneg hc
  rw [← h.connection hs (Nat.le_refl i) hnonneg, hc]

theorem Frame.visit (h : Frame s i t) (hu : t.visit readlineb i = .ok u) :
    Frame s (i + 1) u := by
  have hfd := h.clientfd i (Nat.le_refl i)
  have hcount := Nat.count_succ s.Positive i
  have hnready := h.nready
  obtain ⟨c, -, ⟨hpos, rfl⟩ | ⟨hidle, rfl⟩⟩ := visit_ok hu
  · rw [h.positive] at hpos
    rw [if_pos hpos] at hcount
    refine ⟨h.readySet, h.maxi, h.clientrio, ?_, ?_, ?_⟩
    · intro j hj
      exact h.clientfd j (by omega)
    · intro fd hne
      have hlast := hne i (Nat.lt_succ_self i)
      rw [← h.connections fd fun j hj => hne j (by omega)]
      exact Function.update_of_ne (by rw [hfd]; exact hlast.symm) _ _
    · simp only [served]
      omega
  · rw [h.positive] at hidle
    rw [if_neg hidle] at hcount
    refine ⟨h.readySet, h.maxi, h.clientrio, ?_, ?_, ?_⟩
    · intro j hj
      rw [clientfd_cleared, if_neg (by omega)]
      exact h.clientfd j (by omega)
    · intro fd hne
      have hlast := hne i (Nat.lt_succ_self i)
      rw [← h.connections fd fun j hj => hne j (by omega)]
      exact Function.update_of_ne (by rw [hfd]; exact hlast.symm) _ _
    · simp only [cleared]
      omega

/-- The loop of one call of `checkClient` comes to the slot `i`. -/
abbrev Comes (readlineb : Readlineb) (s : Server) (i : ℕ) (t : Server) : Prop :=
  Reaches Continues (Server.visit readlineb) 0 s i t

theorem frame_of_comes (h : Comes readlineb s i t) : Frame s i t :=
  h.rule (frame_refl s) fun _ _ _ _ hb ht => ht.visit hb

theorem Valid.comes (h : Valid FD_SETSIZE s) (ht : Comes readlineb s i t) :
    Valid FD_SETSIZE t :=
  ht.rule (I := fun _ => Valid FD_SETSIZE) h fun _ _ _ _ hb hu => hu.visit hb

/-- When `checkClient` returns, the loop has passed the visited slots and no others. -/
theorem exists_end (h : s.checkClient readlineb = .ok t) :
    ∃ n, Comes readlineb s n t ∧ ∀ i, i < n ↔ Visited s i := by
  obtain ⟨n, hn, hcomes, hstop⟩ := exists_reaches h
  have hlast : ¬ Visited s n := by
    rw [← (frame_of_comes hcomes).continues]
    intro hscan
    by_cases hlt : n < 0 + (s.pool.maxi + 1).toNat
    · exact hstop hlt hscan
    · have hmaxi := hscan.1
      rw [(frame_of_comes hcomes).maxi] at hmaxi
      omega
  refine ⟨n, hcomes, fun i => ⟨fun hi => ?_, fun hi => ?_⟩⟩
  · obtain ⟨u, v, hu, hscan, -, -⟩ := hcomes.through (Nat.zero_le i) hi
    exact (frame_of_comes hu).continues.mp hscan
  · by_contra hle
    exact hlast (hi.of_le (Nat.le_of_not_lt hle))

theorem Valid.checkClient (h : Valid FD_SETSIZE s) (ht : s.checkClient readlineb = .ok t) :
    Valid FD_SETSIZE t := by
  obtain ⟨n, hcomes, -⟩ := exists_end ht
  exact h.comes hcomes

/-! ## Runs -/

/-- A round that returns, in its two parts. -/
theorem step_eq_some {p : Pass} :
    s.step FD_SETSIZE p = some t ↔ s.Possible p ∧
      ∃ u, s.prepare FD_SETSIZE p = .ok u ∧ u.checkClient p.readlineb = .ok t := by
  unfold step iteration
  split
  · rename_i hp
    cases hu : s.prepare FD_SETSIZE p with
    | error e =>
      refine iff_of_false nofun ?_
      rintro ⟨-, u, hok, -⟩
      cases hok
    | ok u =>
      cases ht : u.checkClient p.readlineb with
      | error e =>
        refine iff_of_false ?_ ?_
        · simp [Except.bind, ht, Except.toOption]
        · rintro ⟨-, v, hok, hv⟩
          cases hok
          rw [ht] at hv
          cases hv
      | ok v => simp [Except.bind, ht, Except.toOption, hp]
  · rename_i hp
    exact iff_of_false nofun fun h => hp h.1

theorem Valid.step {p : Pass} (h : Valid FD_SETSIZE s)
    (ht : s.step FD_SETSIZE p = some t) : Valid FD_SETSIZE t := by
  obtain ⟨hp, u, hu, hcheck⟩ := step_eq_some.mp ht
  exact (h.prepare hp hu).checkClient hcheck

theorem valid_of_run {listenfd : ℕ} {ps : List Pass}
    (h : run (Server.step FD_SETSIZE) (newServer listenfd) ps = some s) : Valid FD_SETSIZE s :=
  run_invariant (valid_newServer listenfd) (fun _ _ _ hs hp => hs.step hp) h

/-! ## The four fields of the pool -/

/-- The descriptor set, the slots and the two high-water marks say the same. -/
structure Represents (FD_SETSIZE : ℕ) (s : Server) : Prop where
  mem_readSet : ∀ fd, fd ∈ s.pool.readSet ↔
    fd = s.listenfd ∨ (0 ≤ fd ∧ ∃! i, i < FD_SETSIZE ∧ s.pool.clientfd i = fd)
  distinct : ∀ i < FD_SETSIZE, ∀ j < FD_SETSIZE, i ≠ j → 0 ≤ s.pool.clientfd i →
    s.pool.clientfd i ≠ s.pool.clientfd j
  ne_listenfd : ∀ i < FD_SETSIZE, s.pool.clientfd i ≠ s.listenfd
  le_maxi : ∀ i : ℕ, i < FD_SETSIZE → 0 ≤ s.pool.clientfd i → (i : ℤ) ≤ s.pool.maxi
  le_maxfd : ∀ fd ∈ s.pool.readSet, fd ≤ s.pool.maxfd

/-- A slot with a descriptor is inside the array. -/
theorem Valid.lt_setSize (h : Valid FD_SETSIZE s) (hi : 0 ≤ s.pool.clientfd i) :
    i < FD_SETSIZE := by
  have hle := h.le_maxi i hi
  have hlt := h.maxi_lt
  omega

theorem Valid.hasSlot_iff (h : Valid FD_SETSIZE s) :
    HasSlot s fd ↔ 0 ≤ fd ∧ ∃! i, i < FD_SETSIZE ∧ s.pool.clientfd i = fd := by
  constructor
  · rintro ⟨hfd, i, rfl⟩
    refine ⟨hfd, i, ⟨h.lt_setSize hfd, rfl⟩, ?_⟩
    rintro j ⟨-, hj⟩
    exact (h.distinct i j hfd hj.symm).symm
  · rintro ⟨hfd, i, ⟨-, hi⟩, -⟩
    exact ⟨hfd, i, hi⟩

theorem Valid.represents (h : Valid FD_SETSIZE s) : Represents FD_SETSIZE s where
  mem_readSet := by
    intro fd
    rw [h.mem_readSet, h.hasSlot_iff]
  distinct := by
    intro i _ j _ hij hi heq
    exact hij (h.distinct i j hi heq)
  ne_listenfd := by
    intro i _ heq
    apply h.ne_listenfd
    exact ⟨h.listenfd_nonneg, i, heq⟩
  le_maxi := fun i _ => h.le_maxi i
  le_maxfd := h.le_maxfd

/-- **The pool represents its clients** after every number of rounds, and inside a round
when `check_clients` is called and at every slot its loop comes to.
SOURCE: csapp/echo/echo4.c:29-110 -/
theorem pool_represents {listenfd : ℕ} {ps : List Pass}
    (h : run (Server.step FD_SETSIZE) (newServer listenfd) ps = some s) :
    Represents FD_SETSIZE s ∧ ∀ p t, s.Possible p → s.prepare FD_SETSIZE p = .ok t →
      Represents FD_SETSIZE t ∧ ∀ i u, Comes p.readlineb t i u → Represents FD_SETSIZE u := by
  have hs := valid_of_run h
  refine ⟨hs.represents, ?_⟩
  intro p t hp ht
  have hprepared := hs.prepare hp ht
  refine ⟨hprepared.represents, ?_⟩
  intro i u hu
  exact (hprepared.comes hu).represents

set_option maxRecDepth 10000 in
/-- Two clients connect, the first one is removed, and a third one gets its slot. -/
theorem pool_represents_reused :
    ∃ s, run (Server.step 1024) (newServer 3)
        [⟨{3}, 4, fun _ => [], oneRefill⟩, ⟨{3}, 5, fun _ => [], oneRefill⟩,
          ⟨{5}, 0, fun _ => [104, 10], oneRefill⟩, ⟨{3}, 4, fun _ => [], oneRefill⟩] = some s ∧
      s.closed.length = 1 ∧ s.pool.clientfd 0 = 4 ∧ s.pool.clientfd 1 = 5 ∧
      Represents 1024 s :=
  ⟨_, rfl, rfl, rfl, rfl, (@pool_represents 1024 _ 3
    [⟨{3}, 4, fun _ => [], oneRefill⟩, ⟨{3}, 5, fun _ => [], oneRefill⟩,
      ⟨{5}, 0, fun _ => [104, 10], oneRefill⟩, ⟨{3}, 4, fun _ => [], oneRefill⟩] rfl).1⟩

end GolangSandbox.Analysis
