import GolangSandbox.Analysis.PoolInvariant
import Mathlib.Data.Finset.Image

/-!
# Descriptors outside of the set

`add_client` looks for a free slot and takes the number of the descriptor as it comes. When
`Accept` returns the lowest number not in use, all smaller ones are in use: by 0, 1, 2 and
the listening descriptor, or by a client, which has a slot (`count_inUse`). So the number is
below `FD_SETSIZE` if and only if clients and reserved descriptors together are fewer than
`FD_SETSIZE`. The reserved ones have no slot: when they fill the set up, there is still a
slot free for every one of them, the check for too many clients finds nothing wrong, and
`FD_SET` gets a descriptor that does not fit (`prepare_undefined_iff`).
-/

set_option autoImplicit false

namespace GolangSandbox.Analysis

open GolangSandbox.Model GolangSandbox.Program GolangSandbox.Program.Server

variable {FD_SETSIZE : ℕ} {s t : Server} {p : Pass} {readlineb : Readlineb} {i : ℕ}

/-- Standard input, output and error, and the listening descriptor. -/
def Reserved (listenfd : ℤ) (fd : ℕ) : Prop := fd ≤ 2 ∨ (fd : ℤ) = listenfd

instance (listenfd : ℤ) : DecidablePred (Reserved listenfd) := fun _ =>
  inferInstanceAs (Decidable (_ ∨ _))

/-- The descriptor is open in the process. -/
def InUse (s : Server) (fd : ℕ) : Prop := Reserved s.listenfd fd ∨ s.connections fd ≠ none

instance (s : Server) : DecidablePred (InUse s) := fun _ => inferInstanceAs (Decidable (_ ∨ _))

/-- `Accept`, if it is called, returns the lowest descriptor not in use. -/
def Lowest (s : Server) (p : Pass) : Prop :=
  s.listenfd ∈ p.ready → ¬ InUse s p.connfd ∧ ∀ fd < p.connfd, InUse s fd

/-- A round as the system may make it. -/
def Regular (s : Server) (p : Pass) : Prop := s.Possible p ∧ Lowest s p

/-- The number of slots with a client. -/
def clients (FD_SETSIZE : ℕ) (s : Server) : ℕ :=
  Nat.count (fun i => 0 ≤ s.pool.clientfd i) FD_SETSIZE

/-- When `Accept` is called, the set has a place that is neither reserved nor a client's. -/
def Fits (FD_SETSIZE : ℕ) (s : Server) (p : Pass) : Prop :=
  s.listenfd ∈ p.ready →
    clients FD_SETSIZE s + Nat.count (Reserved s.listenfd) FD_SETSIZE < FD_SETSIZE

/-- `FD_SET` gets no descriptor that is too large. -/
def Representable (FD_SETSIZE : ℕ) (s : Server) (p : Pass) : Prop :=
  s.prepare FD_SETSIZE p ≠ .error .undefined

/-- The descriptors of the clients are in the set and are none of the reserved ones. -/
def Below (FD_SETSIZE : ℕ) (s : Server) : Prop :=
  ∀ i, 0 ≤ s.pool.clientfd i →
    s.pool.clientfd i < FD_SETSIZE ∧ ¬ Reserved s.listenfd (s.pool.clientfd i).toNat

/-! ## The round up to the new client -/

/-- `FD_SET` is called if there is a free slot, and is undefined for a descriptor that is too
large. -/
theorem addClient_undefined_iff {connfd : ℤ} {pool : Pool} :
    addClient FD_SETSIZE connfd pool = .error .undefined ↔
      (∃ i < FD_SETSIZE, pool.clientfd i < 0) ∧ (FD_SETSIZE : ℤ) ≤ connfd := by
  unfold addClient
  dsimp only
  split
  · rename_i hfind
    refine iff_of_false nofun ?_
    rintro ⟨⟨i, hi, hfree⟩, -⟩
    rw [List.find?_eq_none] at hfind
    exact hfind i (List.mem_range.mpr hi) (decide_eq_true hfree)
  · rename_i i hfind
    obtain ⟨hfree, hi, -⟩ := List.find?_range_eq_some.mp hfind
    have hslot : ∃ i < FD_SETSIZE, pool.clientfd i < 0 :=
      ⟨i, List.mem_range.mp hi, of_decide_eq_true hfree⟩
    split
    · rename_i hfd
      refine iff_of_false nofun ?_
      rintro ⟨-, hle⟩
      omega
    · rename_i hfd
      exact iff_of_true rfl ⟨hslot, not_lt.mp hfd⟩

theorem accept_undefined_iff {connfd : ℕ} :
    s.accept FD_SETSIZE connfd = .error .undefined ↔
      s.listenfd ∈ s.pool.readySet ∧ addClient FD_SETSIZE connfd s.pool = .error .undefined := by
  unfold Server.accept
  split
  · rename_i hready
    cases addClient FD_SETSIZE connfd s.pool with
    | error e => simp [Except.map, hready]
    | ok pool => exact iff_of_false nofun fun h => nomatch h.2
  · rename_i hready
    exact iff_of_false nofun fun h => hready h.1

theorem prepare_undefined_iff : s.prepare FD_SETSIZE p = .error .undefined ↔
    s.listenfd ∈ p.ready ∧ (∃ i < FD_SETSIZE, s.pool.clientfd i < 0) ∧
      FD_SETSIZE ≤ p.connfd :=
  accept_undefined_iff.trans <| and_congr_right fun _ =>
    addClient_undefined_iff.trans <| and_congr_right fun _ => Int.ofNat_le

/-! ## Counting -/

/-- The least number without a property is below `n` if and only if not all numbers below
`n` have it. -/
theorem least_lt_iff {P : ℕ → Prop} [DecidablePred P] {m n : ℕ} (hm : ¬ P m)
    (hmin : ∀ k < m, P k) : m < n ↔ Nat.count P n < n := by
  rw [(Nat.count_le P).lt_iff_ne, ne_eq, Nat.count_iff_forall]
  constructor
  · intro hlt hall
    exact hm (hall m hlt)
  · intro hnot
    by_contra hle
    exact hnot fun k hk => hmin k (by omega)

/-- The slots with a client. -/
def slots (FD_SETSIZE : ℕ) (s : Server) : Finset ℕ :=
  (Finset.range FD_SETSIZE).filter fun i => 0 ≤ s.pool.clientfd i

/-- The descriptors of the clients are as many as their slots. -/
theorem card_image_slots (h : Valid FD_SETSIZE s) :
    ((slots FD_SETSIZE s).image fun i => (s.pool.clientfd i).toNat).card =
      clients FD_SETSIZE s := by
  rw [clients, Nat.count_eq_card_filter_range]
  apply Finset.card_image_of_injOn
  intro i hi j hj hij
  have hi' := (Finset.mem_filter.mp hi).2
  have hj' := (Finset.mem_filter.mp hj).2
  simp only at hij
  exact h.distinct i j hi' (by omega)

/-- A descriptor below the limit is in use if it is reserved or the descriptor of a slot. -/
theorem filter_inUse (h : Valid FD_SETSIZE s) (hbelow : Below FD_SETSIZE s) :
    (Finset.range FD_SETSIZE).filter (InUse s) =
      ((slots FD_SETSIZE s).image fun i => (s.pool.clientfd i).toNat) ∪
        (Finset.range FD_SETSIZE).filter (Reserved s.listenfd) := by
  ext fd
  rw [Finset.mem_union, Finset.mem_image, Finset.mem_filter, Finset.mem_filter, Finset.mem_range,
    InUse, h.isOpen]
  constructor
  · rintro ⟨hfd, hreserved | ⟨hnonneg, i, hi⟩⟩
    · exact .inr ⟨hfd, hreserved⟩
    · have hslot : 0 ≤ s.pool.clientfd i := by omega
      refine .inl ⟨i, Finset.mem_filter.mpr ⟨Finset.mem_range.mpr (h.lt_setSize hslot), hslot⟩, ?_⟩
      rw [hi, Int.toNat_natCast]
  · rintro (⟨i, hi, rfl⟩ | ⟨hfd, hreserved⟩)
    · have hslot := (Finset.mem_filter.mp hi).2
      have hlt := (hbelow i hslot).1
      refine ⟨by omega, .inr ?_⟩
      rw [Int.toNat_of_nonneg hslot]
      exact hasSlot_clientfd hslot
    · exact ⟨hfd, .inl hreserved⟩

/-- No client has a reserved descriptor, so the two kinds are counted one by one. -/
theorem count_inUse (h : Valid FD_SETSIZE s) (hbelow : Below FD_SETSIZE s) :
    Nat.count (InUse s) FD_SETSIZE =
      clients FD_SETSIZE s + Nat.count (Reserved s.listenfd) FD_SETSIZE := by
  rw [Nat.count_eq_card_filter_range, filter_inUse h hbelow, Finset.card_union_of_disjoint,
    card_image_slots h, Nat.count_eq_card_filter_range]
  rw [Finset.disjoint_left]
  intro fd hfd hreserved
  obtain ⟨i, hi, rfl⟩ := Finset.mem_image.mp hfd
  exact (hbelow i (Finset.mem_filter.mp hi).2).2 (Finset.mem_filter.mp hreserved).2

/-- There is always a free slot, since the reserved descriptors have none. -/
theorem exists_free_slot (hpos : 0 < FD_SETSIZE) (h : Valid FD_SETSIZE s)
    (hbelow : Below FD_SETSIZE s) : ∃ i < FD_SETSIZE, s.pool.clientfd i < 0 := by
  have hreserved : 0 < Nat.count (Reserved s.listenfd) FD_SETSIZE := by
    rw [Nat.count_eq_card_filter_range, Finset.card_pos]
    exact ⟨0, Finset.mem_filter.mpr ⟨Finset.mem_range.mpr hpos, .inl (Nat.zero_le 2)⟩⟩
  have hle : Nat.count (InUse s) FD_SETSIZE ≤ FD_SETSIZE := Nat.count_le _
  rw [count_inUse h hbelow] at hle
  by_contra hfull
  push Not at hfull
  have hall : clients FD_SETSIZE s = FD_SETSIZE := Nat.count_iff_forall.mpr hfull
  omega

/-- **When `FD_SET` is called with a descriptor that fits.** -/
theorem representable_iff_fits (hpos : 0 < FD_SETSIZE) (h : Valid FD_SETSIZE s)
    (hbelow : Below FD_SETSIZE s) (hlowest : Lowest s p) :
    Representable FD_SETSIZE s p ↔ Fits FD_SETSIZE s p := by
  rw [Representable, ne_eq, prepare_undefined_iff, Fits]
  by_cases hready : s.listenfd ∈ p.ready
  · obtain ⟨hfree, hmin⟩ := hlowest hready
    have hslot := exists_free_slot hpos h hbelow
    have hleast := least_lt_iff (n := FD_SETSIZE) hfree hmin
    rw [count_inUse h hbelow] at hleast
    simp only [hready, hslot, true_and, true_implies, not_le]
    exact hleast
  · simp only [hready, false_and, not_false_eq_true, false_implies]

/-! ## The descriptors of the clients -/

theorem below_newServer (listenfd : ℕ) : Below FD_SETSIZE (newServer listenfd) := by
  intro i hi
  have hneg : (0 : ℤ) ≤ -1 := hi
  omega

/-- A visit does not change the descriptors of the slots, except that it clears some. -/
theorem Below.visit (h : Below FD_SETSIZE s) (ht : s.visit readlineb i = .ok t) :
    Below FD_SETSIZE t := by
  obtain ⟨c, -, ⟨-, rfl⟩ | ⟨-, rfl⟩⟩ := visit_ok ht
  · exact h
  · intro j hj
    rw [clientfd_cleared] at hj ⊢
    split at hj
    · omega
    · rename_i hji
      rw [if_neg hji]
      exact h j hj

theorem Below.prepare (h : Below FD_SETSIZE s) (hlowest : Lowest s p)
    (ht : s.prepare FD_SETSIZE p = .ok t) : Below FD_SETSIZE t := by
  obtain ⟨-, rfl⟩ | ⟨hready, i, hi, hfree, hfd, rfl⟩ := accept_ok ht
  · exact h
  · intro j hj
    rw [clientfd_added] at hj ⊢
    split
    · refine ⟨by exact_mod_cast hfd, fun hreserved => ?_⟩
      exact (hlowest hready).1 (.inl hreserved)
    · rename_i hji
      rw [if_neg hji] at hj
      exact h j hj

/-- The step lemma. -/
theorem Below.step (h : Below FD_SETSIZE s) (hlowest : Lowest s p)
    (ht : s.step FD_SETSIZE p = some t) : Below FD_SETSIZE t := by
  obtain ⟨-, u, hu, hcheck⟩ := step_eq_some.mp ht
  obtain ⟨n, hcomes, -⟩ := exists_end hcheck
  exact hcomes.rule (I := fun _ => Below FD_SETSIZE) (h.prepare hlowest hu)
    fun _ _ _ _ hb hv => hv.visit hb

/-! ## One client after another -/

/-- The first `k` slots have the descriptors from 4 on. -/
structure ConnectedTo (k : ℕ) (s : Server) : Prop where
  listenfd : s.listenfd = 3
  clientfd : ∀ i, s.pool.clientfd i = if i < k then 4 + (i : ℤ) else -1

/-- A round in which a client connects and nothing else happens. -/
def connect (k : ℕ) : Pass := ⟨{3}, 4 + k, fun _ => [], oneRefill⟩

theorem ConnectedTo.hasSlot_iff {k : ℕ} (h : ConnectedTo k s) (fd : ℕ) :
    HasSlot s fd ↔ 4 ≤ fd ∧ fd < 4 + k := by
  constructor
  · rintro ⟨hfd, i, hi⟩
    rw [h.clientfd] at hi
    split at hi
    · omega
    · omega
  · rintro ⟨hlow, hhigh⟩
    refine ⟨Int.natCast_nonneg fd, fd - 4, ?_⟩
    rw [h.clientfd, if_pos (by omega)]
    omega

/-- The next descriptor is the one behind the clients. -/
theorem ConnectedTo.regular {k : ℕ} (h : ConnectedTo k s) (hs : Valid FD_SETSIZE s) :
    Regular s (connect k) := by
  have huse : ∀ fd, InUse s fd ↔ fd < 4 + k := by
    intro fd
    rw [InUse, hs.isOpen, h.hasSlot_iff, Reserved, h.listenfd]
    omega
  have hfree : ¬ InUse s (4 + k) := by
    rw [huse]
    exact lt_irrefl _
  refine ⟨⟨?_, fun _ => ⟨?_, ?_⟩⟩, fun _ => ⟨hfree, fun fd hfd => (huse fd).mpr hfd⟩⟩
  · intro fd hfd
    rw [Finset.mem_singleton.mp hfd, hs.mem_readSet, h.listenfd]
    exact .inl rfl
  · rw [h.listenfd]
    show ((4 + k : ℕ) : ℤ) ≠ 3
    omega
  · by_contra hopen
    exact hfree (.inr hopen)

/-- The first free slot gets the client. -/
theorem addClient_eq {connfd : ℤ} {pool : Pool} (hi : i < FD_SETSIZE) (hfree : pool.clientfd i < 0)
    (hfull : ∀ j < i, 0 ≤ pool.clientfd j) (hfd : connfd < FD_SETSIZE) :
    addClient FD_SETSIZE connfd pool = .ok (pool.withClient i connfd) := by
  have hfind : (List.range FD_SETSIZE).find? (fun j => decide (pool.clientfd j < 0)) = some i := by
    refine List.find?_range_eq_some.mpr ⟨decide_eq_true hfree, List.mem_range.mpr hi, ?_⟩
    intro j hj
    have hnonneg := hfull j hj
    simpa using hnonneg
  unfold addClient
  simp only [hfind, if_pos hfd]
  rfl

theorem accept_eq {connfd : ℕ} (hready : s.listenfd ∈ s.pool.readySet)
    (hadd : addClient FD_SETSIZE connfd s.pool = .ok (s.pool.withClient i connfd)) :
    s.accept FD_SETSIZE connfd = .ok (s.added i connfd) := by
  rw [Server.accept, if_pos hready, hadd]
  rfl

/-- Without a ready client the loop over the slots has nothing to do. -/
theorem checkClient_idle (h : s.pool.nready ≤ 0) : s.checkClient readlineb = .ok s := by
  unfold Server.checkClient
  cases (s.pool.maxi + 1).toNat with
  | zero => rfl
  | succ n =>
    rw [forLoop, if_neg]
    intro hcontinues
    have hpos : 0 < s.pool.nready := hcontinues.2
    omega

theorem ConnectedTo.step {k : ℕ} (h : ConnectedTo k s) (hs : Valid FD_SETSIZE s)
    (hk : 4 + k < FD_SETSIZE) :
    ∃ t, s.step FD_SETSIZE (connect k) = some t ∧ ConnectedTo (k + 1) t := by
  have hready : s.listenfd ∈ (connect k).ready := by
    rw [h.listenfd]
    exact Finset.mem_singleton_self 3
  have hprepare : s.prepare FD_SETSIZE (connect k) = .ok
      (((s.deliver (connect k).arrivals).select (connect k).ready).added k (4 + k)) := by
    refine accept_eq hready (addClient_eq (by omega) ?_ ?_ (by exact_mod_cast hk))
    · show s.pool.clientfd k < 0
      rw [h.clientfd, if_neg (lt_irrefl k)]
      omega
    · intro j hj
      show 0 ≤ s.pool.clientfd j
      rw [h.clientfd, if_pos hj]
      omega
  refine ⟨_, step_eq_some.mpr ⟨(h.regular hs).1, _, hprepare, checkClient_idle ?_⟩, h.listenfd, ?_⟩
  · show ((Finset.card {3} : ℕ) : ℤ) - 1 ≤ 0
    rw [Finset.card_singleton]
    omega
  · intro i
    rw [clientfd_added]
    show (if i = k then ((4 + k : ℕ) : ℤ) else s.pool.clientfd i) = _
    rw [h.clientfd]
    by_cases hik : i = k
    · rw [if_pos hik, if_pos (by omega)]
      omega
    · rw [if_neg hik]
      by_cases hlt : i < k
      · rw [if_pos hlt, if_pos (by omega)]
      · rw [if_neg hlt, if_neg (by omega)]

theorem connectedTo_newServer : ConnectedTo 0 (newServer 3) := ⟨rfl, fun _ => rfl⟩

/-- Of the first `n` numbers `k` are below `k`. -/
theorem count_of_lt {P : ℕ → Prop} [DecidablePred P] {k n : ℕ} (hk : k ≤ n)
    (h : ∀ i, P i ↔ i < k) : Nat.count P n = k := by
  obtain ⟨m, rfl⟩ := Nat.exists_eq_add_of_le hk
  have hlow : Nat.count P k = k := Nat.count_iff_forall.mpr fun i hi => (h i).mpr hi
  have hhigh : Nat.count (fun j => P (k + j)) m = 0 := by
    refine Nat.count_iff_forall_not.mpr fun j _ hj => ?_
    have hlt := (h (k + j)).mp hj
    omega
  rw [Nat.count_add, hlow, hhigh, Nat.add_zero]

theorem ConnectedTo.clients_eq {k : ℕ} (h : ConnectedTo k s) (hk : k ≤ FD_SETSIZE) :
    clients FD_SETSIZE s = k := by
  refine count_of_lt hk fun i => ?_
  rw [h.clientfd]
  split
  · omega
  · omega

theorem ConnectedTo.fits {k : ℕ} (h : ConnectedTo k s) (hk : 4 + k < FD_SETSIZE) :
    Fits FD_SETSIZE s (connect k) := by
  intro _
  have hreserved : Nat.count (Reserved s.listenfd) FD_SETSIZE = 4 := by
    refine count_of_lt (by omega) fun fd => ?_
    rw [Reserved, h.listenfd]
    omega
  rw [h.clients_eq (by omega), hreserved]
  omega

/-- Clients connect one after another, and nothing else happens. -/
theorem exists_connectedTo (k : ℕ) (hk : 4 + k ≤ FD_SETSIZE) :
    ∃ ps s, Along (Server.step FD_SETSIZE) Regular (newServer 3) ps ∧
      Along (Server.step FD_SETSIZE) (Fits FD_SETSIZE) (newServer 3) ps ∧
      run (Server.step FD_SETSIZE) (newServer 3) ps = some s ∧ ConnectedTo k s := by
  induction k with
  | zero => exact ⟨[], _, along_nil _, along_nil _, rfl, connectedTo_newServer⟩
  | succ k ih =>
    obtain ⟨ps, s, hps, hfits, hs, hconnected⟩ := ih (by omega)
    have hvalid := valid_of_run hs
    obtain ⟨t, ht, hnext⟩ := hconnected.step hvalid (by omega)
    refine ⟨ps ++ [connect k], t, ?_, ?_, run_concat_eq_some.mpr ⟨s, hs, ht⟩, hnext⟩
    · exact (along_append hs).mpr ⟨hps, hconnected.regular hvalid, fun _ _ => trivial⟩
    · exact (along_append hs).mpr ⟨hfits, hconnected.fits (by omega), fun _ _ => trivial⟩

/-! ## The main theorem -/

/-- The condition of every round decides, in a whole run, as it does in one round. -/
theorem along_representable_iff (hpos : 0 < FD_SETSIZE) (h : Valid FD_SETSIZE s)
    (hbelow : Below FD_SETSIZE s) {ps : List Pass}
    (hregular : Along (Server.step FD_SETSIZE) Regular s ps) :
    Along (Server.step FD_SETSIZE) (Representable FD_SETSIZE) s ps ↔
      Along (Server.step FD_SETSIZE) (Fits FD_SETSIZE) s ps := by
  induction ps generalizing s with
  | nil => exact Iff.rfl
  | cons p ps ih =>
    have hlowest := hregular.1.2
    refine and_congr (representable_iff_fits hpos h hbelow hlowest) (forall_congr' fun t => ?_)
    refine imp_congr_right fun ht => ?_
    exact ih (h.step ht) (hbelow.step hlowest ht) (hregular.2 t ht)

/-- **Descriptors outside of the set.** In every run in which `Accept` returns the lowest
descriptor not in use, `add_client` passes only descriptors below `FD_SETSIZE` to `FD_SET` if
and only if at every call of `Accept` the clients, and the reserved descriptors below
`FD_SETSIZE`, are together fewer than `FD_SETSIZE`.
SOURCE: csapp/echo/echo4.c:29-82 -/
theorem descriptors_in_set_iff (hpos : 0 < FD_SETSIZE) (listenfd : ℕ) (ps : List Pass)
    (hregular : Along (Server.step FD_SETSIZE) Regular (newServer listenfd) ps) :
    Along (Server.step FD_SETSIZE) (Representable FD_SETSIZE) (newServer listenfd) ps ↔
      Along (Server.step FD_SETSIZE) (Fits FD_SETSIZE) (newServer listenfd) ps :=
  along_representable_iff hpos (valid_newServer listenfd) (below_newServer listenfd) hregular

/-- As many clients as there are descriptors for connect one after another. -/
theorem descriptors_in_set_full :
    ∃ ps s, run (Server.step 1024) (newServer 3) ps = some s ∧ clients 1024 s = 1020 ∧
      Along (Server.step 1024) (Representable 1024) (newServer 3) ps := by
  obtain ⟨ps, s, hps, hfits, hs, hconnected⟩ := @exists_connectedTo 1024 1020 (by omega)
  exact ⟨ps, s, hs, hconnected.clients_eq (by omega),
    (descriptors_in_set_iff (by omega) 3 ps hps).mpr hfits⟩

/-- 1020 clients have the descriptors 4 to 1023; the next one gets 1024 and a slot, and
`FD_SET` is undefined. -/
theorem descriptor_outside_set :
    ∃ ps s, run (Server.step 1024) (newServer 3) ps = some s ∧
      Along (Server.step 1024) Regular (newServer 3) (ps ++ [connect 1020]) ∧
      s.prepare 1024 (connect 1020) = .error .undefined ∧
      ¬ Along (Server.step 1024) (Representable 1024) (newServer 3) (ps ++ [connect 1020]) := by
  obtain ⟨ps, s, hps, -, hs, hconnected⟩ := @exists_connectedTo 1024 1020 (by omega)
  have hregular := hconnected.regular (valid_of_run hs)
  have hundefined : s.prepare 1024 (connect 1020) = .error .undefined := by
    refine prepare_undefined_iff.mpr ⟨?_, ⟨1020, by omega, ?_⟩, le_refl 1024⟩
    · rw [hconnected.listenfd]
      exact Finset.mem_singleton_self 3
    · rw [hconnected.clientfd, if_neg (lt_irrefl 1020)]
      omega
  refine ⟨ps, s, hs, (along_append hs).mpr ⟨hps, hregular, fun _ _ => trivial⟩, hundefined, ?_⟩
  intro hall
  exact ((along_append hs).mp hall).2.1 hundefined

end GolangSandbox.Analysis
