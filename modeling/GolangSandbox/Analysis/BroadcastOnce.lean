import GolangSandbox.Analysis.RegistryInvariant
import GolangSandbox.Model.Scan

/-!
# Which removals a running broadcast survives

`Broadcast` ranges over the header it captured without the mutex, while `remove`
shifts the backing array in place. If `append` has reallocated in between, the loop
reads an array that nobody shifts any more. As long as the array is shared, a client
that was registered at the start is `Tracked`: either it has been written to and
occurs in no cell ahead, or it has not and occurs in exactly one. A `remove` keeps
this unless it `Disturbs` the loop: it moves an unread client behind the loop, or
leaves a second copy of one in the stale last cell.

The condition is exact in this sense: after a disturbing `remove` there is a way to
go on such that some client is not written to exactly once (`disturbs_breaks`).
-/

set_option autoImplicit false

namespace GolangSandbox.Analysis

open GolangSandbox.Model GolangSandbox.Program GolangSandbox.Program.TcpChatServer

variable {μ : Type} {s t u : TcpChatServer μ}

/-- The action is an iteration of the `k`-th `Broadcast` that writes to `client`. -/
def isDelivery (k : ℕ) (client : ClientId) : Action μ → Bool
  | .deliver k' c => k' = k ∧ c = client
  | _ => false

/-- How often the `k`-th `Broadcast` has written to `client` in a run. -/
def deliveries (k : ℕ) (client : ClientId) (as : List (Action μ)) : ℕ :=
  as.countP (isDelivery k client)

/-- Every client that is registered in both states was written to exactly once. -/
def DeliveredOnce (k : ℕ) (s : TcpChatServer μ) (as : List (Action μ))
    (t : TcpChatServer μ) : Prop :=
  ∀ client ∈ s.registered, client ∈ t.registered → deliveries k client as = 1

/-- Removing `client` disturbs the `k`-th `Broadcast`, which started with the clients
`olds`: the loop still reads the array of `s.clients`, one of `olds` stands behind
`client` at an index the loop has not reached, and either the loop has passed `client`
or that one is the last client. -/
def Disturbs (olds : List ClientId) (k : ℕ) (s : TcpChatServer μ) (client : ClientId) : Prop :=
  ∃ b l j i, s.casts[k]? = some b ∧ b.loop = some l ∧ s.clients.array = l.header.array ∧
    s.registered[j]? = some client ∧ j < i ∧ l.pos ≤ i ∧
    (∃ c ∈ olds, s.registered[i]? = some c) ∧ (j < l.pos ∨ i + 1 = s.registered.length)

/-- The step is not a `remove` that disturbs the `k`-th `Broadcast`. -/
def Undisturbed (olds : List ClientId) (k : ℕ) (s : TcpChatServer μ) (a : Action μ) : Prop :=
  ∀ client, a = .remove client → ¬ Disturbs olds k s client

theorem undisturbed_of_ne {olds : List ClientId} {k : ℕ} {a : Action μ}
    (ha : ∀ client, a ≠ .remove client) : Undisturbed olds k s a :=
  fun client h => absurd h (ha client)

/-! ## Counting deliveries -/

theorem deliveries_concat (k : ℕ) (client : ClientId) (as : List (Action μ)) (a : Action μ) :
    deliveries k client (as ++ [a]) =
      deliveries k client as + if isDelivery k client a then 1 else 0 := by
  simp [deliveries, List.countP_append, List.countP_singleton]

theorem deliveries_concat_of_ne {k : ℕ} {client : ClientId} {as : List (Action μ)}
    {a : Action μ} (ha : isDelivery k client a = false) :
    deliveries k client (as ++ [a]) = deliveries k client as := by
  simp [deliveries_concat, ha]

/-! ## The invariant of one loop -/

/-- The `k`-th `Broadcast` is at `l`, and every client of `olds` that is still
registered is tracked. While the loop shares the array of `s.clients`, the index a
client is registered at says whether it has been written to. -/
structure Scanning (olds : List ClientId) (k : ℕ) (as : List (Action μ))
    (s : TcpChatServer μ) (l : RangeLoop) : Prop where
  here : ∃ b, s.casts[k]? = some b ∧ b.loop = some l
  known : ∀ c ∈ olds, c ∈ s.accepted
  tracked : ∀ c ∈ olds, c ∈ s.registered →
    Tracked (cell s.arrays l.header.array) l.header.len l.pos (deliveries k c as) (some (some c))
  placed : s.clients.array = l.header.array → ∀ (i : ℕ) (c : ClientId),
    s.registered[i]? = some c → c ∈ olds → Placed l.header.len l.pos (deliveries k c as) i

section Scanning

variable {olds : List ClientId} {k : ℕ} {as : List (Action μ)} {l : RangeLoop}

theorem Scanning.backed (h : Scanning olds k as s l) (hs : RegistryInv s) :
    l.header.Backed s.arrays ∧ l.header.off = 0 ∧
      ∀ i < l.header.len, ∃ c, cell s.arrays l.header.array i = some (some c) := by
  obtain ⟨b, hb, hl⟩ := h.here
  exact hs.casts b (List.mem_of_getElem? hb) l hl

/-- The cell a registered client is in, and that it is in no other cell of the list. -/
theorem cell_registered (hs : RegistryInv s) {i : ℕ} {c : ClientId}
    (hi : s.registered[i]? = some c) :
    i < s.clients.len ∧ cell s.arrays s.clients.array i = some (some c) ∧
      ∀ q < s.clients.len, cell s.arrays s.clients.array q = some (some c) → q = i := by
  have hlt : i < s.clients.len := by
    rw [hs.len_eq]
    exact (List.getElem?_eq_some_iff.mp hi).1
  refine ⟨hlt, by rw [hs.cell_eq hlt, hi]; rfl, fun q hq hqc => ?_⟩
  rw [hs.cell_eq hq, Option.map_eq_some_iff] at hqc
  obtain ⟨c', hc', hcc⟩ := hqc
  rw [Option.some.injEq] at hcc
  subst hcc
  have hqlt := (List.getElem?_eq_some_iff.mp hc').1
  exact (List.getElem?_inj hqlt hs.registered_nodup).mp (hc'.trans hi.symm)

/-- A loop that starts tracks every registered client. -/
theorem scanning_start (hs : RegistryInv s) (h : s.start k = some t) (a : Action μ)
    (ha : ∀ c, isDelivery k c a = false) :
    Scanning s.registered k [a] t ⟨s.clients, 0⟩ := by
  obtain ⟨b, hb, -, rfl⟩ := start_eq_some.mp h
  have hzero : ∀ c, deliveries k c [a] = 0 := by
    intro c
    simp [deliveries, ha c]
  have hklt := (List.getElem?_eq_some_iff.mp hb).1
  refine ⟨⟨{ b with loop := some ⟨s.clients, 0⟩ }, List.getElem?_set_self hklt, rfl⟩,
    fun c hc => List.mem_of_mem_filter hc, fun c hc _ => ?_, fun _ i c hi hc => ?_⟩
  · obtain ⟨i, hi⟩ := List.mem_iff_getElem?.mp hc
    obtain ⟨hlt, hcell, huniq⟩ := cell_registered hs hi
    rw [hzero]
    exact Tracked.start hlt hcell huniq
  · rw [hzero]
    exact .inr ⟨rfl, Nat.zero_le _, (cell_registered hs hi).1⟩

/-- `accept` writes behind all registered clients, or to a new array. -/
theorem Scanning.accept (h : Scanning olds k as s l) (hs : RegistryInv s)
    {client : ClientId} (extra : ℕ) (hc : client ∉ s.accepted) :
    Scanning olds k (as ++ [.accept client extra]) (s.accept client extra) l := by
  have hback := (h.backed hs).1
  have hd : ∀ c, deliveries k c (as ++ [.accept client extra]) = deliveries k c as :=
    fun c => deliveries_concat_of_ne rfl
  have hne : ∀ c ∈ olds, c ≠ client := by
    rintro c hco rfl
    exact hc (h.known c hco)
  have hold : ∀ c ∈ olds, c ∈ (s.accept client extra).registered → c ∈ s.registered := by
    intro c hco hcr
    rw [registered_accept hs extra hc, List.mem_append, List.mem_singleton] at hcr
    exact hcr.resolve_right (hne c hco)
  refine ⟨h.here, fun c hco => List.mem_append_left _ (h.known c hco), fun c hco hcr => ?_,
    fun harr i c hi hco => ?_⟩
  · rw [hd]
    have htr := h.tracked c hco (hold c hco hcr)
    by_cases hshare : s.clients.len + 1 ≤ s.clients.cap ∧ l.header.array = s.clients.array
    · obtain ⟨i, hi⟩ := List.mem_iff_getElem?.mp (hold c hco hcr)
      obtain ⟨hlt, hcell, -⟩ := cell_registered hs hi
      rw [← hshare.2] at hcell
      refine htr.overwrite (h.placed hshare.2.symm i c hi hco) hcell hlt (y := some (some client))
        (fun q => ?_) ?_
      · rw [cell_accept hs client extra hback.array_lt]
        simp only [hshare.1, hshare.2, true_and]
      · simp only [ne_eq, Option.some.injEq]
        exact (hne c hco).symm
    · refine htr.congr fun q _ _ => ?_
      rw [cell_accept hs client extra hback.array_lt, if_neg fun hq => hshare ⟨hq.1, hq.2.1⟩]
  · rw [hd]
    rw [registered_accept hs extra hc] at hi
    -- The header still points to the captured array only if nothing was allocated.
    have harr' : s.clients.array = l.header.array := by
      by_cases fits : s.clients.len + [some client].length ≤ s.clients.cap
      · exact (Slice.array_append_of_fits fits).symm.trans harr
      · have hnew := (Slice.array_append_of_grows fits).symm.trans harr
        exact absurd hback.array_lt (by rw [← hnew]; exact Nat.lt_irrefl _)
    obtain hlt | hge := Nat.lt_or_ge i s.registered.length
    · rw [List.getElem?_append_left hlt] at hi
      exact h.placed harr' i c hi hco
    · rw [List.getElem?_append_right hge] at hi
      have := List.mem_of_getElem? hi
      exact absurd (List.mem_singleton.mp this) (hne c hco)

/-- `remove` keeps the invariant unless it disturbs the loop. -/
theorem Scanning.remove (h : Scanning olds k as s l) (hs : RegistryInv s) {client : ClientId}
    (hen : s.Enabled (.remove client)) (hsafe : ¬ Disturbs olds k s client)
    (hrem : s.remove client = some t) : Scanning olds k (as ++ [.remove client]) t l := by
  obtain ⟨j, hj⟩ := exists_registered hen
  obtain ⟨t', ht', haccepted, hremoved, hcasts, harr, -, -, -, -, hcell, -⟩ := remove_spec hs hj
  rw [ht', Option.some.injEq] at hrem
  subst hrem
  have hd : ∀ c, deliveries k c (as ++ [.remove client]) = deliveries k c as :=
    fun c => deliveries_concat_of_ne rfl
  have hreg := registered_remove hs hj haccepted hremoved
  have hjlt := (List.getElem?_eq_some_iff.mp hj).1
  -- The loop reads the shifted array, or one that nobody shifts.
  have hcell' : ∀ q, cell t'.arrays l.header.array q =
      if l.header.array = s.clients.array ∧ j ≤ q ∧ q < s.clients.len - 1 then
        cell s.arrays l.header.array (q + 1)
      else cell s.arrays l.header.array q := fun q => hcell _ q
  have hshift : s.clients.array = l.header.array → ∀ (i : ℕ) (c : ClientId),
      s.registered[i]? = some c → i ≠ j → c ∈ olds →
      Tracked (cell t'.arrays l.header.array) l.header.len l.pos (deliveries k c as)
        (some (some c)) ∧
      Placed l.header.len l.pos (deliveries k c as) (if i < j then i else i - 1) := by
    intro hshare i c hi hij hco
    obtain ⟨hlt, hx, huniq⟩ := cell_registered hs hi
    rw [hshare] at hx huniq
    refine (h.tracked c hco (List.mem_of_getElem? hi)).shift (h.placed hshare i c hi hco) hx huniq
      hlt hij (fun q => ?_) ?_
    · rw [hcell']
      simp only [hshare, true_and]
    · rintro ⟨hji, hpi, hlast⟩
      obtain ⟨b, hb, hl⟩ := h.here
      refine hsafe ⟨b, l, j, i, hb, hl, hshare, hj, hji, hpi, ⟨c, hco, hi⟩, ?_⟩
      refine hlast.imp_right fun hil => ?_
      have hlen := hs.len_eq
      omega
  refine ⟨?_, ?_, fun c hco hcr => ?_, fun hshare i c hi hco => ?_⟩
  · rw [hcasts]
    exact h.here
  · rw [haccepted]
    exact h.known
  · rw [hd]
    rw [hreg] at hcr
    obtain ⟨i, hi, hij⟩ : ∃ i, s.registered[i]? = some c ∧ i ≠ j := by
      obtain ⟨i, hi⟩ := List.mem_iff_getElem?.mp hcr
      rw [List.getElem?_eraseIdx] at hi
      split at hi
      · exact ⟨i, hi, by omega⟩
      · exact ⟨i + 1, hi, by omega⟩
    by_cases hshare : s.clients.array = l.header.array
    · exact (hshift hshare i c hi hij hco).1
    · refine (h.tracked c hco (List.mem_of_getElem? hi)).congr fun q _ _ => ?_
      rw [hcell', if_neg fun hq => hshare hq.1.symm]
  · rw [hd]
    rw [harr] at hshare
    rw [hreg, List.getElem?_eraseIdx] at hi
    split at hi
    · rename_i hij
      have := (hshift hshare i c hi (by omega) hco).2
      rwa [if_pos hij] at this
    · rename_i hij
      have := (hshift hshare (i + 1) c hi (by omega) hco).2
      rwa [if_neg (by omega), Nat.add_sub_cancel] at this

/-- An iteration of the loop itself. -/
theorem Scanning.deliver (h : Scanning olds k as s l) (hs : RegistryInv s) {client : ClientId}
    (hdel : s.deliver k client = some t) :
    Scanning olds k (as ++ [.deliver k client]) t ⟨l.header, l.pos + 1⟩ := by
  obtain ⟨b, l', hb, hl', hindex, rfl⟩ := deliver_eq_some.mp hdel
  obtain ⟨-, hoff, -⟩ := h.backed hs
  obtain ⟨b', hb', hl⟩ := h.here
  rw [hb, Option.some.injEq] at hb'
  subst hb'
  rw [hl', Option.some.injEq] at hl
  subst hl
  have hpos : l'.pos < l'.header.len := by
    unfold Slice.index at hindex
    split at hindex
    · assumption
    · cases hindex
  have hcell : cell s.arrays l'.header.array l'.pos = some (some client) := by
    rwa [Slice.index, if_pos hpos, hoff, Nat.zero_add] at hindex
  have hklt := (List.getElem?_eq_some_iff.mp hb).1
  have hself : deliveries k client (as ++ [.deliver k client]) = deliveries k client as + 1 := by
    simp [deliveries_concat, isDelivery]
  have hother : ∀ c, c ≠ client →
      deliveries k c (as ++ [.deliver k client]) = deliveries k c as := by
    intro c hc
    refine deliveries_concat_of_ne ?_
    simp [isDelivery, hc.symm]
  refine ⟨⟨{ b with loop := some ⟨l'.header, l'.pos + 1⟩ }, List.getElem?_set_self hklt, rfl⟩,
    h.known, fun c hco hcr => ?_, fun hshare i c hi hco => ?_⟩
  · have htr := h.tracked c hco hcr
    by_cases hc : c = client
    · subst hc
      rw [hself]
      exact (htr.read_self hpos hcell).2
    · rw [hother c hc]
      refine htr.read_ne ?_
      rw [hcell]
      simpa using Ne.symm hc
  · have hpl := h.placed hshare i c hi hco
    have hcr : c ∈ s.registered := List.mem_of_getElem? hi
    obtain ⟨-, hx, huniq⟩ := cell_registered hs hi
    rw [hshare] at hx
    by_cases hc : c = client
    · subst hc
      have hzero := ((h.tracked c hco hcr).read_self hpos hcell).1
      obtain ⟨hone, -⟩ | ⟨-, i', -, -, -, huniq'⟩ := h.tracked c hco hcr
      · omega
      · obtain ⟨hd, -⟩ | ⟨-, hpi, hin⟩ := hpl
        · omega
        · have hi' := huniq' i hpi hin hx
          have hp' := huniq' l'.pos (Nat.le_refl _) hpos hcell
          rw [hself]
          exact .inl ⟨by omega, show i < l'.pos + 1 by omega⟩
    · rw [hother c hc]
      refine hpl.read ?_
      rintro rfl
      rw [hcell, Option.some.injEq, Option.some.injEq] at hx
      exact hc hx.symm

/-- A step that leaves the arrays, the header and this `Broadcast` alone. -/
theorem Scanning.frame (h : Scanning olds k as s l) {a : Action μ}
    (harrays : t.arrays = s.arrays) (hclients : t.clients = s.clients)
    (haccepted : t.accepted = s.accepted) (hremoved : t.removed = s.removed)
    (hcasts : ∃ b, t.casts[k]? = some b ∧ b.loop = some l)
    (ha : ∀ c, isDelivery k c a = false) : Scanning olds k (as ++ [a]) t l := by
  have hreg : t.registered = s.registered := by simp only [registered, haccepted, hremoved]
  refine ⟨hcasts, haccepted ▸ h.known, ?_, ?_⟩
  · intro c hco hcr
    rw [deliveries_concat_of_ne (ha c), harrays]
    exact h.tracked c hco (hreg ▸ hcr)
  · intro hshare i c hi hco
    rw [deliveries_concat_of_ne (ha c)]
    exact h.placed (hclients ▸ hshare) i c (hreg ▸ hi) hco

/-- **The step lemma.** A step that does not disturb the loop keeps its invariant. -/
theorem Scanning.step (h : Scanning olds k as s l) (hs : RegistryInv s) {a : Action μ}
    (hsafe : Undisturbed olds k s a) (ha : s.step a = some t) :
    ∃ l', Scanning olds k (as ++ [a]) t l' := by
  obtain ⟨hen, hex⟩ := step_eq_some.mp ha
  obtain ⟨b₀, hb₀, hl₀⟩ := h.here
  cases a with
  | accept client extra =>
    rw [exec, Option.some.injEq] at hex
    exact ⟨l, hex ▸ h.accept hs extra hen⟩
  | remove client => exact ⟨l, h.remove hs hen (hsafe client rfl) hex⟩
  | broadcast command =>
    rw [exec, Option.some.injEq] at hex
    subst hex
    refine ⟨l, h.frame rfl rfl rfl rfl ⟨b₀, ?_, hl₀⟩ fun _ => rfl⟩
    rw [List.getElem?_append_left (List.getElem?_eq_some_iff.mp hb₀).1, hb₀]
  | start k' =>
    obtain ⟨b, hb, hnone, rfl⟩ := start_eq_some.mp hex
    refine ⟨l, h.frame rfl rfl rfl rfl ⟨b₀, ?_, hl₀⟩ fun _ => rfl⟩
    have hne : k' ≠ k := by
      rintro rfl
      rw [hb, Option.some.injEq] at hb₀
      rw [hb₀, hl₀] at hnone
      cases hnone
    simp only [List.getElem?_set_ne hne, hb₀]
  | deliver k' client =>
    by_cases hk : k' = k
    · subst hk
      exact ⟨_, h.deliver hs hex⟩
    · obtain ⟨b, l', hb, hl', -, rfl⟩ := deliver_eq_some.mp hex
      refine ⟨l, h.frame rfl rfl rfl rfl ⟨b₀, ?_, hl₀⟩ fun c => ?_⟩
      · simp only [List.getElem?_set_ne hk, hb₀]
      · simp [isDelivery, hk]

end Scanning

/-! ## Runs -/

/-- The run lemma: from its start on, as long as no step disturbs it, a `Broadcast`
tracks every client that is still registered. -/
theorem scanning_of_run {k : ℕ} {as₁ as₂ : List (Action μ)}
    (h₁ : run TcpChatServer.step newServer as₁ = some s)
    (h₂ : run TcpChatServer.step s (.start k :: as₂) = some t)
    (hsafe : Along TcpChatServer.step (Undisturbed s.registered k) s (.start k :: as₂)) :
    ∃ l, Scanning s.registered k (.start k :: as₂) t l := by
  have hs := registryInv_of_run h₁
  obtain ⟨u, hu, hrun⟩ := run_cons_eq_some.mp h₂
  have hstart := (step_eq_some.mp hu).2
  have hinv : RegistryInv t ∧ ∃ l, Scanning s.registered k ([.start k] ++ as₂) t l := by
    refine run_induction_along (I := fun as t => RegistryInv t ∧
      ∃ l, Scanning s.registered k ([.start k] ++ as) t l) ⟨hs.step hu, ?_⟩ ?_ hrun
      (hsafe.2 u hu)
    · exact ⟨_, scanning_start hs hstart (.start k) fun _ => rfl⟩
    · rintro as v a w - ⟨hv, l, hl⟩ ha hw
      refine ⟨hv.step hw, ?_⟩
      rw [← List.append_assoc]
      exact hl.step hv ha hw
  exact hinv.2

/-- **Exactly-once broadcast under membership change.** If no `remove` step taken
while the `k`-th `Broadcast` runs disturbs it, then when it is finished every client
that was registered at its start and is still registered has been written to exactly
once.
SOURCE: chatserver/server/tcp_server.go:55-60, 75-99 -/
theorem broadcast_delivers_once (as₁ as₂ : List (Action μ)) (s t : TcpChatServer μ) (k : ℕ)
    (b : Cast μ) (h₁ : run TcpChatServer.step newServer as₁ = some s)
    (h₂ : run TcpChatServer.step s (.start k :: as₂) = some t)
    (hsafe : Along TcpChatServer.step (Undisturbed s.registered k) s (.start k :: as₂))
    (hb : t.casts[k]? = some b) (hfin : b.Finished) :
    DeliveredOnce k s (.start k :: as₂) t := by
  obtain ⟨l, hl⟩ := scanning_of_run h₁ h₂ hsafe
  obtain ⟨b', hb', hloop⟩ := hl.here
  rw [hb, Option.some.injEq] at hb'
  subst hb'
  obtain ⟨l', hl', hlen⟩ := hfin
  rw [hloop, Option.some.injEq] at hl'
  subst hl'
  intro client hold hnew
  exact (hl.tracked client hold hnew).finish hlen

/-- The first two clients share an array of capacity two, so that the third one makes
`append` allocate and the `remove` of the first one does not reach the loop. -/
theorem broadcast_delivers_once_realloc :
    ∃ s t : TcpChatServer Unit,
      run TcpChatServer.step newServer [.accept 1 0, .accept 2 0, .broadcast ()] = some s ∧
      run TcpChatServer.step s
        [.start 0, .deliver 0 1, .accept 3 1, .remove 1, .deliver 0 2] = some t ∧
      t.registered = [2, 3] ∧
      DeliveredOnce 0 s [.start 0, .deliver 0 1, .accept 3 1, .remove 1, .deliver 0 2] t := by
  refine ⟨_, _, rfl, rfl, by decide, broadcast_delivers_once
    [.accept 1 0, .accept 2 0, .broadcast ()] _ _ _ 0 _ rfl rfl ?_ rfl ⟨_, rfl, by decide⟩⟩
  refine (along_cons_of_step rfl).mpr ⟨undisturbed_of_ne (by simp), ?_⟩
  refine (along_cons_of_step rfl).mpr ⟨undisturbed_of_ne (by simp), ?_⟩
  refine (along_cons_of_step rfl).mpr ⟨undisturbed_of_ne (by simp), ?_⟩
  refine (along_cons_of_step rfl).mpr ⟨?_, (along_cons_of_step rfl).mpr
    ⟨undisturbed_of_ne (by simp), trivial⟩⟩
  rintro client - ⟨b, l, j, i, hb, hl, harr, -⟩
  cases hb
  cases hl
  cases harr

/-- With three clients and room for a fourth nothing is allocated. The first client is
removed when it has been written to: the second one is skipped, and the third one is
written to again from the stale last cell. -/
theorem broadcast_skips_and_repeats :
    ∃ (s t : TcpChatServer Unit) (b : Cast Unit),
      run TcpChatServer.step newServer
        [.accept 1 0, .accept 2 0, .accept 3 1, .broadcast ()] = some s ∧
      run TcpChatServer.step s
        [.start 0, .deliver 0 1, .remove 1, .deliver 0 3, .deliver 0 3] = some t ∧
      t.casts[0]? = some b ∧ b.Finished ∧
      ¬ DeliveredOnce 0 s [.start 0, .deliver 0 1, .remove 1, .deliver 0 3, .deliver 0 3] t := by
  refine ⟨_, _, _, rfl, rfl, rfl, ⟨_, rfl, by decide⟩, fun h => ?_⟩
  have htwo := h 2 (by decide) (by decide)
  exact absurd htwo (by decide)

end GolangSandbox.Analysis
