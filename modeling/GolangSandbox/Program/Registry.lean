import GolangSandbox.Model.Slice
import GolangSandbox.Model.Transition

/-!
# The client registry of the chat server

`TcpChatServer` as far as `s.clients` is concerned: `accept` and `remove`, whose
bodies run under the mutex and are one step each, and `Broadcast`, which does not
take it. A `Broadcast` evaluates its range expression once, so it keeps the header
of that moment and reads the elements of the backing array one by one; every
iteration is one step.

A client is the address of its `client` object, `none` is the nil pointer. The
server remembers which clients were accepted and which were removed, because a
`serve` goroutine exists for the ones and runs its deferred `remove` once.
-/

set_option autoImplicit false

namespace GolangSandbox.Program

open GolangSandbox.Model

abbrev ClientId := ℕ

/-- A `for range` loop over a slice: the header its range expression gave, and the
index of the next iteration. -/
structure RangeLoop where
  header : Slice
  pos : ℕ
  deriving DecidableEq

/-- A `Broadcast` goroutine: the command it was called with, and its loop once it has
reached it. -/
structure Cast (μ : Type) where
  command : μ
  loop : Option RangeLoop
  deriving DecidableEq

/-- The iterations are all done. -/
def Cast.Finished {μ : Type} (b : Cast μ) : Prop :=
  ∃ l, b.loop = some l ∧ l.header.len ≤ l.pos

instance {μ : Type} : DecidablePred fun b : Cast μ => b.Finished := fun b =>
  decidable_of_iff (∃ l ∈ b.loop, l.header.len ≤ l.pos) (by simp [Cast.Finished])

/-- The server, with the goroutines that work on `s.clients`.
SOURCE: chatserver/server/tcp_server.go:18-22 -/
structure TcpChatServer (μ : Type) where
  arrays : Arrays (Option ClientId)
  clients : Slice
  accepted : List ClientId
  removed : List ClientId
  casts : List (Cast μ)

namespace TcpChatServer

variable {μ : Type}

/-- A new server has the nil slice of clients.
SOURCE: chatserver/server/tcp_server.go:28-32 -/
def newServer : TcpChatServer μ := ⟨[[]], Slice.nil, [], [], []⟩

/-- The locked body of `accept`; `extra` is the spare capacity if `append` allocates.
SOURCE: chatserver/server/tcp_server.go:75-86 -/
def accept (s : TcpChatServer μ) (client : ClientId) (extra : ℕ) : TcpChatServer μ :=
  { s with
    arrays := (s.clients.append s.arrays [some client] extra).1
    clients := (s.clients.append s.arrays [some client] extra).2
    accepted := s.accepted ++ [client] }

/-- One iteration of the loop of `remove`. It ranges over the header `rng` that
`s.clients` was when the loop started and reads the array as it is now; there is
no break.
SOURCE: chatserver/server/tcp_server.go:92-96 -/
def removeIter (client : ClientId) (rng : Slice) (p : Arrays (Option ClientId) × Slice)
    (i : ℕ) : Option (Arrays (Option ClientId) × Slice) :=
  if rng.index p.1 i = some (some client) then p.2.deleteAt p.1 i else some p

/-- The locked body of `remove`; `none` is a panic.
SOURCE: chatserver/server/tcp_server.go:88-99 -/
def remove (s : TcpChatServer μ) (client : ClientId) : Option (TcpChatServer μ) :=
  ((List.range s.clients.len).foldlM (removeIter client s.clients) (s.arrays, s.clients)).map
    fun p => { s with arrays := p.1, clients := p.2, removed := s.removed ++ [client] }

/-- The steps of the registry. -/
inductive Action (μ : Type) where
  | accept (client : ClientId) (extra : ℕ)
  | remove (client : ClientId)
  | broadcast (command : μ)
  | start (k : ℕ)
  | deliver (k : ℕ) (client : ClientId)
  deriving DecidableEq

/-- `accept` allocates a new client; `remove` is the deferred call of a `serve`. -/
def Enabled (s : TcpChatServer μ) : Action μ → Prop
  | .accept client _ => client ∉ s.accepted
  | .remove client => client ∈ s.accepted ∧ client ∉ s.removed
  | _ => True

instance (s : TcpChatServer μ) : DecidablePred s.Enabled := fun a => by
  cases a <;> unfold Enabled <;> infer_instance

/-- A `Broadcast` reaches its loop and evaluates the range expression.
SOURCE: chatserver/server/tcp_server.go:56 -/
def start (s : TcpChatServer μ) (k : ℕ) : Option (TcpChatServer μ) :=
  s.casts[k]?.bind fun b =>
    if b.loop = none then
      some { s with casts := s.casts.set k { b with loop := some ⟨s.clients, 0⟩ } }
    else none

/-- One iteration of `Broadcast`: read the next element of the captured header from
its array and write the command to that client.
SOURCE: chatserver/server/tcp_server.go:56-58 -/
def deliver (s : TcpChatServer μ) (k : ℕ) (client : ClientId) : Option (TcpChatServer μ) :=
  s.casts[k]?.bind fun b => b.loop.bind fun l =>
    if l.header.index s.arrays l.pos = some (some client) then
      some { s with casts := s.casts.set k { b with loop := some ⟨l.header, l.pos + 1⟩ } }
    else none

/-- What an action does; `none` is a panic, or an iteration that is not the next one. -/
def exec (s : TcpChatServer μ) : Action μ → Option (TcpChatServer μ)
  | .accept client extra => some (s.accept client extra)
  | .remove client => s.remove client
  | .broadcast command => some { s with casts := s.casts ++ [⟨command, none⟩] }
  | .start k => s.start k
  | .deliver k client => s.deliver k client

/-- One step of the registry. -/
def step (s : TcpChatServer μ) (a : Action μ) : Option (TcpChatServer μ) :=
  if s.Enabled a then s.exec a else none

/-- The clients that were accepted and are not yet removed, in acceptance order. -/
def registered (s : TcpChatServer μ) : List ClientId := s.accepted.filter (· ∉ s.removed)

/-! ## What a step does -/

variable {s t : TcpChatServer μ}

theorem step_eq_some {a : Action μ} :
    s.step a = some t ↔ s.Enabled a ∧ s.exec a = some t := by
  unfold step
  split <;> simp_all

theorem start_eq_some {k : ℕ} :
    s.start k = some t ↔ ∃ b, s.casts[k]? = some b ∧ b.loop = none ∧
      t = { s with casts := s.casts.set k { b with loop := some ⟨s.clients, 0⟩ } } := by
  unfold start
  simp only [Option.bind_eq_some_iff]
  refine exists_congr fun b => and_congr_right fun _ => ?_
  split <;> simp_all [eq_comm]

theorem deliver_eq_some {k : ℕ} {client : ClientId} :
    s.deliver k client = some t ↔ ∃ b l, s.casts[k]? = some b ∧ b.loop = some l ∧
      l.header.index s.arrays l.pos = some (some client) ∧
      t = { s with casts := s.casts.set k { b with loop := some ⟨l.header, l.pos + 1⟩ } } := by
  unfold deliver
  simp only [Option.bind_eq_some_iff]
  constructor
  · rintro ⟨b, hb, l, hl, h⟩
    split at h
    · exact ⟨b, l, hb, hl, ‹_›, (Option.some.inj h).symm⟩
    · cases h
  · rintro ⟨b, l, hb, hl, hi, rfl⟩
    exact ⟨b, hb, l, hl, if_pos hi⟩

/-- Iterations that do not meet the client change nothing. -/
theorem foldlM_removeIter_of_ne {client : ClientId} {rng : Slice}
    {p : Arrays (Option ClientId) × Slice} {is : List ℕ}
    (h : ∀ i ∈ is, rng.index p.1 i ≠ some (some client)) :
    is.foldlM (removeIter client rng) p = some p := by
  induction is with
  | nil => rfl
  | cons i is ih =>
    rw [List.forall_mem_cons] at h
    rw [List.foldlM_cons, removeIter, if_neg h.1]
    exact ih h.2

/-- **The loop of `remove` deletes exactly the index of the client.** Behind it the
loop reads the shifted array through the old header, where the client does not
occur: not among the elements that moved down, and not in the stale last cell. -/
theorem foldlM_removeIter {h : Arrays (Option ClientId)} {rng : Slice} {cs : List ClientId}
    {client : ClientId} {j : ℕ} (hb : rng.Backed h) (hcs : rng.contents h = cs.map some)
    (hnd : cs.Nodup) (hj : cs[j]? = some client) :
    (List.range rng.len).foldlM (removeIter client rng) (h, rng) = rng.deleteAt h j := by
  have hlen : rng.len = cs.length := by
    rw [← Slice.length_contents hb, hcs, List.length_map]
  have hjlt : j < rng.len := by
    rw [hlen]
    exact (List.getElem?_eq_some_iff.mp hj).1
  have hindex : ∀ i, rng.index h i = cs[i]?.map some := by
    intro i
    rw [← Slice.getElem?_contents, hcs, List.getElem?_map]
  have hne : ∀ i, i ≠ j → rng.index h i ≠ some (some client) := by
    intro i hij hi
    rw [hindex, Option.map_eq_some_iff] at hi
    obtain ⟨c, hc, hcc⟩ := hi
    rw [Option.some.injEq] at hcc
    subst hcc
    exact hij ((List.getElem?_inj (List.getElem?_eq_some_iff.mp hc).1 hnd).mp (hc.trans hj.symm))
  obtain ⟨h', s', hdel, -, -, -, -, -, -, hcell, -⟩ := Slice.deleteAt_spec hb hjlt
  have hsplit : List.range rng.len =
      List.range j ++ j :: List.range' (j + 1) (rng.len - (j + 1)) := by
    rw [List.range_eq_range', List.range_eq_range', ← List.range'_succ]
    have happ := List.range'_append_1 (s := 0) (m := j) (n := rng.len - (j + 1) + 1)
    rw [Nat.zero_add] at happ
    rw [happ]
    congr 1
    omega
  have hhit : rng.index h j = some (some client) := by rw [hindex, hj]; rfl
  rw [hsplit, List.foldlM_append,
    foldlM_removeIter_of_ne fun i hi => hne i (Nat.ne_of_lt (List.mem_range.mp hi))]
  simp only [Option.bind_eq_bind, Option.bind_some, List.foldlM_cons, removeIter,
    if_pos hhit, hdel]
  refine foldlM_removeIter_of_ne fun i hi => ?_
  obtain ⟨hlo, hhi⟩ := List.mem_range'_1.mp hi
  have hlt : i < rng.len := by omega
  rw [Slice.index, if_pos hlt, hcell]
  split
  · -- The element that moved down to `i` was at `i + 1`.
    have := hne (i + 1) (by omega)
    rwa [Slice.index, if_pos (by omega), ← Nat.add_assoc] at this
  · have := hne i (by omega)
    rwa [Slice.index, if_pos hlt] at this

end TcpChatServer

end GolangSandbox.Program
