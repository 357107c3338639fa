import GolangSandbox.Analysis.EchoCount
import GolangSandbox.Interface.Pieces
import GolangSandbox.Model.Bookkeeping
import GolangSandbox.Model.Termination
import GolangSandbox.Program.PreServer

/-!
# Connections handed to workers

A descriptor is a number that comes back after it was closed, so two connections may have the
same one. But at most one connection that is not closed has it, and that is the one the table
of descriptors names (`Hosting.socket`). A worker has a descriptor of a connection that is with
it (`Hosting.worker`) and with nobody else, and so what it reads and writes belongs to that
connection: what was sent is what was echoed, the line in between, and what was not read yet
(`Working.books`).

The buffer has the descriptors of the connections that were inserted and not taken, in order
(`Hosting.buffered`). With no new connections every step of the server lowers what is left to
do, and a step is possible until all workers wait for an empty buffer, since the one that the
others wait for, at `Pthread_once` or at `P`, can go on.
-/

set_option autoImplicit false

namespace GolangSandbox.Analysis

open GolangSandbox.Model GolangSandbox.Program GolangSandbox.Program.PreServer
open GolangSandbox.Interface (firstLine_ne_nil)

variable {β : Type} {B : BoundedBuffer β ℤ} {items : β → List ℤ → Prop} {size nthreads c k : ℕ}
  {s t : PreServer β} {x y : EchoClient} {pc pc' : EchoPc} {line : Bytes} {connfd : ℤ}

/-! ## A worker and its connection -/

/-- The line that a worker has read and not written back. -/
def lineHeld (pc : EchoPc) (line : Bytes) : Bytes := if heldLine pc = none then [] else line

/-- What a worker at `pc` that has read `line` last knows of its connection. -/
structure Working (pc : EchoPc) (line : Bytes) (x : EchoClient) : Prop where
  descriptor : pc.descriptor = some x.connfd
  books : x.sent = x.echoed ++ lineHeld pc line ++ x.unread
  length : ∀ n, heldLine pc = some n → line.length = n
  ended : ∀ connfd, pc = .closing connfd → x.unread = []

/-- Nothing was read yet. -/
def Fresh (x : EchoClient) : Prop := x.echoed = [] ∧ x.unread = x.sent

/-- What holds of the connection `c` where it is. -/
def Located (s : PreServer β) (c : ℕ) (x : EchoClient) : Whereabouts → Prop
  | .pending => s.inserted ≤ c ∧ Fresh x
  | .waiting => s.taken ≤ c ∧ c < s.inserted ∧ Fresh x
  | .served k => c < s.taken ∧ Working (s.workers.threads k) (s.buf k) x
  | .closed => c < s.taken ∧ x.echoed = x.sent ∧ x.unread = []

/-- The counter before and after its initialisation. -/
def CountSound (w : EchoServer) : Prop := Starting w ∧ w.byteCnt = 0 ∨ Counting w

theorem CountSound.step {w w' : EchoServer} (h : CountSound w) (he : EchoServer.Effect w w') :
    CountSound w' := by
  obtain ⟨h, hzero⟩ | h := h
  · obtain hw | hw := h.step he
    · refine .inl ⟨hw, ?_⟩
      cases he with
      | store hk => exact (h.not_late hk id).elim
      | initCnt hk => rfl
      | _ => exact hzero
    · exact .inr hw
  · exact .inr (h.step he)

/-- The invariant. -/
structure Hosting (items : β → List ℤ → Prop) (size nthreads : ℕ) (s : PreServer β) : Prop where
  sound : s.stray = false
  counter : CountSound s.workers
  idle : ∀ k, nthreads ≤ k → s.workers.threads k = .removing
  buffered : items s.sbuf (((s.clients.map EchoClient.connfd).take s.inserted).drop s.taken)
  taken_le : s.taken ≤ s.inserted
  inserted_le : s.inserted ≤ s.taken + size
  length : s.clients.length = s.inserted + if s.main = none then 0 else 1
  main : ∀ connfd, s.main = some connfd → ∃ x, s.clients[s.inserted]? = some x ∧ x.connfd = connfd
  socket : ∀ connfd c, s.socket connfd = some c ↔
    ∃ x, s.clients[c]? = some x ∧ x.connfd = connfd ∧ x.whereabouts ≠ .closed
  placed : ∀ c x, s.clients[c]? = some x → Located s c x x.whereabouts
  worker : ∀ k connfd, (s.workers.threads k).descriptor = some connfd →
    ∃ (c : ℕ) (x : EchoClient), s.clients[c]? = some x ∧ x.connfd = connfd ∧
      x.whereabouts = .served k

theorem hosting_newPreServer (hB : IsBounded B size items) (nthreads : ℕ) :
    Hosting items size nthreads (newPreServer B size) where
  sound := rfl
  counter := .inl ⟨starting_start, rfl⟩
  idle := fun _ _ => rfl
  buffered := hB.init
  taken_le := Nat.le_refl _
  inserted_le := Nat.zero_le _
  length := rfl
  main := nofun
  socket := fun connfd c => iff_of_false nofun fun ⟨x, hx, _⟩ => by cases hx
  placed := nofun
  worker := nofun

/-- A connection stays where it is when neither it nor its worker moves. -/
theorem Located.frame {w : Whereabouts} (h : Located s c x w)
    (hpending : s.inserted ≤ c → t.inserted ≤ c) (hinserted : s.inserted ≤ t.inserted)
    (hwaiting : s.taken ≤ c → t.taken ≤ c) (htaken : s.taken ≤ t.taken)
    (hworker : ∀ k, w = .served k →
      t.workers.threads k = s.workers.threads k ∧ t.buf k = s.buf k) : Located t c x w := by
  cases w with
  | pending => exact ⟨hpending h.1, h.2⟩
  | waiting => exact ⟨hwaiting h.1, Nat.lt_of_lt_of_le h.2.1 hinserted, h.2.2⟩
  | served k =>
    obtain ⟨hthread, hbuf⟩ := hworker k rfl
    refine ⟨Nat.lt_of_lt_of_le h.1 htaken, ?_⟩
    rw [hthread, hbuf]
    exact h.2
  | closed => exact ⟨Nat.lt_of_lt_of_le h.1 htaken, h.2⟩

namespace Hosting

/-- The connection of a descriptor. -/
theorem client_eq (h : Hosting items size nthreads s) (hx : s.clients[c]? = some x)
    (hopen : x.whereabouts ≠ .closed) : s.client x.connfd = some (c, x) :=
  client_eq_some.mpr ⟨(h.socket x.connfd c).mpr ⟨x, hx, rfl, hopen⟩, hx⟩

theorem connfd_of_client (h : Hosting items size nthreads s)
    (hx : s.client connfd = some (c, x)) :
    s.clients[c]? = some x ∧ x.connfd = connfd ∧ x.whereabouts ≠ .closed := by
  obtain ⟨hsocket, hget⟩ := client_eq_some.mp hx
  obtain ⟨y, hy, hfd, hopen⟩ := (h.socket connfd c).mp hsocket
  obtain rfl := Option.some.inj (hget.symm.trans hy)
  exact ⟨hget, hfd, hopen⟩

/-- Two connections that are not closed have different descriptors. -/
theorem open_unique (h : Hosting items size nthreads s) {d : ℕ} (hx : s.clients[c]? = some x)
    (hy : s.clients[d]? = some y) (hfd : x.connfd = y.connfd) (hxo : x.whereabouts ≠ .closed)
    (hyo : y.whereabouts ≠ .closed) : c = d := by
  have hc := h.client_eq hx hxo
  rw [hfd, h.client_eq hy hyo] at hc
  exact (Prod.mk.inj (Option.some.inj hc)).1.symm

/-- The connection that a worker uses is with it. -/
theorem working (h : Hosting items size nthreads s)
    (hpc : (s.workers.threads k).descriptor = some connfd)
    (hx : s.client connfd = some (c, x)) :
    s.clients[c]? = some x ∧ x.connfd = connfd ∧ x.whereabouts = .served k ∧ c < s.taken ∧
      Working (s.workers.threads k) (s.buf k) x := by
  obtain ⟨hget, hfd, hopen⟩ := h.connfd_of_client hx
  obtain ⟨d, y, hy, hyfd, hserved⟩ := h.worker k connfd hpc
  have hyo : y.whereabouts ≠ .closed := by simp [hserved]
  obtain rfl := h.open_unique hget hy (hfd.trans hyfd.symm) hopen hyo
  obtain rfl := Option.some.inj (hget.symm.trans hy)
  have hplaced := h.placed c x hget
  rw [hserved] at hplaced
  exact ⟨hget, hfd, hserved, hplaced⟩

/-- A worker has one connection. -/
theorem served_unique (h : Hosting items size nthreads s) {d : ℕ} (hx : s.clients[c]? = some x)
    (hy : s.clients[d]? = some y) (hxk : x.whereabouts = .served k)
    (hyk : y.whereabouts = .served k) : c = d := by
  have hpx := h.placed c x hx
  have hpy := h.placed d y hy
  rw [hxk] at hpx
  rw [hyk] at hpy
  refine h.open_unique hx hy ?_ (by simp [hxk]) (by simp [hyk])
  exact Option.some.inj (hpx.2.descriptor.symm.trans hpy.2.descriptor)

/-- The worker that serves a connection is one of the `nthreads`. -/
theorem lt_of_served (h : Hosting items size nthreads s) (hx : s.clients[c]? = some x)
    (hxk : x.whereabouts = .served k) : k < nthreads := by
  by_contra hle
  have hplaced := h.placed c x hx
  rw [hxk] at hplaced
  have hdescriptor := hplaced.2.descriptor
  rw [h.idle k (Nat.le_of_not_lt hle)] at hdescriptor
  cases hdescriptor

/-- The descriptor in the hands of `main` is the one after those inserted. -/
theorem client_of_main (h : Hosting items size nthreads s) (hmain : s.main = some connfd) :
    ∃ x, s.client connfd = some (s.inserted, x) ∧ x.whereabouts = .pending := by
  obtain ⟨x, hx, rfl⟩ := h.main connfd hmain
  have hplaced := h.placed _ x hx
  have hle := h.taken_le
  have hpending : x.whereabouts = .pending := by
    cases hw : x.whereabouts with
    | pending => rfl
    | waiting =>
      rw [hw] at hplaced
      exact absurd hplaced.2.1 (Nat.lt_irrefl _)
    | served k =>
      rw [hw] at hplaced
      exact absurd (Nat.lt_of_lt_of_le hplaced.1 hle) (Nat.lt_irrefl _)
    | closed =>
      rw [hw] at hplaced
      exact absurd (Nat.lt_of_lt_of_le hplaced.1 hle) (Nat.lt_irrefl _)
  exact ⟨x, h.client_eq hx (by simp [hpending]), hpending⟩

/-- The descriptor that is removed is the one after those taken. -/
theorem client_of_remove (h : Hosting items size nthreads s) (hB : IsBounded B size items)
    {sbuf : β} (hremove : B.remove s.sbuf = some (connfd, sbuf)) :
    ∃ x, s.client connfd = some (s.taken, x) ∧ x.whereabouts = .waiting ∧ s.taken < s.inserted ∧
      items sbuf (((s.clients.map EchoClient.connfd).take s.inserted).drop (s.taken + 1)) := by
  obtain ⟨ys, hys, hitems⟩ := hB.of_remove h.buffered hremove
  have hfirst : (((s.clients.map EchoClient.connfd).take s.inserted).drop s.taken)[0]? =
      some connfd := by
    rw [hys]
    rfl
  rw [List.getElem?_drop, Nat.add_zero, List.getElem?_take] at hfirst
  have hlt : s.taken < s.inserted := by
    by_contra hle
    rw [if_neg hle] at hfirst
    cases hfirst
  rw [if_pos hlt, List.getElem?_map, Option.map_eq_some_iff] at hfirst
  obtain ⟨x, hx, rfl⟩ := hfirst
  have hplaced := h.placed _ x hx
  have hwaiting : x.whereabouts = .waiting := by
    cases hw : x.whereabouts with
    | waiting => rfl
    | pending =>
      rw [hw] at hplaced
      exact absurd hplaced.1 (Nat.not_le_of_lt hlt)
    | served k =>
      rw [hw] at hplaced
      exact absurd hplaced.1 (Nat.lt_irrefl _)
    | closed =>
      rw [hw] at hplaced
      exact absurd hplaced.1 (Nat.lt_irrefl _)
  refine ⟨x, h.client_eq hx (by simp [hwaiting]), hwaiting, hlt, ?_⟩
  have htail := congrArg List.tail hys
  rw [List.tail_drop, List.tail_cons] at htail
  rw [htail]
  exact hitems

/-- Nobody uses a descriptor that is not open. -/
theorem not_stray (h : Hosting items size nthreads s) (hB : IsBounded B size items)
    (hused : s.main = some connfd ∨ (∃ sbuf, B.remove s.sbuf = some (connfd, sbuf)) ∨
      ∃ k, (s.workers.threads k).descriptor = some connfd) : s.client connfd ≠ none := by
  obtain hmain | ⟨sbuf, hremove⟩ | ⟨k, hpc⟩ := hused
  · obtain ⟨x, hx, -⟩ := h.client_of_main hmain
    simp [hx]
  · obtain ⟨x, hx, -⟩ := h.client_of_remove hB hremove
    simp [hx]
  · obtain ⟨c, x, hx, rfl, hserved⟩ := h.worker k connfd hpc
    simp [h.client_eq hx (by simp [hserved])]

/-! ## The step lemma -/

/-- A connection changes but for its descriptor, and stays open. -/
theorem socket_set (h : Hosting items size nthreads s) (hx : s.clients[c]? = some x)
    (hxo : x.whereabouts ≠ .closed) (hfd : y.connfd = x.connfd) (hyo : y.whereabouts ≠ .closed)
    (connfd : ℤ) (d : ℕ) : s.socket connfd = some d ↔
      ∃ z, (s.clients.set c y)[d]? = some z ∧ z.connfd = connfd ∧ z.whereabouts ≠ .closed := by
  rw [h.socket connfd d]
  by_cases hdc : d = c
  · subst hdc
    rw [List.getElem?_set_self (List.getElem?_eq_some_iff.mp hx).1, hx]
    constructor
    · rintro ⟨z, hz, rfl, -⟩
      obtain rfl := Option.some.inj hz
      exact ⟨y, rfl, hfd, hyo⟩
    · rintro ⟨z, hz, rfl, -⟩
      obtain rfl := Option.some.inj hz
      exact ⟨x, rfl, hfd.symm, hxo⟩
  · rw [List.getElem?_set_ne (Ne.symm hdc)]

/-- The worker `j` keeps its connection when another one changes. -/
theorem worker_set (h : Hosting items size nthreads s) (hx : s.clients[c]? = some x) {j : ℕ}
    (hxj : x.whereabouts ≠ .served j) (hj : (s.workers.threads j).descriptor = some connfd) :
    ∃ (d : ℕ) (z : EchoClient), (s.clients.set c y)[d]? = some z ∧ z.connfd = connfd ∧
      z.whereabouts = .served j := by
  obtain ⟨d, z, hz, hfd, hserved⟩ := h.worker j connfd hj
  refine ⟨d, z, ?_, hfd, hserved⟩
  rw [List.getElem?_set_ne, hz]
  rintro rfl
  obtain rfl := Option.some.inj (hz.symm.trans hx)
  exact hxj hserved

/-- The descriptor of `main` is not touched by a change of a connection that was taken. -/
theorem main_set (h : Hosting items size nthreads s) (hlt : c < s.taken)
    (hmain : s.main = some connfd) :
    ∃ x, (s.clients.set c y)[s.inserted]? = some x ∧ x.connfd = connfd := by
  obtain ⟨x, hx, hfd⟩ := h.main connfd hmain
  refine ⟨x, ?_, hfd⟩
  have hle := h.taken_le
  rw [List.getElem?_set_ne (by omega), hx]

/-- A worker goes on with its connection. -/
theorem work (h : Hosting items size nthreads s)
    (hpc : (s.workers.threads k).descriptor = some connfd) (hx : s.client connfd = some (c, x))
    {workers : EchoServer} {buf : ℕ → Bytes}
    (hthreads : workers.threads = Function.update s.workers.threads k pc')
    (hbuf : ∀ j, j ≠ k → buf j = s.buf j) (hcounter : CountSound workers)
    (hfd : y.connfd = x.connfd) (hyk : y.whereabouts = .served k)
    (hy : Working pc' (buf k) y) :
    Hosting items size nthreads
      { s with workers := workers, buf := buf, clients := s.clients.set c y } := by
  obtain ⟨hget, -, hserved, hlt, -⟩ := h.working hpc hx
  have hself : workers.threads k = pc' := by rw [hthreads, Function.update_self]
  have hother : ∀ j, j ≠ k → workers.threads j = s.workers.threads j := fun j hj => by
    rw [hthreads, Function.update_of_ne hj]
  refine ⟨h.sound, hcounter, ?_, ?_, h.taken_le, h.inserted_le, ?_, ?_, ?_, ?_, ?_⟩
  · intro j hj
    have hk := h.lt_of_served hget hserved
    exact (hother j (by omega)).trans (h.idle j hj)
  · have hmap := map_set_of_eq (f := EchoClient.connfd) hget hfd
    show items s.sbuf ((((s.clients.set c y).map _).take s.inserted).drop s.taken)
    rw [hmap]
    exact h.buffered
  · exact (List.length_set).trans h.length
  · exact fun fd hmain => h.main_set hlt hmain
  · exact h.socket_set hget (by simp [hserved]) hfd (by simp [hyk])
  · intro d z hz
    obtain ⟨rfl, rfl⟩ | ⟨hdc, hold⟩ := getElem?_set_eq_some hz
    · rw [hyk]
      refine ⟨hlt, ?_⟩
      show Working (workers.threads k) (buf k) z
      rw [hself]
      exact hy
    · refine (h.placed d z hold).frame id (Nat.le_refl _) id (Nat.le_refl _) fun j hj => ?_
      have hjk : j ≠ k := by
        rintro rfl
        exact hdc (h.served_unique hold hget hj hserved)
      exact ⟨hother j hjk, hbuf j hjk⟩
  · intro j fd hj
    by_cases hjk : j = k
    · subst hjk
      refine ⟨c, y, List.getElem?_set_self (List.getElem?_eq_some_iff.mp hget).1, ?_, hyk⟩
      have hj' : (workers.threads j).descriptor = some fd := hj
      rw [hself, hy.descriptor] at hj'
      exact Option.some.inj hj'
    · have hj' : (workers.threads j).descriptor = some fd := hj
      rw [hother j hjk] at hj'
      refine h.worker_set hget ?_ hj'
      rw [hserved]
      exact fun heq => hjk (Whereabouts.served.inj heq).symm

theorem accept (h : Hosting items size nthreads s) {sent : Bytes} (hmain : s.main = none)
    (hfree : s.socket connfd = none) :
    Hosting items size nthreads { s with
      main := some connfd
      socket := Function.update s.socket connfd (some s.clients.length)
      clients := s.clients ++ [⟨connfd, sent, sent, [], .pending⟩] } := by
  have hlength := h.length
  rw [if_pos hmain, Nat.add_zero] at hlength
  refine ⟨h.sound, h.counter, h.idle, ?_, h.taken_le, h.inserted_le, ?_, ?_, ?_, ?_, ?_⟩
  · show items s.sbuf ((((s.clients ++ [_]).map _).take s.inserted).drop s.taken)
    rw [List.map_append, List.take_append_of_le_length]
    · exact h.buffered
    · rw [List.length_map, hlength]
  · show (s.clients ++ [_]).length = s.inserted + if some connfd = none then 0 else 1
    rw [List.length_append, List.length_singleton, hlength, if_neg nofun]
  · intro fd hfd
    obtain rfl : connfd = fd := Option.some.inj hfd
    refine ⟨⟨connfd, sent, sent, [], .pending⟩, ?_, rfl⟩
    rw [← hlength]
    exact List.getElem?_concat_length
  · intro fd d
    show Function.update s.socket connfd (some s.clients.length) fd = some d ↔
      ∃ x, (s.clients ++ [_])[d]? = some x ∧ _
    simp only [getElem?_concat_eq_some]
    by_cases hfd : fd = connfd
    · subst hfd
      rw [Function.update_self, Option.some.injEq]
      constructor
      · rintro rfl
        exact ⟨_, .inr ⟨rfl, rfl⟩, rfl, nofun⟩
      · rintro ⟨x, hx | ⟨rfl, rfl⟩, hxfd, hopen⟩
        · have hsocket := (h.socket fd d).mpr ⟨x, hx, hxfd, hopen⟩
          rw [hfree] at hsocket
          cases hsocket
        · rfl
    · rw [Function.update_of_ne hfd, h.socket fd d]
      constructor
      · rintro ⟨x, hx, hxfd, hopen⟩
        exact ⟨x, .inl hx, hxfd, hopen⟩
      · rintro ⟨x, hx | ⟨rfl, rfl⟩, hxfd, hopen⟩
        · exact ⟨x, hx, hxfd, hopen⟩
        · exact absurd hxfd.symm hfd
  · intro d x hx
    obtain hx | ⟨rfl, rfl⟩ := getElem?_concat_eq_some.mp hx
    · exact (h.placed d x hx).frame id (Nat.le_refl _) id (Nat.le_refl _) fun _ _ => ⟨rfl, rfl⟩
    · exact ⟨Nat.le_of_eq hlength.symm, rfl, rfl⟩
  · intro j fd hj
    obtain ⟨d, x, hx, hfd, hserved⟩ := h.worker j fd hj
    exact ⟨d, x, getElem?_concat_eq_some.mpr (.inl hx), hfd, hserved⟩

theorem insert (h : Hosting items size nthreads s) (hB : IsBounded B size items) {sbuf : β}
    (hmain : s.main = some connfd) (hinsert : B.insert s.sbuf connfd = some sbuf)
    (hx : s.client connfd = some (c, x)) :
    Hosting items size nthreads { s with
      sbuf := sbuf
      main := none
      clients := s.clients.set c { x with whereabouts := .waiting }
      inserted := s.inserted + 1 } := by
  obtain ⟨x', hx', hpending⟩ := h.client_of_main hmain
  obtain ⟨rfl, rfl⟩ := Prod.mk.inj (Option.some.inj (hx.symm.trans hx'))
  obtain ⟨hget, rfl, hopen⟩ := h.connfd_of_client hx
  have hplaced := h.placed _ x hget
  rw [hpending] at hplaced
  obtain ⟨hroom, hitems⟩ := hB.of_insert h.buffered hinsert
  have hle := h.taken_le
  have hlength := h.length
  rw [if_neg (by simp [hmain])] at hlength
  refine ⟨h.sound, h.counter, h.idle, ?_, Nat.le_succ_of_le hle, ?_, ?_, nofun, ?_, ?_, ?_⟩
  · show items sbuf ((((s.clients.set s.inserted _).map _).take (s.inserted + 1)).drop s.taken)
    rw [map_set_of_eq (f := EchoClient.connfd) (y := { x with whereabouts := .waiting }) hget rfl]
    have hfd : (s.clients.map EchoClient.connfd)[s.inserted]? = some x.connfd := by
      rw [List.getElem?_map, hget, Option.map_some]
    rw [List.take_add_one, hfd, Option.toList_some, List.drop_append_of_le_length]
    · exact hitems
    · rw [List.length_take, List.length_map]
      omega
  · rw [List.length_drop, List.length_take, List.length_map] at hroom
    show s.inserted + 1 ≤ s.taken + size
    omega
  · exact (List.length_set).trans hlength
  · exact h.socket_set hget hopen rfl nofun
  · intro d z hz
    obtain ⟨rfl, rfl⟩ | ⟨hdc, hold⟩ := getElem?_set_eq_some hz
    · exact ⟨hle, Nat.lt_succ_self _, hplaced.2⟩
    · exact (h.placed d z hold).frame (fun hd => Nat.lt_of_le_of_ne hd (Ne.symm hdc))
        (Nat.le_succ _) id (Nat.le_refl _) fun _ _ => ⟨rfl, rfl⟩
  · intro j fd hj
    exact h.worker_set hget (by simp [hpending]) hj

theorem take (h : Hosting items size nthreads s) (hB : IsBounded B size items) {sbuf : β}
    (hk : k < nthreads) (hpc : s.workers.threads k = .removing)
    (hremove : B.remove s.sbuf = some (connfd, sbuf)) (hx : s.client connfd = some (c, x))
    (hcounter : CountSound (s.workers.goOn k (.once connfd))) :
    Hosting items size nthreads { s with
      workers := s.workers.goOn k (.once connfd)
      sbuf := sbuf
      clients := s.clients.set c { x with whereabouts := .served k }
      taken := s.taken + 1 } := by
  obtain ⟨x', hx', hwaiting, hlt, hitems⟩ := h.client_of_remove hB hremove
  obtain ⟨rfl, rfl⟩ := Prod.mk.inj (Option.some.inj (hx.symm.trans hx'))
  obtain ⟨hget, rfl, hopen⟩ := h.connfd_of_client hx
  have hplaced := h.placed _ x hget
  rw [hwaiting] at hplaced
  obtain ⟨hechoed, hunread⟩ := hplaced.2.2
  have hself : (s.workers.goOn k (.once x.connfd)).threads k = .once x.connfd :=
    Function.update_self ..
  have hother : ∀ j, j ≠ k →
      (s.workers.goOn k (.once x.connfd)).threads j = s.workers.threads j :=
    fun j hj => Function.update_of_ne hj _ _
  have hle := h.inserted_le
  refine ⟨h.sound, hcounter, ?_, ?_, hlt, ?_, (List.length_set).trans h.length, ?_, ?_, ?_, ?_⟩
  · intro j hj
    exact (hother j (by omega)).trans (h.idle j hj)
  · show items sbuf ((((s.clients.set s.taken _).map _).take s.inserted).drop (s.taken + 1))
    rw [map_set_of_eq (f := EchoClient.connfd) (y := { x with whereabouts := .served k }) hget rfl]
    exact hitems
  · show s.inserted ≤ s.taken + 1 + size
    omega
  · intro fd hmain
    obtain ⟨z, hz, hfd⟩ := h.main fd hmain
    exact ⟨z, (List.getElem?_set_ne (Nat.ne_of_lt hlt)).trans hz, hfd⟩
  · exact h.socket_set hget hopen rfl nofun
  · intro d z hz
    obtain ⟨rfl, rfl⟩ | ⟨hdc, hold⟩ := getElem?_set_eq_some hz
    · refine ⟨Nat.lt_succ_self _, ?_⟩
      show Working ((s.workers.goOn k (.once x.connfd)).threads k) (s.buf k) _
      rw [hself]
      refine ⟨rfl, ?_, nofun, nofun⟩
      show x.sent = x.echoed ++ [] ++ x.unread
      rw [hechoed, hunread]
      rfl
    · refine (h.placed d z hold).frame id (Nat.le_refl _)
        (fun hd => Nat.lt_of_le_of_ne hd (Ne.symm hdc)) (Nat.le_succ _) fun j hj => ⟨?_, rfl⟩
      refine hother j ?_
      rintro rfl
      have hbusy := h.placed d z hold
      rw [hj] at hbusy
      have hdescriptor := hbusy.2.descriptor
      rw [hpc] at hdescriptor
      cases hdescriptor
  · intro j fd hj
    by_cases hjk : j = k
    · subst hjk
      have hj' : ((s.workers.goOn j (.once x.connfd)).threads j).descriptor = some fd := hj
      rw [hself] at hj'
      exact ⟨s.taken, _, List.getElem?_set_self (List.getElem?_eq_some_iff.mp hget).1,
        Option.some.inj hj', rfl⟩
    · have hj' : ((s.workers.goOn k (.once x.connfd)).threads j).descriptor = some fd := hj
      rw [hother j hjk] at hj'
      exact h.worker_set hget (by simp [hwaiting]) hj'

theorem close (h : Hosting items size nthreads s)
    (hpc : s.workers.threads k = .closing connfd) (hx : s.client connfd = some (c, x))
    (hcounter : CountSound (s.workers.goOn k .removing)) :
    Hosting items size nthreads { s with
      workers := s.workers.goOn k .removing
      socket := Function.update s.socket connfd none
      clients := s.clients.set c { x with whereabouts := .closed } } := by
  obtain ⟨hget, rfl, hserved, hlt, hworking⟩ := h.working (by rw [hpc]; rfl) hx
  rw [hpc] at hworking
  have hunread := hworking.ended _ rfl
  have hself : (s.workers.goOn k .removing).threads k = .removing := Function.update_self ..
  have hother : ∀ j, j ≠ k → (s.workers.goOn k .removing).threads j = s.workers.threads j :=
    fun j hj => Function.update_of_ne hj _ _
  refine ⟨h.sound, hcounter, ?_, ?_, h.taken_le, h.inserted_le,
    (List.length_set).trans h.length, ?_, ?_, ?_, ?_⟩
  · intro j hj
    by_cases hjk : j = k
    · rw [hjk]
      exact hself
    · exact (hother j hjk).trans (h.idle j hj)
  · show items s.sbuf ((((s.clients.set c _).map _).take s.inserted).drop s.taken)
    rw [map_set_of_eq (f := EchoClient.connfd) (y := { x with whereabouts := .closed }) hget rfl]
    exact h.buffered
  · exact fun fd hmain => h.main_set hlt hmain
  · intro fd d
    show Function.update s.socket x.connfd none fd = some d ↔ _
    by_cases hfd : fd = x.connfd
    · subst hfd
      rw [Function.update_self]
      refine iff_of_false nofun ?_
      rintro ⟨z, hz, hzfd, hopen⟩
      obtain ⟨rfl, rfl⟩ | ⟨hdc, hold⟩ := getElem?_set_eq_some hz
      · exact hopen rfl
      · exact hdc (h.open_unique hold hget hzfd hopen (by simp [hserved]))
    · rw [Function.update_of_ne hfd, h.socket fd d]
      constructor
      · rintro ⟨z, hz, hzfd, hopen⟩
        refine ⟨z, ?_, hzfd, hopen⟩
        rw [← hz]
        refine List.getElem?_set_ne ?_
        rintro rfl
        obtain rfl := Option.some.inj (hz.symm.trans hget)
        exact hfd hzfd.symm
      · rintro ⟨z, hz, hzfd, hopen⟩
        obtain ⟨rfl, rfl⟩ | ⟨hdc, hold⟩ := getElem?_set_eq_some hz
        · exact absurd hzfd.symm hfd
        · exact ⟨z, hold, hzfd, hopen⟩
  · intro d z hz
    obtain ⟨rfl, rfl⟩ | ⟨hdc, hold⟩ := getElem?_set_eq_some hz
    · refine ⟨hlt, ?_, hunread⟩
      have hbooks := hworking.books
      rw [hunread, List.append_nil] at hbooks
      exact (hbooks.trans (List.append_nil _)).symm
    · refine (h.placed d z hold).frame id (Nat.le_refl _) id (Nat.le_refl _) fun j hj => ⟨?_, rfl⟩
      refine hother j ?_
      rintro rfl
      exact hdc (h.served_unique hold hget hj hserved)
  · intro j fd hj
    by_cases hjk : j = k
    · subst hjk
      have hj' : ((s.workers.goOn j .removing).threads j).descriptor = some fd := hj
      rw [hself] at hj'
      cases hj'
    · have hj' : ((s.workers.goOn k .removing).threads j).descriptor = some fd := hj
      rw [hother j hjk] at hj'
      refine h.worker_set hget ?_ hj'
      rw [hserved]
      exact fun heq => hjk (Whereabouts.served.inj heq).symm

end Hosting

/-! ## Steps inside of `echo_cnt` -/

/-- The steps that a worker has still to take for what it has, from where it is. -/
def echoLeft : EchoPc → ℕ
  | .removing => 0
  | .closing _ => 1
  | .reading _ => 2
  | .initCnt _ => 3
  | .initSem _ => 4
  | .once _ => 5
  | .writing _ _ => 3
  | .unlocking _ _ => 4
  | .printing _ _ => 5
  | .storing _ _ _ => 6
  | .loading _ _ => 7
  | .locking _ _ => 8

/-- The bytes of the line that the worker has still to add. -/
def notAdded : EchoPc → ℕ
  | .locking _ n | .loading _ n | .storing _ n _ => n
  | _ => 0

/-- The next place of a worker that goes on with the same connection and the same line. -/
structure Onward (pc pc' : EchoPc) : Prop where
  descriptor : pc'.descriptor = pc.descriptor
  held : heldLine pc' = heldLine pc
  not_closing : ∀ connfd, pc' ≠ .closing connfd
  nearer : echoLeft pc' < echoLeft pc

/-- The worker `k` goes on to `pc`. -/
structure Moved (w w' : EchoServer) (k : ℕ) (pc : EchoPc) : Prop where
  threads : w'.threads = Function.update w.threads k pc
  onward : Onward (w.threads k) pc
  added : w'.added.sum + notAdded pc = w.added.sum + notAdded (w.threads k)

theorem exists_moved_of {w w' : EchoServer} (hcase : w.threads k = pc)
    (hthreads : w'.threads = Function.update w.threads k pc') (honward : Onward pc pc')
    (hadded : w'.added.sum + notAdded pc' = w.added.sum + notAdded pc) :
    ∃ pc, Moved w w' k pc := by
  subst hcase
  exact ⟨pc', hthreads, honward, hadded⟩

/-- A step that does not use the descriptor. -/
theorem exists_moved {w w' : EchoServer} (hpc : OwnStep (w.threads k))
    (h : w.proceed k = some w') : ∃ pc, Moved w w' k pc := by
  cases hcase : w.threads k with
  | removing => rw [hcase] at hpc; exact hpc.elim
  | reading connfd => rw [hcase] at hpc; exact hpc.elim
  | writing connfd n => rw [hcase] at hpc; exact hpc.elim
  | closing connfd => rw [hcase] at hpc; exact hpc.elim
  | once connfd =>
    simp only [EchoServer.proceed, hcase] at h
    cases ho : w.once with
    | notStarted =>
      rw [ho] at h
      obtain rfl := Option.some.inj h
      exact exists_moved_of hcase rfl ⟨rfl, rfl, by simp, by simp [echoLeft]⟩ rfl
    | running =>
      rw [ho] at h
      cases h
    | done =>
      rw [ho] at h
      obtain rfl := Option.some.inj h
      exact exists_moved_of hcase rfl ⟨rfl, rfl, by simp, by simp [echoLeft]⟩ rfl
  | initSem connfd =>
    simp only [EchoServer.proceed, hcase] at h
    obtain rfl := Option.some.inj h
    exact exists_moved_of hcase rfl ⟨rfl, rfl, by simp, by simp [echoLeft]⟩ rfl
  | initCnt connfd =>
    simp only [EchoServer.proceed, hcase] at h
    obtain rfl := Option.some.inj h
    exact exists_moved_of hcase rfl ⟨rfl, rfl, by simp, by simp [echoLeft]⟩ rfl
  | locking connfd n =>
    simp only [EchoServer.proceed, hcase] at h
    rw [Option.ite_none_right_eq_some] at h
    obtain rfl := Option.some.inj h.2
    exact exists_moved_of hcase rfl ⟨rfl, rfl, by simp, by simp [echoLeft]⟩ rfl
  | loading connfd n =>
    simp only [EchoServer.proceed, hcase] at h
    obtain rfl := Option.some.inj h
    exact exists_moved_of hcase rfl ⟨rfl, rfl, by simp, by simp [echoLeft]⟩ rfl
  | storing connfd n cnt =>
    simp only [EchoServer.proceed, hcase] at h
    obtain rfl := Option.some.inj h
    refine exists_moved_of hcase rfl ⟨rfl, rfl, by simp, by simp [echoLeft]⟩ ?_
    show (w.added ++ [n]).sum + 0 = w.added.sum + n
    rw [List.sum_append, List.sum_singleton, Nat.add_zero]
  | printing connfd n =>
    simp only [EchoServer.proceed, hcase] at h
    obtain rfl := Option.some.inj h
    exact exists_moved_of hcase rfl ⟨rfl, rfl, by simp, by simp [echoLeft]⟩ rfl
  | unlocking connfd n =>
    simp only [EchoServer.proceed, hcase] at h
    obtain rfl := Option.some.inj h
    exact exists_moved_of hcase rfl ⟨rfl, rfl, by simp, by simp [echoLeft]⟩ rfl

theorem Working.onward (h : Working pc line x) (ho : Onward pc pc') : Working pc' line x := by
  refine ⟨ho.descriptor.trans h.descriptor, ?_, ?_, fun connfd hpc => ?_⟩
  · rw [lineHeld, ho.held]
    exact h.books
  · rw [ho.held]
    exact h.length
  · exact absurd hpc (ho.not_closing connfd)

/-- The worker has its line. -/
theorem Working.read (h : Working (.reading connfd) line x) :
    Working (.locking connfd (firstLine x.unread).length) (firstLine x.unread)
      { x with unread := x.unread.drop (firstLine x.unread).length } := by
  refine ⟨h.descriptor, ?_, fun n hn => Option.some.inj hn, nofun⟩
  have hbooks := h.books
  rw [show lineHeld (.reading connfd) line = [] from rfl, List.append_nil] at hbooks
  show x.sent = x.echoed ++ firstLine x.unread ++ x.unread.drop (firstLine x.unread).length
  rw [List.append_assoc, List.prefix_iff_eq_append.mp (firstLine_begins x.unread)]
  exact hbooks

theorem Working.endOfFile (h : Working (.reading connfd) line x) (hend : firstLine x.unread = []) :
    Working (.closing connfd) [] x := by
  refine ⟨h.descriptor, h.books, nofun, fun fd _ => ?_⟩
  by_contra hne
  exact firstLine_ne_nil hne hend

/-- The line goes back whole. -/
theorem Working.write {n : ℕ} (h : Working (.writing connfd n) line x) :
    Working (.reading connfd) line { x with echoed := x.echoed ++ line.take n } := by
  have hlength := h.length n rfl
  refine ⟨h.descriptor, ?_, nofun, nofun⟩
  show x.sent = x.echoed ++ line.take n ++ [] ++ x.unread
  rw [← hlength, List.take_length, List.append_nil]
  exact h.books

/-! ## The invariant -/

/-- **The step lemma.** -/
theorem Hosting.step {a : PreServer.Action} (h : Hosting items size nthreads s)
    (hB : IsBounded B size items)
    (he : PreServer.Effect B nthreads s a t) : Hosting items size nthreads t := by
  cases he with
  | accept hmain hfree => exact h.accept hmain hfree
  | insert hmain hinsert hx => exact h.insert hB hmain hinsert hx
  | take hk hpc hremove hx =>
    exact h.take hB hk hpc hremove hx (h.counter.step (.remove _ hpc))
  | @line k connfd c x hk hpc hx hpos =>
    have hw := (h.working (by rw [hpc]; rfl) hx).2.2
    have hread := hw.2.2
    rw [hpc] at hread
    refine h.work (by rw [hpc]; rfl) hx rfl (fun j hj => Function.update_of_ne hj _ _)
      (h.counter.step (.line hpc hpos (length_firstLine_lt _))) rfl hw.1 ?_
    rw [Function.update_self]
    exact hread.read
  | @endOfFile k connfd c x hk hpc hx hend =>
    have hw := (h.working (by rw [hpc]; rfl) hx).2.2
    have hread := hw.2.2
    rw [hpc] at hread
    refine h.work (by rw [hpc]; rfl) hx rfl (fun j hj => Function.update_of_ne hj _ _)
      (h.counter.step (.endOfFile hpc)) rfl hw.1 ?_
    rw [Function.update_self]
    exact hread.endOfFile hend
  | @write k n connfd c x hk hpc hx =>
    have hw := (h.working (by rw [hpc]; rfl) hx).2.2
    have hwrite := hw.2.2
    rw [hpc] at hwrite
    exact h.work (by rw [hpc]; rfl) hx rfl (fun _ _ => rfl)
      (h.counter.step (.write hpc)) rfl hw.1 hwrite.write
  | close hk hpc hx => exact h.close hpc hx (h.counter.step (.close hpc))
  | @inside k workers hk hpc hstep =>
    obtain ⟨pc, hmoved⟩ := exists_moved hpc hstep
    obtain ⟨connfd, hfd⟩ : ∃ connfd, (s.workers.threads k).descriptor = some connfd := by
      cases hcase : s.workers.threads k with
      | removing => rw [hcase] at hpc; exact hpc.elim
      | _ => exact ⟨_, rfl⟩
    obtain ⟨c, x, hget, rfl, hserved⟩ := h.worker k connfd hfd
    have hx := h.client_eq hget (by simp [hserved])
    have hw := (h.working hfd hx).2.2.2.2
    have hsame : s.clients.set c x = s.clients := by
      obtain ⟨hlt, rfl⟩ := List.getElem?_eq_some_iff.mp hget
      exact List.set_getElem_self hlt
    have hnext := h.work hfd hx hmoved.threads (fun _ _ => rfl)
      (h.counter.step (EchoServer.effect_of_proceed hstep)) rfl hserved
      (hw.onward hmoved.onward)
    rwa [hsame] at hnext
  | stray hnone hused => exact absurd hnone (h.not_stray hB hused)

theorem hosting_of_run (hB : IsBounded B size items) {as : List PreServer.Action}
    (h : run (PreServer.step B nthreads) (newPreServer B size) as = some s) :
    Hosting items size nthreads s :=
  run_invariant (hosting_newPreServer hB nthreads)
    (fun _ _ _ hs ha => hs.step hB (PreServer.effect_of_step ha).2) h

/-! ## The main theorem -/

/-- What was echoed is what the client sent, as far as it goes. -/
theorem Located.echoed (h : Located s c x x.whereabouts) :
    x.echoed <+: x.sent ∧ (x.whereabouts = .closed → x.echoed = x.sent) := by
  cases hw : x.whereabouts with
  | pending =>
    rw [hw] at h
    rw [h.2.1]
    exact ⟨List.nil_prefix, by simp⟩
  | waiting =>
    rw [hw] at h
    rw [h.2.2.1]
    exact ⟨List.nil_prefix, by simp⟩
  | served k =>
    rw [hw] at h
    rw [h.2.books, List.append_assoc]
    exact ⟨List.prefix_append _ _, by simp⟩
  | closed =>
    rw [hw] at h
    exact ⟨⟨[], (List.append_nil _).trans h.2.1⟩, fun _ => h.2.1⟩

/-- The connections that were taken are those with a worker and those that are closed. -/
theorem Hosting.taken_iff (h : Hosting items size nthreads s) (hx : s.clients[c]? = some x) :
    c < s.taken ↔ x.whereabouts = .closed ∨ ∃ k, k < nthreads ∧ x.whereabouts = .served k ∧
      (s.workers.threads k).descriptor = some x.connfd := by
  have hplaced := h.placed c x hx
  have hle := h.taken_le
  cases hw : x.whereabouts with
  | pending =>
    rw [hw] at hplaced
    refine iff_of_false ?_ (by simp)
    exact Nat.not_lt_of_le (Nat.le_trans hle hplaced.1)
  | waiting =>
    rw [hw] at hplaced
    exact iff_of_false (Nat.not_lt_of_le hplaced.1) (by simp)
  | served k =>
    rw [hw] at hplaced
    exact iff_of_true hplaced.1
      (.inr ⟨k, h.lt_of_served hx hw, rfl, hplaced.2.descriptor⟩)
  | closed =>
    rw [hw] at hplaced
    exact iff_of_true hplaced.1 (.inl rfl)

/-- **Every connection is served by one worker**, whatever the schedule and however descriptors
come back. No step uses a descriptor that is not open, and no two workers have the same one.
What was echoed to a client is the beginning of what it sent, and all of it when its
connection is closed. The connections are taken in the order in which they were accepted, at
most `SBUFSIZE` are between insertion and removal, and at most one is not inserted.
SOURCE: csapp/echo/echo6_echoserverpre.c:22-43, echo6_echocnt.c:12-28 -/
theorem connections_served (size nthreads : ℕ) (hB : IsBounded B size items)
    (as : List PreServer.Action) (s : PreServer β)
    (h : run (PreServer.step B nthreads) (newPreServer B size) as = some s) :
    s.stray = false ∧
      (∀ c x, s.clients[c]? = some x →
        (x.echoed <+: x.sent ∧ (x.whereabouts = .closed → x.echoed = x.sent)) ∧
        (c < s.taken ↔ x.whereabouts = .closed ∨ ∃ k, k < nthreads ∧
          x.whereabouts = .served k ∧ (s.workers.threads k).descriptor = some x.connfd)) ∧
      (∀ j k connfd, (s.workers.threads j).descriptor = some connfd →
        (s.workers.threads k).descriptor = some connfd → j = k) ∧
      s.inserted ≤ s.taken + size ∧ s.inserted ≤ s.clients.length ∧
      s.clients.length ≤ s.inserted + 1 := by
  have hs : Hosting items size nthreads s := hosting_of_run hB h
  have hlength := hs.length
  refine ⟨hs.sound, fun c x hx => ⟨(hs.placed c x hx).echoed, hs.taken_iff hx⟩, ?_,
    hs.inserted_le, by omega, ?_⟩
  · intro j k connfd hj hk
    obtain ⟨c, x, hx, hxfd, hxj⟩ := hs.worker j connfd hj
    obtain ⟨d, y, hy, hyfd, hyk⟩ := hs.worker k connfd hk
    obtain rfl := hs.open_unique hx hy (hxfd.trans hyfd.symm) (by simp [hxj]) (by simp [hyk])
    obtain rfl := Option.some.inj (hx.symm.trans hy)
    exact Whereabouts.served.inj (hxj.symm.trans hyk)
  · rw [hlength]
    split
    · omega
    · omega

/-- Two clients, one after the other on the same descriptor. -/
def twoVisits : List PreServer.Action :=
  [.accept 4 [97, 10], .insert] ++ List.replicate 13 (.worker 0) ++
    [.accept 4 [98, 10], .insert] ++ List.replicate 9 (.worker 1)

theorem connections_served_two :
    ∃ s, run (PreServer.step (RingBuffer.buffer 0) 4) (newPreServer (RingBuffer.buffer 0) 16)
        twoVisits = some s ∧ s.clients.map EchoClient.echoed = [[97, 10], [98, 10]] ∧
      ∀ (c : ℕ) (x : EchoClient), s.clients[c]? = some x → x.echoed <+: x.sent := by
  refine ⟨_, rfl, rfl, fun c x hx => ?_⟩
  exact ((connections_served 16 4 (RingBuffer.isBounded_ring 0 16) twoVisits _ rfl).2.1
    c x hx).1.1

end GolangSandbox.Analysis
