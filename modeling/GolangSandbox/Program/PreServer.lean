import GolangSandbox.Model.Ring
import GolangSandbox.Program.EchoCount

/-!
# The prethreaded echo server with its connections

`csapp/echo/echo6_echoserverpre.c`: `main` accepts connections and inserts their descriptors
into a bounded buffer, and `NTHREADS` workers remove them, echo what comes in, and close them.

The workers are those of `EchoServer`, where a read returns any number of bytes; here they read
from connections. The table of open descriptors says which connection a descriptor stands for,
so a descriptor that was closed may be accepted again, for another client. `Accept` returns a
descriptor that is not open, a client sends some bytes and closes its end, and
`Rio_readlineb` waits until it has a line of what is left, or the end. It goes on reading, so
that writes succeed, and no other call fails. A use of a descriptor that is not open ends the
process (`stray`). `sbuf.c` is not here: the operations of the buffer are a parameter, and each
is one step.

For every connection, in the order of `Accept`, what its client sends and what was written to
it are kept, and where its descriptor is; how many were inserted and removed is counted.
-/

set_option autoImplicit false

namespace GolangSandbox.Program

open GolangSandbox.Model

/-- Where a descriptor is: with `main`, in the buffer, with a worker, or closed. -/
inductive Whereabouts where
  | pending
  | waiting
  | served (k : ℕ)
  | closed
  deriving DecidableEq, Repr

/-- A connection: what its client sends, the part that was not read, and what was echoed. -/
structure EchoClient where
  connfd : ℤ
  sent : Bytes
  unread : Bytes
  echoed : Bytes
  whereabouts : Whereabouts
  deriving DecidableEq, Repr

/-- The descriptor that a worker has taken. -/
def EchoPc.descriptor : EchoPc → Option ℤ
  | .removing => none
  | .once connfd | .initSem connfd | .initCnt connfd | .reading connfd | .locking connfd _
  | .loading connfd _ | .storing connfd _ _ | .printing connfd _ | .unlocking connfd _
  | .writing connfd _ | .closing connfd => some connfd

/-- The process. `buf k` is the line that the worker `k` has read last. -/
structure PreServer (β : Type) where
  workers : EchoServer
  buf : ℕ → Bytes
  sbuf : β
  main : Option ℤ
  socket : ℤ → Option ℕ
  clients : List EchoClient
  inserted : ℕ
  taken : ℕ
  stray : Bool

namespace PreServer

variable {β : Type}

/-- `main` has created the workers.
SOURCE: csapp/echo/echo6_echoserverpre.c:22-27 -/
def newPreServer (B : BoundedBuffer β ℤ) (SBUFSIZE : ℕ) : PreServer β where
  workers := .start
  buf := fun _ => []
  sbuf := B.init SBUFSIZE
  main := none
  socket := fun _ => none
  clients := []
  inserted := 0
  taken := 0
  stray := false

/-- `Accept` returns a descriptor for a client that is going to send these bytes, `main` inserts
a descriptor, or a worker takes a step. -/
inductive Action where
  | accept (connfd : ℤ) (sent : Bytes)
  | insert
  | worker (k : ℕ)
  deriving DecidableEq, Repr

/-- The connection that a descriptor stands for. -/
def client (s : PreServer β) (connfd : ℤ) : Option (ℕ × EchoClient) :=
  (s.socket connfd).bind fun c => s.clients[c]?.map fun x => (c, x)

/-- A step with the connection of `connfd`. -/
def withClient (s : PreServer β) (connfd : ℤ)
    (next : ℕ → EchoClient → Option (PreServer β)) : Option (PreServer β) :=
  match s.client connfd with
  | some (c, x) => next c x
  | none => some { s with stray := true }

/-- SOURCE: csapp/echo/echo6_echoserverpre.c:30 -/
def accept (s : PreServer β) (connfd : ℤ) (sent : Bytes) : Option (PreServer β) :=
  if s.main = none ∧ s.socket connfd = none then
    some { s with
      main := some connfd
      socket := Function.update s.socket connfd (some s.clients.length)
      clients := s.clients ++ [⟨connfd, sent, sent, [], .pending⟩] }
  else none

/-- SOURCE: csapp/echo/echo6_echoserverpre.c:31 -/
def insert (B : BoundedBuffer β ℤ) (s : PreServer β) : Option (PreServer β) :=
  s.main.bind fun connfd => (B.insert s.sbuf connfd).bind fun sbuf =>
    s.withClient connfd fun c x =>
      some { s with
        sbuf := sbuf
        main := none
        clients := s.clients.set c { x with whereabouts := .waiting }
        inserted := s.inserted + 1 }

/-- A step of the worker `k`: of its loop, or of `echo_cnt`.
SOURCE: csapp/echo/echo6_echoserverpre.c:38-42, echo6_echocnt.c:19-27 -/
def stepWorker (B : BoundedBuffer β ℤ) (s : PreServer β) (k : ℕ) : Option (PreServer β) :=
  match s.workers.threads k with
  | .removing =>
    (B.remove s.sbuf).bind fun (connfd, sbuf) =>
      s.withClient connfd fun c x =>
        (s.workers.step (.remove k connfd)).map fun workers =>
          { s with
            workers := workers
            sbuf := sbuf
            clients := s.clients.set c { x with whereabouts := .served k }
            taken := s.taken + 1 }
  | .reading connfd =>
    s.withClient connfd fun c x =>
      (s.workers.step (.read k (firstLine x.unread).length)).map fun workers =>
        { s with
          workers := workers
          buf := Function.update s.buf k (firstLine x.unread)
          clients := s.clients.set c
            { x with unread := x.unread.drop (firstLine x.unread).length } }
  | .writing connfd n =>
    s.withClient connfd fun c x =>
      (s.workers.step (.proceed k)).map fun workers =>
        { s with
          workers := workers
          clients := s.clients.set c { x with echoed := x.echoed ++ (s.buf k).take n } }
  | .closing connfd =>
    s.withClient connfd fun c x =>
      (s.workers.step (.proceed k)).map fun workers =>
        { s with
          workers := workers
          socket := Function.update s.socket connfd none
          clients := s.clients.set c { x with whereabouts := .closed } }
  | _ => (s.workers.step (.proceed k)).map fun workers => { s with workers := workers }

/-- One step.
SOURCE: csapp/echo/echo6_echoserverpre.c:11-43 -/
def step (B : BoundedBuffer β ℤ) (NTHREADS : ℕ) (s : PreServer β) (a : Action) :
    Option (PreServer β) :=
  if s.stray then none
  else
    match a with
    | .accept connfd sent => s.accept connfd sent
    | .insert => s.insert B
    | .worker k => if k < NTHREADS then s.stepWorker B k else none

/-! ## What a step does -/

/-- The worker is in `echo_cnt`, at a step that does not use its descriptor. -/
def OwnStep : EchoPc → Prop
  | .removing | .reading _ | .writing _ _ | .closing _ => False
  | _ => True

/-- What an action leads to, with what makes it possible. -/
inductive Effect (B : BoundedBuffer β ℤ) (NTHREADS : ℕ) (s : PreServer β) :
    Action → PreServer β → Prop where
  | accept {connfd : ℤ} {sent : Bytes} (hmain : s.main = none) (hfd : s.socket connfd = none) :
      Effect B NTHREADS s (.accept connfd sent) { s with
        main := some connfd
        socket := Function.update s.socket connfd (some s.clients.length)
        clients := s.clients ++ [⟨connfd, sent, sent, [], .pending⟩] }
  | insert {connfd : ℤ} {sbuf : β} {c : ℕ} {x : EchoClient} (hmain : s.main = some connfd)
      (hinsert : B.insert s.sbuf connfd = some sbuf) (hx : s.client connfd = some (c, x)) :
      Effect B NTHREADS s .insert { s with
        sbuf := sbuf
        main := none
        clients := s.clients.set c { x with whereabouts := .waiting }
        inserted := s.inserted + 1 }
  | take {k : ℕ} {connfd : ℤ} {sbuf : β} {c : ℕ} {x : EchoClient} (hk : k < NTHREADS)
      (hpc : s.workers.threads k = .removing) (hremove : B.remove s.sbuf = some (connfd, sbuf))
      (hx : s.client connfd = some (c, x)) :
      Effect B NTHREADS s (.worker k) { s with
        workers := s.workers.goOn k (.once connfd)
        sbuf := sbuf
        clients := s.clients.set c { x with whereabouts := .served k }
        taken := s.taken + 1 }
  | line {k : ℕ} {connfd : ℤ} {c : ℕ} {x : EchoClient} (hk : k < NTHREADS)
      (hpc : s.workers.threads k = .reading connfd) (hx : s.client connfd = some (c, x))
      (hpos : 0 < (firstLine x.unread).length) :
      Effect B NTHREADS s (.worker k) { s with
        workers := s.workers.goOn k (.locking connfd (firstLine x.unread).length)
        buf := Function.update s.buf k (firstLine x.unread)
        clients := s.clients.set c
          { x with unread := x.unread.drop (firstLine x.unread).length } }
  | endOfFile {k : ℕ} {connfd : ℤ} {c : ℕ} {x : EchoClient} (hk : k < NTHREADS)
      (hpc : s.workers.threads k = .reading connfd) (hx : s.client connfd = some (c, x))
      (hend : firstLine x.unread = []) :
      Effect B NTHREADS s (.worker k) { s with
        workers := s.workers.goOn k (.closing connfd)
        buf := Function.update s.buf k []
        clients := s.clients.set c x }
  | write {k n : ℕ} {connfd : ℤ} {c : ℕ} {x : EchoClient} (hk : k < NTHREADS)
      (hpc : s.workers.threads k = .writing connfd n) (hx : s.client connfd = some (c, x)) :
      Effect B NTHREADS s (.worker k) { s with
        workers := s.workers.goOn k (.reading connfd)
        clients := s.clients.set c { x with echoed := x.echoed ++ (s.buf k).take n } }
  | close {k : ℕ} {connfd : ℤ} {c : ℕ} {x : EchoClient} (hk : k < NTHREADS)
      (hpc : s.workers.threads k = .closing connfd) (hx : s.client connfd = some (c, x)) :
      Effect B NTHREADS s (.worker k) { s with
        workers := s.workers.goOn k .removing
        socket := Function.update s.socket connfd none
        clients := s.clients.set c { x with whereabouts := .closed } }
  | inside {k : ℕ} {workers : EchoServer} (hk : k < NTHREADS)
      (hpc : OwnStep (s.workers.threads k)) (hstep : s.workers.proceed k = some workers) :
      Effect B NTHREADS s (.worker k) { s with workers := workers }
  | stray {a : Action} {connfd : ℤ} (hnone : s.client connfd = none)
      (hused : s.main = some connfd ∨ (∃ sbuf, B.remove s.sbuf = some (connfd, sbuf)) ∨
        ∃ k, (s.workers.threads k).descriptor = some connfd) :
      Effect B NTHREADS s a { s with stray := true }

variable {B : BoundedBuffer β ℤ} {NTHREADS : ℕ} {s t : PreServer β}

theorem client_eq_some {connfd : ℤ} {c : ℕ} {x : EchoClient} :
    s.client connfd = some (c, x) ↔ s.socket connfd = some c ∧ s.clients[c]? = some x := by
  simp only [client, Option.bind_eq_some_iff, Option.map_eq_some_iff, Prod.mk.injEq]
  constructor
  · rintro ⟨d, hd, y, hy, rfl, rfl⟩
    exact ⟨hd, hy⟩
  · rintro ⟨hc, hx⟩
    exact ⟨c, hc, x, hx, rfl, rfl⟩

/-- A step with a connection finds it, or there is none. -/
theorem withClient_eq_some {connfd : ℤ} {next : ℕ → EchoClient → Option (PreServer β)}
    (h : s.withClient connfd next = some t) :
    (∃ c x, s.client connfd = some (c, x) ∧ next c x = some t) ∨
      s.client connfd = none ∧ t = { s with stray := true } := by
  unfold withClient at h
  split at h
  · rename_i c x hx
    exact .inl ⟨c, x, hx, h⟩
  · rename_i hnone
    exact .inr ⟨hnone, (Option.some.inj h).symm⟩

theorem effect_of_insert (h : s.insert B = some t) : Effect B NTHREADS s .insert t := by
  obtain ⟨connfd, hmain, hrest⟩ := Option.bind_eq_some_iff.mp h
  obtain ⟨sbuf, hinsert, hclient⟩ := Option.bind_eq_some_iff.mp hrest
  obtain ⟨c, x, hx, hnext⟩ | ⟨hnone, rfl⟩ := withClient_eq_some hclient
  · exact Option.some.inj hnext ▸ .insert hmain hinsert hx
  · exact .stray hnone (.inl hmain)

/-- A worker that removes a descriptor. -/
theorem effect_of_take {k : ℕ} (hk : k < NTHREADS) (hpc : s.workers.threads k = .removing)
    (h : s.stepWorker B k = some t) : Effect B NTHREADS s (.worker k) t := by
  unfold stepWorker at h
  rw [hpc] at h
  obtain ⟨⟨connfd, sbuf⟩, hremove, hclient⟩ := Option.bind_eq_some_iff.mp h
  obtain ⟨c, x, hx, hnext⟩ | ⟨hnone, rfl⟩ := withClient_eq_some hclient
  · obtain ⟨workers, hworkers, rfl⟩ := Option.map_eq_some_iff.mp hnext
    simp only [EchoServer.step, hpc] at hworkers
    obtain rfl := Option.some.inj hworkers
    exact .take hk hpc hremove hx
  · exact .stray hnone (.inr (.inl ⟨sbuf, hremove⟩))

/-- A worker that reads a line, or the end. -/
theorem effect_of_read {k : ℕ} {connfd : ℤ} (hk : k < NTHREADS)
    (hpc : s.workers.threads k = .reading connfd) (h : s.stepWorker B k = some t) :
    Effect B NTHREADS s (.worker k) t := by
  unfold stepWorker at h
  rw [hpc] at h
  obtain ⟨c, x, hx, hnext⟩ | ⟨hnone, rfl⟩ := withClient_eq_some h
  · obtain ⟨workers, hworkers, rfl⟩ := Option.map_eq_some_iff.mp hnext
    simp only [EchoServer.step, hpc] at hworkers
    rw [Option.ite_none_right_eq_some] at hworkers
    obtain rfl := Option.some.inj hworkers.2
    by_cases hend : firstLine x.unread = []
    · have heffect : Effect B NTHREADS s (.worker k) _ := .endOfFile hk hpc hx hend
      simpa only [hend, List.length_nil, if_true, List.drop_zero] using heffect
    · have hpos := List.length_pos_iff.mpr hend
      rw [if_neg (Nat.ne_of_gt hpos)]
      exact .line hk hpc hx hpos
  · refine .stray hnone (.inr (.inr ⟨k, ?_⟩))
    rw [hpc]
    rfl

/-- A worker that writes a line back. -/
theorem effect_of_write {k n : ℕ} {connfd : ℤ} (hk : k < NTHREADS)
    (hpc : s.workers.threads k = .writing connfd n) (h : s.stepWorker B k = some t) :
    Effect B NTHREADS s (.worker k) t := by
  unfold stepWorker at h
  rw [hpc] at h
  obtain ⟨c, x, hx, hnext⟩ | ⟨hnone, rfl⟩ := withClient_eq_some h
  · obtain ⟨workers, hworkers, rfl⟩ := Option.map_eq_some_iff.mp hnext
    simp only [EchoServer.step, EchoServer.proceed, hpc] at hworkers
    obtain rfl := Option.some.inj hworkers
    exact .write hk hpc hx
  · refine .stray hnone (.inr (.inr ⟨k, ?_⟩))
    rw [hpc]
    rfl

/-- A worker that closes its descriptor. -/
theorem effect_of_close {k : ℕ} {connfd : ℤ} (hk : k < NTHREADS)
    (hpc : s.workers.threads k = .closing connfd) (h : s.stepWorker B k = some t) :
    Effect B NTHREADS s (.worker k) t := by
  unfold stepWorker at h
  rw [hpc] at h
  obtain ⟨c, x, hx, hnext⟩ | ⟨hnone, rfl⟩ := withClient_eq_some h
  · obtain ⟨workers, hworkers, rfl⟩ := Option.map_eq_some_iff.mp hnext
    simp only [EchoServer.step, EchoServer.proceed, hpc] at hworkers
    obtain rfl := Option.some.inj hworkers
    exact .close hk hpc hx
  · refine .stray hnone (.inr (.inr ⟨k, ?_⟩))
    rw [hpc]
    rfl

/-- A worker inside of `echo_cnt`. -/
theorem stepWorker_of_ownStep {k : ℕ} (hpc : OwnStep (s.workers.threads k)) :
    s.stepWorker B k =
      (s.workers.proceed k).map fun workers => { s with workers := workers } := by
  unfold stepWorker
  cases hcase : s.workers.threads k with
  | removing => rw [hcase] at hpc; exact hpc.elim
  | reading connfd => rw [hcase] at hpc; exact hpc.elim
  | writing connfd n => rw [hcase] at hpc; exact hpc.elim
  | closing connfd => rw [hcase] at hpc; exact hpc.elim
  | _ => rfl

theorem effect_of_worker {k : ℕ} (hk : k < NTHREADS) (h : s.stepWorker B k = some t) :
    Effect B NTHREADS s (.worker k) t := by
  by_cases hinside : OwnStep (s.workers.threads k)
  · rw [stepWorker_of_ownStep hinside] at h
    obtain ⟨workers, hworkers, rfl⟩ := Option.map_eq_some_iff.mp h
    exact .inside hk hinside hworkers
  · cases hpc : s.workers.threads k with
    | removing => exact effect_of_take hk hpc h
    | reading connfd => exact effect_of_read hk hpc h
    | writing connfd n => exact effect_of_write hk hpc h
    | closing connfd => exact effect_of_close hk hpc h
    | _ =>
      rw [hpc] at hinside
      exact absurd trivial hinside

/-- No step follows the use of a descriptor that is not open. -/
theorem effect_of_step {a : Action} (h : s.step B NTHREADS a = some t) :
    s.stray = false ∧ Effect B NTHREADS s a t := by
  unfold step at h
  rw [Option.ite_none_left_eq_some, Bool.not_eq_true] at h
  refine ⟨h.1, ?_⟩
  cases a with
  | accept connfd sent =>
    obtain ⟨hfree, heq⟩ := (Option.ite_none_right_eq_some).mp h.2
    exact Option.some.inj heq ▸ .accept hfree.1 hfree.2
  | insert => exact effect_of_insert h.2
  | worker k =>
    obtain ⟨hk, hstep⟩ := (Option.ite_none_right_eq_some).mp h.2
    exact effect_of_worker hk hstep

end PreServer

end GolangSandbox.Program
