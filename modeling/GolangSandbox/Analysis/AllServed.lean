import GolangSandbox.Analysis.Connections

/-!
# All clients are served

With no new connections the server comes to its end: all workers wait at an empty buffer, all
connections are closed, and `byte_cnt` has the bytes of all clients in it.

A step inside of `echo_cnt` brings the worker nearer to its next call, and a line costs as many
steps as a worker has to take for it, so unread bytes are paid for in advance
(`serviceLeft`). The bytes that the clients sent are those added to the counter, those of lines
that are not added yet, and those not read (`Tallied`).
-/

set_option autoImplicit false

namespace GolangSandbox.Analysis

open GolangSandbox.Model GolangSandbox.Program GolangSandbox.Program.PreServer

variable {β : Type} {B : BoundedBuffer β ℤ} {items : β → List ℤ → Prop} {size nthreads c k : ℕ}
  {s t : PreServer β} {a : PreServer.Action} {x : EchoClient} {pc : EchoPc} {connfd : ℤ}

/-! ## The measure and the tally -/

/-- No new connection. -/
def Quiet : PreServer.Action → Prop
  | .accept _ _ => False
  | .insert | .worker _ => True

instance : DecidablePred Quiet
  | .accept _ _ => isFalse id
  | .insert | .worker _ => isTrue trivial

/-- Where the workers are. -/
def workersAt (nthreads : ℕ) (w : EchoServer) : List EchoPc := (List.range nthreads).map w.threads

def sentBytes (x : EchoClient) : ℕ := x.sent.length

def unreadBytes (x : EchoClient) : ℕ := x.unread.length

/-- The steps that the server has still to take. -/
def serviceLeft (nthreads : ℕ) (s : PreServer β) : ℕ :=
  load echoLeft (workersAt nthreads s.workers) + 7 * load unreadBytes s.clients +
    6 * (s.inserted - s.taken) + if s.main = none then 0 else 7

/-- Every byte is counted, in a line, or not read. -/
def Tallied (nthreads : ℕ) (s : PreServer β) : Prop :=
  load sentBytes s.clients = s.workers.added.sum + load notAdded (workersAt nthreads s.workers) +
    load unreadBytes s.clients

theorem load_workersAt {w w' : EchoServer} (f : EchoPc → ℕ) (hk : k < nthreads)
    (h : w'.threads = Function.update w.threads k pc) :
    load f (workersAt nthreads w') + f (w.threads k) =
      load f (workersAt nthreads w) + f pc := by
  rw [workersAt, h]
  exact load_range_update hk pc

/-- Workers that wait have no line. -/
theorem load_removing {w : EchoServer} (h : ∀ k, w.threads k = .removing) (n : ℕ) :
    load notAdded (workersAt n w) = 0 := by
  refine load_eq_zero fun pc hpc => ?_
  obtain ⟨k, -, rfl⟩ := List.mem_map.mp hpc
  rw [h k]
  rfl

theorem tallied_newPreServer (B : BoundedBuffer β ℤ) (size nthreads : ℕ) :
    Tallied nthreads (newPreServer B size) := by
  show 0 = 0 + load notAdded (workersAt nthreads EchoServer.start) + 0
  rw [load_removing fun _ => rfl]

/-- A worker goes on to `pc` and its connection to `y`: the bytes it has, and what it has still
to do. -/
theorem Tallied.move {w : EchoServer} {y : EchoClient} (h : Tallied nthreads s)
    (hk : k < nthreads) (hthreads : w.threads = Function.update s.workers.threads k pc)
    (hx : s.clients[c]? = some x) (hsent : sentBytes y = sentBytes x)
    (hbytes : w.added.sum + notAdded pc + unreadBytes y =
      s.workers.added.sum + notAdded (s.workers.threads k) + unreadBytes x) :
    load sentBytes (s.clients.set c y) = w.added.sum + load notAdded (workersAt nthreads w) +
        load unreadBytes (s.clients.set c y) ∧
      load echoLeft (workersAt nthreads w) + 7 * load unreadBytes (s.clients.set c y) +
          (echoLeft (s.workers.threads k) + 7 * unreadBytes x) =
        load echoLeft (workersAt nthreads s.workers) + 7 * load unreadBytes s.clients +
          (echoLeft pc + 7 * unreadBytes y) := by
  have hall := load_set (f := sentBytes) hx y
  have hunread := load_set (f := unreadBytes) hx y
  have hadd := load_workersAt notAdded hk hthreads
  have hleft := load_workersAt echoLeft hk hthreads
  unfold Tallied at h
  exact ⟨by omega, by omega⟩

/-- The bytes of a line leave those that are not read. -/
theorem unreadBytes_drop (x : EchoClient) :
    (firstLine x.unread).length +
      unreadBytes { x with unread := x.unread.drop (firstLine x.unread).length } =
        unreadBytes x := by
  have hle := (firstLine_begins x.unread).length_le
  simp only [unreadBytes, List.length_drop]
  omega

/-- **Every step keeps the tally, and every step but `Accept` lowers what is left.** -/
theorem Hosting.tally_step (h : Hosting items size nthreads s) (hB : IsBounded B size items)
    (he : PreServer.Effect B nthreads s a t) (htally : Tallied nthreads s) :
    Tallied nthreads t ∧ (Quiet a → serviceLeft nthreads t < serviceLeft nthreads s) := by
  cases he with
  | @accept connfd sent hmain hfree =>
    refine ⟨?_, fun hquiet => hquiet.elim⟩
    unfold Tallied at htally ⊢
    simp only [load_append, load_cons, load_nil]
    show _ + (sent.length + 0) = _ + (_ + (sent.length + 0))
    omega
  | @insert connfd sbuf c x hmain hinsert hx =>
    have hget := (h.connfd_of_client hx).1
    have hsent := load_set (f := sentBytes) hget { x with whereabouts := .waiting }
    have hunread := load_set (f := unreadBytes) hget { x with whereabouts := .waiting }
    have hle := h.taken_le
    unfold Tallied at htally ⊢
    simp only [sentBytes, unreadBytes, Nat.add_right_cancel_iff] at hsent hunread
    refine ⟨?_, fun _ => ?_⟩
    · simp only [hsent, hunread, htally]
    · simp only [serviceLeft, hunread, hmain, if_true, if_neg (Option.some_ne_none connfd)]
      omega
  | @take k connfd sbuf c x hk hpc hremove hx =>
    have hget := (h.connfd_of_client hx).1
    obtain ⟨-, -, -, hlt, -⟩ := h.client_of_remove hB hremove
    obtain ⟨hbytes, hleft⟩ := htally.move (w := s.workers.goOn k (.once connfd))
      (y := { x with whereabouts := .served k }) hk rfl hget rfl (by rw [hpc]; rfl)
    simp only [hpc, echoLeft, unreadBytes] at hleft
    refine ⟨hbytes, fun _ => ?_⟩
    simp only [serviceLeft]
    omega
  | @line k connfd c x hk hpc hx hpos =>
    have hget := (h.connfd_of_client hx).1
    have hdrop := unreadBytes_drop x
    obtain ⟨hbytes, hleft⟩ := htally.move
      (w := s.workers.goOn k (.locking connfd (firstLine x.unread).length))
      (y := { x with unread := x.unread.drop (firstLine x.unread).length }) hk rfl hget rfl
      (by rw [hpc, Nat.add_assoc, notAdded, hdrop]; rfl)
    simp only [hpc, echoLeft] at hleft
    refine ⟨hbytes, fun _ => ?_⟩
    simp only [serviceLeft]
    omega
  | @endOfFile k connfd c x hk hpc hx hend =>
    have hget := (h.connfd_of_client hx).1
    obtain ⟨hbytes, hleft⟩ := htally.move (w := s.workers.goOn k (.closing connfd)) (y := x)
      hk rfl hget rfl (by rw [hpc]; rfl)
    simp only [hpc, echoLeft] at hleft
    refine ⟨hbytes, fun _ => ?_⟩
    simp only [serviceLeft]
    omega
  | @write k n connfd c x hk hpc hx =>
    have hget := (h.connfd_of_client hx).1
    obtain ⟨hbytes, hleft⟩ := htally.move (w := s.workers.goOn k (.reading connfd))
      (y := { x with echoed := x.echoed ++ (s.buf k).take n }) hk rfl hget rfl
      (by rw [hpc]; rfl)
    simp only [hpc, echoLeft, unreadBytes] at hleft
    refine ⟨hbytes, fun _ => ?_⟩
    simp only [serviceLeft]
    omega
  | @close k connfd c x hk hpc hx =>
    have hget := (h.connfd_of_client hx).1
    obtain ⟨hbytes, hleft⟩ := htally.move (w := s.workers.goOn k .removing)
      (y := { x with whereabouts := .closed }) hk rfl hget rfl (by rw [hpc]; rfl)
    simp only [hpc, echoLeft, unreadBytes] at hleft
    refine ⟨hbytes, fun _ => ?_⟩
    simp only [serviceLeft]
    omega
  | @inside k workers hk hpc hstep =>
    obtain ⟨pc, hmoved⟩ := exists_moved hpc hstep
    have hadd := load_workersAt notAdded hk hmoved.threads
    have hleft := load_workersAt echoLeft hk hmoved.threads
    have hnearer := hmoved.onward.nearer
    have hadded := hmoved.added
    unfold Tallied at htally ⊢
    simp only [serviceLeft]
    exact ⟨by omega, fun _ => by omega⟩
  | stray hnone hused => exact absurd hnone (h.not_stray hB hused)

/-! ## No deadlock -/

/-- If a worker is at a step of its own, then one can take it: the worker itself, the one that
initialises the counter, or the one between `P` and `V`. -/
theorem CountSound.exists_proceed {w : EchoServer} (h : CountSound w)
    (hpc : OwnStep (w.threads k)) : ∃ j, OwnStep (w.threads j) ∧ w.proceed j ≠ none := by
  have hself : w.proceed k ≠ none → ∃ j, OwnStep (w.threads j) ∧ w.proceed j ≠ none :=
    fun hne => ⟨k, hpc, hne⟩
  cases hcase : w.threads k with
  | removing => rw [hcase] at hpc; exact hpc.elim
  | reading connfd => rw [hcase] at hpc; exact hpc.elim
  | writing connfd n => rw [hcase] at hpc; exact hpc.elim
  | closing connfd => rw [hcase] at hpc; exact hpc.elim
  | once connfd =>
    cases ho : w.once with
    | notStarted => exact hself (by simp [EchoServer.proceed, hcase, ho])
    | done => exact hself (by simp [EchoServer.proceed, hcase, ho])
    | running =>
      obtain ⟨h, -⟩ | h := h
      · have halone := h.alone
        rw [if_pos ho] at halone
        obtain ⟨j, hj⟩ := halone.held rfl
        cases hpcj : w.threads j with
        | initSem fd =>
          exact ⟨j, by rw [hpcj]; trivial, by simp [EchoServer.proceed, hpcj]⟩
        | initCnt fd =>
          exact ⟨j, by rw [hpcj]; trivial, by simp [EchoServer.proceed, hpcj]⟩
        | _ =>
          rw [hpcj] at hj
          exact hj.elim
      · rw [h.once] at ho
        cases ho
  | locking connfd n =>
    by_cases hpos : 0 < w.mutex
    · exact hself (by simp [EchoServer.proceed, hcase, hpos])
    · obtain ⟨h, -⟩ | h := h
      · exact (h.not_late hcase id).elim
      · obtain ⟨j, hj⟩ := h.guarded.held (Nat.eq_zero_of_not_pos hpos)
        cases hpcj : w.threads j with
        | loading fd m =>
          exact ⟨j, by rw [hpcj]; trivial, by simp [EchoServer.proceed, hpcj]⟩
        | storing fd m cnt =>
          exact ⟨j, by rw [hpcj]; trivial, by simp [EchoServer.proceed, hpcj]⟩
        | printing fd m =>
          exact ⟨j, by rw [hpcj]; trivial, by simp [EchoServer.proceed, hpcj]⟩
        | unlocking fd m =>
          exact ⟨j, by rw [hpcj]; trivial, by simp [EchoServer.proceed, hpcj]⟩
        | _ =>
          rw [hpcj] at hj
          exact hj.elim
  | initSem connfd => exact hself (by simp [EchoServer.proceed, hcase])
  | initCnt connfd => exact hself (by simp [EchoServer.proceed, hcase])
  | loading connfd n => exact hself (by simp [EchoServer.proceed, hcase])
  | storing connfd n cnt => exact hself (by simp [EchoServer.proceed, hcase])
  | printing connfd n => exact hself (by simp [EchoServer.proceed, hcase])
  | unlocking connfd n => exact hself (by simp [EchoServer.proceed, hcase])

namespace Hosting

/-- A worker that has a descriptor is not stuck, or another one is not. -/
theorem exists_worker_step (h : Hosting items size nthreads s)
    (hfd : (s.workers.threads k).descriptor = some connfd) :
    ∃ j, j < nthreads ∧ s.stepWorker B j ≠ none := by
  have hlt : ∀ j, s.workers.threads j ≠ .removing → j < nthreads := fun j hj => by
    by_contra hle
    exact hj (h.idle j (Nat.le_of_not_lt hle))
  obtain ⟨c, x, hget, rfl, hserved⟩ := h.worker k connfd hfd
  have hx := h.client_eq hget (by simp [hserved])
  by_cases hown : OwnStep (s.workers.threads k)
  · obtain ⟨j, hj, hproceed⟩ := h.counter.exists_proceed hown
    refine ⟨j, hlt j ?_, ?_⟩
    · intro hpc
      rw [hpc] at hj
      exact hj.elim
    · rw [stepWorker_of_ownStep hj, ne_eq, Option.map_eq_none_iff]
      exact hproceed
  · refine ⟨k, hlt k ?_, ?_⟩
    · intro hpc
      rw [hpc] at hfd
      cases hfd
    · cases hpc : s.workers.threads k with
      | removing =>
        rw [hpc] at hfd
        cases hfd
      | reading fd =>
        rw [hpc] at hfd
        obtain rfl : fd = x.connfd := Option.some.inj hfd
        have hline : (firstLine x.unread).length < MAXLINE := length_firstLine_lt x.unread
        simp [stepWorker, hpc, withClient, hx, EchoServer.step, hline]
      | writing fd n =>
        rw [hpc] at hfd
        obtain rfl : fd = x.connfd := Option.some.inj hfd
        simp [stepWorker, hpc, withClient, hx, EchoServer.step, EchoServer.proceed]
      | closing fd =>
        rw [hpc] at hfd
        obtain rfl : fd = x.connfd := Option.some.inj hfd
        simp [stepWorker, hpc, withClient, hx, EchoServer.step, EchoServer.proceed]
      | _ =>
        rw [hpc] at hown
        exact absurd trivial hown

/-- **No deadlock.** When nothing is possible but `Accept`, nobody has a descriptor. -/
theorem idle_of_stuck (h : Hosting items size nthreads s) (hB : IsBounded B size items)
    (hthreads : 0 < nthreads) (hsize : 0 < size)
    (hstuck : Stuck (only Quiet (PreServer.step B nthreads)) s) :
    (∀ k, s.workers.threads k = .removing) ∧ s.main = none ∧ s.taken = s.inserted := by
  have hworker : ∀ k, k < nthreads → s.stepWorker B k = none := by
    intro k hk
    have hnone := stuck_only.mp hstuck (.worker k) trivial
    simpa [PreServer.step, h.sound, hk] using hnone
  have hall : ∀ k, s.workers.threads k = .removing := by
    intro k
    by_contra hbusy
    obtain ⟨connfd, hfd⟩ : ∃ connfd, (s.workers.threads k).descriptor = some connfd := by
      cases hcase : s.workers.threads k with
      | removing => exact absurd hcase hbusy
      | _ => exact ⟨_, rfl⟩
    obtain ⟨j, hj, hstep⟩ := h.exists_worker_step (B := B) hfd
    exact hstep (hworker j hj)
  have hempty : s.taken = s.inserted := by
    by_contra hne
    have hle := h.taken_le
    have hlength := h.length
    obtain ⟨fd, hget⟩ : ∃ fd, (s.clients.map EchoClient.connfd)[s.taken]? = some fd :=
      ⟨_, List.getElem?_eq_getElem (by rw [List.length_map]; omega)⟩
    have hitems := h.buffered
    have hdrop : (((s.clients.map EchoClient.connfd).take s.inserted).drop s.taken) =
        fd :: ((s.clients.map EchoClient.connfd).take s.inserted).drop (s.taken + 1) := by
      have hlt : s.taken < ((s.clients.map EchoClient.connfd).take s.inserted).length := by
        rw [List.length_take, List.length_map]
        omega
      rw [List.drop_eq_getElem_cons hlt, List.getElem_take]
      rw [(List.getElem?_eq_some_iff.mp hget).2]
    rw [hdrop] at hitems
    obtain ⟨sbuf, hremove, -⟩ := hB.remove _ _ _ hitems
    obtain ⟨x, hx, -⟩ := h.client_of_remove hB hremove
    have hnone := hworker 0 hthreads
    simp [stepWorker, hall 0, hremove, withClient, hx, EchoServer.step] at hnone
  refine ⟨hall, ?_, hempty⟩
  by_contra hmain
  obtain ⟨connfd, hmain⟩ := Option.ne_none_iff_exists'.mp hmain
  have hitems := h.buffered
  rw [hempty, List.drop_eq_nil_of_le (List.length_take_le _ _)] at hitems
  obtain ⟨sbuf, hinsert, -⟩ := hB.insert _ _ connfd hitems hsize
  obtain ⟨x, hx, -⟩ := h.client_of_main hmain
  have hnone := stuck_only.mp hstuck .insert trivial
  simp [PreServer.step, h.sound, PreServer.insert, hmain, hinsert, withClient, hx] at hnone

/-- When nobody has a descriptor, every connection is closed. -/
theorem closed_of_idle (h : Hosting items size nthreads s)
    (hall : ∀ k, s.workers.threads k = .removing) (hmain : s.main = none)
    (hempty : s.taken = s.inserted) (hx : s.clients[c]? = some x) :
    x.whereabouts = .closed ∧ x.echoed = x.sent ∧ x.unread = [] := by
  have hlt := (List.getElem?_eq_some_iff.mp hx).1
  have hlength := h.length
  rw [if_pos hmain] at hlength
  have hplaced := h.placed c x hx
  cases hw : x.whereabouts with
  | pending =>
    rw [hw] at hplaced
    have hle := hplaced.1
    omega
  | waiting =>
    rw [hw] at hplaced
    have hle := hplaced.1
    have hgt := hplaced.2.1
    omega
  | served k =>
    rw [hw] at hplaced
    have hdescriptor := hplaced.2.descriptor
    rw [hall k] at hdescriptor
    cases hdescriptor
  | closed =>
    rw [hw] at hplaced
    exact ⟨rfl, hplaced.2⟩

end Hosting

/-! ## The main theorem -/

/-- What a connection is known by. -/
def visit (x : EchoClient) : ℤ × Bytes := (x.connfd, x.sent)

/-- Only `Accept` makes connections. -/
theorem visits_step (h : Hosting items size nthreads s) (hB : IsBounded B size items)
    (he : PreServer.Effect B nthreads s a t) (hquiet : Quiet a) :
    t.clients.map visit = s.clients.map visit := by
  have hsame : ∀ (c : ℕ) (x y : EchoClient) (connfd : ℤ), s.client connfd = some (c, x) →
      visit y = visit x → (s.clients.set c y).map visit = s.clients.map visit :=
    fun c x y connfd hx hy => map_set_of_eq (h.connfd_of_client hx).1 hy
  cases he with
  | accept hmain hfree => exact hquiet.elim
  | insert hmain hinsert hx => exact hsame _ _ _ _ hx rfl
  | take hk hpc hremove hx => exact hsame _ _ _ _ hx rfl
  | line hk hpc hx hpos => exact hsame _ _ _ _ hx rfl
  | endOfFile hk hpc hx hend => exact hsame _ _ _ _ hx rfl
  | write hk hpc hx => exact hsame _ _ _ _ hx rfl
  | close hk hpc hx => exact hsame _ _ _ _ hx rfl
  | inside hk hpc hstep => rfl
  | stray hnone hused => exact absurd hnone (h.not_stray hB hused)

/-- At the end the counter has all bytes in it. -/
theorem Hosting.byteCnt (h : Hosting items size nthreads s) (htally : Tallied nthreads s)
    (hall : ∀ k, s.workers.threads k = .removing) (hread : ∀ x ∈ s.clients, x.unread = []) :
    s.workers.byteCnt = BitVec.ofNat 32 (load sentBytes s.clients) := by
  have hunread : load unreadBytes s.clients = 0 := load_eq_zero fun x hx => by
    rw [unreadBytes, hread x hx, List.length_nil]
  have hsum : load sentBytes s.clients = s.workers.added.sum := by
    unfold Tallied at htally
    rw [load_removing hall, hunread] at htally
    exact htally
  rw [hsum]
  obtain ⟨hw, hzero⟩ | hw := h.counter
  · rw [hzero, hw.nothing.1]
    rfl
  · exact hw.count

end GolangSandbox.Analysis
