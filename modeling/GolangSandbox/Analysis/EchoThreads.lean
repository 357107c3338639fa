import GolangSandbox.Model.Bookkeeping
import GolangSandbox.Program.EchoThreads

/-!
# Descriptors passed through the heap

The block that `main` allocates for its connection has the number of the thread it is going to
create, whatever its address was used for before. Until the thread frees it, its owner, first
`main`, then the thread, has its address, and every other owner has another one (`Linked`). So
the thread finds in it what `main` wrote, and the accesses to the block are, as far as they
have come, those of its life (`lifecycle`).

With this the descriptors are a matter of bookkeeping: a descriptor that was accepted is with
`main`, with one thread, or closed (`Kept`).
-/

set_option autoImplicit false

namespace GolangSandbox.Analysis

open GolangSandbox.Model GolangSandbox.Program GolangSandbox.Program.EchoThreads

variable {s t : EchoThreads} {heap heap' : Heap ℤ} {accepted accepted' : List ℤ} {n k : ℕ}

/-! ## The owners of the blocks -/

/-- What `main` knows of its block, which has the number of the next thread. -/
def MainLinked (heap : Heap ℤ) (accepted : List ℤ) (n : ℕ) : AcceptPc → Prop
  | .allocating => heap.next = n ∧ accepted.length = n
  | .accepting p => heap.next = n + 1 ∧ accepted.length = n ∧ heap.Points p n none
  | .storing p connfd => heap.next = n + 1 ∧ accepted.length = n + 1 ∧
      accepted[n]? = some connfd ∧ heap.Points p n none
  | .creating p => heap.next = n + 1 ∧ accepted.length = n + 1 ∧
      ∃ connfd, accepted[n]? = some connfd ∧ heap.Points p n (some connfd)
  | .undefined => False

/-- What the thread `k` knows of its block, as long as it has one, and of its descriptor. -/
def ThreadLinked (heap : Heap ℤ) (accepted : List ℤ) (k : ℕ) : ServePc → Prop
  | .reading p => ∃ connfd, accepted[k]? = some connfd ∧ heap.Points p k (some connfd)
  | .detaching p connfd | .freeing p connfd =>
      accepted[k]? = some connfd ∧ heap.Points p k (some connfd)
  | .echoing connfd | .closing connfd => accepted[k]? = some connfd
  | .returned => True

/-- Every block that is still in use is where its owner looks for it. -/
structure Linked (s : EchoThreads) : Prop where
  main : MainLinked s.heap s.accepted s.threads.length s.main
  thread : ∀ k pc, s.threads[k]? = some pc → ThreadLinked s.heap s.accepted k pc

/-- A thread keeps its block when the others keep off it. -/
theorem ThreadLinked.mono {pc : ServePc} (h : ThreadLinked heap accepted k pc)
    (hheap : ∀ p v, heap.Points p k v → heap'.Points p k v)
    (haccepted : ∀ fd, accepted[k]? = some fd → accepted'[k]? = some fd) :
    ThreadLinked heap' accepted' k pc := by
  cases pc with
  | reading p =>
    obtain ⟨connfd, hfd, hp⟩ := h
    exact ⟨connfd, haccepted connfd hfd, hheap p _ hp⟩
  | detaching p connfd => exact ⟨haccepted connfd h.1, hheap p _ h.2⟩
  | freeing p connfd => exact ⟨haccepted connfd h.1, hheap p _ h.2⟩
  | echoing connfd => exact haccepted connfd h
  | closing connfd => exact haccepted connfd h
  | returned => trivial

/-- `main` keeps its block when a thread frees another one. -/
theorem MainLinked.mono {pc : AcceptPc} (h : MainLinked heap accepted n pc)
    (hnext : heap'.next = heap.next)
    (hheap : ∀ p v, heap.Points p n v → heap'.Points p n v) :
    MainLinked heap' accepted n pc := by
  cases pc with
  | allocating => exact ⟨hnext.trans h.1, h.2⟩
  | accepting p => exact ⟨hnext.trans h.1, h.2.1, hheap p _ h.2.2⟩
  | storing p connfd => exact ⟨hnext.trans h.1, h.2.1, h.2.2.1, hheap p _ h.2.2.2⟩
  | creating p =>
    obtain ⟨hlast, hlength, connfd, hfd, hp⟩ := h
    exact ⟨hnext.trans hlast, hlength, connfd, hfd, hheap p _ hp⟩
  | undefined => exact h.elim

theorem linked_start : Linked start := ⟨⟨rfl, rfl⟩, nofun⟩

/-- The thread has a number below the one of the next thread. -/
theorem lt_length {pc : ServePc} (hk : s.threads[k]? = some pc) : k < s.threads.length :=
  (List.getElem?_eq_some_iff.mp hk).1

/-- A thread goes on. -/
theorem linked_goOn {pc : ServePc}
    (hmain : MainLinked s.heap s.accepted s.threads.length s.main)
    (hothers : ∀ j pc', j ≠ k → s.threads[j]? = some pc' → ThreadLinked s.heap s.accepted j pc')
    (hpc : ThreadLinked s.heap s.accepted k pc) : Linked (s.goOn k pc) where
  main := by
    show MainLinked s.heap s.accepted (s.threads.set k pc).length s.main
    rw [List.length_set]
    exact hmain
  thread := by
    intro j pc' hj
    have hj' : (s.threads.set k pc)[j]? = some pc' := hj
    rw [List.getElem?_set] at hj'
    split at hj'
    · rename_i hkj
      split at hj'
      · obtain rfl := Option.some.inj hj'
        exact hkj ▸ hpc
      · cases hj'
    · rename_i hkj
      exact hothers j pc' (Ne.symm hkj) hj'

/-- The steps of a process in which every owner finds its block, and every descriptor that is
to be closed is open. -/
inductive Proper (s : EchoThreads) : EchoThreads → Prop where
  | malloc {p : ℕ} (hmain : s.main = .allocating) (hp : s.heap.cells p = none) :
      Proper s { s with
        heap := s.heap.new p
        main := .accepting p
        accesses := s.accesses ++ [.malloc s.threads.length] }
  | accept {p : ℕ} {connfd : ℤ} (hmain : s.main = .accepting p)
      (hfd : connfd ∉ s.descriptors) :
      Proper s { s with
        descriptors := connfd :: s.descriptors
        main := .storing p connfd
        accepted := s.accepted ++ [connfd] }
  | store {p : ℕ} {connfd : ℤ} (hmain : s.main = .storing p connfd)
      (hp : s.heap.Points p s.threads.length none) :
      Proper s { s with
        heap := s.heap.put p s.threads.length connfd
        main := .creating p
        accesses := s.accesses ++ [.store s.threads.length connfd] }
  | create {p : ℕ} (hmain : s.main = .creating p) :
      Proper s { s with main := .allocating, threads := s.threads ++ [.reading p] }
  | read {k p : ℕ} {connfd : ℤ} (hk : s.threads[k]? = some (.reading p))
      (hp : s.heap.Points p k (some connfd)) (hfd : s.accepted[k]? = some connfd) :
      Proper s (({ s with
        accesses := s.accesses ++ [.read k k connfd] } : EchoThreads).goOn k
          (.detaching p connfd))
  | detach {k p : ℕ} {connfd : ℤ} (hk : s.threads[k]? = some (.detaching p connfd)) :
      Proper s (s.goOn k (.freeing p connfd))
  | free {k p : ℕ} {connfd : ℤ} (hk : s.threads[k]? = some (.freeing p connfd))
      (hp : s.heap.Points p k (some connfd)) (hfd : s.accepted[k]? = some connfd) :
      Proper s (({ s with
        heap := s.heap.drop p
        accesses := s.accesses ++ [.free k k] } : EchoThreads).goOn k (.echoing connfd))
  | echo {k : ℕ} {connfd : ℤ} (hk : s.threads[k]? = some (.echoing connfd)) :
      Proper s (({ s with echoed := s.echoed ++ [connfd] } : EchoThreads).goOn k
        (.closing connfd))
  | close {k : ℕ} {connfd : ℤ} (hk : s.threads[k]? = some (.closing connfd))
      (hfd : connfd ∈ s.descriptors) :
      Proper s (({ s with
        descriptors := s.descriptors.erase connfd
        closed := s.closed ++ [connfd] } : EchoThreads).goOn k .returned)

/-- **No access to the heap fails**, and each is to the block of its thread. -/
theorem Linked.proper (h : Linked s)
    (hopen : ∀ (k : ℕ) (fd : ℤ), s.threads[k]? = some (.closing fd) → fd ∈ s.descriptors)
    (ht : Effect s t) : Proper s t := by
  have hmainLinked := h.main
  cases ht with
  | malloc hmain hp =>
    rw [hmain] at hmainLinked
    rw [hmainLinked.1]
    exact .malloc hmain hp
  | accept hmain hfd => exact .accept hmain hfd
  | store hmain hstore =>
    rw [hmain] at hmainLinked
    obtain ⟨-, -, -, hp⟩ := hmainLinked
    obtain ⟨rfl, rfl⟩ := Prod.mk.inj (Option.some.inj (hp.store_eq.symm.trans hstore))
    exact .store hmain hp
  | storeFault hmain hstore =>
    rw [hmain] at hmainLinked
    obtain ⟨-, -, -, hp⟩ := hmainLinked
    cases hp.store_eq.symm.trans hstore
  | create hmain => exact .create hmain
  | read hk hload =>
    obtain ⟨connfd, hfd, hp⟩ := h.thread _ _ hk
    obtain ⟨rfl, rfl⟩ := Prod.mk.inj (Option.some.inj (hp.load_eq.symm.trans hload))
    exact .read hk hp hfd
  | readFault hk hload =>
    obtain ⟨connfd, hfd, hp⟩ := h.thread _ _ hk
    cases hp.load_eq.symm.trans hload
  | detach hk => exact .detach hk
  | free hk hfree =>
    obtain ⟨hfd, hp⟩ := h.thread _ _ hk
    obtain ⟨rfl, rfl⟩ := Prod.mk.inj (Option.some.inj (hp.free_eq.symm.trans hfree))
    exact .free hk hp hfd
  | freeFault hk hfree =>
    obtain ⟨hfd, hp⟩ := h.thread _ _ hk
    cases hp.free_eq.symm.trans hfree
  | echo hk => exact .echo hk
  | close hk hfd => exact .close hk hfd
  | closeFault hk hfd => exact absurd (hopen _ _ hk) hfd

/-- The step lemma of the owners. -/
theorem Linked.step (h : Linked s) (ht : Proper s t) : Linked t := by
  have hmainLinked := h.main
  cases ht with
  | @malloc p hmain hp =>
    rw [hmain] at hmainLinked
    obtain ⟨hnext, hlength⟩ := hmainLinked
    refine ⟨⟨congrArg (· + 1) hnext, hlength, ?_⟩, fun j pc hj => ?_⟩
    · show (s.heap.new p).Points p s.threads.length none
      rw [← hnext]
      exact Heap.points_new
    · exact (h.thread j pc hj).mono (fun q v hq => hq.malloc hp) fun _ => id
  | @accept p connfd hmain hfd =>
    rw [hmain] at hmainLinked
    obtain ⟨hnext, hlength, hp⟩ := hmainLinked
    refine ⟨⟨hnext, ?_, ?_, hp⟩, fun j pc hj => ?_⟩
    · rw [List.length_append, hlength, List.length_singleton]
    · show (s.accepted ++ [connfd])[s.threads.length]? = some connfd
      rw [← hlength, List.getElem?_concat_length]
    · refine (h.thread j pc hj).mono (fun q v => id) fun fd hj => ?_
      rw [List.getElem?_append_left (List.getElem?_eq_some_iff.mp hj).1]
      exact hj
  | @store p connfd hmain hp =>
    rw [hmain] at hmainLinked
    obtain ⟨hnext, hlength, hlast, -⟩ := hmainLinked
    refine ⟨⟨hnext, hlength, connfd, hlast, Heap.points_put⟩, fun j pc hj => ?_⟩
    exact (h.thread j pc hj).mono (fun q v hq => hq.put hp (Nat.ne_of_lt (lt_length hj)))
      fun _ => id
  | @create p hmain =>
    rw [hmain] at hmainLinked
    obtain ⟨hnext, hlength, connfd, hfd, hp⟩ := hmainLinked
    constructor
    · show s.heap.next = (s.threads ++ [ServePc.reading p]).length ∧
        s.accepted.length = (s.threads ++ [ServePc.reading p]).length
      rw [List.length_append, List.length_singleton]
      exact ⟨hnext, hlength⟩
    · intro j pc hj
      obtain hj | ⟨rfl, rfl⟩ := getElem?_concat_eq_some.mp hj
      · exact h.thread j pc hj
      · exact ⟨connfd, hfd, hp⟩
  | read hk hp hfd => exact linked_goOn h.main (fun j pc _ => h.thread j pc) ⟨hfd, hp⟩
  | detach hk =>
    have hown := h.thread _ _ hk
    exact linked_goOn h.main (fun j pc _ => h.thread j pc) hown
  | @free k p connfd hk hp hfd =>
    refine linked_goOn ?_ (fun j pc hj hjpc => ?_) hfd
    · exact h.main.mono rfl fun q v hq => hq.drop hp (Nat.ne_of_gt (lt_length hk))
    · exact (h.thread j pc hjpc).mono (fun q v hq => hq.drop hp hj) fun _ => id
  | echo hk =>
    have hown := h.thread _ _ hk
    exact linked_goOn h.main (fun j pc _ => h.thread j pc) hown
  | close hk hfd => exact linked_goOn h.main (fun j pc _ => h.thread j pc) trivial

/-! ## The accesses to a block -/

/-- The accesses to the block `i`: by `main`, which writes `connfd`, and by the thread `i`. -/
def lifecycle (i : ℕ) (connfd : ℤ) : List Access :=
  [.malloc i, .store i connfd, .read i i connfd, .free i i]

/-- The accesses so far to the block of a thread. -/
def progress : ServePc → ℕ
  | .reading _ => 2
  | .detaching .. | .freeing .. => 3
  | .echoing _ | .closing _ | .returned => 4

/-- The accesses so far to the block of the next thread. -/
def mainProgress : AcceptPc → ℕ
  | .accepting _ | .storing .. => 1
  | .creating _ => 2
  | .allocating | .undefined => 0

/-- The accesses so far to the block `i`. -/
def stage (threads : List ServePc) (main : AcceptPc) (i : ℕ) : ℕ :=
  match threads[i]? with
  | some pc => progress pc
  | none => if i = threads.length then mainProgress main else 0

/-- The accesses to a block are its life as far as it has come. -/
def Recorded (s : EchoThreads) : Prop :=
  ∀ i, s.accesses.filter (·.number = i) =
    (lifecycle i (s.accepted.getD i 0)).take (stage s.threads s.main i)

section Stage

variable {threads : List ServePc} {main main' : AcceptPc} {pc pc' : ServePc} {i : ℕ}

theorem stage_of_thread (hk : threads[i]? = some pc) : stage threads main i = progress pc := by
  rw [stage, hk]

theorem stage_next : stage threads main threads.length = mainProgress main := by
  rw [stage, List.getElem?_eq_none (Nat.le_refl _)]
  exact if_pos rfl

/-- What `main` does matters to its own block only. -/
theorem stage_main (hi : i ≠ threads.length) : stage threads main' i = stage threads main i := by
  unfold stage
  cases threads[i]? with
  | some pc => rfl
  | none => rw [if_neg hi, if_neg hi]

theorem stage_beyond (hi : threads.length < i) : stage threads main i = 0 := by
  rw [stage, List.getElem?_eq_none (Nat.le_of_lt hi)]
  exact if_neg (Nat.ne_of_gt hi)

theorem stage_allocating (hi : threads.length ≤ i) : stage threads .allocating i = 0 := by
  rw [stage, List.getElem?_eq_none hi]
  exact ite_self 0

/-- What a thread does matters to its own block only. -/
theorem stage_set (hi : i ≠ k) : stage (threads.set k pc') main i = stage threads main i := by
  rw [stage, stage, List.getElem?_set_ne (Ne.symm hi), List.length_set]

theorem stage_set_self (hk : threads[k]? = some pc) :
    stage (threads.set k pc') main k = progress pc' := by
  rw [stage, List.getElem?_set_self (List.getElem?_eq_some_iff.mp hk).1]

end Stage

/-- One more access, which is the next one of its block. -/
theorem filter_concat {accesses : List Access} {life : ℕ → List Access} {st st' : ℕ → ℕ}
    {a : Access} (h : ∀ i, accesses.filter (·.number = i) = (life i).take (st i))
    (ha : (life a.number)[st a.number]? = some a) (hothers : ∀ i ≠ a.number, st' i = st i)
    (hnext : st' a.number = st a.number + 1) (i : ℕ) :
    (accesses ++ [a]).filter (·.number = i) = (life i).take (st' i) := by
  rw [List.filter_append, h]
  by_cases hi : a.number = i
  · subst hi
    rw [hnext, List.take_add_one, ha]
    simp
  · rw [hothers i (Ne.symm hi)]
    simp [hi]

/-- Nobody makes an access. -/
theorem Recorded.silent (h : Recorded s) {threads : List ServePc} {main : AcceptPc}
    (hstage : ∀ i, stage threads main i = stage s.threads s.main i) (i : ℕ) :
    s.accesses.filter (·.number = i) =
      (lifecycle i (s.accepted.getD i 0)).take (stage threads main i) := by
  rw [hstage i]
  exact h i

/-- A thread goes on without an access. -/
theorem stage_set_same {pc pc' : ServePc} (hk : s.threads[k]? = some pc)
    (hpc : progress pc' = progress pc) (i : ℕ) :
    stage (s.threads.set k pc') s.main i = stage s.threads s.main i := by
  by_cases hi : i = k
  · rw [hi, stage_set_self hk, stage_of_thread hk, hpc]
  · exact stage_set hi

/-- A thread goes on with an access to its block. -/
theorem Recorded.access (h : Recorded s) {pc pc' : ServePc} {a : Access} {connfd : ℤ}
    (hk : s.threads[k]? = some pc) (hnumber : a.number = k)
    (hfd : s.accepted[k]? = some connfd) (ha : (lifecycle k connfd)[progress pc]? = some a)
    (hpc : progress pc' = progress pc + 1) (i : ℕ) :
    (s.accesses ++ [a]).filter (·.number = i) =
      (lifecycle i (s.accepted.getD i 0)).take (stage (s.threads.set k pc') s.main i) := by
  subst hnumber
  refine filter_concat h ?_ (fun j hj => stage_set hj) ?_ i
  · rw [stage_of_thread hk, List.getD_eq_getElem?_getD, hfd]
    exact ha
  · rw [stage_set_self hk, stage_of_thread hk, hpc]

theorem Recorded.step (h : Recorded s) (hlinked : Linked s) (ht : Proper s t) : Recorded t := by
  have hmainLinked := hlinked.main
  cases ht with
  | @malloc p hmain hp =>
    refine filter_concat h ?_ (fun i hi => stage_main hi) ?_
    · show (lifecycle s.threads.length _)[stage s.threads s.main s.threads.length]? = _
      rw [stage_next, hmain]
      rfl
    · show stage s.threads _ s.threads.length = stage s.threads s.main s.threads.length + 1
      rw [stage_next, stage_next, hmain]
      rfl
  | @accept p connfd hmain hfd =>
    rw [hmain] at hmainLinked
    obtain ⟨-, hlength, -⟩ := hmainLinked
    intro i
    show s.accesses.filter (·.number = i) =
      (lifecycle i ((s.accepted ++ [connfd]).getD i 0)).take
        (stage s.threads (.storing p connfd) i)
    obtain hlt | rfl | hgt := Nat.lt_trichotomy i s.threads.length
    · have hsame : (s.accepted ++ [connfd])[i]? = s.accepted[i]? :=
        List.getElem?_append_left (by omega)
      rw [stage_main (Nat.ne_of_lt hlt), h i, List.getD_eq_getElem?_getD,
        List.getD_eq_getElem?_getD, hsame]
    · rw [h, stage_next, stage_next, hmain]
      rfl
    · rw [h i, stage_beyond hgt, stage_beyond hgt, List.take_zero, List.take_zero]
  | @store p connfd hmain hp =>
    rw [hmain] at hmainLinked
    obtain ⟨-, -, hlast, -⟩ := hmainLinked
    refine filter_concat h ?_ (fun i hi => stage_main hi) ?_
    · show (lifecycle s.threads.length (s.accepted.getD s.threads.length 0))[stage s.threads
        s.main s.threads.length]? = _
      rw [stage_next, hmain, List.getD_eq_getElem?_getD, hlast]
      rfl
    · show stage s.threads _ s.threads.length = stage s.threads s.main s.threads.length + 1
      rw [stage_next, stage_next, hmain]
      rfl
  | @create p hmain =>
    refine h.silent fun i => ?_
    obtain hlt | rfl | hgt := Nat.lt_trichotomy i s.threads.length
    · rw [stage, stage, List.getElem?_append_left hlt, List.getElem?_eq_getElem hlt]
    · rw [stage_next, hmain, stage_of_thread List.getElem?_concat_length]
      rfl
    · rw [stage_beyond hgt]
      apply stage_allocating
      rw [List.length_append, List.length_singleton]
      exact hgt
  | read hk hp hfd => exact h.access hk rfl hfd rfl rfl
  | detach hk => exact h.silent (stage_set_same hk rfl)
  | free hk hp hfd => exact h.access hk rfl hfd rfl rfl
  | echo hk => exact h.silent (stage_set_same hk rfl)
  | close hk hfd => exact h.silent (stage_set_same hk rfl)

/-! ## The descriptors -/

/-- The descriptor that a thread is to close, in its block as long as it has not read it. -/
def holds (heap : Heap ℤ) : ServePc → List ℤ
  | .reading p => ((heap.cells p).bind (·.value)).toList
  | .detaching _ connfd | .freeing _ connfd | .echoing connfd | .closing connfd => [connfd]
  | .returned => []

/-- The descriptor for which no thread is started yet. -/
def pending (heap : Heap ℤ) : AcceptPc → List ℤ
  | .storing _ connfd => [connfd]
  | .creating p => ((heap.cells p).bind (·.value)).toList
  | .allocating | .accepting _ | .undefined => []

/-- The descriptors of the pending thread and of the started ones. -/
def inHand (s : EchoThreads) : List ℤ := pending s.heap s.main ++ s.threads.flatMap (holds s.heap)

/-- The descriptor that a thread has echoed on and not closed. -/
def atClose : ServePc → List ℤ
  | .closing connfd => [connfd]
  | _ => []

/-- Where the descriptors are that were accepted. -/
structure Booked (s : EchoThreads) : Prop where
  accepted : s.accepted.Perm (s.closed ++ inHand s)
  echoed : s.echoed.Perm (s.closed ++ s.threads.flatMap atClose)
  opened : s.descriptors.Perm (inHand s)
  distinct : s.descriptors.Nodup

theorem holds_reading {p : ℕ} {connfd : ℤ} (hp : heap.Points p n (some connfd)) :
    holds heap (.reading p) = [connfd] := by
  rw [holds, hp]
  rfl

theorem pending_creating {p : ℕ} {connfd : ℤ} (hp : heap.Points p n (some connfd)) :
    pending heap (.creating p) = [connfd] := by
  rw [pending, hp]
  rfl

/-- The threads hold what they held when their blocks are left alone. -/
theorem flatMap_holds_congr (h : Linked s)
    (hheap : ∀ j q v, s.threads[j]? = some (.reading q) → s.heap.Points q j v →
      heap'.Points q j v) :
    s.threads.flatMap (holds heap') = s.threads.flatMap (holds s.heap) := by
  apply List.flatMap_congr
  intro pc hpc
  obtain ⟨j, hj⟩ := List.getElem?_of_mem hpc
  cases pc with
  | reading q =>
    obtain ⟨connfd, -, hq⟩ := h.thread j _ hj
    rw [holds_reading hq, holds_reading (hheap j q _ hj hq)]
  | _ => rfl

/-- A thread that goes to close has its descriptor open. -/
theorem Booked.mem_descriptors (h : Booked s) {pc : ServePc} {connfd : ℤ}
    (hk : s.threads[k]? = some pc) (hpc : connfd ∈ holds s.heap pc) :
    connfd ∈ s.descriptors := by
  rw [h.opened.mem_iff, inHand, List.mem_append]
  exact .inr (List.mem_flatMap.mpr ⟨pc, List.mem_of_getElem? hk, hpc⟩)

/-- `main` holds what it held when its block is left alone. -/
theorem pending_congr (h : Linked s)
    (hheap : ∀ q v, s.heap.Points q s.threads.length v → heap'.Points q s.threads.length v) :
    pending heap' s.main = pending s.heap s.main := by
  have hmainLinked := h.main
  cases hmain : s.main with
  | creating q =>
    rw [hmain] at hmainLinked
    obtain ⟨-, -, connfd, -, hq⟩ := hmainLinked
    rw [pending_creating hq, pending_creating (hheap q _ hq)]
  | _ => rfl

/-- The descriptors go from hand to hand, and nothing else happens to them. -/
theorem Booked.same (h : Booked s) (hheld : (inHand s).Perm (inHand t))
    (hecho : t.threads.flatMap atClose = s.threads.flatMap atClose)
    (hdescriptors : t.descriptors = s.descriptors)
    (hhistory : t.accepted = s.accepted ∧ t.echoed = s.echoed ∧ t.closed = s.closed) :
    Booked t := by
  obtain ⟨haccepted, hechoed, hclosed⟩ := hhistory
  constructor
  · rw [haccepted, hclosed]
    exact h.accepted.trans (hheld.append_left _)
  · rw [hechoed, hclosed, hecho]
    exact h.echoed
  · rw [hdescriptors]
    exact h.opened.trans hheld
  · rw [hdescriptors]
    exact h.distinct

/-- A thread keeps its descriptor. -/
theorem held_goOn {pc : ServePc} (hk : s.threads[k]? = some pc) (pc' : ServePc)
    (hpc : holds s.heap pc' = holds s.heap pc) :
    (inHand s).Perm (pending s.heap s.main ++ (s.threads.set k pc').flatMap (holds s.heap)) := by
  rw [flatMap_set_eq (holds s.heap) hk hpc]
  exact List.Perm.refl _

theorem booked_start : Booked start :=
  ⟨List.Perm.refl _, List.Perm.refl _, List.Perm.refl _, List.nodup_nil⟩

theorem Booked.step (h : Booked s) (hlinked : Linked s) (ht : Proper s t) : Booked t := by
  have hmainLinked := hlinked.main
  cases ht with
  | @malloc p hmain hp =>
    refine h.same (List.Perm.of_eq ?_) rfl rfl ⟨rfl, rfl, rfl⟩
    rw [inHand, inHand, hmain]
    exact congrArg _ (flatMap_holds_congr hlinked fun j q v _ hq => hq.malloc hp).symm
  | @accept p connfd hmain hfd =>
    have haccepted := h.accepted
    have hopened := h.opened
    rw [inHand, hmain] at haccepted hopened
    refine ⟨?_, h.echoed, hopened.cons connfd, List.nodup_cons.mpr ⟨hfd, h.distinct⟩⟩
    have hinsert := perm_insert haccepted connfd
    rw [List.append_assoc] at hinsert
    exact hinsert
  | @store p connfd hmain hp =>
    refine h.same (List.Perm.of_eq ?_) rfl rfl ⟨rfl, rfl, rfl⟩
    rw [inHand, inHand, hmain]
    refine (congrArg₂ _ (pending_creating Heap.points_put) (flatMap_holds_congr hlinked ?_)).symm
    intro j q v hj hq
    exact hq.put hp (Nat.ne_of_lt (lt_length hj))
  | @create p hmain =>
    rw [hmain] at hmainLinked
    obtain ⟨-, -, connfd, -, hp⟩ := hmainLinked
    have hheld : (inHand s).Perm ((s.threads ++ [ServePc.reading p]).flatMap (holds s.heap)) := by
      rw [inHand, hmain, pending_creating hp, List.flatMap_append, List.flatMap_singleton,
        holds_reading hp]
      exact List.perm_append_comm
    refine h.same hheld ?_ rfl ⟨rfl, rfl, rfl⟩
    show (s.threads ++ [ServePc.reading p]).flatMap atClose = _
    rw [List.flatMap_append]
    exact List.append_nil _
  | @read k p connfd hk hp hfd =>
    exact h.same (held_goOn hk _ (holds_reading hp).symm) (flatMap_set_eq _ hk rfl) rfl
      ⟨rfl, rfl, rfl⟩
  | @detach k p connfd hk =>
    exact h.same (held_goOn hk _ rfl) (flatMap_set_eq _ hk rfl) rfl ⟨rfl, rfl, rfl⟩
  | @free k p connfd hk hp hfd =>
    refine h.same (List.Perm.of_eq ?_) (flatMap_set_eq _ hk rfl) rfl ⟨rfl, rfl, rfl⟩
    show inHand s = pending (s.heap.drop p) s.main ++
      (s.threads.set k (.echoing connfd)).flatMap (holds (s.heap.drop p))
    rw [flatMap_set_eq (y := .echoing connfd) (holds (s.heap.drop p)) hk rfl,
      pending_congr hlinked fun q v hq => hq.drop hp (Nat.ne_of_gt (lt_length hk)),
      flatMap_holds_congr hlinked fun j q v hj hq => hq.drop hp ?_]
    · rfl
    · rintro rfl
      cases hk.symm.trans hj
  | @echo k connfd hk =>
    have hclose := flatMap_set_perm (y := .closing connfd) atClose hk
    have hheld := held_goOn hk (.closing connfd) rfl
    refine ⟨h.accepted.trans (hheld.append_left _), ?_, h.opened.trans hheld, h.distinct⟩
    show (s.echoed ++ [connfd]).Perm
      (s.closed ++ (s.threads.set k (.closing connfd)).flatMap atClose)
    refine (h.echoed.append_right [connfd]).trans ?_
    rw [List.append_assoc]
    refine List.Perm.append_left _ (hclose.symm.trans (List.Perm.of_eq ?_))
    exact List.append_nil _
  | @close k connfd hk hfd =>
    have hclose := flatMap_set_perm (y := .returned) atClose hk
    have hset := flatMap_set_perm (y := .returned) (holds s.heap) hk
    simp only [atClose, List.append_nil] at hclose
    simp only [holds, List.append_nil] at hset
    have hheld : (inHand s).Perm (connfd :: (pending s.heap s.main ++
        (s.threads.set k .returned).flatMap (holds s.heap))) := by
      refine (hset.symm.append_left _).trans ?_
      rw [← List.append_assoc]
      exact List.perm_append_singleton _ _
    refine ⟨?_, ?_, ?_, h.distinct.erase connfd⟩
    · show s.accepted.Perm (s.closed ++ [connfd] ++ _)
      rw [List.append_assoc]
      exact h.accepted.trans (hheld.append_left _)
    · show s.echoed.Perm (s.closed ++ [connfd] ++ (s.threads.set k .returned).flatMap atClose)
      rw [List.append_assoc]
      refine h.echoed.trans (List.Perm.append_left _ (hclose.symm.trans ?_))
      exact List.perm_append_comm
    · have herase := (h.opened.trans hheld).erase connfd
      rw [List.erase_cons_head] at herase
      exact herase

/-! ## The main theorem -/

theorem invariant_of_run {as : List EchoThreads.Action}
    (h : run EchoThreads.step start as = some s) : Linked s ∧ Recorded s ∧ Booked s := by
  refine run_invariant (I := fun s => Linked s ∧ Recorded s ∧ Booked s)
    ⟨linked_start, fun i => ?_, booked_start⟩ ?_ h
  · rw [show stage start.threads start.main i = 0 from stage_allocating (Nat.zero_le i)]
    rfl
  · rintro t a u ⟨hlinked, hrecorded, hbooked⟩ hu
    have hproper : Proper t u := hlinked.proper
      (fun k fd hk => hbooked.mem_descriptors hk (List.mem_singleton_self fd)) (effect_of_step hu)
    exact ⟨hlinked.step hproper, hrecorded.step hlinked hproper, hbooked.step hlinked hproper⟩

/-- The thread has freed its block. -/
def HasFreed : ServePc → Prop
  | .echoing _ | .closing _ | .returned => True
  | _ => False

/-- Every descriptor is passed to a thread of its own, and the block it is passed in is read and
freed once. -/
structure HandedOver (s : EchoThreads) : Prop where
  /-- No access to the heap and no `Close` is undefined. -/
  defined : s.main ≠ .undefined
  /-- The accesses to a block are, as far as they have come: allocated, written by `main`, read
  by its thread, which sees the same descriptor, and freed. -/
  accesses : ∀ i connfd, s.accepted[i]? = some connfd →
    s.accesses.filter (·.number = i) <+: lifecycle i connfd
  unaccepted : ∀ i, s.accepted[i]? = none → s.accesses.filter (·.number = i) <+: [.malloc i]
  /-- A thread that is past `Free` has freed its block. -/
  freed : ∀ i pc, s.threads[i]? = some pc → HasFreed pc →
    ∃ connfd, s.accepted[i]? = some connfd ∧
      s.accesses.filter (·.number = i) = lifecycle i connfd
  /-- The descriptors accepted are the closed ones and those of pending and started threads. -/
  conserved : s.accepted.Perm (s.closed ++ inHand s)
  /-- A descriptor is closed after it was echoed on. -/
  echoed : s.echoed.Perm (s.closed ++ s.threads.flatMap atClose)
  /-- The open descriptors, all different, are those of pending and started threads. -/
  opened : s.descriptors.Perm (inHand s) ∧ s.descriptors.Nodup

/-- There is a descriptor for every thread, and one more for `main` once it has got so far as to
write it. -/
theorem Linked.length_le (h : Linked s) : s.threads.length ≤ s.accepted.length ∧
    (s.accepted.length = s.threads.length → mainProgress s.main ≤ 1) := by
  have hmainLinked := h.main
  cases hmain : s.main with
  | allocating =>
    rw [hmain] at hmainLinked
    exact ⟨Nat.le_of_eq hmainLinked.2.symm, fun _ => Nat.zero_le 1⟩
  | accepting p =>
    rw [hmain] at hmainLinked
    exact ⟨Nat.le_of_eq hmainLinked.2.1.symm, fun _ => Nat.le_refl 1⟩
  | storing p connfd =>
    rw [hmain] at hmainLinked
    have hlength := hmainLinked.2.1
    exact ⟨by omega, by omega⟩
  | creating p =>
    rw [hmain] at hmainLinked
    have hlength := hmainLinked.2.1
    exact ⟨by omega, by omega⟩
  | undefined =>
    rw [hmain] at hmainLinked
    exact hmainLinked.elim

/-- **Each accepted descriptor is served and closed exactly once**, whatever addresses the
blocks get and however `main` and the threads interleave.
SOURCE: csapp/echo/echo5.c:25-45, 56-69 -/
theorem descriptors_served_once (as : List EchoThreads.Action) (s : EchoThreads)
    (h : run EchoThreads.step start as = some s) : HandedOver s := by
  obtain ⟨hlinked, hrecorded, hbooked⟩ := invariant_of_run h
  obtain ⟨hlength, hlast⟩ := hlinked.length_le
  refine ⟨?_, ?_, ?_, ?_, hbooked.accepted, hbooked.echoed, hbooked.opened, hbooked.distinct⟩
  · intro hmain
    have hmainLinked := hlinked.main
    rw [hmain] at hmainLinked
    exact hmainLinked
  · intro i connfd hfd
    rw [hrecorded i, List.getD_eq_getElem?_getD, hfd]
    exact List.take_prefix _ _
  · intro i hnone
    rw [List.getElem?_eq_none_iff] at hnone
    have hstage : stage s.threads s.main i ≤ 1 := by
      obtain rfl | hgt := Nat.eq_or_lt_of_le (Nat.le_trans hlength hnone)
      · rw [stage_next]
        exact hlast (Nat.le_antisymm hnone hlength)
      · rw [stage_beyond hgt]
        exact Nat.zero_le 1
    have htake : [Access.malloc i] = (lifecycle i (s.accepted.getD i 0)).take 1 := rfl
    rw [hrecorded i, htake]
    exact List.take_prefix_take_left hstage
  · intro i pc hi hfreed
    have hlt : i < s.accepted.length := Nat.lt_of_lt_of_le (lt_length hi) hlength
    refine ⟨s.accepted[i], List.getElem?_eq_getElem hlt, ?_⟩
    have hstage : progress pc = 4 := by
      cases pc with
      | echoing _ => rfl
      | closing _ => rfl
      | returned => rfl
      | _ => exact hfreed.elim
    rw [hrecorded i, stage_of_thread hi, hstage, List.getD_eq_getElem?_getD,
      List.getElem?_eq_getElem hlt]
    rfl

/-- The second block gets the address of the first one, and the first thread is the last to
close. -/
def reuse : List EchoThreads.Action :=
  [.malloc 9, .accept 4, .main, .main, .thread 0, .thread 0, .thread 0, .malloc 9, .accept 5, .main,
    .main, .thread 1, .thread 1, .thread 1, .thread 1, .thread 1, .thread 0, .thread 0]

theorem descriptors_served_once_reuse :
    ∃ s, run EchoThreads.step start reuse = some s ∧ s.accepted = [4, 5] ∧ s.closed = [5, 4] ∧
      HandedOver s := by
  refine ⟨_, rfl, rfl, rfl, ?_⟩
  exact descriptors_served_once reuse _ rfl

end GolangSandbox.Analysis
