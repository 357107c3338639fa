import GolangSandbox.Model.Mutex
import GolangSandbox.Program.EchoCount
import Mathlib.Algebra.BigOperators.Group.List.Basic
import Mathlib.Algebra.GroupWithZero.Nat

/-!
# The byte count of the worker threads

Two exclusions carry the proof. Only one thread runs `init_echo_cnt`, and only as long as
nobody has come further (`Started`); after it, only one thread is between `P` and `V`
(`EchoInv.guarded`). So nobody changes `byte_cnt` between the read and the write of
`byte_cnt += n`, or between the write and `printf`, and the totals printed are the partial sums
of what was added, as 32-bit numbers (`entries`).

Such a number is the sum as long as the sum is below 2^31, and it never is beyond.
-/

set_option autoImplicit false

namespace GolangSandbox.Analysis

open GolangSandbox.Model GolangSandbox.Program GolangSandbox.Program.EchoServer

variable {s t : EchoServer} {k : ℕ} {pc : EchoPc}

/-! ## Partial sums -/

/-- The numbers added to a counter, each with the counter after it. -/
def entries (sum : ℕ) : List ℕ → List (ℕ × BitVec 32)
  | [] => []
  | n :: ns => (n, BitVec.ofNat 32 (sum + n)) :: entries (sum + n) ns

theorem entries_concat (sum : ℕ) (ns : List ℕ) (n : ℕ) :
    entries sum (ns ++ [n]) = entries sum ns ++ [(n, BitVec.ofNat 32 (sum + (ns ++ [n]).sum))] := by
  induction ns generalizing sum with
  | nil => simp [entries]
  | cons m ns ih => simp only [List.cons_append, entries, ih, List.sum_cons, Nat.add_assoc]

theorem entries_getElem {sum : ℕ} {ns : List ℕ} {i : ℕ} {e : ℕ × BitVec 32}
    (h : (entries sum ns)[i]? = some e) :
    ns[i]? = some e.1 ∧ e.2 = BitVec.ofNat 32 (sum + (ns.take (i + 1)).sum) := by
  induction ns generalizing sum i with
  | nil => cases h
  | cons n ns ih =>
    cases i with
    | zero =>
      obtain rfl := Option.some.inj h
      exact ⟨rfl, by simp⟩
    | succ i =>
      obtain ⟨hn, htotal⟩ := ih h
      refine ⟨hn, ?_⟩
      rw [htotal, List.take_succ_cons, List.sum_cons, Nat.add_assoc]

theorem map_fst_entries (sum : ℕ) (ns : List ℕ) : (entries sum ns).map Prod.fst = ns := by
  induction ns generalizing sum with
  | nil => rfl
  | cons n ns ih => rw [entries, List.map_cons, ih]

/-! ## Where a thread is -/

/-- The thread is between `P` and `V`. -/
def InSection : EchoPc → Prop
  | .loading .. | .storing .. | .printing .. | .unlocking .. => True
  | _ => False

/-- The thread is in `init_echo_cnt`. -/
def Initialising : EchoPc → Prop
  | .initSem _ | .initCnt _ => True
  | _ => False

/-- The thread is not past `Pthread_once`. -/
def Early : EchoPc → Prop
  | .removing | .once _ | .initSem _ | .initCnt _ => True
  | _ => False

/-- The thread has nothing to do with the counter. -/
def AtRest : EchoPc → Prop
  | .removing | .once _ | .reading _ | .closing _ => True
  | _ => False

/-- The line that the thread has not written back. -/
def heldLine : EchoPc → Option ℕ
  | .locking _ n | .loading _ n | .storing _ n _ | .printing _ n | .unlocking _ n
  | .writing _ n => some n
  | _ => none

theorem Early.atRest (h : Early pc) (hout : ¬ Initialising pc) : AtRest pc := by
  cases pc with
  | removing => trivial
  | once _ => trivial
  | initSem _ => exact hout trivial
  | initCnt _ => exact hout trivial
  | _ => exact h.elim

theorem AtRest.elsewhere (h : AtRest pc) :
    ¬ Initialising pc ∧ ¬ InSection pc ∧ heldLine pc = none := by
  cases pc with
  | removing => exact ⟨id, id, rfl⟩
  | once _ => exact ⟨id, id, rfl⟩
  | reading _ => exact ⟨id, id, rfl⟩
  | closing _ => exact ⟨id, id, rfl⟩
  | _ => exact h.elim

/-- What the lines of output say of the count. -/
def counted (printed : List Printed) : List (ℕ × BitVec 32) :=
  printed.map fun p => (p.n, p.total)

/-- Before the counter is initialised: at most one thread is in the routine, and nobody is
past it. -/
structure Starting (s : EchoServer) : Prop where
  once : s.once ≠ .done
  alone : Exclusive Initialising (if s.once = .running then 0 else 1) s.threads
  early : ∀ k, Early (s.threads k)
  nothing : s.added = [] ∧ s.printed = []
  notStarted : s.once = .notStarted → s.inits = 0
  initSem : ∀ k connfd, s.threads k = .initSem connfd → s.inits = 0
  initCnt : ∀ k connfd, s.threads k = .initCnt connfd → s.inits = 1 ∧ s.mutex = 1

/-- After that: the thread between `P` and `V` is alone, it has the value of `byte_cnt` when it
is in front of the write, and the lines of output are the entries so far, but for the one it
is going to print. -/
structure Counting (s : EchoServer) : Prop where
  once : s.once = .done
  inits : s.inits = 1
  past : ∀ k, ¬ Initialising (s.threads k)
  guarded : Exclusive InSection s.mutex s.threads
  count : s.byteCnt = BitVec.ofNat 32 s.added.sum
  storing : ∀ k connfd n cnt, s.threads k = .storing connfd n cnt → cnt = s.byteCnt
  printing : ∀ k connfd n, s.threads k = .printing connfd n →
    ∃ ns, s.added = ns ++ [n] ∧ counted s.printed = entries 0 ns
  printed : (∀ k connfd n, s.threads k ≠ .printing connfd n) →
    counted s.printed = entries 0 s.added
  positive : ∀ k n, heldLine (s.threads k) = some n → 0 < n
  addedPos : ∀ n ∈ s.added, 0 < n

/-! ## The initialisation -/

theorem starting_start : Starting start where
  once := nofun
  alone := .of_free fun _ h => h
  early := fun _ => trivial
  nothing := ⟨rfl, rfl⟩
  notStarted := fun _ => rfl
  initSem := nofun
  initCnt := nofun

/-- While the counter is not initialised no thread is past `Pthread_once`. -/
theorem Starting.not_late (h : Starting s) (hk : s.threads k = pc) (hlate : ¬ Early pc) :
    False := hlate (hk ▸ h.early k)

/-- The thread that leaves the routine has initialised the counter, and all threads are at
rest. -/
theorem Starting.initialised (h : Starting s) {connfd : ℤ}
    (hk : s.threads k = .initCnt connfd) :
    Counting (({ s with byteCnt := 0, once := .done } : EchoServer).goOn k
      (.reading connfd)) := by
  obtain ⟨hinits, hmutex⟩ := h.initCnt k connfd hk
  obtain ⟨hadded, hprinted⟩ := h.nothing
  have hin : Initialising (s.threads k) := by
    rw [hk]
    trivial
  have hrest : ∀ j, AtRest (Function.update s.threads k (.reading connfd) j) := by
    intro j
    by_cases hj : j = k
    · rw [hj, Function.update_self]
      trivial
    · rw [Function.update_of_ne hj]
      have hearly := h.early j
      have hout := h.alone.outside hin hj
      exact hearly.atRest hout
  have hnot : ∀ j pc, Function.update s.threads k (.reading connfd) j = pc → ¬ AtRest pc →
      False := fun j pc hj hpc => hpc (hj ▸ hrest j)
  refine ⟨rfl, hinits, ?_, ?_, ?_, ?_, ?_, ?_, ?_, ?_⟩
  · exact fun j => (hrest j).elsewhere.1
  · show Exclusive InSection s.mutex _
    rw [hmutex]
    exact .of_free fun j => (hrest j).elsewhere.2.1
  · show (0 : BitVec 32) = BitVec.ofNat 32 s.added.sum
    rw [hadded]
    rfl
  · intro j fd n cnt hj
    exact (hnot j _ hj id).elim
  · intro j fd n hj
    exact (hnot j _ hj id).elim
  · intro _
    show counted s.printed = entries 0 s.added
    rw [hprinted, hadded]
    rfl
  · intro j n hj
    exact absurd ((hrest j).elsewhere.2.2.symm.trans hj) nofun
  · show ∀ n ∈ s.added, 0 < n
    rw [hadded]
    exact List.forall_mem_nil _

/-- The thread in the routine is the one that runs it. -/
theorem Starting.running (h : Starting s) (hk : Initialising (s.threads k)) :
    s.once = .running ∧ ∀ j, j ≠ k → ¬ Initialising (s.threads j) := by
  refine ⟨?_, fun j hj => h.alone.outside hk hj⟩
  have hzero := h.alone.sem_eq_zero hk
  by_contra hne
  rw [if_neg hne] at hzero
  cases hzero

/-- Nobody is in the routine before the first call. -/
theorem Starting.nobody (h : Starting s) (ho : s.once = .notStarted) (j : ℕ) :
    ¬ Initialising (s.threads j) := by
  intro hj
  have hrunning := (h.running hj).1
  rw [ho] at hrunning
  cases hrunning

theorem Starting.step (h : Starting s) (ht : Effect s t) : Starting t ∨ Counting t := by
  cases ht with
  | @remove k connfd hk =>
    refine .inl ⟨h.once, h.alone.stay ?_, forall_threads_update h.early trivial, h.nothing,
      h.notStarted, ?_, ?_⟩
    · rw [hk]
      exact Iff.rfl
    · intro j fd hj
      exact h.initSem j fd (of_update_eq hj nofun).2
    · intro j fd hj
      exact h.initCnt j fd (of_update_eq hj nofun).2
  | @first k connfd hk ho =>
    have halone := h.alone
    rw [if_neg (by rw [ho]; exact nofun)] at halone
    have hnobody : ∀ j fd, Function.update s.threads k (.initSem connfd) j ≠ .initCnt fd := by
      intro j fd hj
      apply h.nobody ho j
      rw [(of_update_eq hj nofun).2]
      trivial
    refine .inl ⟨nofun, halone.enter Nat.one_pos trivial, forall_threads_update h.early trivial,
      h.nothing, nofun, fun _ _ _ => h.notStarted ho, fun j fd hj => (hnobody j fd hj).elim⟩
  | @pass k connfd hk ho => exact absurd ho h.once
  | @initSem k connfd hk =>
    have hin : Initialising (s.threads k) := by
      rw [hk]
      trivial
    obtain ⟨hrunning, hothers⟩ := h.running hin
    have hnobody : ∀ j fd, Function.update s.threads k (.initCnt connfd) j ≠ .initSem fd := by
      intro j fd hj
      obtain ⟨hjk, hj⟩ := of_update_eq hj nofun
      apply hothers j hjk
      rw [hj]
      trivial
    refine .inl ⟨h.once, h.alone.stay ?_, forall_threads_update h.early trivial, h.nothing, ?_,
      fun j fd hj => (hnobody j fd hj).elim, fun _ _ _ => ⟨?_, rfl⟩⟩
    · rw [hk]
      exact Iff.rfl
    · intro ho
      have heq : OnceControl.running = .notStarted := hrunning.symm.trans ho
      cases heq
    · show s.inits + 1 = 1
      rw [h.initSem k connfd hk]
  | initCnt hk => exact .inr (h.initialised hk)
  | line hk _ _ => exact (h.not_late hk id).elim
  | endOfFile hk => exact (h.not_late hk id).elim
  | lock hk _ => exact (h.not_late hk id).elim
  | load hk => exact (h.not_late hk id).elim
  | store hk => exact (h.not_late hk id).elim
  | print hk => exact (h.not_late hk id).elim
  | unlock hk => exact (h.not_late hk id).elim
  | write hk => exact (h.not_late hk id).elim
  | close hk => exact (h.not_late hk id).elim

/-! ## The count -/

/-- The thread between `P` and `V` is the only one there. -/
theorem Counting.only (h : Counting s) (hk : InSection (s.threads k)) {j : ℕ}
    (hj : InSection (s.threads j)) : j = k := h.guarded.alone j k hj hk

/-- A thread moves without touching the count. -/
theorem Counting.move (h : Counting s) {m : ℕ} {pc' : EchoPc}
    (hguarded : Exclusive InSection m (Function.update s.threads k pc'))
    (hinit : ¬ Initialising pc')
    (hstoring : ∀ connfd n cnt, pc' = .storing connfd n cnt → cnt = s.byteCnt)
    (hfrom : ∀ connfd n, s.threads k ≠ .printing connfd n)
    (hto : ∀ connfd n, pc' ≠ .printing connfd n)
    (hline : ∀ n, heldLine pc' = some n → 0 < n) :
    Counting (({ s with mutex := m } : EchoServer).goOn k pc') where
  once := h.once
  inits := h.inits
  past := forall_threads_update (P := fun pc => ¬ Initialising pc) h.past hinit
  guarded := hguarded
  count := h.count
  storing := forall_threads_update
    (P := fun pc : EchoPc => ∀ connfd n cnt, pc = .storing connfd n cnt → cnt = s.byteCnt)
    h.storing hstoring
  printing := by
    intro j connfd n hj
    exact h.printing j connfd n (of_update_eq hj (hto connfd n)).2
  printed := by
    intro hnone
    apply h.printed
    intro j connfd n hj
    have hjk : j ≠ k := by
      rintro rfl
      exact hfrom connfd n hj
    exact hnone j connfd n ((Function.update_of_ne hjk _ _).trans hj)
  positive := forall_threads_update
    (P := fun pc : EchoPc => ∀ n, heldLine pc = some n → 0 < n) h.positive hline
  addedPos := h.addedPos

/-- The thread writes what it has read, and nobody has changed it in between. -/
theorem Counting.store (h : Counting s) {connfd : ℤ} {n : ℕ} {cnt : BitVec 32}
    (hk : s.threads k = .storing connfd n cnt) :
    Counting (({ s with
      byteCnt := cnt + BitVec.ofNat 32 n
      added := s.added ++ [n] } : EchoServer).goOn k (.printing connfd n)) := by
  have hin : InSection (s.threads k) := by
    rw [hk]
    trivial
  have hpos := h.positive k n (by rw [hk]; rfl)
  have hprinted : counted s.printed = entries 0 s.added := by
    apply h.printed
    intro j fd m hj
    obtain rfl := h.only hin (show InSection (s.threads j) by rw [hj]; trivial)
    cases hk.symm.trans hj
  refine ⟨h.once, h.inits, forall_threads_update (P := fun pc => ¬ Initialising pc) h.past id,
    h.guarded.stay ?_, ?_, ?_, ?_, ?_, ?_, ?_⟩
  · exact iff_of_true trivial hin
  · show cnt + BitVec.ofNat 32 n = BitVec.ofNat 32 (s.added ++ [n]).sum
    rw [h.storing k connfd n cnt hk, h.count, List.sum_append, List.sum_singleton,
      BitVec.ofNat_add]
  · intro j fd m c hj
    obtain ⟨hjk, hj⟩ := of_update_eq hj nofun
    exact absurd (h.only hin (show InSection (s.threads j) by rw [hj]; trivial)) hjk
  · intro j fd m hj
    by_cases hjk : j = k
    · have heq : EchoPc.printing connfd n = .printing fd m := by
        rw [hjk] at hj
        exact (Function.update_self _ _ _).symm.trans hj
      obtain ⟨-, rfl⟩ := EchoPc.printing.inj heq
      exact ⟨s.added, rfl, hprinted⟩
    · have hj' := (Function.update_of_ne hjk _ _).symm.trans hj
      exact absurd (h.only hin (show InSection (s.threads j) by rw [hj']; trivial)) hjk
  · intro hnone
    exact absurd (Function.update_self ..) (hnone k connfd n)
  · exact forall_threads_update (P := fun pc : EchoPc => ∀ m, heldLine pc = some m → 0 < m)
      h.positive fun m hm => Option.some.inj hm ▸ hpos
  · intro m hm
    obtain hm | hm := List.mem_append.mp hm
    · exact h.addedPos m hm
    · exact List.mem_singleton.mp hm ▸ hpos

/-- The thread prints the count with its own line in it, and no other. -/
theorem Counting.print (h : Counting s) {connfd : ℤ} {n : ℕ}
    (hk : s.threads k = .printing connfd n) :
    Counting (({ s with
      printed := s.printed ++ [⟨n, s.byteCnt, connfd⟩] } : EchoServer).goOn k
        (.unlocking connfd n)) := by
  have hin : InSection (s.threads k) := by
    rw [hk]
    trivial
  have hpos := h.positive k n (by rw [hk]; rfl)
  obtain ⟨ns, hadded, hprinted⟩ := h.printing k connfd n hk
  refine ⟨h.once, h.inits, forall_threads_update (P := fun pc => ¬ Initialising pc) h.past id,
    h.guarded.stay ?_, h.count, ?_, ?_, ?_, ?_, h.addedPos⟩
  · exact iff_of_true trivial hin
  · intro j fd m c hj
    exact h.storing j fd m c (of_update_eq hj nofun).2
  · intro j fd m hj
    obtain ⟨hjk, hj⟩ := of_update_eq hj nofun
    exact absurd (h.only hin (show InSection (s.threads j) by rw [hj]; trivial)) hjk
  · intro _
    show counted (s.printed ++ [⟨n, s.byteCnt, connfd⟩]) = entries 0 s.added
    have hlast : counted [⟨n, s.byteCnt, connfd⟩] = [(n, s.byteCnt)] := rfl
    rw [counted, List.map_append, ← counted, ← counted, hprinted, hlast, hadded, entries_concat,
      h.count, hadded, Nat.zero_add]
  · exact forall_threads_update (P := fun pc : EchoPc => ∀ m, heldLine pc = some m → 0 < m)
      h.positive fun m hm => Option.some.inj hm ▸ hpos

/-- A thread moves outside of the section. -/
theorem Counting.walk (h : Counting s) {pc' : EchoPc} (hk : s.threads k = pc)
    (hpc : ¬ InSection pc) (hpc' : ¬ InSection pc') (hinit : ¬ Initialising pc')
    (hline : ∀ n, heldLine pc' = some n → 0 < n) : Counting (s.goOn k pc') := by
  refine h.move (m := s.mutex) (h.guarded.stay ?_) hinit ?_ ?_ ?_ hline
  · rw [hk]
    exact iff_of_false hpc' hpc
  · rintro connfd n cnt rfl
    exact absurd trivial hpc'
  · intro connfd n hprinting
    rw [← hk, hprinting] at hpc
    exact hpc trivial
  · rintro connfd n rfl
    exact hpc' trivial

theorem Counting.step (h : Counting s) (ht : Effect s t) : Counting t := by
  cases ht with
  | remove connfd hk => exact h.walk hk id id id nofun
  | line hk hpos hn => exact h.walk hk id id id fun m hm => Option.some.inj hm ▸ hpos
  | endOfFile hk => exact h.walk hk id id id nofun
  | first hk ho =>
    have heq : OnceControl.done = .notStarted := h.once.symm.trans ho
    cases heq
  | pass hk ho => exact h.walk hk id id id nofun
  | @initSem k connfd hk =>
    have hpast := h.past k
    rw [hk] at hpast
    exact absurd trivial hpast
  | @initCnt k connfd hk =>
    have hpast := h.past k
    rw [hk] at hpast
    exact absurd trivial hpast
  | @lock k n connfd hk hpos =>
    have hline := h.positive k n (by rw [hk]; rfl)
    exact h.move (h.guarded.enter hpos trivial) id nofun (by rw [hk]; exact nofun) nofun
      fun m hm => Option.some.inj hm ▸ hline
  | @load k n connfd hk =>
    have hline := h.positive k n (by rw [hk]; rfl)
    refine h.move (m := s.mutex) (h.guarded.stay ?_) id ?_ ?_ nofun
      fun m hm => Option.some.inj hm ▸ hline
    · rw [hk]
      exact Iff.rfl
    · rintro fd m cnt heq
      exact (EchoPc.storing.inj heq).2.2.symm
    · rw [hk]
      exact nofun
  | store hk => exact h.store hk
  | print hk => exact h.print hk
  | @unlock k n connfd hk =>
    have hline := h.positive k n (by rw [hk]; rfl)
    have hin : InSection (s.threads k) := by
      rw [hk]
      trivial
    exact h.move (h.guarded.leave hin id) id nofun (by rw [hk]; exact nofun) nofun
      fun m hm => Option.some.inj hm ▸ hline
  | write hk => exact h.walk hk id id id nofun
  | close hk => exact h.walk hk id id id nofun

/-! ## The totals -/

/-- The invariant of the server. -/
theorem starting_or_counting {as : List EchoServer.Action}
    (h : run EchoServer.step start as = some s) : Starting s ∨ Counting s := by
  refine run_invariant (I := fun s => Starting s ∨ Counting s) (.inl starting_start) ?_ h
  intro t a u ht hu
  obtain ht | ht := ht
  · exact ht.step (effect_of_step hu)
  · exact .inr (ht.step (effect_of_step hu))

/-- What is printed are the entries of a first part of what was added. -/
theorem exists_counted (h : Starting s ∨ Counting s) :
    ∃ ns, ns <+: s.added ∧ counted s.printed = entries 0 ns ∧ ∀ n ∈ s.added, 0 < n := by
  obtain h | h := h
  · obtain ⟨hadded, hprinted⟩ := h.nothing
    rw [hadded, hprinted]
    exact ⟨[], List.prefix_refl [], rfl, List.forall_mem_nil _⟩
  · by_cases hnone : ∀ k connfd n, s.threads k ≠ .printing connfd n
    · exact ⟨s.added, List.prefix_refl _, h.printed hnone, h.addedPos⟩
    · simp only [not_forall, not_not] at hnone
      obtain ⟨k, connfd, n, hk⟩ := hnone
      obtain ⟨ns, hadded, hprinted⟩ := h.printing k connfd n hk
      exact ⟨ns, hadded ▸ List.prefix_append ns [n], hprinted, h.addedPos⟩

/-- Every total printed is the sum of all that was added until then. -/
def ExactTotals (s : EchoServer) : Prop :=
  ∀ i p, s.printed[i]? = some p →
    s.added[i]? = some p.n ∧ p.total.toInt = ((s.added.take (i + 1)).sum : ℤ)

/-- The totals printed strictly increase. -/
def IncreasingTotals (s : EchoServer) : Prop :=
  s.printed.Pairwise fun p q => p.total.toInt < q.total.toInt

/-- The number of bytes in the lines whose totals are printed. -/
def printedBytes (s : EchoServer) : ℕ := (s.printed.map Printed.n).sum

/-- The sum of a longer first part of positive numbers is larger. -/
theorem sum_take_lt {ns : List ℕ} (hpos : ∀ n ∈ ns, 0 < n) {i j : ℕ} (hij : i < j)
    (hj : j < ns.length) : (ns.take (i + 1)).sum < (ns.take (j + 1)).sum := by
  induction j with
  | zero => exact absurd hij (Nat.not_lt_zero i)
  | succ j ih =>
    have hlast := hpos _ (List.getElem_mem hj)
    rw [List.sum_take_succ ns (j + 1) hj]
    obtain hij | rfl := Nat.lt_succ_iff_lt_or_eq.mp hij
    · have hbefore := ih hij (Nat.lt_of_succ_lt hj)
      omega
    · omega

theorem sum_take_le (ns : List ℕ) (i : ℕ) : (ns.take i).sum ≤ ns.sum := by
  have hsplit := List.sum_take_add_sum_drop ns i
  omega

/-- A 32-bit number is the sum that it was made of if the sum is below 2^31. -/
theorem toInt_ofNat_of_lt {n : ℕ} (h : n < 2 ^ 31) : (BitVec.ofNat 32 n).toInt = (n : ℤ) := by
  have hmod : (BitVec.ofNat 32 n).toNat = n := by
    rw [BitVec.toNat_ofNat]
    exact Nat.mod_eq_of_lt (by omega)
  rw [BitVec.toInt_eq_toNat_of_lt (by omega), hmod]

/-- **The totals printed are exact as long as the bytes counted fit.** -/
theorem exactTotals_iff (h : Starting s ∨ Counting s) :
    ExactTotals s ∧ IncreasingTotals s ↔ printedBytes s < 2 ^ 31 := by
  obtain ⟨ns, hbegins, hcounted, hpos⟩ := exists_counted h
  have hns : s.printed.map Printed.n = ns := by
    rw [← map_fst_entries 0 ns, ← hcounted, counted, List.map_map]
    rfl
  have hlength : s.printed.length = ns.length := by rw [← hns, List.length_map]
  have htake : ∀ i < ns.length, s.added.take (i + 1) = ns.take (i + 1) := by
    intro i hi
    obtain ⟨rest, hrest⟩ := hbegins
    rw [← hrest, List.take_append_of_le_length hi]
  have hentry : ∀ i p, s.printed[i]? = some p →
      ns[i]? = some p.n ∧ p.total = BitVec.ofNat 32 (ns.take (i + 1)).sum := by
    intro i p hp
    have hi : (entries 0 ns)[i]? = some (p.n, p.total) := by
      rw [← hcounted, counted, List.getElem?_map, hp]
      rfl
    have hentries := entries_getElem hi
    rw [Nat.zero_add] at hentries
    exact hentries
  rw [printedBytes, hns]
  constructor
  · rintro ⟨hexact, -⟩
    obtain rfl | hne := eq_or_ne ns []
    · exact Nat.two_pow_pos 31
    · -- The last total is the sum of all, and a 32-bit number is below 2^31.
      have hpos : 0 < ns.length := List.length_pos_iff.mpr hne
      obtain ⟨p, hp⟩ : ∃ p, s.printed[ns.length - 1]? = some p :=
        ⟨_, List.getElem?_eq_getElem (by omega)⟩
      have htotal := (hexact _ p hp).2
      rw [htake _ (by omega), Nat.sub_add_cancel hpos, List.take_length] at htotal
      have hlt : p.total.toInt < 2 ^ 31 := BitVec.toInt_lt
      omega
  · intro hsum
    have htotal : ∀ i p, s.printed[i]? = some p → p.total.toInt = ((ns.take (i + 1)).sum : ℤ) := by
      intro i p hp
      rw [(hentry i p hp).2]
      exact toInt_ofNat_of_lt (Nat.lt_of_le_of_lt (sum_take_le ns (i + 1)) hsum)
    constructor
    · intro i p hp
      have hi := (List.getElem?_eq_some_iff.mp hp).1
      have hadded : s.added[i]? = ns[i]? := by
        obtain ⟨rest, hrest⟩ := hbegins
        rw [← hrest, List.getElem?_append_left (by omega)]
      rw [htotal i p hp, htake i (by omega), hadded]
      exact ⟨(hentry i p hp).1, rfl⟩
    · refine List.pairwise_iff_getElem.mpr fun i j hi hj hij => ?_
      rw [htotal i _ (List.getElem?_eq_getElem hi), htotal j _ (List.getElem?_eq_getElem hj)]
      have hbelow : ∀ n ∈ ns, 0 < n := fun n hn => hpos n (hbegins.subset hn)
      exact_mod_cast sum_take_lt hbelow hij (by omega)

/-- The counter is initialised at most once. -/
theorem inits_le_one (h : Starting s ∨ Counting s) : s.inits ≤ 1 := by
  obtain h | h := h
  · cases ho : s.once with
    | notStarted => exact Nat.le_of_lt (Nat.lt_one_iff.mpr (h.notStarted ho))
    | done => exact absurd ho h.once
    | running =>
      have halone := h.alone
      rw [if_pos ho] at halone
      obtain ⟨k, hk⟩ := halone.held rfl
      cases hpc : s.threads k with
      | initSem connfd => exact Nat.le_of_lt (Nat.lt_one_iff.mpr (h.initSem k connfd hpc))
      | initCnt connfd => exact Nat.le_of_eq (h.initCnt k connfd hpc).1
      | _ =>
        rw [hpc] at hk
        exact hk.elim
  · exact Nat.le_of_eq h.inits

/-! ## One client, many lines -/

/-- A thread reads and echoes a line while nobody else moves. -/
theorem run_line {connfd : ℤ} {n : ℕ} (hk : s.threads k = .reading connfd) (hmutex : s.mutex = 1)
    (hpos : 0 < n) (hn : n < MAXLINE) :
    run EchoServer.step s (.read k n :: List.replicate 6 (.proceed k)) = some { s with
      mutex := 1
      byteCnt := s.byteCnt + BitVec.ofNat 32 n
      threads := Function.update s.threads k (.reading connfd)
      added := s.added ++ [n]
      printed := s.printed ++ [⟨n, s.byteCnt + BitVec.ofNat 32 n, connfd⟩] } := by
  have hne : n ≠ 0 := Nat.ne_of_gt hpos
  simp [List.replicate, run_cons, EchoServer.step, EchoServer.proceed, goOn, hk, hmutex, hn, hne]

/-- The client sends `m` lines of `n` bytes. -/
theorem exists_run_lines {n : ℕ} (hpos : 0 < n) (hn : n < MAXLINE) (m : ℕ) :
    ∃ as s, run EchoServer.step start as = some s ∧ s.threads 0 = .reading 4 ∧ s.mutex = 1 ∧
      printedBytes s = m * n := by
  induction m with
  | zero =>
    refine ⟨.remove 0 4 :: List.replicate 3 (.proceed 0), _, rfl, rfl, rfl, ?_⟩
    exact (Nat.zero_mul n).symm
  | succ m ih =>
    obtain ⟨as, s, hs, hk, hmutex, hbytes⟩ := ih
    have hrun := run_append_eq_some.mpr ⟨s, hs, run_line hk hmutex hpos hn⟩
    have hself : Function.update s.threads 0 (.reading 4) 0 = .reading 4 := Function.update_self ..
    refine ⟨_, _, hrun, hself, rfl, ?_⟩
    rw [printedBytes, List.map_append, List.sum_append, Nat.succ_mul, ← hbytes]
    rfl

/-! ## The main theorem -/

/-- **The byte count of the worker threads.** Under every schedule of any number of threads the
counter is initialised at most once, and the totals printed are the exact sums in the order of
the lock, and strictly increase, if and only if the lines whose totals are printed have less
than 2^31 bytes.
SOURCE: csapp/echo/echo6_echocnt.c:3-28, echo6_echoserverpre.c:24-43 -/
theorem byte_count_exact_iff (as : List EchoServer.Action) (s : EchoServer)
    (h : run EchoServer.step start as = some s) :
    s.inits ≤ 1 ∧ (ExactTotals s ∧ IncreasingTotals s ↔ printedBytes s < 2 ^ 31) := by
  have hs := starting_or_counting h
  exact ⟨inits_le_one hs, exactTotals_iff hs⟩

/-- Two workers take a client each and count in turns; the first one counts a second line. -/
def inTurns : List EchoServer.Action :=
  [.remove 0 4, .remove 1 5] ++ List.replicate 3 (.proceed 0) ++
    [.proceed 1, .read 0 5, .read 1 3] ++ List.replicate 5 (.proceed 0) ++
    List.replicate 5 (.proceed 1) ++ [.proceed 0, .read 0 2] ++ List.replicate 4 (.proceed 0)

theorem byte_count_exact_turns :
    ∃ s, run EchoServer.step start inTurns = some s ∧
      s.printed = [⟨5, 5, 4⟩, ⟨3, 8, 5⟩, ⟨2, 10, 4⟩] ∧ ExactTotals s ∧ IncreasingTotals s := by
  refine ⟨_, rfl, rfl, ?_⟩
  exact (byte_count_exact_iff inTurns _ rfl).2.mpr (by decide)

/-- One client sends 262177 lines of 8191 bytes. -/
theorem byte_count_wraps :
    ∃ as s, run EchoServer.step start as = some s ∧ printedBytes s = 262177 * 8191 ∧
      ¬ (ExactTotals s ∧ IncreasingTotals s) := by
  obtain ⟨as, s, hs, -, -, hbytes⟩ := exists_run_lines (n := 8191) (by decide) (by decide) 262177
  refine ⟨as, s, hs, hbytes, ?_⟩
  rw [exactTotals_iff (starting_or_counting hs), hbytes]
  decide

end GolangSandbox.Analysis
