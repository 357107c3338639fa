import GolangSandbox.Model.Bookkeeping
import GolangSandbox.Program.ForkServer

/-!
# Zombies and the signal

An exit sets the pending bit, and the bit is cleared only by a delivery, which starts the
handler. The handler calls `waitpid` until a call finds no zombie, so while there is one, it is
either still in its loop or it was left by such a call, after which only an exit makes a zombie
(`Noticed`). This holds wherever the exits come, and when several of them set the bit once.

So the handler alone gets rid of all zombies (`no_zombie_left`). The descriptors are independent
of this: between two connections the parent has only the listening socket open, and a child
only its own connection (`Separate`).
-/

set_option autoImplicit false

namespace GolangSandbox.Analysis

open GolangSandbox.Model GolangSandbox.Program GolangSandbox.Program.ForkServer

variable {s t : ForkServer} {k : ℕ} {c d : Child} {as : List ForkServer.Action}

/-! ## No zombie is unnoticed -/

/-- If there is a zombie, the signal is pending or the handler is in its loop. -/
def Noticed (s : ForkServer) : Prop :=
  ∀ c ∈ s.children, c.pc = .zombie → s.pending = true ∨ s.handler = .waiting

/-- A child that is not a zombie after its step changes nothing. -/
theorem Noticed.setChild (h : Noticed s) (hd : d.pc ≠ .zombie) : Noticed (s.setChild k d) := by
  intro c hc hzombie
  obtain hc | rfl := List.mem_or_eq_of_mem_set hc
  · exact h c hc hzombie
  · exact absurd hzombie hd

theorem noticed_of_effect (h : Noticed s) (ha : Effect s t) : Noticed t := by
  cases ha with
  | accept hhandler hparent hfd => exact h
  | @fork connfd pid hpid hfree hhandler hparent =>
    intro c hc hzombie
    obtain hc | hc := List.mem_append.mp hc
    · exact h c hc hzombie
    · obtain rfl := List.mem_singleton.mp hc
      cases hzombie
  | close hhandler hparent hfd => exact h
  | closeListen hk hpc hfd => exact h.setChild nofun
  | echo hk hpc => exact h.setChild nofun
  | closeConn hk hpc hfd => exact h.setChild nofun
  | exit hk hpc => exact fun _ _ _ => .inl rfl
  | deliver hpending hhandler => exact fun _ _ _ => .inr rfl
  | reap hhandler hk hpc => exact fun _ _ _ => .inr hhandler
  | noZombie hhandler hchildren => exact fun c hc hzombie => absurd hzombie (hchildren c hc)
  | ret hhandler =>
    -- The zombie was there before the return, and the handler was past its loop.
    intro c hc hzombie
    obtain hpending | hwaiting := h c hc hzombie
    · exact .inl hpending
    · rw [hhandler] at hwaiting
      cases hwaiting

theorem noticed_of_run {listenfd : ℤ} (hrun : run ForkServer.step (start listenfd) as = some s) :
    Noticed s := by
  refine run_invariant ?_ (fun _ _ _ h ha => noticed_of_effect h (effect_of_step ha)) hrun
  exact fun c hc => absurd hc List.not_mem_nil

/-- **A zombie is noticed.** In every run, as long as a child has exited and is not reaped, the
signal is pending or the handler is running and not past its last `waitpid`.
SOURCE: csapp/echo/echo2.c:7-16, csapp/echo/echo2.c:29-41 -/
theorem zombie_noticed {listenfd : ℤ} (hrun : run ForkServer.step (start listenfd) as = some s)
    (hc : c ∈ s.children) (hzombie : c.pc = .zombie) :
    s.pending = true ∨ s.handler = .waiting := noticed_of_run hrun c hc hzombie

/-- Three connections. The exits of the first two children are one signal, and the third child
exits after the last `waitpid` of the handler. -/
def merged : List ForkServer.Action :=
  [.accept 4, .fork 10, .close, .accept 4, .fork 11, .close, .accept 4, .fork 12, .close,
    .exit 0, .exit 1, .deliver, .waitpid 1, .waitpid 0, .waitpid 0, .exit 2]

theorem zombie_noticed_merged : ∃ s c, run ForkServer.step (start 3) merged = some s ∧
    c ∈ s.children ∧ c.pc = .zombie ∧ (s.pending = true ∨ s.handler = .waiting) :=
  have hrun : run ForkServer.step (start 3) merged = some ⟨3, .accepting, .returning, true, [3],
      [⟨10, by decide, .reaped, []⟩, ⟨11, by decide, .reaped, []⟩,
        ⟨12, by decide, .zombie, []⟩]⟩ := by rfl
  have hmem := List.mem_cons_of_mem _ (List.mem_cons_of_mem _ (List.mem_singleton_self _))
  ⟨_, _, hrun, hmem, rfl, zombie_noticed hrun hmem rfl⟩

/-! ## The handler reaps every zombie -/

/-- Where the handler does not run and the signal is not pending, there is no zombie. -/
theorem Noticed.no_zombie (h : Noticed s) (hpending : s.pending = false)
    (hhandler : s.handler ≠ .waiting) : ∀ c ∈ s.children, c.pc ≠ .zombie := by
  intro c hc hzombie
  obtain htrue | hwaiting := h c hc hzombie
  · rw [hpending] at htrue
    cases htrue
  · exact hhandler hwaiting

/-- A `waitpid` that reaps a child is followed by another one. -/
theorem step_waitpid_reap (hhandler : s.handler = .waiting) (hk : s.children[k]? = some c)
    (hpc : c.pc = .zombie) :
    s.step (.waitpid k) = some (s.setChild k { c with pc := .reaped }) := by
  have hexists : ∃ c ∈ s.children, c.pc = .zombie := ⟨c, List.mem_of_getElem? hk, hpc⟩
  simp only [step, hhandler, if_pos, Program.waitpid, hexists, hk, hpc, Option.bind_some,
    Option.map_some, c.pid_pos, gt_iff_lt, setChild]

/-- A `waitpid` that finds no zombie is the last one. -/
theorem step_waitpid_none (hhandler : s.handler = .waiting)
    (hnone : ∀ c ∈ s.children, c.pc ≠ .zombie) :
    s.step (.waitpid k) = some { s with handler := .returning } := by
  have hzombie : ¬ ∃ c ∈ s.children, c.pc = .zombie := by
    rintro ⟨c, hc, hpc⟩
    exact hnone c hc hpc
  simp only [step, hhandler, if_pos, Program.waitpid, hzombie, if_false]
  split <;> rfl

theorem step_ret (hhandler : s.handler = .returning) :
    s.step .ret = some { s with handler := .inactive } := by
  rw [step, if_pos hhandler]

/-- The calls of `waitpid` in one run of the handler leave no zombie. -/
theorem exists_reaping (n : ℕ) : ∀ s : ForkServer, s.children.countP (·.pc = .zombie) = n →
    s.handler = .waiting → ∃ as t, run ForkServer.step s as = some t ∧
      (∀ a ∈ as, ∃ k, a = .waitpid k) ∧ t.handler = .returning ∧ t.pending = s.pending ∧
        ∀ c ∈ t.children, c.pc ≠ .zombie := by
  induction n with
  | zero =>
    intro s hcount hhandler
    have hnone : ∀ c ∈ s.children, c.pc ≠ .zombie := by
      intro c hc
      simpa using List.countP_eq_zero.mp hcount c hc
    refine ⟨[.waitpid 0], { s with handler := .returning },
      run_cons_eq_some.mpr ⟨_, step_waitpid_none hhandler hnone, rfl⟩, ?_, rfl, rfl, hnone⟩
    intro a ha
    exact ⟨0, List.mem_singleton.mp ha⟩
  | succ n ih =>
    intro s hcount hhandler
    have hpos : 0 < s.children.countP (·.pc = .zombie) := by omega
    obtain ⟨c, hc, hzombie⟩ := List.countP_pos_iff.mp hpos
    obtain ⟨k, hk⟩ := List.mem_iff_getElem?.mp hc
    have hstep := step_waitpid_reap hhandler hk (by simpa using hzombie)
    have hless : (s.setChild k { c with pc := .reaped }).children.countP (·.pc = .zombie) = n := by
      have hadd := countP_set_add (fun d : Child => decide (d.pc = .zombie)) hk
        { c with pc := .reaped }
      rw [if_pos hzombie, if_neg (by simp), hcount] at hadd
      exact Nat.add_right_cancel hadd
    obtain ⟨as, t, hrun, has, ht⟩ := ih _ hless hhandler
    refine ⟨.waitpid k :: as, t, run_cons_eq_some.mpr ⟨_, hstep, hrun⟩, ?_, ht⟩
    intro a ha
    obtain rfl | ha := List.mem_cons.mp ha
    · exact ⟨k, rfl⟩
    · exact has a ha

/-- The step is one of the handler. -/
def OfHandler (a : ForkServer.Action) : Prop := a = .deliver ∨ a = .ret ∨ ∃ k, a = .waitpid k

/-- The handler, once it runs, returns, and there is no zombie then. -/
theorem exists_handling (hhandler : s.handler = .waiting) :
    ∃ as t, run ForkServer.step s as = some t ∧ (∀ a ∈ as, OfHandler a) ∧
      t.handler = .inactive ∧ t.pending = s.pending ∧ ∀ c ∈ t.children, c.pc ≠ .zombie := by
  obtain ⟨as, t, hrun, has, ht, hpending, hnone⟩ := exists_reaping _ s rfl hhandler
  refine ⟨as ++ [.ret], { t with handler := .inactive },
    run_concat_eq_some.mpr ⟨t, hrun, step_ret ht⟩, ?_, rfl, hpending, hnone⟩
  intro a ha
  obtain ha | ha := List.mem_append.mp ha
  · exact .inr (.inr (has a ha))
  · exact .inr (.inl (List.mem_singleton.mp ha))

/-- From where the handler does not run, its delivery is all that is needed. -/
theorem exists_delivery (h : Noticed s) (hhandler : s.handler = .inactive) :
    ∃ as t, run ForkServer.step s as = some t ∧ (∀ a ∈ as, OfHandler a) ∧
      t.handler = .inactive ∧ t.pending = false ∧ ∀ c ∈ t.children, c.pc ≠ .zombie := by
  cases hpending : s.pending with
  | false =>
    have hne : s.handler ≠ .waiting := by
      rw [hhandler]
      nofun
    exact ⟨[], s, rfl, nofun, hhandler, hpending, h.no_zombie hpending hne⟩
  | true =>
    have hdeliver : s.step .deliver = some { s with pending := false, handler := .waiting } := by
      rw [step, if_pos ⟨hpending, hhandler⟩]
    obtain ⟨as, t, hrun, has, ht⟩ :=
      exists_handling (s := { s with pending := false, handler := .waiting }) rfl
    refine ⟨.deliver :: as, t, run_cons_eq_some.mpr ⟨_, hdeliver, hrun⟩, ?_, ht⟩
    exact List.forall_mem_cons.mpr ⟨.inl rfl, has⟩

/-- **No zombie is left.** Whatever has happened, the handler can go on so that it does not run
any more, no signal is pending, and no child is a zombie. -/
theorem no_zombie_left {listenfd : ℤ} (hrun : run ForkServer.step (start listenfd) as = some s) :
    ∃ as' t, run ForkServer.step s as' = some t ∧ (∀ a ∈ as', OfHandler a) ∧
      t.handler = .inactive ∧ t.pending = false ∧ ∀ c ∈ t.children, c.pc ≠ .zombie := by
  have hs := noticed_of_run hrun
  -- A handler that runs comes to its end first, with the signal as it is.
  have hinactive : ∃ as' t, run ForkServer.step s as' = some t ∧ (∀ a ∈ as', OfHandler a) ∧
      t.handler = .inactive ∧ Noticed t := by
    cases hhandler : s.handler with
    | inactive => exact ⟨[], s, rfl, nofun, hhandler, hs⟩
    | waiting =>
      obtain ⟨as', t, hrun', has, ht, -, hnone⟩ := exists_handling hhandler
      exact ⟨as', t, hrun', has, ht, fun c hc hzombie => absurd hzombie (hnone c hc)⟩
    | returning =>
      have hret := step_ret hhandler
      refine ⟨[.ret], { s with handler := .inactive }, run_cons_eq_some.mpr ⟨_, hret, rfl⟩, ?_, rfl,
        noticed_of_effect hs (effect_of_step hret)⟩
      exact List.forall_mem_singleton.mpr (.inr (.inl rfl))
  obtain ⟨as₁, t₁, hrun₁, has₁, ht₁, hnoticed⟩ := hinactive
  obtain ⟨as₂, t₂, hrun₂, has₂, ht₂⟩ := exists_delivery hnoticed ht₁
  refine ⟨as₁ ++ as₂, t₂, run_append_eq_some.mpr ⟨t₁, hrun₁, hrun₂⟩, ?_, ht₂⟩
  intro a ha
  exact (List.mem_append.mp ha).elim (has₁ a) (has₂ a)

/-! ## The descriptors of the processes -/

/-- The parent has the listening socket open, and a connection only until it has closed it. -/
def ParentHolds (listenfd : ℤ) (descriptors : List ℤ) : ParentPc → Prop
  | .accepting => descriptors = [listenfd]
  | .forking connfd | .closing connfd => descriptors = [connfd, listenfd] ∧ connfd ≠ listenfd

/-- A child has its connection open, and the listening socket only until it has closed it. -/
def ChildHolds (listenfd : ℤ) (descriptors : List ℤ) : ChildPc → Prop
  | .closingListen connfd => descriptors = [connfd, listenfd] ∧ connfd ≠ listenfd
  | .echoing connfd | .closingConn connfd => descriptors = [connfd]
  | .exiting | .zombie | .reaped => descriptors = []

/-- Every process has the descriptors open that it still needs, and no others. -/
structure Separate (s : ForkServer) : Prop where
  parent : ParentHolds s.listenfd s.descriptors s.parent
  child : ∀ c ∈ s.children, ChildHolds s.listenfd c.descriptors c.pc

theorem Separate.setChild (h : Separate s) (hd : ChildHolds s.listenfd d.descriptors d.pc) :
    Separate (s.setChild k d) where
  parent := h.parent
  child := by
    intro c hc
    obtain hc | rfl := List.mem_or_eq_of_mem_set hc
    · exact h.child c hc
    · exact hd

/-- What a child at `pc` has open. -/
theorem Separate.holds {pc : ChildPc} (h : Separate s) (hk : s.children[k]? = some c)
    (hpc : c.pc = pc) : ChildHolds s.listenfd c.descriptors pc :=
  hpc ▸ h.child c (List.mem_of_getElem? hk)

theorem separate_of_effect (h : Separate s) (ha : Effect s t) : Separate t := by
  have hparentHolds := h.parent
  cases ha with
  | @accept connfd hhandler hparent hfd =>
    rw [hparent] at hparentHolds
    have hopen : s.descriptors = [s.listenfd] := hparentHolds
    rw [hopen, List.mem_singleton] at hfd
    exact ⟨⟨by rw [hopen], hfd⟩, h.child⟩
  | @fork connfd pid hpid hfree hhandler hparent =>
    rw [hparent] at hparentHolds
    refine ⟨hparentHolds, fun c hc => ?_⟩
    obtain hc | hc := List.mem_append.mp hc
    · exact h.child c hc
    · obtain rfl := List.mem_singleton.mp hc
      exact hparentHolds
  | @close connfd hhandler hparent hfd =>
    rw [hparent] at hparentHolds
    refine ⟨?_, h.child⟩
    show s.descriptors.erase connfd = [s.listenfd]
    rw [hparentHolds.1, List.erase_cons_head]
  | @closeListen k c connfd hk hpc hfd =>
    obtain ⟨hopen, hne⟩ := h.holds hk hpc
    refine h.setChild ?_
    show c.descriptors.erase s.listenfd = [connfd]
    rw [hopen, List.erase_cons_tail (by simpa using hne), List.erase_cons_head]
  | @echo k c connfd hk hpc =>
    have hopen : c.descriptors = [connfd] := h.holds hk hpc
    exact h.setChild hopen
  | @closeConn k c connfd hk hpc hfd =>
    have hopen : c.descriptors = [connfd] := h.holds hk hpc
    refine h.setChild ?_
    show c.descriptors.erase connfd = []
    rw [hopen, List.erase_cons_head]
  | @exit k c hk hpc =>
    have hset : Separate (s.setChild k { c with pc := .zombie, descriptors := [] }) :=
      h.setChild (show ChildHolds s.listenfd [] .zombie from rfl)
    exact ⟨hset.parent, hset.child⟩
  | deliver hpending hhandler => exact ⟨h.parent, h.child⟩
  | @reap k c hhandler hk hpc =>
    have hopen : c.descriptors = [] := h.holds hk hpc
    exact h.setChild hopen
  | noZombie hhandler hchildren => exact ⟨h.parent, h.child⟩
  | ret hhandler => exact ⟨h.parent, h.child⟩

/-- **No connection stays open.** Whenever the parent accepts, the listening socket is its only
open descriptor, and a child that serves its connection has only that one. So the parent never
runs out of descriptors, and the end of a connection is not held up by another process.
SOURCE: csapp/echo/echo2.c:34-40 -/
theorem descriptors_separate {listenfd : ℤ}
    (hrun : run ForkServer.step (start listenfd) as = some s) : Separate s := by
  refine run_invariant ?_ (fun _ _ _ h ha => separate_of_effect h (effect_of_step ha)) hrun
  exact ⟨rfl, fun c hc => absurd hc List.not_mem_nil⟩

theorem descriptors_separate_merged :
    ∃ s, run ForkServer.step (start 3) merged = some s ∧ Separate s :=
  have hrun : run ForkServer.step (start 3) merged = some ⟨3, .accepting, .returning, true, [3],
      [⟨10, by decide, .reaped, []⟩, ⟨11, by decide, .reaped, []⟩,
        ⟨12, by decide, .zombie, []⟩]⟩ := by rfl
  ⟨_, hrun, descriptors_separate hrun⟩

end GolangSandbox.Analysis
