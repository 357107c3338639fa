import GolangSandbox.Analysis.ZombieChildren
import GolangSandbox.Model.Termination

/-!
# Every connection has its child, and every child is reaped

Once no connection comes in any more, the server with a process for each connection comes to
rest. Every step lowers what is left to do (`reapingLeft`): a connection that was accepted has
its child forked, a child takes its steps, exits and is reaped, and an exit costs a delivery of
the signal with the run of the handler that it starts. Where nothing can move is the end: a
zombie is noticed, a descriptor that is to be closed is open, and there is always a free pid.

A `Fork` follows every `Accept`, so there are as many children as connections (`connections`).
-/

set_option autoImplicit false

namespace GolangSandbox.Analysis

open GolangSandbox.Model GolangSandbox.Program GolangSandbox.Program.ForkServer

variable {s t : ForkServer} {a : ForkServer.Action}

/-- The action is not an `Accept`. -/
def Uncalled : ForkServer.Action → Prop
  | .accept _ => False
  | _ => True

instance : DecidablePred Uncalled
  | .accept _ => isFalse id
  | .fork _ | .close | .child _ | .exit _ | .deliver | .waitpid _ | .ret => isTrue trivial

/-! ## What is left to do -/

/-- The steps a child has still to take, with those that its exit causes. -/
def childLeft : ChildPc → ℕ
  | .closingListen _ => 8
  | .echoing _ => 7
  | .closingConn _ => 6
  | .exiting => 5
  | .zombie => 1
  | .reaped => 0

/-- The steps of the parent before its next `Accept`, with those of the child it forks. -/
def parentLeft : ParentPc → ℕ
  | .forking _ => 10
  | .closing _ => 1
  | .accepting => 0

def handlerLeft : HandlerPc → ℕ
  | .waiting => 2
  | .returning => 1
  | .inactive => 0

/-- The delivery of a signal, and the run of the handler. -/
def signalLeft : Bool → ℕ
  | true => 3
  | false => 0

/-- What is left to do. -/
def reapingLeft (s : ForkServer) : ℕ :=
  parentLeft s.parent + load (fun c => childLeft c.pc) s.children + signalLeft s.pending +
    handlerLeft s.handler

/-- The connection that has no child yet. -/
def unforked : ParentPc → ℕ
  | .forking _ => 1
  | .accepting | .closing _ => 0

/-- The children, with the one that is to be forked. -/
def connections (s : ForkServer) : ℕ := s.children.length + unforked s.parent

theorem childLeft_running {pc : ChildPc} (h : pc.running = true) : 5 ≤ childLeft pc := by
  cases pc with
  | closingListen connfd => simp [childLeft]
  | echoing connfd => simp [childLeft]
  | closingConn connfd => simp [childLeft]
  | exiting => simp [childLeft]
  | zombie => cases h
  | reaped => cases h

/-- A child goes on, and nothing else changes. -/
theorem reapingLeft_setChild {k : ℕ} {c d : Child} (hk : s.children[k]? = some c)
    (hlt : childLeft d.pc < childLeft c.pc) :
    reapingLeft (s.setChild k d) < reapingLeft s ∧
      connections (s.setChild k d) = connections s := by
  have hset := load_set (f := fun c : Child => childLeft c.pc) hk d
  simp only [reapingLeft, connections, setChild, List.length_set] at hset ⊢
  exact ⟨by omega, trivial⟩

/-- **The step lemma.** A step that does not take a new connection lowers what is left, and
keeps the number of connections. -/
theorem reapingLeft_step (h : Effect s t) (hkeep : s.parent = .accepting → t.parent = .accepting) :
    reapingLeft t < reapingLeft s ∧ connections t = connections s := by
  cases h with
  | accept hhandler hparent hfd => cases hkeep hparent
  | fork hpid hfree hhandler hparent =>
    refine ⟨?_, ?_⟩
    · simp only [reapingLeft, hparent, load_append, load_cons, load_nil, parentLeft, childLeft]
      omega
    · simp only [connections, hparent, unforked, List.length_append, List.length_singleton]
  | close hhandler hparent hfd =>
    refine ⟨?_, ?_⟩
    · simp only [reapingLeft, hparent, parentLeft]
      omega
    · simp only [connections, hparent, unforked]
  | closeListen hk hpc hfd => exact reapingLeft_setChild hk (by simp [hpc, childLeft])
  | echo hk hpc => exact reapingLeft_setChild hk (by simp [hpc, childLeft])
  | closeConn hk hpc hfd => exact reapingLeft_setChild hk (by simp [hpc, childLeft])
  | @exit k c hk hpc =>
    have hset : load (fun c => childLeft c.pc)
        (s.children.set k { c with pc := .zombie, descriptors := [] }) + childLeft c.pc =
          load (fun c => childLeft c.pc) s.children + childLeft .zombie :=
      load_set (f := fun c : Child => childLeft c.pc) hk _
    have hrunning := childLeft_running hpc
    have hzombie : childLeft .zombie = 1 := rfl
    refine ⟨?_, ?_⟩
    · simp only [reapingLeft, setChild, signalLeft]
      omega
    · simp only [connections, setChild, List.length_set]
  | deliver hpending hhandler =>
    refine ⟨?_, rfl⟩
    simp only [reapingLeft, hpending, hhandler, signalLeft, handlerLeft]
    omega
  | reap hhandler hk hpc => exact reapingLeft_setChild hk (by simp [hpc, childLeft])
  | noZombie hhandler hchildren =>
    refine ⟨?_, rfl⟩
    simp only [reapingLeft, hhandler, handlerLeft]
    omega
  | ret hhandler =>
    refine ⟨?_, rfl⟩
    simp only [reapingLeft, hhandler, handlerLeft]
    omega

/-- Only `Accept` takes the parent from its `Accept`. -/
theorem accepting_of_step (ha : Uncalled a) (h : s.step a = some t)
    (hparent : s.parent = .accepting) : t.parent = .accepting := by
  cases a with
  | accept connfd => exact ha.elim
  | fork pid => simp [step, stepParent, hparent] at h
  | close => simp [step, stepParent, hparent] at h
  | child k =>
    obtain ⟨c, hk, hstep⟩ := Option.bind_eq_some_iff.mp h
    split at hstep
    · rw [Option.ite_none_right_eq_some] at hstep
      exact Option.some.inj hstep.2 ▸ hparent
    · exact Option.some.inj hstep ▸ hparent
    · rw [Option.ite_none_right_eq_some] at hstep
      exact Option.some.inj hstep.2 ▸ hparent
    · cases hstep
    · cases hstep
    · cases hstep
  | exit k =>
    obtain ⟨c, hk, hexit⟩ := Option.bind_eq_some_iff.mp h
    rw [Option.ite_none_right_eq_some] at hexit
    exact Option.some.inj hexit.2 ▸ hparent
  | deliver =>
    simp only [step, Option.ite_none_right_eq_some] at h
    exact Option.some.inj h.2 ▸ hparent
  | waitpid k =>
    simp only [step, Option.ite_none_right_eq_some, Option.map_eq_some_iff] at h
    obtain ⟨-, r, -, rfl⟩ := h
    exact hparent
  | ret =>
    simp only [step, Option.ite_none_right_eq_some] at h
    exact Option.some.inj h.2 ▸ hparent

/-! ## Where nothing moves -/

/-- There is always a pid that no process has. -/
theorem exists_pid (children : List Child) : ∃ pid : ℤ, 0 < pid ∧ ∀ c ∈ children, c.pid ≠ pid := by
  obtain ⟨n, hn⟩ := exists_fresh (0 :: children.map fun c => c.pid.toNat)
  rw [List.mem_cons, not_or] at hn
  refine ⟨n, by omega, fun c hc hpid => hn.2 ?_⟩
  exact List.mem_map.mpr ⟨c, hc, by rw [hpid, Int.toNat_natCast]⟩

/-- While the handler runs it can go on. -/
theorem handler_of_stuck (hstuck : Stuck (only Uncalled ForkServer.step) s) :
    s.handler = .inactive := by
  rw [stuck_only] at hstuck
  cases hhandler : s.handler with
  | inactive => rfl
  | returning =>
    have hret := hstuck .ret trivial
    rw [step_ret hhandler] at hret
    cases hret
  | waiting =>
    by_cases hzombie : ∃ c ∈ s.children, c.pc = .zombie
    · obtain ⟨c, hc, hpc⟩ := hzombie
      obtain ⟨k, hk⟩ := List.mem_iff_getElem?.mp hc
      have hwait := hstuck (.waitpid k) trivial
      rw [step_waitpid_reap hhandler hk hpc] at hwait
      cases hwait
    · have hwait := hstuck (.waitpid 0) trivial
      rw [step_waitpid_none hhandler fun c hc hpc => hzombie ⟨c, hc, hpc⟩] at hwait
      cases hwait

/-- What the parent has begun it can bring to its end. -/
theorem parent_of_stuck (h : Separate s) (hstuck : Stuck (only Uncalled ForkServer.step) s) :
    s.parent = .accepting := by
  have hhandler := handler_of_stuck hstuck
  rw [stuck_only] at hstuck
  cases hparent : s.parent with
  | accepting => rfl
  | forking connfd =>
    obtain ⟨pid, hpos, hfree⟩ := exists_pid s.children
    have hfork := hstuck (.fork pid) trivial
    have hpid : 0 < pid ∧ ∀ c ∈ s.children, c.pid = pid → c.pc = .reaped :=
      ⟨hpos, fun c hc heq => absurd heq (hfree c hc)⟩
    simp only [step, stepParent, hhandler, hparent, if_true, dif_pos hpid] at hfork
    cases hfork
  | closing connfd =>
    have hclose := hstuck .close trivial
    have hholds := h.parent
    rw [hparent] at hholds
    have hopen : connfd ∈ s.descriptors := hholds.1 ▸ List.mem_cons_self
    simp [step, stepParent, hhandler, hparent, hopen] at hclose

/-- The server is at rest. -/
theorem reaped_of_stuck (h : Separate s) (hnoticed : Noticed s)
    (hstuck : Stuck (only Uncalled ForkServer.step) s) :
    s.pending = false ∧ ∀ c ∈ s.children, c.pc = .reaped ∧ c.descriptors = [] := by
  have hhandler := handler_of_stuck hstuck
  rw [stuck_only] at hstuck
  have hpending : s.pending = false := by
    by_contra hset
    have hdeliver := hstuck .deliver trivial
    rw [Bool.not_eq_false] at hset
    simp [step, hset, hhandler] at hdeliver
  have hnone := hnoticed.no_zombie hpending (by simp [hhandler])
  refine ⟨hpending, fun c hc => ?_⟩
  have hreaped : c.pc = .reaped := by
    cases hrunning : c.pc.running with
    | true =>
      obtain ⟨k, hk⟩ := List.mem_iff_getElem?.mp hc
      have hexit := hstuck (.exit k) trivial
      simp [step, hk, hrunning] at hexit
    | false =>
      have hzombie := hnone c hc
      cases hpc : c.pc with
      | zombie => exact absurd hpc hzombie
      | reaped => rfl
      | closingListen connfd => simp [hpc, ChildPc.running] at hrunning
      | echoing connfd => simp [hpc, ChildPc.running] at hrunning
      | closingConn connfd => simp [hpc, ChildPc.running] at hrunning
      | exiting => simp [hpc, ChildPc.running] at hrunning
  refine ⟨hreaped, ?_⟩
  have hholds := h.child c hc
  rw [hreaped] at hholds
  exact hholds

/-! ## The main theorem -/

/-- The connections that a run has accepted. -/
def accepts (as : List ForkServer.Action) : ℕ := as.countP fun a => ¬ Uncalled a

theorem parent_of_accept {connfd : ℤ} (h : s.step (.accept connfd) = some t) :
    s.parent = .accepting ∧ t.parent = .forking connfd ∧ t.children = s.children := by
  simp only [step, Option.ite_none_right_eq_some] at h
  cases hparent : s.parent with
  | accepting =>
    simp only [stepParent, hparent, Option.ite_none_left_eq_some] at h
    obtain ⟨-, -, ht⟩ := h
    obtain rfl := Option.some.inj ht
    exact ⟨rfl, rfl, rfl⟩
  | forking connfd => simp [stepParent, hparent] at h
  | closing connfd => simp [stepParent, hparent] at h

/-- Every connection that was accepted has a child, or is the next to get one. -/
theorem connections_of_run {listenfd : ℤ} {as : List ForkServer.Action}
    (h : run ForkServer.step (start listenfd) as = some s) : connections s = accepts as := by
  refine run_induction (I := fun as s => connections s = accepts as) rfl ?_ h
  intro as t a u _ ht ha
  have hsame : Uncalled a → connections u = connections t :=
    fun hcalled => (reapingLeft_step (effect_of_step ha) (accepting_of_step hcalled ha)).2
  rw [accepts, List.countP_append, List.countP_singleton, ← accepts, ← ht]
  cases a with
  | accept connfd =>
    obtain ⟨hparent, hforking, hchildren⟩ := parent_of_accept ha
    simp only [connections, hparent, hforking, hchildren, unforked]
    rfl
  | fork pid => exact hsame trivial
  | close => exact hsame trivial
  | child k => exact hsame trivial
  | exit k => exact hsame trivial
  | deliver => exact hsame trivial
  | waitpid k => exact hsame trivial
  | ret => exact hsame trivial

/-- Two children have exited under one signal, and the third is not forked yet. -/
def threeCalls : List ForkServer.Action :=
  [.accept 4, .fork 10, .close, .accept 4, .fork 11, .close, .exit 0, .exit 1, .accept 4]

end GolangSandbox.Analysis
