import GolangSandbox.Interface.Pieces
import GolangSandbox.Model.Termination
import GolangSandbox.Program.SelectEcho
import Mathlib.Data.Fintype.EquivFin

/-!
# The commands of the terminal

What `command` prints are the pieces of what was typed, one after the other, however the bytes
come in and whatever the connections do in between: a piece that the buffer has does not
change by what is typed later, and at the end of the terminal the rest is the last piece
(`Told`). So at its exit the process has printed all of them.

When nothing is typed any more and no client comes, `main` comes to its exit if the terminal
is at its end. If it is not, `main` comes to `Select` with nothing ready, or to an `Fgets`
that waits for the rest of a line. At `Select` there may be whole lines in the buffer, which
`Select` does not know.
-/

set_option autoImplicit false

namespace GolangSandbox.Analysis

open GolangSandbox.Model GolangSandbox.Program GolangSandbox.Interface
open GolangSandbox.Program.SelectEcho

variable {s t : SelectEcho} {a : SelectEcho.Action} {listenfd : ℤ} {x : Bytes}

/-- A line that the buffer has does not depend on what comes behind it. -/
theorem firstLine_append (h : HasLine x) (rest : Bytes) : firstLine (x ++ rest) = firstLine x := by
  by_cases hx : newline ∈ x
  · have hidx := List.idxOf_lt_length_iff.mpr hx
    rw [firstLine, firstLine, List.idxOf_append_of_mem hx, List.take_append_of_le_length hidx]
  · have hlength := h.resolve_left hx
    have hself : firstLine (x ++ []) = x.take (MAXLINE - 1) := firstLine_long hx hlength
    rw [List.append_nil] at hself
    rw [firstLine_long hx hlength, hself]

/-- The descriptors that are open: at most one connection at a time. -/
def Opened (listenfd : ℤ) : SelectPc → List ℤ → Prop
  | .echoing connfd, descriptors | .closing connfd, descriptors =>
    descriptors = [connfd, 0, listenfd]
  | .selecting, descriptors | .reading _, descriptors | .accepting, descriptors
  | .exited, descriptors => descriptors = [0, listenfd]

/-- The invariant. What is typed later is `x`. -/
structure Told (listenfd : ℤ) (s : SelectEcho) : Prop where
  lines : ∃ lines, s.printed = lines.flatMap cstring ∧ ∀ x, (s.ended = true → x = []) →
    pieces (s.typed ++ x) = lines ++ pieces (s.stdin ++ s.terminal ++ x)
  exited : s.pc = .exited → s.ended = true ∧ s.stdin = [] ∧ s.terminal = []
  waiting : s.pc = .reading true ∨ s.pc = .accepting → 0 < s.waiting
  opened : Opened listenfd s.pc s.descriptors

theorem told_start (listenfd : ℤ) : Told listenfd (start listenfd) where
  lines := ⟨[], rfl, fun _ _ => rfl⟩
  exited h := by cases h
  waiting h := by simp [start] at h
  opened := rfl

/-- What the buffer has as the first line is the first piece of what is to be read. -/
theorem pieces_stdin (hstdin : s.stdin ≠ [])
    (hline : HasLine s.stdin ∨ s.terminal = [] ∧ s.ended = true)
    (hx : s.ended = true → x = []) :
    pieces (s.stdin ++ s.terminal ++ x) = firstLine s.stdin ::
      pieces (s.stdin.drop (firstLine s.stdin).length ++ s.terminal ++ x) := by
  have hle := (firstLine_begins s.stdin).length_le
  rw [List.append_assoc, pieces_of_ne_nil (List.append_ne_nil_of_left_ne_nil hstdin _)]
  obtain hline | ⟨hterminal, hended⟩ := hline
  · rw [firstLine_append hline, List.drop_append_of_le_length hle, List.append_assoc]
  · rw [hterminal, hx hended, List.append_nil, List.append_nil, List.append_nil, List.append_nil]

/-- **The step lemma.** -/
theorem Told.step (h : Told listenfd s) (he : Effect s a t) : Told listenfd t := by
  obtain ⟨lines, hprinted, hpieces⟩ := h.lines
  have hopened := h.opened
  cases he with
  | @enter bytes hended =>
    refine ⟨⟨lines, hprinted, fun x _ => ?_⟩, fun hpc => ?_, h.waiting, hopened⟩
    · have hall := hpieces (bytes ++ x) (by simp [hended])
      rw [← List.append_assoc, ← List.append_assoc] at hall
      rw [hall]
      simp only [List.append_assoc]
    · rw [(h.exited hpc).1] at hended
      cases hended
  | finish =>
    refine ⟨⟨lines, hprinted, fun x hx => hpieces x fun _ => hx rfl⟩, fun hpc => ?_, h.waiting,
      hopened⟩
    exact ⟨rfl, (h.exited hpc).2⟩
  | connect => exact ⟨⟨lines, hprinted, hpieces⟩, h.exited, fun _ => Nat.succ_pos _, hopened⟩
  | ready hpc hready =>
    rw [hpc] at hopened
    exact ⟨⟨lines, hprinted, hpieces⟩, by simp, by simp, hopened⟩
  | called hpc hwaiting =>
    rw [hpc] at hopened
    exact ⟨⟨lines, hprinted, hpieces⟩, by simp, fun _ => hwaiting, hopened⟩
  | @refill n listening hpc hn hle hline =>
    refine ⟨⟨lines, hprinted, fun x hx => ?_⟩, fun hexited => ?_, h.waiting, hopened⟩
    · have hsame : s.stdin ++ s.terminal.take n ++ s.terminal.drop n = s.stdin ++ s.terminal := by
        rw [List.append_assoc, List.take_append_drop]
      rw [hpieces x hx, ← hsame]
    · rw [hpc] at hexited
      cases hexited
  | exit hpc hterminal hended hstdin =>
    rw [hpc] at hopened
    exact ⟨⟨lines, hprinted, hpieces⟩, fun _ => ⟨hended, hstdin, hterminal⟩, by simp, hopened⟩
  | @command listening hpc hstdin hline =>
    rw [hpc] at hopened
    refine ⟨⟨lines ++ [firstLine s.stdin], ?_, fun x hx => ?_⟩, fun hexited => ?_, fun hnext => ?_,
      ?_⟩
    · rw [List.flatMap_append, List.flatMap_singleton, ← hprinted]
    · rw [hpieces x hx, pieces_stdin hstdin hline hx]
      exact List.append_cons ..
    · cases listening with
      | true => cases hexited
      | false => cases hexited
    · cases listening with
      | true => exact h.waiting (.inl hpc)
      | false => simp [behind] at hnext
    · cases listening with
      | true => exact hopened
      | false => exact hopened
  | @accept connfd hpc hwaiting hfd =>
    rw [hpc] at hopened
    have hbefore : s.descriptors = [0, listenfd] := hopened
    refine ⟨⟨lines, hprinted, hpieces⟩, by simp, by simp, ?_⟩
    show connfd :: s.descriptors = _
    rw [hbefore]
  | echo hpc =>
    rw [hpc] at hopened
    exact ⟨⟨lines, hprinted, hpieces⟩, by simp, by simp, hopened⟩
  | @close connfd hpc hfd =>
    rw [hpc] at hopened
    have hbefore : s.descriptors = [connfd, 0, listenfd] := hopened
    refine ⟨⟨lines, hprinted, hpieces⟩, by simp, by simp, ?_⟩
    show s.descriptors.erase connfd = _
    rw [hbefore, List.erase_cons_head]

/-! ## Coming to rest -/

/-- The action is a step of `main`. -/
def ByMain : SelectEcho.Action → Prop
  | .enter _ | .finish | .connect => False
  | .select | .refill _ | .command | .accept _ | .echo | .close => True

instance : DecidablePred ByMain
  | .enter _ | .finish | .connect => isFalse id
  | .select | .refill _ | .command | .accept _ | .echo | .close => isTrue trivial

/-- The steps of `main` until it has been at `Select` again. -/
def pcLeft : SelectPc → ℕ
  | .echoing _ => 7
  | .closing _ => 6
  | .selecting => 5
  | .reading _ => 4
  | .accepting => 3
  | .exited => 0

/-- What is left to do: a byte is taken in and printed, and a client is served. -/
def commandsLeft (s : SelectEcho) : ℕ :=
  3 * s.terminal.length + 2 * s.stdin.length + 10 * s.waiting + pcLeft s.pc

/-- Every step of `main` lowers what is left, and types nothing. -/
theorem commandsLeft_step (ha : ByMain a) (he : Effect s a t) :
    commandsLeft t < commandsLeft s ∧ t.typed = s.typed ∧ t.ended = s.ended := by
  refine ⟨?_, ?_⟩
  · cases he with
    | enter hended => exact ha.elim
    | finish => exact ha.elim
    | connect => exact ha.elim
    | ready hpc hready =>
      simp only [commandsLeft, hpc, pcLeft]
      omega
    | called hpc hwaiting =>
      simp only [commandsLeft, hpc, pcLeft]
      omega
    | refill hpc hn hle hline =>
      simp only [commandsLeft, List.length_append, List.length_take, List.length_drop]
      omega
    | exit hpc hterminal hended hstdin =>
      simp only [commandsLeft, hpc, pcLeft]
      omega
    | @command listening hpc hstdin hline =>
      have hshorter := length_drop_firstLine hstdin
      have hbehind : pcLeft (behind listening) ≤ 5 := by cases listening <;> decide
      have hbefore : pcLeft s.pc = 4 := by rw [hpc, pcLeft]
      simp only [commandsLeft]
      omega
    | accept hpc hwaiting hfd =>
      simp only [commandsLeft, hpc, pcLeft]
      omega
    | echo hpc =>
      simp only [commandsLeft, hpc, pcLeft]
      omega
    | close hpc hfd =>
      simp only [commandsLeft, hpc, pcLeft]
      omega
  · cases he with
    | enter hended => exact ha.elim
    | finish => exact ha.elim
    | connect => exact ha.elim
    | ready hpc hready => exact ⟨rfl, rfl⟩
    | called hpc hwaiting => exact ⟨rfl, rfl⟩
    | refill hpc hn hle hline => exact ⟨rfl, rfl⟩
    | exit hpc hterminal hended hstdin => exact ⟨rfl, rfl⟩
    | command hpc hstdin hline => exact ⟨rfl, rfl⟩
    | accept hpc hwaiting hfd => exact ⟨rfl, rfl⟩
    | echo hpc => exact ⟨rfl, rfl⟩
    | close hpc hfd => exact ⟨rfl, rfl⟩

/-- `main` waits: for something at `Select`, or for the rest of a line. -/
def AtEase (s : SelectEcho) : Prop :=
  s.terminal = [] ∧ (s.pc = .selecting ∧ s.waiting = 0 ∨
    (∃ listening, s.pc = .reading listening) ∧ ¬ HasLine s.stdin)

/-- Where `main` does not go on. -/
theorem Told.atEase_of_stuck (h : Told listenfd s)
    (hstuck : Stuck (only ByMain SelectEcho.step) s) :
    s.pc = .exited ∨ s.ended = false ∧ AtEase s := by
  rw [stuck_only] at hstuck
  cases hpc : s.pc with
  | selecting =>
    have hselect := hstuck .select trivial
    simp only [SelectEcho.step, stepMain, hpc, select] at hselect
    split at hselect
    · cases hselect
    · rename_i hready
      rw [not_or, not_not, Bool.not_eq_true] at hready
      split at hselect
      · cases hselect
      · rename_i hwaiting
        exact .inr ⟨hready.2, hready.1, .inl ⟨hpc, Nat.eq_zero_of_not_pos hwaiting⟩⟩
  | reading listening =>
    have hcommand := hstuck .command trivial
    simp only [SelectEcho.step, stepMain, hpc, command] at hcommand
    split at hcommand
    · split at hcommand
      · cases hcommand
      · cases hcommand
    · rename_i hline
      rw [not_or, not_and] at hline
      have hterminal : s.terminal = [] := by
        by_contra hmore
        have hrefill := hstuck (.refill s.terminal.length) trivial
        have hpos := List.length_pos_iff.mpr hmore
        simp [SelectEcho.step, stepMain, hpc, refill, hline.1, hpos] at hrefill
      exact .inr ⟨Bool.not_eq_true _ ▸ hline.2 hterminal, hterminal, .inr ⟨⟨_, hpc⟩, hline.1⟩⟩
  | accepting =>
    obtain ⟨connfd, hfd⟩ := Infinite.exists_notMem_finset s.descriptors.toFinset
    rw [List.mem_toFinset] at hfd
    have haccept := hstuck (.accept connfd) trivial
    simp [SelectEcho.step, stepMain, hpc, accept, h.waiting (.inr hpc), hfd] at haccept
  | echoing connfd =>
    have hecho := hstuck .echo trivial
    simp [SelectEcho.step, stepMain, hpc] at hecho
  | closing connfd =>
    have hopened := h.opened
    rw [hpc] at hopened
    have hfd : connfd ∈ s.descriptors := by
      have hdescriptors : s.descriptors = [connfd, 0, listenfd] := hopened
      rw [hdescriptors]
      exact List.mem_cons_self
    have hclose := hstuck .close trivial
    simp [SelectEcho.step, stepMain, hpc, close, hfd] at hclose
  | exited => exact .inl rfl

/-! ## The main theorem -/

/-- Printing the pieces of a text without a NUL prints the text. -/
theorem flatMap_cstring {lines : List Bytes} (h : nul ∉ lines.flatten) :
    lines.flatMap cstring = lines.flatten := by
  induction lines with
  | nil => rfl
  | cons line lines ih =>
    rw [List.flatten_cons, List.mem_append, not_or] at h
    rw [List.flatMap_cons, List.flatten_cons, cstring_eq_self h.1, ih h.2]

/-- What was printed, at any time. -/
theorem Told.printed (h : Told listenfd s) :
    s.printed <+: (pieces s.typed).flatMap cstring ∧
      (s.pc = .exited → s.printed = (pieces s.typed).flatMap cstring) ∧
      (nul ∉ s.typed → s.printed ++ s.stdin ++ s.terminal = s.typed) := by
  obtain ⟨lines, hprinted, hpieces⟩ := h.lines
  have hall := hpieces [] fun _ => rfl
  rw [List.append_nil, List.append_nil] at hall
  refine ⟨?_, fun hexited => ?_, fun hnul => ?_⟩
  · rw [hall, List.flatMap_append, hprinted]
    exact List.prefix_append _ _
  · obtain ⟨-, hstdin, hterminal⟩ := h.exited hexited
    rw [hall, hstdin, hterminal, List.append_nil, pieces_nil, List.append_nil, hprinted]
  · have hflatten := congrArg List.flatten hall
    rw [flatten_pieces, List.flatten_append, flatten_pieces] at hflatten
    have hlines : nul ∉ lines.flatten := by
      intro hmem
      exact hnul (hflatten ▸ List.mem_append_left _ hmem)
    rw [hprinted, flatMap_cstring hlines, List.append_assoc, hflatten]

theorem told_of_run {as : List SelectEcho.Action}
    (h : run SelectEcho.step (start listenfd) as = some s) : Told listenfd s :=
  run_invariant (told_start listenfd) (fun _ _ _ hs ha => hs.step (effect_of_step ha)) h

/-- **Every command is printed.** In every run, however the bytes come in and whatever clients
connect, what was printed are the first pieces of what was typed, each up to its first NUL, and
all of them when the process has exited; without a NUL nothing is missing that is not still in
the terminal or in the buffer. At most one connection is open at a time. And from every state
that a run reaches, every schedule in which nothing is typed and nobody connects ends: with the
exit if the terminal is at its end, and else where `main` waits at `Select` or for the rest of
a line.
SOURCE: csapp/echo/echo3.c:23-48 -/
theorem commands_printed (listenfd : ℤ) (as : List SelectEcho.Action) (s : SelectEcho)
    (h : run SelectEcho.step (start listenfd) as = some s) :
    s.printed <+: (pieces s.typed).flatMap cstring ∧
      (nul ∉ s.typed → s.printed ++ s.stdin ++ s.terminal = s.typed) ∧
      Opened listenfd s.pc s.descriptors ∧
      Completes (only ByMain SelectEcho.step)
        (fun t => t.typed = s.typed ∧
          (s.ended = true → t.pc = .exited ∧ t.printed = (pieces s.typed).flatMap cstring) ∧
          (s.ended = false → AtEase t)) s := by
  have hs := told_of_run h
  refine ⟨hs.printed.1, hs.printed.2.2, hs.opened, ?_⟩
  refine completes_of_measure
    (I := fun t => Told listenfd t ∧ t.typed = s.typed ∧ t.ended = s.ended)
    (μ := commandsLeft) ?_ ?_ ⟨hs, rfl, rfl⟩
  · rintro t a u ⟨ht, htyped, hended⟩ ha
    obtain ⟨hmain, hstep⟩ := only_eq_some.mp ha
    have he := effect_of_step hstep
    obtain ⟨hlt, hsame⟩ := commandsLeft_step hmain he
    exact ⟨⟨ht.step he, hsame.1.trans htyped, hsame.2.trans hended⟩, hlt⟩
  · rintro t ⟨ht, htyped, hended⟩ hstuck
    refine ⟨htyped, fun hfinished => ?_, fun hmore => ?_⟩
    · obtain hexited | ⟨hopen, -⟩ := ht.atEase_of_stuck hstuck
      · exact ⟨hexited, htyped ▸ ht.printed.2.1 hexited⟩
      · rw [hended, hfinished] at hopen
        cases hopen
    · obtain hexited | ⟨-, hease⟩ := ht.atEase_of_stuck hstuck
      · rw [hended.symm.trans (ht.exited hexited).1] at hmore
        cases hmore
      · exact hease

/-- Two lines come in at once. The first is printed, and the second waits in the buffer, where
`Select` does not see it. -/
def twoLines : List SelectEcho.Action :=
  [.enter [97, 10, 98, 10], .connect, .select, .refill 4, .command, .accept 4, .echo, .close]

theorem commands_printed_two :
    ∃ s, run SelectEcho.step (start 3) twoLines = some s ∧
      s.printed = [97, 10] ∧ s.stdin = [98, 10] ∧ HasLine s.stdin ∧ AtEase s ∧
      s.printed ++ s.stdin ++ s.terminal = s.typed := by
  refine ⟨_, rfl, rfl, rfl, by decide, ⟨rfl, .inl ⟨rfl, rfl⟩⟩, ?_⟩
  exact (commands_printed 3 twoLines _ rfl).2.1 (by decide)

end GolangSandbox.Analysis
