import GolangSandbox.Program.EpollServer
import Mathlib.Data.List.Induction

/-!
# One buffer for all clients

A message is written over the front of the buffer, and what earlier messages have left behind
it stays. So the buffer is at any time the messages laid over one another, the last one on top,
and NULs behind them (`Layered`): its text has the length of the longest message, and it is the
last message only if no earlier one is longer. If the longest message fills the buffer, no NUL
is left to end the text.
-/

set_option autoImplicit false

namespace GolangSandbox.Analysis

open GolangSandbox.Model GolangSandbox.Program GolangSandbox.Program.EpollServer

variable {s t : EpollServer} {messages : List Bytes} {message front : Bytes} {fd : ℤ}
  {events : List ℤ} {as : List EpollServer.Action}

/-! ## Messages laid over one another -/

/-- The messages written over each other at the same place. -/
def overlay (messages : List Bytes) : Bytes :=
  messages.foldl (fun front message => message ++ front.drop message.length) []

theorem overlay_concat (messages : List Bytes) (message : Bytes) :
    overlay (messages ++ [message]) = message ++ (overlay messages).drop message.length := by
  rw [overlay, List.foldl_append]
  rfl

/-- The overlay is as long as the longest message. -/
theorem length_overlay_le_iff (n : ℕ) :
    (overlay messages).length ≤ n ↔ ∀ message ∈ messages, message.length ≤ n := by
  induction messages using List.reverseRecOn with
  | nil => exact iff_of_true (Nat.zero_le n) nofun
  | append_singleton messages message ih =>
    rw [overlay_concat, List.length_append, List.length_drop, List.forall_mem_append, ← ih,
      List.forall_mem_singleton]
    omega

theorem nul_notMem_overlay (h : ∀ message ∈ messages, nul ∉ message) : nul ∉ overlay messages := by
  induction messages using List.reverseRecOn with
  | nil => exact List.not_mem_nil
  | append_singleton messages message ih =>
    rw [List.forall_mem_append, List.forall_mem_singleton] at h
    rw [overlay_concat, List.mem_append]
    rintro (hmem | hmem)
    · exact h.2 hmem
    · exact ih h.1 (List.mem_of_mem_drop hmem)

/-- Only the last message can be seen if and only if no earlier one is longer. -/
theorem overlay_concat_eq_iff : overlay (messages ++ [message]) = message ↔
    ∀ earlier ∈ messages, earlier.length ≤ message.length := by
  rw [overlay_concat, List.append_right_eq_self, List.drop_eq_nil_iff, length_overlay_le_iff]

/-! ## What the buffer holds -/

/-- The messages read so far. -/
def texts (s : EpollServer) : List Bytes := s.received.map Prod.snd

/-- The buffer holds the messages laid over one another, and NULs behind them. -/
structure Layered (s : EpollServer) : Prop where
  length : (overlay (texts s)).length ≤ bufferSize
  buffer : s.buffer =
    overlay (texts s) ++ List.replicate (bufferSize - (overlay (texts s)).length) nul

theorem layered_start (server_fd : ℤ) : Layered (start server_fd) := ⟨Nat.zero_le _, rfl⟩

/-- What the string in the buffer is. -/
theorem formatString_replicate (hfront : nul ∉ front) (n : ℕ) :
    formatString (front ++ List.replicate n nul) = if 0 < n then some front else none := by
  cases n with
  | zero =>
    rw [List.replicate_zero, List.append_nil, formatString, if_neg hfront]
    rfl
  | succ n =>
    have hnul : nul ∈ front ++ List.replicate (n + 1) nul :=
      List.mem_append_right _ (List.mem_replicate.mpr ⟨Nat.succ_ne_zero n, rfl⟩)
    have hall : ∀ c ∈ front, (c != nul) = true := by
      intro c hc
      rw [bne_iff_ne]
      rintro rfl
      exact hfront hc
    rw [formatString, if_pos hnul, if_pos (Nat.succ_pos n), cstring,
      List.takeWhile_append_of_pos hall, List.replicate_succ,
      List.takeWhile_cons_of_neg (by decide), List.append_nil]

/-- What the connection leaves in the buffer. -/
theorem Layered.read (h : Layered s) (hlength : message.length ≤ bufferSize) :
    (overlay (texts s ++ [message])).length ≤ bufferSize ∧
      message ++ s.buffer.drop message.length = overlay (texts s ++ [message]) ++
        List.replicate (bufferSize - (overlay (texts s ++ [message])).length) nul := by
  have hle := h.length
  have hcount : bufferSize - (overlay (texts s)).length -
      (message.length - (overlay (texts s)).length) =
      bufferSize - (message.length + ((overlay (texts s)).length - message.length)) := by omega
  rw [overlay_concat, h.buffer, List.drop_append, List.drop_replicate, List.length_append,
    List.length_drop, hcount, List.append_assoc]
  exact ⟨by omega, rfl⟩

theorem texts_concat (received : List (ℤ × Bytes)) :
    (received ++ [(fd, message)]).map Prod.snd = received.map Prod.snd ++ [message] := by
  rw [List.map_append, List.map_singleton]

/-- The message just read is on top. -/
theorem Layered.received (h : Layered s) (hlength : message.length ≤ bufferSize)
    (htexts : texts t = texts s ++ [message])
    (hbuffer : t.buffer = message ++ s.buffer.drop message.length) : Layered t := by
  obtain ⟨hfits, hread⟩ := h.read hlength
  constructor
  · rw [htexts]
    exact hfits
  · rw [htexts, hbuffer]
    exact hread

theorem layered_of_effect (h : Layered s) (ha : Effect s t) : Layered t := by
  cases ha with
  | wait hpc hnodup hlength hevents => exact ⟨h.length, h.buffer⟩
  | accept hpc hfd => exact ⟨h.length, h.buffer⟩
  | serve hpc hfd hlength hprint => exact h.received hlength (texts_concat s.received) rfl
  | overrun hpc hfd hlength hprint => exact h.received hlength (texts_concat s.received) rfl

/-! ## What is printed -/

/-- Every text printed is the message just read, and no print goes past the buffer. -/
structure PrintedExactly (s : EpollServer) : Prop where
  defined : s.pc ≠ .undefined
  printed : s.printed = (texts s).map messageLine

/-- Every message is at least as long as the earlier ones and leaves room for a NUL. -/
structure Growing (messages : List Bytes) : Prop where
  longer : messages.Pairwise fun earlier later => earlier.length ≤ later.length
  room : ∀ message ∈ messages, message.length < bufferSize

/-- There is room for a NUL if and only if the overlay leaves some. -/
theorem length_overlay_lt_iff : (overlay messages).length < bufferSize ↔
    ∀ message ∈ messages, message.length < bufferSize := by
  have hle : (overlay messages).length ≤ 1023 ↔ ∀ m ∈ messages, m.length ≤ 1023 :=
    length_overlay_le_iff 1023
  constructor
  · intro hlt message hmem
    exact Nat.lt_succ_of_le (hle.mp (Nat.le_of_lt_succ hlt) message hmem)
  · intro hroom
    exact Nat.lt_succ_of_le (hle.mpr fun message hmem => Nat.le_of_lt_succ (hroom message hmem))

/-- Another message may follow if it is seen alone, and leaves room. -/
theorem growing_concat : Growing (messages ++ [message]) ↔
    Growing messages ∧ overlay (messages ++ [message]) = message ∧
      (overlay (messages ++ [message])).length < bufferSize := by
  rw [overlay_concat_eq_iff, length_overlay_lt_iff]
  constructor
  · rintro ⟨hlonger, hroom⟩
    obtain ⟨hbefore, -, hlast⟩ := List.pairwise_append.mp hlonger
    refine ⟨⟨hbefore, fun m hm => hroom m (List.mem_append_left _ hm)⟩, ?_, hroom⟩
    exact fun earlier hearlier => hlast earlier hearlier message (List.mem_singleton_self _)
  · rintro ⟨hbefore, hlast, hroom⟩
    refine ⟨List.pairwise_append.mpr ⟨hbefore.longer, List.pairwise_singleton _ _, ?_⟩, hroom⟩
    intro earlier hearlier m hm
    exact List.mem_singleton.mp hm ▸ hlast earlier hearlier

theorem messageLine_injective : Function.Injective messageLine := by
  intro m m' h
  exact List.append_cancel_left (List.append_cancel_right h)

/-- What is printed is the overlay, if it leaves room. -/
theorem Layered.formatString_eq (h : Layered s) (hlength : message.length ≤ bufferSize)
    (hnul : ∀ m ∈ texts s ++ [message], nul ∉ m) :
    formatString (message ++ s.buffer.drop message.length) =
      if (overlay (texts s ++ [message])).length < bufferSize then
        some (overlay (texts s ++ [message]))
      else none := by
  rw [(h.read hlength).2, formatString_replicate (nul_notMem_overlay hnul)]
  simp only [Nat.sub_pos_iff_lt]

/-- Without a NUL in the messages, the texts printed are right as long as the messages grow. -/
def Decided (s : EpollServer) : Prop :=
  (∀ m ∈ texts s, nul ∉ m) → (PrintedExactly s ↔ Growing (texts s))

/-- Nothing is read. -/
theorem Decided.same (h : Decided s) (hs : s.pc ≠ .undefined) (ht : t.pc ≠ .undefined)
    (hreceived : t.received = s.received) (hprinted : t.printed = s.printed) : Decided t := by
  have htexts : texts t = texts s := by rw [texts, texts, hreceived]
  intro hnul
  rw [htexts] at hnul ⊢
  rw [← h hnul]
  constructor
  · rintro ⟨-, hexact⟩
    exact ⟨hs, by rw [← hprinted, hexact, htexts]⟩
  · rintro ⟨-, hexact⟩
    exact ⟨ht, by rw [hprinted, hexact, htexts]⟩

/-- A message is read, and what is printed is the overlay. -/
theorem Decided.print (h : Decided s) (hs : s.pc ≠ .undefined) (ht : t.pc ≠ .undefined)
    (htexts : texts t = texts s ++ [message])
    (hroom : (overlay (texts s ++ [message])).length < bufferSize)
    (hprinted : t.printed = s.printed ++ [messageLine (overlay (texts s ++ [message]))]) :
    Decided t := by
  intro hnul
  rw [htexts] at hnul ⊢
  rw [growing_concat, ← h fun m hm => hnul m (List.mem_append_left _ hm)]
  constructor
  · rintro ⟨-, hexact⟩
    rw [hprinted, htexts, List.map_append, List.map_singleton] at hexact
    obtain ⟨hbefore, hlast⟩ := List.append_inj' hexact rfl
    exact ⟨⟨hs, hbefore⟩, messageLine_injective (List.singleton_inj.mp hlast), hroom⟩
  · rintro ⟨⟨-, hbefore⟩, hlast, -⟩
    refine ⟨ht, ?_⟩
    rw [hprinted, htexts, List.map_append, List.map_singleton, hbefore, hlast]

/-- A message is read, and no room is left. -/
theorem decided_of_overrun (ht : t.pc = .undefined) (htexts : texts t = texts s ++ [message])
    (hroom : ¬ (overlay (texts s ++ [message])).length < bufferSize) : Decided t := by
  intro _
  rw [htexts, growing_concat]
  exact iff_of_false (fun h => h.defined ht) fun h => hroom h.2.2

theorem decided_of_effect (hlayered : Layered s) (h : Decided s) (ha : Effect s t) :
    (∀ m ∈ texts t, nul ∉ m) → (PrintedExactly t ↔ Growing (texts t)) := by
  intro hnul
  have hdefined : ∀ events, s.pc = .handling events → s.pc ≠ .undefined := by
    intro events hpc hundefined
    rw [hpc] at hundefined
    cases hundefined
  cases ha with
  | wait hpc hnodup hlength hevents => exact h.same (hdefined _ hpc) nofun rfl rfl hnul
  | accept hpc hfd => exact h.same (hdefined _ hpc) nofun rfl rfl hnul
  | @serve fd events message printed hpc hfd hlength hprint =>
    have hnul' : ∀ m ∈ texts s ++ [message], nul ∉ m := texts_concat s.received ▸ hnul
    rw [hlayered.formatString_eq hlength hnul', Option.ite_none_right_eq_some] at hprint
    obtain ⟨hroom, hoverlay⟩ := hprint
    refine h.print (hdefined _ hpc) nofun (texts_concat s.received) hroom ?_ hnul
    rw [Option.some.inj hoverlay]
  | @overrun fd events message hpc hfd hlength hprint =>
    have hnul' : ∀ m ∈ texts s ++ [message], nul ∉ m := texts_concat s.received ▸ hnul
    rw [hlayered.formatString_eq hlength hnul', ite_eq_right_iff] at hprint
    exact decided_of_overrun rfl (texts_concat s.received)
      (fun hroom => Option.some_ne_none _ (hprint hroom)) hnul

/-- **Texts that are printed exactly.** In every run whose messages have no NUL, every text
printed is the message just read, and no print goes past the buffer, if and only if every
message is at least as long as all before it, of whatever client, and shorter than the buffer.
SOURCE: socket_program/linux/server.c:15-19, socket_program/linux/server.c:35-51 -/
theorem printed_exactly_iff {server_fd : ℤ}
    (hrun : run EpollServer.step (start server_fd) as = some s)
    (hnul : ∀ m ∈ texts s, nul ∉ m) : PrintedExactly s ↔ Growing (texts s) := by
  have h : Layered s ∧ Decided s := by
    refine run_invariant (I := fun s => Layered s ∧ Decided s) ?_ ?_ hrun
    · refine ⟨layered_start server_fd, fun _ => ?_⟩
      exact iff_of_true ⟨nofun, rfl⟩ ⟨List.Pairwise.nil, nofun⟩
    · rintro s a t ⟨hlayered, hdecided⟩ ha
      have heffect := effect_of_step ha
      exact ⟨layered_of_effect hlayered heffect, decided_of_effect hlayered hdecided heffect⟩
  exact h.2 hnul

/-- Two clients connect one after the other, and each sends a message. -/
def twoClients (first second : Bytes) : List EpollServer.Action :=
  [.wait [3], .accept 5, .wait [5], .read first, .wait [3], .accept 5, .wait [5], .read second]

theorem printed_exactly_longer : ∃ s,
    run EpollServer.step (start 3) (twoClients (text "hi") (text "hello")) = some s ∧
      texts s = [text "hi", text "hello"] ∧ PrintedExactly s := by
  obtain ⟨s, hrun, htexts⟩ : ∃ s,
      run EpollServer.step (start 3) (twoClients (text "hi") (text "hello")) = some s ∧
        texts s = [text "hi", text "hello"] := ⟨_, rfl, rfl⟩
  have hnul : ∀ m ∈ texts s, nul ∉ m := by
    rw [htexts]
    decide
  refine ⟨s, hrun, htexts, (printed_exactly_iff hrun hnul).mpr ?_⟩
  rw [htexts]
  exact ⟨by decide, by decide⟩

/-- The second message is shorter, and the end of the first one is printed with it. -/
theorem message_leaks : ∃ s,
    run EpollServer.step (start 3) (twoClients (text "hello") (text "hi")) = some s ∧
      texts s = [text "hello", text "hi"] ∧
      s.printed = [messageLine (text "hello"), messageLine (text "hillo")] ∧
      ¬ PrintedExactly s := by
  obtain ⟨s, hrun, htexts, hprinted⟩ : ∃ s,
      run EpollServer.step (start 3) (twoClients (text "hello") (text "hi")) = some s ∧
        texts s = [text "hello", text "hi"] ∧
        s.printed = [messageLine (text "hello"), messageLine (text "hillo")] := ⟨_, rfl, rfl, rfl⟩
  refine ⟨s, hrun, htexts, hprinted, fun h => ?_⟩
  have hexact := h.printed
  rw [hprinted, htexts] at hexact
  revert hexact
  decide

end GolangSandbox.Analysis
