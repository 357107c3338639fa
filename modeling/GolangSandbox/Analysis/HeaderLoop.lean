import GolangSandbox.Interface.Pieces

/-!
# The header loop

`read_requesthdrs` looks at the pieces of the stream one after the other and stops at the
first one that is an empty line (`skipHeaders_returns`). At the end of the stream the buffer
does not change any more, so without such a piece the loop never stops
(`skipHeaders_endless`). Where it stops right, the first empty piece is the empty line
behind the headers, and not the end of a long one.
-/

set_option autoImplicit false

namespace GolangSandbox.Analysis

open GolangSandbox.Program GolangSandbox.Interface

variable {readlineb : Readlineb} {s t : Incoming} {buf uninitialised : Bytes} {calls : ℕ}

/-! ## The loop -/

theorem skipHeaders_crlf (readlineb : Readlineb) (calls : ℕ) (s : Incoming) :
    skipHeaders readlineb calls crlf s = some s := by
  cases calls with
  | zero => exact if_pos rfl
  | succ calls => exact if_pos rfl

theorem skipHeaders_succ (hbuf : buf ≠ crlf) :
    skipHeaders readlineb (calls + 1) buf s = skipHeaders readlineb calls
      ((s.readLine readlineb).1.getD buf) (s.readLine readlineb).2 := if_neg hbuf

/-- **The loop stops at the first empty piece**, and has read the pieces up to it. -/
theorem skipHeaders_returns (h : ReadsLine readlineb) {front back : List Bytes}
    (hpieces : pieces s.remaining = front ++ crlf :: back) (hfront : crlf ∉ front)
    (hcalls : front.length < calls) (hbuf : buf ≠ crlf) :
    ∃ t, skipHeaders readlineb calls buf s = some t ∧ t.remaining = back.flatten := by
  induction front generalizing calls buf s with
  | nil =>
    have hs : s.remaining ≠ [] := by
      intro hs
      rw [hs] at hpieces
      cases hpieces
    rw [pieces_of_ne_nil hs, List.nil_append, List.cons.injEq] at hpieces
    obtain ⟨hfirst, rfl⟩ := hpieces
    obtain ⟨calls, rfl⟩ := Nat.exists_eq_succ_of_ne_zero (Nat.ne_zero_of_lt hcalls)
    refine ⟨(s.readLine readlineb).2, ?_, ?_⟩
    · have hline : (s.readLine readlineb).1 = some crlf := by
        rw [line_readLine h, if_neg hs, hfirst]
        rfl
      rw [skipHeaders_succ hbuf, hline]
      exact skipHeaders_crlf _ _ _
    · rw [remaining_readLine h, flatten_pieces]
  | cons p front ih =>
    have hs : s.remaining ≠ [] := by
      intro hs
      rw [hs] at hpieces
      cases hpieces
    rw [pieces_of_ne_nil hs, List.cons_append, List.cons.injEq] at hpieces
    obtain ⟨hfirst, hrest⟩ := hpieces
    rw [List.mem_cons, not_or] at hfront
    obtain ⟨calls, rfl⟩ := Nat.exists_eq_succ_of_ne_zero (Nat.ne_zero_of_lt hcalls)
    rw [skipHeaders_succ hbuf]
    apply ih
    · rw [remaining_readLine h]
      exact hrest
    · exact hfront.2
    · rw [List.length_cons] at hcalls
      omega
    · rw [line_readLine h, if_neg hs, Option.getD_some, Ne, cstring_firstLine, hfirst]
      exact fun heq => hfront.1 heq.symm

/-- **Without an empty piece the loop does not stop**: at the end of the stream nothing
changes any more. -/
theorem skipHeaders_endless (h : ReadsLine readlineb) (hpieces : crlf ∉ pieces s.remaining)
    (hbuf : buf ≠ crlf) (calls : ℕ) : skipHeaders readlineb calls buf s = none := by
  induction calls generalizing buf s with
  | zero => exact if_neg hbuf
  | succ calls ih =>
    rw [skipHeaders_succ hbuf]
    by_cases hs : s.remaining = []
    · have hrest : (s.readLine readlineb).2.remaining = [] := by
        rw [remaining_readLine h, hs]
        rfl
      apply ih
      · rw [hrest]
        exact List.not_mem_nil
      · rw [line_readLine h, if_pos hs]
        exact hbuf
    · rw [pieces_of_ne_nil hs, List.mem_cons, not_or] at hpieces
      apply ih
      · rw [remaining_readLine h]
        exact hpieces.2
      · rw [line_readLine h, if_neg hs, Option.getD_some, Ne, cstring_firstLine]
        exact fun heq => hpieces.1 heq.symm

/-! ## The function -/

/-- While there is something to read, what is in the buffer before does not matter. -/
theorem readRequesthdrs_eq (h : ReadsLine readlineb) (hs : s.remaining ≠ []) :
    readRequesthdrs readlineb uninitialised calls s =
      skipHeaders readlineb (calls + 1) [] s := by
  rw [skipHeaders_succ (by decide), line_readLine h, if_neg hs, Option.getD_some]
  unfold readRequesthdrs
  dsimp only
  rw [line_readLine h, if_neg hs, Option.getD_some]

theorem readRequesthdrs_of_nil (h : ReadsLine readlineb) (hs : s.remaining = []) :
    readRequesthdrs readlineb uninitialised calls s =
      skipHeaders readlineb calls uninitialised (s.readLine readlineb).2 := by
  unfold readRequesthdrs
  dsimp only
  rw [line_readLine h, if_pos hs, Option.getD_none]

/-- The condition on a stream: one of its pieces is an empty line, or there is none and the
buffer happens to hold one. -/
def HasEnd (uninitialised stream : Bytes) : Prop :=
  crlf ∈ pieces stream ∨ (stream = [] ∧ uninitialised = crlf)

instance (uninitialised stream : Bytes) : Decidable (HasEnd uninitialised stream) :=
  inferInstanceAs (Decidable (_ ∨ _))

variable (uninitialised) in
theorem readRequesthdrs_returns (h : ReadsLine readlineb) {front back : List Bytes}
    (hpieces : pieces s.remaining = front ++ crlf :: back) (hfront : crlf ∉ front)
    (hcalls : front.length ≤ calls) :
    ∃ t, readRequesthdrs readlineb uninitialised calls s = some t ∧
      t.remaining = back.flatten := by
  have hs : s.remaining ≠ [] := by
    intro hs
    rw [hs, pieces_nil] at hpieces
    exact absurd hpieces.symm (by simp)
  rw [readRequesthdrs_eq h hs]
  exact skipHeaders_returns h hpieces hfront (by omega) (by decide)

/-- With an end, the number of reads is bounded by the number of bytes. -/
theorem exists_readRequesthdrs (h : ReadsLine readlineb)
    (hend : HasEnd uninitialised s.remaining) :
    ∃ t, readRequesthdrs readlineb uninitialised s.remaining.length s = some t := by
  obtain hmem | ⟨hs, rfl⟩ := hend
  · obtain ⟨front, back, hpieces, hfront⟩ := List.eq_append_cons_of_mem hmem
    have hlength := length_pieces_le s.remaining
    rw [hpieces, List.length_append] at hlength
    obtain ⟨t, ht, -⟩ := readRequesthdrs_returns uninitialised h hpieces hfront
      (Nat.le_of_add_right_le hlength)
    exact ⟨t, ht⟩
  · rw [readRequesthdrs_of_nil h hs]
    exact ⟨_, skipHeaders_crlf _ _ _⟩

theorem readRequesthdrs_endless (h : ReadsLine readlineb)
    (hend : ¬ HasEnd uninitialised s.remaining) (calls : ℕ) :
    readRequesthdrs readlineb uninitialised calls s = none := by
  rw [HasEnd, not_or, not_and] at hend
  by_cases hs : s.remaining = []
  · rw [readRequesthdrs_of_nil h hs]
    apply skipHeaders_endless h
    · rw [remaining_readLine h, hs]
      exact List.not_mem_nil
    · exact hend.2 hs
  · rw [readRequesthdrs_eq h hs]
    exact skipHeaders_endless h hend.1 (by decide) _

/-- **The header loop ends** if and only if the stream has an end for it, and then with at
most one read more than there are bytes. Otherwise no number of reads is enough.
SOURCE: csapp/charpter11/tinyweb.c:130-140 -/
theorem header_loop_ends_iff (h : ReadsLine readlineb) (uninitialised : Bytes) (s : Incoming) :
    ((∃ t, readRequesthdrs readlineb uninitialised s.remaining.length s = some t) ↔
        HasEnd uninitialised s.remaining) ∧
      ((∃ calls t, readRequesthdrs readlineb uninitialised calls s = some t) ↔
        HasEnd uninitialised s.remaining) := by
  have honly : ∀ calls t, readRequesthdrs readlineb uninitialised calls s = some t →
      HasEnd uninitialised s.remaining := by
    intro calls t ht
    by_contra hend
    rw [readRequesthdrs_endless h hend] at ht
    cases ht
  refine ⟨⟨?_, exists_readRequesthdrs h⟩, ⟨?_, ?_⟩⟩
  · rintro ⟨t, ht⟩
    exact honly _ t ht
  · rintro ⟨calls, t, ht⟩
    exact honly calls t ht
  · intro hend
    exact ⟨_, exists_readRequesthdrs h hend⟩

/-- One header and an empty line. -/
theorem header_loop_ends_host :
    ∃ t, readRequesthdrs oneRefill [] 11 ⟨rioReadinitb 4, text "Host: a\r\n\r\n"⟩ = some t :=
  (header_loop_ends_iff readsLine_oneRefill [] ⟨rioReadinitb 4, text "Host: a\r\n\r\n"⟩).1.mpr
    (by decide)

/-- A client that closes behind its headers, or at once. -/
theorem header_loop_endless :
    (∀ calls, readRequesthdrs oneRefill [] calls ⟨rioReadinitb 4, text "Host: a\r\n"⟩ = none) ∧
      ∀ calls, readRequesthdrs oneRefill [] calls ⟨rioReadinitb 4, []⟩ = none :=
  ⟨readRequesthdrs_endless readsLine_oneRefill (by decide),
    readRequesthdrs_endless readsLine_oneRefill (by decide)⟩

/-! ## What is consumed -/

/-- Header lines, each ended by a CRLF, and an empty line. -/
def headerBlock (lines : List Bytes) : Bytes := lines.flatMap (· ++ crlf) ++ crlf

/-- `read_requesthdrs` stops, and leaves `b`. -/
def Leaves (readlineb : Readlineb) (uninitialised : Bytes) (s : Incoming) (b : Bytes) : Prop :=
  ∃ calls t, readRequesthdrs readlineb uninitialised calls s = some t ∧ t.remaining = b

theorem crlf_pieces : pieces crlf = [crlf] := by decide

theorem pieces_line {l : Bytes} (hl : newline ∉ l) (rest : Bytes) :
    pieces (l ++ crlf ++ rest) = pieces (l ++ crlf) ++ pieces rest := by
  have hcr : newline ∉ l ++ [13] := by
    rw [List.mem_append, not_or]
    exact ⟨hl, by decide⟩
  have hline := pieces_append_line hcr rest
  rw [List.append_assoc, List.append_assoc] at hline
  rw [List.append_assoc]
  exact hline

theorem pieces_headerBlock {lines : List Bytes} (hlines : ∀ l ∈ lines, newline ∉ l) (b : Bytes) :
    pieces (headerBlock lines ++ b) =
      lines.flatMap (fun l => pieces (l ++ crlf)) ++ crlf :: pieces b := by
  induction lines with
  | nil =>
    have hempty := pieces_line (l := []) List.not_mem_nil b
    rw [List.nil_append, crlf_pieces] at hempty
    exact hempty
  | cons l lines ih =>
    rw [List.forall_mem_cons] at hlines
    have hline := pieces_line hlines.1 (headerBlock lines ++ b)
    rw [ih hlines.2] at hline
    have hblock : headerBlock (l :: lines) ++ b = l ++ crlf ++ (headerBlock lines ++ b) := by
      simp only [headerBlock, List.flatMap_cons, List.append_assoc]
    rw [hblock, hline, List.flatMap_cons, List.append_assoc]

/-- More reads do not change the result. -/
theorem skipHeaders_mono {more : ℕ} (ht : skipHeaders readlineb calls buf s = some t)
    (hle : calls ≤ more) : skipHeaders readlineb more buf s = some t := by
  induction calls generalizing buf s more with
  | zero =>
    by_cases hbuf : buf = crlf
    · rw [hbuf] at ht ⊢
      rw [skipHeaders_crlf] at ht ⊢
      exact ht
    · rw [skipHeaders, if_neg hbuf] at ht
      cases ht
  | succ calls ih =>
    by_cases hbuf : buf = crlf
    · rw [hbuf] at ht ⊢
      rw [skipHeaders_crlf] at ht ⊢
      exact ht
    · obtain ⟨more, rfl⟩ := Nat.exists_eq_add_of_le' (Nat.le_trans (Nat.succ_pos calls) hle)
      rw [skipHeaders_succ hbuf] at ht ⊢
      exact ih ht (Nat.le_of_succ_le_succ hle)

/-- What the function leaves is what stands behind the first empty piece. -/
theorem leaves_iff (h : ReadsLine readlineb) {front back : List Bytes} {b : Bytes}
    (hpieces : pieces s.remaining = front ++ crlf :: back) (hfront : crlf ∉ front) :
    Leaves readlineb uninitialised s b ↔ back.flatten = b := by
  have hs : s.remaining ≠ [] := by
    intro hs
    rw [hs, pieces_nil] at hpieces
    exact absurd hpieces.symm (by simp)
  constructor
  · rintro ⟨calls, t, ht, rfl⟩
    obtain ⟨u, hu, hrest⟩ := readRequesthdrs_returns uninitialised h hpieces hfront
      (Nat.le_max_right calls front.length)
    rw [readRequesthdrs_eq h hs] at ht hu
    rw [skipHeaders_mono ht (Nat.succ_le_succ (Nat.le_max_left _ _))] at hu
    cases hu
    exact hrest.symm
  · rintro rfl
    exact ⟨front.length, readRequesthdrs_returns uninitialised h hpieces hfront (Nat.le_refl _)⟩

/-- The block is consumed if its end is its first empty piece. -/
theorem leaves_block_iff (h : ReadsLine readlineb) {lines : List Bytes} {b : Bytes}
    (hlines : ∀ l ∈ lines, newline ∉ l) (hs : s.remaining = headerBlock lines ++ b) :
    Leaves readlineb uninitialised s b ↔
      crlf ∉ lines.flatMap fun l => pieces (l ++ crlf) := by
  have hpieces := pieces_headerBlock hlines b
  rw [← hs] at hpieces
  constructor
  · intro hleaves hmem
    obtain ⟨front, back, hsplit, hfront⟩ := List.eq_append_cons_of_mem hmem
    have hall : pieces s.remaining = front ++ crlf :: (back ++ crlf :: pieces b) := by
      rw [hpieces, hsplit]
      simp only [List.append_assoc, List.cons_append]
    have hleft := (leaves_iff h hall hfront).mp hleaves
    have hlength := congrArg List.length hleft
    simp only [List.flatten_append, List.flatten_cons, flatten_pieces, List.length_append,
      crlf, List.length_cons] at hlength
    omega
  · intro hmem
    exact (leaves_iff h hpieces hmem).mpr (flatten_pieces b)

/-- **The header block is consumed exactly** if and only if no header line fills the buffer
a whole number of times.
SOURCE: csapp/charpter11/tinyweb.c:130-140 -/
theorem header_block_consumed_iff (h : ReadsLine readlineb) (uninitialised : Bytes)
    (lines : List Bytes) (b : Bytes) (s : Incoming)
    (hlines : ∀ l ∈ lines, l ≠ [] ∧ newline ∉ l) (hs : s.remaining = headerBlock lines ++ b) :
    Leaves readlineb uninitialised s b ↔ ∀ l ∈ lines, ¬ MAXLINE - 1 ∣ l.length := by
  rw [leaves_block_iff h (fun l hl => (hlines l hl).2) hs, List.mem_flatMap, not_exists]
  apply forall_congr'
  intro l
  rw [not_and]
  apply imp_congr_right
  intro hl
  rw [crlf_mem_pieces_iff (hlines l hl).2]

/-- One header, and a byte behind the block. -/
theorem header_block_consumed_host :
    Leaves oneRefill [] ⟨rioReadinitb 4, headerBlock [text "Host: a"] ++ text "x"⟩ (text "x") :=
  (header_block_consumed_iff readsLine_oneRefill [] [text "Host: a"] (text "x") _ (by decide)
    rfl).mpr (by decide)

/-- A header that fills the buffer exactly. -/
theorem header_block_not_consumed :
    ∃ line : Bytes, line.length = 8191 ∧ line ≠ [] ∧ newline ∉ line ∧
      ¬ Leaves oneRefill [] ⟨rioReadinitb 4, headerBlock [line] ++ text "x"⟩ (text "x") := by
  have hnewline : newline ∉ List.replicate 8191 (97 : UInt8) := by
    intro h
    have heq := List.eq_of_mem_replicate h
    revert heq
    decide
  have hlength : (List.replicate 8191 (97 : UInt8)).length = 8191 := List.length_replicate
  revert hnewline hlength
  generalize List.replicate 8191 (97 : UInt8) = line
  intro hnewline hlength
  have hlines : ∀ l ∈ [line], newline ∉ l := by
    intro l hl
    rw [List.mem_singleton.mp hl]
    exact hnewline
  refine ⟨line, hlength, List.ne_nil_of_length_pos (by omega), hnewline, ?_⟩
  rw [leaves_block_iff readsLine_oneRefill hlines rfl, not_not, List.flatMap_singleton,
    crlf_mem_pieces_iff hnewline, hlength]
  exact Nat.dvd_refl _

end GolangSandbox.Analysis
