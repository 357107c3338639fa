import GolangSandbox.Program.TinyWeb

/-!
# The pieces of a stream

A stream as `Rio_readlineb` returns it: the first line, or as much of it as fits the buffer,
then the first line of the rest, and so on. The pieces put together are the stream
(`flatten_pieces`), and those of a line do not depend on what comes behind its newline
(`pieces_append_line`). A line that is longer than the buffer is in more than one piece, so
the end of a line may be a piece of its own (`crlf_mem_pieces_iff`).
-/

set_option autoImplicit false

namespace GolangSandbox.Interface

open GolangSandbox.Program

variable {s x rest : Bytes}

/-! ## The first line -/

theorem firstLine_ne_nil (hs : s ≠ []) : firstLine s ≠ [] := by
  intro h
  have hlength := congrArg List.length h
  have hpos := List.length_pos_iff.mpr hs
  simp only [firstLine, MAXLINE, List.length_take, List.length_nil] at hlength
  omega

/-- A line that fits is read whole. -/
theorem firstLine_short (hx : newline ∉ x) (hlength : x.length + 1 ≤ MAXLINE - 1) :
    firstLine (x ++ newline :: rest) = x ++ [newline] := by
  have hidx : (x ++ newline :: rest).idxOf newline = x.length := by
    rw [List.idxOf_append_of_notMem hx, List.idxOf_cons_self, Nat.add_zero]
  have hall : (x ++ [newline]).length ≤ MAXLINE - 1 := by
    rw [List.length_append]
    exact hlength
  rw [firstLine, hidx, List.take_length_add_append, List.take_succ_cons, List.take_zero,
    List.take_of_length_le hall]

/-- Without a newline the rest of the stream is the line, if it fits. -/
theorem firstLine_eq_self (hx : newline ∉ x) (hlength : x.length ≤ MAXLINE - 1) :
    firstLine x = x := by
  rw [firstLine, List.idxOf_eq_length hx, List.take_of_length_le (Nat.le_succ _),
    List.take_of_length_le hlength]

/-- A line that does not fit is cut. -/
theorem firstLine_long (hx : newline ∉ x) (hlength : MAXLINE - 1 ≤ x.length) :
    firstLine (x ++ rest) = x.take (MAXLINE - 1) := by
  rw [firstLine, List.idxOf_append_of_notMem hx, List.take_take, Nat.min_eq_left (by omega),
    List.take_append_of_le_length hlength]

/-- A line has no newline but at its end. -/
theorem newline_notMem_dropLast (s : Bytes) : newline ∉ (firstLine s).dropLast := by
  intro hmem
  have hline := firstLine_begins s
  have hlength : (firstLine s).dropLast.length ≤ (s.take (s.idxOf newline)).length := by
    have hle := hline.length_le
    have hcut : (firstLine s).length ≤ s.idxOf newline + 1 := by
      simp only [firstLine, List.length_take]
      omega
    rw [List.length_dropLast, List.length_take]
    omega
  have hbefore : (firstLine s).dropLast <+: s.take (s.idxOf newline) :=
    List.prefix_of_prefix_length_le ((List.dropLast_prefix _).trans hline)
      (List.take_prefix _ _) hlength
  have hs : newline ∈ s := hline.subset (List.dropLast_subset _ hmem)
  exact Nat.lt_irrefl _ ((List.mem_take_iff_idxOf_lt hs).mp (hbefore.subset hmem))

/-- A line that is an empty line as a string is one. -/
theorem cstring_firstLine (s : Bytes) : cstring (firstLine s) = crlf ↔ firstLine s = crlf := by
  constructor
  · intro h
    obtain ⟨behind, hbehind⟩ := List.takeWhile_prefix (l := firstLine s) (· != nul)
    have hline : firstLine s = crlf ++ behind := by
      rw [← h]
      exact hbehind.symm
    have hlast := newline_notMem_dropLast s
    rw [hline] at hlast ⊢
    cases behind with
    | nil => rfl
    | cons c behind => simp [crlf, newline] at hlast
  · intro h
    rw [h]
    rfl

/-! ## All pieces -/

/-- The first pieces, at most `n`. -/
def piecesUpTo : ℕ → Bytes → List Bytes
  | 0, _ => []
  | n + 1, s =>
    if s = [] then [] else firstLine s :: piecesUpTo n (s.drop (firstLine s).length)

/-- The pieces in which `Rio_readlineb` returns a stream. -/
def pieces (s : Bytes) : List Bytes := piecesUpTo s.length s

/-- A piece takes something from the stream. -/
theorem length_drop_firstLine (hs : s ≠ []) :
    (s.drop (firstLine s).length).length < s.length := by
  have hline := List.length_pos_iff.mpr (firstLine_ne_nil hs)
  have hpos := List.length_pos_iff.mpr hs
  rw [List.length_drop]
  omega

theorem piecesUpTo_eq {n m : ℕ} (hn : s.length ≤ n) (hm : s.length ≤ m) :
    piecesUpTo n s = piecesUpTo m s := by
  induction n generalizing m s with
  | zero =>
    have hnil := List.length_eq_zero_iff.mp (Nat.le_zero.mp hn)
    rw [hnil]
    cases m with
    | zero => rfl
    | succ m => rfl
  | succ n ih =>
    by_cases hs : s = []
    · rw [hs]
      cases m with
      | zero => rfl
      | succ m => rfl
    · have hpos := List.length_pos_iff.mpr hs
      have hrest := length_drop_firstLine hs
      cases m with
      | zero => omega
      | succ m =>
        rw [piecesUpTo, if_neg hs, piecesUpTo, if_neg hs, ih (m := m) (by omega) (by omega)]

@[simp] theorem pieces_nil : pieces [] = [] := rfl

theorem pieces_of_ne_nil (hs : s ≠ []) :
    pieces s = firstLine s :: pieces (s.drop (firstLine s).length) := by
  have hpos := List.length_pos_iff.mpr hs
  have hrest := length_drop_firstLine hs
  have hsucc : s.length = s.length - 1 + 1 := by omega
  rw [pieces, hsucc, piecesUpTo, if_neg hs, pieces, piecesUpTo_eq (by omega) (Nat.le_refl _)]

/-- **The rule for the pieces of a stream**, by its length. -/
theorem pieces_induction {P : Bytes → Prop} (hnil : P [])
    (hpiece : ∀ s, s ≠ [] → P (s.drop (firstLine s).length) → P s) (s : Bytes) : P s := by
  induction hn : s.length using Nat.strongRecOn generalizing s with
  | _ n ih =>
    by_cases hs : s = []
    · rw [hs]
      exact hnil
    · exact hpiece s hs (ih _ (hn ▸ length_drop_firstLine hs) _ rfl)

theorem flatten_pieces (s : Bytes) : (pieces s).flatten = s := by
  induction s using pieces_induction with
  | hnil => rfl
  | hpiece s hs ih =>
    rw [pieces_of_ne_nil hs, List.flatten_cons, ih]
    exact (List.prefix_iff_eq_append.mp (firstLine_begins s))

theorem length_pieces_le (s : Bytes) : (pieces s).length ≤ s.length := by
  induction s using pieces_induction with
  | hnil => exact Nat.le_refl _
  | hpiece s hs ih =>
    have hrest := length_drop_firstLine hs
    rw [pieces_of_ne_nil hs, List.length_cons]
    omega

/-! ## The pieces of a line -/

/-- A line that fits the buffer is one piece. -/
theorem pieces_short (hx : newline ∉ x) (hshort : x.length + 1 ≤ MAXLINE - 1) (rest : Bytes) :
    pieces (x ++ newline :: rest) = (x ++ [newline]) :: pieces rest := by
  have hdrop : (x ++ [newline] ++ rest).drop (x ++ [newline]).length = rest := List.drop_left
  rw [List.append_assoc, List.singleton_append] at hdrop
  rw [pieces_of_ne_nil (by simp), firstLine_short hx hshort, hdrop]

/-- A longer one begins with a full buffer. -/
theorem pieces_long (hx : newline ∉ x) (hlong : MAXLINE - 1 ≤ x.length) (rest : Bytes) :
    pieces (x ++ rest) = x.take (MAXLINE - 1) :: pieces (x.drop (MAXLINE - 1) ++ rest) := by
  have hpos : 0 < MAXLINE - 1 := by decide
  have hne : x ++ rest ≠ [] :=
    List.append_ne_nil_of_left_ne_nil (List.ne_nil_of_length_pos (by omega)) _
  rw [pieces_of_ne_nil hne, firstLine_long hx hlong, List.length_take, Nat.min_eq_left hlong,
    List.drop_append_of_le_length hlong]

/-- **The rule for the pieces of a line**, by a full buffer at a time. -/
theorem line_induction {P : Bytes → Prop} (hshort : ∀ x, x.length < MAXLINE - 1 → P x)
    (hlong : ∀ x, MAXLINE - 1 ≤ x.length → P (x.drop (MAXLINE - 1)) → P x) (x : Bytes) : P x := by
  induction hn : x.length using Nat.strongRecOn generalizing x with
  | _ n ih =>
    by_cases hfull : MAXLINE - 1 ≤ x.length
    · have hpos : 0 < MAXLINE - 1 := by decide
      have hshorter : (x.drop (MAXLINE - 1)).length < n := by
        rw [List.length_drop]
        omega
      exact hlong x hfull (ih _ hshorter _ rfl)
    · exact hshort x (Nat.lt_of_not_le hfull)

theorem newline_notMem_drop (hx : newline ∉ x) : newline ∉ x.drop (MAXLINE - 1) :=
  fun h => hx (List.mem_of_mem_drop h)

/-- What comes behind a line does not matter to its pieces. -/
theorem pieces_append_line (hx : newline ∉ x) (rest : Bytes) :
    pieces (x ++ newline :: rest) = pieces (x ++ [newline]) ++ pieces rest := by
  induction x using line_induction with
  | hshort x hshort =>
    rw [pieces_short hx hshort, pieces_short hx hshort, pieces_nil]
    rfl
  | hlong x hlong ih =>
    rw [pieces_long hx hlong, pieces_long hx hlong, ih (newline_notMem_drop hx)]
    rfl

/-- **When the end of a line is a piece of its own.** -/
theorem crlf_mem_pieces_iff (hx : newline ∉ x) :
    crlf ∈ pieces (x ++ crlf) ↔ MAXLINE - 1 ∣ x.length := by
  induction x using line_induction with
  | hlong x hlong ih =>
    have hne : crlf ≠ x.take (MAXLINE - 1) := by
      intro h
      have htwo := congrArg List.length h
      simp only [crlf, List.length_take, MAXLINE, List.length_cons, List.length_nil] at htwo hlong
      omega
    rw [pieces_long hx hlong, List.mem_cons, or_iff_right hne, ih (newline_notMem_drop hx),
      List.length_drop]
    exact Nat.dvd_sub_iff_left hlong (Nat.dvd_refl _)
  | hshort x hshort =>
    have hcr : newline ∉ x ++ [13] := by
      rw [List.mem_append, not_or]
      exact ⟨hx, by decide⟩
    have hlength : (x ++ [13]).length = x.length + 1 := by
      rw [List.length_append]
      rfl
    have hassoc : x ++ crlf = x ++ [13] ++ [newline] := by
      rw [List.append_assoc]
      rfl
    have hdvd : MAXLINE - 1 ∣ x.length ↔ x.length = 0 := by
      refine ⟨fun h => Nat.eq_zero_of_dvd_of_lt h hshort, ?_⟩
      intro hzero
      rw [hzero]
      exact Nat.dvd_zero _
    rw [hdvd]
    by_cases hfits : (x ++ [13]).length + 1 ≤ MAXLINE - 1
    · rw [hassoc, pieces_short hcr hfits, pieces_nil, List.mem_singleton, ← hassoc,
        List.length_eq_zero_iff]
      exact List.self_eq_append_left
    · -- The carriage return fills the buffer, and the newline is a piece of its own.
      have hfull : MAXLINE - 1 ≤ (x ++ [13]).length := by omega
      have hlast : (x ++ [13]).length ≤ MAXLINE - 1 := by omega
      rw [hassoc, pieces_long hcr hfull, List.take_of_length_le hlast, List.drop_of_length_le hlast,
        List.mem_cons]
      simp only [MAXLINE] at hfull
      refine iff_of_false ?_ (by omega)
      rw [not_or]
      refine ⟨fun h => ?_, by decide⟩
      have htwo := congrArg List.length h
      rw [hlength] at htwo
      simp only [crlf, List.length_cons, List.length_nil] at htwo
      omega

/-! ## One read -/

theorem remaining_readLine {readlineb : Readlineb} (h : ReadsLine readlineb) (s : Incoming) :
    (s.readLine readlineb).2.remaining =
      s.remaining.drop (firstLine s.remaining).length := by
  have hconserves := h.conserves s.rio s.inbound
  have hline : (readlineb s.rio s.inbound).1 = firstLine s.remaining := h.line s.rio s.inbound
  rw [hline, List.append_assoc] at hconserves
  have hdrop := congrArg (List.drop (firstLine s.remaining).length) hconserves
  rw [List.drop_left] at hdrop
  exact hdrop

theorem line_readLine {readlineb : Readlineb} (h : ReadsLine readlineb) (s : Incoming) :
    (s.readLine readlineb).1 =
      if s.remaining = [] then none else some (cstring (firstLine s.remaining)) := by
  have hline : (readlineb s.rio s.inbound).1 = firstLine s.remaining := h.line s.rio s.inbound
  have hfst : (s.readLine readlineb).1 =
      if firstLine s.remaining = [] then none else some (cstring (firstLine s.remaining)) := by
    rw [← hline]
    rfl
  rw [hfst]
  by_cases hs : s.remaining = []
  · rw [if_pos hs, if_pos (by rw [hs]; rfl)]
  · rw [if_neg hs, if_neg (firstLine_ne_nil hs)]

end GolangSandbox.Interface
