import Mathlib.Data.List.Basic
import Mathlib.Tactic.Common

/-!
# Reading a response

How the body of a response of HTTP/1.0 is found: lines that end in `CR LF` up to an empty
one are the head, a field of the head gives a number of bytes, and the body is as many bytes
behind the head (`readFramed`). What is behind the body is returned as well. An HTTP client
(`readResponse`) asks in addition that the first line is a status line: the protocol with its
version, three digits, and a reason.

A head that is written line by line is read back as these lines (`readHead_headBytes`), if no
line is empty or has a `CR`. The digits of a number are read back as the number
(`number_digits`). Together they say what is read of a response (`readFramed_headBytes`), and
whether it has a status line decides the rest (`readResponse_of_status`,
`readResponse_of_noStatus`).
-/

set_option autoImplicit false

namespace GolangSandbox.Model

/-- The bytes in front of the first `CR LF`, and those behind it. -/
def cutLine : List UInt8 → Option (List UInt8 × List UInt8)
  | [] => none
  | 13 :: 10 :: rest => some ([], rest)
  | b :: rest => (cutLine rest).map fun (line, rest) => (b :: line, rest)

/-- The lines in front of an empty line, and what is behind it, in at most `n` lines. -/
def readHead : ℕ → List UInt8 → Option (List (List UInt8) × List UInt8)
  | 0, _ => none
  | n + 1, s =>
    match cutLine s with
    | none => none
    | some ([], rest) => some ([], rest)
    | some (line, rest) => (readHead n rest).map fun (lines, rest) => (line :: lines, rest)

/-- The rest of the first line that begins with the name. -/
def field (name : List UInt8) (lines : List (List UInt8)) : Option (List UInt8) :=
  (lines.find? (name.isPrefixOf ·)).map (·.drop name.length)

/-- The value of a digit. -/
def digit (b : UInt8) : Option ℕ := if 48 ≤ b ∧ b ≤ 57 then some (b.toNat - 48) else none

/-- A number in decimal digits, behind the digits of `acc`. -/
def numberFrom (acc : ℕ) : List UInt8 → Option ℕ
  | [] => some acc
  | b :: bs => (digit b).bind fun d => numberFrom (10 * acc + d) bs

/-- A number in decimal digits, at least one. -/
def number (bs : List UInt8) : Option ℕ := if bs = [] then none else numberFrom 0 bs

/-- The lines of the head, the body, whose length is in the field `name`, and what follows. -/
def readFramed (name s : List UInt8) :
    Option (List (List UInt8) × List UInt8 × List UInt8) :=
  (readHead (s.length + 1) s).bind fun (lines, rest) =>
    ((field name lines).bind number).bind fun n =>
      if n ≤ rest.length then some (lines, rest.take n, rest.drop n) else none

/-- `HTTP/`, a digit, a dot, a digit, a space, three digits, a space, and a reason. -/
def isStatusLine : List UInt8 → Bool
  | 72 :: 84 :: 84 :: 80 :: 47 :: major :: 46 :: minor :: 32 :: a :: b :: c :: 32 :: _ =>
    [major, minor, a, b, c].all fun d => (digit d).isSome
  | _ => false

/-- What an HTTP client reads. -/
def readResponse (name s : List UInt8) :
    Option (List (List UInt8) × List UInt8 × List UInt8) :=
  (readFramed name s).filter (·.1.head?.any isStatusLine)

/-- The head with these lines. -/
def headBytes (lines : List (List UInt8)) : List UInt8 :=
  lines.flatMap (· ++ [13, 10]) ++ [13, 10]

/-- The digits of a number. -/
def digits (n : ℕ) : List UInt8 := (Nat.toDigits 10 n).map fun c => UInt8.ofNat c.toNat

variable {line rest name : List UInt8} {lines : List (List UInt8)} {n : ℕ}

/-! ## Lines -/

theorem cutLine_cons {b : UInt8} (hb : b ≠ 13) (s : List UInt8) :
    cutLine (b :: s) = (cutLine s).map fun (line, rest) => (b :: line, rest) := by
  rw [cutLine]
  rintro rest rfl
  exact absurd rfl hb

/-- A line ends where its `CR LF` is. -/
theorem cutLine_append (hline : 13 ∉ line) (rest : List UInt8) :
    cutLine (line ++ 13 :: 10 :: rest) = some (line, rest) := by
  induction line with
  | nil => rfl
  | cons b line ih =>
    rw [List.mem_cons, not_or] at hline
    rw [List.cons_append, cutLine_cons (Ne.symm hline.1), ih hline.2]
    rfl

/-- **A head is read as its lines.** -/
theorem readHead_headBytes (hlines : ∀ l ∈ lines, l ≠ [] ∧ 13 ∉ l) (rest : List UInt8)
    (hn : lines.length < n) : readHead n (headBytes lines ++ rest) = some (lines, rest) := by
  induction lines generalizing n with
  | nil =>
    obtain ⟨n, rfl⟩ := Nat.exists_eq_succ_of_ne_zero (Nat.ne_zero_of_lt hn)
    rfl
  | cons l lines ih =>
    obtain ⟨n, rfl⟩ := Nat.exists_eq_succ_of_ne_zero (Nat.ne_zero_of_lt hn)
    obtain ⟨hl, hrest⟩ := List.forall_mem_cons.mp hlines
    obtain ⟨b, l, rfl⟩ := List.exists_cons_of_ne_nil hl.1
    have hcut : headBytes ((b :: l) :: lines) ++ rest =
        (b :: l) ++ 13 :: 10 :: (headBytes lines ++ rest) := by
      simp [headBytes]
    rw [hcut, readHead, cutLine_append hl.2]
    simp only
    rw [ih hrest (Nat.lt_of_succ_lt_succ hn)]
    rfl

/-- What is behind a line is shorter. -/
theorem length_of_cutLine {s : List UInt8} (h : cutLine s = some (line, rest)) :
    rest.length < s.length := by
  induction s generalizing line with
  | nil => cases h
  | cons b s ih =>
    by_cases hend : b = 13 ∧ ∃ t, s = 10 :: t
    · obtain ⟨rfl, t, rfl⟩ := hend
      rw [cutLine] at h
      cases h
      simp only [List.length_cons]
      omega
    · rw [cutLine] at h
      · obtain ⟨⟨l, r⟩, hcut, heq⟩ := Option.map_eq_some_iff.mp h
        cases heq
        exact Nat.lt_succ_of_lt (ih hcut)
      · rintro t rfl rfl
        exact hend ⟨rfl, t, rfl⟩

/-- With a bound above the length of the stream the bound does not matter. -/
theorem readHead_congr {n m : ℕ} {s : List UInt8} (hn : s.length < n) (hm : s.length < m) :
    readHead n s = readHead m s := by
  induction n generalizing m s with
  | zero => exact absurd hn (Nat.not_lt_zero _)
  | succ n ih =>
    obtain ⟨m, rfl⟩ := Nat.exists_eq_succ_of_ne_zero (Nat.ne_zero_of_lt hm)
    rw [readHead, readHead]
    cases hcut : cutLine s with
    | none => rfl
    | some p =>
      obtain ⟨line, rest⟩ := p
      have hlt := length_of_cutLine hcut
      cases line with
      | nil => rfl
      | cons b line =>
        simp only
        rw [ih (m := m) (by omega) (by omega)]

/-- One line in front of a head. -/
theorem readHead_line {n : ℕ} {s : List UInt8} (hne : line ≠ []) (hline : 13 ∉ line) :
    readHead (n + 1) (line ++ 13 :: 10 :: s) =
      (readHead n s).map fun (lines, rest) => (line :: lines, rest) := by
  obtain ⟨b, line, rfl⟩ := List.exists_cons_of_ne_nil hne
  rw [readHead, cutLine_append hline]

/-- A line costs at least its `CR LF`. -/
theorem length_lt_headBytes (lines : List (List UInt8)) :
    lines.length < (headBytes lines).length := by
  induction lines with
  | nil => exact Nat.zero_lt_two
  | cons l lines ih =>
    simp only [headBytes, List.flatMap_cons, List.length_append, List.length_cons] at ih ⊢
    omega

/-! ## Numbers -/

/-- A digit and its value. -/
theorem digit_of_isDigit {c : Char} (hc : c.isDigit = true) :
    digit (UInt8.ofNat c.toNat) = some (c.toNat - 48) := by
  have hrange : 48 ≤ c.toNat ∧ c.toNat ≤ 57 := Char.isDigit_iff_toNat.mp hc
  have hsame : (UInt8.ofNat c.toNat).toNat = c.toNat := by
    rw [UInt8.toNat_ofNat']
    omega
  rw [digit, if_pos, hsame]
  rw [UInt8.le_iff_toNat_le, UInt8.le_iff_toNat_le, hsame]
  exact hrange

theorem numberFrom_digits (acc : ℕ) {cs : List Char} (hcs : ∀ c ∈ cs, c.isDigit = true) :
    numberFrom acc (cs.map fun c => UInt8.ofNat c.toNat) = some (Nat.ofDigitChars 10 cs acc) := by
  induction cs generalizing acc with
  | nil => rfl
  | cons c cs ih =>
    obtain ⟨hc, hrest⟩ := List.forall_mem_cons.mp hcs
    rw [List.map_cons, numberFrom, digit_of_isDigit hc, Option.bind_some, ih _ hrest,
      Nat.ofDigitChars_cons]
    rfl

/-- **The digits of a number are read as the number.** -/
theorem number_digits (n : ℕ) : number (digits n) = some n := by
  have hne : digits n ≠ [] := by
    rw [digits, ne_eq, List.map_eq_nil_iff]
    exact Nat.toDigits_ne_nil
  rw [number, if_neg hne, digits, numberFrom_digits 0 fun c hc =>
    Nat.isDigit_of_mem_toDigits (by decide) (by decide) hc, Nat.ofDigitChars_ten_toDigits]

/-! ## Responses -/

/-- **A response is read by its field.** -/
theorem readFramed_headBytes (hlines : ∀ l ∈ lines, l ≠ [] ∧ 13 ∉ l) (name rest : List UInt8) :
    readFramed name (headBytes lines ++ rest) =
      ((field name lines).bind number).bind fun n =>
        if n ≤ rest.length then some (lines, rest.take n, rest.drop n) else none := by
  have hlength := length_lt_headBytes lines
  rw [readFramed, readHead_headBytes hlines rest, Option.bind_some]
  rw [List.length_append]
  omega

/-- With a status line an HTTP client reads the response by its field. -/
theorem readResponse_of_status (hlines : ∀ l ∈ lines, l ≠ [] ∧ 13 ∉ l)
    (hstatus : lines.head?.any isStatusLine = true) (name rest : List UInt8) :
    readResponse name (headBytes lines ++ rest) = readFramed name (headBytes lines ++ rest) := by
  rw [readResponse, readFramed_headBytes hlines]
  cases (field name lines).bind Model.number with
  | none => rfl
  | some n =>
    rw [Option.bind_some]
    split
    · rw [Option.filter_some, if_pos hstatus]
    · rfl

/-- Without a status line it refuses the response. -/
theorem readResponse_of_noStatus (hlines : ∀ l ∈ lines, l ≠ [] ∧ 13 ∉ l)
    (hstatus : lines.head?.any isStatusLine = false) (name rest : List UInt8) :
    readResponse name (headBytes lines ++ rest) = none := by
  rw [readResponse, readFramed_headBytes hlines]
  cases (field name lines).bind Model.number with
  | none => rfl
  | some n =>
    rw [Option.bind_some]
    split
    · rw [Option.filter_some, if_neg (ne_true_of_eq_false hstatus)]
    · rfl

/-- **A line without the field may be put in front of a response.** -/
theorem readFramed_line {s : List UInt8} (hne : line ≠ []) (hline : 13 ∉ line)
    (hname : name.isPrefixOf line = false) :
    readFramed name (line ++ 13 :: 10 :: s) =
      (readFramed name s).map fun (lines, body, rest) => (line :: lines, body, rest) := by
  have hlength : (line ++ 13 :: 10 :: s).length = line.length + 1 + s.length + 1 := by
    simp only [List.length_append, List.length_cons]
    omega
  rw [readFramed, readFramed, hlength, readHead_line hne hline,
    readHead_congr (m := s.length + 1) (by omega) (by omega)]
  cases readHead (s.length + 1) s with
  | none => rfl
  | some p =>
    obtain ⟨lines, rest⟩ := p
    have hfield : field name (line :: lines) = field name lines := by
      rw [field, field, List.find?_cons_of_neg (by simp [hname])]
    simp only [Option.map_some, Option.bind_some, hfield]
    cases (field name lines).bind Model.number with
    | none => rfl
    | some n =>
      simp only [Option.bind_some]
      split
      · rfl
      · rfl

/-- A status line in front makes a response of what can be read by its field. -/
theorem readResponse_line {s : List UInt8} (hstatus : isStatusLine line = true)
    (hline : 13 ∉ line) (hname : name.isPrefixOf line = false) :
    readResponse name (line ++ 13 :: 10 :: s) =
      (readFramed name s).map fun (lines, body, rest) => (line :: lines, body, rest) := by
  have hne : line ≠ [] := by
    rintro rfl
    cases hstatus
  rw [readResponse, readFramed_line hne hline hname]
  cases readFramed name s with
  | none => rfl
  | some p =>
    obtain ⟨lines, body, rest⟩ := p
    rw [Option.map_some, Option.filter_some, if_pos]
    exact hstatus

/-- The field is the first line with the name. -/
theorem field_of_notMem (front back : List (List UInt8)) (value : List UInt8)
    (h : ∀ l ∈ front, name.isPrefixOf l = false) :
    field name (front ++ (name ++ value) :: back) = some value := by
  have hnone : front.find? (name.isPrefixOf ·) = none := by
    rw [List.find?_eq_none]
    intro l hl
    rw [h l hl]
    exact Bool.false_ne_true
  have hname : name.isPrefixOf (name ++ value) = true :=
    List.isPrefixOf_iff_prefix.mpr (List.prefix_append name value)
  rw [field, List.find?_append, hnone, List.find?_cons_of_pos hname]
  simp

end GolangSandbox.Model
