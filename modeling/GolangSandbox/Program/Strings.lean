import GolangSandbox.Program.Protocol
import Mathlib.Data.List.Infix
import Mathlib.Data.List.TakeWhile

/-!
# Strings

A string is the list of its bytes, and what a buffer holds as a string ends at the first NUL
(`cstring`). These are the functions of the C library that the programs use on strings.
-/

set_option autoImplicit false

namespace GolangSandbox.Program

/-- The bytes of an ASCII text. -/
def text (s : String) : Bytes := s.toList.map fun c => UInt8.ofNat c.toNat

def nul : UInt8 := 0

def slash : UInt8 := 47

def dot : UInt8 := 46

def questionMark : UInt8 := 63

/-- A carriage return and a newline. -/
def crlf : Bytes := [13, 10]

/-- The string that begins in a buffer. -/
def cstring (buf : Bytes) : Bytes := buf.takeWhile (· != nul)

def strlen (buf : Bytes) : ℕ := (cstring buf).length

/-- `strstr` finds the text in the string. -/
def strstr (haystack needle : Bytes) : Bool := haystack.tails.any (needle.isPrefixOf ·)

/-- `isspace` of the C locale. -/
def isspace (c : UInt8) : Bool := c == 32 || (9 ≤ c && c ≤ 13)

/-- `tolower` of the C locale. -/
def tolower (c : UInt8) : UInt8 := if 65 ≤ c && c ≤ 90 then c + 32 else c

/-- `strcasecmp` finds no difference. -/
def SameIgnoringCase (s t : Bytes) : Prop := s.map tolower = t.map tolower

instance (s t : Bytes) : Decidable (SameIgnoringCase s t) :=
  inferInstanceAs (Decidable (_ = _))

/-- `%d` for a number that is not negative. -/
def decimal (n : ℕ) : Bytes := (Nat.toDigits 10 n).map fun c => UInt8.ofNat c.toNat

variable {buf : Bytes}

/-- Without a NUL the string is all of the buffer. -/
theorem cstring_eq_self (h : nul ∉ buf) : cstring buf = buf := by
  rw [cstring, List.takeWhile_eq_self_iff]
  intro c hc
  rw [bne_iff_ne]
  rintro rfl
  exact h hc

theorem length_cstring_le (buf : Bytes) : (cstring buf).length ≤ buf.length :=
  (List.takeWhile_prefix _).length_le

theorem nul_notMem_cstring (buf : Bytes) : nul ∉ cstring buf := by
  intro h
  have hnot := List.mem_takeWhile_imp h
  revert hnot
  decide

/-- `strstr` finds exactly the parts of a string. -/
theorem strstr_iff (haystack needle : Bytes) :
    strstr haystack needle = true ↔ needle <:+: haystack := by
  rw [strstr, List.any_eq_true, List.infix_iff_prefix_suffix]
  constructor
  · rintro ⟨t, ht, hbegins⟩
    exact ⟨t, List.isPrefixOf_iff_prefix.mp hbegins, (List.mem_tails _ _).mp ht⟩
  · rintro ⟨t, hbegins, ht⟩
    exact ⟨t, (List.mem_tails _ _).mpr ht, List.isPrefixOf_iff_prefix.mpr hbegins⟩

end GolangSandbox.Program
