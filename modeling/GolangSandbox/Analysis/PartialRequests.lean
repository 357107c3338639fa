import GolangSandbox.Analysis.HeaderLoop
import GolangSandbox.Analysis.RequestLine

/-!
# Partial requests

`doit` checks neither what `Rio_readlineb` nor what `sscanf` returns, so it is the request
that has to supply what `doit` uses: a line for `buf`, a word for `method`, and after a
`GET` a second word for `uri`, which is then not empty. Without the second word it is too
late only when the header loop has ended.
-/

set_option autoImplicit false

namespace GolangSandbox.Analysis

open GolangSandbox.Program GolangSandbox.Interface

variable {readlineb : Readlineb} {stat : Bytes → Option Stat} {uninitialised uri : Bytes}
variable {s : Incoming} {t : Target}

/-- However long the transaction goes on, nothing is used that was not assigned, and no byte
outside of a string. -/
def UsesAssigned (readlineb : Readlineb) (stat : Bytes → Option Stat) (uninitialised : Bytes)
    (s : Incoming) : Prop :=
  ∀ calls, doit readlineb stat uninitialised calls s ≠ some .undefined

/-- The request supplies a first line with a method, and after a `GET` a URI, unless the
headers never end. -/
def Supplies (uninitialised stream : Bytes) : Prop :=
  stream ≠ [] ∧ ∃ method, (requestLine stream).1 = some method ∧
    (SameIgnoringCase method (text "GET") → (requestLine stream).2.1 ≠ none ∨
      ¬ HasEnd uninitialised (stream.drop (firstLine stream).length))

theorem answerFile_ne_undefined : answerFile stat t ≠ .undefined := by
  unfold answerFile
  split
  · exact nofun
  · split
    · split
      · exact nofun
      · exact nofun
    · split
      · exact nofun
      · exact nofun

/-- A request with a URI is answered once the headers have ended. -/
theorem doit_uri (h : ReadsLine readlineb) (hne : s.remaining ≠ []) {method : Bytes}
    (hmethod : (requestLine s.remaining).1 = some method)
    (hget : SameIgnoringCase method (text "GET"))
    (huri : (requestLine s.remaining).2.1 ≠ none) :
    UsesAssigned readlineb stat uninitialised s := by
  intro calls
  obtain ⟨uri, huri⟩ := Option.ne_none_iff_exists'.mp huri
  obtain ⟨t, ht⟩ := Option.ne_none_iff_exists'.mp (mt parseUri_eq_none.mp (uri_ne_nil huri))
  rw [doit_get h hne hmethod hget, huri, Option.bind_some, ht]
  intro hundefined
  obtain ⟨-, -, hanswer⟩ := Option.map_eq_some_iff.mp hundefined
  exact answerFile_ne_undefined hanswer

/-- **`doit` uses only what was assigned** if and only if the request supplies it.
SOURCE: csapp/charpter11/tinyweb.c:55-80 -/
theorem uses_assigned_iff (h : ReadsLine readlineb) (stat : Bytes → Option Stat)
    (uninitialised : Bytes) (s : Incoming) :
    UsesAssigned readlineb stat uninitialised s ↔ Supplies uninitialised s.remaining := by
  have hrest := remaining_readLine h s
  constructor
  · intro huses
    have hne : s.remaining ≠ [] := fun hnil => huses 0 (doit_nil h hnil)
    refine ⟨hne, ?_⟩
    cases hmethod : (requestLine s.remaining).1 with
    | none => exact absurd (doit_blank h hne hmethod) (huses 0)
    | some method =>
      refine ⟨method, rfl, fun hget => ?_⟩
      by_contra hnot
      rw [not_or, not_not, not_not, ← hrest] at hnot
      obtain ⟨t, ht⟩ := exists_readRequesthdrs h hnot.2
      apply huses (s.readLine readlineb).2.remaining.length
      rw [doit_get h hne hmethod hget, ht, hnot.1]
      rfl
  · rintro ⟨hne, method, hmethod, hsupplied⟩
    by_cases hget : SameIgnoringCase method (text "GET")
    · obtain huri | hend := hsupplied hget
      · exact doit_uri h hne hmethod hget huri
      · intro calls
        rw [← hrest] at hend
        rw [doit_get h hne hmethod hget, readRequesthdrs_endless h hend]
        exact nofun
    · intro calls
      rw [doit_other h hne hmethod hget]
      exact nofun

theorem uses_assigned_home :
    UsesAssigned oneRefill (fun _ => none) [] ⟨rioReadinitb 4, text "GET / HTTP/1.0\r\n\r\n"⟩ :=
  (uses_assigned_iff readsLine_oneRefill _ [] _).mpr
    ⟨by decide, text "GET", rfl, fun _ => .inl nofun⟩

/-- No request at all, a blank line, and a `GET` without a URI. -/
theorem uses_unassigned :
    ¬ UsesAssigned oneRefill (fun _ => none) [] ⟨rioReadinitb 4, []⟩ ∧
      ¬ UsesAssigned oneRefill (fun _ => none) [] ⟨rioReadinitb 4, text "\r\n"⟩ ∧
      ¬ UsesAssigned oneRefill (fun _ => none) [] ⟨rioReadinitb 4, text "GET\r\n\r\n"⟩ :=
  ⟨fun h => h 0 rfl, fun h => h 0 rfl, fun h => h 0 rfl⟩

end GolangSandbox.Analysis
