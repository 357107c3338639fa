import GolangSandbox.Program.TinyWeb
import Mathlib.Data.List.DropRight

/-!
# Which type a file is served with

The suffix of a file name is what begins at the last dot of its last component (`extension`),
and each of five suffixes has a type of its own (`mimeType`). The code looks for the five one
after another, anywhere in the name, and what it finds first decides (`getFiletype_eq`). A name
that has one of the five as its suffix contains it, so what the code finds is that suffix or one
that it looks for before (`find?_eq_iff`). For two of the five it has no right type at all.
-/

set_option autoImplicit false

namespace GolangSandbox.Analysis

open GolangSandbox.Program

variable {filename rest : Bytes}

/-! ## The suffix of a name -/

/-- What is behind the last slash. -/
def lastComponent (filename : Bytes) : Bytes := filename.rtakeWhile (· != slash)

/-- The last component from its last dot on, and nothing if it has none. -/
def extension (filename : Bytes) : Bytes :=
  if dot ∈ lastComponent filename then dot :: (lastComponent filename).rtakeWhile (· != dot)
  else []

/-- The types that the suffixes stand for. -/
def mimeType (suffix : Bytes) : Bytes :=
  if suffix = text ".html" then text "text/html"
  else if suffix = text ".gif" then text "image/gif"
  else if suffix = text ".png" then text "image/png"
  else if suffix = text ".jpg" then text "image/jpg"
  else if suffix = text ".jpeg" then text "image/jpeg"
  else text "text/plain"

section Separators

variable {c : UInt8} {xs ys : Bytes}

/-- A text without the separator is all behind it. -/
theorem rtakeWhile_append (hys : c ∉ ys) :
    (xs ++ ys).rtakeWhile (· != c) = xs.rtakeWhile (· != c) ++ ys := by
  induction ys using List.reverseRecOn with
  | nil => rw [List.append_nil, List.append_nil]
  | append_singleton ys y ih =>
    rw [List.mem_append, not_or, List.mem_singleton] at hys
    have hy : (y != c) = true := bne_iff_ne.mpr (Ne.symm hys.2)
    rw [← List.append_assoc, List.rtakeWhile_concat_pos (· != c) _ _ hy, ih hys.1,
      List.append_assoc]

/-- What is behind the last separator. -/
theorem rtakeWhile_append_cons (hys : c ∉ ys) :
    (xs ++ c :: ys).rtakeWhile (· != c) = ys := by
  rw [List.append_cons, rtakeWhile_append hys, List.rtakeWhile_concat_neg _ _ _ (by simp),
    List.nil_append]

/-- Where there is a separator, one is in front of what is behind the last. -/
theorem cons_rtakeWhile_suffix (hc : c ∈ xs) : (c :: xs.rtakeWhile (· != c)) <:+ xs := by
  obtain ⟨us, vs, hreverse, hus⟩ := List.eq_append_cons_of_mem (List.mem_reverse.mpr hc)
  have hxs : xs = vs.reverse ++ c :: us.reverse := by
    rw [← List.reverse_reverse xs, hreverse, List.reverse_append, List.reverse_cons,
      List.append_assoc, List.singleton_append]
  rw [hxs, rtakeWhile_append_cons (mt List.mem_reverse.mp hus)]
  exact List.suffix_append _ _

end Separators

/-- The suffix of a name is its end. -/
theorem extension_suffix (filename : Bytes) : extension filename <:+ filename := by
  unfold extension
  split
  · rename_i hdot
    exact (cons_rtakeWhile_suffix hdot).trans (List.rtakeWhile_suffix _ _)
  · exact List.nil_suffix

/-- A text that begins with its only dot and has no slash is the suffix of exactly the names
that end with it. -/
theorem extension_eq_iff (hdot : dot ∉ rest) (hslash : slash ∉ rest) :
    extension filename = dot :: rest ↔ dot :: rest <:+ filename := by
  constructor
  · intro h
    exact h ▸ extension_suffix filename
  · rintro ⟨front, rfl⟩
    have hnot : slash ∉ dot :: rest := by
      rw [List.mem_cons, not_or]
      exact ⟨by decide, hslash⟩
    have hlast : lastComponent (front ++ dot :: rest) =
        front.rtakeWhile (· != slash) ++ dot :: rest := rtakeWhile_append hnot
    rw [extension, hlast, if_pos (List.mem_append_right _ List.mem_cons_self),
      rtakeWhile_append_cons hdot]

/-! ## What the code finds -/

/-- The suffixes that the code looks for, in its order. -/
def suffixes : List Bytes := [text ".html", text ".gif", text ".png", text ".jpg", text ".jpeg"]

/-- The type that the code has for what it finds. -/
def typeFound (found : Option Bytes) : Bytes :=
  if found = some (text ".html") then text ".html"
  else if found = some (text ".gif") then text "image/gif"
  else if found = some (text ".png") then text "iamge/png"
  else if found = some (text ".jpg") then text "image/jpg"
  else if found = some (text ".jpeg") then text "image/jpeg"
  else text "text/plain"

/-- The first of the five that the name contains decides. -/
theorem getFiletype_eq (filename : Bytes) :
    getFiletype filename = typeFound (suffixes.find? (strstr filename)) := by
  simp only [getFiletype, suffixes, List.find?_cons, List.find?_nil]
  cases strstr filename (text ".html") with
  | true => rfl
  | false =>
    cases strstr filename (text ".gif") with
    | true => rfl
    | false =>
      cases strstr filename (text ".png") with
      | true => rfl
      | false =>
        cases strstr filename (text ".jpg") with
        | true => rfl
        | false => cases strstr filename (text ".jpeg") <;> rfl

theorem found_mem (filename : Bytes) :
    suffixes.find? (strstr filename) ∈ none :: suffixes.map some := by
  cases hfind : suffixes.find? (strstr filename) with
  | none => exact List.mem_cons_self
  | some suffix =>
    exact List.mem_cons_of_mem _ (List.mem_map_of_mem (List.mem_of_find?_eq_some hfind))

theorem typeFound_injective : ∀ found ∈ none :: suffixes.map some,
    ∀ found' ∈ none :: suffixes.map some, typeFound found = typeFound found' → found = found' := by
  decide

/-- Two files are served with the same type if and only if the first suffix found in their names
is the same. -/
theorem same_filetype_iff (filename filename' : Bytes) :
    getFiletype filename = getFiletype filename' ↔
      suffixes.find? (strstr filename) = suffixes.find? (strstr filename') := by
  rw [getFiletype_eq, getFiletype_eq]
  constructor
  · exact typeFound_injective _ (found_mem filename) _ (found_mem filename')
  · exact congrArg typeFound

/-- The first element with the property is `x`, or there is none if `x` is not in the list, if
and only if no element in front of `x` has it. -/
theorem find?_eq_iff {p : Bytes → Bool} {x : Bytes} {xs : List Bytes}
    (hx : x ∈ xs → p x = true) :
    xs.find? p = (if x ∈ xs then some x else none) ↔
      ∀ y ∈ xs.takeWhile (· ≠ x), p y = false := by
  induction xs with
  | nil => exact iff_of_true rfl nofun
  | cons y ys ih =>
    by_cases hyx : y = x
    · subst hyx
      rw [List.find?_cons_of_pos (hx List.mem_cons_self), if_pos List.mem_cons_self,
        List.takeWhile_cons_of_neg (by simp)]
      exact iff_of_true rfl nofun
    · have hmem : x ∈ y :: ys ↔ x ∈ ys := by
        rw [List.mem_cons, or_iff_right (Ne.symm hyx)]
      rw [List.takeWhile_cons_of_pos (by simpa using hyx), List.forall_mem_cons]
      cases hp : p y with
      | false =>
        rw [List.find?_cons_of_neg (by simp [hp])]
        simp only [hmem, true_and]
        exact ih fun h => hx (hmem.mpr h)
      | true =>
        rw [List.find?_cons_of_pos hp]
        refine iff_of_false ?_ nofun
        split
        · exact fun h => hyx (Option.some.inj h)
        · nofun

/-- The suffix of the name, if it is one of the five. -/
def wanted (filename : Bytes) : Option Bytes :=
  if extension filename ∈ suffixes then some (extension filename) else none

theorem mimeType_extension (filename : Bytes) :
    mimeType (extension filename) = mimeType ((wanted filename).getD []) := by
  unfold wanted
  split
  · rfl
  · rename_i hother
    simp only [suffixes, List.mem_cons, List.not_mem_nil, or_false, not_or] at hother
    obtain ⟨hhtml, hgif, hpng, hjpg, hjpeg⟩ := hother
    rw [mimeType, if_neg hhtml, if_neg hgif, if_neg hpng, if_neg hjpg, if_neg hjpeg]
    rfl

/-- The type is right if the suffix wanted is found and is not one of the two whose type is
wrong. -/
theorem typeFound_eq_iff : ∀ found ∈ none :: suffixes.map some,
    ∀ suffix ∈ none :: suffixes.map some, typeFound found = mimeType (suffix.getD []) ↔
      found = suffix ∧ suffix ≠ some (text ".html") ∧ suffix ≠ some (text ".png") := by
  decide

/-- The suffix of the name decides: it is not one of the two whose type is wrong, and the name
does not contain a suffix that is looked for before it. -/
structure SuffixDecides (filename : Bytes) : Prop where
  html : extension filename ≠ text ".html"
  png : extension filename ≠ text ".png"
  first : ∀ suffix ∈ suffixes.takeWhile (· ≠ extension filename), strstr filename suffix = false

theorem wanted_eq_some_iff {suffix : Bytes} (h : suffix ∈ suffixes) :
    wanted filename = some suffix ↔ extension filename = suffix := by
  unfold wanted
  split
  · exact Option.some_inj
  · rename_i hother
    exact iff_of_false nofun fun heq => hother (heq ▸ h)

/-- What is found is the suffix wanted if nothing else comes first. -/
theorem find?_eq_wanted_iff (filename : Bytes) :
    suffixes.find? (strstr filename) = wanted filename ↔
      ∀ suffix ∈ suffixes.takeWhile (· ≠ extension filename), strstr filename suffix = false := by
  unfold wanted
  exact find?_eq_iff fun _ => (strstr_iff _ _).mpr (extension_suffix filename).isInfix

/-- **The suffix of a file name and its type.** The type of a file is the one of its suffix if
and only if the suffix is neither `.html` nor `.png`, and the name contains none of the suffixes
that are looked for before its own, or none at all if it has another suffix or none.
SOURCE: csapp/charpter11/tinyweb.c:173-192, csapp/charpter11/tinyweb.c:214-229 -/
theorem filetype_of_suffix_iff (filename : Bytes) :
    getFiletype filename = mimeType (extension filename) ↔ SuffixDecides filename := by
  have hwanted : wanted filename ∈ none :: suffixes.map some := by
    unfold wanted
    split
    · rename_i hmem
      exact List.mem_cons_of_mem _ (List.mem_map_of_mem hmem)
    · exact List.mem_cons_self
  rw [getFiletype_eq, mimeType_extension, typeFound_eq_iff _ (found_mem filename) _ hwanted,
    find?_eq_wanted_iff, ne_eq, wanted_eq_some_iff (by decide), ne_eq,
    wanted_eq_some_iff (by decide)]
  exact ⟨fun ⟨hfirst, hhtml, hpng⟩ => ⟨hhtml, hpng, hfirst⟩,
    fun h => ⟨h.first, h.html, h.png⟩⟩

/-- The type of an HTML file, the type of a PNG file, and two text files of which one has a dot
in its name. -/
theorem filetype_wrong :
    getFiletype (text "./index.html") ≠ mimeType (extension (text "./index.html")) ∧
    getFiletype (text "./a.png") ≠ mimeType (extension (text "./a.png")) ∧
    extension (text "./x.gif.txt") = extension (text "./x.txt") ∧
    getFiletype (text "./x.gif.txt") ≠ getFiletype (text "./x.txt") := by
  decide

end GolangSandbox.Analysis
