import GolangSandbox.Interface.Pieces
import Mathlib.Data.List.TakeWhile

/-!
# The request line

The words of the request line are parts of it (`scanWord_some`), so a URI is shorter than
the buffer by the method and a space. `parse_uri` puts a dot in front of it, for which there
is room, and sometimes `home.html` behind it, for which there may be none. It looks at the
whole URI to decide between files and programs, and cuts at the first `?` only for programs.
-/

set_option autoImplicit false

namespace GolangSandbox.Analysis

open GolangSandbox.Program GolangSandbox.Interface

variable {s word rest buf method uri : Bytes}

/-! ## Words -/

/-- What one `%s` does: it skips white space and takes the bytes up to the next. -/
theorem scanWord_some (h : scanWord s = some (word, rest)) :
    ∃ blank, s = blank ++ word ++ rest ∧ word ≠ [] ∧ (∀ c ∈ word, isspace c = false) ∧
      ∀ c ∈ rest.head?, isspace c = true := by
  unfold scanWord at h
  dsimp only at h
  split at h
  · cases h
  · rename_i hne
    cases h
    have hblank := List.takeWhile_append_dropWhile (p := isspace) (l := s)
    have hword := List.takeWhile_append_dropWhile (p := (! isspace ·)) (l := s.dropWhile isspace)
    refine ⟨s.takeWhile isspace, ?_, ?_, ?_, ?_⟩
    · rw [List.append_assoc, hword, hblank]
    · obtain ⟨c, t, hct⟩ := List.exists_cons_of_ne_nil hne
      have hc : isspace c = false := by
        have hhead := List.head?_dropWhile_not isspace s
        rw [hct] at hhead
        simpa using hhead
      rw [hct, List.takeWhile_cons_of_pos (by rw [hc]; rfl)]
      exact List.cons_ne_nil _ _
    · intro c hc
      have hnot := List.mem_takeWhile_imp hc
      simpa using hnot
    · intro c hc
      have hhead := List.head?_dropWhile_not (! isspace ·) (s.dropWhile isspace)
      rw [Option.mem_def.mp hc] at hhead
      simpa using hhead

theorem scanWord_mem (h : scanWord s = some (word, rest)) :
    (∀ c ∈ word, c ∈ s) ∧ ∀ c ∈ rest, c ∈ s := by
  obtain ⟨blank, rfl, -⟩ := scanWord_some h
  constructor
  · intro c hc
    simp [hc]
  · intro c hc
    simp [hc]

theorem scanRequestLine_none (h : scanWord buf = none) :
    scanRequestLine buf = (none, none, none) := by
  rw [scanRequestLine, h]

/-- The method is the first word, and the URI the word behind it. -/
theorem scanRequestLine_some {rest : Bytes} (h : scanWord buf = some (method, rest)) :
    (scanRequestLine buf).1 = some method ∧
      (scanRequestLine buf).2.1 = (scanWord rest).map Prod.fst := by
  rw [scanRequestLine, h]
  dsimp only
  cases scanWord rest with
  | none => exact ⟨rfl, rfl⟩
  | some second => exact ⟨rfl, rfl⟩

theorem method_scanned (h : (scanRequestLine buf).1 = some method) :
    ∃ rest, scanWord buf = some (method, rest) := by
  cases hfirst : scanWord buf with
  | none =>
    rw [scanRequestLine_none hfirst] at h
    cases h
  | some first =>
    rw [(scanRequestLine_some hfirst).1] at h
    exact ⟨first.2, by rw [← Option.some.inj h]⟩

theorem uri_scanned (h : (scanRequestLine buf).2.1 = some uri) :
    ∃ method rest back, scanWord buf = some (method, rest) ∧ scanWord rest = some (uri, back) := by
  cases hfirst : scanWord buf with
  | none =>
    rw [scanRequestLine_none hfirst] at h
    cases h
  | some first =>
    rw [(scanRequestLine_some hfirst).2, Option.map_eq_some_iff] at h
    obtain ⟨second, hsecond, rfl⟩ := h
    exact ⟨first.1, first.2, second.2, rfl, hsecond⟩

/-- A URI that was scanned is not empty. -/
theorem uri_ne_nil (h : (scanRequestLine buf).2.1 = some uri) : uri ≠ [] := by
  obtain ⟨word, rest, back, -, huri⟩ := uri_scanned h
  obtain ⟨-, -, hne, -⟩ := scanWord_some huri
  exact hne

/-- The URI is behind the method and a space. -/
theorem length_uri_lt (hmethod : (scanRequestLine buf).1 = some method)
    (huri : (scanRequestLine buf).2.1 = some uri) : method.length + uri.length < buf.length := by
  obtain ⟨rest, hfirst⟩ := method_scanned hmethod
  obtain ⟨word, rest', back, hfirst', hsecond⟩ := uri_scanned huri
  rw [hfirst'] at hfirst
  cases hfirst
  obtain ⟨blank, rfl, -, -, hspace⟩ := scanWord_some hfirst'
  obtain ⟨blank', rfl, hne, hword, -⟩ := scanWord_some hsecond
  have hblank : blank' ≠ [] := by
    rintro rfl
    obtain ⟨c, uri, rfl⟩ := List.exists_cons_of_ne_nil hne
    have hc := hspace c rfl
    rw [hword c List.mem_cons_self] at hc
    cases hc
  have hpos := List.length_pos_iff.mpr hblank
  simp only [List.length_append]
  omega

/-- A method that compares equal to `GET` has three bytes. -/
theorem length_method (h : SameIgnoringCase method (text "GET")) : method.length = 3 := by
  have hlength := congrArg List.length h
  rw [List.length_map, List.length_map] at hlength
  exact hlength

/-! ## The buffers of `parse_uri` -/

/-- The strings and their NULs fit `filename[MAXLINE]` and `cgiargs[MAXLINE]`. -/
def FitsBuffers (t : Target) : Prop :=
  t.filename.length + 1 ≤ MAXLINE ∧ t.cgiargs.length + 1 ≤ MAXLINE

/-- **The output of `parse_uri` fits its buffers** if and only if `home.html` is not
appended, or the URI leaves room for it.
SOURCE: csapp/charpter11/tinyweb.c:147-171 -/
theorem parse_fits_iff (line method uri : Bytes) (version : Option Bytes)
    (hline : line.length ≤ MAXLINE - 1)
    (hscan : scanRequestLine (cstring line) = (some method, some uri, version))
    (hget : SameIgnoringCase method (text "GET")) :
    (∃ t, parseUri uri = some t ∧ FitsBuffers t) ↔
      strstr uri cgiBin = true ∨ uri.getLast? ≠ some slash ∨ uri.length ≤ 8181 := by
  have hmethod : (scanRequestLine (cstring line)).1 = some method := by rw [hscan]
  have huri : (scanRequestLine (cstring line)).2.1 = some uri := by rw [hscan]
  have hlt := length_uri_lt hmethod huri
  have hne := uri_ne_nil huri
  have hget := length_method hget
  have hcstring := length_cstring_le line
  simp only [MAXLINE] at hline
  cases hdynamic : strstr uri cgiBin with
  | true =>
    refine iff_of_true ⟨_, parseUri_dynamic hdynamic, ?_, ?_⟩ (.inl rfl)
    · have hpath := (List.takeWhile_prefix (l := uri) (· != questionMark)).length_le
      simp only [List.length_append, List.length_singleton, MAXLINE]
      omega
    · have hargs := (List.dropWhile_suffix (l := uri) (· != questionMark)).length_le
      simp only [List.length_tail, MAXLINE]
      omega
  | false =>
    rw [parseUri_static hdynamic hne]
    by_cases hslash : uri.getLast? = some slash
    · have hhome : homeHtml.length = 9 := rfl
      rw [if_pos hslash]
      constructor
      · rintro ⟨t, ⟨⟩, hfits, -⟩
        simp only [List.length_append, List.length_singleton, hhome, MAXLINE] at hfits
        exact .inr (.inr (by omega))
      · rintro (hfalse | hnot | hroom)
        · cases hfalse
        · exact absurd hslash hnot
        · refine ⟨_, rfl, ?_, Nat.le_add_left 1 8191⟩
          simp only [List.length_append, List.length_singleton, hhome, MAXLINE]
          omega
    · rw [if_neg hslash]
      refine iff_of_true ⟨_, rfl, ?_, Nat.le_add_left 1 8191⟩ (.inr (.inl hslash))
      simp only [List.length_append, List.length_singleton, List.length_nil, MAXLINE]
      omega

theorem parse_fits_root :
    ∃ t, parseUri (text "/") = some t ∧ FitsBuffers t :=
  (parse_fits_iff (text "get / HTTP/1.0\r\n") (text "get") (text "/") (some (text "HTTP/1.0"))
    (by decide) (by decide) (by decide)).mpr (by decide)

/-- The last word of a line. -/
theorem scanWord_last (hne : word ≠ []) (hword : ∀ c ∈ word, isspace c = false) :
    scanWord word = some (word, []) := by
  have hskip : word.dropWhile isspace = word := by
    obtain ⟨c, t, rfl⟩ := List.exists_cons_of_ne_nil hne
    have hc := hword c List.mem_cons_self
    rw [List.dropWhile_cons_of_neg (by simp [hc])]
  have htake : word.takeWhile (! isspace ·) = word := by
    rw [List.takeWhile_eq_self_iff]
    intro c hc
    rw [hword c hc]
    rfl
  have hdrop : word.dropWhile (! isspace ·) = [] := by
    rw [List.dropWhile_eq_nil_iff]
    intro c hc
    rw [hword c hc]
    rfl
  rw [scanWord, hskip, if_neg hne, htake, hdrop]

theorem scan_one_word (hne : word ≠ []) (hword : ∀ c ∈ word, isspace c = false) :
    (scanRequestLine word).1 = some word := by
  rw [scanRequestLine, scanWord_last hne hword]
  rfl

/-- A line of one word after `GET`. -/
theorem scan_get (hne : uri ≠ []) (hword : ∀ c ∈ uri, isspace c = false) :
    scanRequestLine (text "GET" ++ space :: uri) = (some (text "GET"), some uri, none) := by
  have hskip : scanWord (space :: uri) = scanWord uri := by
    rw [scanWord, scanWord, List.dropWhile_cons_of_pos (by decide)]
  have hmethod : scanWord (text "GET" ++ space :: uri) = some (text "GET", space :: uri) := rfl
  rw [scanRequestLine, hmethod]
  dsimp only
  rw [hskip, scanWord_last hne hword]
  rfl

/-- The longest URI that a line can have, and a slash at its end: there is no room for
`home.html`. -/
theorem long_uri_overflows :
    ∃ stream uri t, firstLine stream = stream ∧
      scanRequestLine (cstring stream) = (some (text "GET"), some uri, none) ∧
      parseUri uri = some t ∧ ¬ FitsBuffers t := by
  have hexists : ∃ uri : Bytes, uri.length = 8187 ∧ uri.getLast? = some slash ∧
      ∀ c ∈ uri, c = slash ∨ c = 97 := by
    refine ⟨List.replicate 8186 97 ++ [slash], ?_, List.getLast?_concat, ?_⟩
    · rw [List.length_append, List.length_replicate, List.length_singleton]
    · intro c hc
      obtain hc | hc := List.mem_append.mp hc
      · exact .inr (List.eq_of_mem_replicate hc)
      · exact .inl (List.mem_singleton.mp hc)
  obtain ⟨uri, hlength, hlast, hbytes⟩ := hexists
  have hne : uri ≠ [] := List.ne_nil_of_length_pos (by omega)
  have hword : ∀ c ∈ uri, isspace c = false := by
    intro c hc
    obtain rfl | rfl := hbytes c hc
    · decide
    · decide
  have hother : ∀ c : UInt8, c ≠ slash → c ≠ 97 → c ∉ uri := by
    intro c hslash ha hc
    exact (hbytes c hc).elim hslash ha
  have houtside : ∀ c : UInt8, c ∉ text "GET" → c ≠ space → c ∉ uri →
      c ∉ text "GET" ++ space :: uri := by
    intro c hget hspace huri hc
    obtain hc | hc := List.mem_append.mp hc
    · exact hget hc
    · obtain hc | hc := List.mem_cons.mp hc
      · exact hspace hc
      · exact huri hc
  have hstatic : strstr uri cgiBin = false := by
    rw [← Bool.not_eq_true, strstr_iff]
    intro hoccurs
    exact hother 99 (by decide) (by decide) (hoccurs.subset (by decide))
  refine ⟨text "GET" ++ space :: uri, uri, _, ?_, ?_, parseUri_static hstatic hne, ?_⟩
  · apply firstLine_eq_self
    · exact houtside newline (by decide) (by decide) (hother _ (by decide) (by decide))
    · rw [List.length_append, List.length_cons, hlength]
      decide
  · rw [cstring_eq_self]
    · exact scan_get hne hword
    · exact houtside nul (by decide) (by decide) (hother _ (by decide) (by decide))
  · rintro ⟨hfits, -⟩
    have hhome : homeHtml.length = 9 := rfl
    rw [if_pos hlast] at hfits
    simp only [List.length_append, List.length_singleton, hhome, hlength, MAXLINE] at hfits
    omega

/-! ## The query -/

/-- The query after a path changes neither the file nor what is done with it, and is what
the program gets. -/
def QueryKept (p q : Bytes) : Prop :=
  ∃ t u, parseUri p = some t ∧ parseUri (p ++ questionMark :: q) = some u ∧
    u.isStatic = t.isStatic ∧ u.filename = t.filename ∧ (u.isStatic = false → u.cgiargs = q)

/-- A query does not make a static file of a program. -/
theorem strstr_append (h : strstr s cgiBin = true) (rest : Bytes) :
    strstr (s ++ rest) cgiBin = true := by
  rw [strstr_iff] at h ⊢
  exact h.trans (List.infix_append' [] s rest)

/-- A static file gets the query as a part of its name. -/
theorem filename_query {p q home home' : Bytes} (hhome : home = [] ∨ home = homeHtml) :
    [dot] ++ (p ++ questionMark :: q) ++ home' ≠ [dot] ++ p ++ home := by
  intro h
  simp only [List.append_assoc] at h
  have hbehind : questionMark :: q ++ home' = home :=
    List.append_cancel_left (List.append_cancel_left h)
  obtain rfl | rfl := hhome
  · cases hbehind
  · exact absurd (List.cons.inj hbehind).1 (by decide)

/-- **The query never changes which file is served** if and only if the path before it names
a program.
SOURCE: csapp/charpter11/tinyweb.c:142-171 -/
theorem query_kept_iff (p q : Bytes) (hp : questionMark ∉ p) :
    QueryKept p q ↔ strstr p cgiBin = true := by
  constructor
  · rintro ⟨t, u, ht, hu, hflag, hfile, -⟩
    by_contra hprogram
    have hstatic : strstr p cgiBin = false := eq_false_of_ne_true hprogram
    have hne : p ≠ [] := by
      rintro rfl
      rw [parseUri_nil] at ht
      cases ht
    rw [parseUri_static hstatic hne] at ht
    cases ht
    cases hquery : strstr (p ++ questionMark :: q) cgiBin with
    | true =>
      rw [parseUri_dynamic hquery] at hu
      cases hu
      cases hflag
    | false =>
      rw [parseUri_static hquery (by simp)] at hu
      cases hu
      apply filename_query _ hfile
      split
      · exact .inr rfl
      · exact .inl rfl
  · intro hprogram
    have hpath : ∀ c ∈ p, (c != questionMark) = true := by
      intro c hc
      rw [bne_iff_ne]
      rintro rfl
      exact hp hc
    have hself : p.takeWhile (· != questionMark) = p := List.takeWhile_eq_self_iff.mpr hpath
    have htake : (p ++ questionMark :: q).takeWhile (· != questionMark) = p := by
      rw [List.takeWhile_append_of_pos hpath, List.takeWhile_cons_of_neg (by decide),
        List.append_nil]
    have hdrop : (p ++ questionMark :: q).dropWhile (· != questionMark) = questionMark :: q := by
      rw [List.dropWhile_append_of_pos hpath, List.dropWhile_cons_of_neg (by decide)]
    refine ⟨_, _, parseUri_dynamic hprogram, parseUri_dynamic (strstr_append hprogram _), rfl,
      ?_, ?_⟩
    · rw [htake, hself]
    · rw [hdrop]
      exact fun _ => rfl

theorem query_kept_adder : QueryKept (text "/cgi-bin/adder") (text "1&2") :=
  (query_kept_iff (text "/cgi-bin/adder") (text "1&2") (by decide)).mpr (by decide)

/-- The query makes a program of one file, and another name of the other. -/
theorem query_not_kept :
    ¬ QueryKept (text "/home.html") (text "cgi-bin") ∧
      ¬ QueryKept (text "/home.html") (text "a=1") := by
  constructor
  · rintro ⟨t, u, ⟨⟩, ⟨⟩, hflag, -⟩
    revert hflag
    decide
  · rintro ⟨t, u, ⟨⟩, ⟨⟩, -, hfile, -⟩
    revert hfile
    decide

/-! ## What the first line decides -/

/-- The words of the first line of a stream. -/
def requestLine (stream : Bytes) : Option Bytes × Option Bytes × Option Bytes :=
  scanRequestLine (cstring (firstLine stream))

section Transaction

variable {readlineb : Readlineb} {stat : Bytes → Option Stat} {uninitialised : Bytes}
variable {calls : ℕ} {request : Incoming}

theorem doit_nil (h : ReadsLine readlineb) (hnil : request.remaining = []) :
    doit readlineb stat uninitialised calls request = some .undefined := by
  unfold doit
  dsimp only
  rw [line_readLine h, if_pos hnil]

theorem doit_blank (h : ReadsLine readlineb) (hne : request.remaining ≠ [])
    (hmethod : (requestLine request.remaining).1 = none) :
    doit readlineb stat uninitialised calls request = some .undefined := by
  unfold requestLine at hmethod
  unfold doit
  dsimp only
  rw [line_readLine h, if_neg hne]
  dsimp only
  rw [hmethod]

theorem doit_other (h : ReadsLine readlineb) (hne : request.remaining ≠ [])
    (hmethod : (requestLine request.remaining).1 = some method)
    (hother : ¬ SameIgnoringCase method (text "GET")) :
    doit readlineb stat uninitialised calls request =
      some (.clienterror method notImplemented) := by
  unfold requestLine at hmethod
  unfold doit
  dsimp only
  rw [line_readLine h, if_neg hne]
  dsimp only
  rw [hmethod]
  exact if_pos hother

theorem doit_get (h : ReadsLine readlineb) (hne : request.remaining ≠ [])
    (hmethod : (requestLine request.remaining).1 = some method)
    (hget : SameIgnoringCase method (text "GET")) :
    doit readlineb stat uninitialised calls request =
      (readRequesthdrs readlineb uninitialised calls (request.readLine readlineb).2).map
        fun _ => match (requestLine request.remaining).2.1.bind parseUri with
          | none => .undefined
          | some t => answerFile stat t := by
  unfold requestLine at hmethod ⊢
  unfold doit
  dsimp only
  rw [line_readLine h, if_neg hne]
  dsimp only
  rw [hmethod]
  exact if_neg (not_not.mpr hget)

end Transaction

end GolangSandbox.Analysis
