import GolangSandbox.Analysis.RequestLine

/-!
# Error responses

The body of an error is a frame of fixed length around its cause, which the client controls
(`length_errorBody`): the method, or a file name that `parse_uri` made of the URI. The cause
is a string without a NUL (`clienterror_cause`), so `strlen` sees the whole body and the
announced length is right; whether the body fits depends on the length of the cause.
-/

set_option autoImplicit false

namespace GolangSandbox.Analysis

open GolangSandbox.Program GolangSandbox.Interface

variable {readlineb : Readlineb} {stat : Bytes → Option Stat} {uninitialised cause uri : Bytes}
variable {calls : ℕ} {s : Incoming} {t : Target} {e : ErrorText}

/-- The body and its NUL fit `body[MAXBUF]`, and the writes end with the number of bytes of
the body, an empty line and the body. -/
def WellFramed (cause : Bytes) (e : ErrorText) : Prop :=
  (errorBody cause e).length + 1 ≤ MAXBUF ∧
    ∃ status type, clienterror cause e = [status, type,
      text "Content-length: " ++ decimal (errorBody cause e).length ++ crlf ++ crlf,
      errorBody cause e]

/-- The errors of `doit`. -/
def errorTexts : List ErrorText := [notImplemented, notFound, cannotRead, cannotRun]

theorem length_errorBody (cause : Bytes) (e : ErrorText) :
    (errorBody cause e).length = (errorBody [] e).length + cause.length := by
  simp only [errorBody, List.length_append, List.length_nil]
  omega

/-- The body has no NUL, unless the cause has one. -/
theorem nul_notMem_errorBody (he : e ∈ errorTexts) (hcause : nul ∉ cause) :
    nul ∉ errorBody cause e := by
  have hframe : ∀ e ∈ errorTexts, nul ∉ e.errnum ∧ nul ∉ e.shortmsg ∧ nul ∉ e.longmsg := by
    decide
  obtain ⟨herrnum, hshortmsg, hlongmsg⟩ := hframe e he
  have hcolon : nul ∉ text ": " := by decide
  have hcrlf : nul ∉ crlf := by decide
  have hhead : nul ∉ text "<html><title>Tiny Error</title>" ++ text "<body bgcolor=ffffff>\r\n" :=
    List.not_mem_append (by decide) (by decide)
  have htitle := List.not_mem_append (List.not_mem_append (List.not_mem_append
    (List.not_mem_append hhead herrnum) hcolon) hshortmsg) hcrlf
  have hparagraph : nul ∉ text "<p>" := by decide
  have hmessage := List.not_mem_append (List.not_mem_append (List.not_mem_append
    (List.not_mem_append (List.not_mem_append htitle hparagraph) hlongmsg) hcolon) hcause) hcrlf
  exact List.not_mem_append hmessage (by decide)

theorem clienterror_eq (he : e ∈ errorTexts) (hcause : nul ∉ cause) :
    ∃ status type, clienterror cause e = [status, type,
      text "Content-length: " ++ decimal (errorBody cause e).length ++ crlf ++ crlf,
      errorBody cause e] := by
  have hstrlen : strlen (errorBody cause e) = (errorBody cause e).length := by
    rw [strlen, cstring_eq_self (nul_notMem_errorBody he hcause)]
  unfold clienterror
  dsimp only
  rw [hstrlen, List.take_length]
  exact ⟨_, _, rfl⟩

theorem wellFramed_iff (he : e ∈ errorTexts) (hcause : nul ∉ cause) :
    WellFramed cause e ↔ (errorBody [] e).length + cause.length < MAXBUF := by
  rw [WellFramed, and_iff_left (clienterror_eq he hcause), length_errorBody]
  exact Nat.lt_iff_add_one_le.symm

/-! ## The causes -/

/-- A word of a string has no NUL. -/
theorem nul_notMem_method {buf method : Bytes} (hbuf : nul ∉ buf)
    (h : (scanRequestLine buf).1 = some method) : nul ∉ method := by
  obtain ⟨rest, hmethod⟩ := method_scanned h
  exact fun hnul => hbuf ((scanWord_mem hmethod).1 nul hnul)

theorem nul_notMem_uri {buf : Bytes} (hbuf : nul ∉ buf)
    (h : (scanRequestLine buf).2.1 = some uri) : nul ∉ uri := by
  obtain ⟨method, rest, back, hmethod, huri⟩ := uri_scanned h
  exact fun hnul => hbuf ((scanWord_mem hmethod).2 nul ((scanWord_mem huri).1 nul hnul))

theorem nul_notMem_filename (huri : nul ∉ uri) (ht : parseUri uri = some t) :
    nul ∉ t.filename := by
  have hdot : nul ∉ [dot] := by decide
  have hhome : nul ∉ homeHtml := by decide
  cases hdynamic : strstr uri cgiBin with
  | true =>
    rw [parseUri_dynamic hdynamic] at ht
    cases ht
    have hpath : nul ∉ uri.takeWhile (· != questionMark) := fun h =>
      huri ((List.takeWhile_prefix _).subset h)
    simp only [List.mem_append, not_or]
    exact ⟨hdot, hpath⟩
  | false =>
    have hne : uri ≠ [] := by
      rintro rfl
      rw [parseUri_nil] at ht
      cases ht
    rw [parseUri_static hdynamic hne] at ht
    cases ht
    simp only [List.mem_append, not_or]
    refine ⟨⟨hdot, huri⟩, ?_⟩
    split
    · exact hhome
    · exact List.not_mem_nil

/-- The errors behind `stat` name the file. -/
theorem answerFile_clienterror (h : answerFile stat t = .clienterror cause e) :
    cause = t.filename ∧ e ∈ errorTexts := by
  unfold answerFile at h
  split at h
  · cases h
    exact ⟨rfl, by decide⟩
  · split at h
    · split at h
      · cases h
        exact ⟨rfl, by decide⟩
      · cases h
    · split at h
      · cases h
        exact ⟨rfl, by decide⟩
      · cases h

/-- **The causes of `doit`** are strings, and its errors are the four. -/
theorem clienterror_cause
    (h : doit readlineb stat uninitialised calls s = some (.clienterror cause e)) :
    nul ∉ cause ∧ e ∈ errorTexts := by
  unfold doit at h
  dsimp only at h
  split at h
  · cases h
  · rename_i buf hread
    have hbuf : nul ∉ buf := by
      unfold Incoming.readLine at hread
      dsimp only at hread
      split at hread
      · cases hread
      · cases hread
        exact nul_notMem_cstring _
    split at h
    · cases h
    · rename_i method hscan
      split at h
      · cases h
        exact ⟨nul_notMem_method hbuf hscan, by decide⟩
      · obtain ⟨-, -, hanswer⟩ := Option.map_eq_some_iff.mp h
        split at hanswer
        · cases hanswer
        · rename_i t ht
          obtain ⟨uri, hu, ht⟩ := Option.bind_eq_some_iff.mp ht
          obtain ⟨rfl, he⟩ := answerFile_clienterror hanswer
          exact ⟨nul_notMem_filename (nul_notMem_uri hbuf hu) ht, he⟩

/-- **An error response is well framed and fits** if and only if the frame of its text leaves
room for the cause.
SOURCE: csapp/charpter11/tinyweb.c:104-125 -/
theorem error_well_framed_iff (readlineb : Readlineb) (stat : Bytes → Option Stat)
    (uninitialised : Bytes) (calls : ℕ) (s : Incoming) (cause : Bytes) (e : ErrorText)
    (h : doit readlineb stat uninitialised calls s = some (.clienterror cause e)) :
    WellFramed cause e ↔ (errorBody [] e).length + cause.length < MAXBUF :=
  wellFramed_iff (clienterror_cause h).2 (clienterror_cause h).1

theorem length_notImplemented : (errorBody [] notImplemented).length = 152 := by rfl

/-- The lengths of the frames. -/
example : errorTexts.map (fun e => (errorBody [] e).length) = [152, 139, 138, 144] := rfl

theorem error_well_framed_put : WellFramed (text "PUT") notImplemented :=
  (error_well_framed_iff oneRefill (fun _ => none) [] 0
    ⟨rioReadinitb 4, text "PUT / HTTP/1.0\r\n"⟩ _ _ rfl).mpr
    (by rw [length_notImplemented]; decide)

/-- A request line that is all method. -/
theorem long_method_overflows :
    ∃ line : Bytes, line.length = 8191 ∧
      doit oneRefill (fun _ => none) [] 0 ⟨rioReadinitb 4, line⟩ =
        some (.clienterror line notImplemented) ∧ ¬ WellFramed line notImplemented := by
  have hexists : ∃ line : Bytes, line.length = 8191 ∧ ∀ c ∈ line, c = 65 :=
    ⟨List.replicate 8191 65, List.length_replicate, fun c hc => List.eq_of_mem_replicate hc⟩
  obtain ⟨line, hlength, hbytes⟩ := hexists
  have hne : line ≠ [] := List.ne_nil_of_length_pos (by omega)
  have hother : ∀ c : UInt8, c ≠ 65 → c ∉ line := fun c hc hmem => hc (hbytes c hmem)
  have hremaining : (⟨rioReadinitb 4, line⟩ : Incoming).remaining = line := rfl
  have hscan : (requestLine line).1 = some line := by
    have hfirst : firstLine line = line :=
      firstLine_eq_self (hother newline (by decide)) (Nat.le_of_eq hlength)
    rw [requestLine, hfirst, cstring_eq_self (hother nul (by decide))]
    apply scan_one_word hne
    intro c hc
    rw [hbytes c hc]
    decide
  have hget : ¬ SameIgnoringCase line (text "GET") := by
    intro hsame
    have := length_method hsame
    omega
  refine ⟨line, hlength, doit_other readsLine_oneRefill hne hscan hget, ?_⟩
  rw [wellFramed_iff (by decide) (hother nul (by decide)), hlength, length_notImplemented]
  decide

end GolangSandbox.Analysis
