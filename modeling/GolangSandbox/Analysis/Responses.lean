import GolangSandbox.Analysis.ErrorResponses
import GolangSandbox.Model.Http
import GolangSandbox.Program.TinyServe
import Mathlib.Algebra.GroupWithZero.Nat

/-!
# What a client reads

A response of the server is a head of short lines, none of them empty and none with a `CR`, and
behind it the body. So whoever takes the length of the body from the head finds the body, if
the number there is its length (`readFramed_headBytes`).

For an error it always is, and the first line is a status line, so a client gets every error
whose body fits its buffer. For a file the number is the file size as an `int`, which the server
also uses to map the file and for its write: it is the length of the file up to 2^31 - 1, and
beyond that the reader gets less than the file or the server ends. The server ends for an empty
file as well, because it cannot be mapped, and for one that it may not open. But the first line
says `HTTP1/.0`, which is no status line, so an HTTP client refuses every response with a file.
The response of a program is up to the program: the server puts two lines in front of what it
writes (`readResponse_line`).
-/

set_option autoImplicit false

namespace GolangSandbox.Analysis

open GolangSandbox.Model GolangSandbox.Program GolangSandbox.Interface

variable {readlineb : Readlineb} {stat : Bytes → Option Stat} {uninitialised cause : Bytes}
variable {filename : Bytes} {calls filesize : ℕ} {s : Incoming} {e : ErrorText} {n : ℤ}

/-- The field with the length of the body. -/
def contentLength : Bytes := text "Content-length: "

/-- The lines of the head of `serve_static`. -/
def staticLines (filename : Bytes) (n : ℤ) : List Bytes :=
  [text "HTTP1/.0 200 OK", text "Server: Tiny Web Server", text "Connection: close",
    contentLength ++ formatInt n, text "Content-type: " ++ getFiletype filename]

/-- The lines of the head of `clienterror`. -/
def errorLines (cause : Bytes) (e : ErrorText) : List Bytes :=
  [text "HTTP/1.0 " ++ e.errnum ++ [space] ++ e.shortmsg ++ [space], text "Content-type: text/html",
    contentLength ++ decimal (errorBody cause e).length]

/-! ## Lines -/

/-- A byte that is neither `CR` nor NUL. -/
def Plain (bs : Bytes) : Prop := ∀ b ∈ bs, b ≠ 13 ∧ b ≠ nul

instance (bs : Bytes) : Decidable (Plain bs) :=
  List.decidableBAll (fun b => b ≠ 13 ∧ b ≠ nul) bs

theorem Plain.append {xs ys : Bytes} (hx : Plain xs) (hy : Plain ys) : Plain (xs ++ ys) :=
  List.forall_mem_append.mpr ⟨hx, hy⟩

/-- Digits are neither. -/
theorem plain_decimal (n : ℕ) : Plain (decimal n) := by
  intro b hb
  obtain ⟨c, hc, rfl⟩ := List.mem_map.mp hb
  have hdigit := Nat.isDigit_of_mem_toDigits (by decide) (by decide) hc
  have hrange : 48 ≤ c.toNat ∧ c.toNat ≤ 57 := Char.isDigit_iff_toNat.mp hdigit
  have hsame : (UInt8.ofNat c.toNat).toNat = c.toNat := by
    rw [UInt8.toNat_ofNat']
    omega
  refine ⟨fun h => ?_, fun h => ?_⟩
  · have hthirteen : c.toNat = 13 := hsame ▸ congrArg UInt8.toNat h
    omega
  · have hzero : c.toNat = 0 := hsame ▸ congrArg UInt8.toNat h
    omega

theorem plain_formatInt (n : ℤ) : Plain (formatInt n) := by
  unfold formatInt
  split
  · exact Plain.append (by decide) (plain_decimal _)
  · exact plain_decimal _

theorem plain_getFiletype (filename : Bytes) : Plain (getFiletype filename) := by
  unfold getFiletype
  split_ifs <;> decide

theorem plain_staticLines (filename : Bytes) (n : ℤ) :
    ∀ l ∈ staticLines filename n, l ≠ [] ∧ Plain l := by
  simp only [staticLines, List.forall_mem_cons, List.not_mem_nil, false_imp_iff, implies_true,
    and_true]
  refine ⟨by decide, by decide, by decide, ⟨?_, ?_⟩, ?_, ?_⟩
  · exact List.append_ne_nil_of_left_ne_nil (by decide) _
  · exact Plain.append (by decide) (plain_formatInt n)
  · exact List.append_ne_nil_of_left_ne_nil (by decide) _
  · exact Plain.append (by decide) (plain_getFiletype filename)

theorem plain_errorLines (cause : Bytes) (he : e ∈ errorTexts) :
    ∀ l ∈ errorLines cause e, l ≠ [] ∧ Plain l := by
  have htexts : ∀ e ∈ errorTexts, Plain e.errnum ∧ Plain e.shortmsg := by decide
  obtain ⟨herrnum, hshortmsg⟩ := htexts e he
  have hspace : Plain [space] := by decide
  simp only [errorLines, List.forall_mem_cons, List.not_mem_nil, false_imp_iff, implies_true,
    and_true]
  refine ⟨⟨?_, ?_⟩, by decide, ?_, ?_⟩
  · exact List.append_ne_nil_of_right_ne_nil _ (List.cons_ne_nil space [])
  · have hhead : Plain (text "HTTP/1.0 ") := by decide
    exact (((hhead.append herrnum).append hspace).append hshortmsg).append hspace
  · exact List.append_ne_nil_of_left_ne_nil (by decide) _
  · exact Plain.append (by decide) (plain_decimal _)

theorem readable_of_plain {lines : List Bytes} (h : ∀ l ∈ lines, l ≠ [] ∧ Plain l) :
    ∀ l ∈ lines, l ≠ [] ∧ 13 ∉ l :=
  fun l hl => ⟨(h l hl).1, fun hcr => ((h l hl).2 13 hcr).1 rfl⟩

/-! ## Heads -/

theorem staticHead_eq (filename : Bytes) (n : ℤ) :
    staticHead filename n = headBytes (staticLines filename n) := by
  have hstatus : text "HTTP1/.0 200 OK\r\n" = text "HTTP1/.0 200 OK" ++ crlf := by decide
  have hserver : text "Server: Tiny Web Server\r\n" = text "Server: Tiny Web Server" ++ crlf := by
    decide
  have hconnection : text "Connection: close\r\n" = text "Connection: close" ++ crlf := by decide
  simp only [staticHead, staticLines, headBytes, contentLength, hstatus, hserver, hconnection,
    List.flatMap_cons, List.flatMap_nil, List.append_assoc, List.append_nil, crlf]

theorem nul_notMem_headBytes {lines : List Bytes} (h : ∀ l ∈ lines, l ≠ [] ∧ Plain l) :
    nul ∉ headBytes lines := by
  intro hmem
  obtain hmem | hmem := List.mem_append.mp hmem
  · obtain ⟨l, hl, hmem⟩ := List.mem_flatMap.mp hmem
    obtain hmem | hmem := List.mem_append.mp hmem
    · exact ((h l hl).2 nul hmem).2 rfl
    · revert hmem
      decide
  · revert hmem
    decide

/-- `strlen` sees the whole head. -/
theorem take_strlen_staticHead (filename : Bytes) (n : ℤ) :
    (staticHead filename n).take (strlen (staticHead filename n)) =
      headBytes (staticLines filename n) := by
  have hnul := nul_notMem_headBytes (plain_staticLines filename n)
  rw [staticHead_eq, strlen, cstring_eq_self hnul, List.take_length]

/-- The field of a file's head is read as the file size, if that is not negative. -/
theorem field_staticLines (filename : Bytes) (n : ℤ) :
    (field contentLength (staticLines filename n)).bind Model.number =
      if n < 0 then none else some n.natAbs := by
  have hfield : field contentLength (staticLines filename n) = some (formatInt n) :=
    field_of_notMem [text "HTTP1/.0 200 OK", text "Server: Tiny Web Server",
      text "Connection: close"] _ _ (by decide)
  rw [hfield, Option.bind_some, formatInt]
  split
  · rfl
  · exact number_digits n.natAbs

theorem field_errorLines (cause : Bytes) (he : e ∈ errorTexts) :
    (field contentLength (errorLines cause e)).bind Model.number =
      some (errorBody cause e).length := by
  have hnone : ∀ e ∈ errorTexts, ∀ l ∈ [text "HTTP/1.0 " ++ e.errnum ++ [space] ++ e.shortmsg ++
      [space], text "Content-type: text/html"], contentLength.isPrefixOf l = false := by decide
  have hfield : field contentLength (errorLines cause e) =
      some (decimal (errorBody cause e).length) :=
    field_of_notMem [text "HTTP/1.0 " ++ e.errnum ++ [space] ++ e.shortmsg ++ [space],
      text "Content-type: text/html"] [] _ (hnone e he)
  rw [hfield, Option.bind_some]
  exact number_digits _

/-! ## Files -/

theorem intOfSize_of_lt {size : ℕ} (h : size < 2 ^ 31) : intOfSize size = size := by
  rw [intOfSize, BitVec.toInt_ofNat', Int.bmod]
  omega

/-- An `int` that is at most the size says that the size is an `int`, unless it is smaller. -/
theorem intOfSize_le (size : ℕ) : intOfSize size ≤ size := by
  rw [intOfSize, BitVec.toInt_ofNat', Int.bmod]
  omega

theorem intOfSize_lt {size : ℕ} (h : 2 ^ 31 ≤ size) : intOfSize size < size := by
  rw [intOfSize, BitVec.toInt_ofNat', Int.bmod]
  omega

/-- A file is served after a look at its size. -/
theorem serveStatic_stat
    (h : doit readlineb stat uninitialised calls s = some (.serveStatic filename filesize)) :
    ∃ st, stat filename = some st ∧ st.size = filesize := by
  unfold doit at h
  dsimp only at h
  split at h
  · cases h
  · split at h
    · cases h
    · split at h
      · cases h
      · obtain ⟨-, -, hanswer⟩ := Option.map_eq_some_iff.mp h
        split at hanswer
        · cases hanswer
        · rename_i t ht
          unfold answerFile at hanswer
          split at hanswer
          · cases hanswer
          · rename_i st hst
            split at hanswer
            · split at hanswer
              · cases hanswer
              · cases hanswer
                exact ⟨st, hst, rfl⟩
            · split at hanswer
              · cases hanswer
              · cases hanswer

/-- An `int` has at most ten digits and a sign. -/
theorem length_formatInt {n : ℤ} (hn : n.natAbs < 10 ^ 10) : (formatInt n).length ≤ 11 := by
  have hdigits : (decimal n.natAbs).length ≤ 10 := by
    rw [decimal, List.length_map]
    exact (Nat.length_toDigits_le_iff (by decide) (by decide)).mpr hn
  unfold formatInt
  split
  · rw [List.length_append]
    exact Nat.add_le_add (Nat.le_refl 1) hdigits
  · exact Nat.le_succ_of_le hdigits

theorem length_getFiletype (filename : Bytes) : (getFiletype filename).length ≤ 10 := by
  unfold getFiletype
  split_ifs <;> decide

/-- A head of a file is short, whatever the file is called and however large it is. -/
theorem length_staticHead (filename : Bytes) (size : ℕ) :
    (staticHead filename (intOfSize size)).length + 1 ≤ MAXBUF := by
  have hint : (intOfSize size).natAbs < 10 ^ 10 := by
    rw [intOfSize, BitVec.toInt_ofNat', Int.bmod]
    omega
  have hnumber := length_formatInt hint
  have htype := length_getFiletype filename
  have hconst : (text "HTTP1/.0 200 OK\r\n").length + (text "Server: Tiny Web Server\r\n").length +
      (text "Connection: close\r\n").length + (text "Content-length: ").length +
      (text "Content-type: ").length + 3 * crlf.length + 22 ≤ MAXBUF := by decide
  simp only [staticHead, List.length_append]
  omega

/-- The response for a file that can be mapped is read as the part of it that was mapped. -/
theorem readFramed_static (hn : 0 ≤ n) (filename : Bytes) {file : Bytes}
    (hfile : n ≤ file.length) :
    readFramed contentLength (headBytes (staticLines filename n) ++ file.take n.toNat) =
      some (staticLines filename n, file.take n.toNat, []) := by
  have hlength : (file.take n.toNat).length = n.toNat := by
    rw [List.length_take]
    omega
  have habs : n.natAbs = n.toNat := by omega
  rw [readFramed_headBytes (readable_of_plain (plain_staticLines filename n)),
    field_staticLines, if_neg (by omega), Option.bind_some, habs, hlength, if_pos (Nat.le_refl _),
    List.take_of_length_le (Nat.le_of_eq hlength), List.drop_eq_nil_of_le (Nat.le_of_eq hlength)]

/-- The head of a file has no status line. -/
theorem noStatus_staticLines (filename : Bytes) (n : ℤ) :
    (staticLines filename n).head?.any isStatusLine = false := by
  have hstatus : isStatusLine (text "HTTP1/.0 200 OK") = false := by decide
  rw [staticLines, List.head?_cons, Option.any_some, hstatus]

/-- Whatever becomes of the file, the response begins with the head. -/
theorem serveStatic_bytes (m : Machine) (filename : Bytes) (n : ℤ) :
    ∃ body, (serveStatic m filename n).bytes = headBytes (staticLines filename n) ++ body := by
  unfold serveStatic
  dsimp only
  rw [take_strlen_staticHead]
  split
  · split
    · exact ⟨[], rfl⟩
    · rename_i srcp _
      exact ⟨srcp.take n.toNat, by simp [Reply.bytes]⟩
  · exact ⟨[], rfl⟩

/-- **What becomes of a file.** Whatever the request, the file and its name: the name and the
head of the response fit their buffers, and an HTTP client refuses the response. Whoever reads
it by its length alone reads the whole file with nothing behind it, and the server goes on, if
and only if the server may open the file and it is not empty and shorter than 2^31 bytes.
SOURCE: csapp/charpter11/tinyweb.c:82-88, 178-204 -/
theorem static_response_iff (m : Machine) (readlineb : Readlineb) (uninitialised : Bytes)
    (calls : ℕ) (s : Incoming) (filename : Bytes) (filesize : ℕ) (r : Reply)
    (h : doit readlineb m.stat uninitialised calls s = some (.serveStatic filename filesize))
    (hr : respond m (.serveStatic filename filesize) = some r) :
    (filename.length + 1 ≤ MAXLINE ∧
        (staticHead filename (intOfSize filesize)).length + 1 ≤ MAXBUF) ∧
      readResponse contentLength r.bytes = none ∧
      ((r.goesOn = true ∧ ∃ lines,
          readFramed contentLength r.bytes = some (lines, m.contents filename, [])) ↔
        m.mayOpen filename = true ∧ 0 < (m.contents filename).length ∧
          (m.contents filename).length < 2 ^ 31) := by
  obtain ⟨st, hst, rfl⟩ := serveStatic_stat h
  obtain rfl := Option.some.inj hr
  have hname : filename.length + 1 ≤ MAXLINE := by
    have hshort := m.stat_length filename st hst
    unfold PATH_MAX at hshort
    unfold MAXLINE
    omega
  refine ⟨⟨hname, length_staticHead filename st.size⟩, ?_, ?_⟩
  · obtain ⟨body, hbody⟩ := serveStatic_bytes m filename (intOfSize st.size)
    rw [hbody]
    exact readResponse_of_noStatus
      (readable_of_plain (plain_staticLines filename (intOfSize st.size)))
      (noStatus_staticLines filename (intOfSize st.size)) _ _
  rw [← m.size_eq filename st hst]
  have hle := intOfSize_le st.size
  by_cases hopen : m.mayOpen filename = true
  swap
  · -- `Open` ends the process.
    rw [serveStatic, if_neg hopen]
    exact iff_of_false (fun hgoes => Bool.false_ne_true hgoes.1) fun hfile => hopen hfile.1
  rw [serveStatic, if_pos hopen]
  by_cases hpos : 0 < intOfSize st.size
  · -- The file is mapped, and what is read is as much of it as its size is as an `int`.
    have hfile : intOfSize st.size ≤ (m.contents filename).length := by
      rw [← m.size_eq filename st hst]
      exact hle
    rw [m.mmap_pos _ _ hpos hfile]
    simp only [Reply.bytes, List.flatten_cons, List.flatten_nil, List.append_nil, List.take_take,
      Nat.min_self, take_strlen_staticHead, true_and]
    rw [readFramed_static (Int.le_of_lt hpos) filename hfile]
    constructor
    · rintro ⟨lines, heq⟩
      simp only [Option.some.injEq, Prod.mk.injEq] at heq
      have hlength := congrArg List.length heq.2.1
      rw [List.length_take, ← m.size_eq filename st hst] at hlength
      refine ⟨hopen, by omega, ?_⟩
      by_contra hlarge
      have hlt := intOfSize_lt (Nat.le_of_not_lt hlarge)
      omega
    · rintro ⟨-, -, hlt⟩
      refine ⟨staticLines filename (intOfSize st.size), ?_⟩
      rw [intOfSize_of_lt hlt, Int.toNat_natCast, m.size_eq filename st hst, List.take_length]
  · -- `Mmap` ends the process.
    rw [m.mmap_nonpos _ _ (Int.not_lt.mp hpos)]
    refine iff_of_false (fun hgoes => Bool.false_ne_true hgoes.1) ?_
    rintro ⟨-, hsize, hlt⟩
    rw [intOfSize_of_lt hlt] at hpos
    omega

/-- A machine on which every file has two bytes and can be read but not run. -/
def twoBytes : Machine where
  stat f := if f.length < PATH_MAX then some ⟨true, true, false, 2⟩ else none
  mayOpen _ := true
  contents _ := text "hi"
  cgi _ _ := []
  mmap file n := if 0 < n then some (file.take n.toNat) else none
  stat_length _ _ h := (Option.ite_none_right_eq_some.mp h).1
  size_eq _ _ h := by
    obtain rfl := Option.some.inj (Option.ite_none_right_eq_some.mp h).2
    rfl
  mmap_pos _ _ hn _ := if_pos hn
  mmap_nonpos _ _ hn := if_neg (Int.not_lt.mpr hn)

theorem static_response_iff_home :
    ∃ r, respond twoBytes (.serveStatic (text "./home.html") 2) = some r ∧
      readResponse contentLength r.bytes = none ∧
      r.goesOn = true ∧
        ∃ lines, readFramed contentLength r.bytes = some (lines, text "hi", []) := by
  obtain ⟨-, hrefused, hread⟩ := static_response_iff twoBytes oneRefill [] 1
    ⟨rioReadinitb 4, text "GET / HTTP/1.0\r\n\r\n"⟩ (text "./home.html") 2 _ rfl rfl
  exact ⟨_, rfl, hrefused, hread.mpr (by decide)⟩

/-! ## Errors and programs -/

theorem clienterror_bytes (he : e ∈ errorTexts) (hcause : nul ∉ cause) :
    (clienterror cause e).flatten = headBytes (errorLines cause e) ++ errorBody cause e := by
  have hstrlen : strlen (errorBody cause e) = (errorBody cause e).length := by
    rw [strlen, cstring_eq_self (nul_notMem_errorBody he hcause)]
  have hstatus : text " \r\n" = [space] ++ crlf := by decide
  have htype : text "Content-type: text/html\r\n" = text "Content-type: text/html" ++ crlf := by
    decide
  simp only [clienterror, hstrlen, List.take_length, headBytes, errorLines, contentLength, hstatus,
    htype, List.flatten_cons, List.flatten_nil, List.flatMap_cons, List.flatMap_nil,
    List.append_assoc, List.append_nil, crlf]

/-- The first line of an error is a status line. -/
theorem isStatusLine_errorLines (cause : Bytes) (he : e ∈ errorTexts) :
    (errorLines cause e).head?.any isStatusLine = true := by
  have hall : ∀ e ∈ errorTexts,
      isStatusLine (text "HTTP/1.0 " ++ e.errnum ++ [space] ++ e.shortmsg ++ [space]) = true := by
    decide
  rw [errorLines, List.head?_cons, Option.any_some, hall e he]

/-- **When a client gets an error**, whatever its request was: it reads the status, the fields
and the error's body with nothing behind it, and the server goes on, if and only if the body fits
its buffer.
SOURCE: csapp/charpter11/tinyweb.c:68-97, 104-125 -/
theorem error_response_iff (m : Machine) (readlineb : Readlineb) (uninitialised : Bytes)
    (calls : ℕ) (s : Incoming) (cause : Bytes) (e : ErrorText)
    (h : doit readlineb m.stat uninitialised calls s = some (.clienterror cause e)) :
    (∃ r, respond m (.clienterror cause e) = some r ∧ r.goesOn = true ∧
        readResponse contentLength r.bytes = some (errorLines cause e, errorBody cause e, [])) ↔
      (errorBody [] e).length + cause.length < MAXBUF := by
  obtain ⟨hcause, he⟩ := clienterror_cause h
  have hfits : (errorBody cause e).length + 1 ≤ MAXBUF ↔
      (errorBody [] e).length + cause.length < MAXBUF := by
    rw [length_errorBody]
    exact Iff.rfl
  rw [← hfits, respond]
  constructor
  · rintro ⟨r, hr, -⟩
    rw [Option.ite_none_right_eq_some] at hr
    exact hr.1
  · intro hfit
    refine ⟨⟨clienterror cause e, true⟩, by rw [if_pos hfit], rfl, ?_⟩
    have hplain := readable_of_plain (plain_errorLines cause he)
    rw [Reply.bytes, clienterror_bytes he hcause,
      readResponse_of_status hplain (isStatusLine_errorLines cause he), readFramed_headBytes hplain,
      field_errorLines cause he, Option.bind_some, if_pos (Nat.le_refl _), List.take_length,
      List.drop_length]

theorem error_response_iff_put :
    ∃ r, respond twoBytes (.clienterror (text "PUT") notImplemented) = some r ∧
      r.goesOn = true ∧ readResponse contentLength r.bytes =
        some (errorLines (text "PUT") notImplemented, errorBody (text "PUT") notImplemented, []) :=
  (error_response_iff twoBytes oneRefill [] 0 ⟨rioReadinitb 4, text "PUT / HTTP/1.0\r\n"⟩
    _ _ rfl).mpr (by rw [length_notImplemented]; decide)

/-- **The response of a program is what the program writes**, read with two lines in front.
SOURCE: csapp/charpter11/tinyweb.c:231-251 -/
theorem dynamic_response_read (m : Machine) (filename cgiargs : Bytes) (r : Reply)
    (hr : respond m (.serveDynamic filename cgiargs) = some r) :
    r.goesOn = true ∧ readResponse contentLength r.bytes =
      (readFramed contentLength (m.cgi filename cgiargs)).map fun (lines, body, rest) =>
        (text "HTTP/1.0 200 OK" :: text "Server: Tiny Web Server" :: lines, body, rest) := by
  obtain rfl := Option.some.inj hr
  refine ⟨rfl, ?_⟩
  have hstatus : text "HTTP/1.0 200 OK\r\n" = text "HTTP/1.0 200 OK" ++ crlf := by decide
  have hserver : text "Server: Tiny Web Server\r\n" = text "Server: Tiny Web Server" ++ crlf := by
    decide
  simp only [Reply.bytes, serveDynamic, hstatus, hserver, List.flatten_cons, List.flatten_nil,
    List.append_nil, List.append_assoc, crlf, List.cons_append, List.nil_append]
  rw [readResponse_line (by decide) (by decide) (by decide),
    readFramed_line (by decide) (by decide) (by decide), Option.map_map]
  rfl

end GolangSandbox.Analysis
