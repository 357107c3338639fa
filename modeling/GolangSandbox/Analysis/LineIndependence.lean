import GolangSandbox.Interface.Lines

/-!
# When the reader and the line parser agree

The reader ends a keyword at a space, the protocol ends a command at a newline.
After a malformed line the reader is never again at the start of a line before it
has taken a command from somewhere else (`offset_decodeFrom`), so the two agree
only if nothing follows: from the first malformed line on there is no well-formed
line, and the reader finds no command in the remaining bytes. `decodeFrom_eq_nil_iff`
says when it finds none, in terms of the tokens of these bytes.
-/

set_option autoImplicit false

namespace GolangSandbox.Analysis

open GolangSandbox.Model GolangSandbox.Program GolangSandbox.Interface
open GolangSandbox.Program.CommandWiter (write)

/-- **Line independence**: the reader decodes the commands that the lines hold when
each is parsed on its own; no well-formed line is swallowed, and no command is
decoded from anywhere but the start of a well-formed line. -/
structure LineIndependent (ls : List Line) : Prop where
  same : decode (unlines ls) = parseLines ls
  notSwallowed : ∀ e ∈ parseLinesFrom 0 ls, e ∈ decodeFrom 0 (unlines ls)
  notInside : ∀ e ∈ decodeFrom 0 (unlines ls), e ∈ parseLinesFrom 0 ls

/-- The reader splits a stream at spaces; `v` starts a token of `u ++ v`. -/
def StartsToken (u : Bytes) : Prop := u = [] ∨ ∃ w, u = w ++ [space]

/-- No token of the stream is `SEND` or `NAME` with a space behind it, and no token
`MESSAGE` has two spaces behind it. -/
def KeywordFree (s : Bytes) : Prop :=
  ∀ u v, s = u ++ v → StartsToken u →
    ¬ sendTag <+: v ∧ ¬ nameTag <+: v ∧ ∀ w, v = messageTag ++ w → space ∉ w

/-- The lines from the first malformed one on. -/
def fromMalformed (ls : List Line) : List Line := ls.dropWhile fun l => (parseLine l).isSome

/-- From the first malformed line on no line is well formed and no keyword follows. -/
def NothingAfterMalformed (ls : List Line) : Prop :=
  (∀ l ∈ fromMalformed ls, parseLine l = none) ∧ KeywordFree (unlines (fromMalformed ls))

/-- The stream is empty or ends with a newline. -/
def EndsLine (s : Bytes) : Prop := s = [] ∨ ∃ w, s = w ++ [newline]

theorem endsLine_unlines (ls : List Line) : EndsLine (unlines ls) := by
  induction ls with
  | nil => exact .inl rfl
  | cons l ls ih =>
    rw [unlines_cons]
    right
    obtain h | ⟨w, hw⟩ := ih
    · exact ⟨l.bytes, by rw [h]⟩
    · exact ⟨l.bytes ++ newline :: w, by rw [hw]; simp⟩

theorem EndsLine.of_append {s t : Bytes} (h : EndsLine (s ++ t)) : EndsLine t := by
  obtain rfl | ⟨t, x, rfl⟩ := t.eq_nil_or_concat
  · exact .inl rfl
  · obtain h | ⟨w, hw⟩ := h
    · simp at h
    · rw [List.concat_eq_append, ← List.append_assoc] at hw
      exact .inr ⟨t, by rw [List.concat_eq_append, (List.append_inj' hw rfl).2]⟩

/-- A stream that ends with a newline contains one behind any tag. -/
theorem EndsLine.newline_mem {s t : Bytes} (h : EndsLine (s ++ t)) (hs : s ≠ [])
    (hlast : newline ∉ s) : newline ∈ t := by
  obtain rfl | ⟨w, rfl⟩ := h.of_append
  · obtain h | ⟨w, hw⟩ := h
    · exact absurd (List.append_eq_nil_iff.mp h).1 hs
    · rw [List.append_nil] at hw
      exact absurd (by rw [hw]; simp) hlast
  · simp

/-! ## When the reader finds nothing -/

/-- Behind an unknown token the tokens are those of the rest. -/
theorem keywordFree_unknown {tok : Bytes} (htok : space ∉ tok) (hkey : tok ∉ keywords)
    (rest : Bytes) : KeywordFree (tok ++ space :: rest) ↔ KeywordFree rest := by
  constructor
  · intro h u v huv hu
    refine h (tok ++ space :: u) v (by rw [huv]; simp) (.inr ?_)
    obtain rfl | ⟨w, rfl⟩ := hu
    · exact ⟨tok, rfl⟩
    · exact ⟨tok ++ space :: w, by simp⟩
  · intro h u v huv hu
    obtain rfl | ⟨w, rfl⟩ := hu
    · -- The first token is not a keyword.
      simp only [keywords, List.mem_cons, List.not_mem_nil, or_false, not_or] at hkey
      rw [List.nil_append] at huv
      subst huv
      refine ⟨?_, ?_, fun w hw => ?_⟩
      · rintro ⟨t, ht⟩
        rw [sendTag_append] at ht
        exact hkey.1 (append_cons_inj (by decide) htok ht).1.symm
      · rintro ⟨t, ht⟩
        rw [nameTag_append] at ht
        exact hkey.2.1 (append_cons_inj (by decide) htok ht).1.symm
      · rw [messageTag_append] at hw
        exact absurd (append_cons_inj htok (by decide) hw).1 hkey.2.2
    · rw [List.append_assoc, List.singleton_append] at huv
      obtain ⟨a, rfl, ha⟩ | ⟨a, rfl, ha⟩ := List.append_eq_append_iff.mp huv
      · cases a with
        | nil =>
          rw [List.nil_append, List.cons.injEq] at ha
          exact h [] v ha.2 (.inl rfl)
        | cons x a =>
          rw [List.cons_append, List.cons.injEq] at ha
          obtain ⟨rfl, ha⟩ := ha
          exact h (a ++ [space]) v (by rw [ha]; simp) (.inr ⟨a, rfl⟩)
      · cases a with
        | nil =>
          rw [List.nil_append, List.cons.injEq] at ha
          exact h [] v ha.2.symm (.inl rfl)
        | cons x a =>
          rw [List.cons_append, List.cons.injEq] at ha
          exact absurd (by simp [ha.1]) htok

/-- A stream without a space has no keyword with a space behind it. -/
theorem keywordFree_of_notMem {s : Bytes} (hs : space ∉ s) : KeywordFree s := by
  rintro u v rfl -
  rw [List.mem_append, not_or] at hs
  refine ⟨?_, ?_, ?_⟩
  · rintro ⟨t, rfl⟩
    exact absurd (by simp [sendTag, space]) hs.2
  · rintro ⟨t, rfl⟩
    exact absurd (by simp [nameTag, space]) hs.2
  · rintro w rfl
    exact absurd (by simp [messageTag, space]) hs.2

/-- A last token `MESSAGE` with one space behind it is no command. -/
theorem keywordFree_messageTag {t : Bytes} (ht : space ∉ t) : KeywordFree (messageTag ++ t) := by
  intro u v huv hu
  obtain rfl | ⟨w, rfl⟩ := hu
  · rw [List.nil_append] at huv
    subst huv
    refine ⟨?_, ?_, fun w hw => ?_⟩
    · rintro ⟨t', ht'⟩
      rw [sendTag_append, messageTag_append] at ht'
      exact absurd (append_cons_inj (by decide) (by decide) ht').1 (by decide)
    · rintro ⟨t', ht'⟩
      rw [nameTag_append, messageTag_append] at ht'
      exact absurd (append_cons_inj (by decide) (by decide) ht').1 (by decide)
    · exact List.append_cancel_left hw ▸ ht
  · -- The only space is the one of the tag, so `v` is `t`.
    rw [messageTag_append, List.append_assoc, List.singleton_append] at huv
    have hw : space ∉ w := by
      intro hw
      obtain ⟨a, b, rfl, ha⟩ := List.eq_append_cons_of_mem hw
      rw [List.append_assoc, List.cons_append] at huv
      have := (append_cons_inj (by decide) ha huv).2
      exact ht (by rw [this]; simp)
    obtain ⟨-, rfl⟩ := append_cons_inj (by decide) hw huv
    exact keywordFree_of_notMem ht [] t rfl (.inl rfl)

/-- **The reader finds no command in a stream of lines** exactly when no keyword
stands where the reader looks for one. -/
theorem decodeFrom_eq_nil_iff (pos : ℕ) {s : Bytes} (hs : EndsLine s) :
    decodeFrom pos s = [] ↔ KeywordFree s := by
  induction hn : s.length using Nat.strongRecOn generalizing s pos with
  | _ n ih =>
    cases shape s with
    | @command c rest hc =>
      rw [decodeFrom_write hc]
      refine iff_of_false (List.cons_ne_nil _ _) fun h => ?_
      obtain ⟨hsend, hname, hmessage⟩ := h [] _ rfl (.inl rfl)
      cases c with
      | send v => exact hsend ⟨v.message ++ [newline] ++ rest, by simp [write]⟩
      | name v => exact hname ⟨v.name ++ [newline] ++ rest, by simp [write]⟩
      | message v =>
        exact hmessage (v.name ++ [space] ++ v.message ++ [newline] ++ rest)
          (by simp [write]) (by simp)
    | @unknown tok rest htok hkey =>
      have hlt : rest.length < n := by
        rw [← hn, List.length_append, List.length_cons]
        omega
      have hrest : EndsLine rest := EndsLine.of_append (s := tok ++ [space]) (by simpa using hs)
      rw [decodeFrom_unknown htok hkey, keywordFree_unknown htok hkey, ih _ hlt _ hrest rfl]
    | truncated ht =>
      rw [decodeFrom_truncated ht]
      refine iff_of_true rfl ?_
      cases ht with
      | keyword ht => exact keywordFree_of_notMem ht
      | send ht => exact absurd (hs.newline_mem (by decide) (by decide)) ht
      | name ht => exact absurd (hs.newline_mem (by decide) (by decide)) ht
      | user ht => exact keywordFree_messageTag ht
      | message hu ht =>
        refine absurd ?_ ht
        obtain rfl | ⟨w, rfl⟩ := hs.of_append
        · obtain h | ⟨w, hw⟩ := hs
          · simp at h
          · rw [List.append_nil] at hw
            exact absurd (List.append_inj' hw rfl).2 (by decide)
        · simp

/-! ## Where the first command of the reader starts -/

/-- The first command of a stream starts at the start, or right behind a space. -/
theorem offset_decodeFrom {s : Bytes} {pos p : ℕ} {c : Command} {es : List (ℕ × Command)}
    (h : decodeFrom pos s = (p, c) :: es) :
    p = pos ∨ (pos < p ∧ s[p - pos - 1]? = some space) := by
  induction hn : s.length using Nat.strongRecOn generalizing s pos with
  | _ n ih =>
    cases shape s with
    | @command c' rest hc =>
      rw [decodeFrom_write hc, List.cons.injEq, Prod.mk.injEq] at h
      exact .inl h.1.1.symm
    | @unknown tok rest htok hkey =>
      rw [decodeFrom_unknown htok hkey] at h
      have hlt : rest.length < n := by
        rw [← hn, List.length_append, List.length_cons]
        omega
      right
      obtain rfl | ⟨hlt', hget⟩ := ih _ hlt h rfl
      · refine ⟨by omega, ?_⟩
        rw [show pos + (tok.length + 1) - pos - 1 = tok.length by omega,
          List.getElem?_append_right (Nat.le_refl _), Nat.sub_self, List.getElem?_cons_zero]
      · refine ⟨by omega, ?_⟩
        rw [List.getElem?_append_right (by omega),
          show p - pos - 1 - tok.length = p - (pos + (tok.length + 1)) - 1 + 1 by omega,
          List.getElem?_cons_succ, hget]
    | truncated ht =>
      rw [decodeFrom_truncated ht] at h
      cases h

/-- Commands of the reader stand in the order of their offsets. -/
theorem pairwise_decodeFrom (pos : ℕ) (s : Bytes) :
    (decodeFrom pos s).Pairwise (fun e e' => e.1 < e'.1) ∧
      ∀ e ∈ decodeFrom pos s, pos ≤ e.1 := by
  induction hn : s.length using Nat.strongRecOn generalizing s pos with
  | _ n ih =>
    cases shape s with
    | @command c rest hc =>
      have hpos := length_write_pos c
      have hlt : rest.length < n := by
        rw [← hn, List.length_append]
        omega
      obtain ⟨hpair, hle⟩ := ih _ hlt (pos + (write c).length) rest rfl
      rw [decodeFrom_write hc]
      simp only [List.pairwise_cons, List.forall_mem_cons, Nat.le_refl, true_and]
      refine ⟨⟨fun e he => ?_, hpair⟩, fun e he => ?_⟩
      all_goals
        have := hle e he
        omega
    | @unknown tok rest htok hkey =>
      have hlt : rest.length < n := by
        rw [← hn, List.length_append, List.length_cons]
        omega
      obtain ⟨hpair, hle⟩ := ih _ hlt (pos + (tok.length + 1)) rest rfl
      rw [decodeFrom_unknown htok hkey]
      refine ⟨hpair, fun e he => ?_⟩
      have := hle e he
      omega
    | truncated ht => simp [decodeFrom_truncated ht]

/-! ## Line independence -/

/-- The three parts of line independence together say that the reader and the line
parser take the same commands from the same places. -/
theorem lineIndependent_iff_eq (ls : List Line) :
    LineIndependent ls ↔ decodeFrom 0 (unlines ls) = parseLinesFrom 0 ls := by
  constructor
  · intro h
    have hdec := (pairwise_decodeFrom 0 (unlines ls)).1
    have hpar := (pairwise_parseLinesFrom 0 ls).1
    have hne : ∀ {e e' : ℕ × Command}, e.1 < e'.1 → e ≠ e' := by
      rintro e e' hlt rfl
      exact Nat.lt_irrefl _ hlt
    have hperm : (decodeFrom 0 (unlines ls)).Perm (parseLinesFrom 0 ls) :=
      (List.perm_ext_iff_of_nodup (hdec.imp hne) (hpar.imp hne)).mpr
        fun e => ⟨h.notInside e, h.notSwallowed e⟩
    refine hperm.eq_of_pairwise (fun e e' _ _ hlt hlt' => ?_) hdec hpar
    exact absurd (Nat.lt_trans hlt hlt') (Nat.lt_irrefl _)
  · intro h
    refine ⟨?_, fun e he => h ▸ he, fun e he => h ▸ he⟩
    rw [decode, h, map_snd_parseLinesFrom]

theorem parseLinesFrom_eq_nil (pos : ℕ) {ls : List Line} :
    parseLinesFrom pos ls = [] ↔ ∀ l ∈ ls, parseLine l = none := by
  induction ls generalizing pos with
  | nil => simp [parseLinesFrom]
  | cons l ls ih =>
    rw [parseLinesFrom, List.append_eq_nil_iff, ih, List.forall_mem_cons, List.map_eq_nil_iff]
    cases parseLine l <;> simp

/-- **The reader and the line parser agree exactly when nothing follows the first
malformed line**: they agree on the well-formed lines in front of it, and behind it
a command of the reader starts behind a space, a command of a line behind a newline. -/
theorem decodeFrom_eq_parseLinesFrom_iff (pos : ℕ) (ls : List Line) :
    decodeFrom pos (unlines ls) = parseLinesFrom pos ls ↔ NothingAfterMalformed ls := by
  induction ls generalizing pos with
  | nil =>
    have hnil : KeywordFree [] := keywordFree_of_notMem List.not_mem_nil
    rw [unlines_nil, (decodeFrom_eq_nil_iff pos (.inl rfl)).mpr hnil]
    simpa [parseLinesFrom, NothingAfterMalformed, fromMalformed] using hnil
  | cons l ls ih =>
    cases hl : parseLine l with
    | some c =>
      obtain ⟨hc, hw⟩ := parseLine_eq_some.mp hl
      have hs : unlines (l :: ls) = write c ++ unlines ls := by
        rw [unlines_cons, hw]
        simp
      have hlen : (write c).length = l.bytes.length + 1 := by rw [hw]; simp
      have hskip : fromMalformed (l :: ls) = fromMalformed ls := by
        simp [fromMalformed, hl]
      rw [hs, decodeFrom_write hc, parseLinesFrom, hl, Option.toList_some, List.map_cons,
        List.map_nil, List.singleton_append, List.cons.injEq, hlen, ih]
      simp only [NothingAfterMalformed, hskip, true_and]
    | none =>
      have hstop : fromMalformed (l :: ls) = l :: ls := by simp [fromMalformed, hl]
      rw [NothingAfterMalformed, hstop, ← parseLinesFrom_eq_nil pos,
        ← decodeFrom_eq_nil_iff pos (endsLine_unlines _)]
      refine ⟨fun h => ?_, fun h => h.2.trans h.1.symm⟩
      rw [h, and_self]
      cases hes : parseLinesFrom pos (l :: ls) with
      | nil => rfl
      | cons e es =>
        obtain ⟨p, c⟩ := e
        exfalso
        have hmem : (p, c) ∈ parseLinesFrom pos (l :: ls) := by rw [hes]; simp
        obtain ⟨rfl, l', tl, heq, hl'⟩ | ⟨hlt, hnl⟩ := offset_parseLinesFrom hmem
        · rw [List.cons.injEq] at heq
          rw [← heq.1, hl] at hl'
          cases hl'
        · obtain rfl | ⟨-, hsp⟩ := offset_decodeFrom (h.trans hes)
          · exact Nat.lt_irrefl _ hlt
          · rw [hnl, Option.some.injEq] at hsp
            exact absurd hsp (by decide)

/-- **Line independence holds exactly when nothing follows the first malformed
line**: no well-formed line, and no keyword where the reader looks for one.
SOURCE: chatserver/protocol/reader.go:19-58, chatserver/README.md:12-20 -/
theorem lineIndependent_iff (ls : List Line) : LineIndependent ls ↔ NothingAfterMalformed ls :=
  (lineIndependent_iff_eq ls).trans (decodeFrom_eq_parseLinesFrom_iff 0 ls)

/-- The line `HELLO` has no space, so its token runs on and takes `SEND` with it: the
well-formed line `SEND hi` is swallowed. -/
theorem not_lineIndependent_hello_send :
    ¬ LineIndependent [⟨[72, 69, 76, 76, 79], by decide⟩,
      ⟨[83, 69, 78, 68, 32, 104, 105], by decide⟩] := by
  intro h
  exact absurd h.same (by decide +kernel)

end GolangSandbox.Analysis
