import GolangSandbox.Program.Protocol

/-!
# The wire format, and what one `Read` does

Every byte stream has exactly one of three shapes (`shape`): it starts with the
encoding of a wire-safe command, or with a token that is no keyword and the space
behind it, or it ends inside its first command. `read_write`, `read_unknown` and
`read_truncated` say what `Read` does on each, so nothing after this file unfolds
`read` again.
-/

set_option autoImplicit false

namespace GolangSandbox.Interface

open GolangSandbox.Model GolangSandbox.Program
open GolangSandbox.Program.CommandWiter (write)

/-- No field of the command contains the delimiter that ends it on the wire. -/
def WireSafe : Command → Prop
  | .send v => newline ∉ v.message
  | .name v => newline ∉ v.name
  | .message v => space ∉ v.name ∧ newline ∉ v.message

instance : DecidablePred WireSafe := fun c => by
  cases c <;> unfold WireSafe <;> infer_instance

/-- The keywords, without the space behind them. -/
def keywords : List Bytes := [sendTag.dropLast, nameTag.dropLast, messageTag.dropLast]

/-- A stream that ends before its keyword does, or inside its first command. -/
inductive Truncated : Bytes → Prop where
  | keyword {t : Bytes} (ht : space ∉ t) : Truncated t
  | send {t : Bytes} (ht : newline ∉ t) : Truncated (sendTag ++ t)
  | name {t : Bytes} (ht : newline ∉ t) : Truncated (nameTag ++ t)
  | user {t : Bytes} (ht : space ∉ t) : Truncated (messageTag ++ t)
  | message {user t : Bytes} (hu : space ∉ user) (ht : newline ∉ t) :
      Truncated (messageTag ++ user ++ [space] ++ t)

/-- The three shapes of a byte stream. -/
inductive Shape : Bytes → Prop where
  | command {c : Command} (rest : Bytes) (hc : WireSafe c) : Shape (write c ++ rest)
  | unknown {tok : Bytes} (rest : Bytes) (htok : space ∉ tok) (hkey : tok ∉ keywords) :
      Shape (tok ++ space :: rest)
  | truncated {s : Bytes} (hs : Truncated s) : Shape s

/-! ## The keywords -/

/-- A stream behind a tag, cut at the space of the tag. -/
theorem sendTag_append (t : Bytes) : sendTag ++ t = sendTag.dropLast ++ space :: t := rfl

theorem nameTag_append (t : Bytes) : nameTag ++ t = nameTag.dropLast ++ space :: t := rfl

theorem messageTag_append (t : Bytes) :
    messageTag ++ t = messageTag.dropLast ++ space :: t := rfl

/-- The keyword comparison of `Read`, on the token in front of the space. -/
theorem concat_space_eq_tag {tok tag : Bytes} (htag : tag.dropLast ++ [space] = tag) :
    tok ++ [space] = tag ↔ tok = tag.dropLast := by
  rw [← htag, List.append_left_inj, htag]

theorem concat_space_ne_tags {tok : Bytes} (hkey : tok ∉ keywords) :
    tok ++ [space] ≠ messageTag ∧ tok ++ [space] ≠ sendTag ∧ tok ++ [space] ≠ nameTag := by
  simp only [keywords, List.mem_cons, List.not_mem_nil, or_false, not_or] at hkey
  refine ⟨?_, ?_, ?_⟩
  · rw [Ne, concat_space_eq_tag rfl]
    exact hkey.2.2
  · rw [Ne, concat_space_eq_tag rfl]
    exact hkey.1
  · rw [Ne, concat_space_eq_tag rfl]
    exact hkey.2.1

/-! ## The keyword of a stream -/

/-- The first step of `Read`: the token through the first space. -/
theorem readString_token {tok : Bytes} (htok : space ∉ tok) (rest : Bytes) (f : Fault) :
    Source.readString (⟨tok ++ space :: rest, f⟩ : CommandReader) space =
      (tok ++ [space], none, ⟨rest, f⟩) :=
  Source.readString_append_cons htok rest f

theorem readString_line {line : Bytes} (hline : newline ∉ line) (rest : Bytes) (f : Fault) :
    Source.readString (⟨line ++ newline :: rest, f⟩ : CommandReader) newline =
      (line ++ [newline], none, ⟨rest, f⟩) :=
  Source.readString_append_cons hline rest f

section Read

variable (rest : Bytes) (f : Fault)

/-- **`Read` undoes `Write`** on a wire-safe command, whatever follows it. -/
theorem read_write {c : Command} (hc : WireSafe c) :
    CommandReader.read ⟨write c ++ rest, f⟩ = (some c, none, ⟨rest, f⟩) := by
  cases c with
  | send v =>
    have hs : write (.send v) ++ rest =
        sendTag.dropLast ++ space :: (v.message ++ newline :: rest) := by
      simp [write, sendTag, space]
    have htok : space ∉ sendTag.dropLast := by decide
    have hline : newline ∉ v.message := hc
    rw [hs, CommandReader.read, readString_token htok]
    simp only [show sendTag.dropLast ++ [space] = sendTag from rfl,
      if_neg (show sendTag ≠ messageTag by decide), ↓reduceIte, readString_line hline,
      List.dropLast_concat]
  | name v =>
    have hs : write (.name v) ++ rest =
        nameTag.dropLast ++ space :: (v.name ++ newline :: rest) := by
      simp [write, nameTag, space]
    have htok : space ∉ nameTag.dropLast := by decide
    have hline : newline ∉ v.name := hc
    rw [hs, CommandReader.read, readString_token htok]
    simp only [show nameTag.dropLast ++ [space] = nameTag from rfl,
      if_neg (show nameTag ≠ messageTag by decide), if_neg (show nameTag ≠ sendTag by decide),
      ↓reduceIte, readString_line hline, List.dropLast_concat]
  | message v =>
    have hs : write (.message v) ++ rest = messageTag.dropLast ++
        space :: (v.name ++ space :: (v.message ++ newline :: rest)) := by
      simp [write, messageTag, space]
    have htok : space ∉ messageTag.dropLast := by decide
    obtain ⟨huser, hline⟩ : space ∉ v.name ∧ newline ∉ v.message := hc
    rw [hs, CommandReader.read, readString_token htok]
    simp only [show messageTag.dropLast ++ [space] = messageTag from rfl, ↓reduceIte,
      readString_token huser, readString_line hline, List.dropLast_concat]

/-- `Read` consumes exactly an unknown token and the space behind it. -/
theorem read_unknown {tok : Bytes} (htok : space ∉ tok) (hkey : tok ∉ keywords) :
    CommandReader.read ⟨tok ++ space :: rest, f⟩ = (none, some .unknownCommand, ⟨rest, f⟩) := by
  obtain ⟨hm, hs, hn⟩ := concat_space_ne_tags hkey
  rw [CommandReader.read, readString_token htok]
  simp only [if_neg hm, if_neg hs, if_neg hn]

/-- On a stream that ends inside a command `Read` consumes the rest and returns the
error behind it. -/
theorem read_truncated {s : Bytes} (hs : Truncated s) :
    CommandReader.read ⟨s, f⟩ = (none, some (.fault f), ⟨[], f⟩) := by
  cases hs with
  | keyword ht => rw [CommandReader.read, Source.readString_of_notMem ht]
  | @send t ht =>
    rw [sendTag_append, CommandReader.read, readString_token (by decide)]
    simp only [show sendTag.dropLast ++ [space] = sendTag from rfl,
      if_neg (show sendTag ≠ messageTag by decide), ↓reduceIte,
      Source.readString_of_notMem ht]
  | @name t ht =>
    rw [nameTag_append, CommandReader.read, readString_token (by decide)]
    simp only [show nameTag.dropLast ++ [space] = nameTag from rfl,
      if_neg (show nameTag ≠ messageTag by decide), if_neg (show nameTag ≠ sendTag by decide),
      ↓reduceIte, Source.readString_of_notMem ht]
  | @user t ht =>
    rw [messageTag_append, CommandReader.read, readString_token (by decide)]
    simp only [show messageTag.dropLast ++ [space] = messageTag from rfl, ↓reduceIte,
      Source.readString_of_notMem ht]
  | @message user t hu ht =>
    rw [List.append_assoc, List.append_assoc, messageTag_append, List.singleton_append,
      CommandReader.read, readString_token (by decide)]
    simp only [show messageTag.dropLast ++ [space] = messageTag from rfl, ↓reduceIte,
      readString_token hu, Source.readString_of_notMem ht]

end Read

/-! ## The shape of a stream -/

/-- A stream behind `SEND` or `NAME` either holds the end of the line or does not. -/
theorem line_cases (t : Bytes) :
    (∃ line rest, newline ∉ line ∧ t = line ++ newline :: rest) ∨ newline ∉ t := by
  by_cases h : newline ∈ t
  · obtain ⟨line, rest, rfl, hline⟩ := List.eq_append_cons_of_mem h
    exact .inl ⟨line, rest, hline, rfl⟩
  · exact .inr h

/-- **Every byte stream has one of the three shapes.** -/
theorem shape (s : Bytes) : Shape s := by
  by_cases hsp : space ∈ s
  swap
  · exact .truncated (.keyword hsp)
  obtain ⟨tok, t, rfl, htok⟩ := List.eq_append_cons_of_mem hsp
  by_cases hkey : tok ∈ keywords
  swap
  · exact .unknown t htok hkey
  simp only [keywords, List.mem_cons, List.not_mem_nil, or_false] at hkey
  obtain rfl | rfl | rfl := hkey
  · rw [← sendTag_append]
    obtain ⟨line, rest, hline, rfl⟩ | ht := line_cases t
    · have := Shape.command (c := .send ⟨line⟩) rest hline
      simpa [write] using this
    · exact .truncated (.send ht)
  · rw [← nameTag_append]
    obtain ⟨line, rest, hline, rfl⟩ | ht := line_cases t
    · have := Shape.command (c := .name ⟨line⟩) rest hline
      simpa [write] using this
    · exact .truncated (.name ht)
  · rw [← messageTag_append]
    by_cases hsp' : space ∈ t
    swap
    · exact .truncated (.user hsp')
    obtain ⟨user, t, rfl, huser⟩ := List.eq_append_cons_of_mem hsp'
    obtain ⟨line, rest, hline, rfl⟩ | ht := line_cases t
    · have := Shape.command (c := .message ⟨user, line⟩) rest ⟨huser, hline⟩
      simpa [write] using this
    · have := Shape.truncated (.message huser ht)
      simpa using this

/-- A command is never encoded as nothing. -/
theorem length_write_pos (c : Command) : 0 < (write c).length := by
  cases c <;> simp only [write, List.length_append, List.length_singleton] <;> omega

/-- What holds of a stream behind its first command or unknown token holds of all of it. -/
theorem stream_induction {P : Bytes → Prop}
    (command : ∀ c rest, WireSafe c → P rest → P (write c ++ rest))
    (unknown : ∀ tok rest, space ∉ tok → tok ∉ keywords → P rest → P (tok ++ space :: rest))
    (truncated : ∀ s, Truncated s → P s) (s : Bytes) : P s := by
  induction hn : s.length using Nat.strongRecOn generalizing s with
  | _ n ih =>
    cases shape s with
    | @command c rest hc =>
      have hlt : rest.length < n := by
        have := length_write_pos c
        rw [← hn, List.length_append]
        omega
      exact command c rest hc (ih _ hlt rest rfl)
    | @unknown tok rest htok hkey =>
      have hlt : rest.length < n := by
        rw [← hn, List.length_append, List.length_cons]
        omega
      exact unknown tok rest htok hkey (ih _ hlt rest rfl)
    | truncated hs => exact truncated s hs

/-- A `Read` that does not reach the end of the stream consumes something. -/
theorem read_lt {r r' : CommandReader} {command : Option Command} {err : Option ReadError}
    (h : CommandReader.read r = (command, err, r')) (herr : ∀ f, err ≠ some (.fault f)) :
    r'.data.length < r.data.length := by
  obtain ⟨s, f⟩ := r
  cases shape s with
  | command rest hc =>
    rw [read_write rest f hc, Prod.mk.injEq, Prod.mk.injEq] at h
    rw [← h.2.2]
    have := length_write_pos ‹_›
    simp only [List.length_append]
    omega
  | unknown rest htok hkey =>
    rw [read_unknown rest f htok hkey, Prod.mk.injEq, Prod.mk.injEq] at h
    rw [← h.2.2]
    simp only [List.length_append, List.length_cons]
    omega
  | truncated hs =>
    rw [read_truncated f hs, Prod.mk.injEq, Prod.mk.injEq] at h
    exact absurd h.2.1.symm (herr f)

/-- With an error of the connection `Read` returns no command. -/
theorem read_eq_none {r : CommandReader} {f : Fault}
    (h : (CommandReader.read r).2.1 = some (.fault f)) : (CommandReader.read r).1 = none := by
  obtain ⟨s, e⟩ := r
  cases shape s with
  | command rest hcmd =>
    rw [read_write rest e hcmd] at h
    cases h
  | unknown rest htok hkey => rw [read_unknown rest e htok hkey]
  | truncated hs => rw [read_truncated e hs]

end GolangSandbox.Interface
