import GolangSandbox.Program.ReadAll

/-!
# The decoder and the encoder are inverse

`readAll_flatMap_write_iff`: decoding what the writer emits gives the commands back
exactly when every one of them is wire-safe. The first command that is not
wire-safe is read as another command (`read_write_of_not_wireSafe`), because its
first delimiter comes too early.

`readAll_spec`: on an arbitrary stream the decoded commands are wire-safe, encoding
them gives back the stream up to a tail, and the tail is one of the streams that
hold no complete command or starts with an unknown token.
-/

set_option autoImplicit false

namespace GolangSandbox.Analysis

open GolangSandbox.Model GolangSandbox.Program GolangSandbox.Interface
open GolangSandbox.Program.CommandWiter (write)

/-- A line cut at an inner newline is not the line. -/
private theorem ne_append_cons {α : Type} (p t : List α) (x : α) : p ≠ p ++ x :: t := by
  intro h
  have := congrArg List.length h
  simp only [List.length_append, List.length_cons] at this
  omega

/-- A command that is not wire-safe is read back as a different command. -/
theorem read_write_of_not_wireSafe {c : Command} (hc : ¬ WireSafe c) (rest : Bytes)
    (f : Fault) :
    ∃ c' rest', c' ≠ c ∧
      CommandReader.read ⟨write c ++ rest, f⟩ = (some c', none, ⟨rest', f⟩) := by
  cases c with
  | send v =>
    obtain ⟨line, t, hm, hline⟩ := List.eq_append_cons_of_mem (not_not.mp hc)
    refine ⟨.send ⟨line⟩, t ++ newline :: rest, ?_, ?_⟩
    · intro h
      rw [Command.send.injEq] at h
      exact ne_append_cons line t newline ((congrArg SendCommand.message h).trans hm)
    · have hs : write (.send v) ++ rest = write (.send ⟨line⟩) ++ (t ++ newline :: rest) := by
        simp [write, hm]
      rw [hs]
      exact read_write _ f (c := .send ⟨line⟩) hline
  | name v =>
    obtain ⟨line, t, hm, hline⟩ := List.eq_append_cons_of_mem (not_not.mp hc)
    refine ⟨.name ⟨line⟩, t ++ newline :: rest, ?_, ?_⟩
    · intro h
      rw [Command.name.injEq] at h
      exact ne_append_cons line t newline ((congrArg NameCommand.name h).trans hm)
    · have hs : write (.name v) ++ rest = write (.name ⟨line⟩) ++ (t ++ newline :: rest) := by
        simp [write, hm]
      rw [hs]
      exact read_write _ f (c := .name ⟨line⟩) hline
  | message v =>
    by_cases hn : space ∈ v.name
    · -- The name is cut at its own space; the rest of it goes to the text.
      obtain ⟨user, t, hu, huser⟩ := List.eq_append_cons_of_mem hn
      obtain ⟨line, rest', htail, hline⟩ := List.eq_append_cons_of_mem
        (show newline ∈ t ++ [space] ++ v.message ++ newline :: rest by simp)
      refine ⟨.message ⟨user, line⟩, rest', ?_, ?_⟩
      · intro h
        rw [Command.message.injEq] at h
        exact ne_append_cons user t space ((congrArg MessageCommand.name h).trans hu)
      · have hs : write (.message v) ++ rest = write (.message ⟨user, line⟩) ++ rest' := by
          calc write (.message v) ++ rest
              = messageTag ++ user ++ [space] ++
                  (t ++ [space] ++ v.message ++ newline :: rest) := by
                simp [write, hu]
            _ = write (.message ⟨user, line⟩) ++ rest' := by
                rw [htail]
                simp [write]
        rw [hs]
        exact read_write _ f (c := .message ⟨user, line⟩) ⟨huser, hline⟩
    · have hm : newline ∈ v.message := by
        by_contra hm
        exact hc ⟨hn, hm⟩
      obtain ⟨line, t, hm, hline⟩ := List.eq_append_cons_of_mem hm
      refine ⟨.message ⟨v.name, line⟩, t ++ newline :: rest, ?_, ?_⟩
      · intro h
        rw [Command.message.injEq] at h
        exact ne_append_cons line t newline ((congrArg MessageCommand.message h).trans hm)
      · have hs : write (.message v) ++ rest =
            write (.message ⟨v.name, line⟩) ++ (t ++ newline :: rest) := by
          simp [write, hm]
        rw [hs]
        exact read_write _ f (c := .message ⟨v.name, line⟩) ⟨hn, hline⟩

/-- The first command of a stream that `Read` accepts is the first of `ReadAll`. -/
theorem head?_readAll {r r' : CommandReader} {c : Command}
    (h : CommandReader.read r = (some c, none, r')) :
    (CommandReader.readAll r).1.head? = some c := by
  rw [CommandReader.readAll]
  split <;> rename_i h' <;> rw [h] at h' <;> cases h'
  rfl

/-- **Decode undoes encode exactly on the wire-safe commands.**
SOURCE: chatserver/protocol/reader.go:60-75, chatserver/protocol/writer.go:21-35 -/
theorem readAll_flatMap_write_iff (cs : List Command) :
    ((CommandReader.readAll ⟨cs.flatMap write, .eof⟩).1 = cs ∧
      (CommandReader.readAll ⟨cs.flatMap write, .eof⟩).2.1 = none) ↔
      ∀ c ∈ cs, WireSafe c := by
  induction cs with
  | nil =>
    have hnil : Truncated ([] : Bytes) := .keyword List.not_mem_nil
    simp [readAll_truncated hnil]
  | cons c cs ih =>
    rw [List.flatMap_cons, List.forall_mem_cons]
    by_cases hc : WireSafe c
    · rw [readAll_write hc, List.cons.injEq, ← ih]
      simp only [true_and, hc]
    · refine iff_of_false ?_ fun h => hc h.1
      rintro ⟨hcs, -⟩
      obtain ⟨c', rest', hne, hread⟩ := read_write_of_not_wireSafe hc (cs.flatMap write) .eof
      have hhead := head?_readAll hread
      rw [hcs, List.head?_cons, Option.some.injEq] at hhead
      exact hne hhead.symm

/-- **Encode undoes decode on every stream, up to a classified tail.** Either the
whole stream has been read and the tail holds no complete command, or the tail
starts with an unknown token and exactly that token and its space were consumed.
SOURCE: chatserver/protocol/reader.go:19-75 -/
theorem readAll_spec (s : Bytes) :
    ∃ cs t err r, CommandReader.readAll ⟨s, .eof⟩ = (cs, err, r) ∧
      (∀ c ∈ cs, WireSafe c) ∧ s = cs.flatMap write ++ t ∧
      ((err = none ∧ Truncated t ∧ r.data = []) ∨
        (err = some .unknownCommand ∧ ∃ tok rest, space ∉ tok ∧ tok ∉ keywords ∧
          t = tok ++ space :: rest ∧ r.data = rest)) := by
  induction s using stream_induction with
  | command c rest hc ih =>
    obtain ⟨cs, t, err, r, hread, hsafe, hs, htail⟩ := ih
    refine ⟨c :: cs, t, err, r, ?_, ?_, ?_, htail⟩
    · rw [readAll_write hc, hread]
    · exact List.forall_mem_cons.mpr ⟨hc, hsafe⟩
    · rw [List.flatMap_cons, List.append_assoc, ← hs]
  | unknown tok rest htok hkey ih =>
    exact ⟨[], tok ++ space :: rest, some .unknownCommand, ⟨rest, .eof⟩,
      readAll_unknown htok hkey rest .eof, by simp, rfl,
      .inr ⟨rfl, tok, rest, htok, hkey, rfl, rfl⟩⟩
  | truncated s hs =>
    exact ⟨[], s, none, ⟨[], .eof⟩, readAll_truncated hs, by simp, rfl, .inl ⟨rfl, hs, rfl⟩⟩

end GolangSandbox.Analysis
