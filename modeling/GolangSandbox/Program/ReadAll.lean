import GolangSandbox.Interface.WireFormat

/-!
# The loops that call `Read`

`ReadAll` stops at the first error; the loops of `serve` and `Start` skip unknown
commands and stop at the end of the stream only. Every `Read` that does not reach
the end consumes something (`read_lt`), so both loops are total functions of the
bytes of the stream.
-/

set_option autoImplicit false

namespace GolangSandbox.Program

open GolangSandbox.Model GolangSandbox.Interface
open GolangSandbox.Program.CommandWiter (write)

/-- `ReadAll`: the commands, the error, and the reader behind them. The end of the
stream is not an error.
SOURCE: chatserver/protocol/reader.go:60-75 -/
def CommandReader.readAll (r : CommandReader) :
    List Command × Option ReadError × CommandReader :=
  match _h : CommandReader.read r with
  | (command, some (.fault .eof), r') => (command.toList, none, r')
  | (command, some err, r') => (command.toList, some err, r')
  | (command, none, r') =>
    (command.toList ++ (readAll r').1, (readAll r').2)
termination_by r.data.length
decreasing_by all_goals exact read_lt _h (by simp)

/-- Calling `Read` until the end of the stream, as `serve` and `Start` do: each
command, with the offset of the byte its `Read` began at. Other errors are logged
and the loop goes on.
SOURCE: chatserver/server/tcp_server.go:107-128, chatserver/client/tcp_client.go:37-53 -/
def decodeFrom (pos : ℕ) (s : Bytes) : List (ℕ × Command) :=
  match _h : CommandReader.read ⟨s, .eof⟩ with
  | (command, some (.fault _), _) => command.toList.map (pos, ·)
  | (command, some .unknownCommand, r) =>
    command.toList.map (pos, ·) ++ decodeFrom (pos + (s.length - r.data.length)) r.data
  | (command, none, r) =>
    command.toList.map (pos, ·) ++ decodeFrom (pos + (s.length - r.data.length)) r.data
termination_by s.length
decreasing_by all_goals exact read_lt _h (by simp)

/-- The commands of a stream that ends. -/
def decode (s : Bytes) : List Command := (decodeFrom 0 s).map Prod.snd

/-! ## Unfolding one `Read` of a loop -/

theorem readAll_write {c : Command} (hc : WireSafe c) (rest : Bytes) (f : Fault) :
    CommandReader.readAll ⟨write c ++ rest, f⟩ =
      (c :: (CommandReader.readAll ⟨rest, f⟩).1, (CommandReader.readAll ⟨rest, f⟩).2) := by
  rw [CommandReader.readAll]
  split <;> rename_i h <;> rw [read_write rest f hc] at h <;> cases h
  rfl

theorem readAll_unknown {tok : Bytes} (htok : space ∉ tok) (hkey : tok ∉ keywords)
    (rest : Bytes) (f : Fault) :
    CommandReader.readAll ⟨tok ++ space :: rest, f⟩ =
      ([], some .unknownCommand, ⟨rest, f⟩) := by
  rw [CommandReader.readAll]
  split <;> rename_i h <;> rw [read_unknown rest f htok hkey] at h <;> cases h
  rfl

theorem readAll_truncated {s : Bytes} (hs : Truncated s) :
    CommandReader.readAll ⟨s, .eof⟩ = ([], none, ⟨[], .eof⟩) := by
  rw [CommandReader.readAll]
  split
  · rename_i h
    rw [read_truncated .eof hs] at h
    cases h
    rfl
  · rename_i hne h
    rw [read_truncated .eof hs] at h
    cases h
    exact absurd rfl hne
  · rename_i h
    rw [read_truncated .eof hs] at h
    cases h

theorem decodeFrom_write {c : Command} (hc : WireSafe c) (pos : ℕ) (rest : Bytes) :
    decodeFrom pos (write c ++ rest) =
      (pos, c) :: decodeFrom (pos + (write c).length) rest := by
  rw [decodeFrom]
  split <;> rename_i h <;> rw [read_write rest .eof hc] at h <;> cases h
  simp only [Option.toList_some, List.map_cons, List.map_nil, List.singleton_append,
    List.length_append, Nat.add_sub_cancel]

theorem decodeFrom_unknown {tok : Bytes} (htok : space ∉ tok) (hkey : tok ∉ keywords)
    (pos : ℕ) (rest : Bytes) :
    decodeFrom pos (tok ++ space :: rest) = decodeFrom (pos + (tok.length + 1)) rest := by
  rw [decodeFrom]
  split <;> rename_i h <;> rw [read_unknown rest .eof htok hkey] at h <;> cases h
  have hlen : (tok ++ space :: rest).length - rest.length = tok.length + 1 := by
    simp only [List.length_append, List.length_cons]
    omega
  simp only [Option.toList_none, List.map_nil, List.nil_append, hlen]

theorem decodeFrom_truncated {s : Bytes} (hs : Truncated s) (pos : ℕ) :
    decodeFrom pos s = [] := by
  rw [decodeFrom]
  split <;> rename_i h <;> rw [read_truncated .eof hs] at h <;> cases h
  rfl

/-- Offsets only shift: the commands of a stream do not depend on where it starts. -/
theorem decodeFrom_eq_map (pos : ℕ) (s : Bytes) :
    decodeFrom pos s = (decodeFrom 0 s).map fun e => (pos + e.1, e.2) := by
  induction s using stream_induction generalizing pos with
  | command c rest hc ih =>
    rw [decodeFrom_write hc, decodeFrom_write hc, List.map_cons, ih (pos + _), ih (0 + _),
      List.map_map]
    simp only [Function.comp_def, Nat.add_assoc, Nat.zero_add, Nat.add_zero]
  | unknown tok rest htok hkey ih =>
    rw [decodeFrom_unknown htok hkey, decodeFrom_unknown htok hkey, ih (pos + _), ih (0 + _),
      List.map_map]
    simp only [Function.comp_def, Nat.add_assoc, Nat.zero_add]
  | truncated s hs => rw [decodeFrom_truncated hs, decodeFrom_truncated hs, List.map_nil]

theorem map_snd_decodeFrom (pos : ℕ) (s : Bytes) :
    (decodeFrom pos s).map Prod.snd = decode s := by
  rw [decodeFrom_eq_map, List.map_map]
  rfl

@[simp] theorem decode_write {c : Command} (hc : WireSafe c) (rest : Bytes) :
    decode (write c ++ rest) = c :: decode rest := by
  rw [decode, decodeFrom_write hc, List.map_cons, map_snd_decodeFrom]

@[simp] theorem decode_unknown {tok : Bytes} (htok : space ∉ tok) (hkey : tok ∉ keywords)
    (rest : Bytes) : decode (tok ++ space :: rest) = decode rest := by
  rw [decode, decodeFrom_unknown htok hkey, map_snd_decodeFrom]

@[simp] theorem decode_truncated {s : Bytes} (hs : Truncated s) : decode s = [] := by
  rw [decode, decodeFrom_truncated hs, List.map_nil]

end GolangSandbox.Program
