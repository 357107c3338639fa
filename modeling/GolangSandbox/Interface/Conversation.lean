import GolangSandbox.Program.ChatRoom

/-!
# What a conversation means

The purpose of the chat room in its own terms: `broadcasts` is what the command
sequence of one client asks the server to send, the text of every `SEND` under the
latest `NAME` before it, and the type switch of `serve` sends it command by command
(`handle_spec`). `readAs` is how a receiver reads a message whose name may contain
spaces. Its first space ends the name, so name, space and message together are kept
(`readAs_joined`) although the border may move.
-/

set_option autoImplicit false

namespace GolangSandbox.Interface

open GolangSandbox.Model GolangSandbox.Program GolangSandbox.Program.ChatRoom
open GolangSandbox.Program.CommandWiter (write)

/-! ## One message on the wire -/

/-- The message can be sent on one line. -/
def LineSafe (m : MessageCommand) : Prop := newline ∉ m.name ∧ newline ∉ m.message

/-- The message with its border moved to the first space. -/
def readAs (m : MessageCommand) : MessageCommand :=
  match cut space (m.name ++ space :: m.message) with
  | some (user, message) => ⟨user.dropLast, message⟩
  | none => m

/-- A receiver of the message shows it as `shown`, whatever follows it. -/
def Shows (m shown : MessageCommand) : Prop :=
  ∀ rest f, CommandReader.read ⟨write (.message m) ++ rest, f⟩ =
    (some (.message shown), none, ⟨rest, f⟩)

section ReadAs

variable {m : MessageCommand}

theorem readAs_spec (m : MessageCommand) :
    space ∉ (readAs m).name ∧
      (readAs m).name ++ space :: (readAs m).message = m.name ++ space :: m.message := by
  obtain ⟨user, message, heq, hu⟩ :=
    List.eq_append_cons_of_mem (show space ∈ m.name ++ space :: m.message by simp)
  unfold readAs
  rw [heq, cut_append_cons hu]
  simp [hu]

theorem readAs_joined (m : MessageCommand) :
    (readAs m).name ++ [space] ++ (readAs m).message = m.name ++ [space] ++ m.message := by
  have := (readAs_spec m).2
  simpa using this

theorem write_message (m : MessageCommand) :
    write (.message m) = messageTag ++ (m.name ++ space :: m.message) ++ [newline] := by
  simp [write]

/-- The two messages are the same bytes. -/
theorem write_readAs (m : MessageCommand) :
    write (.message (readAs m)) = write (.message m) := by
  rw [write_message, write_message, (readAs_spec m).2]

theorem wireSafe_readAs (h : LineSafe m) : WireSafe (.message (readAs m)) := by
  obtain ⟨hspace, hjoin⟩ := readAs_spec m
  refine ⟨hspace, fun hnl => ?_⟩
  have hmem : newline ∈ m.name ++ space :: m.message := by
    rw [← hjoin]
    exact List.mem_append_right _ (List.mem_cons_of_mem _ hnl)
  rw [List.mem_append, List.mem_cons] at hmem
  obtain hname | hsp | hmessage := hmem
  · exact h.1 hname
  · exact absurd hsp (by decide)
  · exact h.2 hmessage

/-- **A receiver reads a line-safe message as `readAs` says**, and consumes its bytes. -/
theorem read_write_message (h : LineSafe m) (rest : Bytes) (f : Fault) :
    CommandReader.read ⟨write (.message m) ++ rest, f⟩ =
      (some (.message (readAs m)), none, ⟨rest, f⟩) := by
  rw [← write_readAs, read_write rest f (wireSafe_readAs h)]

theorem readAs_of_notMem (h : space ∉ m.name) : readAs m = m := by
  unfold readAs
  rw [cut_append_cons h]
  simp only [List.dropLast_concat]

theorem readAs_eq_self : readAs m = m ↔ space ∉ m.name := by
  refine ⟨fun h => ?_, readAs_of_notMem⟩
  rw [← h]
  exact (readAs_spec m).1

theorem shows_iff (h : LineSafe m) {shown : MessageCommand} :
    Shows m shown ↔ readAs m = shown := by
  constructor
  · intro ha
    have := (read_write_message h [] .eof).symm.trans (ha [] .eof)
    simpa using this
  · intro heq rest f
    rw [read_write_message h, heq]

theorem shows_self_iff (h : LineSafe m) : Shows m m ↔ space ∉ m.name :=
  (shows_iff h).trans readAs_eq_self

end ReadAs

/-! ## The commands of one client -/

/-- The most recent name a command sequence sets. -/
def latestName (cs : List Command) : Option Bytes :=
  (cs.filterMap fun
    | .name v => some v.name
    | _ => none).getLast?

/-- The name of a client that was called `name` before it sent the commands. -/
def nameAfter (name : Bytes) (cs : List Command) : Bytes := (latestName cs).getD name

/-- What a client that is called `name` says with the commands: the text of every `SEND`
under the name of that moment. -/
def broadcasts (name : Bytes) : List Command → List MessageCommand
  | [] => []
  | .send v :: cs => ⟨name, v.message⟩ :: broadcasts name cs
  | .name v :: cs => broadcasts v.name cs
  | .message _ :: cs => broadcasts name cs

/-- The number of `SEND` commands. -/
def sendCount (cs : List Command) : ℕ :=
  cs.countP fun
    | .send _ => true
    | _ => false

/-- Every `SEND` has its own message, and a receiver of that shows the latest name before the
`SEND`, the empty one before the first `NAME`, and its text. -/
def AttributedSends (cs : List Command) (ms : List MessageCommand) : Prop :=
  ms.length = sendCount cs ∧
    ∀ xs v ys, cs = xs ++ .send v :: ys →
      ∃ m, ms[sendCount xs]? = some m ∧ Shows m ⟨(latestName xs).getD [], v.message⟩

/-- Whenever a message is sent, the most recent name before it contains no space. -/
def SpacelessSends (cs : List Command) : Prop :=
  ∀ xs v ys, cs = xs ++ .send v :: ys → ∀ name, latestName xs = some name → space ∉ name

theorem nameAfter_append (name : Bytes) (xs ys : List Command) :
    nameAfter name (xs ++ ys) = nameAfter (nameAfter name xs) ys := by
  unfold nameAfter latestName
  rw [List.filterMap_append, List.getLast?_append]
  cases (ys.filterMap _).getLast? <;> rfl

theorem broadcasts_append (name : Bytes) (xs ys : List Command) :
    broadcasts name (xs ++ ys) = broadcasts name xs ++ broadcasts (nameAfter name xs) ys := by
  induction xs generalizing name with
  | nil => rfl
  | cons cmd xs ih =>
    have hname : nameAfter name (cmd :: xs) = nameAfter (nameAfter name [cmd]) xs :=
      nameAfter_append name [cmd] xs
    rw [hname, List.cons_append]
    cases cmd with
    | send v => rw [broadcasts, broadcasts, ih]; rfl
    | name v => rw [broadcasts, broadcasts, ih]; rfl
    | message v => rw [broadcasts, broadcasts, ih]; rfl

/-- **The type switch of `serve` does what a command asks for.** -/
theorem handle_spec (name : Bytes) (cmd : Command) :
    (handle name (some cmd)).1 = nameAfter name [cmd] ∧
      (handle name (some cmd)).2.toList = broadcasts name [cmd] := by
  cases cmd with
  | send v => exact ⟨rfl, rfl⟩
  | name v => exact ⟨rfl, rfl⟩
  | message v => exact ⟨rfl, rfl⟩

theorem length_broadcasts (name : Bytes) (cs : List Command) :
    (broadcasts name cs).length = sendCount cs := by
  induction cs generalizing name with
  | nil => rfl
  | cons cmd cs ih =>
    cases cmd with
    | send v =>
      rw [broadcasts, List.length_cons, ih]
      exact (List.countP_cons_of_pos rfl).symm
    | name v => exact ih v.name
    | message v => exact ih name

/-- The message of a `SEND` has as many messages before it as there are `SEND`s. -/
theorem getElem?_broadcasts (name : Bytes) (xs : List Command) (v : SendCommand)
    (ys : List Command) :
    (broadcasts name (xs ++ .send v :: ys))[sendCount xs]? =
      some ⟨nameAfter name xs, v.message⟩ := by
  rw [broadcasts_append, ← length_broadcasts name xs, List.getElem?_append_right (Nat.le_refl _),
    Nat.sub_self]
  rfl

/-- A message of a command sequence is that of one of its `SEND`s. -/
theorem exists_send_of_mem_broadcasts {name : Bytes} {cs : List Command} {m : MessageCommand}
    (hm : m ∈ broadcasts name cs) :
    ∃ xs v ys, cs = xs ++ .send v :: ys ∧ m = ⟨nameAfter name xs, v.message⟩ := by
  induction cs generalizing name with
  | nil => cases hm
  | cons cmd cs ih =>
    cases cmd with
    | send v =>
      rw [broadcasts, List.mem_cons] at hm
      obtain rfl | hm := hm
      · exact ⟨[], v, cs, rfl, rfl⟩
      · obtain ⟨xs, w, ys, rfl, rfl⟩ := ih hm
        exact ⟨.send v :: xs, w, ys, rfl, rfl⟩
    | name v =>
      obtain ⟨xs, w, ys, rfl, rfl⟩ := ih hm
      exact ⟨.name v :: xs, w, ys, rfl, by rw [← List.singleton_append, nameAfter_append]; rfl⟩
    | message v =>
      obtain ⟨xs, w, ys, rfl, rfl⟩ := ih hm
      exact ⟨.message v :: xs, w, ys, rfl, rfl⟩

theorem latestName_mem {cs : List Command} {name : Bytes} (h : latestName cs = some name) :
    ∃ v, Command.name v ∈ cs ∧ v.name = name := by
  have hmem := List.mem_of_getLast? h
  obtain ⟨cmd, hcmd, hname⟩ := List.mem_filterMap.mp hmem
  cases cmd with
  | name v => exact ⟨v, hcmd, Option.some.inj hname⟩
  | send v => cases hname
  | message v => cases hname

/-- Decoded names and texts have no newline, so neither has what is said with them. -/
theorem lineSafe_of_split {cs xs ys : List Command} {v : SendCommand}
    (hcs : ∀ cmd ∈ cs, WireSafe cmd) (hsplit : cs = xs ++ .send v :: ys) :
    LineSafe ⟨nameAfter [] xs, v.message⟩ := by
  subst hsplit
  refine ⟨?_, hcs (.send v) (by simp)⟩
  show newline ∉ (latestName xs).getD []
  cases hname : latestName xs with
  | none => simp
  | some name =>
    obtain ⟨w, hw, rfl⟩ := latestName_mem hname
    exact hcs (.name w) (List.mem_append_left _ hw)

theorem lineSafe_of_mem_broadcasts {cs : List Command} (hcs : ∀ cmd ∈ cs, WireSafe cmd)
    {m : MessageCommand} (hm : m ∈ broadcasts [] cs) : LineSafe m := by
  obtain ⟨xs, v, ys, hsplit, rfl⟩ := exists_send_of_mem_broadcasts hm
  exact lineSafe_of_split hcs hsplit

/-- **Every `SEND` is attributed correctly if and only if no message is sent under a name
with a space.** -/
theorem attributedSends_iff {cs : List Command} (hcs : ∀ cmd ∈ cs, WireSafe cmd) :
    AttributedSends cs (broadcasts [] cs) ↔ SpacelessSends cs := by
  constructor
  · rintro ⟨-, h⟩ xs v ys hsplit name hname
    obtain ⟨m, hm, hshows⟩ := h xs v ys hsplit
    have hsafe := lineSafe_of_split hcs hsplit
    rw [hsplit, getElem?_broadcasts, Option.some.injEq] at hm
    subst hm
    have hspace := (shows_self_iff hsafe).mp hshows
    rwa [nameAfter, hname] at hspace
  · intro h
    refine ⟨length_broadcasts [] cs, fun xs v ys hsplit => ?_⟩
    refine ⟨⟨nameAfter [] xs, v.message⟩, hsplit ▸ getElem?_broadcasts [] xs v ys, ?_⟩
    rw [← nameAfter, shows_self_iff (lineSafe_of_split hcs hsplit)]
    show space ∉ (latestName xs).getD []
    cases hname : latestName xs with
    | none => simp
    | some name => exact h xs v ys hsplit name hname

/-! ## Streams cut between commands -/

/-- The stream ends between two commands, so that decoding can go on behind it. -/
def Boundary (p : Bytes) : Prop := ∀ s, decode (p ++ s) = decode p ++ decode s

theorem decode_nil : decode [] = [] := decode_truncated (.keyword List.not_mem_nil)

theorem boundary_nil : Boundary [] := fun s => by rw [decode_nil]; rfl

theorem Boundary.write {p : Bytes} (h : Boundary p) {cmd : Command} (hcmd : WireSafe cmd) :
    Boundary (p ++ write cmd) ∧ decode (p ++ write cmd) = decode p ++ [cmd] := by
  have hone : decode (p ++ CommandWiter.write cmd) = decode p ++ [cmd] := by
    have := decode_write hcmd []
    rw [List.append_nil, decode_nil] at this
    rw [h, this]
  refine ⟨fun s => ?_, hone⟩
  rw [List.append_assoc, h, decode_write hcmd, hone, List.append_assoc]
  rfl

theorem Boundary.unknown {p tok : Bytes} (h : Boundary p) (htok : space ∉ tok)
    (hkey : tok ∉ keywords) :
    Boundary (p ++ (tok ++ [space])) ∧ decode (p ++ (tok ++ [space])) = decode p := by
  have hone : decode (p ++ (tok ++ [space])) = decode p := by
    rw [h, decode_unknown htok hkey, decode_nil, List.append_nil]
  refine ⟨fun s => ?_, hone⟩
  rw [List.append_assoc, h, hone]
  simp only [List.append_assoc, List.singleton_append, decode_unknown htok hkey]

theorem Boundary.truncated {p s : Bytes} (h : Boundary p) (hs : Truncated s) :
    decode (p ++ s) = decode p := by
  rw [h, decode_truncated hs, List.append_nil]

/-- What the reader decodes can be written again. -/
theorem wireSafe_of_mem_decode {s : Bytes} {cmd : Command} (h : cmd ∈ decode s) :
    WireSafe cmd := by
  induction s using stream_induction with
  | command c rest hc ih =>
    rw [decode_write hc, List.mem_cons] at h
    obtain rfl | h := h
    · exact hc
    · exact ih h
  | unknown tok rest htok hkey ih =>
    rw [decode_unknown htok hkey] at h
    exact ih h
  | truncated s hs =>
    rw [decode_truncated hs] at h
    cases h

/-- Writing wire-safe commands and reading them back, by either loop. -/
theorem readAll_flatMap_write {cs : List Command} (hcs : ∀ cmd ∈ cs, WireSafe cmd) :
    CommandReader.readAll ⟨cs.flatMap write, .eof⟩ = (cs, none, ⟨[], .eof⟩) := by
  induction cs with
  | nil => exact readAll_truncated (.keyword List.not_mem_nil)
  | cons cmd cs ih =>
    rw [List.forall_mem_cons] at hcs
    rw [List.flatMap_cons, readAll_write hcs.1, ih hcs.2]

theorem decode_flatMap_write {cs : List Command} (hcs : ∀ cmd ∈ cs, WireSafe cmd) :
    decode (cs.flatMap write) = cs := by
  induction cs with
  | nil => exact decode_nil
  | cons cmd cs ih =>
    rw [List.forall_mem_cons] at hcs
    rw [List.flatMap_cons, decode_write hcs.1, ih hcs.2]

end GolangSandbox.Interface
