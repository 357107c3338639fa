import GolangSandbox.Program.ReadAll

/-!
# The protocol as the README states it: one command a line

The abstract side of the protocol: a stream is a list of newline-terminated lines,
and each line is a command or nothing, whatever stands around it. `parseLine` does
not use the reader; `parseLine_eq_some` says that a line is well formed exactly when
it is what the writer emits for a wire-safe command.
-/

set_option autoImplicit false

namespace GolangSandbox.Interface

open GolangSandbox.Model GolangSandbox.Program
open GolangSandbox.Program.CommandWiter (write)

/-- One line, without the newline that ends it. -/
structure Line where
  bytes : Bytes
  newline_notMem : newline ∉ bytes
  deriving DecidableEq

/-- The stream that consists of these lines. -/
def unlines (ls : List Line) : Bytes := ls.flatMap fun l => l.bytes ++ [newline]

/-- What a line says on its own: `SEND text`, `NAME name` or `MESSAGE user text`.
SOURCE: chatserver/README.md:12-20 -/
def parseLine (l : Line) : Option Command :=
  (cut space l.bytes).bind fun p =>
    if p.1 = sendTag then some (.send ⟨p.2⟩)
    else if p.1 = nameTag then some (.name ⟨p.2⟩)
    else if p.1 = messageTag then
      (cut space p.2).map fun q => .message ⟨q.1.dropLast, q.2⟩
    else none

/-- The commands of the lines, each with the offset its line starts at. -/
def parseLinesFrom (pos : ℕ) : List Line → List (ℕ × Command)
  | [] => []
  | l :: ls =>
    (parseLine l).toList.map (pos, ·) ++ parseLinesFrom (pos + (l.bytes.length + 1)) ls

/-- The commands of the lines, each parsed on its own. -/
def parseLines (ls : List Line) : List Command := ls.filterMap parseLine

@[simp] theorem unlines_nil : unlines [] = [] := rfl

theorem unlines_cons (l : Line) (ls : List Line) :
    unlines (l :: ls) = l.bytes ++ newline :: unlines ls := by
  simp [unlines]

theorem map_snd_parseLinesFrom (pos : ℕ) (ls : List Line) :
    (parseLinesFrom pos ls).map Prod.snd = parseLines ls := by
  induction ls generalizing pos with
  | nil => rfl
  | cons l ls ih =>
    rw [parseLinesFrom, List.map_append, ih]
    unfold parseLines
    rw [List.filterMap_cons]
    cases parseLine l <;> rfl

/-- A line is well formed exactly when it is the encoding of a wire-safe command. -/
theorem parseLine_eq_some {l : Line} {c : Command} :
    parseLine l = some c ↔ WireSafe c ∧ write c = l.bytes ++ [newline] := by
  obtain ⟨s, hs⟩ := l
  constructor
  · intro h
    obtain ⟨⟨keyword, t⟩, hcut, hc⟩ := Option.bind_eq_some_iff.mp h
    obtain ⟨tok, -, rfl, hst⟩ := cut_eq_some.mp hcut
    simp only at hst hc
    subst hst
    have ht : newline ∉ t := fun hm => hs (by simp [hm])
    split_ifs at hc with hsend hname hmessage
    · cases hc
      exact ⟨ht, by simp [write, ← hsend]⟩
    · cases hc
      exact ⟨ht, by simp [write, ← hname]⟩
    · obtain ⟨⟨user, text⟩, hcut', rfl⟩ := Option.map_eq_some_iff.mp hc
      obtain ⟨u, hu, rfl, rfl⟩ := cut_eq_some.mp hcut'
      rw [List.dropLast_concat]
      exact ⟨⟨hu, fun hm => ht (by simp [hm])⟩, by simp [write, ← hmessage]⟩
  · rintro ⟨hc, hw⟩
    cases c with
    | send v =>
      have : s = sendTag.dropLast ++ space :: v.message :=
        (List.append_cancel_right (hw.symm.trans rfl)).trans rfl
      subst this
      simp only [parseLine, cut_append_cons (show space ∉ sendTag.dropLast by decide),
        Option.bind_some]
      rfl
    | name v =>
      have : s = nameTag.dropLast ++ space :: v.name :=
        (List.append_cancel_right (hw.symm.trans rfl)).trans rfl
      subst this
      simp only [parseLine, cut_append_cons (show space ∉ nameTag.dropLast by decide),
        Option.bind_some]
      rfl
    | message v =>
      have : s = messageTag.dropLast ++ space :: (v.name ++ space :: v.message) := by
        refine (List.append_cancel_right (hw.symm.trans rfl)).trans ?_
        simp [messageTag, space]
      subst this
      simp only [parseLine, cut_append_cons (show space ∉ messageTag.dropLast by decide),
        Option.bind_some, cut_append_cons hc.1, Option.map_some, List.dropLast_concat]
      rfl

/-- Commands of lines stand in the order of their offsets. -/
theorem pairwise_parseLinesFrom (pos : ℕ) (ls : List Line) :
    (parseLinesFrom pos ls).Pairwise (fun e e' => e.1 < e'.1) ∧
      ∀ e ∈ parseLinesFrom pos ls, pos ≤ e.1 := by
  induction ls generalizing pos with
  | nil => simp [parseLinesFrom]
  | cons l ls ih =>
    obtain ⟨hpair, hle⟩ := ih (pos + (l.bytes.length + 1))
    rw [parseLinesFrom]
    cases parseLine l with
    | none =>
      refine ⟨by simpa using hpair, fun e he => ?_⟩
      have := hle e (by simpa using he)
      omega
    | some c =>
      simp only [Option.toList_some, List.map_cons, List.map_nil, List.singleton_append,
        List.pairwise_cons, List.forall_mem_cons, Nat.le_refl, true_and]
      refine ⟨⟨fun e he => ?_, hpair⟩, fun e he => ?_⟩
      all_goals
        have := hle e he
        omega

/-- Where the command of a line starts: at the start, or right behind a newline. -/
theorem offset_parseLinesFrom {pos p : ℕ} {c : Command} {ls : List Line}
    (h : (p, c) ∈ parseLinesFrom pos ls) :
    (p = pos ∧ ∃ l tl, ls = l :: tl ∧ parseLine l = some c) ∨
      (pos < p ∧ (unlines ls)[p - pos - 1]? = some newline) := by
  induction ls generalizing pos with
  | nil => simp [parseLinesFrom] at h
  | cons l ls ih =>
    rw [parseLinesFrom, List.mem_append] at h
    obtain h | h := h
    · obtain ⟨c', hc', he⟩ := List.mem_map.mp h
      rw [Prod.mk.injEq] at he
      obtain ⟨rfl, rfl⟩ := he
      exact .inl ⟨rfl, l, ls, rfl, Option.mem_toList.mp hc'⟩
    · right
      rw [unlines_cons]
      obtain ⟨rfl, -⟩ | ⟨hlt, hget⟩ := ih h
      · refine ⟨by omega, ?_⟩
        rw [show pos + (l.bytes.length + 1) - pos - 1 = l.bytes.length by omega,
          List.getElem?_append_right (Nat.le_refl _), Nat.sub_self, List.getElem?_cons_zero]
      · refine ⟨by omega, ?_⟩
        rw [List.getElem?_append_right (by omega),
          show p - pos - 1 - l.bytes.length = p - (pos + (l.bytes.length + 1)) - 1 + 1 by omega,
          List.getElem?_cons_succ, hget]

end GolangSandbox.Interface
