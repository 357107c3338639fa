import Mathlib.Tactic.Common

/-!
# Channels

A channel is a buffer of some capacity and a flag that says whether it was closed. An
operation on it completes, blocks, or panics, and the program decides what each of these
means for it. A send appends and a receive takes from the front, so a channel keeps the
order of what goes through it (`send_completes`, `receive_some`); a receive reports the
end only when the channel is closed and empty (`receive_none`); only a send or a close on
a closed channel panics.

Without a free place in the buffer a send needs a receiver that waits. This involves the
places of both parties, and is a step of the program.
-/

set_option autoImplicit false

namespace GolangSandbox.Model

/-- What becomes of an operation on a channel. -/
inductive Outcome (β : Type) where
  | blocks
  | panics
  | completes (b : β)
  deriving DecidableEq, Repr

structure Chan (α : Type) where
  capacity : ℕ
  buffer : List α
  closed : Bool
  deriving DecidableEq, Repr

namespace Chan

variable {α : Type}

/-- A new channel. -/
def make (capacity : ℕ) : Chan α := ⟨capacity, [], false⟩

/-- Send to the buffer. -/
def send (c : Chan α) (v : α) : Outcome (Chan α) :=
  if c.closed then .panics
  else if c.buffer.length < c.capacity then .completes { c with buffer := c.buffer ++ [v] }
  else .blocks

/-- Receive; `none` reports that the channel is closed. -/
def receive (c : Chan α) : Outcome (Option α × Chan α) :=
  match c.buffer with
  | v :: buffer => .completes (some v, { c with buffer := buffer })
  | [] => if c.closed then .completes (none, c) else .blocks

def close (c : Chan α) : Outcome (Chan α) :=
  if c.closed then .panics else .completes { c with closed := true }

variable {c c' : Chan α} {v : α}

theorem send_completes (h : c.send v = .completes c') :
    c.closed = false ∧ c' = { c with buffer := c.buffer ++ [v] } := by
  unfold send at h
  split at h
  · cases h
  rename_i hopen
  split at h
  · cases h
    exact ⟨Bool.not_eq_true _ ▸ hopen, rfl⟩
  · cases h

/-- A send to the buffer finds a free place. -/
theorem send_room (h : c.send v = .completes c') : c.buffer.length < c.capacity := by
  unfold send at h
  split at h
  · cases h
  split at h
  · assumption
  · cases h

theorem send_panics : c.send v = .panics ↔ c.closed = true := by
  unfold send
  split
  · rename_i hclosed
    exact iff_of_true rfl hclosed
  · rename_i hopen
    split
    · exact iff_of_false nofun hopen
    · exact iff_of_false nofun hopen

theorem receive_some (h : c.receive = .completes (some v, c')) :
    c.buffer = v :: c'.buffer ∧ c'.closed = c.closed := by
  unfold receive at h
  split at h
  · rename_i w buffer hbuffer
    cases h
    exact ⟨hbuffer, rfl⟩
  · split at h
    · cases h
    · cases h

theorem receive_none (h : c.receive = .completes (none, c')) :
    c.buffer = [] ∧ c.closed = true ∧ c' = c := by
  unfold receive at h
  split at h
  · cases h
  · rename_i hbuffer
    split at h
    · rename_i hclosed
      cases h
      exact ⟨hbuffer, hclosed, rfl⟩
    · cases h

/-- A receive from a closed channel does not wait. -/
theorem exists_receive (hclosed : c.closed = true) : ∃ r, c.receive = .completes r := by
  unfold receive
  split
  · exact ⟨_, rfl⟩
  · rw [if_pos hclosed]
    exact ⟨_, rfl⟩

theorem receive_ne_panics : c.receive ≠ .panics := by
  unfold receive
  split
  · exact nofun
  · split
    · exact nofun
    · exact nofun

theorem close_completes (h : c.close = .completes c') :
    c.closed = false ∧ c' = { c with closed := true } := by
  unfold close at h
  split at h
  · cases h
  · rename_i hopen
    cases h
    exact ⟨Bool.not_eq_true _ ▸ hopen, rfl⟩

theorem close_panics : c.close = .panics ↔ c.closed = true := by
  unfold close
  split
  · rename_i hclosed
    exact iff_of_true rfl hclosed
  · rename_i hopen
    exact iff_of_false nofun hopen

theorem close_of_open (hopen : c.closed = false) :
    c.close = .completes { c with closed := true } := by
  rw [close, hopen]
  rfl

end Chan

end GolangSandbox.Model
