/-!
# Pipes

What has been written into a pipe and what has not been read from it yet. Both ends may do part of what they are
asked for, or nothing for now.
-/

namespace Pipes

variable {α : Type}

structure Pipe (α : Type) where
  sent : List α := []
  buffered : List α := []
  /-- No one has it open to write any more. -/
  ended : Bool := false
  deriving DecidableEq, Repr

/-- What a call that does not block answers; any error but `EAGAIN` by its text. -/
inductive Answer (α : Type) where
  | ok (result : α)
  | again
  | failed (what : String)
  deriving DecidableEq, Repr

/-- Any number of `size` items may be accepted. -/
def MayAccept (size : Nat) : Answer Nat → Prop
  | .ok count => count ≤ size
  | .again => True
  | .failed _ => False

instance (size : Nat) (a : Answer Nat) : Decidable (MayAccept size a) :=
  match a with
  | .ok count => inferInstanceAs (Decidable (count ≤ size))
  | .again => .isTrue trivial
  | .failed _ => .isFalse id

namespace Pipe

def write (items : List α) (p : Pipe α) : Pipe α :=
  { p with sent := p.sent ++ items, buffered := p.buffered ++ items }

/-- These items are read. -/
def advance (items : List α) (p : Pipe α) : Pipe α := { p with buffered := p.buffered.drop items.length }

def close (p : Pipe α) : Pipe α := { p with ended := true }

/-- At most `count` of the items that are there may be read, but none only at the end. -/
def MayRead (count : Nat) (p : Pipe α) : Answer (List α) → Prop
  | .ok items => items <+: p.buffered ∧ items.length ≤ count ∧ (items = [] → p.buffered = [] ∧ p.ended = true)
  | .again => True
  | .failed _ => False

instance [DecidableEq α] (count : Nat) (p : Pipe α) (a : Answer (List α)) : Decidable (p.MayRead count a) :=
  match a with
  | .ok items => inferInstanceAs (Decidable (items <+: p.buffered ∧ items.length ≤ count ∧ (items = [] → _)))
  | .again => .isTrue trivial
  | .failed _ => .isFalse id

/-! ## What has been read -/

/-- What has been read, in order. -/
def Received (p : Pipe α) (got : List α) : Prop := got ++ p.buffered = p.sent

variable {p : Pipe α} {got items : List α}

theorem Received.write (h : p.Received got) (items : List α) : (p.write items).Received got := by
  simp only [Received, Pipe.write] at h ⊢
  rw [← List.append_assoc, h]

theorem Received.close (h : p.Received got) : p.close.Received got := h

theorem Received.advance (h : p.Received got) (hitems : items <+: p.buffered) :
    (p.advance items).Received (got ++ items) := by
  obtain ⟨rest, hrest⟩ := hitems
  simp only [Received, Pipe.advance] at h ⊢
  rw [← hrest, List.drop_left, List.append_assoc, hrest, h]

/-- At the end all that was written has been read. -/
theorem Received.complete (h : p.Received got) (hempty : p.buffered = []) : got = p.sent := by
  rwa [Received, hempty, List.append_nil] at h

end Pipe

end Pipes
