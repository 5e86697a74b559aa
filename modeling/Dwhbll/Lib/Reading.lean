/-!
# Readings of a text

A reading goes through a text character by character. What it does at a character depends on this one and the next: it
ends some characters further on, or it goes on, skips some characters that it does not look at, and counts.
-/

namespace Reading

variable {α : Type}

inductive Act where
  | stop (n : Nat)
  | go (skip count : Nat)

variable (act : α → Option α → Act)

/-- How many characters are read, up to where the reading stops or the text ends. The first `skip` of them are not looked
at. -/
def length : (skip : Nat) → List α → Nat
  | _, [] => 0
  | skip + 1, _ :: rest => length skip rest + 1
  | 0, c :: rest =>
      match act c rest.head? with
      | .stop n => n
      | .go skip _ => length skip rest + 1

/-- What is counted on the way. -/
def counted : (skip : Nat) → List α → Nat
  | _, [] => 0
  | skip + 1, _ :: rest => counted skip rest
  | 0, c :: rest =>
      match act c rest.head? with
      | .stop _ => 0
      | .go skip count => counted skip rest + count

/-- It stops at one of the characters that it has looked at. -/
def Near : Prop := ∀ c next n, act c next = .stop n → n ≤ next.toList.length + 1

variable {act} {c : α} {rest : List α} {skip n : Nat}

theorem length_succ (skip : Nat) (c : α) (rest : List α) :
    length act (skip + 1) (c :: rest) = length act skip rest + 1 := rfl

theorem counted_succ (skip : Nat) (c : α) (rest : List α) : counted act (skip + 1) (c :: rest) = counted act skip rest :=
  rfl

theorem length_stop (h : act c rest.head? = .stop n) : length act 0 (c :: rest) = n := by
  rw [length, h]

theorem length_go (h : act c rest.head? = .go skip n) : length act 0 (c :: rest) = length act skip rest + 1 := by
  rw [length, h]

theorem counted_stop (h : act c rest.head? = .stop n) : counted act 0 (c :: rest) = 0 := by
  rw [counted, h]

theorem counted_go (h : act c rest.head? = .go skip n) : counted act 0 (c :: rest) = counted act skip rest + n := by
  rw [counted, h]

theorem length_skip (skip : Nat) (s : List α) :
    length act skip s = min skip s.length + length act 0 (s.drop skip) := by
  induction skip generalizing s with
  | zero => simp
  | succ skip ih =>
      cases s with
      | nil => simp [length]
      | cons c rest =>
          rw [length_succ, ih, List.length_cons, List.drop_succ_cons]
          omega

theorem counted_skip (skip : Nat) (s : List α) : counted act skip s = counted act 0 (s.drop skip) := by
  induction skip generalizing s with
  | zero => rfl
  | succ skip ih =>
      cases s with
      | nil => rfl
      | cons c rest => rw [counted_succ, ih, List.drop_succ_cons]

theorem length_le (h : Near act) (skip : Nat) (s : List α) : length act skip s ≤ s.length := by
  induction s generalizing skip with
  | nil => exact Nat.le_of_eq (by simp [length])
  | cons c rest ih =>
      cases skip with
      | succ skip => exact Nat.succ_le_succ (ih skip)
      | zero =>
          rw [length]
          split
          · rename_i n hact
            have hn := h _ _ _ hact
            cases rest with
            | nil => exact hn
            | cons d rest =>
                refine Nat.le_trans hn ?_
                simp
          · exact Nat.succ_le_succ (ih _)

/-- If only characters that are `x` count, and those once, what is counted has been read. -/
theorem counted_le_count [BEq α] {x : α}
    (h : ∀ c next skip n, act c next = .go skip n → n ≤ if c == x then 1 else 0) (skip : Nat) (s : List α) :
    counted act skip s ≤ (s.take (length act skip s)).count x := by
  induction s generalizing skip with
  | nil => simp [counted]
  | cons c rest ih =>
      cases skip with
      | succ skip =>
          rw [counted_succ, length_succ, List.take_succ_cons]
          exact Nat.le_trans (ih skip) List.count_le_count_cons
      | zero =>
          rw [counted, length]
          split
          · exact Nat.zero_le _
          · rename_i skip n hact
            rw [List.take_succ_cons, List.count_cons]
            exact Nat.add_le_add (ih skip) (h _ _ _ _ hact)

theorem length_eq_zero_iff (h : ∀ c next, act c next ≠ .stop 0) (skip : Nat) (s : List α) :
    length act skip s = 0 ↔ s = [] := by
  constructor
  · intro hz
    cases s with
    | nil => rfl
    | cons c rest =>
        cases skip with
        | succ skip => cases hz
        | zero =>
            rw [length] at hz
            split at hz
            · rename_i n hact
              rw [hz] at hact
              exact absurd hact (h _ _)
            · cases hz
  · rintro rfl
    cases skip <;> rfl

end Reading
