import Dwhbll.Subprocess.Process
import Mathlib.Data.Nat.Find

/-!
# `pipe_wrapper::read` of `subprocess/pipe_wrapper.cpp`

The loop asks for `count` bytes in each round, and not for the `remaining` ones. What the kernel answers is given.
-/

namespace Dwhbll.Subprocess.PipeWrapper

open Pipes

/-- What `read` answers at its `k`-th call, by the number of bytes that is requested. -/
abbrev Kernel := (k requested : Nat) → Answer Nat

/-- How a call ends, and how many bytes of the pipe are gone then. -/
inductive Outcome where
  | returned (buffer : List UInt8) (consumed : Nat)
  | thrown (e : Exn)
  /-- The kernel has written behind the buffer, and nothing is known of what comes then. -/
  | overrun (consumed : Nat)
  deriving DecidableEq, Repr

/-- The variables of `read`, and how many bytes have been read from the pipe. -/
structure Locals where
  buffer : List UInt8
  remaining : Nat
  head : Nat := 0
  consumed : Nat := 0
  deriving DecidableEq, Repr

namespace Locals

/-- The kernel has put these bytes at `buffer.data() + head`. -/
def store (bytes : List UInt8) (s : Locals) : Locals where
  buffer := s.buffer.take s.head ++ bytes ++ s.buffer.drop (s.head + bytes.length)
  remaining := s.remaining - bytes.length
  head := s.head + bytes.length
  consumed := s.consumed + bytes.length

end Locals

/-- The loop from its `k`-th round on; the pipe holds the bytes `sent`, one after the other. -/
def readLoop (kernel : Kernel) (sent : List UInt8) (count : Nat) : (fuel k : Nat) → Locals → Option Outcome
  | 0, _, _ => none
  | fuel + 1, k, s =>
      if s.remaining = 0 then some (.returned s.buffer s.consumed)
      else
        match kernel k count with
        | .again => readLoop kernel sent count fuel (k + 1) s
        | .failed what => some (.thrown (.sysError what))
        | .ok result =>
            if s.head + result ≤ s.buffer.length then
              readLoop kernel sent count fuel (k + 1) (s.store ((sent.drop s.consumed).take result))
            else some (.overrun (s.consumed + result))

def read (kernel : Kernel) (sent : List UInt8) (count fuel : Nat) : Option Outcome :=
  readLoop kernel sent count fuel 0 { buffer := List.replicate count 0, remaining := count }

/-! ## What the kernel gives -/

/-- How many bytes the first `k` calls give that request `n`. -/
def given (kernel : Kernel) (n : Nat) : (k : Nat) → Nat
  | 0 => 0
  | k + 1 =>
      match kernel k n with
      | .ok result => given kernel n k + result
      | _ => given kernel n k

/-- Each call gives `EAGAIN`, or from one byte up to what was requested, of the bytes that are sent; `count` of them
come some time. -/
structure Serves (kernel : Kernel) (sent : List UInt8) (count : Nat) : Prop where
  answers : ∀ k n, kernel k n = .again ∨ ∃ result, kernel k n = .ok result ∧ 1 ≤ result ∧ result ≤ n
  within : ∀ k, given kernel count k ≤ sent.length
  available : ∃ k, count ≤ given kernel count k

variable {kernel : Kernel} {sent : List UInt8} {count fuel k : Nat}

theorem given_le_succ : given kernel count k ≤ given kernel count (k + 1) := by
  rw [given]
  split
  · exact Nat.le_add_right ..
  · exact Nat.le_refl _

theorem given_mono {j k : Nat} (h : j ≤ k) : given kernel count j ≤ given kernel count k := by
  induction h with
  | refl => exact Nat.le_refl _
  | step _ ih => exact Nat.le_trans ih given_le_succ

/-! ## The rounds -/

/-- The variables when the first `n` bytes have been read. -/
def having (sent : List UInt8) (count n : Nat) : Locals where
  buffer := sent.take n ++ List.replicate (count - n) 0
  remaining := count - n
  head := n
  consumed := n

theorem store_having {n result : Nat} (hcount : n + result ≤ count) (hsent : n + result ≤ sent.length) :
    (having sent count n).store ((sent.drop n).take result) = having sent count (n + result) := by
  have htake : (sent.take n).length = n := List.length_take_of_le (by omega)
  have hbytes : ((sent.drop n).take result).length = result := by
    rw [List.length_take, List.length_drop]
    omega
  have hhead : ((having sent count n).buffer.take n) = sent.take n := List.take_left' htake
  have htail : (having sent count n).buffer.drop (n + result) = List.replicate (count - (n + result)) 0 := by
    rw [having, List.drop_append, htake, List.drop_eq_nil_of_le (by omega), List.nil_append, List.drop_replicate]
    congr 1
    omega
  simp only [Locals.store, hbytes]
  rw [having, Locals.mk.injEq]
  refine ⟨?_, ?_, rfl, rfl⟩
  · change (having sent count n).buffer.take n ++ _ ++ (having sent count n).buffer.drop (n + result) = _
    rw [hhead, htail]
    simp only [having, List.take_add]
  · simp only [having]
    omega

theorem length_having {n : Nat} (hsent : n ≤ sent.length) (hcount : n ≤ count) :
    (having sent count n).buffer.length = count := by
  simp only [having, List.length_append, List.length_take_of_le hsent, List.length_replicate]
  omega

theorem readLoop_full (fuel k : Nat) :
    readLoop kernel sent count (fuel + 1) k (having sent count count) = some (.returned (sent.take count) count) := by
  simp [readLoop, having]

/-- One round, while bytes are missing. -/
theorem readLoop_step (h : Serves kernel sent count) (hmissing : given kernel count k < count) :
    readLoop kernel sent count (fuel + 1) k (having sent count (given kernel count k)) =
      if given kernel count (k + 1) ≤ count then
        readLoop kernel sent count fuel (k + 1) (having sent count (given kernel count (k + 1)))
      else some (.overrun (given kernel count (k + 1))) := by
  have hremaining : (having sent count (given kernel count k)).remaining ≠ 0 := Nat.sub_ne_zero_of_lt hmissing
  have hwithin := h.within (k + 1)
  rw [readLoop, if_neg hremaining]
  rcases h.answers k count with hagain | ⟨result, hok, -, -⟩
  · have hgiven : given kernel count (k + 1) = given kernel count k := by rw [given, hagain]
    rw [hagain, hgiven, if_pos (Nat.le_of_lt hmissing)]
  · have hgiven : given kernel count (k + 1) = given kernel count k + result := by rw [given, hok]
    rw [hgiven] at hwithin ⊢
    simp only [hok]
    rw [length_having (h.within k) (Nat.le_of_lt hmissing)]
    change (if given kernel count k + result ≤ count then _ else _) = _
    split
    · rename_i hfits
      exact congrArg _ (store_having hfits hwithin)
    · rfl

/-- The first rounds, as long as what they give fits. -/
theorem read_eq (h : Serves kernel sent count) (hbefore : ∀ j < k, given kernel count j < count)
    (hfits : given kernel count k ≤ count) :
    read kernel sent count (k + fuel) = readLoop kernel sent count fuel k (having sent count (given kernel count k)) := by
  induction k generalizing fuel with
  | zero => simp [read, given, having]
  | succ k ih =>
      have hk := hbefore k (Nat.lt_succ_self k)
      rw [Nat.succ_add_eq_add_succ, ih (fun j hj => hbefore j (Nat.lt_succ_of_lt hj)) (Nat.le_of_lt hk),
        readLoop_step h hk, if_pos hfits]

theorem readLoop_mono {s : Locals} {o : Outcome} (h : readLoop kernel sent count fuel k s = some o) (n : Nat) :
    readLoop kernel sent count (fuel + n) k s = some o := by
  induction fuel generalizing k s with
  | zero => cases h
  | succ fuel ih =>
      rw [Nat.succ_add, readLoop]
      rw [readLoop] at h
      split
      · rwa [if_pos ‹_›] at h
      · rw [if_neg ‹_›] at h
        split
        · rename_i hagain
          rw [hagain] at h
          exact ih h
        · rename_i hfailed
          rwa [hfailed] at h
        · rename_i result hok
          simp only [hok] at h
          split
          · rw [if_pos ‹_›] at h
            exact ih h
          · rwa [if_neg ‹_›] at h

/-! ## Exactly the bytes asked for -/

/-- The first call at which enough has been given. -/
theorem exists_first (h : Serves kernel sent count) :
    ∃ k, count ≤ given kernel count k ∧ ∀ j < k, given kernel count j < count := by
  refine ⟨Nat.find h.available, Nat.find_spec h.available, fun j hj => ?_⟩
  exact Nat.lt_of_not_le (Nat.find_min h.available hj)

theorem read_of_given (h : Serves kernel sent count) (hbefore : ∀ j < k, given kernel count j < count)
    (hk : given kernel count k = count) :
    read kernel sent count (k + 1) = some (.returned (sent.take count) count) := by
  rw [read_eq h hbefore (Nat.le_of_eq hk), hk, readLoop_full]

theorem read_of_jump (h : Serves kernel sent count) (hbefore : ∀ j < k, given kernel count j < count)
    (hk : count < given kernel count k) : read kernel sent count k = some (.overrun (given kernel count k)) := by
  cases k with
  | zero => exact absurd hk (Nat.not_lt_zero count)
  | succ k =>
      have hlt := hbefore k (Nat.lt_succ_self k)
      rw [read_eq h (fun j hj => hbefore j (Nat.lt_succ_of_lt hj)) (Nat.le_of_lt hlt), readLoop_step h hlt,
        if_neg (Nat.not_le_of_lt hk)]

/-- The call stays in its buffer, returns the next bytes and takes no others out of the pipe if and only if what the
kernel gives does not jump over `count`. -/
theorem read_exactly_iff (h : Serves kernel sent count) :
    (∃ fuel, read kernel sent count fuel = some (.returned (sent.take count) count)) ↔
      ∃ k, given kernel count k = count := by
  obtain ⟨k, hk, hbefore⟩ := exists_first h
  constructor
  · rintro ⟨fuel, hread⟩
    by_contra hnone
    have hjump : count < given kernel count k := Nat.lt_of_le_of_ne hk fun heq => hnone ⟨k, heq.symm⟩
    have hover := readLoop_mono (read_of_jump h hbefore hjump) fuel
    have hreturned := readLoop_mono hread k
    rw [Nat.add_comm] at hreturned
    cases hreturned.symm.trans hover
  · rintro ⟨j, hj⟩
    have hle : k ≤ j := by
      by_contra hlt
      exact absurd (hbefore j (Nat.lt_of_not_le hlt)) (by omega)
    have heq : given kernel count k = count := Nat.le_antisymm (Nat.le_trans (given_mono hle) (Nat.le_of_eq hj)) hk
    exact ⟨k + 1, read_of_given h hbefore heq⟩

/-! ## Answers that are written down -/

/-- One answer after the other, 0 for `EAGAIN`; then nothing comes any more. -/
def scripted (results : List Nat) : Kernel := fun k requested =>
  let result := results.getD k 0
  if 1 ≤ result ∧ result ≤ requested then .ok result else .again

theorem given_scripted (results : List Nat) (k : Nat) :
    given (scripted results) count (results.length + k) = given (scripted results) count results.length := by
  induction k with
  | zero => rfl
  | succ k ih =>
      rw [← Nat.add_assoc, given, ih]
      simp [scripted]

theorem serves_scripted {results : List Nat} (hwithin : given (scripted results) count results.length ≤ sent.length)
    (havailable : count ≤ given (scripted results) count results.length) : Serves (scripted results) sent count where
  answers k n := by
    unfold scripted
    simp only
    split
    · rename_i h
      exact .inr ⟨_, rfl, h.1, h.2⟩
    · exact .inl rfl
  within k := by
    have hle : given (scripted results) count k ≤ given (scripted results) count (results.length + k) :=
      given_mono (Nat.le_add_left k results.length)
    rw [given_scripted] at hle
    exact Nat.le_trans hle hwithin
  available := ⟨results.length, havailable⟩

/-- Three bytes, nothing for now, and one byte. -/
theorem read_exactly_iff_pieces :
    ∃ fuel, read (scripted [3, 0, 1]) [1, 2, 3, 4, 5] 4 fuel = some (.returned [1, 2, 3, 4] 4) :=
  (read_exactly_iff (serves_scripted (by decide) (by decide))).mpr ⟨3, rfl⟩

/-- Three bytes come, and then as many as are requested: three of them are written behind the buffer. -/
theorem short_read_overruns :
    Serves (scripted [3, 4]) [1, 2, 3, 4, 5, 6, 7] 4 ∧
      read (scripted [3, 4]) [1, 2, 3, 4, 5, 6, 7] 4 2 = some (.overrun 7) ∧
      ∀ fuel, read (scripted [3, 4]) [1, 2, 3, 4, 5, 6, 7] 4 fuel ≠ some (.returned [1, 2, 3, 4] 4) := by
  refine ⟨serves_scripted (by decide) (by decide), by decide, fun fuel h => ?_⟩
  match fuel with
  | 0 => cases h
  | 1 => cases h
  | fuel + 2 => cases h

end Dwhbll.Subprocess.PipeWrapper
