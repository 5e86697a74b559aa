import Dwhbll.Lib.Lists

/-!
# The receiving side of `Socket` of `network/http_server.hpp`

What `poll` and `read` answer is a parameter. Which bytes `read` delivered and which bytes were taken from the buffer
is kept with the state.
-/

namespace Dwhbll.Network

/-- What a call of `poll`, and of `read` after it, comes to. -/
inductive Answer where
  /-- `poll` does not return 1: a timeout, or an error. -/
  | notReady
  /-- `read` returns -1. -/
  | error
  /-- `read` returns so many bytes; none at the end of the file. -/
  | bytes (data : { xs : List UInt8 // xs.length ≤ 4096 })

structure Socket where
  recvBuffer : Nat → UInt8
  recvReadpos : Nat
  recvSize : Nat
  /-- The calls of `poll` so far. -/
  polls : Nat
  delivered : List UInt8
  consumed : List UInt8

namespace Socket

variable (env : Nat → Answer)

/-- What is in the buffer before the assignment stays there. -/
def assignSocket (recvBuffer : Nat → UInt8) : Socket := ⟨recvBuffer, 0, 0, 0, [], []⟩

def refillBuffer (s : Socket) : Socket :=
  let s' := { s with recvReadpos := 0, polls := s.polls + 1 }
  match env s.polls with
  | .notReady => s'
  | .error => { s' with recvSize := 0 }
  | .bytes data =>
      { s' with
        recvBuffer := fun i => data.1.getD i (s.recvBuffer i)
        recvSize := data.1.length
        delivered := s.delivered ++ data.1 }

def checkBuffer (s : Socket) : Bool × Socket :=
  if s.recvReadpos < s.recvSize then (true, s)
  else
    let s := refillBuffer env s
    (decide (s.recvReadpos < s.recvSize), s)

/-- `recv_buffer[recv_readpos++]`. -/
def take (s : Socket) : UInt8 × Socket :=
  let data := s.recvBuffer s.recvReadpos
  (data, { s with recvReadpos := s.recvReadpos + 1, consumed := s.consumed ++ [data] })

/-- The loop of `read_until_crlf`, for so many rounds at the most. -/
def untilCrlfLoop : (rounds : Nat) → (prev : UInt8) → (result : List UInt8) → Socket → List UInt8 × Socket
  | 0, _, result, s => (result, s)
  | rounds + 1, prev, result, s =>
      match checkBuffer env s with
      | (false, s) => (result, s)
      | (true, s) =>
          let (data, s) := s.take
          if data = 10 ∧ prev = 13 then (result.dropLast, s)
          else untilCrlfLoop rounds data (result ++ [data]) s

def readUntilCrlf (rounds : Nat) (s : Socket) : List UInt8 × Socket := untilCrlfLoop env rounds 97 [] s

def readBytes : (count : Nat) → (buf : List UInt8) → Socket → List UInt8 × Socket
  | 0, buf, s => (buf, s)
  | count + 1, buf, s =>
      match checkBuffer env s with
      | (false, s) => (buf, s)
      | (true, s) => let (data, s) := s.take; readBytes count (buf ++ [data]) s

/-- The loop of `read_until_crlf` need not end; the call is looked at after any number of rounds. -/
inductive Call where
  | readUntilCrlf (rounds : Nat)
  | readBytes (count : Nat)
  deriving DecidableEq, Repr

def call (s : Socket) : Call → Socket
  | .readUntilCrlf rounds => (readUntilCrlf env rounds s).2
  | .readBytes count => (readBytes env count [] s).2

def run (s : Socket) (calls : List Call) : Socket := calls.foldl (call env) s

/-! ## What the calls deliver -/

/-- What the last `read` before the `k`-th call of `poll` delivered. -/
def lastRead : Nat → List UInt8
  | 0 => []
  | k + 1 =>
      match env k with
      | .notReady => lastRead k
      | .error => []
      | .bytes data => data.1

/-- The buffer holds what the last `read` delivered. -/
structure Filled (s : Socket) : Prop where
  size : s.recvSize = (lastRead env s.polls).length
  buffer : ∀ (i : Nat) b, (lastRead env s.polls)[i]? = some b → s.recvBuffer i = b

/-- What was delivered has been consumed, or is still to be read from the buffer. -/
structure InOrder (s : Socket) : Prop extends Filled env s where
  delivered : s.delivered = s.consumed ++ (lastRead env s.polls).drop s.recvReadpos

/-- The `k`-th call of `poll` returns 1, or the last `read` before it delivered nothing. -/
def Good (k : Nat) : Prop := env k = .notReady → lastRead env k = []

variable {env} {s : Socket} {buf : List UInt8} {count rounds : Nat}

theorem refillBuffer_polls (env : Nat → Answer) (s : Socket) : (refillBuffer env s).polls = s.polls + 1 := by
  unfold refillBuffer
  cases env s.polls <;> rfl

theorem refillBuffer_recvReadpos (env : Nat → Answer) (s : Socket) : (refillBuffer env s).recvReadpos = 0 := by
  unfold refillBuffer
  cases env s.polls <;> rfl

theorem refillBuffer_consumed (env : Nat → Answer) (s : Socket) : (refillBuffer env s).consumed = s.consumed := by
  unfold refillBuffer
  cases env s.polls <;> rfl

theorem Filled.refill (h : Filled env s) : Filled env (refillBuffer env s) := by
  unfold refillBuffer
  cases he : env s.polls with
  | notReady => exact ⟨by simpa [lastRead, he] using h.size, by simpa [lastRead, he] using h.buffer⟩
  | error => exact ⟨by simp [lastRead, he], by simp [lastRead, he]⟩
  | bytes data =>
      constructor
      · simp [lastRead, he]
      · intro i b hb
        simp only [lastRead, he] at hb
        simp [List.getD_eq_getElem?_getD, hb]

theorem InOrder.delivered_eq (h : InOrder env s) (hempty : s.recvSize ≤ s.recvReadpos) :
    s.delivered = s.consumed := by
  rw [h.size] at hempty
  rw [h.delivered, List.drop_of_length_le hempty, List.append_nil]

theorem InOrder.refill (h : InOrder env s) (hempty : s.recvSize ≤ s.recvReadpos) (hgood : Good env s.polls) :
    InOrder env (refillBuffer env s) where
  toFilled := h.toFilled.refill
  delivered := by
    rw [refillBuffer_recvReadpos, List.drop_zero, refillBuffer_consumed, refillBuffer_polls,
      ← h.delivered_eq hempty]
    unfold refillBuffer
    cases he : env s.polls with
    | notReady => simp [lastRead, he, hgood he]
    | error => simp [lastRead, he]
    | bytes data => simp [lastRead, he]

theorem InOrder.check (h : InOrder env s) (hgood : Good env s.polls) : InOrder env (checkBuffer env s).2 := by
  unfold checkBuffer
  split
  · exact h
  · exact h.refill (Nat.not_lt.mp ‹_›) hgood

theorem checkBuffer_lt (env : Nat → Answer) (s : Socket) (h : (checkBuffer env s).1 = true) :
    (checkBuffer env s).2.recvReadpos < (checkBuffer env s).2.recvSize := by
  unfold checkBuffer at h ⊢
  split
  · assumption
  · rename_i hlt
    rw [if_neg hlt] at h
    simpa using h

theorem Filled.take (h : Filled env s) : Filled env s.take.2 := ⟨h.size, h.buffer⟩

theorem InOrder.take (h : InOrder env s) (hlt : s.recvReadpos < s.recvSize) : InOrder env s.take.2 where
  toFilled := h.toFilled.take
  delivered := by
    rw [h.size] at hlt
    have hb := h.buffer s.recvReadpos _ (List.getElem?_eq_getElem hlt)
    have hdelivered := h.delivered
    rw [List.drop_eq_getElem_cons hlt, ← hb] at hdelivered
    simpa [Socket.take] using hdelivered

/-! ## Runs -/

theorem run_concat (env : Nat → Answer) (s : Socket) (calls : List Call) (c : Call) :
    run env s (calls ++ [c]) = call env (run env s calls) c := by
  rw [run, List.foldl_append]
  rfl

section Steps

variable {P : Socket → Prop} (hcheck : ∀ s, P s → P (checkBuffer env s).2)
  (htake : ∀ s, P s → s.recvReadpos < s.recvSize → P s.take.2)

include hcheck htake

theorem untilCrlfLoop_of_steps {prev : UInt8} (h : P s) : P (untilCrlfLoop env rounds prev buf s).2 := by
  induction rounds generalizing prev buf s with
  | zero => exact h
  | succ rounds ih =>
      have hc := hcheck s h
      have hlt := checkBuffer_lt env s
      rw [untilCrlfLoop]
      generalize checkBuffer env s = c at hc hlt
      obtain ⟨b, t⟩ := c
      cases b with
      | false => exact hc
      | true =>
          have ht := htake t hc (hlt rfl)
          dsimp only
          split
          · exact ht
          · exact ih ht

theorem readBytes_of_steps (h : P s) : P (readBytes env count buf s).2 := by
  induction count generalizing buf s with
  | zero => exact h
  | succ count ih =>
      have hc := hcheck s h
      have hlt := checkBuffer_lt env s
      rw [readBytes]
      generalize checkBuffer env s = c at hc hlt
      obtain ⟨b, t⟩ := c
      cases b with
      | false => exact hc
      | true => exact ih (htake t hc (hlt rfl))

/-- What is kept by a look at the buffer and by a byte that is taken from it is kept by all calls. -/
theorem run_of_steps (h : P s) (calls : List Call) : P (run env s calls) := by
  induction calls generalizing s with
  | nil => exact h
  | cons c calls ih =>
      refine ih ?_
      cases c with
      | readUntilCrlf rounds => exact untilCrlfLoop_of_steps hcheck htake h
      | readBytes count => exact readBytes_of_steps hcheck htake h

end Steps

theorem assignSocket_inOrder (recvBuffer : Nat → UInt8) : InOrder env (assignSocket recvBuffer) where
  size := rfl
  buffer := by simp [assignSocket, lastRead]
  delivered := rfl

theorem run_inOrder (hgood : ∀ k, Good env k) (h : InOrder env s) (calls : List Call) :
    InOrder env (run env s calls) :=
  run_of_steps (fun s h => h.check (hgood s.polls)) (fun _ h => h.take) h calls

/-! ## A timeout that makes bytes be consumed again -/

/-- The bytes that are in the buffer are read without a call of `poll`. -/
theorem readBytes_available (h : InOrder env s) (hcount : s.recvReadpos + count ≤ s.recvSize) :
    InOrder env (readBytes env count buf s).2 ∧ (readBytes env count buf s).2.polls = s.polls ∧
      (readBytes env count buf s).2.recvReadpos = s.recvReadpos + count ∧
      (readBytes env count buf s).2.recvSize = s.recvSize := by
  induction count generalizing buf s with
  | zero => exact ⟨h, rfl, rfl, rfl⟩
  | succ count ih =>
      have hlt : s.recvReadpos < s.recvSize := by omega
      have htake : s.take.2.recvReadpos + count ≤ s.take.2.recvSize := by
        simp only [take]
        omega
      obtain ⟨horder, hpolls, hpos, hsize⟩ := ih (h.take hlt) htake
      have hadd : s.take.2.recvReadpos + count = s.recvReadpos + (count + 1) := by
        simp only [take]
        omega
      rw [readBytes, checkBuffer, if_pos hlt]
      exact ⟨horder, hpolls, hpos.trans hadd, hsize⟩

theorem checkBuffer_of_exhausted (env : Nat → Answer) (h : s.recvReadpos = s.recvSize) :
    checkBuffer env s = (decide (0 < (refillBuffer env s).recvSize), refillBuffer env s) := by
  rw [checkBuffer, if_neg (by omega)]
  simp only [refillBuffer_recvReadpos]

/-- The buffer can be read to its end before any call of `poll`. -/
theorem exists_exhausted (recvBuffer : Nat → UInt8) {k : Nat} (hgood : ∀ j < k, Good env j) :
    ∃ calls s, run env (assignSocket recvBuffer) calls = s ∧ InOrder env s ∧ s.polls = k ∧
      s.recvReadpos = s.recvSize := by
  induction k with
  | zero => exact ⟨[], _, rfl, assignSocket_inOrder recvBuffer, rfl, rfl⟩
  | succ k ih =>
      obtain ⟨calls, s, hrun, horder, hpolls, hexhausted⟩ := ih fun j hj => hgood j (by omega)
      have hrefill := horder.refill (Nat.le_of_eq hexhausted.symm) (hpolls ▸ hgood k (by omega))
      have hpolls' := refillBuffer_polls env s
      have hpos := refillBuffer_recvReadpos env s
      have hcheck := checkBuffer_of_exhausted env hexhausted
      generalize refillBuffer env s = t at hrefill hpolls' hpos hcheck
      by_cases hzero : t.recvSize = 0
      · refine ⟨calls ++ [.readBytes 1], t, ?_, hrefill, by omega, by omega⟩
        rw [run_concat, hrun, call, readBytes, hcheck]
        simp [hzero]
      · have hcount : t.recvReadpos + t.recvSize ≤ t.recvSize := by omega
        obtain ⟨horder', hpolls'', hpos', hsize⟩ := readBytes_available hrefill hcount
        refine ⟨calls ++ [.readBytes t.recvSize], _, ?_, horder', by omega, by omega⟩
        rw [run_concat, hrun, call]
        obtain ⟨n, hn⟩ := Nat.exists_eq_succ_of_ne_zero hzero
        have hcheck' : checkBuffer env t = (true, t) := by rw [checkBuffer, if_pos (by omega)]
        have hpositive : decide (0 < t.recvSize) = true := by simp; omega
        rw [hpositive] at hcheck
        rw [hn, Nat.succ_eq_add_one, readBytes, readBytes, hcheck, hcheck']

/-- One byte more after a timeout: it was delivered, and consumed, before. -/
theorem not_prefix_of_not_good (h : InOrder env s) (hexhausted : s.recvReadpos = s.recvSize)
    (hbad : ¬ Good env s.polls) :
    ¬ (call env s (.readBytes 1)).consumed <+: (call env s (.readBytes 1)).delivered := by
  obtain ⟨hnot, hlast⟩ := Classical.not_imp.mp hbad
  have hsize : 0 < s.recvSize := by
    rw [h.size]
    exact List.length_pos_iff.mpr hlast
  have hall := h.delivered_eq (Nat.le_of_eq hexhausted.symm)
  have hcheck := checkBuffer_of_exhausted env hexhausted
  have hrefill : refillBuffer env s = { s with recvReadpos := 0, polls := s.polls + 1 } := by
    rw [refillBuffer, hnot]
  rw [hrefill, decide_eq_true hsize] at hcheck
  rw [call, readBytes, hcheck]
  intro hprefix
  have hlen := hprefix.length_le
  simp only [take, readBytes, hall, List.length_append, List.length_singleton] at hlen
  omega

/-- For a given behaviour of `poll` and `read`, the bytes that calls consume are always a prefix of those that were
delivered, if and only if `poll` returns 1 whenever the last `read` before it has delivered something. -/
theorem consumed_prefix_iff (recvBuffer : Nat → UInt8) (env : Nat → Answer) :
    (∀ calls, (run env (assignSocket recvBuffer) calls).consumed <+:
        (run env (assignSocket recvBuffer) calls).delivered) ↔
      ∀ k, env k = .notReady → lastRead env k = [] := by
  constructor
  · intro h k
    induction k using Nat.strongRecOn with
    | ind k ih =>
        obtain ⟨calls, s, hrun, horder, rfl, hexhausted⟩ := exists_exhausted recvBuffer ih
        refine Classical.byContradiction fun hbad => not_prefix_of_not_good horder hexhausted hbad ?_
        have hcalls := h (calls ++ [.readBytes 1])
        rwa [run_concat, hrun] at hcalls
  · intro hgood calls
    exact ⟨_, (run_inOrder hgood (assignSocket_inOrder recvBuffer) calls).delivered.symm⟩

/-- One byte arrives, and then nothing more. -/
def oneByte (k : Nat) : Answer := if k = 0 then .bytes ⟨[65], by decide⟩ else .notReady

/-- The byte that was delivered once is consumed twice. -/
theorem oneByte_consumed_again :
    ¬ (run oneByte (assignSocket fun _ => 0) [.readBytes 2]).consumed <+:
      (run oneByte (assignSocket fun _ => 0) [.readBytes 2]).delivered := by
  decide

end Socket

end Dwhbll.Network
