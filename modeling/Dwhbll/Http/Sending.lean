import Dwhbll.Lib.Blocks
import Dwhbll.Lib.Lists
import Mathlib.Algebra.Group.Nat.Defs
import Mathlib.Data.List.TakeDrop

/-!
# The sending side of `Socket` of `network/http_server.hpp`

What `poll` and `write` answer is a parameter, as on the receiving side. Which bytes `write` accepted is kept with the
state.
-/

namespace Dwhbll.Network

open Blocks

/-- What a call of `poll`, and of `write` after it, comes to. -/
inductive Sent where
  /-- `poll` does not return 1. -/
  | notReady
  /-- `write` returns -1. -/
  | error
  /-- `write` accepts so many bytes. -/
  | accepted (count : Nat)
  deriving DecidableEq, Repr

/-- How many bytes are accepted. -/
def Sent.count : Sent → Nat
  | .notReady | .error => 0
  | .accepted count => count

structure Outgoing where
  sendBuffer : Nat → UInt8
  sendSize : Nat := 0
  /-- The calls of `poll` so far. -/
  polls : Nat := 0
  accepted : List UInt8 := []

namespace Outgoing

variable (env : Nat → Nat → Sent)

/-- The `send_size - send_pos` bytes at `&send_buffer[send_pos]`. -/
def unsent (sendPos : Nat) (s : Outgoing) : List UInt8 :=
  (List.range (s.sendSize - sendPos)).map fun i => s.sendBuffer (sendPos + i)

/-- The loop of `flush`. It is still running after so many rounds if there is no result. -/
def flushLoop : (rounds : Nat) → (sendPos : Nat) → Outgoing → Option Outgoing
  | 0, _, _ => none
  | rounds + 1, sendPos, s =>
      if sendPos < s.sendSize then
        let t := { s with polls := s.polls + 1 }
        match env s.polls (s.sendSize - sendPos) with
        | .error => flushLoop rounds sendPos t
        -- After a `write` the function goes on to where the timeout is handled, and returns.
        | .accepted count => some { t with accepted := s.accepted ++ (s.unsent sendPos).take count, sendSize := 0 }
        | .notReady => some { t with sendSize := 0 }
      else some { s with sendSize := 0 }

def flush (rounds : Nat) (s : Outgoing) : Option Outgoing := flushLoop env rounds 0 s

/-- `send_buffer[send_size++] = c`. -/
def push (c : UInt8) (s : Outgoing) : Outgoing :=
  { s with
    sendBuffer := fun i => if i = s.sendSize then c else s.sendBuffer i
    sendSize := s.sendSize + 1 }

/-- The body of the loops of `write`. -/
def put (rounds : Nat) (s : Outgoing) (c : UInt8) : Option Outgoing :=
  let s := s.push c
  if s.sendSize ≥ 4096 then s.flush env rounds else some s

/-- The loop over a `char*`, which ends at the first zero. -/
def writeChars (rounds : Nat) : (content : List UInt8) → Outgoing → Option Outgoing
  | [], s => some s
  | c :: content, s => if c = 0 then some s else s.put env rounds c >>= writeChars rounds content

/-- A call of `write`. -/
inductive Write where
  | bytes (content : List UInt8)
  | string (content : List UInt8)
  | chars (content : List UInt8)
  deriving DecidableEq, Repr

def write (rounds : Nat) (s : Outgoing) : Write → Option Outgoing
  | .bytes content | .string content => content.foldlM (put env rounds) s
  | .chars content => writeChars env rounds content s

/-- Calls of `write` and then one of `flush`. -/
def run (rounds : Nat) (s : Outgoing) (calls : List Write) : Option Outgoing := do
  let s ← calls.foldlM (write env rounds) s
  s.flush env rounds

/-! ## What the calls write -/

/-- The characters that the call is to write. -/
def Write.content : Write → List UInt8
  | .bytes content | .string content => content
  | .chars content => content.takeWhile (· ≠ 0)

/-- Every `poll` reports the socket writable, and every `write` accepts at least one byte. -/
def Writable : Prop := ∀ k n, 0 < n → ∃ count, env k n = .accepted count ∧ 0 < count ∧ count ≤ n

/-- What is accepted of the bytes that are there at the `k`-th call of `poll`. -/
def taken (k : Nat) (b : List UInt8) : List UInt8 := b.take (env k b.length).count

/-- The state after a call of `write` for `b`. -/
def sent (b : List UInt8) (s : Outgoing) : Outgoing :=
  { s with polls := s.polls + 1, accepted := s.accepted ++ taken env s.polls b, sendSize := 0 }

/-- Of the bytes `xs` that were written, `full` went to `write` in blocks and `rest` is in the buffer. -/
structure Holds (xs : List UInt8) (full : List (List UInt8)) (rest : List UInt8) (s : Outgoing) : Prop where
  splits : Splits 4096 xs full rest
  size : s.sendSize = rest.length
  buffer : ∀ i, i < rest.length → rest[i]? = some (s.sendBuffer i)
  polls : s.polls = full.length
  accepted : s.accepted = (full.mapIdx (taken env)).flatten

variable {env} {s t : Outgoing} {xs rest : List UInt8} {full : List (List UInt8)} {rounds : Nat}

theorem unsent_zero {b : List UInt8} (hsize : s.sendSize = b.length)
    (hbuffer : ∀ i, i < b.length → b[i]? = some (s.sendBuffer i)) : s.unsent 0 = b := by
  refine List.ext_getElem? fun i => ?_
  by_cases hi : i < b.length
  · rw [hbuffer i hi]
    simp [unsent, hsize, hi]
  · rw [List.getElem?_eq_none_iff.mpr (Nat.not_lt.mp hi)]
    simp [unsent, hsize, Nat.not_lt.mp hi]

/-- One call of `write` for all that is in the buffer, and what it does not accept is gone. -/
theorem flush_eq (hw : Writable env) {b : List UInt8} (hne : b ≠ []) (hsize : s.sendSize = b.length)
    (hbuffer : ∀ i, i < b.length → b[i]? = some (s.sendBuffer i)) :
    s.flush env (rounds + 1) = some (s.sent env b) := by
  have hpos : 0 < b.length := List.length_pos_iff.mpr hne
  obtain ⟨count, henv, -, -⟩ := hw s.polls b.length hpos
  simp only [flush, flushLoop, hsize, hpos, if_true, Nat.sub_zero, henv, sent, taken, Sent.count]
  rw [unsent_zero hsize hbuffer]

theorem fresh_holds (sendBuffer : Nat → UInt8) : Holds env [] [] [] { sendBuffer } where
  splits := .nil (by omega)
  size := rfl
  buffer := by simp
  polls := rfl
  accepted := rfl

theorem push_buffer (h : Holds env xs full rest s) (c : UInt8) :
    (s.push c).sendSize = (rest ++ [c]).length ∧
      ∀ i, i < (rest ++ [c]).length → (rest ++ [c])[i]? = some ((s.push c).sendBuffer i) := by
  have hlen : (rest ++ [c]).length = rest.length + 1 := List.length_append
  refine ⟨by rw [hlen, push, h.size], fun i hi => ?_⟩
  rw [hlen] at hi
  by_cases heq : i = rest.length
  · simp [push, heq, h.size]
  · rw [List.getElem?_append_left (by omega), h.buffer i (by omega)]
    simp only [push, h.size, heq, if_false]

theorem Holds.put (hw : Writable env) (h : Holds env xs full rest s) (c : UInt8) :
    ∃ t full' rest', s.put env (rounds + 1) c = some t ∧ Holds env (xs ++ [c]) full' rest' t := by
  have hlt := h.splits.rest
  have hlen : (rest ++ [c]).length = rest.length + 1 := List.length_append
  obtain ⟨hsize, hbuffer⟩ := push_buffer h c
  by_cases hfull : rest.length + 1 = 4096
  · refine ⟨(s.push c).sent env (rest ++ [c]), full ++ [rest ++ [c]], [], ?_, ?_⟩
    · rw [Outgoing.put, if_pos (by omega)]
      exact flush_eq hw (by simp) hsize hbuffer
    · refine ⟨h.splits.complete [c] (hlen.trans hfull), rfl, by simp, ?_, ?_⟩
      · simp [sent, push, h.polls]
      · simp only [sent, push]
        rw [h.accepted, h.polls, List.mapIdx_concat, List.flatten_concat]
  · refine ⟨s.push c, full, rest ++ [c], ?_, h.splits.append [c] (by omega), hsize, hbuffer, h.polls, h.accepted⟩
    rw [Outgoing.put, if_neg (by omega)]

theorem Holds.putAll (hw : Writable env) (h : Holds env xs full rest s) (content : List UInt8) :
    ∃ t full' rest', content.foldlM (Outgoing.put env (rounds + 1)) s = some t ∧
      Holds env (xs ++ content) full' rest' t := by
  induction content generalizing s xs full rest with
  | nil => exact ⟨s, full, rest, rfl, by rwa [List.append_nil]⟩
  | cons c content ih =>
      obtain ⟨s1, full1, rest1, hput, h1⟩ := h.put hw c
      obtain ⟨t, full', rest', hrun, ht⟩ := ih h1
      refine ⟨t, full', rest', ?_, ?_⟩
      · rw [List.foldlM_cons, hput]
        exact hrun
      · rwa [List.append_cons]

theorem writeChars_eq (env : Nat → Nat → Sent) (rounds : Nat) (content : List UInt8) (s : Outgoing) :
    writeChars env rounds content s = (content.takeWhile (· ≠ 0)).foldlM (Outgoing.put env rounds) s := by
  induction content generalizing s with
  | nil => rfl
  | cons c content ih =>
      by_cases hc : c = 0
      · simp [writeChars, hc]
      · have hrec := funext ih
        simp [writeChars, hc, hrec]

theorem write_eq (env : Nat → Nat → Sent) (rounds : Nat) (s : Outgoing) (w : Write) :
    s.write env rounds w = w.content.foldlM (Outgoing.put env rounds) s := by
  cases w with
  | bytes content => rfl
  | string content => rfl
  | chars content => exact writeChars_eq env rounds content s

theorem Holds.writeAll (rounds : Nat) (hw : Writable env) (h : Holds env xs full rest s) (calls : List Write) :
    ∃ t full' rest', calls.foldlM (Outgoing.write env (rounds + 1)) s = some t ∧
      Holds env (xs ++ calls.flatMap Write.content) full' rest' t := by
  induction calls generalizing s xs full rest with
  | nil => exact ⟨s, full, rest, rfl, by simpa using h⟩
  | cons w calls ih =>
      obtain ⟨s1, full1, rest1, hput, h1⟩ := h.putAll hw w.content
      obtain ⟨t, full', rest', hrun, ht⟩ := ih h1
      refine ⟨t, full', rest', ?_, ?_⟩
      · rw [List.foldlM_cons, write_eq, hput]
        exact hrun
      · rwa [List.flatMap_cons, ← List.append_assoc]

/-! ## When nothing is lost -/

/-- The blocks that go to `write`, the last of them by the call of `flush`. -/
def blocks (full : List (List UInt8)) (rest : List UInt8) : List (List UInt8) :=
  if rest = [] then full else full ++ [rest]

theorem Holds.flush (rounds : Nat) (hw : Writable env) (h : Holds env xs full rest s) :
    ∃ t, s.flush env (rounds + 1) = some t ∧ t.accepted = ((blocks full rest).mapIdx (taken env)).flatten := by
  by_cases hrest : rest = []
  · refine ⟨{ s with sendSize := 0 }, ?_, ?_⟩
    · have hzero : s.sendSize = 0 := by rw [h.size, hrest]; rfl
      simp [Outgoing.flush, flushLoop, hzero]
    · rw [blocks, if_pos hrest]
      exact h.accepted
  · refine ⟨_, flush_eq hw hrest h.size h.buffer, ?_⟩
    rw [blocks, if_neg hrest, sent, h.accepted, h.polls, List.mapIdx_concat, List.flatten_concat]

theorem flatten_blocks (h : Splits 4096 xs full rest) : (blocks full rest).flatten = xs := by
  unfold blocks
  split
  · rename_i hrest
    rw [h.eq, hrest, List.append_nil]
  · rw [h.eq, List.flatten_concat]

theorem taken_isPrefix (env : Nat → Nat → Sent) (k : Nat) (b : List UInt8) : taken env k b <+: b := List.take_prefix _ b

theorem taken_eq_iff (hw : Writable env) {k : Nat} {b : List UInt8} (hb : 0 < b.length) :
    taken env k b = b ↔ env k b.length = .accepted b.length := by
  obtain ⟨count, henv, -, hle⟩ := hw k b.length hb
  rw [taken, henv, Sent.count, List.take_eq_self_iff, Sent.accepted.injEq]
  omega

theorem forall_blocks_iff {P : Nat → List UInt8 → Prop} :
    (∀ k b, (blocks full rest)[k]? = some b → P k b) ↔
      (∀ k b, full[k]? = some b → P k b) ∧ (rest ≠ [] → P full.length rest) := by
  unfold blocks
  split
  · rename_i hrest
    simp [hrest]
  · rename_i hrest
    rw [Lists.forall_getElem?_concat]
    simp [hrest]

/-- What is accepted of the blocks, by their number and the length of the last one. -/
theorem forall_taken_iff (hw : Writable env) (h : Splits 4096 xs full rest) :
    (∀ k b, (blocks full rest)[k]? = some b → taken env k b = b) ↔
      (∀ k < xs.length / 4096, env k 4096 = .accepted 4096) ∧
        (xs.length % 4096 ≠ 0 →
          env (xs.length / 4096) (xs.length % 4096) = .accepted (xs.length % 4096)) := by
  have hrest := h.length_mod
  have hfull : full.length = xs.length / 4096 := by
    have hlen := h.length
    have hlt := h.rest
    omega
  have hblock : ∀ k (hk : k < full.length),
      taken env k full[k] = full[k] ↔ env k 4096 = .accepted 4096 := by
    intro k hk
    have hlen := h.full _ (List.getElem_mem hk)
    rw [taken_eq_iff hw (by omega), hlen]
  rw [forall_blocks_iff, ← hfull, ← hrest]
  refine and_congr ⟨?_, ?_⟩ ⟨?_, ?_⟩
  · intro hall k hk
    exact (hblock k hk).mp (hall k _ (List.getElem?_eq_getElem hk))
  · intro hall k b hb
    obtain ⟨hk, rfl⟩ := List.getElem?_eq_some_iff.mp hb
    exact (hblock k hk).mpr (hall k hk)
  · intro hlast hne
    exact (taken_eq_iff hw (by omega)).mp (hlast (List.ne_nil_of_length_pos (by omega)))
  · intro hlast hne
    have hpos := List.length_pos_iff.mpr hne
    exact (taken_eq_iff hw hpos).mpr (hlast (by omega))

/-- When every `poll` reports the socket writable, the bytes that are accepted are those that were written if and
only if each `write` accepts all that it is given: the blocks of 4096 bytes, and the rest at the end. -/
theorem accepted_eq_iff (hw : Writable env) (rounds : Nat) (sendBuffer : Nat → UInt8) (calls : List Write) :
    ∃ s, run env (rounds + 1) { sendBuffer } calls = some s ∧
      (s.accepted = calls.flatMap Write.content ↔
        (∀ k < (calls.flatMap Write.content).length / 4096, env k 4096 = .accepted 4096) ∧
          ((calls.flatMap Write.content).length % 4096 ≠ 0 →
            env ((calls.flatMap Write.content).length / 4096) ((calls.flatMap Write.content).length % 4096) =
              .accepted ((calls.flatMap Write.content).length % 4096))) := by
  have hfresh : Holds env [] [] [] { sendBuffer } := fresh_holds sendBuffer
  obtain ⟨t, full, rest, hwrite, ht⟩ := hfresh.writeAll rounds hw calls
  obtain ⟨s, hflush, hs⟩ := ht.flush rounds hw
  have hsplits := ht.splits
  rw [List.nil_append] at hsplits
  refine ⟨s, ?_, ?_⟩
  · rw [run, hwrite]
    exact hflush
  · rw [← forall_taken_iff hw hsplits, ← Lists.flatten_mapIdx_eq_iff (taken_isPrefix env), flatten_blocks hsplits, hs]

/-- A socket that accepts two bytes at a time. -/
def atMostTwo (_ n : Nat) : Sent := .accepted (min n 2)

theorem atMostTwo_writable : Writable atMostTwo := fun _ n hn => ⟨min n 2, rfl, by omega, by omega⟩

theorem accepted_eq_iff_two : Writable atMostTwo ∧ ∃ s, run atMostTwo 1 { sendBuffer := fun _ => 0 }
    [.string [72], .bytes [84]] = some s ∧ s.accepted = [72, 84] := by
  obtain ⟨s, hrun, hiff⟩ := accepted_eq_iff atMostTwo_writable 0 (fun _ => 0) [.string [72], .bytes [84]]
  exact ⟨atMostTwo_writable, s, hrun, hiff.mpr (by decide)⟩

/-- What is not accepted at once is not offered again. -/
theorem third_byte_lost : Writable atMostTwo ∧ ∃ s, run atMostTwo 1 { sendBuffer := fun _ => 0 }
    [.string [72, 84, 80]] = some s ∧ s.accepted ≠ [72, 84, 80] :=
  ⟨atMostTwo_writable, _, rfl, by decide⟩

end Outgoing

end Dwhbll.Network
