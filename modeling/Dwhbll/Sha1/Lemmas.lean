import Dwhbll.Lib.Blocks
import Dwhbll.Sha1.Basic

/-!
# The object in terms of the message

`fed log full rest` is the object that was given the blocks `full` and the bytes `rest` of a message. `update` leads
from one such object to another, and `finalize` depends on nothing else.
-/

namespace Dwhbll.Cryptography.SHA1

open Blocks

variable {log full : List (List UInt8)} {m data rest : List UInt8}

/-- The object after the blocks `full` and the bytes `rest`. -/
def fed (log full : List (List UInt8)) (rest : List UInt8) : SHA1 where
  messageLength := UInt64.ofNat (64 * full.length + rest.length)
  block := rest ++ List.replicate (64 - rest.length) 0
  blockHead := rest.length
  h := full.foldl compress initialChain
  w := List.replicate 80 0
  digested := log ++ full

theorem initialized_eq_fed (s : SHA1) : s.initialized = fed s.digested [] [] := by
  simp [initialized, fed]

/-! ## `update` -/

theorem copyTo_of_length (rest : List UInt8) (pos : Nat) (bytes : List UInt8) (h : rest.length = pos)
    (hlen : pos + bytes.length ≤ 64) :
    copyTo (rest ++ List.replicate (64 - pos) 0) pos bytes =
      (rest ++ bytes) ++ List.replicate (64 - (pos + bytes.length)) 0 := by
  subst h
  rw [copyTo, List.take_left, List.drop_append, List.drop_of_length_le (Nat.le_add_right ..), List.nil_append,
    List.drop_replicate]
  congr 2
  omega

/-- A block that is digested when the message ends with it. -/
theorem digestChunk_fed {s : SHA1} {b : List UInt8} (hlen : s.messageLength = UInt64.ofNat (64 * (full.length + 1)))
    (hblock : s.block = b) (hhead : s.blockHead = 0) (hh : s.h = full.foldl compress initialChain)
    (hlog : s.digested = log ++ full) : s.digestChunk = fed log (full ++ [b]) [] := by
  obtain ⟨messageLength, block, blockHead, h, w, digested⟩ := s
  simp only at hlen hblock hhead hh hlog
  subst hlen hblock hhead hh hlog
  simp [digestChunk, fed]

theorem updateBlocks_fed (log : List (List UInt8)) (h : Splits 64 m full []) (data : List UInt8) :
    ∃ full' rest', Splits 64 (m ++ data) full' rest' ∧
      updateBlocks data (fed log full []) = fed log full' rest' := by
  generalize hn : data.length = n
  induction n using Nat.strongRecOn generalizing data m full with
  | ind n ih =>
      rw [updateBlocks]
      split
      · rename_i hge
        have htake : (data.take 64).length = 64 := by rw [List.length_take]; omega
        have hs := h.complete (data.take 64) (by rw [List.nil_append, htake])
        obtain ⟨full', rest', hs', heq⟩ := ih (data.drop 64).length (by rw [List.length_drop]; omega) hs _ rfl
        rw [List.append_assoc, List.take_append_drop] at hs'
        refine ⟨full', rest', hs', ?_⟩
        rw [← heq]
        refine congrArg (updateBlocks (data.drop 64)) (digestChunk_fed ?_ ?_ rfl rfl rfl)
        · exact (UInt64.ofNat_add (64 * full.length) 64).symm
        · have hcopy := copyTo_of_length [] 0 (data.take 64) rfl (by omega)
          rw [htake, Nat.zero_add, Nat.sub_self, List.replicate_zero, List.append_nil] at hcopy
          exact hcopy
      · rename_i hlt
        refine ⟨full, data, h.append data (by simpa using hlt), ?_⟩
        have hcopy := copyTo_of_length [] 0 data rfl (by omega)
        rw [Nat.zero_add] at hcopy
        split
        · simp only [fed, List.length_nil, Nat.add_zero, ← UInt64.ofNat_add, SHA1.mk.injEq, true_and, and_true]
          exact hcopy
        · rename_i hzero
          have hnil : data = [] := List.eq_nil_of_length_eq_zero (by omega)
          subst hnil
          rfl

theorem update_fed (log : List (List UInt8)) (h : Splits 64 m full rest) (data : List UInt8) :
    ∃ full' rest', Splits 64 (m ++ data) full' rest' ∧ (fed log full rest).update data = fed log full' rest' := by
  have hlt := h.rest
  have hhead : (fed log full rest).blockHead = rest.length := rfl
  rw [update, hhead]
  split
  · rename_i hzero
    have hnil : data = [] := List.eq_nil_of_length_eq_zero hzero
    subst hnil
    exact ⟨full, rest, by rw [List.append_nil]; exact h, rfl⟩
  split
  · refine ⟨full, rest ++ data, h.append data (by rw [List.length_append]; omega), ?_⟩
    have hcopy := copyTo_of_length rest rest.length data rfl (by omega)
    simp only [fed, List.length_append, ← UInt64.ofNat_add, Nat.add_assoc, hcopy]
  · have htake : (data.take (64 - rest.length)).length = 64 - rest.length := by rw [List.length_take]; omega
    have hs := h.complete (data.take (64 - rest.length)) (by rw [List.length_append, htake]; omega)
    obtain ⟨full', rest', hs', heq⟩ := updateBlocks_fed log hs (data.drop (64 - rest.length))
    rw [List.append_assoc, List.take_append_drop] at hs'
    refine ⟨full', rest', hs', ?_⟩
    rw [← heq]
    refine congrArg (updateBlocks (data.drop (64 - rest.length))) (digestChunk_fed ?_ ?_ rfl rfl rfl)
    · have hadd := (UInt64.ofNat_add (64 * full.length + rest.length) (64 - rest.length)).symm
      rw [show 64 * full.length + rest.length + (64 - rest.length) = 64 * (full.length + 1) by omega] at hadd
      exact hadd
    · have hcopy := copyTo_of_length rest rest.length (data.take (64 - rest.length)) rfl (by omega)
      rw [htake, Nat.add_sub_cancel' (Nat.le_of_lt hlt), Nat.sub_self, List.replicate_zero,
        List.append_nil] at hcopy
      exact hcopy

theorem update_new (m : List UInt8) : ∃ full rest, Splits 64 m full rest ∧ new.update m = fed [] full rest := by
  obtain ⟨full, rest, hs, heq⟩ := update_fed [] (Splits.nil (α := UInt8) (n := 64) (by decide)) m
  rw [List.nil_append] at hs
  exact ⟨full, rest, hs, heq⟩

/-! ## `finalize` -/

/-- The blocks that `finalize` digests, for a message of `n` bytes of which `rest` are left. -/
def padBlocks (n : Nat) (rest : List UInt8) : List (List UInt8) :=
  if rest.length + 1 ≥ 56 then
    [rest ++ [0x80] ++ List.replicate (63 - rest.length) 0,
      List.replicate 56 0 ++ lengthBytes (UInt64.ofNat n * 8)]
  else [rest ++ [0x80] ++ List.replicate (55 - rest.length) 0 ++ lengthBytes (UInt64.ofNat n * 8)]

theorem foldl_set_zero {l : List UInt8} {a k : Nat} (h : a + k ≤ l.length) :
    (List.range' a k).foldl (fun block i => block.set i 0) l =
      l.take a ++ List.replicate k 0 ++ l.drop (a + k) := by
  induction k generalizing l a with
  | zero => simp
  | succ k ih =>
      have hlt : a < l.length := by omega
      have htake : (l.set a 0).take (a + 1) = l.take a ++ [0] := by
        rw [List.take_succ_eq_append_getElem (by rw [List.length_set]; exact hlt),
          List.take_set_of_le (Nat.le_refl a), List.getElem_set_self]
      rw [List.range'_succ, List.foldl_cons, ih (by rw [List.length_set]; omega), htake,
        List.drop_set_of_lt (by omega), List.replicate_succ, List.append_assoc (l.take a), List.singleton_append,
        show a + 1 + k = a + (k + 1) by omega]

theorem set_rest (rest : List UInt8) (h : rest.length < 64) :
    (rest ++ List.replicate (64 - rest.length) (0 : UInt8)).set rest.length 0x80 =
      rest ++ [0x80] ++ List.replicate (63 - rest.length) 0 := by
  obtain ⟨k, hk⟩ : ∃ k, 64 - rest.length = k + 1 := ⟨63 - rest.length, by omega⟩
  rw [hk, List.set_append_right _ _ (Nat.le_refl _), Nat.sub_self, List.replicate_succ, List.set_cons_zero,
    show 63 - rest.length = k by omega, List.append_assoc, List.singleton_append]

/-- The object whose block ends with the byte `0x80`. -/
def marked (log full : List (List UInt8)) (rest : List UInt8) : SHA1 :=
  { fed log full rest with
    block := rest ++ [0x80] ++ List.replicate (63 - rest.length) 0, blockHead := rest.length + 1 }

theorem zeroUpTo_marked (log full : List (List UInt8)) {limit : Nat} (h : rest.length < limit)
    (hlimit : limit ≤ 64) :
    ((marked log full rest).zeroUpTo limit).block =
      rest ++ [0x80] ++ List.replicate (limit - 1 - rest.length) 0 ++ (marked log full rest).block.drop limit := by
  have hlen : (marked log full rest).block.length = 64 := by
    simp only [marked, List.length_append, List.length_singleton, List.length_replicate]
    omega
  have hhead : (marked log full rest).blockHead = rest.length + 1 := rfl
  have htake : (marked log full rest).block.take (rest.length + 1) = rest ++ [0x80] :=
    List.take_left' (by simp)
  simp only [zeroUpTo]
  rw [foldl_set_zero (by omega), hhead, htake, Nat.add_sub_cancel' (by omega),
    show limit - (rest.length + 1) = limit - 1 - rest.length by omega]

theorem zeroUpTo_zeros {s : SHA1} (hblock : s.block = List.replicate 64 0) (hhead : s.blockHead = 0) :
    (s.zeroUpTo 56).block.take 56 = List.replicate 56 0 := by
  simp only [zeroUpTo, hblock, hhead]
  decide

theorem appendBit_eq (h : rest.length < 64) :
    (fed log full rest).appendBit =
      if rest.length + 1 ≥ 56 then { ((marked log full rest).zeroUpTo 64).digestChunk with blockHead := 0 }
      else marked log full rest := by
  simp only [appendBit, marked, fed, set_rest rest h]

theorem appendLength_spec {s : SHA1} {bs : List UInt8} (h : (s.zeroUpTo 56).block.take 56 = bs) :
    s.appendLength.h = compress s.h (bs ++ lengthBytes (s.messageLength * 8)) ∧
      s.appendLength.digested = s.digested ++ [bs ++ lengthBytes (s.messageLength * 8)] := by
  subst h
  exact ⟨rfl, rfl⟩

theorem appendLength_fed (log full : List (List UInt8)) (h : rest.length < 64) :
    (fed log full rest).appendBit.appendLength.h =
        (full ++ padBlocks (64 * full.length + rest.length) rest).foldl compress initialChain ∧
      (fed log full rest).appendBit.appendLength.digested =
        log ++ (full ++ padBlocks (64 * full.length + rest.length) rest) := by
  rw [appendBit_eq h, padBlocks]
  split
  · have hblock := zeroUpTo_marked log full h (Nat.le_refl 64)
    have hnone : (marked log full rest).block.drop 64 = [] := by
      apply List.drop_eq_nil_of_le
      simp only [marked, List.length_append, List.length_singleton, List.length_replicate]
      omega
    rw [hnone, List.append_nil] at hblock
    obtain ⟨h1, h2⟩ := appendLength_spec (zeroUpTo_zeros
      (s := { ((marked log full rest).zeroUpTo 64).digestChunk with blockHead := 0 }) rfl rfl)
    rw [h1, h2]
    simp only [digestChunk, hblock]
    simp [zeroUpTo, marked, fed]
  · rename_i hshort
    have hlimit : rest.length < 56 := by omega
    have htake : ((marked log full rest).zeroUpTo 56).block.take 56 =
        rest ++ [0x80] ++ List.replicate (55 - rest.length) 0 := by
      rw [zeroUpTo_marked log full hlimit (by decide)]
      apply List.take_left'
      simp only [List.length_append, List.length_singleton, List.length_replicate]
      omega
    obtain ⟨h1, h2⟩ := appendLength_spec htake
    rw [h1, h2]
    simp [marked, fed]

theorem finalize_fed {output : List UInt8} (h : rest.length < 64) (hout : HLEN ≤ output.length) :
    (fed log full rest).finalize output =
      some (digestBytes ((full ++ padBlocks (64 * full.length + rest.length) rest).foldl compress initialChain) ++
          output.drop HLEN,
        fed (log ++ (full ++ padBlocks (64 * full.length + rest.length) rest)) [] []) := by
  obtain ⟨h1, h2⟩ := appendLength_fed log full h
  rw [finalize, if_neg (Nat.not_lt.mpr hout)]
  simp only [initialized_eq_fed, h1, h2]

end Dwhbll.Cryptography.SHA1
