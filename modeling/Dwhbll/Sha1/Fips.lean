import Dwhbll.Cryptography.Hmac
import Dwhbll.Lib.SecureHash
import Dwhbll.Sha1.Theorems
import Mathlib.Data.List.GetD

/-!
# The hash is the one of FIPS 180-4

And with it `hmac<SHA1>` computes HMAC-SHA-1. The messages whose length is 55 modulo 64 are left out: their padding is
not the one of the standard.
-/

namespace Dwhbll.Cryptography

def Chain.value (h : Chain) : SecureHash.Value := ⟨h.a.toBitVec, h.b.toBitVec, h.c.toBitVec, h.d.toBitVec, h.e.toBitVec⟩

namespace SHA1

open Blocks Hashes

variable {m : List UInt8} {t : Nat}

/-! ## Words -/

theorem append_bytes (x y z w : BitVec 8) :
    (x.setWidth 32 <<< 24 ||| y.setWidth 32 <<< 16 ||| z.setWidth 32 <<< 8 ||| w.setWidth 32 : BitVec 32) =
      x ++ y ++ z ++ w := by
  refine BitVec.eq_of_getLsbD_eq fun i hi => ?_
  have hlarge : ∀ {b : BitVec 8} {j : Nat}, 8 ≤ j → b.getLsbD j = false := fun hj => BitVec.getLsbD_of_ge _ _ hj
  have hsub : ∀ k, i - k < 32 := fun k => Nat.lt_of_le_of_lt (Nat.sub_le i k) hi
  simp only [BitVec.getLsbD_or, BitVec.getLsbD_shiftLeft, BitVec.getLsbD_setWidth, BitVec.getLsbD_append, hi, hsub,
    decide_true, Bool.true_and, Nat.sub_sub]
  by_cases h8 : i < 8
  · simp [h8, show i < 24 by omega, show i < 16 by omega]
  by_cases h16 : i < 16
  · simp [h8, h16, show i < 24 by omega, show i - 8 < 8 by omega, hlarge (show 8 ≤ i by omega)]
  by_cases h24 : i < 24
  · simp [h8, h16, h24, show ¬ i - 8 < 8 by omega, show i - 16 < 8 by omega, hlarge (show 8 ≤ i by omega),
      hlarge (show 8 ≤ i - 8 by omega)]
  · simp [h8, h16, h24, show ¬ i - 8 < 8 by omega, show ¬ i - 16 < 8 by omega, hlarge (show 8 ≤ i by omega),
      hlarge (show 8 ≤ i - 8 by omega), hlarge (show 8 ≤ i - 16 by omega)]

theorem rotl_eq (x : UInt32) :
    (rotl x 1).toBitVec = x.toBitVec.rotateLeft 1 ∧ (rotl x 5).toBitVec = x.toBitVec.rotateLeft 5 ∧
      (rotl x 30).toBitVec = x.toBitVec.rotateLeft 30 := ⟨rfl, rfl, rfl⟩

/-- A byte that is moved to its place, under the mask of that place. -/
theorem byte_masks (b : UInt8) :
    (b.toUInt32 <<< 24 &&& (0xFF000000 : UInt32)).toBitVec = b.toBitVec.setWidth 32 <<< 24 ∧
      (b.toUInt32 <<< 16 &&& (0x00FF0000 : UInt32)).toBitVec = b.toBitVec.setWidth 32 <<< 16 ∧
      (b.toUInt32 <<< 8 &&& (0x0000FF00 : UInt32)).toBitVec = b.toBitVec.setWidth 32 <<< 8 ∧
      (b.toUInt32 &&& (0x000000FF : UInt32)).toBitVec = b.toBitVec.setWidth 32 := by
  have h : ∀ b : Fin 256, ((UInt8.ofFin b).toUInt32 <<< 24 &&& (0xFF000000 : UInt32)).toBitVec =
      (UInt8.ofFin b).toBitVec.setWidth 32 <<< 24 ∧
      ((UInt8.ofFin b).toUInt32 <<< 16 &&& (0x00FF0000 : UInt32)).toBitVec = (UInt8.ofFin b).toBitVec.setWidth 32 <<< 16 ∧
      ((UInt8.ofFin b).toUInt32 <<< 8 &&& (0x0000FF00 : UInt32)).toBitVec = (UInt8.ofFin b).toBitVec.setWidth 32 <<< 8 ∧
      ((UInt8.ofFin b).toUInt32 &&& (0x000000FF : UInt32)).toBitVec = (UInt8.ofFin b).toBitVec.setWidth 32 := by
    decide +kernel
  exact h b.toFin

theorem word_eq (block : List UInt8) (t : Nat) : (word block (4 * t)).toBitVec = SecureHash.word block t := by
  simp only [word, SecureHash.word, UInt32.toBitVec_or, byte_masks]
  exact append_bytes _ _ _ _

/-- The words that the loop has put behind the block. -/
theorem schedule_step (block : List UInt8) (k : Nat) :
    let w := (List.range' 16 k).foldl
      (fun w i => w ++ [rotl (w.getD (i - 3) 0 ^^^ w.getD (i - 8) 0 ^^^ w.getD (i - 14) 0 ^^^ w.getD (i - 16) 0) 1])
      ((List.range 16).map fun i => word block (4 * i))
    w.length = 16 + k ∧ ∀ t < 16 + k, (w.getD t 0).toBitVec = SecureHash.W (SecureHash.word block) t := by
  induction k with
  | zero =>
      refine ⟨rfl, fun t ht => ?_⟩
      rw [SecureHash.W, if_pos ht, ← word_eq, List.range'_zero, List.foldl_nil, List.getD_eq_getElem _ _ (by simpa using ht),
        List.getElem_map, List.getElem_range]
  | succ k ih =>
      obtain ⟨hlen, hw⟩ := ih
      simp only [List.range'_concat, Nat.one_mul, List.foldl_concat]
      generalize (List.range' 16 k).foldl _ _ = w at hlen hw
      refine ⟨by rw [List.length_append, hlen, List.length_singleton, Nat.add_assoc], fun t ht => ?_⟩
      by_cases hlt : t < 16 + k
      · rw [List.getD_append _ _ _ _ (hlen ▸ hlt)]
        exact hw t hlt
      · obtain rfl : t = 16 + k := by omega
        rw [List.getD_append_right _ _ _ _ (Nat.le_of_eq hlen), hlen, Nat.sub_self, List.getD_cons_zero, (rotl_eq _).1,
          SecureHash.W, if_neg (by omega)]
        simp only [UInt32.toBitVec_xor]
        rw [hw _ (by omega), hw _ (by omega), hw _ (by omega), hw _ (by omega)]

theorem schedule_eq (block : List UInt8) (ht : t < 80) :
    ((schedule block).getD t 0).toBitVec = SecureHash.W (SecureHash.word block) t :=
  (schedule_step block 64).2 t ht

/-! ## Functions and rounds -/

theorem ch_eq (x y z : BitVec 32) : x &&& y ||| ~~~x &&& z = SecureHash.ch x y z := by
  refine BitVec.eq_of_getLsbD_eq fun i hi => ?_
  simp only [SecureHash.ch, BitVec.getLsbD_or, BitVec.getLsbD_xor, BitVec.getLsbD_and, BitVec.getLsbD_not]
  cases x.getLsbD i <;> simp

theorem maj_eq (x y z : BitVec 32) : x &&& y ||| x &&& z ||| y &&& z = SecureHash.maj x y z := by
  refine BitVec.eq_of_getLsbD_eq fun i hi => ?_
  simp only [SecureHash.maj, BitVec.getLsbD_or, BitVec.getLsbD_xor, BitVec.getLsbD_and]
  cases x.getLsbD i <;> cases y.getLsbD i <;> simp

theorem round_eq (block : List UInt8) (h : Chain) (ht : t < 80) :
    (round (schedule block) h t).value = SecureHash.step (SecureHash.W (SecureHash.word block)) h.value t := by
  have hw := schedule_eq block ht
  have hrotl := (rotl_eq h.a).2.1
  ext1
  · simp only [round, SecureHash.step, SecureHash.f, SecureHash.K, ← hw, ← hrotl, Chain.value]
    by_cases h19 : t ≤ 19
    · simp only [if_pos h19, if_pos (show t < 20 by omega), ← ch_eq]
      rfl
    by_cases h39 : t ≤ 39
    · simp only [if_neg h19, if_pos h39, if_neg (show ¬ t < 20 by omega), if_pos (show t < 40 by omega)]
      rfl
    by_cases h59 : t ≤ 59
    · simp only [if_neg h19, if_neg h39, if_pos h59, if_neg (show ¬ t < 20 by omega), if_neg (show ¬ t < 40 by omega),
        if_pos (show t < 60 by omega), ← maj_eq]
      rfl
    · simp only [if_neg h19, if_neg h39, if_neg h59, if_neg (show ¬ t < 20 by omega), if_neg (show ¬ t < 40 by omega),
        if_neg (show ¬ t < 60 by omega)]
      rfl
  · rfl
  · exact (rotl_eq h.b).2.2
  · rfl
  · rfl

theorem compress_eq (h : Chain) (block : List UInt8) : (compress h block).value = SecureHash.compress h.value block := by
  have hrounds : ∀ ts : List Nat, (∀ t ∈ ts, t < 80) → ∀ h : Chain,
      (ts.foldl (round (schedule block)) h).value =
        ts.foldl (SecureHash.step (SecureHash.W (SecureHash.word block))) h.value := by
    intro ts
    induction ts with
    | nil => exact fun _ _ => rfl
    | cons t ts ih =>
        intro hts h
        rw [List.foldl_cons, List.foldl_cons, ih (fun t ht => hts t (List.mem_cons_of_mem _ ht)),
          round_eq block h (hts t List.mem_cons_self)]
  have hv := hrounds (List.range 80) (fun t ht => List.mem_range.mp ht) h
  rw [SecureHash.compress, ← hv]
  ext1 <;> exact BitVec.add_comm ..

theorem foldl_compress (bs : List (List UInt8)) (h : Chain) :
    (bs.foldl compress h).value = bs.foldl SecureHash.compress h.value := by
  induction bs generalizing h with
  | nil => rfl
  | cons b bs ih => rw [List.foldl_cons, List.foldl_cons, ih, compress_eq]

theorem digestBytes_eq (h : Chain) : digestBytes h = h.value.bytes := rfl

/-! ## Blocks -/

/-- The blocks that are digested, where the padding is the one of the standard. -/
theorem blocks_pad {full : List (List UInt8)} {rest : List UInt8} (hs : Splits 64 m full rest) (hm : m.length < 2 ^ 61)
    (h55 : m.length % 64 ≠ 55) :
    SecureHash.blocks (SecureHash.pad m) = full ++ padBlocks (64 * full.length + rest.length) rest := by
  have hzeros : zeros rest.length = (119 - m.length % 64) % 64 := by
    rw [← hs.length_mod] at h55 ⊢
    have hlt := hs.rest
    rw [zeros]
    split <;> omega
  have hpad : SecureHash.pad m = (full ++ padBlocks (64 * full.length + rest.length) rest).flatten := by
    rw [SecureHash.pad, List.flatten_append, padBlocks_flatten hs.rest, ← hs.length, lengthBytes_eq hm, hzeros]
    simp only [← List.append_assoc, ← hs.eq]
  rw [hpad]
  refine SecureHash.blocks_flatten fun b hb => ?_
  rcases List.mem_append.mp hb with hb | hb
  · exact hs.full b hb
  · exact padBlocks_length hs.rest b hb

theorem digest_eq_sha1 (hm : m.length < 2 ^ 61) (h55 : m.length % 64 ≠ 55) : digest m = SecureHash.sha1 m := by
  obtain ⟨full, rest, hs, -⟩ := update_new m
  rw [digest_eq hs, digestBytes_eq, foldl_compress, SecureHash.sha1, blocks_pad hs hm h55]
  rfl

/-- However the messages before and the bytes of this one were given, `finalize` writes the SHA-1 of the message. -/
theorem finalize_sha1 {x : Hashing} (h : system.Reachable x) (h55 : x.given.length % 64 ≠ 55) {output : List UInt8}
    (hout : HLEN ≤ output.length) :
    ∃ s, x.sha.finalize output = some (SecureHash.sha1 x.given ++ output.drop HLEN, s) := by
  have hfed := reachable_fed h
  obtain ⟨s, heq, -⟩ := Has.finalize hfed.fed hout
  exact ⟨s, by rw [heq, digest_eq_sha1 hfed.bounded h55]⟩

/-- "abc" in two pieces, after another message. -/
theorem finalize_sha1_abc :
    ∃ x, system.Reachable x ∧ x.given = [97, 98, 99] ∧
      ∃ s, x.sha.finalize (List.replicate 20 0) = some (SecureHash.sha1 [97, 98, 99], s) := by
  have hr : system.Reachable ⟨_, [97, 98, 99]⟩ := .of_run [.update [7], .finalize (List.replicate 20 0), .update [97],
    .update [98, 99]] rfl
  exact ⟨_, hr, rfl, finalize_sha1 hr (by decide) (show HLEN ≤ (List.replicate 20 (0 : UInt8)).length by decide)⟩

example : digest [97, 98, 99] = [0xA9, 0x99, 0x3E, 0x36, 0x47, 0x06, 0x81, 0x6A, 0xBA, 0x3E, 0x25, 0x71, 0x78, 0x50, 0xC2,
    0x6C, 0x9C, 0xD0, 0xD8, 0x9D] := by
  decide +kernel

end SHA1

/-! ## HMAC-SHA-1 -/

namespace Hmac

open Hashes

/-- No message that is hashed for it has a length of 55 modulo 64: neither the key, if it is too long for a block, nor
the message behind a block. -/
structure Session.Standard (s : Session SHA1.hashClass) : Prop where
  key : 64 < s.key.length → s.key.length % 64 ≠ 55 ∧ s.key.length < 2 ^ 61
  message : s.datas.flatten.length % 64 ≠ 55
  bounded : 64 + s.datas.flatten.length < 2 ^ 61

theorem hmac_digest {s : Session SHA1.hashClass} (h : s.Standard) :
    hmac SHA1.digest 64 s.key s.datas.flatten = hmac SecureHash.sha1 64 s.key s.datas.flatten := by
  have hkey : blockKey SHA1.digest 64 s.key = blockKey SecureHash.sha1 64 s.key := by
    unfold blockKey
    split
    · rename_i hlt
      rw [SHA1.digest_eq_sha1 (h.key hlt).2 (h.key hlt).1]
    · rfl
  have hlen : (blockKey SHA1.digest 64 s.key).length = 64 :=
    blockKey_length (fun m => by rw [SHA1.digest_length]; decide) s.key
  have hmessage := h.message
  have hbounded := h.bounded
  have hinner : ∀ x : UInt8, SHA1.digest ((blockKey SHA1.digest 64 s.key).map (· ^^^ x) ++ s.datas.flatten) =
      SecureHash.sha1 ((blockKey SHA1.digest 64 s.key).map (· ^^^ x) ++ s.datas.flatten) := by
    intro x
    refine SHA1.digest_eq_sha1 ?_ ?_ <;> rw [List.length_append, List.length_map, hlen]
    · exact hbounded
    · omega
  rw [hmac, hmac, ← hkey, ← hinner]
  refine SHA1.digest_eq_sha1 ?_ ?_ <;> rw [List.length_append, List.length_map, hlen, SHA1.digest_length] <;> decide

/-- `hmac<SHA1>`: each session outputs the HMAC-SHA-1 of its message under its key, whatever the sessions before were. -/
theorem sessions_hmac_sha1 (mem : Nat → UInt8) (ss : List (Session SHA1.hashClass)) (h : ∀ s ∈ ss, s.Standard) :
    sessions SHA1.hashClass ss (new SHA1.hashClass mem) =
      some (ss.map fun s => hmac SecureHash.sha1 64 s.key s.datas.flatten ++ s.output.drop 20) := by
  have hready : Ready SHA1.hashClass (new SHA1.hashClass mem) := new_ready mem
  generalize new SHA1.hashClass mem = x at hready
  induction ss generalizing x with
  | nil => rfl
  | cons s ss ih =>
      obtain ⟨x', heq, hx'⟩ := session_eq SHA1.hashClass_computes hready s
      have hs := hmac_digest (h s List.mem_cons_self)
      simp only [sessions, heq, Option.bind_eq_bind, Option.bind_some, ih (fun s hs => h s (List.mem_cons_of_mem _ hs)) x' hx',
        List.map_cons, ← hs]
      rfl

/-- A key that is longer than a block, and then a short one with a message in two pieces. -/
theorem sessions_hmac_sha1_long :
    sessions SHA1.hashClass
        [⟨List.replicate 80 0xAA, [[1]], List.replicate 20 0, by decide, fun _ => 0⟩,
          ⟨[0x0B], [[2], [3]], List.replicate 20 0, by decide, fun _ => 0⟩] (new SHA1.hashClass fun _ => 0) =
      some [hmac SecureHash.sha1 64 (List.replicate 80 0xAA) [1] ++ [], hmac SecureHash.sha1 64 [0x0B] [2, 3] ++ []] := by
  refine sessions_hmac_sha1 _ _ fun s hs => ?_
  rcases List.mem_pair.mp hs with rfl | rfl
  · exact ⟨by decide, by decide, by decide⟩
  · exact ⟨by decide, by decide, by decide⟩

end Hmac

end Dwhbll.Cryptography
