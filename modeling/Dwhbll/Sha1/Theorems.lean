import Dwhbll.Sha1.Lemmas

/-!
# Theorems about SHA-1
-/

namespace Dwhbll.Cryptography.SHA1

open Blocks

/-! ## Any split, one object for any number of messages -/

/-- The object is the one that was given the bytes since the last `finalize`. -/
structure Hashing.Fed (x : Hashing) : Prop where
  fed : ∃ log full rest, Splits 64 x.given full rest ∧ x.sha = fed log full rest
  bounded : x.given.length < 2 ^ 61

theorem Call.run_fed {x x' : Hashing} {c : Call} (h : x.Fed) (hc : c.run x = some x') : x'.Fed := by
  obtain ⟨⟨log, full, rest, hs, hsha⟩, -⟩ := h
  cases c with
  | update data =>
      simp only [Call.run] at hc
      split at hc
      · rename_i hlt
        cases hc
        obtain ⟨full', rest', hs', heq⟩ := update_fed log hs data
        refine ⟨⟨log, full', rest', hs', ?_⟩, ?_⟩
        · simp only [hsha, heq]
        · simp only [List.length_append]
          exact hlt
      · cases hc
  | finalize output =>
      obtain ⟨⟨bytes, s⟩, hfin, heq⟩ := Option.map_eq_some_iff.mp hc
      cases heq
      by_cases hout : HLEN ≤ output.length
      · rw [hsha, finalize_fed hs.rest hout] at hfin
        cases hfin
        exact ⟨⟨_, [], [], Splits.nil (by decide), rfl⟩, Nat.two_pow_pos 61⟩
      · rw [SHA1.finalize, if_pos (Nat.not_le.mp hout)] at hfin
        cases hfin

theorem reachable_fed {x : Hashing} (h : system.Reachable x) : x.Fed := by
  have h0 : Hashing.Fed ⟨new, []⟩ := ⟨⟨[], [], [], Splits.nil (by decide), rfl⟩, by decide⟩
  exact (Transition.System.Invariant.ofOption h0 fun _ _ _ hx hc => Call.run_fed hx hc).reachable h

/-- However the messages before and the bytes of this one were given, `finalize` writes what it writes for a new
object that is given the bytes at once. -/
theorem reachable_finalize {x : Hashing} (h : system.Reachable x) :
    x.sha.blockHead < 64 ∧ x.sha.messageLength.toNat = x.given.length ∧
      ∀ output : List UInt8, HLEN ≤ output.length → ∃ bytes s s',
        x.sha.finalize output = some (bytes, s) ∧ (new.update x.given).finalize output = some (bytes, s') := by
  obtain ⟨⟨log, full, rest, hs, hsha⟩, hlt⟩ := reachable_fed h
  have hlen := hs.length
  refine ⟨?_, ?_, ?_⟩
  · rw [hsha]
    exact hs.rest
  · rw [hsha]
    show (UInt64.ofNat (64 * full.length + rest.length)).toNat = x.given.length
    rw [← hlen, UInt64.toNat_ofNat', Nat.mod_eq_of_lt (by omega)]
  · intro output hout
    obtain ⟨full', rest', hs', heq⟩ := update_new x.given
    obtain ⟨rfl, rfl⟩ := hs.unique hs'
    exact ⟨_, _, _, by rw [hsha, finalize_fed hs.rest hout], by rw [heq, finalize_fed hs.rest hout]⟩

/-- A message of three pieces after one of one piece. -/
theorem reachable_finalize_pieces :
    ∃ x, system.Reachable x ∧ x.given = [1, 2, 3] ∧
      ∃ bytes s s', x.sha.finalize (List.replicate 20 0) = some (bytes, s) ∧
        (new.update [1, 2, 3]).finalize (List.replicate 20 0) = some (bytes, s') := by
  have hr : system.Reachable ⟨_, [1, 2, 3]⟩ := .step (i := .update [2, 3])
    (.step (i := .update []) (.step (i := .update [1])
      (.step (i := .finalize (List.replicate 20 0)) (.step (i := .update [7]) (.init rfl) rfl) rfl) rfl) rfl) rfl
  exact ⟨_, hr, rfl, (reachable_finalize hr).2.2 (List.replicate 20 0) (by decide)⟩

/-! ## The padding -/

theorem length_byte (x k : UInt64) {j : Nat} (hk : k.toNat = 8 * j) (hj : j < 8) :
    ((x >>> k) &&& 0xFF).toUInt8 = UInt8.ofNat (x.toNat / 256 ^ j) := by
  have hpow : 256 ^ j = 2 ^ (8 * j) := by rw [Nat.pow_mul]
  have hmod : k.toNat % 64 = 8 * j := by omega
  rw [← UInt8.toNat_inj, UInt64.toNat_toUInt8, UInt64.toNat_and, UInt64.toNat_shiftRight, UInt8.toNat_ofNat', hmod,
    Nat.shiftRight_eq_div_pow, hpow]
  exact (congrArg (· % 2 ^ 8) (Nat.and_two_pow_sub_one_eq_mod _ 8)).trans (Nat.mod_mod ..)

theorem lengthBytes_eq {n : Nat} (h : n < 2 ^ 61) :
    lengthBytes (UInt64.ofNat n * 8) = (List.range 8).map fun i => UInt8.ofNat (8 * n / 256 ^ (7 - i)) := by
  have hn : (UInt64.ofNat n * 8).toNat = 8 * n := by
    rw [UInt64.toNat_mul, UInt64.toNat_ofNat']
    have h8 : (8 : UInt64).toNat = 8 := rfl
    rw [h8]
    omega
  have hbyte : ∀ (k : UInt64) (j : Nat), k.toNat = 8 * j → j < 8 →
      (((UInt64.ofNat n * 8) >>> k) &&& 0xFF).toUInt8 = UInt8.ofNat (8 * n / 256 ^ j) := by
    intro k j hk hj
    rw [length_byte _ k hk hj, hn]
  rw [lengthBytes]
  simp only [List.map_cons, List.map_nil, List.range, List.range.loop]
  rw [hbyte 56 7 rfl (by decide), hbyte 48 6 rfl (by decide), hbyte 40 5 rfl (by decide),
    hbyte 32 4 rfl (by decide), hbyte 24 3 rfl (by decide), hbyte 16 2 rfl (by decide),
    hbyte 8 1 rfl (by decide), hbyte 0 0 rfl (by decide)]

theorem padBlocks_length {n : Nat} {rest : List UInt8} (h : rest.length < 64) :
    ∀ b ∈ padBlocks n rest, b.length = 64 := by
  have hlen : ∀ x, (lengthBytes x).length = 8 := fun _ => rfl
  intro b hb
  rw [padBlocks] at hb
  split at hb
  · rcases List.mem_cons.mp hb with rfl | hb
    · simp only [List.length_append, List.length_singleton, List.length_replicate]
      omega
    · rw [List.mem_singleton.mp hb]
      simp only [List.length_append, List.length_replicate, hlen]
  · rw [List.mem_singleton.mp hb]
    simp only [List.length_append, List.length_singleton, List.length_replicate, hlen]
    omega

/-- The zeros that `finalize` puts between the bit and the length. -/
def zeros (r : Nat) : Nat := if r + 1 ≥ 56 then 119 - r else 55 - r

theorem padBlocks_flatten {n : Nat} {rest : List UInt8} (h : rest.length < 64) :
    (padBlocks n rest).flatten =
      rest ++ [0x80] ++ List.replicate (zeros rest.length) 0 ++ lengthBytes (UInt64.ofNat n * 8) := by
  rw [padBlocks, zeros]
  split
  · rw [show 119 - rest.length = (63 - rest.length) + 56 by omega, ← List.replicate_append_replicate]
    simp only [List.flatten_cons, List.flatten_nil, List.append_nil, List.append_assoc]
  · simp only [List.flatten_cons, List.flatten_nil, List.append_nil]

/-- For a message given at once, the blocks that are digested are those of the padding if and only if the length is
not 55 modulo 64. -/
theorem finalize_isPadded_iff {m : List UInt8} (hm : m.length < 2 ^ 61) {output : List UInt8}
    (hout : HLEN ≤ output.length) :
    ∃ bytes s, (new.update m).finalize output = some (bytes, s) ∧
      (((∀ b ∈ s.digested, b.length = 64) ∧ IsPadded m s.digested.flatten) ↔ m.length % 64 ≠ 55) := by
  obtain ⟨full, rest, hs, heq⟩ := update_new m
  have hlt := hs.rest
  have hmod := hs.length_mod
  refine ⟨_, _, by rw [heq, finalize_fed hs.rest hout], ?_⟩
  have hflat : (full ++ padBlocks (64 * full.length + rest.length) rest).flatten =
      m ++ [0x80] ++ List.replicate (zeros rest.length) 0 ++
        (List.range 8).map fun i => UInt8.ofNat (8 * m.length / 256 ^ (7 - i)) := by
    rw [List.flatten_append, padBlocks_flatten hlt, ← hs.length, lengthBytes_eq hm]
    simp only [List.append_assoc, hs.eq]
  show ((∀ b ∈ [] ++ (full ++ _) ++ [], b.length = 64) ∧ IsPadded m ([] ++ (full ++ _) ++ []).flatten) ↔ _
  rw [List.nil_append, List.append_nil, hflat, ← hmod]
  constructor
  · rintro ⟨-, z, hz, hmin, hp⟩ h55
    -- The least number of zeros is none, and there are 64.
    have hlen := congrArg List.length hp
    simp only [List.length_append, List.length_replicate] at hlen
    have hzero : ¬ 0 < z := fun hpos => hmin 0 hpos (by omega)
    rw [h55, show zeros 55 = 64 from rfl] at hlen
    omega
  · intro hne
    refine ⟨?_, zeros rest.length, ?_, ?_, rfl⟩
    · intro b hb
      rcases List.mem_append.mp hb with hb | hb
      · exact hs.full b hb
      · exact padBlocks_length hlt b hb
    · rw [zeros]
      split <;> omega
    · intro z hz
      rw [zeros] at hz
      split at hz <;> omega

theorem finalize_isPadded_iff_abc :
    ∃ bytes s, (new.update [97, 98, 99]).finalize (List.replicate 20 0) = some (bytes, s) ∧
      IsPadded [97, 98, 99] s.digested.flatten := by
  have hout : HLEN ≤ (List.replicate 20 (0 : UInt8)).length := by decide
  obtain ⟨bytes, s, hs, hiff⟩ := finalize_isPadded_iff (m := [97, 98, 99]) (by decide) hout
  exact ⟨bytes, s, hs, (hiff.mpr (by decide)).2⟩

/-- For 55 bytes the padding is one block; two are digested, the first with zeros where the length should be. -/
theorem fiftyFive_not_isPadded :
    ∃ bytes s, (new.update (List.replicate 55 97)).finalize (List.replicate 20 0) = some (bytes, s) ∧
      s.digested.map List.length = [64, 64] ∧ ¬ IsPadded (List.replicate 55 97) s.digested.flatten := by
  have hfed : new.update (List.replicate 55 97) = fed [] [] (List.replicate 55 97) := by decide
  refine ⟨_, _, by rw [hfed, finalize_fed (by decide) (by decide)], by decide, ?_⟩
  rintro ⟨z, -, hmin, hp⟩
  have hlen := congrArg List.length hp
  simp only [List.length_append, List.length_replicate, List.length_map, List.length_range] at hlen
  have hzero : ¬ 0 < z := fun hpos => hmin 0 hpos (by decide)
  have hz : z = 0 := by omega
  rw [hz] at hlen
  exact absurd hlen (by decide +kernel)

end Dwhbll.Cryptography.SHA1
