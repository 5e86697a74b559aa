import Mathlib.Algebra.Group.Int.Defs
import Mathlib.Algebra.Group.Nat.Defs

/-!
# Words and their bytes

Shifts and masks of 16-bit words as arithmetic on naturals, and the halves of words of any width.
-/

namespace Words

/-- Bits above position `k` and bits below it do not meet. -/
theorem toNat_or {a b : UInt16} {k : Nat} (ha : 2 ^ k ∣ a.toNat) (hb : b.toNat < 2 ^ k) :
    (a ||| b).toNat = a.toNat + b.toNat := by
  obtain ⟨q, hq⟩ := ha
  rw [UInt16.toNat_or, hq, Nat.two_pow_add_eq_or_of_lt hb]

theorem toNat_shiftLeft {a : UInt16} {k : Nat} (hk : k < 16) (ha : a.toNat * 2 ^ k < 2 ^ 16) :
    (a <<< UInt16.ofNat k).toNat = a.toNat * 2 ^ k := by
  have hmod : (UInt16.ofNat k).toNat % 16 = k := by
    rw [UInt16.toNat_ofNat', Nat.mod_eq_of_lt (show k < 2 ^ 16 by omega), Nat.mod_eq_of_lt hk]
  rw [UInt16.toNat_shiftLeft, hmod, Nat.shiftLeft_eq, Nat.mod_eq_of_lt ha]

/-- Putting `w` bits in at position `k`, below all the bits there are. -/
theorem toNat_or_shiftLeft {a x : UInt16} {k w : Nat} (ha : 2 ^ (k + w) ∣ a.toNat) (hx : x.toNat < 2 ^ w)
    (hk : k < 16) (hw : k + w ≤ 16) : (a ||| x <<< UInt16.ofNat k).toNat = a.toNat + x.toNat * 2 ^ k := by
  have hlt : x.toNat * 2 ^ k < 2 ^ (k + w) := by
    rw [Nat.pow_add, Nat.mul_comm]
    exact Nat.mul_lt_mul_of_pos_left hx (Nat.two_pow_pos k)
  have hs := toNat_shiftLeft hk (Nat.lt_of_lt_of_le hlt (Nat.pow_le_pow_right (by decide) hw))
  rw [toNat_or ha (by rw [hs]; exact hlt), hs]

/-- The `w` bits from position `k` on. -/
theorem toNat_field (a : UInt16) {k w : Nat} (hk : k < 16) (hw : w < 16) :
    (a >>> UInt16.ofNat k &&& UInt16.ofNat (2 ^ w - 1)).toNat = a.toNat / 2 ^ k % 2 ^ w := by
  have hmod : (UInt16.ofNat k).toNat % 16 = k := by
    rw [UInt16.toNat_ofNat', Nat.mod_eq_of_lt (show k < 2 ^ 16 by omega), Nat.mod_eq_of_lt hk]
  have hmask : (UInt16.ofNat (2 ^ w - 1)).toNat = 2 ^ w - 1 := by
    have := Nat.pow_lt_pow_right (show 1 < 2 by decide) hw
    rw [UInt16.toNat_ofNat', Nat.mod_eq_of_lt (by omega)]
  rw [UInt16.toNat_and, UInt16.toNat_shiftRight, hmod, hmask, Nat.shiftRight_eq_div_pow,
    Nat.and_two_pow_sub_one_eq_mod]

theorem toNat_ofInt {x : Int} (h0 : 0 ≤ x) (hx : x < 2 ^ 16) : (UInt16.ofInt x).toNat = x.toNat := by
  rw [UInt16.ofInt, UInt16.toNat_ofNat', Int.emod_eq_of_lt h0 hx, Nat.mod_eq_of_lt (by omega)]

theorem toNat_toUInt16 (b : Bool) : b.toUInt16.toNat = b.toNat := by
  cases b <;> rfl

/-! ## Big-endian bytes -/

/-- The two bytes of a word, the high one first. -/
def bytes (v : UInt16) : List UInt8 := [(v >>> 8).toUInt8, (v &&& 0xFF).toUInt8]

def ofBytes (high low : UInt8) : UInt16 := high.toUInt16 <<< 8 ||| low.toUInt16

theorem toNat_ofBytes (high low : UInt8) : (ofBytes high low).toNat = high.toNat * 2 ^ 8 + low.toNat := by
  have hh := high.toNat_lt
  have hl := low.toNat_lt
  have hs : (high.toUInt16 <<< 8).toNat = high.toNat * 2 ^ 8 := by
    have := toNat_shiftLeft (a := high.toUInt16) (k := 8) (by decide) (by rw [UInt8.toNat_toUInt16]; omega)
    rwa [UInt8.toNat_toUInt16] at this
  rw [ofBytes, toNat_or (k := 8) (by rw [hs]; exact Nat.dvd_mul_left ..) (by rw [UInt8.toNat_toUInt16]; omega),
    hs, UInt8.toNat_toUInt16]

theorem bytes_toNat (v : UInt16) :
    ((v >>> 8).toUInt8.toNat = v.toNat / 2 ^ 8) ∧ ((v &&& 0xFF).toUInt8.toNat = v.toNat % 2 ^ 8) := by
  have hv := v.toNat_lt
  constructor
  · rw [UInt16.toNat_toUInt8, UInt16.toNat_shiftRight, Nat.shiftRight_eq_div_pow]
    exact Nat.mod_eq_of_lt (by simp only [UInt16.reduceToNat, Nat.reduceMod]; omega)
  · rw [UInt16.toNat_toUInt8, UInt16.toNat_and]
    exact (congrArg (· % 2 ^ 8) (Nat.and_two_pow_sub_one_eq_mod v.toNat 8)).trans (Nat.mod_mod ..)

theorem ofBytes_bytes (v : UInt16) : ofBytes (v >>> 8).toUInt8 (v &&& 0xFF).toUInt8 = v := by
  obtain ⟨h1, h2⟩ := bytes_toNat v
  rw [← UInt16.toNat_inj, toNat_ofBytes, h1, h2]
  omega

theorem bytes_ofBytes (high low : UInt8) : bytes (ofBytes high low) = [high, low] := by
  obtain ⟨h1, h2⟩ := bytes_toNat (ofBytes high low)
  have hl := low.toNat_lt
  rw [toNat_ofBytes] at h1 h2
  have e1 : (ofBytes high low >>> 8).toUInt8 = high := by rw [← UInt8.toNat_inj, h1]; omega
  have e2 : (ofBytes high low &&& 0xFF).toUInt8 = low := by rw [← UInt8.toNat_inj, h2]; omega
  rw [bytes, e1, e2]

/-- The four bytes of a word, the high one first. -/
def bytes32 (v : UInt32) : List UInt8 := bytes (v >>> 16).toUInt16 ++ bytes (v &&& 0xFFFF).toUInt16

def ofHalves (high low : UInt16) : UInt32 := high.toUInt32 <<< 16 ||| low.toUInt32

/-! ## Halves -/

/-- A number of `2 * k` bits from its upper and its lower half. -/
theorem or_halves {n k : Nat} (hn : n < 2 ^ (k + k)) :
    ((n >>> k % 2 ^ k) &&& (2 ^ k - 1)) <<< k % 2 ^ (k + k) |||
      (n % 2 ^ k &&& (2 ^ k - 1) &&& (2 ^ k - 1)) = n := by
  have hlow : n % 2 ^ k < 2 ^ k := Nat.mod_lt _ (Nat.two_pow_pos k)
  have hdiv : n / 2 ^ k < 2 ^ k := by
    rw [Nat.div_lt_iff_lt_mul (Nat.two_pow_pos k), ← Nat.pow_add]
    exact hn
  have hhigh : n / 2 ^ k * 2 ^ k < 2 ^ (k + k) := by
    rw [Nat.pow_add]
    exact Nat.mul_lt_mul_of_pos_right hdiv (Nat.two_pow_pos k)
  simp only [Nat.and_two_pow_sub_one_eq_mod, Nat.mod_mod, Nat.shiftRight_eq_div_pow, Nat.shiftLeft_eq,
    Nat.mod_eq_of_lt hdiv, Nat.mod_eq_of_lt hhigh]
  rw [Nat.mul_comm, ← Nat.two_pow_add_eq_or_of_lt hlow, Nat.div_add_mod]

theorem uInt16_halves (v : UInt16) :
    ((v >>> 8).toUInt8.toUInt16 &&& 0xFF) <<< 8 ||| ((v &&& 0xFF).toUInt8.toUInt16 &&& 0xFF) = v := by
  have h : v.toNat < 2 ^ (8 + 8) := v.toNat_lt
  rw [← UInt16.toNat_inj]
  simpa using or_halves h

theorem uInt32_halves (v : UInt32) :
    ((v >>> 16).toUInt16.toUInt32 &&& 0xFFFF) <<< 16 ||| ((v &&& 0xFFFF).toUInt16.toUInt32 &&& 0xFFFF) = v := by
  have h : v.toNat < 2 ^ (16 + 16) := v.toNat_lt
  rw [← UInt32.toNat_inj]
  simpa using or_halves h

theorem uInt64_halves (v : UInt64) :
    ((v >>> 32).toUInt32.toUInt64 &&& 0xFFFFFFFF) <<< 32 |||
      ((v &&& 0xFFFFFFFF).toUInt32.toUInt64 &&& 0xFFFFFFFF) = v := by
  have h : v.toNat < 2 ^ (32 + 32) := v.toNat_lt
  rw [← UInt64.toNat_inj]
  simpa using or_halves h

theorem ofHalves_halves (v : UInt32) : ofHalves (v >>> 16).toUInt16 (v &&& 0xFFFF).toUInt16 = v := by
  have hmask : ∀ x : UInt16, x.toUInt32 &&& 0xFFFF = x.toUInt32 := by
    intro x
    rw [← UInt32.toNat_inj, UInt32.toNat_and, UInt16.toNat_toUInt32]
    exact (Nat.and_two_pow_sub_one_eq_mod x.toNat 16).trans (Nat.mod_eq_of_lt x.toNat_lt)
  have h := uInt32_halves v
  rwa [hmask, hmask] at h

/-! ## Little-endian bytes -/

/-- The lowest `k` bytes of a number, the lowest one first. -/
def littleEndian : (k n : Nat) → List UInt8
  | 0, _ => []
  | k + 1, n => UInt8.ofNat n :: littleEndian k (n / 2 ^ 8)

def ofLittleEndian : List UInt8 → Nat
  | [] => 0
  | b :: bs => b.toNat + 2 ^ 8 * ofLittleEndian bs

@[simp]
theorem littleEndian_length (k n : Nat) : (littleEndian k n).length = k := by
  induction k generalizing n with
  | zero => rfl
  | succ k ih => simp [littleEndian, ih]

theorem ofLittleEndian_littleEndian {k n : Nat} (h : n < 2 ^ (8 * k)) : ofLittleEndian (littleEndian k n) = n := by
  induction k generalizing n with
  | zero =>
      have hn : n = 0 := Nat.lt_one_iff.mp h
      rw [hn, littleEndian, ofLittleEndian]
  | succ k ih =>
      rw [Nat.mul_succ, Nat.pow_add] at h
      have hdiv : n / 2 ^ 8 < 2 ^ (8 * k) := (Nat.div_lt_iff_lt_mul (Nat.two_pow_pos 8)).mpr h
      rw [littleEndian, ofLittleEndian, ih hdiv, UInt8.toNat_ofNat', Nat.mod_add_div]

theorem littleEndian_ofLittleEndian (bs : List UInt8) : littleEndian bs.length (ofLittleEndian bs) = bs := by
  induction bs with
  | nil => rfl
  | cons b bs ih =>
      have hb := b.toNat_lt
      have hlow : UInt8.ofNat (b.toNat + 2 ^ 8 * ofLittleEndian bs) = b := by
        rw [← UInt8.toNat_inj, UInt8.toNat_ofNat']
        omega
      have hrest : (b.toNat + 2 ^ 8 * ofLittleEndian bs) / 2 ^ 8 = ofLittleEndian bs := by omega
      rw [ofLittleEndian, List.length_cons, littleEndian, hlow, hrest, ih]

theorem ofLittleEndian_lt (bs : List UInt8) : ofLittleEndian bs < 2 ^ (8 * bs.length) := by
  induction bs with
  | nil => exact Nat.one_pos
  | cons b bs ih =>
      have hb := b.toNat_lt
      rw [ofLittleEndian, List.length_cons, Nat.mul_succ, Nat.pow_add]
      omega

/-! ## Bytes one by one -/

theorem of_forall_lt {P : UInt8 → Prop} {k : Nat} (h : ∀ n < k, P (UInt8.ofNat n)) {c : UInt8} (hc : c.toNat < k) :
    P c := by
  have hp := h c.toNat hc
  rwa [UInt8.ofNat_toNat] at hp

end Words
