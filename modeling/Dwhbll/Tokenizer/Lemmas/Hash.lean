import Dwhbll.Lib.Words
import Dwhbll.Tokenizer.Basic

/-!
# The hashes of the operators

The last step of `hash` can be undone: the first of two characters is known from the hash and the second one. So it is
enough to go through the second characters to see which pairs have the hash of an operator.
-/

namespace Dwhbll.Tokenizer

/-- A `char` as an `unsigned int`. -/
def charBits (c : UInt8) : UInt32 := c.toInt8.toInt32.toUInt32

theorem charBits_of_hash {a : UInt8} {word : Bytes} {h : UInt32} (ha : a ≠ 0) (hh : hash (a :: word) = h) :
    charBits a = hash word * 33 ^^^ h := by
  rw [hash, if_neg ha] at hh
  rw [← hh, ← UInt32.xor_assoc, UInt32.xor_self, UInt32.zero_xor]
  rfl

/-- The high bits of a `char` are all the same. -/
theorem charBits_range (c : UInt8) : (charBits c).toNat < 0x80 ∨ 2 ^ 31 ≤ (charBits c).toNat := by
  have hall : ∀ n < 256, (charBits (UInt8.ofNat n)).toNat < 0x80 ∨ 2 ^ 31 ≤ (charBits (UInt8.ofNat n)).toNat := by
    decide +kernel
  exact Words.of_forall_lt (P := fun c => (charBits c).toNat < 0x80 ∨ 2 ^ 31 ≤ (charBits c).toNat) hall c.toNat_lt

theorem charBits_ascii {c : UInt8} (hc : c < 0x80) : (charBits c).toNat = c.toNat := by
  have hall : ∀ n < 128, (charBits (UInt8.ofNat n)).toNat = (UInt8.ofNat n).toNat := by decide +kernel
  exact Words.of_forall_lt (P := fun c => (charBits c).toNat = c.toNat) hall (UInt8.lt_iff_toNat_lt.mp hc)

/-- No operator has the hash of a pair with a newline at its end. -/
theorem hash_newline_ne (a : UInt8) {op : String} (hop : op ∈ "->" :: operators) :
    hash [a, newline] ≠ hash (text op) := by
  have hzero : ∀ op ∈ "->" :: operators, hash [0, newline] ≠ hash (text op) := by decide +kernel
  have hother : ∀ op ∈ "->" :: operators, 0x80 ≤ (hash [newline] * 33 ^^^ hash (text op)).toNat ∧
      (hash [newline] * 33 ^^^ hash (text op)).toNat < 2 ^ 31 := by decide +kernel
  intro h
  by_cases ha : a = 0
  · subst ha
    exact hzero op hop h
  · have hbits := charBits_of_hash ha h
    have hrange := charBits_range a
    have := hother op hop
    rw [hbits] at hrange
    omega

theorem twoType_newline (a : UInt8) : twoType [a, newline] = .none := by
  have harrow : hash [a, newline] ≠ hash (text "->") := hash_newline_ne a List.mem_cons_self
  have hany : (operators.any fun op => hash [a, newline] == hash (text op)) = false := by
    rw [List.any_eq_false]
    intro op hop
    rw [beq_iff_eq]
    exact hash_newline_ne a (List.mem_cons_of_mem _ hop)
  rw [twoType, if_neg harrow, hany]
  rfl

/-- The pairs of ASCII characters with the hash of `->`. -/
theorem pair_of_hash_arrow {a b : UInt8} (ha : a < 0x80) (hb : b < 0x80) (h : hash [a, b] = hash (text "->")) :
    a = 0x0C ∨ a = 0x4E ∨ a = 0x6F ∨ [a, b] = text "->" := by
  have hpairs : ∀ n < 128, (hash [UInt8.ofNat n] * 33 ^^^ hash (text "->")).toNat < 0x80 →
      (hash [UInt8.ofNat n] * 33 ^^^ hash (text "->")).toNat ∈ [0x0C, 0x4E, 0x6F] ∨
        (hash [UInt8.ofNat n] * 33 ^^^ hash (text "->")).toNat = 0x2D ∧ n = 0x3E := by
    decide +kernel
  have ha0 : a ≠ 0 := by
    rintro rfl
    have hempty : hash (text "->") ≠ 5381 := by decide +kernel
    exact hempty h.symm
  have hb' := hpairs b.toNat (UInt8.lt_iff_toNat_lt.mp hb)
  rw [UInt8.ofNat_toNat, ← charBits_of_hash ha0 h, charBits_ascii ha] at hb'
  rcases hb' (UInt8.lt_iff_toNat_lt.mp ha) with hab | ⟨hab, hbn⟩
  · simp only [List.mem_cons, List.not_mem_nil, or_false] at hab
    simp only [← UInt8.toNat_inj]
    rcases hab with hab | hab | hab
    · exact .inl hab
    · exact .inr (.inl hab)
    · exact .inr (.inr (.inl hab))
  · obtain rfl : a = 0x2D := UInt8.toNat_inj.mp hab
    obtain rfl : b = 0x3E := UInt8.toNat_inj.mp hbn
    exact .inr (.inr (.inr rfl))

end Dwhbll.Tokenizer
