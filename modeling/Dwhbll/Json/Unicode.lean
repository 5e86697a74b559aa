import Dwhbll.Json.Theorems

/-!
# Strings written with `\u` escapes

Each escape is a code unit of UTF-16, and `json_parser::string` makes a character of each for itself: of the two
surrogates of a pair it makes three bytes each.
-/

namespace Dwhbll.Rfc8259

open Ascii JsonParser JsonText

/-! ## Code units -/

/-- The code units of a character in UTF-16: itself, or a high and a low surrogate. -/
def codeUnits (c : Char) : List Nat :=
  if c.toNat ≤ 0xFFFF then [c.toNat]
  else [0xD800 + (c.toNat - 0x10000) / 0x400, 0xDC00 + (c.toNat - 0x10000) % 0x400]

/-- The code units `us`, each written as an escape, with hexadecimal digits in either case. -/
inductive Escapes : (us : List Nat) → (t : Bytes) → Prop
  | nil : Escapes [] []
  | cons {a b c d v w x y us t} (ha : Hex a v) (hb : Hex b w) (hc : Hex c x) (hd : Hex d y) (h : Escapes us t) :
      Escapes ((4096 * v + 256 * w + 16 * x + y) :: us) (backslash :: 0x75 :: a :: b :: c :: d :: t)

variable {F : Type} {ops : FloatOps F} {us : List Nat} {cs : List Char} {c : Char} {t : Bytes} {fuel : Nat}

theorem Escapes.chars (h : Escapes us t) : JsonText.Chars (us.flatMap utf8) t := by
  induction h with
  | nil => exact .nil
  | cons ha hb hc hd _ ih => exact .unicode (t := _) rfl (hexNumber_hex ha hb hc hd) ih

theorem parse_escapes (h : Escapes us t) (hf : t.length + 2 < fuel) :
    parse (quote :: (t ++ [quote])) ops fuel = .ok (.string (us.flatMap utf8)) := by
  refine parse_of_value (.string h.chars) ?_
  simp only [List.length_cons, List.length_append, List.length_nil]
  omega

/-! ## Characters -/

theorem utf8_codeUnits_of_le (h : c.toNat ≤ 0xFFFF) : (codeUnits c).flatMap utf8 = String.utf8EncodeChar c := by
  have hvalid := c.valid
  simp only [UInt32.isValidChar, Nat.isValidChar] at hvalid
  have hsurrogate : ¬ (0xD800 ≤ c.toNat ∧ c.toNat ≤ 0xDFFF) := by
    simp only [Char.toNat] at h ⊢
    omega
  rw [codeUnits, if_pos h, List.flatMap_singleton, utf8_eq (by omega) hsurrogate, Char.ofNat_toNat]

/-- The two surrogates of a pair come to six bytes, where the character has four. -/
theorem length_lt_of_gt (h : ¬ c.toNat ≤ 0xFFFF) :
    (String.utf8EncodeChar c).length < ((codeUnits c).flatMap utf8).length := by
  have hthree : ∀ u, 0xD800 ≤ u → u ≤ 0xDFFF → (utf8 u).length = 3 := by
    intro u hlow hhigh
    rw [utf8, if_neg (by omega), if_neg (by omega), if_pos (by omega)]
    rfl
  have hvalid := c.valid
  simp only [UInt32.isValidChar, Nat.isValidChar] at hvalid
  have hlt : c.toNat < 0x110000 := by
    simp only [Char.toNat]
    omega
  have hfour : (String.utf8EncodeChar c).length ≤ 4 := by
    rw [String.length_utf8EncodeChar]
    exact Char.utf8Size_le_four c
  rw [codeUnits, if_neg h, List.flatMap_cons, List.flatMap_singleton, List.length_append,
    hthree _ (by omega) (by omega), hthree _ (by omega) (by omega)]
  omega

theorem utf8_codeUnits_iff : (codeUnits c).flatMap utf8 = String.utf8EncodeChar c ↔ c.toNat ≤ 0xFFFF := by
  refine ⟨fun heq => ?_, utf8_codeUnits_of_le⟩
  by_contra h
  have hlt := length_lt_of_gt h
  rw [heq] at hlt
  exact absurd hlt (Nat.lt_irrefl _)

theorem length_le (c : Char) : (String.utf8EncodeChar c).length ≤ ((codeUnits c).flatMap utf8).length := by
  by_cases h : c.toNat ≤ 0xFFFF
  · rw [utf8_codeUnits_of_le h]
  · exact Nat.le_of_lt (length_lt_of_gt h)

/-! ## Texts -/

/-- The text with each character written as one escape or two is read as these characters if and only if none takes
two. -/
theorem parse_escapes_iff (h : Escapes (cs.flatMap codeUnits) t) (hf : t.length + 2 < fuel) :
    parse (quote :: (t ++ [quote])) ops fuel = .ok (.string (cs.flatMap String.utf8EncodeChar)) ↔
      ∀ c ∈ cs, c.toNat ≤ 0xFFFF := by
  rw [parse_escapes h hf, Except.ok.injEq, Json.string.injEq, List.flatMap_assoc, Lists.flatMap_eq_iff length_le]
  exact forall₂_congr fun _ _ => utf8_codeUnits_iff

/-- `"\u00e9\u20AC"` -/
theorem parse_escapes_iff_euro :
    parse (quote :: (ascii "\\u00e9\\u20AC" ++ [quote])) Json.digits 20 =
      .ok (.string [0xC3, 0xA9, 0xE2, 0x82, 0xAC]) := by
  have hzero : Hex 0x30 0 := .digit (n := 0) (by decide)
  have he : Hex 0x65 14 := .lower (n := 4) (by decide)
  have hnine : Hex 0x39 9 := .digit (n := 9) (by decide)
  have htwo : Hex 0x32 2 := .digit (n := 2) (by decide)
  have hA : Hex 0x41 10 := .upper (n := 0) (by decide)
  have hC : Hex 0x43 12 := .upper (n := 2) (by decide)
  have hescapes : Escapes (['é', '€'].flatMap codeUnits) (ascii "\\u00e9\\u20AC") :=
    .cons hzero hzero he hnine (.cons htwo hzero hA hC .nil)
  refine (parse_escapes_iff hescapes (by decide)).mpr fun c hc => ?_
  rcases List.mem_pair.mp hc with rfl | rfl
  · decide
  · decide

/-- `"\ud83d\ude00"` is U+1F600. -/
theorem parse_pair :
    parse (quote :: (ascii "\\ud83d\\ude00" ++ [quote])) Json.digits 20 =
        .ok (.string [0xED, 0xA0, 0xBD, 0xED, 0xB8, 0x80]) ∧
      ¬ ∀ (cs : List Char) t fuel, Escapes (cs.flatMap codeUnits) t → t.length + 2 < fuel →
        parse (quote :: (t ++ [quote])) Json.digits fuel = .ok (.string (cs.flatMap String.utf8EncodeChar)) := by
  have hd : Hex 0x64 13 := .lower (n := 3) (by decide)
  have he : Hex 0x65 14 := .lower (n := 4) (by decide)
  have hzero : Hex 0x30 0 := .digit (n := 0) (by decide)
  have hthree : Hex 0x33 3 := .digit (n := 3) (by decide)
  have height : Hex 0x38 8 := .digit (n := 8) (by decide)
  have hescapes : Escapes ([Char.ofNat 0x1F600].flatMap codeUnits) (ascii "\\ud83d\\ude00") :=
    .cons hd height hthree hd (.cons hd he hzero hzero .nil)
  have hparse : parse (quote :: (ascii "\\ud83d\\ude00" ++ [quote])) Json.digits 20 =
      .ok (.string [0xED, 0xA0, 0xBD, 0xED, 0xB8, 0x80]) := parse_escapes hescapes (by decide)
  refine ⟨hparse, fun h => ?_⟩
  have hall := h _ _ 20 hescapes (by decide)
  rw [hparse, Except.ok.injEq, Json.string.injEq] at hall
  revert hall
  decide

end Dwhbll.Rfc8259
