import Dwhbll.Json.Lemmas.Sorted
import Dwhbll.Json.Lemmas.Values
import Dwhbll.Json.Rfc

/-!
# Every JSON text is a text of the parser's grammar
-/

namespace Dwhbll.Rfc8259

open Ascii JsonParser JsonText

variable {F : Type} {s t u w : Bytes}

/-! ## Tokens -/

theorem isSpace_iff (c : UInt8) : isSpace c = true ↔ c = 0x20 ∨ c = 0x09 ∨ c = 0x0A ∨ c = 0x0D := by
  simp only [isSpace, Bool.or_eq_true, beq_iff_eq]
  constructor
  · rintro (((h | h) | h) | h) <;> simp [h]
  · rintro (h | h | h | h) <;> simp [h]

theorem ws_iff : JsonText.WS w ↔ WS w := by
  unfold JsonText.WS WS
  simp only [isSpace_iff]

theorem Escape.unescape {b c : UInt8} (h : Escape c b) : unescape c = some b := by
  cases h <;> rfl

theorem Hex.hexValue {c : UInt8} {v : Nat} (h : Hex c v) : hexValue c = some v := by
  have hdigit : ∀ n < 10, JsonParser.hexValue (UInt8.ofNat (0x30 + n)) = some n := by decide
  have hlower : ∀ n < 6, JsonParser.hexValue (UInt8.ofNat (0x61 + n)) = some (10 + n) := by decide
  have hupper : ∀ n < 6, JsonParser.hexValue (UInt8.ofNat (0x41 + n)) = some (10 + n) := by decide
  cases h with
  | digit h => exact hdigit _ h
  | lower h => exact hlower _ h
  | upper h => exact hupper _ h

/-- What stands above and below bit `k` does not meet. -/
theorem or_eq_add {a q : Nat} (k : Nat) (h : a < 2 ^ k) : 2 ^ k * q ||| a = a + 2 ^ k * q := by
  rw [← Nat.two_pow_add_eq_or_of_lt h, Nat.add_comm]

theorem utf8_eq {cp : Nat} (hcp : cp < 2 ^ 16) (hs : ¬ (0xD800 ≤ cp ∧ cp ≤ 0xDFFF)) :
    utf8 cp = String.utf8EncodeChar (Char.ofNat cp) := by
  have hvalid : cp.isValidChar := by
    simp only [Nat.isValidChar]
    omega
  have hv : (Char.ofNat cp).val.toNat = cp := by
    rw [Char.ofNat, dif_pos hvalid]
    rfl
  have hlow : ∀ a, 0x80 ||| (a &&& 0x3F) = a % 0x40 + 0x80 := by
    intro a
    have hm : a &&& 0x3F = a % 2 ^ 6 := Nat.and_two_pow_sub_one_eq_mod a 6
    have hlt : a % 2 ^ 6 < 2 ^ 6 := Nat.mod_lt _ (Nat.two_pow_pos 6)
    rw [hm]
    exact or_eq_add (q := 2) 6 hlt
  simp only [String.utf8EncodeChar, utf8, hv, hlow, Nat.shiftRight_eq_div_pow]
  split
  · rfl
  · split
    · have hlt : cp / 2 ^ 6 < 2 ^ 5 := by omega
      have hhigh : 0xC0 ||| cp / 2 ^ 6 = cp / 2 ^ 6 + 0xC0 := or_eq_add (q := 6) 5 hlt
      rw [hhigh, Nat.mod_eq_of_lt (show cp / 64 < 0x20 from hlt)]
      rfl
    · have hlt : cp / 2 ^ 12 < 2 ^ 4 := by omega
      have hhigh : 0xE0 ||| cp / 2 ^ 12 = cp / 2 ^ 12 + 0xE0 := or_eq_add (q := 14) 4 hlt
      rw [if_pos (by omega), if_pos (by omega), hhigh, Nat.mod_eq_of_lt (show cp / 4096 < 0x10 from hlt)]
      rfl

theorem hexNumber_hex {a b c d : UInt8} {v w x y : Nat} (ha : Hex a v) (hb : Hex b w) (hc : Hex c x) (hd : Hex d y) :
    hexNumber [a, b, c, d] 0 = some (4096 * v + 256 * w + 16 * x + y) := by
  simp only [hexNumber, ha.hexValue, hb.hexValue, hc.hexValue, hd.hexValue, Option.bind_some, Option.some.injEq]
  omega

theorem Chars.text {number : Bytes → F → Prop} (h : Chars (utf8Meaning number) s t) : JsonText.Chars s t := by
  induction h with
  | nil => exact .nil
  | unescaped _ hq hb _ ih => exact .raw hq hb ih
  | escape hc _ ih => exact .escape hc.unescape ih
  | @unicode a b c d v w x y bytes s t ha hb hc hd hm _ ih =>
      obtain ⟨hs, rfl⟩ := hm
      have hv := hexValue_lt ha.hexValue
      have hw := hexValue_lt hb.hexValue
      have hx := hexValue_lt hc.hexValue
      have hy := hexValue_lt hd.hexValue
      rw [← utf8_eq (by omega) hs]
      exact .unicode (t := t) rfl (hexNumber_hex ha hb hc hd) ih

/-- Behind the integer part there is no digit. -/
theorem isDigit_of_frac_exp {f e : Bytes} {c : UInt8} (hf : Frac f) (he : Exp e) (h : f ++ e = c :: u) :
    isDigit c = false := by
  cases hf with
  | some _ => cases h; rfl
  | none =>
      cases he with
      | none => cases h
      | some he _ _ =>
          cases h
          rcases he with rfl | rfl <;> rfl

theorem Number.start (h : Number t) : ∃ c u, t = c :: u ∧ (c = minus ∨ isDigit c = true) := by
  obtain ⟨rfl | rfl, hi, hf, he⟩ := h
  · cases hi with
    | zero => exact ⟨_, _, rfl, .inr rfl⟩
    | positive hd _ _ => exact ⟨_, _, rfl, .inr hd⟩
  · exact ⟨_, _, rfl, .inl rfl⟩

/-- The text of a number begins as the parser expects it. -/
theorem Number.numberText {ops : FloatOps F} {x : F} (h : Number t)
    (hread : ∀ rest, Delim rest → ops.fromChars (t ++ rest) = some (x, t.length)) : NumberText ops x t where
  read_back := hread
  start := h.start
  no_leading_zero := by
    intro c u ht
    obtain ⟨rfl | rfl, hi, hf, he⟩ := h
    · cases hi with
      | zero => exact isDigit_of_frac_exp hf he (List.cons.inj ht).2
      | positive _ h0 _ => exact absurd (List.cons.inj ht).1 h0
    · exact absurd (List.cons.inj ht).1 (by decide)

/-! ## Objects -/

theorem lookup_cons_eq (name k : Bytes) (v : Json F) (o : List (Bytes × Json F)) :
    ((k, v) :: o).lookup name = if name = k then some v else o.lookup name := by
  rw [List.lookup_cons]
  split
  · rename_i h
    rw [if_pos (eq_of_beq h)]
  · rename_i h
    rw [if_neg (ne_of_beq_false h)]

theorem lookup_mapInsert (name key : Bytes) (value : Json F) (o : List (Bytes × Json F)) :
    (mapInsert key value o).lookup name = if name = key then some value else o.lookup name := by
  induction o with
  | nil => rw [mapInsert, lookup_cons_eq]
  | cons m o ih =>
      obtain ⟨k, v⟩ := m
      rw [mapInsert]
      split
      · rw [lookup_cons_eq]
      · split
        · rename_i hk
          subst hk
          simp only [lookup_cons_eq]
          split <;> rfl
        · rename_i hne
          simp only [lookup_cons_eq, ih]
          split
          · rename_i hname
            subst hname
            rw [if_neg (Ne.symm hne)]
          · rfl

theorem lookup_insertAll (name : Bytes) (ms o : List (Bytes × Json F)) :
    (insertAll ms o).lookup name = (ms.reverse.lookup name).or (o.lookup name) := by
  induction ms generalizing o with
  | nil => rfl
  | cons m ms ih =>
      obtain ⟨k, v⟩ := m
      rw [insertAll, List.foldl_cons, ← insertAll, ih, lookup_mapInsert, List.reverse_cons, List.lookup_append,
        lookup_cons_eq, List.lookup_nil, Option.or_assoc]
      split <;> rfl

theorem insertAll_pairwise (ms : List (Bytes × Json F)) {o : List (Bytes × Json F)}
    (h : o.Pairwise (·.1 < ·.1)) : (insertAll ms o).Pairwise (·.1 < ·.1) := by
  induction ms generalizing o with
  | nil => exact h
  | cons m ms ih => exact ih (mapInsert_pairwise h)

theorem lookup_eq_none_of_lt {name : Bytes} {o : List (Bytes × Json F)} (h : ∀ m ∈ o, name < m.1) :
    o.lookup name = none := by
  rw [List.lookup_eq_none_iff]
  intro m hm
  simp only [bne_iff_ne]
  rintro rfl
  exact List.lt_irrefl _ (h m hm)

/-- The first name of one list stands at the front of the other. -/
theorem not_lt_of_lookup {k k' : Bytes} {v v' : Json F} {o o' : List (Bytes × Json F)} (ho' : ∀ m ∈ o', k' < m.1)
    (h : ((k, v) :: o).lookup k = ((k', v') :: o').lookup k) : ¬ k < k' := by
  intro hlt
  have hnone : ((k', v') :: o').lookup k = none := by
    refine lookup_eq_none_of_lt fun m hm => ?_
    rcases List.mem_cons.mp hm with rfl | hm
    · exact hlt
    · exact List.lt_trans hlt (ho' m hm)
  rw [hnone, List.lookup_cons_self] at h
  cases h

/-- Members in order are known by what is found under each name. -/
theorem eq_of_lookup {o o' : List (Bytes × Json F)} (ho : o.Pairwise (·.1 < ·.1)) (ho' : o'.Pairwise (·.1 < ·.1))
    (h : ∀ name, o.lookup name = o'.lookup name) : o = o' := by
  induction o generalizing o' with
  | nil =>
      cases o' with
      | nil => rfl
      | cons m' o' =>
          have := h m'.1
          rw [List.lookup_nil, List.lookup_cons_self] at this
          cases this
  | cons m o ih =>
      cases o' with
      | nil =>
          have := h m.1
          rw [List.lookup_nil, List.lookup_cons_self] at this
          cases this
      | cons m' o' =>
          obtain ⟨k, v⟩ := m
          obtain ⟨k', v'⟩ := m'
          obtain ⟨hk, ho⟩ := List.pairwise_cons.mp ho
          obtain ⟨hk', hrest⟩ := List.pairwise_cons.mp ho'
          have hkk : k = k' := by
            have h1 := not_lt_of_lookup hk' (h k)
            have h2 := not_lt_of_lookup hk (h k').symm
            exact List.le_antisymm h2 h1
          subst hkk
          have hv := h k
          rw [List.lookup_cons_self, List.lookup_cons_self] at hv
          cases hv
          congr 1
          refine ih ho hrest fun name => ?_
          have hname := h name
          simp only [lookup_cons_eq] at hname
          by_cases heq : name = k
          · subst heq
            rw [lookup_eq_none_of_lt hk, lookup_eq_none_of_lt hk']
          · simpa only [if_neg heq] using hname

theorem lastWins_insertAll (ms : List (Bytes × Json F)) : LastWins ms (insertAll ms []) := by
  refine ⟨insertAll_pairwise ms .nil, fun name => ?_⟩
  rw [lookup_insertAll, List.lookup_nil, Option.or_none]

theorem insertAll_of_lastWins {ms o : List (Bytes × Json F)} (h : LastWins ms o) : insertAll ms [] = o := by
  obtain ⟨hsorted, hlookup⟩ := lastWins_insertAll ms
  exact eq_of_lookup hsorted h.1 fun name => (hlookup name).trans (h.2 name).symm

/-! ## Values -/

theorem Value.starts {M : Meaning F} {j : Json F} (h : Value M j t) : ∃ c u, t = c :: u ∧ Starts c := by
  cases h with
  | number h =>
      obtain ⟨c, u, rfl, hc⟩ := h.start
      exact ⟨c, u, rfl, starts_of_number hc⟩
  | emptyObject | object | emptyArray | array | string | true | false | null =>
      exact ⟨_, _, rfl, rfl, by decide, by decide⟩

theorem Members.starts {M : Meaning F} {ms : List (Bytes × Json F)} (h : Members M ms t) :
    ∃ c u, t = c :: u ∧ Starts c := by
  cases h with
  | one h =>
      obtain ⟨-, -, -, -⟩ := h
      exact ⟨_, _, rfl, rfl, by decide, by decide⟩
  | more h =>
      obtain ⟨-, -, -, -⟩ := h
      exact ⟨_, _, rfl, rfl, by decide, by decide⟩

theorem Elements.starts {M : Meaning F} {js : List (Json F)} (h : Elements M js t) : ∃ c u, t = c :: u ∧ Starts c := by
  cases h with
  | one h => exact h.starts
  | more h =>
      obtain ⟨c, u, rfl, hc⟩ := h.starts
      exact ⟨c, _, rfl, hc⟩

variable {ops : FloatOps F} {number : Bytes → F → Prop} {w w' : Bytes}

/-- A value with white space on both sides. -/
theorem element_of_value {j : Json F} (h : JsonText.Value ops j t) (hw : WS w) (hw' : WS w') :
    JsonText.Element ops j (w ++ (t ++ w')) :=
  .mk (ws_iff.mpr hw) h (ws_iff.mpr hw')

/-- What is asked of `std::from_chars`: wherever a number stands in a text, it returns what the number means and
consumes the characters of the number. -/
def ReadsNumbers (ops : FloatOps F) (number : Bytes → F → Prop) : Prop :=
  ∀ t x, Number t → number t x → ∀ rest, Delim rest → ops.fromChars (t ++ rest) = some (x, t.length)

mutual

theorem Value.text (hreads : ReadsNumbers ops number) {j : Json F} {t : Bytes}
    (h : Value (utf8Meaning number) j t) : JsonText.Value ops j t := by
  match h with
  | .false => exact .false
  | .null => exact .null
  | .true => exact .true
  | .emptyObject hw => exact .emptyObject (ws_iff.mpr hw)
  | .object hw h hw' ho =>
      have hms := JsonText.Value.object (Members.text hreads h hw hw')
      rw [insertAll_of_lastWins ho] at hms
      simpa only [List.append_assoc] using hms
  | .emptyArray hw => exact .emptyArray (ws_iff.mpr hw)
  | .array hw h hw' =>
      have hjs := JsonText.Value.array (Elements.text hreads h hw hw')
      simpa only [List.append_assoc] using hjs
  | .number h hm => exact .number (h.numberText (hreads _ _ h hm))
  | .string h => exact .string h.text

theorem Member.text (hreads : ReadsNumbers ops number) {m : Bytes × Json F} {t w w' : Bytes}
    (h : Member (utf8Meaning number) m t) (hw : WS w) (hw' : WS w') : JsonText.Member ops m (w ++ (t ++ w')) := by
  match h with
  | .mk hk hv hv' h =>
      have he := element_of_value (Value.text hreads h) hv' hw'
      have hm := JsonText.Member.mk (ws_iff.mpr hw) hk.text (ws_iff.mpr hv) he
      simpa using hm

theorem Members.text (hreads : ReadsNumbers ops number) {ms : List (Bytes × Json F)} {t w w' : Bytes}
    (h : Members (utf8Meaning number) ms t) (hw : WS w) (hw' : WS w') : JsonText.Members ops ms (w ++ (t ++ w')) := by
  match h with
  | .one h => exact .one (Member.text hreads h hw hw')
  | .more h hv hv' hs =>
      have hms := JsonText.Members.more (Member.text hreads h hw hv) (Members.text hreads hs hv' hw')
      simpa using hms

theorem Elements.text (hreads : ReadsNumbers ops number) {js : List (Json F)} {t w w' : Bytes}
    (h : Elements (utf8Meaning number) js t) (hw : WS w) (hw' : WS w') : JsonText.Elements ops js (w ++ (t ++ w')) := by
  match h with
  | .one h => exact .one (element_of_value (Value.text hreads h) hw hw')
  | .more h hv hv' hs =>
      have he := element_of_value (Value.text hreads h) hw hv
      have hjs := JsonText.Elements.more he (Elements.text hreads hs hv' hw')
      simpa using hjs

end

theorem Text.element (hreads : ReadsNumbers ops number) {j : Json F} {t : Bytes}
    (h : Text (utf8Meaning number) j t) : JsonText.Element ops j t := by
  obtain ⟨hw, hv, hw'⟩ := h
  exact element_of_value (Value.text hreads hv) hw hw'

end Dwhbll.Rfc8259
