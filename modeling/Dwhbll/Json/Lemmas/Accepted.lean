import Dwhbll.Json.Lemmas.Reads
import Dwhbll.Json.Lemmas.Rfc
import Mathlib.Data.List.Basic

/-!
# Which of the texts that are read are JSON texts
-/

namespace Dwhbll.JsonReads

open Ascii JsonParser JsonText

/-- The lexeme is as RFC 8259 has it. -/
def Lexeme.fine : Lexeme → Bool
  | .number input => FromChars.isFine input
  | .raw c => 0x20 ≤ c

/-- Any value may be the meaning of a number, and any bytes that of an escape: only the text matters. -/
def anyMeaning (F : Type) : Rfc8259.Meaning F := ⟨fun _ _ => True, fun _ _ => True⟩

variable {F : Type} {ops : FloatOps F} {t u v w rest : Bytes} {ls : List Lexeme}

/-! ## Fine texts are JSON texts -/

theorem escape_of_unescape {b c : UInt8} (h : unescape c = some b) : Rfc8259.Escape c b := by
  unfold unescape at h
  split at h
  · rename_i hc
    cases h
    rcases hc with rfl | rfl | rfl
    · exact .quote
    · exact .backslash
    · exact .slash
  split at h
  · rename_i hc; subst hc; cases h; exact .backspace
  split at h
  · rename_i hc; subst hc; cases h; exact .formFeed
  split at h
  · rename_i hc; subst hc; cases h; exact .lineFeed
  split at h
  · rename_i hc; subst hc; cases h; exact .carriageReturn
  split at h
  · rename_i hc; subst hc; cases h; exact .tab
  · cases h

theorem hex_of_hexValue {c : UInt8} {d : Nat} (h : hexValue c = some d) : Rfc8259.Hex c d := by
  have hc : ∀ a ≤ c.toNat, UInt8.ofNat (a + (c.toNat - a)) = c := by
    intro a ha
    rw [Nat.add_sub_cancel' ha, UInt8.ofNat_toNat]
  unfold hexValue at h
  split at h
  · rename_i hdigit
    cases h
    simp only [UInt8.le_iff_toNat_le, UInt8.reduceToNat] at hdigit
    have hhex := Rfc8259.Hex.digit (n := c.toNat - 0x30) (by omega)
    rwa [hc _ hdigit.1] at hhex
  split at h
  · rename_i hlower
    cases h
    simp only [UInt8.le_iff_toNat_le, UInt8.reduceToNat] at hlower
    have hhex := Rfc8259.Hex.lower (n := c.toNat - 0x61) (by omega)
    rwa [hc _ hlower.1, Nat.add_comm] at hhex
  split at h
  · rename_i hupper
    cases h
    simp only [UInt8.le_iff_toNat_le, UInt8.reduceToNat] at hupper
    have hhex := Rfc8259.Hex.upper (n := c.toNat - 0x41) (by omega)
    rwa [hc _ hupper.1, Nat.add_comm] at hhex
  · cases h

/-- Each character of a hexadecimal number is a digit. -/
theorem hex_of_hexNumber {hs : Bytes} {cp n : Nat} (h : hexNumber hs cp = some n) :
    ∀ c ∈ hs, ∃ d, Rfc8259.Hex c d := by
  induction hs generalizing cp with
  | nil => simp
  | cons c hs ih =>
      rw [hexNumber] at h
      obtain ⟨d, hd, hrest⟩ := Option.bind_eq_some_iff.mp h
      exact List.forall_mem_cons.mpr ⟨⟨d, hex_of_hexValue hd⟩, ih hrest⟩

theorem Chars.rfc {s : Bytes} (h : Chars s t ls) (hfine : ∀ l ∈ ls, l.fine = true) :
    Rfc8259.Chars (anyMeaning F) s t := by
  induction h with
  | nil => exact .nil
  | raw hq hb _ ih =>
      obtain ⟨hc, hfine⟩ := List.forall_mem_cons.mp hfine
      exact .unescaped (of_decide_eq_true hc) hq hb (ih hfine)
  | escape hc _ ih => exact .escape (escape_of_unescape hc) (ih hfine)
  | unicode hl hcp _ ih =>
      obtain ⟨a, b, c, d, rfl⟩ := List.length_eq_four.mp hl
      have hhex := hex_of_hexNumber hcp
      simp only [List.forall_mem_cons] at hhex
      obtain ⟨⟨_, ha⟩, ⟨_, hb⟩, ⟨_, hc⟩, ⟨_, hd⟩, -⟩ := hhex
      exact .unicode ha hb hc hd trivial (ih hfine)

theorem NumberAt.rfc (hops : FromChars.ReadsFloats ops) {x : F} (h : NumberAt ops x t rest)
    (hfine : FromChars.isFine (t ++ rest) = true) : Rfc8259.Number t := by
  obtain ⟨t', ht', hlen⟩ := hops _ _ _ h.read
  obtain ⟨rest', hrest'⟩ := FromChars.floatPrefix_starts ht'
  obtain ⟨rfl, -⟩ := List.append_inj hrest' hlen.symm
  exact FromChars.number_of_isFine ht' hfine

/-- A text with white space on both sides of it. -/
def Padded (P : Bytes → Prop) (t : Bytes) : Prop :=
  ∃ w u w', t = w ++ (u ++ w') ∧ Rfc8259.WS w ∧ P u ∧ Rfc8259.WS w'

mutual

theorem Value.rfc (hops : FromChars.ReadsFloats ops) {j : Json F} {t rest : Bytes} {ls : List Lexeme}
    (h : Value ops j t rest ls) (hfine : ∀ l ∈ ls, l.fine = true) : Rfc8259.Value (anyMeaning F) j t := by
  match h with
  | .emptyObject hw => exact .emptyObject (Rfc8259.ws_iff.mp hw)
  | .object h =>
      obtain ⟨w, u, w', rfl, hw, hu, hw'⟩ := Members.rfc hops h hfine
      have hobject := Rfc8259.Value.object hw hu hw' (Rfc8259.lastWins_insertAll _)
      simpa only [List.append_assoc] using hobject
  | .emptyArray hw => exact .emptyArray (Rfc8259.ws_iff.mp hw)
  | .array h =>
      obtain ⟨w, u, w', rfl, hw, hu, hw'⟩ := Elements.rfc hops h hfine
      have harray := Rfc8259.Value.array hw hu hw'
      simpa only [List.append_assoc] using harray
  | .string h => exact .string (h.rfc hfine)
  | .number h => exact .number (h.rfc hops (hfine _ List.mem_cons_self)) trivial
  | .true => exact .true
  | .false => exact .false
  | .null => exact .null

theorem Element.rfc (hops : FromChars.ReadsFloats ops) {j : Json F} {t rest : Bytes} {ls : List Lexeme}
    (h : Element ops j t rest ls) (hfine : ∀ l ∈ ls, l.fine = true) :
    Padded (Rfc8259.Value (anyMeaning F) j) t := by
  match h with
  | .mk hw h hw' _ => exact ⟨_, _, _, rfl, Rfc8259.ws_iff.mp hw, Value.rfc hops h hfine, Rfc8259.ws_iff.mp hw'⟩

theorem Elements.rfc (hops : FromChars.ReadsFloats ops) {js : List (Json F)} {t rest : Bytes} {ls : List Lexeme}
    (h : Elements ops js t rest ls) (hfine : ∀ l ∈ ls, l.fine = true) :
    Padded (Rfc8259.Elements (anyMeaning F) js) t := by
  match h with
  | .one h =>
      obtain ⟨w, u, w', rfl, hw, hu, hw'⟩ := Element.rfc hops h hfine
      exact ⟨w, u, w', rfl, hw, .one hu, hw'⟩
  | .more h hs =>
      obtain ⟨hfine, hfines⟩ := List.forall_mem_append.mp hfine
      obtain ⟨w, u, w', rfl, hw, hu, hw'⟩ := Element.rfc hops h hfine
      obtain ⟨v, us, v', rfl, hv, hus, hv'⟩ := Elements.rfc hops hs hfines
      exact ⟨w, _, v', by simp, hw, .more hu hw' hv hus, hv'⟩

theorem Member.rfc (hops : FromChars.ReadsFloats ops) {m : Bytes × Json F} {t rest : Bytes} {ls : List Lexeme}
    (h : Member ops m t rest ls) (hfine : ∀ l ∈ ls, l.fine = true) :
    Padded (Rfc8259.Member (anyMeaning F) m) t := by
  match h with
  | .mk hw hk hw' h =>
      obtain ⟨hfinek, hfine⟩ := List.forall_mem_append.mp hfine
      obtain ⟨v, u, v', rfl, hv, hu, hv'⟩ := Element.rfc hops h hfine
      exact ⟨_, _, v', by simp, Rfc8259.ws_iff.mp hw, .mk (hk.rfc hfinek) (Rfc8259.ws_iff.mp hw') hv hu, hv'⟩

theorem Members.rfc (hops : FromChars.ReadsFloats ops) {ms : List (Bytes × Json F)} {t rest : Bytes}
    {ls : List Lexeme} (h : Members ops ms t rest ls) (hfine : ∀ l ∈ ls, l.fine = true) :
    Padded (Rfc8259.Members (anyMeaning F) ms) t := by
  match h with
  | .one h =>
      obtain ⟨w, u, w', rfl, hw, hu, hw'⟩ := Member.rfc hops h hfine
      exact ⟨w, u, w', rfl, hw, .one hu, hw'⟩
  | .more h hs =>
      obtain ⟨hfine, hfines⟩ := List.forall_mem_append.mp hfine
      obtain ⟨w, u, w', rfl, hw, hu, hw'⟩ := Member.rfc hops h hfine
      obtain ⟨v, us, v', rfl, hv, hus, hv'⟩ := Members.rfc hops hs hfines
      exact ⟨w, _, v', by simp, hw, .more hu hw' hv hus, hv'⟩

end

/-! ## What is read of a JSON text

A JSON text is read as it is meant: as far as it goes, and with lexemes that are fine. -/

theorem takeWhile_ws (hw : Rfc8259.WS w) (hr : NoSpace rest) : (w ++ rest).takeWhile isSpace = w := by
  rw [List.takeWhile_append_of_pos (Rfc8259.ws_iff.mpr hw)]
  cases rest with
  | nil => simp
  | cons c rest => simp [hr c rfl]

theorem ws_inj {a b : Bytes} (hv : Rfc8259.WS v) (hw : Rfc8259.WS w) (ha : NoSpace a) (hb : NoSpace b)
    (h : v ++ a = w ++ b) : v = w ∧ a = b := by
  have hvw : v = w := by rw [← takeWhile_ws hv ha, h, takeWhile_ws hw hb]
  subst hvw
  exact ⟨rfl, List.append_cancel_left h⟩

/-- The characters of a string are read up to the closing quote. -/
theorem chars_aligned {M : Rfc8259.Meaning F} {s s0 t0 a b : Bytes} (h0 : Rfc8259.Chars M s0 t0) (h : Chars s t ls)
    (heq : t ++ quote :: a = t0 ++ quote :: b) : t = t0 ∧ ∀ l ∈ ls, l.fine = true := by
  induction h0 generalizing s t ls with
  | nil =>
      cases h with
      | nil => simp
      | raw hq => exact absurd (List.cons.inj heq).1 hq
      | escape => exact absurd (List.cons.inj heq).1 (by decide)
      | unicode => exact absurd (List.cons.inj heq).1 (by decide)
  | unescaped hc hq hb _ ih =>
      cases h with
      | nil => exact absurd (List.cons.inj heq).1.symm hq
      | raw _ _ h =>
          obtain ⟨rfl, htail⟩ := List.cons.inj heq
          obtain ⟨rfl, hfine⟩ := ih h htail
          exact ⟨rfl, List.forall_mem_cons.mpr ⟨decide_eq_true hc, hfine⟩⟩
      | escape => exact absurd (List.cons.inj heq).1.symm hb
      | unicode => exact absurd (List.cons.inj heq).1.symm hb
  | escape hc _ ih =>
      cases h with
      | nil => exact absurd (List.cons.inj heq).1 (by decide)
      | raw _ hb => exact absurd (List.cons.inj heq).1 hb
      | escape _ h =>
          obtain ⟨-, heq⟩ := List.cons.inj heq
          obtain ⟨rfl, htail⟩ := List.cons.inj heq
          obtain ⟨rfl, hfine⟩ := ih h htail
          exact ⟨rfl, hfine⟩
      | unicode =>
          obtain ⟨-, heq⟩ := List.cons.inj heq
          obtain ⟨rfl, -⟩ := List.cons.inj heq
          cases hc
  | unicode _ _ _ _ _ _ ih =>
      cases h with
      | nil => exact absurd (List.cons.inj heq).1 (by decide)
      | raw _ hb => exact absurd (List.cons.inj heq).1 hb
      | escape hc =>
          obtain ⟨-, heq⟩ := List.cons.inj heq
          obtain ⟨rfl, -⟩ := List.cons.inj heq
          cases hc
      | unicode hl _ h =>
          obtain ⟨a, b, c, d, rfl⟩ := List.length_eq_four.mp hl
          simp only [List.cons_append, List.nil_append, List.cons.injEq, true_and] at heq
          obtain ⟨rfl, rfl, rfl, rfl, htail⟩ := heq
          obtain ⟨rfl, hfine⟩ := ih h htail
          exact ⟨rfl, hfine⟩

variable {j : Json F}

/-- Items are read with commas between them. -/
inductive Separated (reads : Bytes → Bytes → List Lexeme → Prop) : (t rest : Bytes) → List Lexeme → Prop
  | one {t rest : Bytes} {ls : List Lexeme} (h : reads t rest ls) : Separated reads t rest ls
  | more {t u rest : Bytes} {ls ls' : List Lexeme} (h : reads t (comma :: (u ++ rest)) ls)
      (hs : Separated reads u rest ls') : Separated reads (t ++ comma :: u) rest (ls ++ ls')

def ReadsElement (ops : FloatOps F) (t rest : Bytes) (ls : List Lexeme) : Prop := ∃ j, Element ops j t rest ls

def ReadsMember (ops : FloatOps F) (t rest : Bytes) (ls : List Lexeme) : Prop := ∃ m, Member ops m t rest ls

theorem Elements.separated {js : List (Json F)} {t rest : Bytes} {ls : List Lexeme} (h : Elements ops js t rest ls) :
    Separated (ReadsElement ops) t rest ls := by
  match h with
  | .one h => exact .one ⟨_, h⟩
  | .more h hs => exact .more ⟨_, h⟩ (Elements.separated hs)

theorem Members.separated {ms : List (Bytes × Json F)} {t rest : Bytes} {ls : List Lexeme}
    (h : Members ops ms t rest ls) : Separated (ReadsMember ops) t rest ls := by
  match h with
  | .one h => exact .one ⟨_, h⟩
  | .more h hs => exact .more ⟨_, h⟩ (Members.separated hs)

/-! The first character of a value says how it is read. -/

theorem NumberAt.head {x : F} {c : UInt8} (h : NumberAt ops x t rest) (hv : t ++ rest = c :: v) :
    c = minus ∨ isDigit c = true := by
  obtain ⟨d, u, rfl, hd⟩ := h.start
  cases hv
  exact hd

theorem Value.object_cases (h : Value ops j t rest ls) (hv : t ++ rest = leftBrace :: v) :
    ∃ u, t = leftBrace :: (u ++ [rightBrace]) ∧
      (WS u ∧ ls = [] ∨ Separated (ReadsMember ops) u (rightBrace :: rest) ls) := by
  cases h with
  | emptyObject hw => exact ⟨_, rfl, .inl ⟨hw, rfl⟩⟩
  | object h => exact ⟨_, rfl, .inr h.separated⟩
  | number h => exact absurd (h.head hv) (by decide)
  | emptyArray | array | string | true | false | null => exact absurd (List.cons.inj hv).1 (by decide)

theorem Value.array_cases (h : Value ops j t rest ls) (hv : t ++ rest = leftBracket :: v) :
    ∃ u, t = leftBracket :: (u ++ [rightBracket]) ∧
      (WS u ∧ ls = [] ∨ Separated (ReadsElement ops) u (rightBracket :: rest) ls) := by
  cases h with
  | emptyArray hw => exact ⟨_, rfl, .inl ⟨hw, rfl⟩⟩
  | array h => exact ⟨_, rfl, .inr h.separated⟩
  | number h => exact absurd (h.head hv) (by decide)
  | emptyObject | object | string | true | false | null => exact absurd (List.cons.inj hv).1 (by decide)

theorem Value.string_cases (h : Value ops j t rest ls) (hv : t ++ rest = quote :: v) :
    ∃ s u, t = quote :: (u ++ [quote]) ∧ Chars s u ls := by
  cases h with
  | string h => exact ⟨_, _, rfl, h⟩
  | number h => exact absurd (h.head hv) (by decide)
  | emptyObject | object | emptyArray | array | true | false | null =>
      exact absurd (List.cons.inj hv).1 (by decide)

theorem Value.number_cases {c : UInt8} (h : Value ops j t rest ls) (hv : t ++ rest = c :: v)
    (hc : c = minus ∨ isDigit c) : ∃ x, NumberAt ops x t rest ∧ ls = [.number (t ++ rest)] := by
  cases h with
  | number h => exact ⟨_, h, rfl⟩
  | emptyObject | object | emptyArray | array | string | true | false | null =>
      obtain ⟨rfl, -⟩ := List.cons.inj hv
      exact absurd hc (by decide)

theorem Value.literal_cases {l : Bytes} (hl : l = ascii "true" ∨ l = ascii "false" ∨ l = ascii "null")
    (h : Value ops j t rest ls) (hv : t ++ rest = l ++ v) : t = l ∧ ls = [] := by
  cases h with
  | true | false | null =>
      rcases hl with rfl | rfl | rfl <;> first
        | exact absurd (List.cons.inj hv).1 (by decide)
        | exact ⟨rfl, rfl⟩
  | number h => rcases hl with rfl | rfl | rfl <;> exact absurd (h.head hv) (by decide)
  | emptyObject | object | emptyArray | array | string =>
      rcases hl with rfl | rfl | rfl <;> exact absurd (List.cons.inj hv).1 (by decide)

/-! Items with commas between them. -/

/-- What is read is the text `t0` with the white space around it, if that is what stands in the input in front of
something that ends it. -/
def Aligned (stop : Bytes → Prop) (reads : Bytes → Bytes → List Lexeme → Prop) (t0 : Bytes) : Prop :=
  ∀ ⦃t rest ls w w' rest0⦄, reads t rest ls → Rfc8259.WS w → Rfc8259.WS w' → stop rest0 →
    t ++ rest = w ++ (t0 ++ (w' ++ rest0)) → t = w ++ (t0 ++ w') ∧ ∀ l ∈ ls, l.fine = true

inductive SeparatedText (P : Bytes → Prop) : Bytes → Prop
  | one {t : Bytes} (h : P t) : SeparatedText P t
  | more {t w w' u : Bytes} (h : P t) (hw : Rfc8259.WS w) (hw' : Rfc8259.WS w') (hs : SeparatedText P u) :
      SeparatedText P (t ++ (w ++ comma :: (w' ++ u)))

theorem SeparatedText.aligned {reads : Bytes → Bytes → List Lexeme → Prop} {close : UInt8} {t0 : Bytes}
    (hclose : close = rightBracket ∨ close = rightBrace) (h : SeparatedText (Aligned Stop reads) t0) :
    Aligned (·.head? = some close) (fun t rest ls => Separated reads t rest ls ∧ rest.head? = some close) t0 := by
  have hne : comma ≠ close := by rcases hclose with rfl | rfl <;> decide
  have hstop : ∀ {rest : Bytes}, rest.head? = some close → Stop rest := by
    intro rest hr c hc
    cases hr.symm.trans hc
    exact .inr hclose
  induction h with
  | one h =>
      intro t rest ls w w' rest0 hreads hw hw' hr0 heq
      obtain ⟨hs, -⟩ := hreads
      cases hs with
      | one hi => exact h hi hw hw' (hstop hr0) heq
      | more hi hs =>
          rw [List.append_assoc] at heq
          obtain ⟨rfl, -⟩ := h hi hw hw' (hstop hr0) heq
          simp only [List.append_assoc, List.append_cancel_left_eq] at heq
          rw [← heq] at hr0
          exact absurd (Option.some.inj hr0) hne
  | more h hv hv' _ ih =>
      intro t rest ls w w' rest0 hreads hw hw' hr0 heq
      obtain ⟨hs, hr⟩ := hreads
      have hcomma : ∀ {rest : Bytes}, Stop (comma :: rest) := stop_cons (.inl rfl)
      simp only [List.append_assoc, List.cons_append] at heq
      cases hs with
      | one hi =>
          obtain ⟨rfl, -⟩ := h hi hw hv hcomma heq
          simp only [List.append_assoc, List.append_cancel_left_eq] at heq
          rw [heq] at hr
          exact absurd (Option.some.inj hr) hne
      | more hi hs =>
          rw [List.append_assoc] at heq
          obtain ⟨rfl, hfine⟩ := h hi hw hv hcomma heq
          simp only [List.append_assoc, List.append_cancel_left_eq, List.cons_append, List.cons.injEq, true_and] at heq
          obtain ⟨rfl, hfines⟩ := ih ⟨hs, hr⟩ hv' hw' hr0 heq
          exact ⟨by simp, List.forall_mem_append.mpr ⟨hfine, hfines⟩⟩

/-! What stands between brackets is white space, or items with commas between them. -/

theorem Separated.starts {reads : Bytes → Bytes → List Lexeme → Prop} (h : Separated reads t rest ls)
    (hreads : ∀ ⦃t rest ls⦄, reads t rest ls → ∃ w c u, t = w ++ c :: u ∧ WS w ∧ Starts c) :
    ∃ w c u, t = w ++ c :: u ∧ WS w ∧ Starts c := by
  cases h with
  | one h => exact hreads h
  | more h =>
      obtain ⟨w, c, u, rfl, hw, hc⟩ := hreads h
      exact ⟨w, c, _, by rw [List.append_assoc]; rfl, hw, hc⟩

/-- Where one text goes on with a closing bracket and the other does not. -/
theorem close_ne_start {c close : UInt8} {a b : Bytes} (hclose : close = rightBracket ∨ close = rightBrace)
    (hc : Starts c) (hv : Rfc8259.WS v) (hw : Rfc8259.WS w) : v ++ close :: a ≠ w ++ c :: b := by
  intro heq
  have hspace : isSpace close = false := by rcases hclose with rfl | rfl <;> rfl
  obtain ⟨-, htail⟩ := ws_inj hv hw (noSpace_cons hspace) (noSpace_cons hc.1) heq
  obtain ⟨rfl, -⟩ := List.cons.inj htail
  rcases hclose with rfl | rfl
  · exact hc.2.1 rfl
  · exact hc.2.2 rfl

section Brackets

variable {reads : Bytes → Bytes → List Lexeme → Prop} {close : UInt8} {t0 rest0 w' : Bytes}

theorem empty_aligned (hclose : close = rightBracket ∨ close = rightBrace)
    (hreads : ∀ ⦃t rest ls⦄, reads t rest ls → ∃ w c u, t = w ++ c :: u ∧ WS w ∧ Starts c)
    (h : WS t ∧ ls = [] ∨ Separated reads t (close :: rest) ls) (hw : Rfc8259.WS w)
    (heq : t ++ close :: rest = w ++ close :: rest0) : t = w ∧ ∀ l ∈ ls, l.fine = true := by
  rcases h with ⟨ht, rfl⟩ | h
  · have hspace : isSpace close = false := by rcases hclose with rfl | rfl <;> rfl
    obtain ⟨rfl, -⟩ := ws_inj (Rfc8259.ws_iff.mp ht) hw (noSpace_cons hspace) (noSpace_cons hspace) heq
    exact ⟨rfl, by simp⟩
  · obtain ⟨v, c, u, rfl, hv, hc⟩ := h.starts hreads
    rw [List.append_assoc] at heq
    exact absurd heq.symm (close_ne_start hclose hc hw (Rfc8259.ws_iff.mp hv))

theorem items_aligned (hclose : close = rightBracket ∨ close = rightBrace)
    (h0 : SeparatedText (Aligned Stop reads) t0) (hstarts : ∃ c u, t0 = c :: u ∧ Starts c)
    (h : WS t ∧ ls = [] ∨ Separated reads t (close :: rest) ls) (hw : Rfc8259.WS w) (hw' : Rfc8259.WS w')
    (heq : t ++ close :: rest = w ++ (t0 ++ (w' ++ close :: rest0))) :
    t = w ++ (t0 ++ w') ∧ ∀ l ∈ ls, l.fine = true := by
  rcases h with ⟨ht, -⟩ | h
  · obtain ⟨c, u, rfl, hc⟩ := hstarts
    exact absurd heq (close_ne_start hclose hc (Rfc8259.ws_iff.mp ht) hw)
  · exact h0.aligned hclose ⟨h, rfl⟩ hw hw' rfl heq

end Brackets

/-! Values -/

/-- What is read is the text `t0` of a value. -/
def ValueAligned (ops : FloatOps F) (t0 : Bytes) : Prop :=
  ∀ ⦃j t rest ls rest0⦄, Value ops j t rest ls → Delim rest0 → t ++ rest = t0 ++ rest0 →
    t = t0 ∧ ∀ l ∈ ls, l.fine = true

variable {M : Rfc8259.Meaning F} {j0 : Json F} {t0 : Bytes}

theorem ValueAligned.number (hops : FromChars.ReadsFloats ops) (h0 : Rfc8259.Number t0) : ValueAligned ops t0 := by
  intro j t rest ls rest0 h hr0 heq
  obtain ⟨hread, hfine⟩ := FromChars.number_read h0 hr0
  rw [← heq] at hread hfine
  obtain ⟨c, u, rfl, hc⟩ := h0.start
  obtain ⟨x, hx, rfl⟩ := h.number_cases heq hc
  obtain ⟨t', ht', hlen⟩ := hops _ _ _ hx.read
  cases ht'.symm.trans hread
  obtain ⟨rfl, -⟩ := List.append_inj heq hlen
  exact ⟨rfl, List.forall_mem_singleton.mpr hfine⟩

theorem ValueAligned.string {s : Bytes} (h0 : Rfc8259.Chars M s t0) :
    ValueAligned ops (quote :: (t0 ++ [quote])) := by
  intro j t rest ls rest0 h hr0 heq
  obtain ⟨s, u, rfl, hu⟩ := h.string_cases heq
  simp only [List.cons_append, List.append_assoc, List.cons.injEq, true_and, List.nil_append] at heq
  obtain ⟨rfl, hfine⟩ := chars_aligned h0 hu heq
  exact ⟨rfl, hfine⟩

theorem ValueAligned.literal (hl : t0 = ascii "true" ∨ t0 = ascii "false" ∨ t0 = ascii "null") :
    ValueAligned ops t0 := by
  intro j t rest ls rest0 h hr0 heq
  obtain ⟨rfl, rfl⟩ := h.literal_cases hl heq
  exact ⟨rfl, by simp⟩

theorem ValueAligned.element (h0 : Rfc8259.Value M j0 t0) (h : ValueAligned ops t0) :
    Aligned Stop (ReadsElement ops) t0 := by
  intro t rest ls w w' rest0 hreads hw hw' hr0 heq
  obtain ⟨j, hv, hj, hv', hr⟩ := hreads
  have hspace : NoSpace (t0 ++ (w' ++ rest0)) := by
    obtain ⟨c, u, rfl, hc⟩ := h0.starts
    exact noSpace_cons hc.1
  simp only [List.append_assoc] at heq
  obtain ⟨rfl, hvalue⟩ := ws_inj (Rfc8259.ws_iff.mp hv) hw hj.noSpace hspace heq
  obtain ⟨rfl, hfine⟩ := h hj (delim_of_stop (Rfc8259.ws_iff.mpr hw') hr0) hvalue
  obtain ⟨rfl, -⟩ := ws_inj (Rfc8259.ws_iff.mp hv') hw' hr (noSpace_of_stop hr0) (List.append_cancel_left hvalue)
  exact ⟨rfl, hfine⟩

theorem ReadsElement.starts ⦃t rest : Bytes⦄ ⦃ls : List Lexeme⦄ (h : ReadsElement ops t rest ls) :
    ∃ w c u, t = w ++ c :: u ∧ WS w ∧ Starts c := by
  obtain ⟨j, h⟩ := h
  exact h.starts

theorem ReadsMember.starts ⦃t rest : Bytes⦄ ⦃ls : List Lexeme⦄ (h : ReadsMember ops t rest ls) :
    ∃ w c u, t = w ++ c :: u ∧ WS w ∧ Starts c := by
  obtain ⟨m, hw, -, -, -⟩ := h
  exact ⟨_, _, _, rfl, hw, rfl, by decide, by decide⟩

theorem ValueAligned.emptyObject (hw : Rfc8259.WS w) : ValueAligned ops (leftBrace :: (w ++ [rightBrace])) := by
  intro j t rest ls rest0 h hr0 heq
  obtain ⟨u, rfl, hu⟩ := h.object_cases heq
  simp only [List.cons_append, List.append_assoc, List.cons.injEq, true_and, List.nil_append] at heq
  obtain ⟨rfl, hfine⟩ := empty_aligned (.inr rfl) ReadsMember.starts hu hw heq
  exact ⟨rfl, hfine⟩

theorem ValueAligned.emptyArray (hw : Rfc8259.WS w) : ValueAligned ops (leftBracket :: (w ++ [rightBracket])) := by
  intro j t rest ls rest0 h hr0 heq
  obtain ⟨u, rfl, hu⟩ := h.array_cases heq
  simp only [List.cons_append, List.append_assoc, List.cons.injEq, true_and, List.nil_append] at heq
  obtain ⟨rfl, hfine⟩ := empty_aligned (.inl rfl) ReadsElement.starts hu hw heq
  exact ⟨rfl, hfine⟩

theorem ValueAligned.object {ms : List (Bytes × Json F)} {w' : Bytes} (h0 : Rfc8259.Members M ms t0)
    (hs : SeparatedText (Aligned Stop (ReadsMember ops)) t0) (hw : Rfc8259.WS w) (hw' : Rfc8259.WS w') :
    ValueAligned ops (leftBrace :: (w ++ (t0 ++ (w' ++ [rightBrace])))) := by
  intro j t rest ls rest0 h hr0 heq
  obtain ⟨u, rfl, hu⟩ := h.object_cases heq
  simp only [List.cons_append, List.append_assoc, List.cons.injEq, true_and, List.nil_append] at heq
  obtain ⟨rfl, hfine⟩ := items_aligned (.inr rfl) hs h0.starts hu hw hw' heq
  exact ⟨by simp, hfine⟩

theorem ValueAligned.array {js : List (Json F)} {w' : Bytes} (h0 : Rfc8259.Elements M js t0)
    (hs : SeparatedText (Aligned Stop (ReadsElement ops)) t0) (hw : Rfc8259.WS w) (hw' : Rfc8259.WS w') :
    ValueAligned ops (leftBracket :: (w ++ (t0 ++ (w' ++ [rightBracket])))) := by
  intro j t rest ls rest0 h hr0 heq
  obtain ⟨u, rfl, hu⟩ := h.array_cases heq
  simp only [List.cons_append, List.append_assoc, List.cons.injEq, true_and, List.nil_append] at heq
  obtain ⟨rfl, hfine⟩ := items_aligned (.inl rfl) hs h0.starts hu hw hw' heq
  exact ⟨by simp, hfine⟩

/-- A member is read as its name, a colon and its value. -/
theorem Aligned.member {name k v v' : Bytes} (hk0 : Rfc8259.Chars M name k) (hv : Rfc8259.WS v)
    (hv' : Rfc8259.WS v') (h0 : Aligned Stop (ReadsElement ops) t0) :
    Aligned Stop (ReadsMember ops) (quote :: (k ++ quote :: (v ++ colon :: (v' ++ t0)))) := by
  intro t rest ls w w' rest0 hreads hw hw' hr0 heq
  obtain ⟨m, hw0, hk, hw1, h⟩ := hreads
  simp only [List.append_assoc, List.cons_append, List.nil_append] at heq
  obtain ⟨rfl, hquote⟩ := ws_inj (Rfc8259.ws_iff.mp hw0) hw (noSpace_cons rfl) (noSpace_cons rfl) heq
  obtain ⟨rfl, hfine⟩ := chars_aligned hk0 hk (List.cons.inj hquote).2
  simp only [List.cons.injEq, true_and, List.append_cancel_left_eq] at hquote
  obtain ⟨rfl, hcolon⟩ := ws_inj (Rfc8259.ws_iff.mp hw1) hv (noSpace_cons rfl) (noSpace_cons rfl) hquote
  obtain ⟨rfl, hfines⟩ := h0 ⟨_, h⟩ hv' hw' hr0 (List.cons.inj hcolon).2
  exact ⟨by simp, List.forall_mem_append.mpr ⟨hfine, hfines⟩⟩

mutual

theorem value_aligned (hops : FromChars.ReadsFloats ops) {j0 : Json F} {t0 : Bytes} (h : Rfc8259.Value M j0 t0) :
    ValueAligned ops t0 := by
  match h with
  | .false => exact .literal (.inr (.inl rfl))
  | .null => exact .literal (.inr (.inr rfl))
  | .true => exact .literal (.inl rfl)
  | .emptyObject hw => exact .emptyObject hw
  | .object hw h hw' _ => exact .object h (members_aligned hops h) hw hw'
  | .emptyArray hw => exact .emptyArray hw
  | .array hw h hw' => exact .array h (elements_aligned hops h) hw hw'
  | .number h _ => exact .number hops h
  | .string h => exact .string h

theorem member_aligned (hops : FromChars.ReadsFloats ops) {m0 : Bytes × Json F} {t0 : Bytes}
    (h : Rfc8259.Member M m0 t0) : Aligned Stop (ReadsMember ops) t0 := by
  match h with
  | .mk hk hw hw' h => exact .member hk hw hw' ((value_aligned hops h).element h)

theorem members_aligned (hops : FromChars.ReadsFloats ops) {ms0 : List (Bytes × Json F)} {t0 : Bytes}
    (h : Rfc8259.Members M ms0 t0) : SeparatedText (Aligned Stop (ReadsMember ops)) t0 := by
  match h with
  | .one h => exact .one (member_aligned hops h)
  | .more h hw hw' hs => exact .more (member_aligned hops h) hw hw' (members_aligned hops hs)

theorem elements_aligned (hops : FromChars.ReadsFloats ops) {js0 : List (Json F)} {t0 : Bytes}
    (h : Rfc8259.Elements M js0 t0) : SeparatedText (Aligned Stop (ReadsElement ops)) t0 := by
  match h with
  | .one h => exact .one ((value_aligned hops h).element h)
  | .more h hw hw' hs => exact .more ((value_aligned hops h).element h) hw hw' (elements_aligned hops hs)

end

/-- Of a JSON text the whole is read. -/
theorem text_aligned (hops : FromChars.ReadsFloats ops) (h0 : Rfc8259.Text M j0 (t ++ rest))
    (h : Element ops j t rest ls) : rest = [] ∧ ∀ l ∈ ls, l.fine = true := by
  generalize hs : t ++ rest = s at h0
  obtain ⟨hw, h0, hw'⟩ := h0
  have hstop : Stop [] := by simp [Stop]
  obtain ⟨rfl, hfine⟩ := (value_aligned hops h0).element h0 ⟨j, h⟩ hw hw' hstop (by simpa using hs)
  exact ⟨by simpa using hs, hfine⟩

end Dwhbll.JsonReads
