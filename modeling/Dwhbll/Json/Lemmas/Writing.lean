import Dwhbll.Json.Grammar

/-!
# What is written is a text of the value
-/

namespace Dwhbll.Json

open Ascii JsonParser JsonText

variable {F : Type}

/-! ## Strings -/

theorem hexValue_hexDigit : ∀ n < 16, hexValue (hexDigit n) = some n := by decide

theorem utf8_toNat {c : UInt8} (hc : c < 0x20) : utf8 c.toNat = [c] := by
  have : c.toNat < 32 := hc
  rw [utf8, if_pos (by omega), UInt8.ofNat_toNat]

theorem hexNumber_toNat (c : UInt8) :
    hexNumber [zero, zero, hexDigit (c.toNat / 16), hexDigit (c.toNat % 16)] 0 = some c.toNat := by
  have hlt := c.toNat_lt
  have h1 := hexValue_hexDigit (c.toNat / 16) (by omega)
  have h2 := hexValue_hexDigit (c.toNat % 16) (by omega)
  have h0 : hexValue zero = some 0 := rfl
  simp only [hexNumber, h0, h1, h2, Option.bind_some, Option.some.injEq]
  omega

theorem chars_escapeChar {s t : Bytes} (c : UInt8) (h : Chars s t) : Chars (c :: s) (escapeChar c ++ t) := by
  unfold escapeChar
  split
  · subst c; exact .escape rfl h
  split
  · subst c; exact .escape rfl h
  split
  · subst c; exact .escape rfl h
  split
  · subst c; exact .escape rfl h
  split
  · subst c; exact .escape rfl h
  split
  · subst c; exact .escape rfl h
  split
  · subst c; exact .escape rfl h
  split
  · rename_i hc
    have hu := Chars.unicode rfl (hexNumber_toNat c) h
    rw [utf8_toNat hc] at hu
    exact hu
  · exact .raw ‹_› ‹_› h

theorem chars_escapeString (s : Bytes) : Chars s (escapeString s) := by
  induction s with
  | nil => exact .nil
  | cons c s ih => exact chars_escapeChar c ih

/-! ## Objects -/

theorem mapInsert_last {key : Bytes} {value : Json F} {ms : List (Bytes × Json F)}
    (h : ∀ m ∈ ms, m.1 < key) : mapInsert key value ms = ms ++ [(key, value)] := by
  induction ms with
  | nil => rfl
  | cons m ms ih =>
      obtain ⟨k, v⟩ := m
      have hk : k < key := h (k, v) List.mem_cons_self
      have hne : key ≠ k := by
        rintro rfl
        exact List.lt_irrefl _ hk
      rw [mapInsert, if_neg (List.lt_asymm hk), if_neg hne, ih fun m hm => h m (List.mem_cons_of_mem _ hm)]
      rfl

theorem insertAll_append {ms ms' : List (Bytes × Json F)} (h : (ms' ++ ms).Pairwise (·.1 < ·.1)) :
    insertAll ms ms' = ms' ++ ms := by
  induction ms generalizing ms' with
  | nil => rw [List.append_nil]; rfl
  | cons m ms ih =>
      have hm : ∀ m' ∈ ms', m'.1 < m.1 := fun m' hm' => (List.pairwise_append.mp h).2.2 m' hm' m List.mem_cons_self
      rw [insertAll, List.foldl_cons, mapInsert_last hm]
      rw [List.append_cons ms' m ms] at h ⊢
      exact ih h

theorem insertAll_nil {ms : List (Bytes × Json F)} (h : ms.Pairwise (·.1 < ·.1)) : insertAll ms [] = ms := by
  rw [← List.nil_append ms] at h
  exact insertAll_append h

/-! ## Layouts -/

theorem ws_spaces (n : Int) : WS (spaces n) := by
  intro c hc
  rw [(List.mem_replicate.mp hc).2]
  rfl

theorem ws_newline {w : Bytes} (hw : WS w) : WS (newline :: w) := by
  intro c hc
  cases hc with
  | head => rfl
  | tail _ hc => exact hw c hc

/-- A layout differs from the shortest one by white space only. -/
structure Layout.Blank (lay : Layout) : Prop where
  ind : WS lay.ind
  first : WS lay.first
  last : WS lay.last
  separator : ∃ w, WS w ∧ lay.separator = comma :: w
  afterKey : ∃ w, WS w ∧ lay.afterKey = colon :: w

theorem layout_blank (indentation cur inner : Int) : (layout indentation cur inner).Blank := by
  unfold layout
  split
  · exact {
      ind := ws_spaces _
      first := ws_newline ws_nil
      last := ws_newline (ws_spaces _)
      separator := ⟨_, ws_newline ws_nil, rfl⟩
      afterKey := ⟨_, ws_spaces 1, rfl⟩ }
  · exact {
      ind := ws_nil
      first := ws_nil
      last := ws_nil
      separator := ⟨_, ws_nil, rfl⟩
      afterKey := ⟨_, ws_nil, rfl⟩ }

/-- Behind `cur`, `d` more levels can be indented within an `int`. -/
def Fits (indentation cur : Int) (d : Nat) : Prop :=
  0 ≤ cur ∧ (0 ≤ indentation → cur + indentation * d < 2 ^ 31)

theorem Fits.mono {indentation cur : Int} {d d' : Nat} (h : Fits indentation cur d) (hd : d' ≤ d) :
    Fits indentation cur d' := by
  refine ⟨h.1, fun hi => ?_⟩
  have hle : indentation * d' ≤ indentation * d := Int.mul_le_mul_of_nonneg_left (by omega) hi
  have := h.2 hi
  omega

theorem Fits.inner {indentation cur : Int} {d : Nat} (h : Fits indentation cur (d + 1)) :
    ∃ inner, innerIndentation indentation cur = some inner ∧ Fits indentation inner d := by
  obtain ⟨hcur, h⟩ := h
  by_cases hi : 0 ≤ indentation
  · have hlt := h hi
    have hpos : 0 ≤ indentation * d := Int.mul_nonneg hi (Int.natCast_nonneg d)
    have hsucc : indentation * ((d + 1 : Nat) : Int) = indentation * d + indentation := by
      rw [Int.natCast_add, Int.mul_add, Int.natCast_one, Int.mul_one]
    refine ⟨cur + indentation, ?_, by omega, fun _ => by omega⟩
    rw [innerIndentation, if_pos hi, addInt, if_pos (by omega)]
  · exact ⟨cur, by rw [innerIndentation, if_neg hi], hcur, fun h => absurd h hi⟩

/-! ## Values -/

section

variable {ops : FloatOps F} {lay : Layout} {j : Json F} {w w' t : Bytes}

theorem element_of_text (hb : lay.Blank) (hv : Value ops j t) (hw : WS w) (hw' : WS w') :
    Element ops j (w ++ (lay.ind ++ (t ++ w'))) := by
  have he := Element.mk (ws_append hw hb.ind) hv hw'
  rw [List.append_assoc] at he
  exact he

theorem member_of_text (hb : lay.Blank) (key : Bytes) (hv : Value ops j t) (hw : WS w) (hw' : WS w') :
    Member ops (key, j) (w ++ (lay.ind ++ (quoted key ++ (lay.afterKey ++ (t ++ w'))))) := by
  obtain ⟨a, ha, hkey⟩ := hb.afterKey
  have hm := Member.mk (ws_append hw hb.ind) (chars_escapeString key) ws_nil (Element.mk ha hv hw')
  rw [List.append_assoc] at hm
  rw [hkey]
  exact hm

mutual

theorem formatInternal_value {indentation : Int} (hops : ReadsBack ops) : (j : Json F) → {cur : Int} →
    j.Forall SortedKeys → j.Forall (FiniteNumber ops) → Fits indentation cur j.depth →
    ∃ t, formatInternal ops indentation j cur = some t ∧ Value ops j t
  | .object members, cur, hs, hf, hr => by
      obtain ⟨inner, hi, hr⟩ := Fits.inner hr
      have hb := layout_blank indentation cur inner
      obtain ⟨body, hbody, hm⟩ := formatMembers_members hops hb members hs.2 hf.2 hr
      by_cases he : members = []
      · subst he
        exact ⟨_, by simp [formatInternal, hi, hbody], .emptyObject ws_nil⟩
      · have hv := Value.object (hm he _ hb.first)
        rw [insertAll_nil hs.1] at hv
        exact ⟨_, by simp [formatInternal, hi, hbody, he], hv⟩
  | .array elements, cur, hs, hf, hr => by
      obtain ⟨inner, hi, hr⟩ := Fits.inner hr
      have hb := layout_blank indentation cur inner
      obtain ⟨body, hbody, hm⟩ := formatElements_elements hops hb elements hs.2 hf.2 hr
      by_cases he : elements = []
      · subst he
        exact ⟨_, by simp [formatInternal, hi, hbody], .emptyArray ws_nil⟩
      · exact ⟨_, by simp [formatInternal, hi, hbody, he], .array (hm he _ hb.first)⟩
  | .null, _, _, _, _ => ⟨_, by rw [formatInternal], .null⟩
  | .string s, _, _, _, _ => ⟨_, by rw [formatInternal, quoted], .string (chars_escapeString s)⟩
  | .number x, _, _, hf, _ => by
      refine ⟨_, by rw [formatInternal], ?_⟩
      have hx : FiniteNumber ops (.number x) := hf
      rw [hx.1, hx.2]
      exact .number (hops x hx.1 hx.2)
  | .bool b, _, _, _, _ => by
      refine ⟨_, by rw [formatInternal], ?_⟩
      cases b with
      | false => exact .false
      | true => exact .true

theorem formatMembers_members {indentation : Int} (hops : ReadsBack ops) {lay : Layout} (hb : lay.Blank) :
    (members : List (Bytes × Json F)) → {inner : Int} →
    ForallMembers SortedKeys members → ForallMembers (FiniteNumber ops) members →
    Fits indentation inner (depthMembers members) →
    ∃ body, formatMembers ops indentation lay inner members = some body ∧
      (members ≠ [] → ∀ w, WS w → Members ops members (w ++ (body ++ lay.last)))
  | [], _, _, _, _ => ⟨[], by rw [formatMembers], fun h => absurd rfl h⟩
  | (key, value) :: members, inner, hs, hf, hr => by
      obtain ⟨text, ht, hv⟩ := formatInternal_value hops value hs.1 hf.1 (hr.mono (Nat.le_max_left ..))
      obtain ⟨body, hbody, hm⟩ := formatMembers_members hops hb members hs.2 hf.2 (hr.mono (Nat.le_max_right ..))
      by_cases he : members = []
      · subst he
        refine ⟨_, by simp only [formatMembers, ht]; rfl, fun _ w hw => ?_⟩
        have hone := Members.one (member_of_text hb key hv hw hb.last)
        simpa using hone
      · obtain ⟨s, hs, hsep⟩ := hb.separator
        refine ⟨_, by simp [formatMembers, ht, hbody, he]; rfl, fun _ w hw => ?_⟩
        have hmore := Members.more (member_of_text hb key hv hw ws_nil) (hm he s hs)
        simpa [hsep] using hmore

theorem formatElements_elements {indentation : Int} (hops : ReadsBack ops) {lay : Layout} (hb : lay.Blank) :
    (elements : List (Json F)) → {inner : Int} →
    ForallElements SortedKeys elements → ForallElements (FiniteNumber ops) elements →
    Fits indentation inner (depthElements elements) →
    ∃ body, formatElements ops indentation lay inner elements = some body ∧
      (elements ≠ [] → ∀ w, WS w → Elements ops elements (w ++ (body ++ lay.last)))
  | [], _, _, _, _ => ⟨[], by rw [formatElements], fun h => absurd rfl h⟩
  | element :: elements, inner, hs, hf, hr => by
      obtain ⟨text, ht, hv⟩ := formatInternal_value hops element hs.1 hf.1 (hr.mono (Nat.le_max_left ..))
      obtain ⟨body, hbody, hm⟩ := formatElements_elements hops hb elements hs.2 hf.2 (hr.mono (Nat.le_max_right ..))
      by_cases he : elements = []
      · subst he
        refine ⟨_, by simp only [formatElements, ht]; rfl, fun _ w hw => ?_⟩
        have hone := Elements.one (element_of_text hb hv hw hb.last)
        simpa using hone
      · obtain ⟨s, hs, hsep⟩ := hb.separator
        refine ⟨_, by simp [formatElements, ht, hbody, he]; rfl, fun _ w hw => ?_⟩
        have hmore := Elements.more (element_of_text hb hv hw ws_nil) (hm he s hs)
        simpa [hsep] using hmore

end

end

end Dwhbll.Json
