import Dwhbll.Json.FromChars
import Dwhbll.Json.Reads

/-!
# The parser reads exactly these texts
-/

namespace Dwhbll.JsonReads

open Ascii JsonParser JsonText

variable {F : Type} {ops : FloatOps F} {data t u w rest : Bytes} {j : Json F} {ls : List Lexeme} {fuel i k : Nat}

/-! ## The parser reads them -/

theorem Chars.text {s : Bytes} (h : Chars s t ls) : JsonText.Chars s t := by
  induction h with
  | nil => exact .nil
  | raw hq hb _ ih => exact .raw hq hb ih
  | escape hc _ ih => exact .escape hc ih
  | unicode hl hcp _ ih => exact .unicode hl hcp ih

theorem Value.starts (h : Value ops j t rest ls) : ∃ c u, t = c :: u ∧ Starts c := by
  cases h with
  | number h =>
      obtain ⟨c, u, rfl, hc⟩ := h.start
      exact ⟨c, u, rfl, starts_of_number hc⟩
  | emptyObject | object | emptyArray | array | string | true | false | null =>
      exact ⟨_, _, rfl, rfl, by decide, by decide⟩

theorem Value.noSpace (h : Value ops j t rest ls) : NoSpace (t ++ u) := by
  obtain ⟨c, u, rfl, hc⟩ := h.starts
  exact noSpace_cons hc.1

theorem Element.starts (h : Element ops j t rest ls) : ∃ w c u, t = w ++ c :: u ∧ WS w ∧ Starts c := by
  obtain ⟨hw, hv, -, -⟩ := h
  obtain ⟨c, u, rfl, hc⟩ := hv.starts
  exact ⟨_, c, _, rfl, hw, hc⟩

theorem Elements.starts {js : List (Json F)} (h : Elements ops js t rest ls) :
    ∃ w c u, t = w ++ c :: u ∧ WS w ∧ Starts c := by
  cases h with
  | one h => exact h.starts
  | more h =>
      obtain ⟨w, c, u, rfl, hw, hc⟩ := h.starts
      exact ⟨w, c, _, by rw [List.append_assoc]; rfl, hw, hc⟩

theorem Members.starts {ms : List (Bytes × Json F)} (h : Members ops ms t rest ls) :
    ∃ w u, t = w ++ quote :: u ∧ WS w := by
  cases h with
  | one h =>
      obtain ⟨hw, -, -, -⟩ := h
      exact ⟨_, _, rfl, hw⟩
  | more h =>
      obtain ⟨hw, -, -, -⟩ := h
      exact ⟨_, _, by rw [List.append_assoc]; rfl, hw⟩

theorem Yields.numberAt {e : Parser (Json F)} {x : F} (h : NumberAt ops x t rest) :
    Yields data (value data e ops fuel) t rest (.number x) := by
  obtain ⟨c, u, rfl, hc⟩ := h.start
  have hne : c ≠ leftBrace ∧ c ≠ leftBracket ∧ c ≠ quote := by
    refine ⟨?_, ?_, ?_⟩ <;> (rintro rfl; exact absurd hc (by decide))
  refine Yields.peek rfl ?_
  rw [if_neg hne.1, if_neg hne.2.1, if_neg hne.2.2, if_pos hc]
  refine Yields.andThen (fun i hi => ?_) (Yields.pure _)
  have hz : ¬(data[i]? = some zero ∧ data[i + 1]?.any isDigit = true) := by
    rintro ⟨h0, h1⟩
    obtain ⟨d, hd, hdigit⟩ := (Option.any_eq_true ..).mp h1
    obtain ⟨hi0, h0⟩ := List.getElem?_eq_some_iff.mp h0
    obtain ⟨hi1, hd⟩ := List.getElem?_eq_some_iff.mp hd
    have hdrop : c :: u ++ rest = zero :: d :: data.drop (i + 2) := by
      rw [← hi, List.drop_eq_getElem_cons hi0, List.drop_eq_getElem_cons hi1, h0, hd]
    rw [h.no_leading_zero d _ hdrop] at hdigit
    cases hdigit
  rw [number, hi, h.read]
  simp only [hz, if_false]

mutual

theorem Value.yields {j : Json F} {t rest : Bytes} {ls : List Lexeme} {fuel : Nat} (h : Value ops j t rest ls)
    (hf : t.length ≤ fuel) : Yields data (value data (element data ops fuel) ops fuel) t rest j := by
  match h with
  | .emptyObject hw =>
      refine Yields.peek rfl ?_
      rw [if_pos rfl]
      exact (Yields.emptyObject hw).andThen (Yields.pure _)
  | .object (t := t) h =>
      obtain ⟨w, u, ht, hw⟩ := h.starts
      have hlt : t.length < fuel := by
        simp only [List.length_cons, List.length_append, List.length_nil] at hf
        omega
      refine Yields.peek rfl ?_
      rw [if_pos rfl]
      exact (Yields.object ht hw (Members.yields h rfl hlt hlt)).andThen (Yields.pure _)
  | .emptyArray hw =>
      refine Yields.peek rfl ?_
      rw [if_neg (by decide), if_pos rfl]
      exact (Yields.emptyArray hw).andThen (Yields.pure _)
  | .array (t := t) h =>
      obtain ⟨w, c, u, ht, hw, hc⟩ := h.starts
      have hlt : t.length < fuel := by
        simp only [List.length_cons, List.length_append, List.length_nil] at hf
        omega
      refine Yields.peek rfl ?_
      rw [if_neg (by decide), if_pos rfl]
      have harray := Yields.array (SkipsSpace.element ops fuel) ht hw hc (Elements.yields h rfl hlt hlt)
      exact harray.andThen (Yields.pure _)
  | .string h =>
      refine Yields.peek rfl ?_
      rw [if_neg (by decide), if_neg (by decide), if_pos rfl]
      exact (Yields.string h.text).andThen (Yields.pure _)
  | .number h => exact Yields.numberAt h
  | .true => exact Yields.peek rfl (Yields.matchText.andThen (Yields.pure _))
  | .false => exact Yields.peek rfl (Yields.matchText.andThen (Yields.pure _))
  | .null => exact Yields.peek rfl (Yields.matchText.andThen (Yields.pure _))

theorem Element.yields {j : Json F} {t rest : Bytes} {ls : List Lexeme} {fuel : Nat} (h : Element ops j t rest ls)
    (hf : t.length < fuel) : Yields data (element data ops fuel) t rest j := by
  match h, fuel with
  | .mk (t := t) hw hv hw' hr, fuel + 1 =>
      have hle : t.length ≤ fuel := by
        simp only [List.length_append] at hf
        omega
      refine (Yields.ws hw ?_).bind ((Value.yields hv hle).bind ((Yields.ws hw' hr).andThen (Yields.pure _)))
      rw [List.append_assoc]
      exact hv.noSpace

theorem Elements.yields {js js' : List (Json F)} {t rest rest' : Bytes} {ls : List Lexeme} {fuel n : Nat}
    (h : Elements ops js t rest' ls) (hr : rest' = rightBracket :: rest) (hf : t.length < fuel)
    (hn : t.length < n) :
    Yields data (arrayLoop data (element data ops fuel) n js') t rest' (js' ++ js) := by
  match h, n with
  | .one h, n + 1 =>
      have he := Element.yields h hf
      subst hr
      exact he.arrayLoop_last
  | @Elements.more _ _ j js t u _ _ _ h hs, n + 1 =>
      simp only [List.length_append, List.length_cons] at hf hn
      have hu : u.length < fuel := by omega
      have hn : u.length < n := by omega
      refine (Element.yields h (by omega)).arrayLoop_more ?_
      rw [List.append_cons js' j js]
      exact Elements.yields hs hr hu hn

theorem Member.yields {m : Bytes × Json F} {t rest : Bytes} {ls : List Lexeme} {fuel : Nat}
    (h : Member ops m t rest ls) (hf : t.length < fuel) :
    Yields data (member data (element data ops fuel)) t rest m := by
  match h with
  | .mk hw hk hw' h =>
      simp only [List.length_append, List.length_cons] at hf
      exact Yields.member_of hw hk.text hw' (Element.yields h (by omega))

theorem Members.yields {ms ms' : List (Bytes × Json F)} {t rest rest' : Bytes} {ls : List Lexeme} {fuel n : Nat}
    (h : Members ops ms t rest' ls) (hr : rest' = rightBrace :: rest) (hf : t.length < fuel) (hn : t.length < n) :
    Yields data (objectLoop data (element data ops fuel) n ms') t rest' (insertAll ms ms') := by
  match h, n with
  | .one h, n + 1 =>
      have hm := Member.yields h hf
      subst hr
      exact hm.objectLoop_last
  | .more (t := t) (u := u) h hs, n + 1 =>
      simp only [List.length_append, List.length_cons] at hf hn
      have hu : u.length < fuel := by omega
      have hn : u.length < n := by omega
      exact (Member.yields h (by omega)).objectLoop_more (Members.yields hs hr hu hn)

end

/-! ## The parser reads no others

What a call that succeeds has taken from the input is the difference between the inputs that are left before and
after it. -/

theorem drop_of_getElem? {c : UInt8} (h : data[i]? = some c) : data.drop i = c :: data.drop (i + 1) := by
  obtain ⟨hlt, rfl⟩ := List.getElem?_eq_some_iff.mp h
  exact List.drop_eq_getElem_cons hlt

theorem consume_taken {c : UInt8} (h : consume data i = .ok (c, k)) : data.drop i = c :: data.drop k := by
  obtain ⟨hc, rfl⟩ := consume_eq_ok h
  exact drop_of_getElem? hc

theorem peek_taken {c : UInt8} (h : peek data i = .ok (c, k)) : k = i ∧ data.drop i = c :: data.drop (i + 1) := by
  obtain ⟨hc, rfl⟩ := peek_eq_ok h
  exact ⟨rfl, drop_of_getElem? hc⟩

theorem matchChar_taken {c : UInt8} {x : Unit} (h : matchChar data c i = .ok (x, k)) :
    data.drop i = c :: data.drop k := by
  obtain ⟨d, l, h1, h2⟩ := Parser.bind_eq_ok h
  split at h2
  · cases h2
  · rename_i hd
    cases h2
    rw [consume_taken h1, Classical.not_not.mp hd]

theorem matchText_taken {x : Unit} (h : matchText data t i = .ok (x, k)) : data.drop i = t ++ data.drop k := by
  induction t generalizing i with
  | nil => cases h; rfl
  | cons c t ih =>
      obtain ⟨_, l, h1, h2⟩ := Parser.bind_eq_ok h
      rw [matchChar_taken h1, ih h2]
      rfl

theorem skipSpace_taken (data : Bytes) (i : Nat) :
    ∃ w, data.drop i = w ++ data.drop (skipSpace data i) ∧ WS w ∧ NoSpace (data.drop (skipSpace data i)) := by
  fun_induction skipSpace data i with
  | case1 i h =>
      refine ⟨[], rfl, ws_nil, ?_⟩
      rw [List.drop_eq_nil_of_le (List.getElem?_eq_none_iff.mp h)]
      intro c hc
      cases hc
  | case2 i c h hc ih =>
      obtain ⟨w, hw, hws, hr⟩ := ih
      refine ⟨c :: w, ?_, List.forall_mem_cons.mpr ⟨hc, hws⟩, hr⟩
      rw [drop_of_getElem? h, hw]
      rfl
  | case3 i c h hc =>
      refine ⟨[], rfl, ws_nil, ?_⟩
      rw [drop_of_getElem? h]
      rintro d hd
      cases hd
      exact Bool.eq_false_iff.mpr hc

theorem ws_taken {x : Unit} (h : ws data i = .ok (x, k)) :
    ∃ w, data.drop i = w ++ data.drop k ∧ WS w ∧ NoSpace (data.drop k) := by
  cases h
  exact skipSpace_taken data i

/-! ## Strings -/

theorem codePoint_taken {n cp v : Nat} (h : codePoint data n cp i = .ok (v, k)) :
    ∃ hs, hs.length = n ∧ hexNumber hs cp = some v ∧ data.drop i = hs ++ data.drop k := by
  induction n generalizing cp i with
  | zero =>
      cases h
      exact ⟨[], rfl, rfl, rfl⟩
  | succ n ih =>
      obtain ⟨c, l, h1, h2⟩ := Parser.bind_eq_ok h
      cases hd : hexValue c with
      | none => rw [hd] at h2; cases h2
      | some d =>
          simp only [hd] at h2
          obtain ⟨hs, hlen, hnum, hdrop⟩ := ih h2
          have hcp : cp <<< 4 ||| d = 16 * cp + d := by
            rw [← Nat.shiftLeft_add_eq_or_of_lt (hexValue_lt hd), Nat.shiftLeft_eq, Nat.mul_comm]
          refine ⟨c :: hs, by rw [List.length_cons, hlen], ?_, by rw [consume_taken h1, hdrop]; rfl⟩
          rw [hexNumber, hd, Option.bind_some, ← hcp]
          exact hnum

/-- A character of a string, however it is written. -/
theorem stringChar_taken {c : UInt8} {bs s : Bytes} (hq : c ≠ quote) (hc : data[i]? = some c)
    (h : stringChar data c i = .ok (bs, k)) {ls : List Lexeme} (hs : Chars s t ls) :
    ∃ u ls', data.drop i = u ++ data.drop k ∧ Chars (bs ++ s) (u ++ t) ls' := by
  obtain ⟨c', l, h1, h2⟩ := Parser.bind_eq_ok h
  obtain ⟨-, rfl⟩ := consume_eq_ok h1
  have hdrop := drop_of_getElem? hc
  by_cases hb : c = backslash
  · subst hb
    rw [if_pos rfl] at h2
    obtain ⟨d, l, h3, h4⟩ := Parser.bind_eq_ok h2
    obtain ⟨d', l', h5, h6⟩ := Parser.bind_eq_ok h4
    obtain ⟨rfl, hd⟩ := peek_taken h3
    obtain ⟨-, rfl⟩ := consume_eq_ok h5
    cases hu : unescape d with
    | some b =>
        rw [hu] at h6
        cases h6
        exact ⟨[backslash, d], ls, by rw [hdrop, hd]; rfl, .escape hu hs⟩
    | none =>
        simp only [hu] at h6
        by_cases h75 : d = 0x75
        · subst h75
          rw [if_pos rfl] at h6
          obtain ⟨cp, m, h7, h8⟩ := Parser.bind_eq_ok h6
          cases h8
          obtain ⟨hs', hlen, hnum, hdigits⟩ := codePoint_taken h7
          refine ⟨backslash :: 0x75 :: hs', ls, ?_, .unicode hlen hnum hs⟩
          rw [hdrop, hd, hdigits]
          rfl
        · rw [if_neg h75] at h6
          cases h6
  · rw [if_neg hb] at h2
    cases h2
    exact ⟨[c], _, hdrop, .raw hq hb hs⟩

theorem stringLoop_taken {s s' : Bytes} (h : stringLoop data s i = .ok (s', k)) :
    ∃ s0 t ls, s' = s ++ s0 ∧ data.drop i = t ++ data.drop k ∧ Chars s0 t ls := by
  fun_induction stringLoop data s i with
  | case1 => cases h
  | case2 =>
      cases h
      exact ⟨[], [], [], (List.append_nil _).symm, rfl, .nil⟩
  | case3 => cases h
  | case4 s i c hc hq bs l hchar ih =>
      obtain ⟨s0, t, ls, rfl, hdrop, hchars⟩ := ih h
      obtain ⟨u, ls', hu, hchars'⟩ := stringChar_taken hq hc hchar hchars
      exact ⟨bs ++ s0, u ++ t, ls', List.append_assoc .., by rw [hu, hdrop, List.append_assoc], hchars'⟩

theorem string_taken {s : Bytes} (h : string data i = .ok (s, k)) :
    ∃ t ls, data.drop i = quote :: (t ++ [quote]) ++ data.drop k ∧ Chars s t ls := by
  obtain ⟨_, l, h1, h2⟩ := Parser.bind_eq_ok h
  obtain ⟨s', l', h3, h4⟩ := Parser.bind_eq_ok h2
  obtain ⟨_, l'', h5, h6⟩ := Parser.bind_eq_ok h4
  cases h6
  obtain ⟨s0, t, ls, rfl, hdrop, hchars⟩ := stringLoop_taken h3
  refine ⟨t, ls, ?_, hchars⟩
  rw [matchChar_taken h1, hdrop, matchChar_taken h5]
  simp

/-! ## Numbers -/

theorem number_taken (hops : FromChars.ReadsFloats ops) {c : UInt8} {x : F} (hc : data[i]? = some c)
    (hstart : c = minus ∨ isDigit c = true) (h : number data ops i = .ok (x, k)) :
    ∃ t, data.drop i = t ++ data.drop k ∧ NumberAt ops x t (data.drop k) := by
  unfold number at h
  split at h
  · cases h
  · rename_i y n hread
    split at h
    · cases h
    · rename_i hzero
      cases h
      obtain ⟨t, ht, rfl⟩ := hops _ _ _ hread
      obtain ⟨rest, hrest⟩ := FromChars.floatPrefix_starts ht
      have hdrop : data.drop i = t ++ data.drop (i + t.length) := by
        rw [← List.drop_drop, ← hrest, List.drop_left]
      rw [drop_of_getElem? hc] at ht
      obtain ⟨u, rfl⟩ := FromChars.floatPrefix_cons hstart ht
      refine ⟨_, hdrop, ⟨c, u, rfl, hstart⟩, ?_, hdrop ▸ hread⟩
      intro d v hv
      rw [← hdrop] at hv
      refine Bool.eq_false_iff.mpr fun hd => hzero ⟨Lists.getElem?_of_drop hv, ?_⟩
      rw [Lists.getElem?_of_drop (Lists.drop_succ_of_drop hv)]
      exact hd

/-! ## Arrays and objects -/

/-- The call reads an element, with the white space around it. -/
def Sound (ops : FloatOps F) (data : Bytes) (e : Parser (Json F)) : Prop :=
  ∀ i j k, e i = .ok (j, k) → ∃ t ls, data.drop i = t ++ data.drop k ∧ Element ops j t (data.drop k) ls

variable {e : Parser (Json F)}

theorem Element.ws_append (h : Element ops j t rest ls) (hw : WS w) : Element ops j (w ++ t) rest ls := by
  obtain @⟨_, w0, t, w', _, _, hw0, hv, hw', hr⟩ := h
  rw [← List.append_assoc]
  exact .mk (ws_append hw hw0) hv hw' hr

theorem Elements.ws_append {js : List (Json F)} (h : Elements ops js t rest ls) (hw : WS w) :
    Elements ops js (w ++ t) rest ls := by
  cases h with
  | one h => exact .one (h.ws_append hw)
  | more h hs =>
      rw [← List.append_assoc]
      exact .more (h.ws_append hw) hs

theorem Member.ws_append {m : Bytes × Json F} (h : Member ops m t rest ls) (hw : WS w) :
    Member ops m (w ++ t) rest ls := by
  obtain ⟨hw0, hk, hw', h⟩ := h
  rw [← List.append_assoc]
  exact .mk (ws_append hw hw0) hk hw' h

theorem Members.ws_append {ms : List (Bytes × Json F)} (h : Members ops ms t rest ls) (hw : WS w) :
    Members ops ms (w ++ t) rest ls := by
  cases h with
  | one h => exact .one (h.ws_append hw)
  | more h hs =>
      rw [← List.append_assoc]
      exact .more (h.ws_append hw) hs

/-- Behind an element there is no white space left to skip. -/
theorem ws_of_noSpace {x : Unit} (h : ws data i = .ok (x, k)) (hr : NoSpace (data.drop i)) : k = i := by
  cases h
  cases hi : data[i]? with
  | none => exact skipSpace_of_none hi
  | some c =>
      have hc := hr c (by rw [drop_of_getElem? hi]; rfl)
      rw [skipSpace_of_some hi, hc]
      rfl

theorem Element.noSpace (h : Element ops j t rest ls) : NoSpace rest := by
  obtain ⟨-, -, -, hr⟩ := h
  exact hr

theorem arrayLoop_taken (he : Sound ops data e) {n : Nat} {js js' : List (Json F)}
    (h : arrayLoop data e n js i = .ok (js', k)) :
    ∃ js0 t ls, js' = js ++ js0 ∧ data.drop i = t ++ data.drop k ∧ Elements ops js0 t (data.drop k) ls := by
  induction n generalizing js i with
  | zero => cases h
  | succ n ih =>
      obtain ⟨j, l, h1, h2⟩ := Parser.bind_eq_ok h
      obtain ⟨_, l1, h3, h4⟩ := Parser.bind_eq_ok h2
      obtain ⟨c, l2, h5, h6⟩ := Parser.bind_eq_ok h4
      obtain ⟨t, ls, hdrop, helement⟩ := he _ _ _ h1
      obtain rfl := ws_of_noSpace h3 helement.noSpace
      obtain ⟨rfl, -⟩ := peek_taken h5
      split at h6
      · cases h6
        exact ⟨[j], t, ls, rfl, hdrop, .one helement⟩
      · obtain ⟨_, l3, h7, h8⟩ := Parser.bind_eq_ok h6
        obtain ⟨js0, u, ls', rfl, hdrop', helements⟩ := ih h8
        have hcomma := matchChar_taken h7
        rw [hdrop'] at hcomma
        refine ⟨j :: js0, t ++ comma :: u, ls ++ ls', by simp, ?_, .more (hcomma ▸ helement) helements⟩
        rw [hdrop, hcomma]
        simp

/-- What `array` and `object` have in common: white space behind the opening bracket, and then either the closing one
or the elements in front of it. -/
theorem bracketed_taken {α : Type} {opening closing : UInt8} {elements : Parser (List α)} {xs : List α}
    (h : (do
      matchChar data opening
      ws data
      let c ← peek data
      if c = closing then
        matchChar data closing
        return []
      else
        let xs ← elements
        matchChar data closing
        return xs : Parser (List α)) i = .ok (xs, k)) :
    ∃ w, WS w ∧
      (xs = [] ∧ data.drop i = opening :: (w ++ closing :: data.drop k) ∨
        ∃ l m, elements l = .ok (xs, m) ∧ data.drop i = opening :: (w ++ data.drop l) ∧
          data.drop m = closing :: data.drop k) := by
  obtain ⟨_, l1, h1, h2⟩ := Parser.bind_eq_ok h
  obtain ⟨_, l2, h3, h4⟩ := Parser.bind_eq_ok h2
  obtain ⟨c, l3, h5, h6⟩ := Parser.bind_eq_ok h4
  obtain ⟨w, hw, hws, -⟩ := ws_taken h3
  obtain ⟨rfl, -⟩ := peek_taken h5
  have hopen := matchChar_taken h1
  rw [hw] at hopen
  refine ⟨w, hws, ?_⟩
  split at h6
  · obtain ⟨_, l4, h7, h8⟩ := Parser.bind_eq_ok h6
    cases h8
    rw [matchChar_taken h7] at hopen
    exact .inl ⟨rfl, hopen⟩
  · obtain ⟨xs', l4, h7, h8⟩ := Parser.bind_eq_ok h6
    obtain ⟨_, l5, h9, h10⟩ := Parser.bind_eq_ok h8
    cases h10
    exact .inr ⟨_, _, h7, hopen, matchChar_taken h9⟩

theorem array_taken (he : Sound ops data e) {n : Nat} {js : List (Json F)}
    (h : array data e n i = .ok (js, k)) :
    ∃ t ls, data.drop i = t ++ data.drop k ∧ Value ops (.array js) t (data.drop k) ls := by
  obtain ⟨w, hws, ⟨rfl, hopen⟩ | ⟨l, m, hloop, hopen, hclose⟩⟩ := bracketed_taken h
  · refine ⟨_, [], ?_, .emptyArray hws⟩
    rw [hopen]
    simp
  · obtain ⟨js0, t, ls, rfl, hdrop, helements⟩ := arrayLoop_taken he hloop
    rw [hclose] at hdrop helements
    refine ⟨_, ls, ?_, .array (helements.ws_append hws)⟩
    rw [hopen, hdrop]
    simp

theorem member_taken (he : Sound ops data e) {m : Bytes × Json F} (h : member data e i = .ok (m, k)) :
    ∃ t ls, data.drop i = t ++ data.drop k ∧ Member ops m t (data.drop k) ls := by
  obtain ⟨_, l1, h1, h2⟩ := Parser.bind_eq_ok h
  obtain ⟨key, l2, h3, h4⟩ := Parser.bind_eq_ok h2
  obtain ⟨_, l3, h5, h6⟩ := Parser.bind_eq_ok h4
  obtain ⟨_, l4, h7, h8⟩ := Parser.bind_eq_ok h6
  obtain ⟨j, l5, h9, h10⟩ := Parser.bind_eq_ok h8
  cases h10
  obtain ⟨w, hw, hws, -⟩ := ws_taken h1
  obtain ⟨s, ls, hs, hchars⟩ := string_taken h3
  obtain ⟨w', hw', hws', -⟩ := ws_taken h5
  have hcolon := matchChar_taken h7
  obtain ⟨t, ls', ht, helement⟩ := he _ _ _ h9
  refine ⟨_, _, ?_, .mk hws hchars hws' helement⟩
  rw [hw, hs, hw', hcolon, ht]
  simp

theorem Member.noSpace {m : Bytes × Json F} (h : Member ops m t rest ls) : NoSpace rest := by
  obtain ⟨-, -, -, h⟩ := h
  exact h.noSpace

theorem objectLoop_taken (he : Sound ops data e) {n : Nat} {ms ms' : List (Bytes × Json F)}
    (h : objectLoop data e n ms i = .ok (ms', k)) :
    ∃ ms0 t ls, ms' = insertAll ms0 ms ∧ data.drop i = t ++ data.drop k ∧ Members ops ms0 t (data.drop k) ls := by
  induction n generalizing ms i with
  | zero => cases h
  | succ n ih =>
      obtain ⟨m, l, h1, h2⟩ := Parser.bind_eq_ok h
      obtain ⟨_, l1, h3, h4⟩ := Parser.bind_eq_ok h2
      obtain ⟨c, l2, h5, h6⟩ := Parser.bind_eq_ok h4
      obtain ⟨t, ls, hdrop, hmember⟩ := member_taken he h1
      obtain rfl := ws_of_noSpace h3 hmember.noSpace
      obtain ⟨rfl, -⟩ := peek_taken h5
      split at h6
      · cases h6
        exact ⟨[m], t, ls, rfl, hdrop, .one hmember⟩
      · obtain ⟨_, l3, h7, h8⟩ := Parser.bind_eq_ok h6
        obtain ⟨ms0, u, ls', rfl, hdrop', hmembers⟩ := ih h8
        have hcomma := matchChar_taken h7
        rw [hdrop'] at hcomma
        refine ⟨m :: ms0, t ++ comma :: u, ls ++ ls', rfl, ?_, .more (hcomma ▸ hmember) hmembers⟩
        rw [hdrop, hcomma]
        simp

theorem object_taken (he : Sound ops data e) {n : Nat} {ms : List (Bytes × Json F)}
    (h : object data e n i = .ok (ms, k)) :
    ∃ t ls, data.drop i = t ++ data.drop k ∧ Value ops (.object ms) t (data.drop k) ls := by
  obtain ⟨w, hws, ⟨rfl, hopen⟩ | ⟨l, m, hloop, hopen, hclose⟩⟩ := bracketed_taken h
  · refine ⟨_, [], ?_, .emptyObject hws⟩
    rw [hopen]
    simp
  · obtain ⟨ms0, t, ls, rfl, hdrop, hmembers⟩ := objectLoop_taken he hloop
    rw [hclose] at hdrop hmembers
    refine ⟨_, ls, ?_, .object (hmembers.ws_append hws)⟩
    rw [hopen, hdrop]
    simp

/-! ## Values -/

theorem value_taken (hops : FromChars.ReadsFloats ops) (he : Sound ops data e) {n : Nat}
    (h : value data e ops n i = .ok (j, k)) :
    ∃ t ls, data.drop i = t ++ data.drop k ∧ Value ops j t (data.drop k) ls := by
  obtain ⟨c, l, h1, h2⟩ := Parser.bind_eq_ok h
  obtain ⟨hc, rfl⟩ := peek_eq_ok h1
  split at h2
  · obtain ⟨ms, l, h3, h4⟩ := Parser.bind_eq_ok h2
    cases h4
    exact object_taken he h3
  split at h2
  · obtain ⟨js, l, h3, h4⟩ := Parser.bind_eq_ok h2
    cases h4
    exact array_taken he h3
  split at h2
  · obtain ⟨s, l, h3, h4⟩ := Parser.bind_eq_ok h2
    cases h4
    obtain ⟨t, ls, hdrop, hchars⟩ := string_taken h3
    exact ⟨_, ls, hdrop, .string hchars⟩
  split at h2
  · rename_i hstart
    obtain ⟨x, l, h3, h4⟩ := Parser.bind_eq_ok h2
    cases h4
    obtain ⟨t, hdrop, hnumber⟩ := number_taken hops hc hstart h3
    exact ⟨t, _, hdrop, .number hnumber⟩
  split at h2
  · obtain ⟨_, l, h3, h4⟩ := Parser.bind_eq_ok h2
    cases h4
    exact ⟨_, [], matchText_taken h3, .true⟩
  split at h2
  · obtain ⟨_, l, h3, h4⟩ := Parser.bind_eq_ok h2
    cases h4
    exact ⟨_, [], matchText_taken h3, .false⟩
  split at h2
  · obtain ⟨_, l, h3, h4⟩ := Parser.bind_eq_ok h2
    cases h4
    exact ⟨_, [], matchText_taken h3, .null⟩
  · cases h2

theorem element_taken (hops : FromChars.ReadsFloats ops) (data : Bytes) (fuel : Nat) :
    Sound ops data (element data ops fuel) := by
  induction fuel with
  | zero =>
      intro i j k h
      cases h
  | succ fuel ih =>
      intro i j k h
      obtain ⟨_, l1, h1, h2⟩ := Parser.bind_eq_ok h
      obtain ⟨j', l2, h3, h4⟩ := Parser.bind_eq_ok h2
      obtain ⟨_, l3, h5, h6⟩ := Parser.bind_eq_ok h4
      cases h6
      obtain ⟨w, hw, hws, -⟩ := ws_taken h1
      obtain ⟨t, ls, ht, hvalue⟩ := value_taken hops ih h3
      obtain ⟨w', hw', hws', hr⟩ := ws_taken h5
      rw [hw'] at ht hvalue
      refine ⟨_, ls, ?_, .mk hws hvalue hws' hr⟩
      rw [hw, ht]
      simp

/-- What the parser accepts, it has read. -/
theorem reads_of_parse (hops : FromChars.ReadsFloats ops) (h : parse data ops fuel = .ok j) :
    ∃ t rest ls, data = t ++ rest ∧ Element ops j t rest ls := by
  cases he : element data ops fuel 0 with
  | error e =>
      rw [parse, he] at h
      cases h
  | ok p =>
      obtain ⟨j', k⟩ := p
      rw [parse, he] at h
      cases h
      obtain ⟨t, ls, hdrop, helement⟩ := element_taken hops data fuel 0 j' k he
      exact ⟨t, _, ls, hdrop, helement⟩

theorem parse_of_reads (h : Element ops j t rest ls) (hf : t.length < fuel) : parse (t ++ rest) ops fuel = .ok j := by
  rw [parse, h.yields hf 0 rfl]
  rfl

end Dwhbll.JsonReads
