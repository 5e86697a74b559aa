import Dwhbll.Json.Lemmas.Accepted
import Dwhbll.Json.Lemmas.Rfc
import Dwhbll.Json.Lemmas.Sorted
import Dwhbll.Json.Lemmas.Texts
import Dwhbll.Json.Lemmas.Writing

/-!
# Theorems about the parser of JSON

Round trips through the text of a value, and the texts that the parser accepts.
-/

namespace Dwhbll.Json

open Ascii JsonParser JsonText

variable {F : Type}

/-- Writing at an indentation that fits succeeds, and what is written is read as the value again. -/
theorem parse_formatInternal {ops : FloatOps F} {indentation : Int} {j : Json F} (hops : ReadsBack ops)
    (hs : j.Forall SortedKeys) (hf : j.Forall (FiniteNumber ops)) (hr : Fits indentation 0 j.depth) :
    ∃ t, formatInternal ops indentation j 0 = some t ∧ ∀ fuel, t.length < fuel → parse t ops fuel = .ok j := by
  obtain ⟨t, ht, hv⟩ := formatInternal_value hops j hs hf hr
  exact ⟨t, ht, fun fuel hfuel => parse_of_value hv hfuel⟩

theorem fits_dump (d : Nat) : Fits (-1) 0 d := ⟨Int.le_refl 0, fun h => absurd h (by decide)⟩

/-- Whatever `parse` has accepted, `dump` writes a text of the same value. -/
theorem parse_dump_parse {ops : FloatOps F} {data : Bytes} {n : Nat} {j : Json F} (hops : ReadsBack ops)
    (h : parse data ops n = .ok j) (hf : j.Forall (FiniteNumber ops)) :
    ∃ t, j.dump ops = some t ∧ ∀ fuel, t.length < fuel → parse t ops fuel = .ok j :=
  parse_formatInternal hops (parse_sorted h) hf (fits_dump _)

/-- A value whose numbers are finite is read back from what `dump` writes and, as long as the indentation
stays within `int`, from what `format` writes. -/
theorem parse_dump_format (ops : FloatOps F) (hops : ReadsBack ops) (j : Json F) (hs : j.Forall SortedKeys)
    (hf : j.Forall (FiniteNumber ops)) :
    (∃ t, j.dump ops = some t ∧ ∀ fuel, t.length < fuel → parse t ops fuel = .ok j) ∧
      ∀ k : Int, 0 ≤ k → k * j.depth < 2 ^ 31 →
        ∃ t, j.format ops k = some t ∧ ∀ fuel, t.length < fuel → parse t ops fuel = .ok j := by
  constructor
  · exact parse_formatInternal hops hs hf (fits_dump _)
  · intro k _ hk
    exact parse_formatInternal hops hs hf ⟨Int.le_refl 0, fun _ => by omega⟩

/-- Numbers of one digit. -/
def digits : FloatOps (Fin 10) where
  isinf _ := false
  isnan _ := false
  format x := [hexDigit x]
  fromChars
    | [] => none
    | c :: rest => if isDigit c && !rest.head?.any isDigit then some (Fin.ofNat 10 (c.toNat - 0x30), 1) else none

theorem digits_readsBack : ReadsBack digits := by
  intro x _ _
  have hx : isDigit (hexDigit x) = true ∧ Fin.ofNat 10 ((hexDigit x).toNat - 0x30) = x := by
    revert x
    decide
  refine ⟨⟨_, _, rfl, .inr hx.1⟩, ?_, ?_⟩
  · intro c u h
    simp [digits] at h
  · intro rest hr
    have hd : rest.head?.any isDigit = false := by
      cases rest with
      | nil => rfl
      | cons c rest => exact isDigit_of_delim hr
    simp only [digits, List.cons_append, List.nil_append, hx, hd]
    rfl

/-- `{"a": [7, null], "b\n": "\"\x80"}`, indented by two. -/
theorem parse_dump_format_object :
    ∃ t, format digits 2 (.object [(ascii "a", .array [.number 7, .null]),
        (ascii "b\n", .string [quote, 0x80])]) = some t ∧
      ∀ fuel, t.length < fuel → parse t digits fuel = .ok (.object [(ascii "a", .array [.number 7, .null]),
        (ascii "b\n", .string [quote, 0x80])]) :=
  (parse_dump_format digits digits_readsBack _
    (by simp [Forall, ForallMembers, ForallElements, SortedKeys]; decide)
    (by simp [Forall, ForallMembers, ForallElements, FiniteNumber, digits])).2 2 (by decide) (by decide)

/-! ## JSON texts -/

open Rfc8259 in
/-- Every JSON text whose `\u` escapes are no surrogates is read as the value that it stands for. -/
theorem parse_text {ops : FloatOps F} {number : Bytes → F → Prop} (hreads : ReadsNumbers ops number) {j : Json F}
    {t : Bytes} (h : Text (utf8Meaning number) j t) {fuel : Nat} (hf : t.length < fuel) :
    parse t ops fuel = .ok j :=
  parse_of_element (h.element hreads) hf

/-- The number that a digit stands for. -/
def digitMeaning : Rfc8259.Meaning (Fin 10) := Rfc8259.utf8Meaning fun t x => t = digits.format x

theorem digits_readsNumbers : Rfc8259.ReadsNumbers digits fun t x => t = digits.format x := by
  rintro _ x - rfl rest hr
  exact (digits_readsBack x rfl rfl).read_back rest hr

/-- `{"a":"\u00e9", "a":[7]}`: the second member counts. -/
theorem parse_text_object :
    parse (leftBrace :: (quote :: 0x61 :: quote :: colon :: (quote :: ascii "\\u00e9" ++ [quote]) ++ comma :: space ::
      (quote :: 0x61 :: quote :: colon :: leftBracket :: 0x37 :: [rightBracket]) ++ [rightBrace])) digits 100 =
      .ok (.object [([0x61], .array [.number 7])]) := by
  have hnil : Rfc8259.WS [] := by
    intro c hc
    cases hc
  have hspace : Rfc8259.WS [space] := by
    intro c hc
    exact .inl (List.mem_singleton.mp hc)
  have hname : Rfc8259.Chars digitMeaning [0x61] [0x61] := .unescaped (by decide) (by decide) (by decide) .nil
  have hzero : Rfc8259.Hex 0x30 0 := .digit (n := 0) (by decide)
  have he : Rfc8259.Hex 0x65 14 := .lower (n := 4) (by decide)
  have hnine : Rfc8259.Hex 0x39 9 := .digit (n := 9) (by decide)
  have hescape := Rfc8259.Chars.unicode (M := digitMeaning) hzero hzero he hnine ⟨by decide, rfl⟩ .nil
  have hint : Rfc8259.IntPart [0x37] := .positive rfl (by decide) (by simp)
  have hseven : Rfc8259.Value digitMeaning (.number 7) [0x37] := .number (.mk (.inl rfl) hint .none .none) rfl
  have harray := Rfc8259.Value.array hnil (.one hseven) hnil
  have hmembers := Rfc8259.Members.more (.mk hname hnil hnil (.string hescape)) hnil hspace
    (.one (.mk hname hnil hnil harray))
  have hobject := Rfc8259.Value.object hnil hmembers hnil (Rfc8259.lastWins_insertAll _)
  exact parse_text digits_readsNumbers (.mk hnil hobject hnil) (by decide)

/-- What the parser accepts is a JSON text if and only if what it reads goes up to the end, with fine lexemes only. -/
theorem parse_ok_text_iff {ops : FloatOps F} (hops : FromChars.ReadsFloats ops) (s : Bytes) :
    (∀ fuel j, parse s ops fuel = .ok j → ∃ j', Rfc8259.Text (JsonReads.anyMeaning F) j' s) ↔
      ∀ j t rest ls, s = t ++ rest → JsonReads.Element ops j t rest ls → rest = [] ∧ ∀ l ∈ ls, l.fine = true := by
  constructor
  · intro haccepted j t rest ls hs h
    subst hs
    obtain ⟨j', htext⟩ := haccepted _ j (JsonReads.parse_of_reads h (Nat.lt_succ_self _))
    exact JsonReads.text_aligned hops htext h
  · intro hreads fuel j h
    obtain ⟨t, rest, ls, rfl, helement⟩ := JsonReads.reads_of_parse hops h
    obtain ⟨rfl, hfine⟩ := hreads j t rest ls rfl helement
    obtain ⟨w, u, w', rfl, hw, hu, hw'⟩ := helement.rfc hops hfine
    rw [List.append_nil]
    exact ⟨j, .mk hw hu hw'⟩

/-- Numbers that are kept as their texts. -/
def texts : FloatOps Bytes where
  isinf _ := false
  isnan _ := false
  format x := x
  fromChars u := (FromChars.floatPrefix u).map fun t => (t, t.length)

theorem texts_readsFloats : FromChars.ReadsFloats texts := by
  intro u x n h
  obtain ⟨t, ht, htn⟩ := Option.map_eq_some_iff.mp h
  cases htn
  exact ⟨_, ht, rfl⟩

/-- However `[7]` is read, it is read to the end. -/
theorem parse_ok_text_iff_seven :
    FromChars.ReadsFloats texts ∧
      ∀ j t rest ls, [leftBracket, 0x37, rightBracket] = t ++ rest → JsonReads.Element texts j t rest ls →
        rest = [] ∧ ∀ l ∈ ls, l.fine = true := by
  have hnil : Rfc8259.WS [] := by
    intro c hc
    cases hc
  have hint : Rfc8259.IntPart [0x37] := .positive rfl (by decide) (by simp)
  have hseven : Rfc8259.Value (JsonReads.anyMeaning Bytes) (.number [0x37]) [0x37] :=
    .number (.mk (.inl rfl) hint .none .none) trivial
  have harray := Rfc8259.Value.array hnil (.one hseven) hnil
  exact ⟨texts_readsFloats, (parse_ok_text_iff texts_readsFloats _).mp fun _ _ _ => ⟨_, .mk hnil harray hnil⟩⟩

/-- A zero in front of another digit is accepted behind a minus sign, and so is a text behind the value. -/
theorem parse_ok_not_text :
    FromChars.ReadsFloats texts ∧
      (parse (ascii "-01") texts 4 = .ok (.number (ascii "-01")) ∧
        ¬ ∃ j, Rfc8259.Text (JsonReads.anyMeaning Bytes) j (ascii "-01")) ∧
      parse (ascii "1 x") texts 3 = .ok (.number (ascii "1")) ∧
        ¬ ∃ j, Rfc8259.Text (JsonReads.anyMeaning Bytes) j (ascii "1 x") := by
  have hzero : JsonReads.NumberAt texts (ascii "-01") (ascii "-01") [] :=
    ⟨⟨_, _, rfl, .inl rfl⟩, fun c u h => absurd (List.cons.inj h).1 (by decide), rfl⟩
  have hone : JsonReads.NumberAt texts (ascii "1") (ascii "1") (ascii " x") :=
    ⟨⟨_, _, rfl, .inr rfl⟩, fun c u h => absurd (List.cons.inj h).1 (by decide), rfl⟩
  have hspace : WS [space] := List.forall_mem_singleton.mpr rfl
  have hread : JsonReads.Element texts (.number (ascii "-01")) (ascii "-01") [] [.number (ascii "-01")] :=
    .mk ws_nil (.number hzero) ws_nil (by simp [NoSpace])
  have hread' : JsonReads.Element texts (.number (ascii "1")) (ascii "1 ") (ascii "x") [.number (ascii "1 x")] :=
    .mk ws_nil (.number hone) hspace (noSpace_cons rfl)
  refine ⟨texts_readsFloats, ⟨JsonReads.parse_of_reads hread (by decide), ?_⟩,
    JsonReads.parse_of_reads hread' (by decide), ?_⟩
  · rintro ⟨j, h⟩
    exact absurd ((JsonReads.text_aligned texts_readsFloats h hread).2 _ List.mem_cons_self) (by decide)
  · rintro ⟨j, h⟩
    exact absurd (JsonReads.text_aligned texts_readsFloats h hread').1 (by decide)

end Dwhbll.Json
