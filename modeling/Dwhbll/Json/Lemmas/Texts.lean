import Dwhbll.Json.Lemmas.Reads

/-!
# Every text of the grammar is read

A text of the grammar is one that the parser reads, whatever ends it.
-/

namespace Dwhbll.JsonText

open Ascii JsonParser

variable {F : Type} {ops : FloatOps F} {rest t u : Bytes} {j : Json F} {fuel : Nat}

theorem Chars.reads {s : Bytes} (h : Chars s t) : ∃ ls, JsonReads.Chars s t ls := by
  induction h with
  | nil => exact ⟨_, .nil⟩
  | raw hq hb _ ih =>
      obtain ⟨ls, ih⟩ := ih
      exact ⟨_, .raw hq hb ih⟩
  | escape hc _ ih =>
      obtain ⟨ls, ih⟩ := ih
      exact ⟨_, .escape hc ih⟩
  | unicode hl hcp _ ih =>
      obtain ⟨ls, ih⟩ := ih
      exact ⟨_, .unicode hl hcp ih⟩

theorem NumberText.reads {x : F} (h : NumberText ops x t) (hr : Delim rest) : JsonReads.NumberAt ops x t rest where
  start := h.start
  read := h.read_back rest hr
  no_leading_zero := by
    intro c u ht
    obtain ⟨d, v, rfl, -⟩ := h.start
    cases v with
    | nil =>
        cases ht
        exact isDigit_of_delim hr
    | cons e v =>
        cases ht
        exact h.no_leading_zero _ _ rfl

mutual

theorem Value.reads {j : Json F} {t rest : Bytes} (h : Value ops j t) (hr : Delim rest) :
    ∃ ls, JsonReads.Value ops j t rest ls := by
  match h with
  | .emptyObject hw => exact ⟨_, .emptyObject hw⟩
  | .object h =>
      obtain ⟨ls, hms⟩ := Members.reads h (stop_cons (.inr (.inr rfl)))
      exact ⟨ls, .object hms⟩
  | .emptyArray hw => exact ⟨_, .emptyArray hw⟩
  | .array h =>
      obtain ⟨ls, hjs⟩ := Elements.reads h (stop_cons (.inr (.inl rfl)))
      exact ⟨ls, .array hjs⟩
  | .string h =>
      obtain ⟨ls, hs⟩ := h.reads
      exact ⟨ls, .string hs⟩
  | .number h => exact ⟨_, .number (h.reads hr)⟩
  | .true => exact ⟨_, .true⟩
  | .false => exact ⟨_, .false⟩
  | .null => exact ⟨_, .null⟩

theorem Element.reads {j : Json F} {t rest : Bytes} (h : Element ops j t) (hr : Stop rest) :
    ∃ ls, JsonReads.Element ops j t rest ls := by
  match h with
  | .mk hw h hw' =>
      obtain ⟨ls, hv⟩ := Value.reads h (delim_of_stop hw' hr)
      exact ⟨ls, .mk hw hv hw' (noSpace_of_stop hr)⟩

theorem Elements.reads {js : List (Json F)} {t rest : Bytes} (h : Elements ops js t) (hr : Stop rest) :
    ∃ ls, JsonReads.Elements ops js t rest ls := by
  match h with
  | .one h =>
      obtain ⟨ls, hj⟩ := Element.reads h hr
      exact ⟨ls, .one hj⟩
  | .more h hs =>
      obtain ⟨ls, hj⟩ := Element.reads h (stop_cons (.inl rfl))
      obtain ⟨ls', hjs⟩ := Elements.reads hs hr
      exact ⟨_, .more hj hjs⟩

theorem Member.reads {m : Bytes × Json F} {t rest : Bytes} (h : Member ops m t) (hr : Stop rest) :
    ∃ ls, JsonReads.Member ops m t rest ls := by
  match h with
  | .mk hw hk hw' h =>
      obtain ⟨ls, hs⟩ := hk.reads
      obtain ⟨ls', hj⟩ := Element.reads h hr
      exact ⟨_, .mk hw hs hw' hj⟩

theorem Members.reads {ms : List (Bytes × Json F)} {t rest : Bytes} (h : Members ops ms t) (hr : Stop rest) :
    ∃ ls, JsonReads.Members ops ms t rest ls := by
  match h with
  | .one h =>
      obtain ⟨ls, hm⟩ := Member.reads h hr
      exact ⟨ls, .one hm⟩
  | .more h hs =>
      obtain ⟨ls, hm⟩ := Member.reads h (stop_cons (.inl rfl))
      obtain ⟨ls', hms⟩ := Members.reads hs hr
      exact ⟨_, .more hm hms⟩

end

/-- A text with nothing behind it. -/
theorem parse_of_element (h : Element ops j t) (hf : t.length < fuel) : parse t ops fuel = .ok j := by
  have hr : Stop [] := by
    intro c hc
    cases hc
  obtain ⟨ls, hreads⟩ := h.reads hr
  have hparse := JsonReads.parse_of_reads hreads hf
  rwa [List.append_nil] at hparse

theorem parse_of_value (h : Value ops j t) (hf : t.length < fuel) : parse t ops fuel = .ok j := by
  have he : Element ops j ([] ++ (t ++ [])) := .mk ws_nil h ws_nil
  rw [List.nil_append, List.append_nil] at he
  exact parse_of_element he hf

end Dwhbll.JsonText
