import Dwhbll.Json.Lemmas.Agreement
import Dwhbll.Json.Theorems

/-!
# The parser of JSON gets to an end

Every call of `json_parser` reads inside the input only and moves `idx` forward, and what recurs moves it by one at
least.
-/

namespace Dwhbll.JsonParser.Checked

open Ascii Progress

variable {F : Type} {data : Bytes} {ops : FloatOps F} {c : UInt8} {i lo least fuel : Nat}

/-- The faults that must not happen. -/
def Harmful (e : Fault) : Prop := e = .outside ∨ e = .running

/-- From every position of the input from `lo` on, the call moves forward and does no harm. -/
abbrev Moves {α : Type} (data : Bytes) (lo least : Nat) (m : Call Fault α) : Prop :=
  Advances data.length Harmful lo least m

theorem not_harmful (e : ParseError) : ¬ Harmful (.error e) := by
  rintro (h | h)
  · cases h
  · cases h

theorem moves_fail {α : Type} (e : ParseError) : Moves data lo least (fail e : Call Fault α) := .throw (not_harmful e)

/-! ## Characters -/

theorem moves_peek : Moves data lo 0 (peek data) := by
  intro i _ hi
  cases hc : data[i]? with
  | none =>
      rw [peek_of_none hc]
      exact .error (not_harmful _) (Nat.le_refl i) hi
  | some c =>
      rw [peek_of_some hc]
      exact .ok (Nat.le_refl i) hi

theorem moves_consume : Moves data lo 1 (consume data) := by
  intro i _ hi
  cases hc : data[i]? with
  | none =>
      rw [consume_of_none hc]
      exact .error (not_harmful _) (Nat.le_refl i) hi
  | some c =>
      rw [consume_of_some hc]
      exact .ok (Nat.le_refl _) (List.getElem?_eq_some_iff.mp hc).1

theorem moves_matchChar (c : UInt8) : Moves data lo 1 (matchChar data c) :=
  moves_consume.bind fun _ => .ite (moves_fail _) (.pure ())

theorem moves_matchText (t : Bytes) : Moves data lo t.length (matchText data t) := by
  induction t generalizing lo with
  | nil => exact .pure ()
  | cons c t ih =>
      rw [List.length_cons, Nat.add_comm]
      exact (moves_matchChar c).bind fun _ => ih

theorem moves_ws (hfuel : data.length < lo + fuel) : Moves data lo 0 (ws data fuel) := by
  refine Advances.loop (s := ()) (fun fuel _ => ws data fuel) (fun fuel lo _ _ ih => ?_) hfuel
  intro i hlo hi
  cases hc : data[i]? with
  | none =>
      rw [ws_of_none hc]
      exact .ok (Nat.le_refl i) hi
  | some c =>
      rw [ws_of_some hc]
      split
      · have hrest := ih () (i + 1) (Nat.succ_le_succ hlo) (List.getElem?_eq_some_iff.mp hc).1
        exact ⟨Nat.le_of_succ_le hrest.le, hrest.le_size, hrest.not_bad, fun _ _ => Nat.le_of_succ_le hrest.le⟩
      · exact .ok (Nat.le_refl i) hi

/-! ## Strings -/

theorem moves_codePoint (n cp : Nat) : Moves data lo 0 (codePoint data n cp) := by
  induction n generalizing cp with
  | zero => exact .pure cp
  | succ n ih =>
      refine moves_consume.weaken.bind_right fun h => ?_
      cases hexValue h with
      | none => exact moves_fail _
      | some v => exact ih _

theorem moves_escape : Moves data lo 0 (escape data) := by
  refine moves_peek.bind_right fun c => moves_consume.weaken.bind_right fun _ => ?_
  cases unescape c with
  | some b => exact .pure _
  | none => exact .ite ((moves_codePoint 4 0).bind_right fun _ => .pure _) (moves_fail _)

theorem moves_stringLoop {s : Bytes} (hfuel : data.length < lo + fuel) : Moves data lo 0 (stringLoop data fuel s) := by
  refine Advances.loop (stringLoop data) (fun fuel lo s _ ih => ?_) hfuel
  refine moves_peek.bind_right fun c => .ite (.pure s) ?_
  -- The character that is consumed is what makes the next iteration start further on.
  refine (moves_consume.bind_left fun _ => .ite ?_ (ih _)).weaken
  exact moves_escape.bind_right fun bs => ih _

theorem moves_string (hfuel : data.length < lo + 1 + fuel) : Moves data lo 1 (string data fuel) := by
  refine (moves_matchChar quote).bind_left fun _ => (moves_stringLoop hfuel).bind_right fun s => ?_
  exact (moves_matchChar quote).weaken.bind_right fun _ => .pure s

/-! ## Numbers -/

/-- What is assumed of `std::from_chars`: a number takes one character at least, and at most all. -/
def Consumes (ops : FloatOps F) : Prop := ∀ u x n, ops.fromChars u = some (x, n) → 1 ≤ n ∧ n ≤ u.length

theorem moves_number (hops : Consumes ops) : Moves data lo 1 (number data ops) := by
  intro i _ hi
  cases hread : ops.fromChars (data.drop i) with
  | none =>
      rw [number, bind_error (fromChars_of_none hi hread)]
      exact .error (not_harmful _) (Nat.le_refl i) hi
  | some r =>
      obtain ⟨num, n⟩ := r
      obtain ⟨hone, hn⟩ := hops _ _ _ hread
      rw [List.length_drop] at hn
      have hlt : i < data.length := by omega
      rw [number_of_some hread (List.getElem?_eq_getElem hlt)]
      split
      · exact .error (not_harmful _) (Nat.le_refl i) hi
      · exact .ok (Nat.add_le_add_left hone i) (by omega)

/-! ## Values -/

section Nested

variable {element : Call Fault (Json F)}

theorem moves_member (helement : Moves data lo 1 element) (hfuel : data.length < lo + fuel) :
    Moves data lo 1 (member data element fuel) := by
  refine (moves_ws hfuel).bind_right fun _ => (moves_string (by omega)).bind_left fun id => ?_
  refine (moves_ws (by omega)).bind_right fun _ => (moves_matchChar colon).weaken.bind_right fun _ => ?_
  have hvalue : Moves data (lo + 1) 1 element := helement.mono (Nat.le_succ lo) (Nat.le_refl 1)
  exact hvalue.weaken.bind_right fun value => .pure (id, value)

theorem moves_objectLoop {loops : Nat} {j : List (Bytes × Json F)} (helement : Moves data lo 1 element)
    (hfuel : data.length < lo + fuel) (hloops : data.length < lo + loops) :
    Moves data lo 0 (objectLoop data element fuel loops j) := by
  refine Advances.loop (objectLoop data element fuel) (fun loops lo' j hlo ih => ?_) hloops
  have hmember : Moves data lo' 1 (member data element fuel) :=
    moves_member (helement.mono hlo (Nat.le_refl 1)) (by omega)
  refine (hmember.bind_left fun (id, val) => (moves_ws (by omega)).bind_right fun _ => ?_).weaken
  refine moves_peek.bind_right fun c => .ite (.pure _) ?_
  exact (moves_matchChar comma).weaken.bind_right fun _ => ih _

theorem moves_object (helement : Moves data (lo + 1) 1 element) (hfuel : data.length < lo + 1 + fuel) :
    Moves data lo 1 (object data element fuel) := by
  refine (moves_matchChar leftBrace).bind_left fun _ => (moves_ws hfuel).bind_right fun _ => ?_
  refine moves_peek.bind_right fun c => .ite ?_ ?_
  · exact (moves_matchChar rightBrace).weaken.bind_right fun _ => .pure []
  · refine (moves_objectLoop helement hfuel hfuel).bind_right fun j => ?_
    exact (moves_matchChar rightBrace).weaken.bind_right fun _ => .pure j

theorem moves_arrayLoop {loops : Nat} {j : List (Json F)} (helement : Moves data lo 1 element)
    (hfuel : data.length < lo + fuel) (hloops : data.length < lo + loops) :
    Moves data lo 0 (arrayLoop data element fuel loops j) := by
  refine Advances.loop (arrayLoop data element fuel) (fun loops lo' j hlo ih => ?_) hloops
  have hval : Moves data lo' 1 element := helement.mono hlo (Nat.le_refl 1)
  refine (hval.bind_left fun val => (moves_ws (by omega)).bind_right fun _ => ?_).weaken
  refine moves_peek.bind_right fun c => .ite (.pure _) ?_
  exact (moves_matchChar comma).weaken.bind_right fun _ => ih _

theorem moves_array (helement : Moves data (lo + 1) 1 element) (hfuel : data.length < lo + 1 + fuel) :
    Moves data lo 1 (array data element fuel) := by
  refine (moves_matchChar leftBracket).bind_left fun _ => (moves_ws hfuel).bind_right fun _ => ?_
  refine moves_peek.bind_right fun c => .ite ?_ ?_
  · exact (moves_matchChar rightBracket).weaken.bind_right fun _ => .pure []
  · refine (moves_arrayLoop helement hfuel hfuel).bind_right fun j => ?_
    exact (moves_matchChar rightBracket).weaken.bind_right fun _ => .pure j

theorem moves_literal {t : Bytes} (j : Json F) (ht : 1 ≤ t.length) :
    Moves data lo 1 (matchText data t >>= fun _ => pure j) :=
  ((moves_matchText t).mono (Nat.le_refl lo) ht).bind_left fun _ => .pure j

theorem moves_value (hops : Consumes ops) (helement : Moves data (lo + 1) 1 element)
    (hfuel : data.length < lo + 1 + fuel) : Moves data lo 1 (value data element fuel ops) := by
  refine moves_peek.bind_right fun c => ?_
  refine .ite ((moves_object helement hfuel).bind_left fun _ => .pure _) ?_
  refine .ite ((moves_array helement hfuel).bind_left fun _ => .pure _) ?_
  refine .ite ((moves_string hfuel).bind_left fun _ => .pure _) ?_
  refine .ite ((moves_number hops).bind_left fun _ => .pure _) ?_
  refine .ite (moves_literal _ (by decide)) ?_
  refine .ite (moves_literal _ (by decide)) ?_
  exact .ite (moves_literal _ (by decide)) (moves_fail _)

end Nested

/-- Each level of the recursion starts behind a bracket, so that the fuel is enough for the levels, too. -/
theorem moves_element (hops : Consumes ops) (hfuel : data.length < lo + fuel) :
    Moves data lo 1 (element data ops fuel) := by
  induction fuel generalizing lo with
  | zero =>
      intro i hi hsize
      omega
  | succ fuel ih =>
      have helement : Moves data (lo + 1) 1 (element data ops fuel) := ih (by omega)
      refine (moves_ws hfuel).bind_right fun _ => ?_
      refine (moves_value hops helement (by omega)).bind_left fun j => ?_
      exact (moves_ws (by omega)).bind_right fun _ => .pure j

/-! ## Termination -/

/-- With more fuel than there are characters left, no call reads outside the input or is still running at the end, `idx`
goes from where it is neither back nor behind the end, and what recurs moves it on by one at least. -/
theorem calls_advance (hops : Consumes ops) (data : Bytes) (hfuel : data.length < lo + fuel) :
    (Moves data lo 0 (peek data) ∧ Moves data lo 1 (consume data) ∧ (∀ c, Moves data lo 1 (matchChar data c)) ∧
      (∀ t, Moves data lo t.length (matchText data t)) ∧ Moves data lo 0 (ws data fuel)) ∧
    Moves data lo 1 (element data ops fuel) ∧ Moves data lo 1 (member data (element data ops fuel) fuel) ∧
      Moves data lo 1 (object data (element data ops fuel) fuel) ∧
      Moves data lo 1 (array data (element data ops fuel) fuel) ∧ Moves data lo 1 (string data fuel) ∧
      Moves data lo 1 (number data ops) := by
  have helement : Moves data lo 1 (element data ops fuel) := moves_element hops hfuel
  have hinner : Moves data (lo + 1) 1 (element data ops fuel) := helement.mono (Nat.le_succ lo) (Nat.le_refl 1)
  refine ⟨⟨moves_peek, moves_consume, moves_matchChar, moves_matchText, moves_ws hfuel⟩, helement, ?_⟩
  exact ⟨moves_member helement hfuel, moves_object hinner (by omega), moves_array hinner (by omega),
    moves_string (by omega), moves_number hops⟩

theorem consumes_digits : Consumes Json.digits := by
  intro u x n h
  cases u with
  | nil => cases h
  | cons c u =>
      simp only [Json.digits] at h
      split at h
      · cases h
        exact ⟨Nat.le_refl 1, Nat.le_add_left ..⟩
      · cases h

/-- `[7,` -/
theorem calls_advance_truncated : Moves (ascii "[7,") 0 1 (element (ascii "[7,") Json.digits 4) :=
  (calls_advance consumes_digits (ascii "[7,") (by decide)).2.1

/-- The parser of `Json.Parser` gets to an end with the same fuel, and with the same result. -/
theorem parse_ends (hops : Consumes ops) (hfuel : data.length < fuel) :
    (∃ j i, element data ops fuel 0 = (.ok j, i) ∧ parse data ops fuel = .ok j) ∨
      ∃ e i, element data ops fuel 0 = (.error (.error e), i) ∧ parse data ops fuel = .error (.error e) := by
  have hmoves : Moves data 0 1 (element data ops fuel) := moves_element hops (by omega)
  have hdone := (hmoves 0 (Nat.le_refl 0) (Nat.zero_le _)).not_bad
  cases hr : element data ops fuel 0 with
  | mk r i =>
      cases r with
      | ok j => exact .inl ⟨j, i, rfl, by rw [parse, (agrees_element fuel).ok 0 j i hr]; rfl⟩
      | error e =>
          cases e with
          | error e => exact .inr ⟨e, i, rfl, by rw [parse, (agrees_element fuel).error 0 e i hr]; rfl⟩
          | outside => exact absurd (.inl rfl) (hdone .outside (by rw [hr]))
          | running => exact absurd (.inr rfl) (hdone .running (by rw [hr]))

end Dwhbll.JsonParser.Checked
