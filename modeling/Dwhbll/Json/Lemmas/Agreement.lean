import Dwhbll.Json.Checked
import Dwhbll.Json.Lemmas.Reading

/-!
# The parser with checked accesses comes to the same

Wherever a call of it returns or reports an error, the call of `Json.Parser` does.
-/

namespace Dwhbll.JsonParser.Checked

open Ascii Progress

variable {α β F : Type} {data : Bytes} {ops : FloatOps F} {fuel : Nat}

/-! ## Sequences -/

structure Agrees (m : Call Fault α) (p : Parser α) : Prop where
  ok : ∀ i a j, m i = (.ok a, j) → p i = .ok (a, j)
  error : ∀ i e j, m i = (.error (.error e), j) → p i = .error (.error e)

variable {m m' : Call Fault α} {p p' : Parser α} {f : α → Call Fault β} {g : α → Parser β}

theorem Agrees.pure (a : α) : Agrees (Pure.pure a) (Pure.pure a) where
  ok _ _ _ h := by cases h; rfl
  error _ _ _ h := by cases h

theorem Agrees.fail (e : ParseError) : Agrees (fail e : Call Fault α) (JsonParser.fail e) where
  ok _ _ _ h := by cases h
  error _ _ _ h := by cases h; rfl

theorem Agrees.running (p : Parser α) : Agrees (throw .running) p where
  ok _ _ _ h := by cases h
  error _ _ _ h := by cases h

theorem parser_bind_of_error {i : Nat} {e : Failure} (h : p i = .error e) : (p >>= g) i = .error e := by
  simp only [Bind.bind, StateT.bind, Except.bind, h]

theorem Agrees.bind (hm : Agrees m p) (hf : ∀ a, Agrees (f a) (g a)) : Agrees (m >>= f) (p >>= g) where
  ok i b k h := by
    cases hr : m i with
    | mk r j =>
        cases r with
        | error e =>
            rw [bind_error hr] at h
            cases h
        | ok a =>
            rw [bind_ok hr] at h
            rw [bind_of_ok (hm.ok i a j hr)]
            exact (hf a).ok j b k h
  error i e k h := by
    cases hr : m i with
    | mk r j =>
        cases r with
        | error e' =>
            rw [bind_error hr] at h
            cases h
            exact parser_bind_of_error (hm.error i e _ hr)
        | ok a =>
            rw [bind_ok hr] at h
            rw [bind_of_ok (hm.ok i a j hr)]
            exact (hf a).error j e k h

theorem Agrees.ite {c : Prop} [Decidable c] (h : Agrees m p) (h' : Agrees m' p') :
    Agrees (if c then m else m') (if c then p else p') := by
  split
  · exact h
  · exact h'

/-! ## Characters -/

theorem agrees_peek : Agrees (peek data) (JsonParser.peek data) where
  ok i a j h := by
    rw [JsonParser.peek]
    cases hc : data[i]? with
    | none => cases (peek_of_none hc).symm.trans h
    | some c => cases (peek_of_some hc).symm.trans h; rfl
  error i e j h := by
    rw [JsonParser.peek]
    cases hc : data[i]? with
    | none => cases (peek_of_none hc).symm.trans h; rfl
    | some c => cases (peek_of_some hc).symm.trans h

theorem agrees_consume : Agrees (consume data) (JsonParser.consume data) where
  ok i a j h := by
    rw [JsonParser.consume]
    cases hc : data[i]? with
    | none => cases (consume_of_none hc).symm.trans h
    | some c => cases (consume_of_some hc).symm.trans h; rfl
  error i e j h := by
    rw [JsonParser.consume]
    cases hc : data[i]? with
    | none => cases (consume_of_none hc).symm.trans h; rfl
    | some c => cases (consume_of_some hc).symm.trans h

theorem agrees_matchChar (c : UInt8) : Agrees (matchChar data c) (JsonParser.matchChar data c) :=
  agrees_consume.bind fun _ => .ite (.fail _) (.pure ())

theorem agrees_matchText (t : Bytes) : Agrees (matchText data t) (JsonParser.matchText data t) := by
  induction t with
  | nil => exact .pure ()
  | cons c t ih => exact (agrees_matchChar c).bind fun _ => ih

theorem agrees_ws (fuel : Nat) : Agrees (ws data fuel) (JsonParser.ws data) := by
  induction fuel with
  | zero => exact .running _
  | succ fuel ih =>
      constructor
      · intro i a j h
        rw [JsonParser.ws]
        cases hc : data[i]? with
        | none =>
            cases (ws_of_none hc).symm.trans h
            rw [skipSpace_of_none hc]
        | some c =>
            rw [ws_of_some hc] at h
            rw [skipSpace_of_some hc]
            by_cases hs : isSpace c = true
            · rw [if_pos hs] at h ⊢
              exact ih.ok (i + 1) a j h
            · rw [if_neg hs] at h ⊢
              cases h
              rfl
      · intro i e j h
        cases hc : data[i]? with
        | none => cases (ws_of_none hc).symm.trans h
        | some c =>
            rw [ws_of_some hc] at h
            by_cases hs : isSpace c = true
            · rw [if_pos hs] at h
              cases ih.error (i + 1) e j h
            · rw [if_neg hs] at h
              cases h

/-! ## Strings -/

theorem agrees_codePoint (n cp : Nat) : Agrees (codePoint data n cp) (JsonParser.codePoint data n cp) := by
  induction n generalizing cp with
  | zero => exact .pure cp
  | succ n ih =>
      refine agrees_consume.bind fun h => ?_
      cases hexValue h with
      | none => exact .fail _
      | some v => exact ih _

theorem agrees_escape : Agrees (escape data) (JsonParser.escape data) := by
  refine agrees_peek.bind fun c => agrees_consume.bind fun _ => ?_
  cases unescape c with
  | some b => exact .pure _
  | none => exact .ite ((agrees_codePoint 4 0).bind fun _ => .pure _) (.fail _)

/-- An iteration of the loop, call by call. -/
theorem stringLoop_eq (s : Bytes) :
    JsonParser.stringLoop data s =
      (do
        let c ← JsonParser.peek data
        if c = quote then return s
        else
          let bs ← stringChar data c
          JsonParser.stringLoop data (s ++ bs) : Parser Bytes) := by
  funext i
  rw [JsonParser.stringLoop]
  split
  · rename_i hc
    have hpeek : JsonParser.peek data i = .error (.error .eof) := by rw [JsonParser.peek, hc]
    rw [parser_bind_of_error hpeek]
  · rename_i c hc
    have hpeek : JsonParser.peek data i = .ok (c, i) := by rw [JsonParser.peek, hc]
    rw [bind_of_ok hpeek]
    by_cases hq : c = quote
    · rw [if_pos hq, if_pos hq]
      rfl
    · rw [if_neg hq, if_neg hq]
      split
      · rename_i e hs
        rw [parser_bind_of_error hs]
      · rename_i bs j hs
        rw [bind_of_ok hs]

theorem agrees_stringLoop (fuel : Nat) (s : Bytes) : Agrees (stringLoop data fuel s) (JsonParser.stringLoop data s) := by
  induction fuel generalizing s with
  | zero => exact .running _
  | succ fuel ih =>
      rw [stringLoop_eq]
      refine agrees_peek.bind fun c => .ite (.pure s) ?_
      rw [stringChar, bind_assoc]
      refine agrees_consume.bind fun _ => ?_
      by_cases hb : c = backslash
      · rw [if_pos hb, if_pos hb]
        exact agrees_escape.bind fun bs => ih _
      · rw [if_neg hb, if_neg hb, pure_bind]
        exact ih _

theorem agrees_string (fuel : Nat) : Agrees (string data fuel) (JsonParser.string data) := by
  refine (agrees_matchChar quote).bind fun _ => (agrees_stringLoop fuel []).bind fun s => ?_
  exact (agrees_matchChar quote).bind fun _ => .pure s

/-! ## Values -/

theorem number_cases (data : Bytes) (ops : FloatOps F) (i : Nat) : number data ops i = (.error .outside, i) ∨
    (∃ e, number data ops i = (.error (.error e), i) ∧ JsonParser.number data ops i = .error (.error e)) ∨
      ∃ num j, number data ops i = (.ok num, j) ∧ JsonParser.number data ops i = .ok (num, j) := by
  by_cases hi : i ≤ data.length
  · rw [JsonParser.number]
    cases hread : ops.fromChars (data.drop i) with
    | none => exact .inr (.inl ⟨_, bind_error (fromChars_of_none hi hread), rfl⟩)
    | some r =>
        obtain ⟨num, n⟩ := r
        cases hc : data[i]? with
        | none =>
            left
            have hchar : charAt data 0 i = (.error .outside, i) := by rw [charAt, Nat.add_zero, hc]
            have hzero : leadingZero data i = (.error .outside, i) := bind_error hchar
            rw [number, bind_ok (fromChars_of_some hi hread)]
            exact bind_error hzero
        | some c =>
            right
            rw [number_of_some hread hc]
            by_cases hzero : c = zero ∧ (data[i + 1]?.any isDigit) = true
            · rw [if_pos hzero, hzero.1]
              exact .inl ⟨_, rfl, if_pos ⟨rfl, hzero.2⟩⟩
            · rw [if_neg hzero]
              exact .inr ⟨_, _, rfl, if_neg fun h => hzero ⟨Option.some.inj h.1, h.2⟩⟩
  · have hchars : fromChars data ops i = (.error .outside, i) := by rw [fromChars, if_neg hi]
    exact .inl (bind_error hchars)

theorem agrees_number : Agrees (number data ops) (JsonParser.number data ops) where
  ok i num j h := by
    rcases number_cases data ops i with hm | ⟨e, hm, hp⟩ | ⟨num, j, hm, hp⟩
    · cases hm.symm.trans h
    · cases hm.symm.trans h
    · cases hm.symm.trans h
      exact hp
  error i e j h := by
    rcases number_cases data ops i with hm | ⟨e, hm, hp⟩ | ⟨num, j, hm, hp⟩
    · cases hm.symm.trans h
    · cases hm.symm.trans h
      exact hp
    · cases hm.symm.trans h

section Nested

variable {element : Call Fault (Json F)} {element' : Parser (Json F)}

theorem agrees_member (helement : Agrees element element') (fuel : Nat) :
    Agrees (member data element fuel) (JsonParser.member data element') := by
  refine (agrees_ws fuel).bind fun _ => (agrees_string fuel).bind fun id => (agrees_ws fuel).bind fun _ => ?_
  exact (agrees_matchChar colon).bind fun _ => helement.bind fun value => .pure (id, value)

theorem agrees_objectLoop (helement : Agrees element element') (fuel loops : Nat) (j : List (Bytes × Json F)) :
    Agrees (objectLoop data element fuel loops j) (JsonParser.objectLoop data element' loops j) := by
  induction loops generalizing j with
  | zero => exact .running _
  | succ loops ih =>
      refine (agrees_member helement fuel).bind fun _ => (agrees_ws fuel).bind fun _ => ?_
      exact agrees_peek.bind fun c => .ite (.pure _) ((agrees_matchChar comma).bind fun _ => ih _)

theorem agrees_object (helement : Agrees element element') (fuel : Nat) :
    Agrees (object data element fuel) (JsonParser.object data element' fuel) := by
  refine (agrees_matchChar leftBrace).bind fun _ => (agrees_ws fuel).bind fun _ => agrees_peek.bind fun c => .ite ?_ ?_
  · exact (agrees_matchChar rightBrace).bind fun _ => .pure []
  · refine (agrees_objectLoop helement fuel fuel []).bind fun j => ?_
    exact (agrees_matchChar rightBrace).bind fun _ => .pure j

theorem agrees_arrayLoop (helement : Agrees element element') (fuel loops : Nat) (j : List (Json F)) :
    Agrees (arrayLoop data element fuel loops j) (JsonParser.arrayLoop data element' loops j) := by
  induction loops generalizing j with
  | zero => exact .running _
  | succ loops ih =>
      refine helement.bind fun _ => (agrees_ws fuel).bind fun _ => ?_
      exact agrees_peek.bind fun c => .ite (.pure _) ((agrees_matchChar comma).bind fun _ => ih _)

theorem agrees_array (helement : Agrees element element') (fuel : Nat) :
    Agrees (array data element fuel) (JsonParser.array data element' fuel) := by
  refine (agrees_matchChar leftBracket).bind fun _ => (agrees_ws fuel).bind fun _ => ?_
  refine agrees_peek.bind fun c => .ite ?_ ?_
  · exact (agrees_matchChar rightBracket).bind fun _ => .pure []
  · refine (agrees_arrayLoop helement fuel fuel []).bind fun j => ?_
    exact (agrees_matchChar rightBracket).bind fun _ => .pure j

theorem agrees_value (helement : Agrees element element') (fuel : Nat) :
    Agrees (value data element fuel ops) (JsonParser.value data element' ops fuel) := by
  refine agrees_peek.bind fun c => ?_
  refine .ite ((agrees_object helement fuel).bind fun _ => .pure _) ?_
  refine .ite ((agrees_array helement fuel).bind fun _ => .pure _) ?_
  refine .ite ((agrees_string fuel).bind fun _ => .pure _) ?_
  refine .ite (agrees_number.bind fun _ => .pure _) ?_
  refine .ite ((agrees_matchText _).bind fun _ => .pure _) ?_
  refine .ite ((agrees_matchText _).bind fun _ => .pure _) ?_
  exact .ite ((agrees_matchText _).bind fun _ => .pure _) (.fail _)

end Nested

theorem agrees_element (fuel : Nat) : Agrees (element data ops fuel) (JsonParser.element data ops fuel) := by
  induction fuel with
  | zero => exact .running _
  | succ fuel ih =>
      refine (agrees_ws (fuel + 1)).bind fun _ => (agrees_value ih fuel).bind fun j => ?_
      exact (agrees_ws (fuel + 1)).bind fun _ => .pure j

end Dwhbll.JsonParser.Checked
