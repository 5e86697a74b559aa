import Dwhbll.Json.Lemmas.Reading

/-!
# Reading arrays and objects

What the loops of the parser read, given what is read of their elements and members.
-/

namespace Dwhbll.JsonParser

open Ascii JsonText

variable {F : Type} {ops : FloatOps F} {data rest t u w : Bytes} {j : Json F} {fuel : Nat}

/-! ## What stands at the ends of a text -/

theorem noSpace_of_stop (h : Stop rest) : NoSpace rest := by
  intro c hc
  rcases h c hc with rfl | rfl | rfl <;> rfl

theorem delim_of_stop (hw : WS w) (h : Stop rest) : Delim (w ++ rest) := by
  intro c hc
  cases w with
  | nil => exact .inr (h c hc)
  | cons d w =>
      cases hc
      exact .inl (hw _ List.mem_cons_self)

theorem stop_cons {c : UInt8} (h : c = comma ∨ c = rightBracket ∨ c = rightBrace) : Stop (c :: rest) := by
  intro d hd
  cases hd
  exact h

/-- Behind an element there is no white space left. -/
theorem Yields.ws_stop (h : Stop rest) : Yields data (JsonParser.ws data) [] rest () :=
  Yields.ws ws_nil (noSpace_of_stop h)

/-- The first character of a value. -/
def Starts (c : UInt8) : Prop := isSpace c = false ∧ c ≠ rightBracket ∧ c ≠ rightBrace

theorem starts_of_number {c : UInt8} (h : c = minus ∨ isDigit c = true) : Starts c := by
  rcases h with rfl | h
  · exact ⟨rfl, by decide, by decide⟩
  · simp only [isDigit, Bool.and_eq_true, decide_eq_true_eq] at h
    refine ⟨?_, ?_, ?_⟩
    · simp only [isSpace, Bool.or_eq_false_iff, beq_eq_false_iff_ne]
      refine ⟨⟨⟨?_, ?_⟩, ?_⟩, ?_⟩ <;> (rintro rfl; exact absurd h (by decide))
    · rintro rfl; exact absurd h (by decide)
    · rintro rfl; exact absurd h (by decide)

/-! ## Arrays -/

section Nested

variable {e : Parser (Json F)} {js js' : List (Json F)} {n : Nat}

theorem SkipsSpace.arrayLoop (he : SkipsSpace data e) (n : Nat) (js : List (Json F)) :
    SkipsSpace data (arrayLoop data e n js) := by
  cases n with
  | zero => intro i; rfl
  | succ n => exact he.bind _

theorem Yields.arrayLoop_last (he : Yields data e t (rightBracket :: rest) j) :
    Yields data (arrayLoop data e (n + 1) js) t (rightBracket :: rest) (js ++ [j]) := by
  refine he.andThen ((Yields.ws_stop (stop_cons (.inr (.inl rfl)))).andThen (Yields.peek rfl ?_))
  rw [if_pos rfl]
  exact Yields.pure _

theorem Yields.arrayLoop_more (he : Yields data e t (comma :: (u ++ rest)) j)
    (hs : Yields data (arrayLoop data e n (js ++ [j])) u rest js') :
    Yields data (arrayLoop data e (n + 1) js) (t ++ comma :: u) rest js' := by
  refine he.bind (Yields.bind (t := []) (Yields.ws_stop (stop_cons (.inl rfl))) (Yields.peek rfl ?_))
  rw [if_neg (by decide)]
  exact Yields.bind (t := [comma]) Yields.matchChar hs

theorem Yields.emptyArray (hw : WS w) :
    Yields data (array data e n) (leftBracket :: (w ++ [rightBracket])) rest [] := by
  refine Yields.bind (t := [leftBracket]) Yields.matchChar ((Yields.ws hw ?_).bind (Yields.peek rfl ?_))
  · exact noSpace_of_stop (stop_cons (.inr (.inl rfl)))
  · rw [if_pos rfl]
    exact Yields.matchChar.andThen (Yields.pure _)

theorem Yields.array {c : UInt8} {v : Bytes} (he : SkipsSpace data e) (ht : t = w ++ c :: v) (hw : WS w)
    (hc : Starts c) (h : Yields data (arrayLoop data e n []) t (rightBracket :: rest) js) :
    Yields data (array data e n) (leftBracket :: (t ++ [rightBracket])) rest js := by
  have hne := hc.2.1
  refine Yields.bind (t := [leftBracket]) Yields.matchChar
    (Yields.ws_peek (u := v ++ rightBracket :: rest) ?_ hw hc.1 ?_ ?_)
  · simp [ht]
  · rw [if_neg hne]
    exact (he.arrayLoop n []).bind _
  · rw [if_neg hne]
    exact h.bind (Yields.matchChar.andThen (Yields.pure _))

/-! ## Objects -/

variable {ms ms' : List (Bytes × Json F)} {m : Bytes × Json F}

theorem SkipsSpace.objectLoop (n : Nat) (ms : List (Bytes × Json F)) :
    SkipsSpace data (objectLoop data e n ms) := by
  cases n with
  | zero => intro i; rfl
  | succ n => exact SkipsSpace.bind (SkipsSpace.ws data _) _

theorem Yields.objectLoop_last (hm : Yields data (member data e) t (rightBrace :: rest) m) :
    Yields data (objectLoop data e (n + 1) ms) t (rightBrace :: rest) (mapInsert m.1 m.2 ms) := by
  refine hm.andThen ((Yields.ws_stop (stop_cons (.inr (.inr rfl)))).andThen (Yields.peek rfl ?_))
  rw [if_pos rfl]
  exact Yields.pure _

theorem Yields.objectLoop_more (hm : Yields data (member data e) t (comma :: (u ++ rest)) m)
    (hs : Yields data (objectLoop data e n (mapInsert m.1 m.2 ms)) u rest ms') :
    Yields data (objectLoop data e (n + 1) ms) (t ++ comma :: u) rest ms' := by
  refine hm.bind (Yields.bind (t := []) (Yields.ws_stop (stop_cons (.inl rfl))) (Yields.peek rfl ?_))
  rw [if_neg (by decide)]
  exact Yields.bind (t := [comma]) Yields.matchChar hs

theorem Yields.emptyObject (hw : WS w) :
    Yields data (object data e n) (leftBrace :: (w ++ [rightBrace])) rest [] := by
  refine Yields.bind (t := [leftBrace]) Yields.matchChar ((Yields.ws hw ?_).bind (Yields.peek rfl ?_))
  · exact noSpace_of_stop (stop_cons (.inr (.inr rfl)))
  · rw [if_pos rfl]
    exact Yields.matchChar.andThen (Yields.pure _)

theorem Yields.object {v : Bytes} (ht : t = w ++ quote :: v) (hw : WS w)
    (h : Yields data (objectLoop data e n []) t (rightBrace :: rest) ms) :
    Yields data (object data e n) (leftBrace :: (t ++ [rightBrace])) rest ms := by
  refine Yields.bind (t := [leftBrace]) Yields.matchChar
    (Yields.ws_peek (c := quote) (u := v ++ rightBrace :: rest) ?_ hw rfl ?_ ?_)
  · simp [ht]
  · rw [if_neg (by decide)]
    exact (SkipsSpace.objectLoop n []).bind _
  · rw [if_neg (by decide)]
    exact h.bind (Yields.matchChar.andThen (Yields.pure _))

theorem Yields.member_of {key k w' : Bytes} (hw : WS w) (hk : Chars key k) (hw' : WS w')
    (he : Yields data e t rest j) :
    Yields data (member data e) (w ++ (quote :: (k ++ [quote]) ++ (w' ++ colon :: t))) rest (key, j) := by
  exact (Yields.ws hw (noSpace_cons rfl)).bind ((Yields.string hk).bind ((Yields.ws hw' (noSpace_cons rfl)).bind
    (Yields.bind (t := [colon]) Yields.matchChar (he.andThen (Yields.pure _)))))

end Nested

theorem SkipsSpace.element (ops : FloatOps F) (fuel : Nat) : SkipsSpace data (element data ops fuel) := by
  cases fuel with
  | zero => intro i; rfl
  | succ fuel => exact SkipsSpace.ws data _

end Dwhbll.JsonParser
