import Dwhbll.Json.Grammar
import Dwhbll.Lib.Lists

/-!
# Reading a known text

`Yields data m t rest a` says what the call `m` does in front of the text `t` with `rest` behind it: it
returns `a` and stops behind `t`.
-/

namespace Dwhbll.JsonParser

open Ascii JsonText

variable {α β F : Type} {data rest t u w : Bytes} {a : α} {b : β} {c : UInt8} {i : Nat}

/-! ## Sequences -/

def Yields (data : Bytes) (m : Parser α) (t rest : Bytes) (a : α) : Prop :=
  ∀ i, data.drop i = t ++ rest → m i = .ok (a, i + t.length)

theorem Yields.pure (a : α) : Yields data (pure a) [] rest a := by
  intro i _
  rfl

theorem bind_of_ok {m : Parser α} {f : α → Parser β} {j : Nat} (h : m i = .ok (a, j)) :
    (m >>= f) i = f a j := by
  simp only [Bind.bind, StateT.bind, Except.bind, h]

theorem Yields.bind {m : Parser α} {f : α → Parser β} (hm : Yields data m t (u ++ rest) a)
    (hf : Yields data (f a) u rest b) : Yields data (m >>= f) (t ++ u) rest b := by
  intro i hi
  rw [List.append_assoc] at hi
  rw [bind_of_ok (hm i hi), hf _ (Lists.drop_add_of_drop hi), List.length_append, Nat.add_assoc]

/-- What follows `m` does not move. -/
theorem Yields.andThen {m : Parser α} {f : α → Parser β} (hm : Yields data m t rest a)
    (hf : Yields data (f a) [] rest b) : Yields data (m >>= f) t rest b := by
  intro i hi
  rw [bind_of_ok (hm i hi)]
  exact hf _ (Lists.drop_add_of_drop hi)

/-! ## Characters -/

theorem Yields.consume : Yields data (consume data) [c] rest c := by
  intro i hi
  rw [JsonParser.consume, Lists.getElem?_of_drop hi]
  rfl

theorem Yields.matchChar : Yields data (matchChar data c) [c] rest () := by
  refine Yields.consume.andThen ?_
  rw [if_neg (not_not_intro rfl)]
  exact Yields.pure ()

theorem Yields.matchText : Yields data (matchText data t) t rest () := by
  induction t with
  | nil => exact Yields.pure ()
  | cons c t ih => exact Yields.bind (t := [c]) Yields.matchChar ih

theorem peek_of_drop (h : data.drop i = c :: u) : peek data i = .ok (c, i) := by
  rw [peek, Lists.getElem?_of_drop h]

/-- A call that looks at the first character of its text. -/
theorem Yields.peek {f : UInt8 → Parser α} (ht : t ++ rest = c :: u) (hf : Yields data (f c) t rest a) :
    Yields data (peek data >>= f) t rest a := by
  intro i hi
  rw [bind_of_ok (peek_of_drop (hi.trans ht))]
  exact hf i hi

/-! ## White space -/

def NoSpace (rest : Bytes) : Prop := ∀ c ∈ rest.head?, isSpace c = false

theorem noSpace_cons (h : isSpace c = false) : NoSpace (c :: u) := by
  intro d hd
  cases hd
  exact h

theorem skipSpace_of_none (h : data[i]? = none) : skipSpace data i = i := by
  rw [skipSpace]
  split
  · rfl
  · rename_i h'; cases h.symm.trans h'

theorem skipSpace_of_some (h : data[i]? = some c) :
    skipSpace data i = if isSpace c then skipSpace data (i + 1) else i := by
  rw [skipSpace]
  split
  · rename_i h'; cases h.symm.trans h'
  · rename_i h'; cases h.symm.trans h'; rfl

theorem skipSpace_of_drop (hw : WS w) (hr : NoSpace rest) (h : data.drop i = w ++ rest) :
    skipSpace data i = i + w.length := by
  induction w generalizing i with
  | nil =>
      cases rest with
      | nil => exact skipSpace_of_none (List.getElem?_eq_none (List.drop_eq_nil_iff.mp h))
      | cons c rest =>
          have hc : isSpace c = false := hr c rfl
          simp [skipSpace_of_some (Lists.getElem?_of_drop h), hc]
  | cons c w ih =>
      have hc : isSpace c = true := hw c List.mem_cons_self
      rw [skipSpace_of_some (Lists.getElem?_of_drop h), if_pos hc,
        ih (fun c hc => hw c (List.mem_cons_of_mem _ hc)) (Lists.drop_succ_of_drop h), List.length_cons,
        Nat.add_assoc, Nat.add_comm 1]

theorem Yields.ws (hw : WS w) (hr : NoSpace rest) : Yields data (ws data) w rest () := by
  intro i hi
  rw [JsonParser.ws, skipSpace_of_drop hw hr hi]

theorem skipSpace_skipSpace (data : Bytes) (i : Nat) : skipSpace data (skipSpace data i) = skipSpace data i := by
  fun_induction skipSpace data i with
  | case1 i h => exact skipSpace_of_none h
  | case2 i c h hc ih => exact ih
  | case3 i c h hc => rw [skipSpace_of_some h, if_neg hc]

/-- A call that would skip white space itself does the same behind it. -/
def SkipsSpace (data : Bytes) (m : Parser α) : Prop := ∀ i, m (skipSpace data i) = m i

theorem SkipsSpace.ws (data : Bytes) (f : Unit → Parser α) : SkipsSpace data (ws data >>= f) := by
  intro i
  rw [bind_of_ok rfl, bind_of_ok rfl, skipSpace_skipSpace]

theorem SkipsSpace.bind {m : Parser α} (h : SkipsSpace data m) (f : α → Parser β) :
    SkipsSpace data (m >>= f) := by
  intro i
  simp only [Bind.bind, StateT.bind, h i]

/-- A call that skips white space, looks at the next character and goes on with a call that would have
skipped the white space too. -/
theorem Yields.ws_peek {f : UInt8 → Parser α} (ht : t ++ rest = w ++ c :: u) (hw : WS w)
    (hc : isSpace c = false) (hs : SkipsSpace data (f c)) (hf : Yields data (f c) t rest a) :
    Yields data (do JsonParser.ws data; let c ← JsonParser.peek data; f c) t rest a := by
  intro i hi
  rw [ht] at hi
  have hskip : skipSpace data i = i + w.length := by
    refine skipSpace_of_drop hw ?_ hi
    rintro c' hc'
    cases hc'
    exact hc
  have hpeek : JsonParser.peek data (skipSpace data i) = .ok (c, skipSpace data i) := by
    rw [hskip]
    exact peek_of_drop (Lists.drop_add_of_drop hi)
  rw [bind_of_ok rfl, bind_of_ok hpeek, hs i]
  exact hf i (hi.trans ht.symm)

/-! ## Strings -/

theorem hexValue_lt {v : Nat} (h : hexValue c = some v) : v < 16 := by
  simp only [hexValue, UInt8.le_iff_toNat_le] at h
  split at h
  · cases h; simp_all; omega
  · split at h
    · cases h; simp_all; omega
    · split at h
      · cases h; simp_all; omega
      · cases h

theorem Yields.codePoint {hs : Bytes} {n cp : Nat} (h : hexNumber hs n = some cp) :
    Yields data (codePoint data hs.length n) hs rest cp := by
  induction hs generalizing n with
  | nil => cases h; exact Yields.pure _
  | cons c hs ih =>
      obtain ⟨v, hv, h⟩ := Option.bind_eq_some_iff.mp h
      have hn : n <<< 4 ||| v = 16 * n + v := by
        rw [← Nat.shiftLeft_add_eq_or_of_lt (hexValue_lt hv), Nat.shiftLeft_eq, Nat.mul_comm]
      refine Yields.bind (t := [c]) Yields.consume ?_
      simp only [hv, hn]
      exact ih h

theorem Yields.escape_letter {b : UInt8} (h : unescape c = some b) : Yields data (escape data) [c] rest [b] := by
  refine Yields.peek rfl (Yields.consume.andThen ?_)
  simp only [h]
  exact Yields.pure _

theorem Yields.escape_unicode {hs : Bytes} {cp : Nat} (hl : hs.length = 4) (h : hexNumber hs 0 = some cp) :
    Yields data (escape data) (0x75 :: hs) rest (utf8 cp) := by
  refine Yields.peek rfl (Yields.bind (t := [0x75]) Yields.consume ?_)
  have hc : Yields data (JsonParser.codePoint data hs.length 0) hs rest cp := Yields.codePoint h
  rw [hl] at hc
  exact hc.andThen (Yields.pure _)

theorem Yields.stringChar_raw (hc : c ≠ backslash) : Yields data (stringChar data c) [c] rest [c] := by
  refine Yields.consume.andThen ?_
  rw [if_neg hc]
  exact Yields.pure _

theorem Yields.stringChar_escape {bs : Bytes} (h : Yields data (escape data) t rest bs) :
    Yields data (stringChar data backslash) (backslash :: t) rest bs :=
  Yields.bind (t := [backslash]) Yields.consume h

theorem stringLoop_quote {s : Bytes} (h : data[i]? = some quote) : stringLoop data s i = .ok (s, i) := by
  rw [stringLoop]
  split
  · rename_i h'; cases h.symm.trans h'
  · rename_i h'; cases h.symm.trans h'; rfl

theorem stringLoop_char {s bs : Bytes} {j : Nat} (h : data[i]? = some c) (hc : c ≠ quote)
    (hs : stringChar data c i = .ok (bs, j)) : stringLoop data s i = stringLoop data (s ++ bs) j := by
  rw [stringLoop]
  split
  · rename_i h'; cases h.symm.trans h'
  · rename_i h'
    cases h.symm.trans h'
    rw [if_neg hc]
    split
    · rename_i hs'; cases hs.symm.trans hs'
    · rename_i hs'; cases hs.symm.trans hs'; rfl

/-- One character of a string, written as `c :: t`. -/
theorem Yields.stringLoop_cons {s s' bs : Bytes} (hc : c ≠ quote)
    (h1 : Yields data (stringChar data c) (c :: t) (u ++ rest) bs)
    (h2 : Yields data (stringLoop data (s ++ bs)) u rest (s ++ bs ++ s')) :
    Yields data (stringLoop data s) (c :: (t ++ u)) rest (s ++ (bs ++ s')) := by
  intro i hi
  have hi' : data.drop i = (c :: t) ++ (u ++ rest) := by rw [hi, List.cons_append, List.append_assoc]; rfl
  rw [stringLoop_char (Lists.getElem?_of_drop hi) hc (h1 i hi'), h2 _ (Lists.drop_add_of_drop hi'),
    List.append_assoc]
  simp only [List.length_cons, List.length_append]
  rw [Nat.add_assoc, Nat.add_right_comm]

theorem Yields.stringLoop {s s' : Bytes} (h : Chars s t) :
    Yields data (stringLoop data s') t (quote :: rest) (s' ++ s) := by
  induction h generalizing s' with
  | nil =>
      intro i hi
      rw [List.append_nil]
      exact stringLoop_quote (Lists.getElem?_of_drop hi)
  | raw hq hb _ ih => exact Yields.stringLoop_cons hq (Yields.stringChar_raw hb) ih
  | escape hc _ ih =>
      exact Yields.stringLoop_cons (by decide) (Yields.stringChar_escape (Yields.escape_letter hc)) ih
  | unicode hl hcp _ ih =>
      exact Yields.stringLoop_cons (by decide) (Yields.stringChar_escape (Yields.escape_unicode hl hcp)) ih

theorem Yields.string {s : Bytes} (h : Chars s t) :
    Yields data (string data) (quote :: (t ++ [quote])) rest s :=
  Yields.bind (t := [quote]) Yields.matchChar
    ((Yields.stringLoop h).bind (Yields.matchChar.andThen (Yields.pure s)))

/-! ## Numbers -/

theorem isDigit_of_delim (h : Delim (c :: u)) : isDigit c = false := by
  rcases h c rfl with hs | rfl | rfl | rfl
  · simp only [isSpace, Bool.or_eq_true, beq_iff_eq] at hs
    rcases hs with ((rfl | rfl) | rfl) | rfl <;> rfl
  · rfl
  · rfl
  · rfl

end Dwhbll.JsonParser
