import Dwhbll.Tokenizer.Lemmas.Branches

/-!
# String and character literals

The loop over a literal skips two characters behind each backslash, where an escape has one. Both readings are the same
function of the number of characters that they skip.
-/

namespace Dwhbll.Tokenizer

open Loops

variable {ct : CType} {source : Bytes} {cur : Cursor} {quote : UInt8} {fuel : Nat}

/-! ## Reading a literal -/

/-- A literal behind its opening quote, if each backslash takes the next `k` characters with it: it ends with the first
quote that is not skipped, or with the source. What is counted are the newlines that are not skipped. -/
def literalAct (quote : UInt8) (k : Nat) (c : UInt8) (_ : Option UInt8) : Reading.Act :=
  if c = backslash then .go k 0
  else if c = quote then .stop 1
  else .go 0 (if c = newline then 1 else 0)

abbrev literalLength (quote : UInt8) (k skip : Nat) (s : Bytes) : Nat := Reading.length (literalAct quote k) skip s

abbrev literalLines (quote : UInt8) (k skip : Nat) (s : Bytes) : Nat := Reading.counted (literalAct quote k) skip s

theorem literalAct_stop {k n : Nat} {c : UInt8} {next : Option UInt8} (h : literalAct quote k c next = .stop n) :
    n = 1 := by
  unfold literalAct at h
  split at h
  · cases h
  · split at h
    · cases h
      rfl
    · cases h

theorem literalAct_near (quote : UInt8) (k : Nat) : Reading.Near (literalAct quote k) := by
  intro c next n h
  rw [literalAct_stop h]
  exact Nat.le_add_left ..

theorem literalLength_le (quote : UInt8) (k skip : Nat) (s : Bytes) : literalLength quote k skip s ≤ s.length :=
  Reading.length_le (literalAct_near quote k) skip s

/-- Two readings that skip the next `m` and `n` characters come to the same end: the first quote that one of them does
not skip is not skipped by the other, or it is the last character of the source. -/
def SameEnd (quote : UInt8) (j k : Nat) : (m n : Nat) → Bytes → Prop
  | _, _, [] => True
  | m + 1, n + 1, _ :: rest => SameEnd quote j k m n rest
  | m + 1, 0, c :: rest =>
      if c = backslash then SameEnd quote j k m k rest
      else if c = quote then rest = []
      else SameEnd quote j k m 0 rest
  | 0, n + 1, c :: rest =>
      if c = backslash then SameEnd quote j k j n rest
      else if c = quote then rest = []
      else SameEnd quote j k 0 n rest
  | 0, 0, c :: rest =>
      if c = backslash then SameEnd quote j k j k rest
      else if c = quote then True
      else SameEnd quote j k 0 0 rest

/-- Up to a quote without a backslash in front of it the readings are the same. -/
theorem sameEnd_of_no_backslash {quote : UInt8} {s : Bytes} (hquote : quote ≠ backslash)
    (h : backslash ∉ s.takeWhile (· ≠ quote)) (j k : Nat) : SameEnd quote j k 0 0 s := by
  induction s with
  | nil => trivial
  | cons c rest ih =>
      by_cases hq : c = quote
      · simp only [SameEnd, if_neg (hq ▸ hquote), if_pos hq]
      · rw [List.takeWhile_cons_of_pos (by simpa using hq), List.mem_cons, not_or] at h
        simp only [SameEnd, if_neg (Ne.symm h.1), if_neg hq]
        exact ih h.2

/-- One of the readings has ended: the other one ends there too if the source does. -/
theorem one_eq_literalLength_iff (quote : UInt8) (k skip : Nat) (s : Bytes) :
    1 = literalLength quote k skip s + 1 ↔ s = [] := by
  have hstop : ∀ c next, literalAct quote k c next ≠ .stop 0 := fun c next h => by cases literalAct_stop h
  rw [← Reading.length_eq_zero_iff hstop skip s, eq_comm, Nat.add_eq_right]

theorem sameEnd_iff (quote : UInt8) (j k m n : Nat) (s : Bytes) :
    literalLength quote j m s = literalLength quote k n s ↔ SameEnd quote j k m n s := by
  induction s generalizing m n with
  | nil => exact iff_of_true rfl trivial
  | cons c rest ih =>
      cases m with
      | zero =>
          cases n with
          | zero =>
              by_cases hb : c = backslash
              · simp only [Reading.length, literalAct, SameEnd, if_pos hb, Nat.add_right_cancel_iff, ih]
              · by_cases hq : c = quote
                · simp only [Reading.length, literalAct, SameEnd, if_neg hb, if_pos hq]
                · simp only [Reading.length, literalAct, SameEnd, if_neg hb, if_neg hq, Nat.add_right_cancel_iff, ih]
          | succ n =>
              by_cases hb : c = backslash
              · simp only [Reading.length, literalAct, SameEnd, if_pos hb, Nat.add_right_cancel_iff, ih]
              · by_cases hq : c = quote
                · simp only [Reading.length, literalAct, SameEnd, if_neg hb, if_pos hq]
                  exact one_eq_literalLength_iff ..
                · simp only [Reading.length, literalAct, SameEnd, if_neg hb, if_neg hq, Nat.add_right_cancel_iff, ih]
      | succ m =>
          cases n with
          | zero =>
              by_cases hb : c = backslash
              · simp only [Reading.length, literalAct, SameEnd, if_pos hb, Nat.add_right_cancel_iff, ih]
              · by_cases hq : c = quote
                · simp only [Reading.length, literalAct, SameEnd, if_neg hb, if_pos hq]
                  exact eq_comm.trans (one_eq_literalLength_iff ..)
                · simp only [Reading.length, literalAct, SameEnd, if_neg hb, if_neg hq, Nat.add_right_cancel_iff, ih]
          | succ n => simp only [Reading.length, SameEnd, Nat.add_right_cancel_iff, ih]

/-! ## The loop -/

theorem ensures_literalStep (source : Bytes) (quote : UInt8) (cur : Cursor) :
    Ensures (literalStep source quote cur) (Follows (literalAct quote 2) source cur) := by
  unfold literalStep
  split
  · refine ensures_charAt.bind fun c hc => ?_
    split
    · rename_i hb
      refine (ensures_advance_moved cur 2).bind fun cur1 ⟨hpos1, hmoved1⟩ => ?_
      refine (ensures_advance_moved cur1 1).bind fun cur2 ⟨hpos2, hmoved2⟩ => .pure ?_
      exact .go hc (if_pos hb) (by omega) (hmoved1.trans hmoved2)
    rename_i hb
    split
    · rename_i hq
      refine (ensures_advance_moved cur 1).bind fun cur1 ⟨hpos1, hmoved1⟩ => .pure ?_
      exact .stop hc (by rw [literalAct, if_neg hb, if_pos hq]) hpos1 hmoved1
    rename_i hq
    split
    · rename_i hnew
      refine (ensures_newLine_moved cur 0).bind fun cur1 ⟨hpos1, hmoved1⟩ => ?_
      refine (ensures_advance_moved cur1 1).bind fun cur2 ⟨hpos2, hmoved2⟩ => .pure ?_
      exact .go hc (by rw [literalAct, if_neg hb, if_neg hq, if_pos hnew]) (by omega) (hmoved1.trans hmoved2)
    · rename_i hnew
      refine (ensures_advance_moved cur 1).bind fun cur1 ⟨hpos1, hmoved1⟩ => .pure ?_
      exact .go hc (by rw [literalAct, if_neg hb, if_neg hq, if_neg hnew]) hpos1 hmoved1
  · rename_i hge
    exact .pure (.out (Nat.le_of_not_lt hge))

def literalType (quote : UInt8) : TokenType := if quote = doubleQuote then .stringLit else .charLit

/-- What an iteration makes of a literal. -/
theorem ensures_literal (hc : source[cur.pos]? = some quote) :
    Ensures (literal source quote fuel cur) fun r => ∃ t,
      Scanned source cur (literalLines quote 2 0 (source.drop (cur.pos + 1))) r t ∧ t.type = literalType quote ∧
        t.value = quote ::
          (source.drop (cur.pos + 1)).take (literalLength quote 2 0 (source.drop (cur.pos + 1))) := by
  have hlt := lt_of_getElem? hc
  refine (ensures_advance_moved cur 1).bind fun cur1 ⟨hpos1, hmoved1⟩ => ?_
  refine Ensures.bind (ensures_reading (literalAct_near quote 2) (ensures_literalStep source quote) fuel cur1)
    fun cur2 hread => ?_
  have hlen : min cur2.pos source.length =
      min cur1.pos source.length + literalLength quote 2 0 (source.drop cur1.pos) := hread.pos_eq
  have hmoved2 := hread.moved
  rw [hpos1] at hlen hmoved2
  refine (ensures_piece_eq _ cur.pos cur2).mono fun r hr => ?_
  subst hr
  refine ⟨_, scanned_piece source _ Nat.one_pos hpos1 hmoved1 hmoved2, rfl, ?_⟩
  have hend : min cur2.pos source.length - cur.pos =
      literalLength quote 2 0 (source.drop (cur.pos + 1)) + 1 := by omega
  rw [pieceToken_value, hend, drop_of_getElem? hc, List.take_succ_cons]

/-- For every literal that `tokenize` starts at a quote: its value goes up to the first quote that is not escaped, or to
the end of the source, if and only if that is where it ends with two characters in each escape. -/
theorem literal_value_iff (h : Reached ct source fuel cur) (hc : source[cur.pos]? = some quote)
    (hq : quote = doubleQuote ∨ quote = singleQuote) :
    Settles ct source fuel cur fun r => ∃ t, r.1 = some t ∧ t.type = literalType quote ∧
      (t.value = quote ::
          (source.drop (cur.pos + 1)).take (literalLength quote 1 0 (source.drop (cur.pos + 1))) ↔
        SameEnd quote 1 2 0 0 (source.drop (cur.pos + 1))) := by
  refine .of_ensures h (lt_of_getElem? hc) ?_
  rw [step_of_quote hc hq]
  refine (ensures_literal hc).mono fun r ⟨t, ht, htype, hvalue⟩ => ⟨t, ht.token, htype, ?_⟩
  rw [hvalue, List.cons.injEq, ← sameEnd_iff]
  constructor
  · rintro ⟨-, htake⟩
    have hlen := congrArg List.length htake
    rw [List.length_take_of_le (literalLength_le ..), List.length_take_of_le (literalLength_le ..)] at hlen
    exact hlen.symm
  · intro hlen
    rw [hlen]
    exact ⟨rfl, rfl⟩

/-- A string without a backslash. -/
theorem literal_value_iff_plain : Settles .c (text "\"a\";") 9 .start fun r =>
    ∃ t, r.1 = some t ∧ t.type = .stringLit ∧ t.value = text "\"a\"" :=
  (literal_value_iff .start rfl (.inl rfl)).mono fun _ ⟨t, ht, htype, hvalue⟩ =>
    ⟨t, ht, htype, hvalue.mpr (sameEnd_of_no_backslash (by decide) (by decide) 1 2)⟩

/-- `"\n";` is one string: the closing quote is the second character behind the backslash. -/
theorem literal_runs_on :
    step .c (text "\"\\n\";") 9 .start = .ok (some ⟨.stringLit, text "\"\\n\";", 1, 1⟩, ⟨5, 1, 6, 5⟩) ∧
      text "\"\\n\";" ≠ doubleQuote ::
        ((text "\"\\n\";").drop 1).take (literalLength doubleQuote 1 0 ((text "\"\\n\";").drop 1)) ∧
      ¬ SameEnd doubleQuote 1 2 0 0 ((text "\"\\n\";").drop 1) := by
  refine ⟨by rfl, by decide, ?_⟩
  rw [← sameEnd_iff]
  decide

end Dwhbll.Tokenizer
