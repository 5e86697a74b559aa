import Dwhbll.Tokenizer.Lemmas.Branches

/-!
# Block comments

At a newline the loop over a block comment moves the cursor twice, and steps over the character behind it.
-/

namespace Dwhbll.Tokenizer

open Loops

variable {ct : CType} {source : Bytes} {cur : Cursor} {fuel : Nat}

/-! ## Reading a comment -/

/-- A block comment behind its opening mark, if each newline takes the next `k` characters with it: it ends with the
closing mark, or with the source. What is counted are the newlines that are not skipped. -/
def commentAct (k : Nat) (c : UInt8) (next : Option UInt8) : Reading.Act :=
  if c = newline then .go k 1
  else if c = star ∧ next = some slash then .stop 2
  else .go 0 0

def commentLength (k skip : Nat) (s : Bytes) : Nat := Reading.length (commentAct k) skip s

def commentLines (k skip : Nat) (s : Bytes) : Nat := Reading.counted (commentAct k) skip s

/-- The comment that begins at `pos`. -/
def commentText (source : Bytes) (pos : Nat) : Bytes :=
  slash :: star :: (source.drop (pos + 2)).take (commentLength 0 0 (source.drop (pos + 2)))

/-- In the comment no newline is followed by another one, nor by the closing mark unless the source ends there. -/
def Clean : Bytes → Prop
  | [] => True
  | c :: rest =>
      if c = newline then
        rest.head? ≠ some newline ∧ (∀ more, rest = star :: slash :: more → more = []) ∧ Clean rest
      else if c = star ∧ rest.head? = some slash then True
      else Clean rest

section Acts

variable {k : Nat} {c : UInt8} {next : Option UInt8}

theorem commentAct_newline (k : Nat) (next : Option UInt8) : commentAct k newline next = .go k 1 := rfl

theorem commentAct_close (k : Nat) : commentAct k star (some slash) = .stop 2 := rfl

theorem commentAct_other (hnew : c ≠ newline) (hclose : ¬ (c = star ∧ next = some slash)) :
    commentAct k c next = .go 0 0 := by
  rw [commentAct, if_neg hnew, if_neg hclose]

end Acts

theorem commentAct_stop {k n : Nat} {c : UInt8} {next : Option UInt8} (h : commentAct k c next = .stop n) :
    n = 2 ∧ c = star ∧ next = some slash := by
  unfold commentAct at h
  split at h
  · cases h
  · split at h
    · cases h
      exact ⟨rfl, ‹_›⟩
    · cases h

theorem commentAct_near (k : Nat) : Reading.Near (commentAct k) := by
  intro c next n h
  obtain ⟨rfl, -, rfl⟩ := commentAct_stop h
  exact Nat.le_refl _

theorem commentLength_le (k skip : Nat) (s : Bytes) : commentLength k skip s ≤ s.length :=
  Reading.length_le (commentAct_near k) skip s

theorem commentLength_eq_zero_iff (k skip : Nat) (s : Bytes) : commentLength k skip s = 0 ↔ s = [] :=
  Reading.length_eq_zero_iff (fun _ _ h => by cases (commentAct_stop h).1) skip s

section Equations

variable {k skip : Nat} {c : UInt8} {rest : Bytes}

theorem commentLength_succ : commentLength k (skip + 1) (c :: rest) = commentLength k skip rest + 1 := rfl

theorem commentLines_succ : commentLines k (skip + 1) (c :: rest) = commentLines k skip rest := rfl

theorem commentLength_newline : commentLength k 0 (newline :: rest) = commentLength k k rest + 1 := rfl

theorem commentLines_newline : commentLines k 0 (newline :: rest) = commentLines k k rest + 1 := rfl

theorem commentLength_close (more : Bytes) : commentLength k 0 (star :: slash :: more) = 2 := rfl

theorem commentLines_close (more : Bytes) : commentLines k 0 (star :: slash :: more) = 0 := rfl

theorem commentLength_other (hnew : c ≠ newline) (hclose : ¬ (c = star ∧ rest.head? = some slash)) :
    commentLength k 0 (c :: rest) = commentLength k 0 rest + 1 := Reading.length_go (commentAct_other hnew hclose)

theorem commentLines_other (hnew : c ≠ newline) (hclose : ¬ (c = star ∧ rest.head? = some slash)) :
    commentLines k 0 (c :: rest) = commentLines k 0 rest := Reading.counted_go (commentAct_other hnew hclose)

end Equations

/-! What is counted is in the comment. -/

theorem commentLines_le (k skip : Nat) (s : Bytes) :
    commentLines k skip s ≤ (s.take (commentLength k skip s)).count newline := by
  refine Reading.counted_le_count (fun c next skip n h => ?_) skip s
  unfold commentAct at h
  split at h
  · rename_i hnew
    cases h
    exact Nat.le_of_eq (if_pos (beq_iff_eq.mpr hnew)).symm
  · split at h
    · cases h
    · cases h
      exact Nat.zero_le _

/-- The first newline of a comment is counted. -/
theorem commentLines_pos {k : Nat} {s : Bytes} (h : newline ∈ s.take (commentLength k 0 s)) :
    0 < commentLines k 0 s := by
  induction s with
  | nil => cases h
  | cons c rest ih =>
      by_cases hnew : c = newline
      · subst hnew
        exact Nat.succ_pos _
      · by_cases hclose : c = star ∧ rest.head? = some slash
        · obtain ⟨more, rfl⟩ := List.head?_eq_some_iff.mp hclose.2
          rw [hclose.1, commentLength_close] at h
          exact absurd h (by decide : newline ∉ [star, slash])
        · rw [commentLength_other hnew hclose, List.take_succ_cons, List.mem_cons] at h
          rw [commentLines_other hnew hclose]
          exact ih (h.resolve_left (Ne.symm hnew))

theorem commentLines_eq (s : Bytes) : commentLines 0 0 s = (s.take (commentLength 0 0 s)).count newline := by
  induction s with
  | nil => rfl
  | cons c rest ih =>
      by_cases hnew : c = newline
      · subst hnew
        rw [commentLines_newline, commentLength_newline, List.take_succ_cons, List.count_cons_self, ih]
      · by_cases hclose : c = star ∧ rest.head? = some slash
        · obtain ⟨more, rfl⟩ := List.head?_eq_some_iff.mp hclose.2
          obtain rfl := hclose.1
          rfl
        · rw [commentLines_other hnew hclose, commentLength_other hnew hclose, List.take_succ_cons,
            List.count_cons_of_ne hnew, ih]

/-! ## The two readings -/

/-- The reading with a skip is right from a place on that it looks at, and from one that it steps over. -/
theorem clean_iff (s : Bytes) :
    (commentLength 1 0 s = commentLength 0 0 s ∧ commentLines 1 0 s = commentLines 0 0 s ↔ Clean s) ∧
      (commentLength 1 1 s = commentLength 0 0 s ∧ commentLines 1 1 s = commentLines 0 0 s ↔
        s.head? ≠ some newline ∧ (∀ more, s = star :: slash :: more → more = []) ∧ Clean s) := by
  induction s with
  | nil => simp [commentLength, commentLines, Reading.length, Reading.counted, Clean]
  | cons c rest ih =>
      obtain ⟨ih, ihSkip⟩ := ih
      by_cases hnew : c = newline
      · subst hnew
        rw [commentLength_newline, commentLines_newline, commentLength_newline, commentLines_newline, commentLength_succ,
          commentLines_succ]
        refine ⟨?_, ?_⟩
        · rw [Nat.add_right_cancel_iff, Nat.add_right_cancel_iff, ihSkip, Clean, if_pos rfl]
        · -- A newline that is stepped over is not counted.
          refine iff_of_false ?_ fun h => h.1 rfl
          rw [Nat.add_right_cancel_iff]
          rintro ⟨hlen, hcount⟩
          have hle := commentLines_le 1 0 rest
          rw [hlen, hcount, commentLines_eq rest] at hle
          omega
      · by_cases hclose : c = star ∧ rest.head? = some slash
        · obtain ⟨more, rfl⟩ := List.head?_eq_some_iff.mp hclose.2
          obtain rfl := hclose.1
          refine ⟨iff_of_true ⟨rfl, rfl⟩ trivial, ?_⟩
          have hlen : commentLength 1 1 (star :: slash :: more) = commentLength 1 0 more + 2 := rfl
          have hcount : commentLines 1 1 (star :: slash :: more) = commentLines 1 0 more := rfl
          rw [hlen, hcount, commentLength_close, commentLines_close, Nat.add_eq_right, commentLength_eq_zero_iff]
          constructor
          · rintro ⟨rfl, -⟩
            exact ⟨by decide, fun more h => by cases h; rfl, trivial⟩
          · rintro ⟨-, hmore, -⟩
            obtain rfl := hmore more rfl
            exact ⟨rfl, rfl⟩
        · have hclean : Clean (c :: rest) = Clean rest := by rw [Clean, if_neg hnew, if_neg hclose]
          have hhead : (c :: rest).head? ≠ some newline := fun h => hnew (Option.some.inj h)
          have hmark : ∀ more, c :: rest = star :: slash :: more → more = [] := by
            rintro more ⟨⟩
            exact absurd ⟨rfl, rfl⟩ hclose
          rw [hclean, and_iff_right hhead, and_iff_right hmark, commentLength_other hnew hclose,
            commentLines_other hnew hclose, commentLength_other hnew hclose, commentLines_other hnew hclose,
            commentLength_succ, commentLines_succ, Nat.add_right_cancel_iff]
          exact ⟨ih, ih⟩

/-! ## The loop -/

theorem ensures_blockCommentStep (source : Bytes) (cur : Cursor) :
    Ensures (blockCommentStep source cur) (Follows (commentAct 1) source cur) := by
  unfold blockCommentStep
  split
  · refine ensures_charAt.bind fun c hc => ?_
    split
    · rename_i hnew
      subst hnew
      refine (ensures_newLine_moved cur 1).bind fun cur1 ⟨hpos1, hmoved1⟩ => ?_
      refine (ensures_advance_moved cur1 1).bind fun cur2 ⟨hpos2, hmoved2⟩ => .pure ?_
      exact .go hc (commentAct_newline 1 _) (by omega) (hmoved1.trans hmoved2)
    rename_i hnew
    refine Ensures.bind (ensures_ifAt source (c == star) (cur.pos + 1) (· == slash)) fun r hr => ?_
    split
    · rename_i htrue
      obtain ⟨hstar, hslash⟩ := pair_of_ifAt (hr.mp htrue)
      refine (ensures_advance_moved cur 2).bind fun cur1 ⟨hpos1, hmoved1⟩ => .pure ?_
      refine .stop hc ?_ hpos1 hmoved1
      rw [hslash, beq_iff_eq.mp hstar, commentAct_close]
    · rename_i hfalse
      refine (ensures_advance_moved cur 1).bind fun cur1 ⟨hpos1, hmoved1⟩ => .pure ?_
      refine .go hc (commentAct_other hnew ?_) hpos1 hmoved1
      rintro ⟨hstar, hslash⟩
      exact hfalse (hr.mpr ⟨beq_iff_eq.mpr hstar, slash, hslash, beq_self_eq_true slash⟩)
  · rename_i hge
    exact .pure (.out (Nat.le_of_not_lt hge))

/-- What an iteration makes of a block comment. -/
theorem ensures_blockComment (hc : source[cur.pos]? = some slash) (hstar : source[cur.pos + 1]? = some star) :
    Ensures (blockComment source fuel cur) fun r => ∃ t,
      Scanned source cur (commentLines 1 0 (source.drop (cur.pos + 2))) r t ∧ t.type = .blockComment ∧
        t.value = slash :: star ::
          (source.drop (cur.pos + 2)).take (commentLength 1 0 (source.drop (cur.pos + 2))) := by
  have hlt := lt_of_getElem? hstar
  refine (ensures_advance_moved cur 2).bind fun cur1 ⟨hpos1, hmoved1⟩ => ?_
  refine Ensures.bind (ensures_reading (commentAct_near 1) (ensures_blockCommentStep source) fuel cur1)
    fun cur2 hread => ?_
  have hlen : min cur2.pos source.length =
      min cur1.pos source.length + commentLength 1 0 (source.drop cur1.pos) := hread.pos_eq
  have hmoved2 := hread.moved
  rw [hpos1] at hlen hmoved2
  refine (ensures_piece_eq _ cur.pos cur2).mono fun r hr => ?_
  subst hr
  refine ⟨_, scanned_piece source _ Nat.two_pos hpos1 hmoved1 hmoved2, rfl, ?_⟩
  have hend : min cur2.pos source.length - cur.pos = commentLength 1 0 (source.drop (cur.pos + 2)) + 1 + 1 := by
    omega
  rw [pieceToken_value, hend, drop_of_getElem? hc, drop_of_getElem? hstar, List.take_succ_cons, List.take_succ_cons]

/-- For every block comment that `tokenize` starts: its value goes up to the first closing mark, or to the end of the
source, and each newline in it has been counted, if and only if the comment is clean. -/
theorem blockComment_iff (h : Reached ct source fuel cur) (hc : source[cur.pos]? = some slash)
    (hstar : source[cur.pos + 1]? = some star) :
    Settles ct source fuel cur fun r => ∃ t, r.1 = some t ∧ t.type = .blockComment ∧
      (t.value = commentText source cur.pos ∧
          r.2.line = cur.line + (commentText source cur.pos).count newline ↔
        Clean (source.drop (cur.pos + 2))) := by
  refine .of_ensures h (lt_of_getElem? hc) ?_
  rw [step_of_blockComment hc hstar]
  refine (ensures_blockComment hc hstar).mono fun r ⟨t, ht, htype, hvalue⟩ => ⟨t, ht.token, htype, ?_⟩
  have hcount : (commentText source cur.pos).count newline = commentLines 0 0 (source.drop (cur.pos + 2)) := by
    rw [commentLines_eq, commentText, List.count_cons_of_ne (by decide), List.count_cons_of_ne (by decide)]
  have hlength : t.value = commentText source cur.pos ↔
      commentLength 1 0 (source.drop (cur.pos + 2)) = commentLength 0 0 (source.drop (cur.pos + 2)) := by
    rw [hvalue, commentText, List.cons.injEq, List.cons.injEq, and_iff_right rfl, and_iff_right rfl]
    constructor
    · intro htake
      have hlen := congrArg List.length htake
      rwa [List.length_take_of_le (commentLength_le ..), List.length_take_of_le (commentLength_le ..)] at hlen
    · intro hlen
      rw [hlen]
  rw [hlength, ht.moved.line_eq, hcount, Nat.add_left_cancel_iff]
  exact (clean_iff _).1

/-- A comment of two lines. -/
theorem blockComment_iff_lines : Settles .c (text "/*a\nb*/;") 9 .start fun r => ∃ t, r.1 = some t ∧
    t.type = .blockComment ∧
    (t.value = text "/*a\nb*/" ∧ r.2.line = 2 ↔ Clean (text "a\nb*/;")) :=
  blockComment_iff .start rfl rfl

/-- `/*` and `*/;` on two lines are one comment of the whole source: the closing mark is stepped over. -/
theorem blockComment_runs_on :
    step .c (text "/*\n*/;") 9 .start = .ok (some ⟨.blockComment, text "/*\n*/;", 2, -2⟩, ⟨6, 2, 4, 6⟩) ∧
      text "/*\n*/;" ≠ commentText (text "/*\n*/;") 0 :=
  ⟨by rfl, by decide⟩

end Dwhbll.Tokenizer
