import Dwhbll.Tokenizer.Counters
import Dwhbll.Tokenizer.Theorems

/-!
# The positions of tokens over several lines

The column of a token is that of its end less its length, which counts what is on the other lines too.
-/

namespace Dwhbll.Tokenizer

open Loops

variable {ct : CType} {source : Bytes} {cur : Cursor} {c : UInt8} {fuel n : Nat} {t : Token}

/-- The token has a newline in it and is more than that. -/
def SpansLines (t : Token) : Prop := newline ∈ t.value ∧ t.type ≠ .newline

/-- The position of the token is that of the character at `pos`. -/
structure HasPosition (source : Bytes) (pos : Nat) (t : Token) : Prop where
  line_eq : t.line = lineOf (source.take pos)
  column_eq : t.column = columnOf (source.take pos)

/-- The column of a token is a positive one only if no newline was counted in its scan. -/
theorem Scanned.hasPosition_iff {r : Option Token × Cursor} (h : Scanned source cur n r t)
    (hin : cur.pos ≤ source.length) :
    HasPosition source cur.pos t ↔ At source cur ∧ n = 0 := by
  have hpos : 0 < columnOf (source.take cur.pos) := Nat.succ_pos _
  constructor
  · rintro ⟨hline, hcol⟩
    have hn : n = 0 := by
      refine Nat.eq_zero_of_not_pos fun hn => ?_
      have hle := h.column_le hn
      omega
    have hline' := h.line_eq
    have hcol' := h.column_eq hn
    exact ⟨⟨hin, by omega, by omega⟩, hn⟩
  · rintro ⟨hat, hn⟩
    have hline := h.line_eq
    have hline' := hat.line_eq
    exact ⟨by omega, by rw [h.column_eq hn, hat.col_eq]⟩

/-- No newline is counted in the scan of the token that begins there: those in a literal are all among the two
characters that are skipped behind a backslash, and those in a directive all stand before its name. -/
def Uncounted (ct : CType) : Bytes → Prop
  | [] => False
  | c :: rest =>
      (c = doubleQuote ∨ c = singleQuote) ∧ literalLines c 2 0 rest = 0 ∨
        c = hashSign ∧ newline ∉ logicalLine false (afterName ct rest)

theorem step_hasPosition_iff (hc : source[cur.pos]? = some c) :
    EnsuresToken (fun t => SpansLines t →
      (HasPosition source cur.pos t ↔ At source cur ∧ Uncounted ct (source.drop cur.pos)))
      (step ct source fuel cur) := by
  have hin := Nat.le_of_lt (lt_of_getElem? hc)
  rw [drop_of_getElem? hc]
  by_cases hquote : c = doubleQuote ∨ c = singleQuote
  · have hsign : c ≠ hashSign := by
      rcases hquote with rfl | rfl <;> decide
    rw [step_of_quote hc hquote]
    refine (ensures_literal hc).mono fun r ⟨t', ht', _, _⟩ t ht _ => ?_
    obtain rfl := Option.some.inj (ht'.token.symm.trans ht)
    rw [ht'.hasPosition_iff hin, Uncounted, and_iff_right hquote, or_iff_left fun h => hsign h.1]
  by_cases hblock : c = slash ∧ source[cur.pos + 1]? = some star
  · obtain ⟨rfl, hstar⟩ := hblock
    rw [step_of_blockComment hc hstar]
    refine (ensures_blockComment hc hstar).mono fun r ⟨t', ht', _, hvalue⟩ t ht hspans => ?_
    obtain rfl := Option.some.inj (ht'.token.symm.trans ht)
    have hmem := hspans.1
    rw [hvalue, List.mem_cons, List.mem_cons] at hmem
    have hpos := commentLines_pos ((hmem.resolve_left (by decide)).resolve_left (by decide))
    rw [ht'.hasPosition_iff hin]
    refine iff_of_false (fun h => Nat.ne_of_gt hpos h.2) ?_
    rintro ⟨-, ⟨hquote', -⟩ | ⟨hsign, -⟩⟩
    · exact hquote hquote'
    · exact absurd hsign (by decide)
  by_cases hsign : c = hashSign
  · subst hsign
    rw [step_of_hashSign hc]
    refine (ensures_directive hc).mono fun r ⟨t', ht'⟩ t ht hspans => ?_
    rcases ht' with ⟨-, ht'⟩ | ⟨-, ht'⟩
    · obtain rfl := Option.some.inj (ht'.scanned.token.symm.trans ht)
      rw [ht'.scanned.hasPosition_iff hin, ← (logicalLine_eq_take _).2, List.count_eq_zero, Uncounted,
        or_iff_right fun h => hquote h.1, and_iff_right rfl]
    · obtain rfl := Option.some.inj (ht'.token.symm.trans ht)
      have hmem := hspans.1
      rw [ht'.value_eq] at hmem
      exact absurd hmem (by decide)
  · refine (step_stays hc hquote hblock hsign).mono fun r hr t ht hspans => ?_
    exact absurd (hr.2 t ht hspans.1) hspans.2

/-! ## Whole runs -/

/-- The iterations of `tokenize` up to a cursor: where each of them begins, and the token that it pushes. -/
inductive Run (ct : CType) (source : Bytes) (fuel : Nat) : List (Cursor × Option Token) → Cursor → Prop
  | start : Run ct source fuel [] .start
  | step {ps : List (Cursor × Option Token)} {cur : Cursor} {r : Option Token × Cursor}
      (h : Run ct source fuel ps cur) (hlt : cur.pos < source.length) (hr : step ct source fuel cur = .ok r) :
      Run ct source fuel (ps ++ [(cur, r.1)]) r.2

variable {ps before : List (Cursor × Option Token)} {p : Cursor × Option Token}

/-- An iteration of a run, after the iterations before it. -/
theorem Run.of_prefix (h : Run ct source fuel ps cur) (hp : before ++ [p] <+: ps) :
    Run ct source fuel before p.1 ∧ p.1.pos < source.length ∧
      ∃ cur', Tokenizer.step ct source fuel p.1 = .ok (p.2, cur') := by
  induction h with
  | start => simp at hp
  | step h hlt hr ih =>
      rcases List.prefix_concat_iff.mp hp with heq | hp
      · obtain ⟨rfl, rfl⟩ := List.append_singleton_inj.mp heq
        exact ⟨h, hlt, _, hr⟩
      · exact ih hp

/-- In a run whose iterations all keep the counters right, they are right. -/
theorem Run.at (h : Run ct source fuel ps cur) (hin : cur.pos ≤ source.length)
    (hkeeps : ∀ p ∈ ps, Keeps ct (source.drop p.1.pos)) : At source cur := by
  induction h with
  | start => exact at_start source
  | @step ps cur r h hlt hr ih =>
      have hat := ih (Nat.le_of_lt hlt) fun p hp => hkeeps p (List.mem_append_left _ hp)
      have hlast := hkeeps (cur, r.1) (List.mem_append_right _ List.mem_cons_self)
      exact (step_at_iff (List.getElem?_eq_getElem hlt) hat r hr).mpr ⟨hin, hlast⟩

/-- The tokens are those of a run over the whole source. Where each of them begins the counters are right as long as the
iterations before it keep them, and the position of a token of several lines is that of its first character if and only
if the counters are right there and no newline is counted from there on. -/
def Positioned (ct : CType) (source : Bytes) (fuel : Nat) (r : List Token × Cursor) : Prop :=
  ∃ ps, Run ct source fuel ps r.2 ∧ source.length ≤ r.2.pos ∧
    r.1 = ps.filterMap (·.2) ++ [{ type := .eof, value := [], line := r.2.line, column := r.2.col }] ∧
    ∀ before p, before ++ [p] <+: ps →
      ((∀ q ∈ before, Keeps ct (source.drop q.1.pos)) → At source p.1) ∧
        ∀ t, p.2 = some t → SpansLines t →
          (HasPosition source p.1.pos t ↔ At source p.1 ∧ Uncounted ct (source.drop p.1.pos))

theorem ensures_tokenize_positioned (ct : CType) (source : Bytes) (fuel : Nat) :
    Ensures (tokenize ct source fuel) (Positioned ct source fuel) := by
  refine Ensures.bind (Q := fun s => ∃ ps, Run ct source fuel ps s.2 ∧ s.1 = ps.filterMap (·.2) ∧
    source.length ≤ s.2.pos) ?_ ?_
  · refine Ensures.loop (I := fun s => ∃ ps, Run ct source fuel ps s.2 ∧ s.1 = ps.filterMap (·.2)) ?_
      ⟨[], .start, rfl⟩
    rintro ⟨ts, cur⟩ ⟨ps, hrun, rfl⟩
    unfold tokenizeStep
    split
    · rename_i hlt
      refine Ensures.bind (Q := fun r => step ct source fuel cur = .ok r) (fun _ hr => hr) fun r hr => .pure ?_
      refine ⟨_, .step hrun hlt hr, ?_⟩
      rw [List.filterMap_append]
      cases r.1 <;> rfl
    · rename_i hge
      exact .pure ⟨ps, hrun, rfl, Nat.le_of_not_lt hge⟩
  · rintro ⟨ts, cur⟩ ⟨ps, hrun, rfl, hend⟩
    refine .pure ⟨ps, hrun, hend, rfl, fun before p hp => ?_⟩
    obtain ⟨hbefore, hlt, cur', hr⟩ := hrun.of_prefix hp
    refine ⟨hbefore.at (Nat.le_of_lt hlt), fun t ht => ?_⟩
    exact step_hasPosition_iff (List.getElem?_eq_getElem hlt) _ hr t ht

/-- For every source and every token of several lines that `tokenize` returns: it has the line and the column of its
first character if and only if the cursor had them there and no newline was counted in the scan of the token. -/
theorem multiline_position_iff (ct : CType) (source : Bytes) (fuel : Nat) :
    Ensures (tokenize ct source fuel) (Positioned ct source fuel) ∧
      (source.length < 2 ^ 31 - 4 → source.length < fuel →
        Returns (tokenize ct source fuel) (Positioned ct source fuel)) := by
  refine ⟨ensures_tokenize_positioned ct source fuel, fun hn hf => ?_⟩
  have hstart : Fits source .start := ⟨by decide, by decide, Nat.zero_le _, Nat.zero_le _⟩
  have hstep : ∀ (_ : List Token) cur, Fits source cur → cur.pos < source.length →
      Returns (step ct source fuel cur) fun r => Fits source r.2 ∧ cur.pos < r.2.pos :=
    fun _ cur hcur hlt => (Returns.step_safe hn hcur hlt hf).mono fun r hr => ⟨hr.fits, hr.lt⟩
  obtain ⟨ts, cur, heq, -, -⟩ := tokenize_of_invariant (I := fun _ cur => Fits source cur) hstart hstep hf
  have hreturns : Returns (tokenize ct source fuel) fun _ => True := ⟨_, heq, trivial⟩
  exact (ensures_tokenize_positioned ct source fuel).returns hreturns

/-- A block comment of two lines is said to be on the second one, four columns before its first. -/
theorem comment_mislaid :
    tokenize .c (text "/*a\nb*/") 9 =
        .ok ([⟨.blockComment, text "/*a\nb*/", 2, -3⟩, ⟨.eof, [], 2, 4⟩], ⟨7, 2, 4, 7⟩) ∧
      SpansLines ⟨.blockComment, text "/*a\nb*/", 2, -3⟩ ∧
      ¬ HasPosition (text "/*a\nb*/") 0 ⟨.blockComment, text "/*a\nb*/", 2, -3⟩ := by
  refine ⟨by rfl, ⟨by decide, by decide⟩, fun h => ?_⟩
  exact absurd h.line_eq (by decide)

end Dwhbll.Tokenizer
