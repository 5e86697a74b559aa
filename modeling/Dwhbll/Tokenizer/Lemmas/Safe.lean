import Dwhbll.Tokenizer.Lemmas.Words

/-!
# No iteration does what it must not do

Most iterations move the cursor along a line. Block comments, literals and directives also move it over newlines, and
past the end of the source.
-/

namespace Dwhbll.Tokenizer

open Loops

variable {ct : CType} {source : Bytes} {cur cur' : Cursor} {c : UInt8} {fuel k : Nat}

/-! ## Iterations on a line -/

/-- What an iteration does unless it meets a block comment, a literal or a directive. -/
inductive Line (ct : CType) (source : Bytes) (cur : Cursor) : Option Token × Cursor → Prop
  | newline (hc : source[cur.pos]? = some newline) :
      Line ct source cur (some { type := .newline, value := [newline], line := cur.line, column := cur.col },
        { pos := cur.pos + 1, line := cur.line + 1, col := 1, top := max cur.top (cur.pos + 1) })
  | blank {c : UInt8} {cur' : Cursor} (hc : source[cur.pos]? = some c) (hspace : c = 0x0D ∨ ct.isspace c = true)
      (h : Skips source cur cur') (hpos : cur'.pos = cur.pos + 1) : Line ct source cur (none, cur')
  | word {t : Token} {cur' : Cursor} (h : Word source cur t cur') : Line ct source cur (some t, cur')

theorem Pushes.line {r : Option Token × Cursor} (h : Pushes source cur r) : Line ct source cur r := by
  obtain ⟨t, ht, hword⟩ := h
  obtain ⟨t', cur'⟩ := r
  cases ht
  exact .word hword

theorem pair_of_ifAt {b : Bool} {i : Nat} {d : UInt8}
    (h : b = true ∧ ∃ e, source[i]? = some e ∧ (e == d) = true) : b = true ∧ source[i]? = some d := by
  obtain ⟨hb, e, he, hed⟩ := h
  rw [beq_iff_eq] at hed
  exact ⟨hb, hed ▸ he⟩

/-- An iteration stays on the line, or it is in one of the three branches that do not. -/
theorem Attains.step {ok : Prop} {Q : Option Token × Cursor → Prop} (hc : source[cur.pos]? = some c)
    (hroomy : ok → Roomy source fuel cur) (hline : ok → c = newline → cur.line + 1 < 2 ^ 31)
    (hblock : c = slash → source[cur.pos + 1]? = some star → Attains ok (blockComment source fuel cur) Q)
    (hliteral : c = doubleQuote ∨ c = singleQuote → Attains ok (literal source c fuel cur) Q)
    (hdirective : c = hashSign → Attains ok (directive ct source fuel cur) Q) :
    Attains ok (step ct source fuel cur) fun r =>
      Line ct source cur r ∧ (∀ t, r.1 = some t → OnLine t) ∨ Q r := by
  have hpushes : ∀ {m : Except Fault (Option Token × Cursor)},
      Attains (Roomy source fuel cur) m (PushesLine source cur) →
      Attains ok m fun r => Line ct source cur r ∧ (∀ t, r.1 = some t → OnLine t) ∨ Q r :=
    fun h => (h.of_imp hroomy).mono fun r hr => .inl ⟨hr.1.line, hr.2⟩
  have hother : ∀ {m : Except Fault (Option Token × Cursor)}, Attains ok m Q →
      Attains ok m fun r => Line ct source cur r ∧ (∀ t, r.1 = some t → OnLine t) ∨ Q r :=
    fun h => h.mono fun r hr => .inr hr
  have hlt := lt_of_getElem? hc
  refine (Returns.charAt hc).attains.bind fun c' hc' => ?_
  subst hc'
  split
  · rename_i hnew
    subst hnew
    have hint : ok → cur.pos + 1 < 2 ^ 31 ∧ cur.line + 1 < 2 ^ 31 := fun hok =>
      ⟨Nat.lt_of_le_of_lt hlt (hroomy hok).length_lt, hline hok rfl⟩
    refine ((Attains.newLine cur 1).of_imp hint).bind fun cur' hcur' => .pure (.inl ⟨?_, ?_⟩)
    · subst hcur'
      exact .newline hc
    · rintro t ⟨⟩ _
      rfl
  rename_i hne
  split
  · rename_i hspace
    refine ((Attains.advance_one (.refl (Nat.le_of_lt hlt)) hc hne).of_imp hroomy).bind fun cur' ⟨h, hpos⟩ => ?_
    exact .pure (.inl ⟨.blank hc hspace h hpos, nofun⟩)
  rename_i hspace
  refine (Returns.ifAt ..).attains.bind fun r hr => ?_
  split
  · rename_i htrue
    obtain ⟨hslash, hnext⟩ := pair_of_ifAt (hr.mp htrue)
    exact hpushes (Attains.lineComment (beq_iff_eq.mp hslash ▸ hc) hnext)
  refine (Returns.ifAt ..).attains.bind fun r hr => ?_
  split
  · rename_i htrue
    obtain ⟨hslash, hnext⟩ := pair_of_ifAt (hr.mp htrue)
    exact hother (hblock (beq_iff_eq.mp hslash) hnext)
  split
  · rename_i hquote
    exact hother (hliteral hquote)
  refine (Returns.ifAt ..).attains.bind fun r _ => ?_
  split
  · exact hpushes (Attains.number hc hne)
  split
  · exact hpushes (Attains.identifier hc hne)
  rename_i hident
  split
  · rename_i hhash
    exact hother (hdirective hhash)
  · have hspace : ct.isspace c' = false := Bool.eq_false_iff.mpr fun h => hspace (.inr h)
    exact hpushes (Attains.operator hc hne hspace (Bool.eq_false_iff.mpr hident))

theorem Returns.step {Q : Option Token × Cursor → Prop} (hn : source.length < 2 ^ 31) (hroom : Room source cur)
    (hf : source.length < fuel) (hc : source[cur.pos]? = some c) (hline : c = newline → cur.line + 1 < 2 ^ 31)
    (hblock : c = slash → source[cur.pos + 1]? = some star → Returns (blockComment source fuel cur) Q)
    (hliteral : c = doubleQuote ∨ c = singleQuote → Returns (literal source c fuel cur) Q)
    (hdirective : c = hashSign → Returns (directive ct source fuel cur) Q) :
    Returns (step ct source fuel cur) fun r => Line ct source cur r ∨ Q r := by
  have hstep : Attains True (Tokenizer.step ct source fuel cur) fun r =>
      Line ct source cur r ∧ (∀ t, r.1 = some t → OnLine t) ∨ Q r :=
    Attains.step hc (fun _ => ⟨hn, hf, hroom⟩) (fun _ => hline) (fun hslash hstar => (hblock hslash hstar).attains)
      (fun hquote => (hliteral hquote).attains) fun hsign => (hdirective hsign).attains
  exact (hstep.returns trivial).mono fun r hr => hr.imp And.left id

/-! ## The other iterations -/

/-- What holds of the cursor between two iterations. -/
structure Fits (source : Bytes) (cur : Cursor) : Prop where
  line_le : cur.line ≤ cur.pos + 1
  col_le : cur.col ≤ cur.pos + 1
  pos_le : cur.pos ≤ source.length + 3
  top_le : cur.top ≤ source.length + 3

/-- What an iteration leaves: the cursor has moved on, and `eof` was not pushed. -/
structure Safe (source : Bytes) (cur : Cursor) (r : Option Token × Cursor) : Prop where
  fits : Fits source r.2
  lt : cur.pos < r.2.pos
  type_ne : ∀ t ∈ r.1, t.type ≠ .eof

theorem Fits.room (h : Fits source cur) (hn : source.length < 2 ^ 31 - 4) : Room source cur := by
  intro i hi hin _
  have := h.col_le
  omega

theorem Skips.fits (h : Skips source cur cur') (hcur : Fits source cur) : Fits source cur' := by
  obtain ⟨hle, hin, hline, hcol, htop, -⟩ := h
  obtain ⟨hline', hcol', hpos', htop'⟩ := hcur
  exact ⟨by omega, by omega, by omega, by omega⟩

theorem Line.safe {r : Option Token × Cursor} (h : Line ct source cur r) (hcur : Fits source cur) :
    Safe source cur r := by
  cases h with
  | newline hc =>
      obtain ⟨hline, -, -, htop⟩ := hcur
      have hlt := lt_of_getElem? hc
      refine ⟨⟨?_, ?_, ?_, ?_⟩, ?_, ?_⟩ <;> simp <;> omega
  | blank hc _ h hpos => exact ⟨h.fits hcur, by simp only; omega, by simp⟩
  | word h =>
      refine ⟨h.skips.fits hcur, h.lt, ?_⟩
      rintro t ⟨⟩
      exact h.type_ne

section Moves

variable (hn : source.length < 2 ^ 31 - 4) (hcur : Fits source cur)

include hn hcur

theorem Returns.advance_fits (hk : cur.pos + k ≤ source.length + 3) :
    Returns (cur.advance k) fun cur' => Fits source cur' ∧ cur'.pos = cur.pos + k := by
  obtain ⟨hline, hcol, hpos, htop⟩ := hcur
  refine (Returns.advance (by omega) (by omega)).mono fun cur' hcur' => ?_
  subst hcur'
  refine ⟨⟨?_, ?_, ?_, ?_⟩, rfl⟩ <;> simp only <;> omega

theorem Returns.move_fits (hk : cur.pos + k ≤ source.length + 3) :
    Returns (cur.move k) fun cur' => Fits source cur' ∧ cur'.pos = cur.pos + k := by
  obtain ⟨hline, hcol, hpos, htop⟩ := hcur
  refine (Returns.move (by omega)).mono fun cur' hcur' => ?_
  subst hcur'
  refine ⟨⟨?_, ?_, ?_, ?_⟩, rfl⟩ <;> simp only <;> omega

theorem Returns.newLine_fits (hk : cur.pos + k ≤ source.length + 3) (hk' : 0 < k) :
    Returns (cur.newLine k) fun cur' => Fits source cur' ∧ cur'.pos = cur.pos + k := by
  obtain ⟨hline, hcol, hpos, htop⟩ := hcur
  refine (Returns.newLine (by omega) (by omega)).mono fun cur' hcur' => ?_
  subst hcur'
  refine ⟨⟨?_, ?_, ?_, ?_⟩, rfl⟩ <;> simp only <;> omega

/-- The newline in a literal moves the cursor in two steps. -/
theorem Returns.newLine_advance (hlt : cur.pos < source.length) :
    Returns (do let cur' ← cur.newLine 0; cur'.advance 1) fun cur' => Fits source cur' ∧ cur'.pos = cur.pos + 1 := by
  obtain ⟨hline, hcol, hpos, htop⟩ := hcur
  refine (Returns.newLine (by omega) (by omega)).bind fun cur1 hcur1 => ?_
  subst hcur1
  refine (Returns.advance (by simp only; omega) (by simp only; omega)).mono fun cur' hcur' => ?_
  subst hcur'
  refine ⟨⟨?_, ?_, ?_, ?_⟩, ?_⟩ <;> simp only <;> omega

end Moves

/-- The cursor is at or behind `i`. -/
def Ahead (source : Bytes) (i : Nat) (cur : Cursor) : Prop := Fits source cur ∧ i ≤ cur.pos

/-- What an iteration of an inner loop leads to: the loop goes on only inside the source, and only forwards. -/
def Moves (source : Bytes) (cur : Cursor) : Next Cursor Cursor → Prop
  | .again cur' => Fits source cur' ∧ cur.pos < source.length ∧ cur.pos < cur'.pos
  | .done cur' => Ahead source cur.pos cur'

theorem Returns.loop_fits {step : Cursor → Except Fault (Next Cursor Cursor)}
    (hstep : ∀ cur, Fits source cur → Returns (step cur) (Moves source cur)) (hcur : Fits source cur)
    (hf : source.length < fuel) : Returns (loop .running step fuel cur) (Ahead source cur.pos) := by
  refine Returns.loop (I := Ahead source cur.pos) (left source) ?_ ⟨hcur, Nat.le_refl _⟩ (left_lt_fuel hf)
  intro cur1 ⟨hcur1, hle⟩
  refine (hstep cur1 hcur1).mono fun next hnext => ?_
  cases next with
  | again cur2 =>
      obtain ⟨hcur2, hlt, hpos⟩ := hnext
      exact ⟨⟨hcur2, by omega⟩, left_lt hlt hpos⟩
  | done cur2 => exact ⟨hnext.1, Nat.le_trans hle hnext.2⟩

/-- The token of what the cursor has moved over, wherever it is now. -/
theorem Returns.piece_safe {type : TokenType} (hlt : cur.pos < source.length) (htype : type ≠ .eof)
    (hcur' : Fits source cur') (hpos : cur.pos < cur'.pos) :
    Returns (do return (some (← Tokenizer.piece source type cur.pos cur'), cur')) (Safe source cur) := by
  have hpiece : Returns (Tokenizer.piece source type cur.pos cur') (·.type = type) :=
    (Returns.substr hlt).bind fun _ _ => .pure rfl
  refine hpiece.bind fun t ht => .pure ⟨hcur', hpos, ?_⟩
  rintro t' ⟨⟩
  rw [ht]
  exact htype

section Loops

variable (hn : source.length < 2 ^ 31 - 4)

include hn

theorem Returns.blockCommentStep (hcur : Fits source cur) :
    Returns (blockCommentStep source cur) (Moves source cur) := by
  unfold Tokenizer.blockCommentStep
  split
  · rename_i hlt
    refine (Returns.charAt (List.getElem?_eq_getElem hlt)).bind fun c _ => ?_
    split
    · refine (Returns.newLine_fits hn hcur (by omega) Nat.one_pos).bind fun cur1 ⟨h1, hpos1⟩ => ?_
      refine (Returns.advance_fits hn h1 (by omega)).bind fun cur2 ⟨h2, hpos2⟩ => ?_
      exact .pure ⟨h2, hlt, by omega⟩
    · refine (Returns.ifAt ..).bind fun r _ => ?_
      split
      · refine (Returns.advance_fits hn hcur (by omega)).bind fun cur1 ⟨h1, hpos1⟩ => ?_
        exact .pure ⟨h1, by omega⟩
      · refine (Returns.advance_fits hn hcur (by omega)).bind fun cur1 ⟨h1, hpos1⟩ => ?_
        exact .pure ⟨h1, hlt, by omega⟩
  · exact .pure ⟨hcur, Nat.le_refl _⟩

theorem Returns.literalStep (quote : UInt8) (hcur : Fits source cur) :
    Returns (literalStep source quote cur) (Moves source cur) := by
  unfold Tokenizer.literalStep
  split
  · rename_i hlt
    refine (Returns.charAt (List.getElem?_eq_getElem hlt)).bind fun c _ => ?_
    split
    · refine (Returns.advance_fits hn hcur (by omega)).bind fun cur1 ⟨h1, hpos1⟩ => ?_
      refine (Returns.advance_fits hn h1 (by omega)).bind fun cur2 ⟨h2, hpos2⟩ => ?_
      exact .pure ⟨h2, hlt, by omega⟩
    split
    · refine (Returns.advance_fits hn hcur (by omega)).bind fun cur1 ⟨h1, hpos1⟩ => ?_
      exact .pure ⟨h1, by omega⟩
    split
    · rw [← bind_assoc]
      refine (Returns.newLine_advance hn hcur hlt).bind fun cur1 ⟨h1, hpos1⟩ => ?_
      exact .pure ⟨h1, hlt, by omega⟩
    · refine (Returns.advance_fits hn hcur (by omega)).bind fun cur1 ⟨h1, hpos1⟩ => ?_
      exact .pure ⟨h1, hlt, by omega⟩
  · exact .pure ⟨hcur, Nat.le_refl _⟩

theorem Returns.directiveStep (hcur : Fits source cur) :
    Returns (directiveStep source cur) (Moves source cur) := by
  refine (Returns.ifAt ..).bind fun r hr => ?_
  cases r with
  | true =>
      obtain ⟨-, c, hc, -⟩ := hr.mp rfl
      have hlt := lt_of_getElem? hc
      refine (Returns.charAt hc).bind fun c _ => ?_
      refine (Returns.ifAt ..).bind fun r _ => ?_
      split
      · refine (Returns.newLine_fits hn hcur (by omega) Nat.two_pos).bind fun cur1 ⟨h1, hpos1⟩ => ?_
        exact .pure ⟨h1, hlt, by omega⟩
      · refine (Returns.advance_fits hn hcur (by omega)).bind fun cur1 ⟨h1, hpos1⟩ => ?_
        exact .pure ⟨h1, hlt, by omega⟩
  | false => exact .pure ⟨hcur, Nat.le_refl _⟩

/-- The loop over characters of one kind, newlines perhaps among them. -/
theorem Returns.scan_fits (p : UInt8 → Bool) (hcur : Fits source cur) (hin : cur.pos ≤ source.length)
    (hf : source.length < fuel) :
    Returns (Tokenizer.scan source p fuel cur) fun cur' => Ahead source cur.pos cur' ∧ cur'.pos ≤ source.length := by
  refine Returns.loop (I := fun cur' => Ahead source cur.pos cur' ∧ cur'.pos ≤ source.length) (left source) ?_
    ⟨⟨hcur, Nat.le_refl _⟩, hin⟩ (left_lt_fuel hf)
  intro cur1 h1
  obtain ⟨⟨hcur1, hle⟩, hin1⟩ := h1
  refine (Returns.ifAt ..).bind fun r hr => ?_
  cases r with
  | true =>
      obtain ⟨-, c, hc, -⟩ := hr.mp rfl
      have hlt := lt_of_getElem? hc
      refine (Returns.advance_fits hn hcur1 (by omega)).bind fun cur2 ⟨h2, hpos2⟩ => .pure ?_
      exact ⟨⟨⟨h2, by omega⟩, by omega⟩, left_lt hlt (by omega)⟩
  | false => exact .pure ⟨⟨hcur1, hle⟩, hin1⟩

variable (hcur : Fits source cur) (hlt : cur.pos < source.length) (hf : source.length < fuel)

include hcur hlt hf

theorem Returns.blockComment (hlt' : cur.pos + 1 < source.length) :
    Returns (blockComment source fuel cur) (Safe source cur) := by
  refine (Returns.advance_fits hn hcur (by omega)).bind fun cur1 ⟨h1, hpos1⟩ => ?_
  refine (Returns.loop_fits (fun _ => Returns.blockCommentStep hn) h1 hf).bind fun cur2 ⟨h2, hpos2⟩ => ?_
  exact Returns.piece_safe hlt (by decide) h2 (by omega)

theorem Returns.literal (quote : UInt8) : Returns (literal source quote fuel cur) (Safe source cur) := by
  refine (Returns.advance_fits hn hcur (by omega)).bind fun cur1 ⟨h1, hpos1⟩ => ?_
  refine (Returns.loop_fits (fun _ => Returns.literalStep hn quote) h1 hf).bind fun cur2 ⟨h2, hpos2⟩ => ?_
  refine Returns.piece_safe hlt ?_ h2 (by omega)
  split <;> decide

theorem Returns.directive : Returns (directive ct source fuel cur) (Safe source cur) := by
  refine (Returns.advance_fits hn hcur (by omega)).bind fun cur1 ⟨h1, hpos1⟩ => ?_
  refine (Returns.scan_fits hn ct.isspace h1 (by omega) hf).bind fun cur2 ⟨⟨h2, hpos2⟩, hin2⟩ => ?_
  refine (Returns.ifAt ..).bind fun r hr => ?_
  cases r with
  | true =>
      obtain ⟨-, c, hc, -⟩ := hr.mp rfl
      refine (Returns.scan_fits hn (isIdentContinue ct) h2 hin2 hf).bind fun cur3 ⟨⟨h3, hpos3⟩, _⟩ => ?_
      refine (Returns.substr (lt_of_getElem? hc)).bind fun dir _ => ?_
      refine (Returns.loop_fits (fun _ => Returns.directiveStep hn) h3 hf).bind fun cur4 ⟨h4, hpos4⟩ => ?_
      refine Returns.piece_safe hlt ?_ h4 (by omega)
      split
      · decide
      · split <;> decide
  | false =>
      -- The lone `#`: the cursor moves over the next character without a look at it.
      refine (Returns.move_fits hn h2 (by omega)).bind fun cur3 ⟨h3, hpos3⟩ => .pure ⟨h3, ?_, ?_⟩
      · simp only
        omega
      · simp

end Loops

/-! ## All iterations -/

theorem Returns.step_safe (hn : source.length < 2 ^ 31 - 4) (hcur : Fits source cur)
    (hlt : cur.pos < source.length) (hf : source.length < fuel) :
    Returns (Tokenizer.step ct source fuel cur) (Safe source cur) := by
  have hline := hcur.line_le
  have hc := List.getElem?_eq_getElem hlt
  refine (Returns.step (by omega) (hcur.room hn) hf hc (by omega)
    (fun _ hstar => Returns.blockComment hn hcur hlt hf (lt_of_getElem? hstar))
    (fun _ => Returns.literal hn hcur hlt hf _) (fun _ => Returns.directive hn hcur hlt hf)).mono fun r hr => ?_
  rcases hr with hr | hr
  · exact hr.safe hcur
  · exact hr

end Dwhbll.Tokenizer
