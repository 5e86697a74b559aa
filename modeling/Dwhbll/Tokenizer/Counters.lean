import Dwhbll.Tokenizer.Comments
import Dwhbll.Tokenizer.Directives
import Dwhbll.Tokenizer.Lemmas.Layout
import Dwhbll.Tokenizer.Literals

/-!
# The counters of line and column

An iteration on a line keeps the counters right, for every source. The three branches that go over newlines do so under
conditions on the text that they take.
-/

namespace Dwhbll.Tokenizer

open Loops

variable {ct : CType} {source : Bytes} {cur cur' : Cursor} {c : UInt8} {fuel k n : Nat} {t : Token}
  {p : UInt8 → Bool} {r : Option Token × Cursor}

/-! ## Iterations on a line -/

theorem ensures_advance_skips (hin : cur.pos + k ≤ source.length) (hone : OneLine source cur.pos (cur.pos + k)) :
    Ensures (cur.advance k) (Skips source cur) := by
  have hadvance : Attains (Roomy source 0 cur) (cur.advance k) fun cur' => Skips source cur cur' ∧ _ :=
    Attains.advance_skips (.refl (by omega)) hin hone
  exact hadvance.ensures.mono fun cur' hcur' => hcur'.1

theorem ensures_advance_one (hc : source[cur.pos]? = some c) (hne : c ≠ newline) :
    Ensures (cur.advance 1) (Skips source cur) :=
  ensures_advance_skips (lt_of_getElem? hc) (oneLine_one hc hne)

/-- Only literals, block comments and directives do not stay on a line. -/
theorem step_stays (hc : source[cur.pos]? = some c) (hquote : ¬ (c = doubleQuote ∨ c = singleQuote))
    (hblock : ¬ (c = slash ∧ source[cur.pos + 1]? = some star)) (hsign : c ≠ hashSign) :
    Ensures (step ct source fuel cur) fun r => Line ct source cur r ∧ ∀ t, r.1 = some t → OnLine t := by
  have hstep : Attains False (step ct source fuel cur) fun r =>
      Line ct source cur r ∧ (∀ t, r.1 = some t → OnLine t) ∨ False :=
    Attains.step hc False.elim False.elim (fun hslash hstar => absurd ⟨hslash, hstar⟩ hblock)
      (fun hquote' => absurd hquote' hquote) fun hsign' => absurd hsign' hsign
  exact hstep.ensures.mono fun r hr => hr.resolve_right id

/-! ## Iterations over newlines -/

/-- Over a text without newlines the counters stay right if the cursor has counted none. -/
theorem At.moved (hat : At source cur) (h : Moved cur cur' 0) (hin : cur'.pos ≤ source.length)
    (hnew : newline ∉ (source.drop cur.pos).take (cur'.pos - cur.pos)) : At source cur' where
  inside := hin
  line_eq := by
    rw [take_append_slice h.le, lineOf_append _ hnew, ← hat.line_eq]
    exact h.line_eq
  col_eq := by rw [take_append_slice h.le, columnOf_append _ hnew, length_slice hin, ← hat.col_eq, h.col_eq rfl]

/-- The line is right behind a token if each newline in it has been counted. -/
theorem Scanned.line_iff (h : Scanned source cur n r t) (hat : At source cur) :
    r.2.line = lineOf (source.take r.2.pos) ↔ n = t.value.count newline := by
  rw [h.moved.line_eq, take_append_slice h.moved.le, ← h.value_eq, hat.line_eq, lineOf, lineOf, List.count_append]
  omega

/-! ### Literals -/

/-- Behind a newline that was counted, the column is too large. -/
def Slips (source : Bytes) (line : Nat) (cur : Cursor) : Prop :=
  cur.line = line ∨ columnOf (source.take cur.pos) < cur.col

theorem ensures_advance_slips {line : Nat} (h : Slips source line cur) (k : Nat) :
    Ensures (cur.advance k) (Slips source line) := by
  refine (ensures_advance cur k).mono fun cur' hcur' => ?_
  subst hcur'
  refine h.imp id fun hlt => ?_
  have hle := columnOf_append_le (source.take cur.pos) ((source.drop cur.pos).take k)
  rw [← List.take_add] at hle
  have hlen : ((source.drop cur.pos).take k).length ≤ k := List.length_take_le ..
  show columnOf (source.take (cur.pos + k)) < cur.col + k
  omega

theorem literalStep_slips {line : Nat} (quote : UInt8) (h : Slips source line cur) :
    Ensures (literalStep source quote cur) (Next.Keeps (Slips source line) (Slips source line)) := by
  unfold literalStep
  split
  · refine ensures_charAt.bind fun c hc => ?_
    split
    · refine (ensures_advance_slips h 2).bind fun cur1 h1 => ?_
      exact (ensures_advance_slips h1 1).bind fun cur2 h2 => .pure h2
    split
    · exact (ensures_advance_slips h 1).bind fun cur1 h1 => .pure h1
    split
    · rename_i hnew
      subst hnew
      refine (ensures_newLine cur 0).bind fun cur1 h1 => ?_
      refine (ensures_advance cur1 1).bind fun cur2 h2 => .pure (.inr ?_)
      subst h1 h2
      show columnOf (source.take (cur.pos + 1)) < 2
      rw [take_succ_of_getElem? hc, columnOf_newline]
      exact Nat.lt_succ_self 1
    · exact (ensures_advance_slips h 1).bind fun cur1 h1 => .pure h1
  · exact .pure h

theorem literalLines_le (quote : UInt8) (s : Bytes) :
    literalLines quote 2 0 s ≤ (s.take (literalLength quote 2 0 s)).count newline := by
  refine Reading.counted_le_count (fun c next skip n h => ?_) 0 s
  unfold literalAct at h
  split at h
  · cases h
    exact Nat.zero_le _
  · split at h
    · cases h
    · cases h
      simp only [beq_iff_eq, Nat.le_refl]

/-- Behind a literal the counters are right if and only if it has no newline. -/
theorem literal_at_iff (hc : source[cur.pos]? = some c) (hq : c = doubleQuote ∨ c = singleQuote)
    (hat : At source cur) :
    Ensures (literal source c fuel cur) fun r => At source r.2 ↔ r.2.pos ≤ source.length ∧
      newline ∉ (source.drop (cur.pos + 1)).take (literalLength c 2 0 (source.drop (cur.pos + 1))) := by
  have hslips : Ensures (literal source c fuel cur) fun r => Slips source cur.line r.2 := by
    have hstart : Slips source cur.line cur := .inl rfl
    refine (ensures_advance_slips hstart 1).bind fun cur1 h1 => ?_
    refine Ensures.bind (Ensures.loop (fun cur hcur => literalStep_slips c hcur) h1) fun cur2 h2 => ?_
    refine (ensures_piece_eq _ cur.pos cur2).mono fun r hr => ?_
    subst hr
    exact h2
  have hne : newline ≠ c := by
    rcases hq with rfl | rfl <;> decide
  refine ((ensures_literal hc).and hslips).mono fun r ⟨⟨t, ht, _, hvalue⟩, hslips⟩ => ?_
  have hmem : newline ∈ t.value ↔
      newline ∈ (source.drop (cur.pos + 1)).take (literalLength c 2 0 (source.drop (cur.pos + 1))) := by
    rw [hvalue, List.mem_cons, or_iff_right hne]
  rw [← hmem]
  constructor
  · intro hat'
    refine ⟨hat'.inside, ?_⟩
    have hline : r.2.line = cur.line := hslips.resolve_right fun hlt => by
      rw [← hat'.col_eq] at hlt
      exact Nat.lt_irrefl _ hlt
    have hcount := (ht.line_iff hat).mp hat'.line_eq
    have hmoved := ht.moved.line_eq
    exact List.count_eq_zero.mp (by omega)
  · rintro ⟨hin, hnew⟩
    have hle := literalLines_le c (source.drop (cur.pos + 1))
    rw [List.count_eq_zero.mpr (mt hmem.mpr hnew)] at hle
    have hmoved := ht.moved
    rw [Nat.le_zero.mp hle] at hmoved
    rw [ht.value_eq] at hnew
    exact hat.moved hmoved hin hnew

/-! ### Block comments -/

/-- Newlines may be left out, but if none was the column is right. -/
def Exact (source : Bytes) (cur : Cursor) : Prop :=
  cur.pos ≤ source.length → cur.line ≤ lineOf (source.take cur.pos) ∧
    (cur.line = lineOf (source.take cur.pos) → cur.col = columnOf (source.take cur.pos))

theorem Exact.skips (h : Exact source cur) (hskips : Skips source cur cur') : Exact source cur' := by
  intro hin
  obtain ⟨hle, hcol⟩ := h (Nat.le_trans hskips.le hin)
  rw [hskips.line_eq, hskips.one_line.lineOf_eq hskips.le, hskips.one_line.columnOf_eq hskips.le hin, hskips.col_eq]
  exact ⟨hle, fun hline => by rw [hcol hline]⟩

/-- A newline, and the character that is stepped over. -/
theorem Exact.newline (h : Exact source cur) (hc : source[cur.pos]? = some newline) (top : Nat) :
    Exact source { pos := cur.pos + 1 + 1, line := cur.line + 1, col := 1 + 1, top := top } := by
  intro hin
  obtain ⟨hle, -⟩ := h (Nat.le_of_lt (lt_of_getElem? hc))
  have hd := List.getElem?_eq_getElem hin
  simp only [take_succ_of_getElem? hd, take_succ_of_getElem? hc]
  by_cases hnew : source[cur.pos + 1] = Tokenizer.newline
  · rw [hnew, lineOf_newline, lineOf_newline]
    exact ⟨by omega, fun hline => by omega⟩
  · have hnot : Tokenizer.newline ∉ [source[cur.pos + 1]] := fun h => hnew (List.mem_singleton.mp h).symm
    rw [lineOf_append _ hnot, columnOf_append _ hnot, lineOf_newline, columnOf_newline]
    exact ⟨by omega, fun _ => rfl⟩

theorem blockCommentStep_exact (h : Exact source cur) :
    Ensures (blockCommentStep source cur) (Next.Keeps (Exact source) (Exact source)) := by
  unfold blockCommentStep
  split
  · refine ensures_charAt.bind fun c hc => ?_
    split
    · rename_i hnew
      subst hnew
      refine (ensures_newLine cur 1).bind fun cur1 h1 => ?_
      refine (ensures_advance cur1 1).bind fun cur2 h2 => .pure ?_
      subst h1 h2
      exact h.newline hc _
    rename_i hnew
    refine Ensures.bind (ensures_ifAt source (c == star) (cur.pos + 1) (· == slash)) fun r hr => ?_
    split
    · rename_i htrue
      obtain ⟨-, hslash⟩ := pair_of_ifAt (hr.mp htrue)
      have hone := oneLine_succ (oneLine_one hc hnew) hslash (by decide)
      exact (ensures_advance_skips (lt_of_getElem? hslash) hone).bind fun cur1 h1 => .pure (h.skips h1)
    · exact (ensures_advance_one hc hnew).bind fun cur1 h1 => .pure (h.skips h1)
  · exact .pure h

/-- Behind a block comment the counters are right if and only if it has no newline that was stepped over. -/
theorem blockComment_at_iff (hc : source[cur.pos]? = some slash) (hstar : source[cur.pos + 1]? = some star)
    (hat : At source cur) :
    Ensures (blockComment source fuel cur) fun r => At source r.2 ↔ r.2.pos ≤ source.length ∧
      commentLines 1 0 (source.drop (cur.pos + 2)) =
        ((source.drop (cur.pos + 2)).take (commentLength 1 0 (source.drop (cur.pos + 2)))).count newline := by
  have hexact : Ensures (blockComment source fuel cur) fun r => Exact source r.2 := by
    have hstart : Exact source cur := fun _ => ⟨Nat.le_of_eq hat.line_eq, fun _ => hat.col_eq⟩
    have hone := oneLine_succ (oneLine_one hc (by decide)) hstar (by decide)
    refine (ensures_advance_skips (lt_of_getElem? hstar) hone).bind fun cur1 h1 => ?_
    refine Ensures.bind (Ensures.loop (fun cur hcur => blockCommentStep_exact hcur) (hstart.skips h1))
      fun cur2 h2 => ?_
    refine (ensures_piece_eq _ cur.pos cur2).mono fun r hr => ?_
    subst hr
    exact h2
  refine ((ensures_blockComment hc hstar).and hexact).mono fun r ⟨⟨t, ht, _, hvalue⟩, hexact⟩ => ?_
  have hcount : t.value.count newline =
      ((source.drop (cur.pos + 2)).take (commentLength 1 0 (source.drop (cur.pos + 2)))).count newline := by
    rw [hvalue, List.count_cons_of_ne (by decide), List.count_cons_of_ne (by decide)]
  rw [← hcount, ← ht.line_iff hat]
  constructor
  · intro hat'
    exact ⟨hat'.inside, hat'.line_eq⟩
  · rintro ⟨hin, hline⟩
    exact ⟨hin, hline, (hexact hin).2 hline⟩

/-! ### Directives -/

theorem directiveStep_at (hat : At source cur) :
    Ensures (directiveStep source cur) (Next.Keeps (At source) (At source)) := by
  refine Ensures.bind (Returns.ifAt_ne rfl).ensures fun r hr => ?_
  cases r with
  | true =>
      obtain ⟨c, hc, hne⟩ := hr rfl
      refine ensures_charAt.bind fun d _ => ?_
      refine Ensures.bind (ensures_ifAt source (d == backslash) (cur.pos + 1) (· == newline)) fun r hr => ?_
      split
      · rename_i htrue
        obtain ⟨-, hnext⟩ := pair_of_ifAt (hr.mp htrue)
        refine (ensures_newLine cur 2).bind fun cur1 h1 => .pure ?_
        subst h1
        have hskip : Skips source cur { cur with pos := cur.pos + 1, col := cur.col + 1 } :=
          ⟨Nat.le_succ _, lt_of_getElem? hc, rfl, by simp, Nat.le_max_left .., oneLine_one hc hne⟩
        exact (hat.skips hskip).newLine hnext _
      · exact (ensures_advance_one hc hne).bind fun cur1 h1 => .pure (hat.skips h1)
  | false => exact .pure hat

theorem At.scan (hat : At source cur) (hpos : cur'.pos = cur.pos + ((source.drop cur.pos).takeWhile p).length)
    (h : Moved cur cur' 0) (hnew : newline ∉ (source.drop cur.pos).takeWhile p) : At source cur' := by
  have hle := (List.takeWhile_prefix p (l := source.drop cur.pos)).length_le
  have hin := hat.inside
  rw [List.length_drop] at hle
  refine hat.moved h (by omega) ?_
  rw [hpos, Nat.add_sub_cancel_left, ← List.prefix_iff_eq_take.mp (List.takeWhile_prefix p)]
  exact hnew

/-- With no newline before its name, a directive is read with the counters right all the way. -/
theorem directive_at (hc : source[cur.pos]? = some hashSign) (hat : At source cur)
    (hnew : newline ∉ (source.drop (cur.pos + 1)).takeWhile ct.isspace)
    (hname : StartsName ct ((source.drop (cur.pos + 1)).dropWhile ct.isspace)) :
    Ensures (directive ct source fuel cur) fun r => At source r.2 := by
  refine ((ensures_advance_moved cur 1).and (ensures_advance_one hc (by decide))).bind fun cur1 h1 => ?_
  obtain ⟨⟨hpos1, -⟩, hskips1⟩ := h1
  rw [← hpos1] at hnew hname
  refine (ensures_scan ct.isspace fuel cur1).bind fun cur2 h2 => ?_
  obtain ⟨hpos2, hmoved2⟩ := h2
  have hat2 := (hat.skips hskips1).scan hpos2 hmoved2 hnew
  rw [← drop_scan hpos2, StartsName, List.head?_drop] at hname
  refine Ensures.bind (ensures_ifAt source true cur2.pos (isIdentStart ct)) fun r hr => ?_
  rw [if_pos (hr.mpr ⟨rfl, hname⟩)]
  refine (ensures_scan (isIdentContinue ct) fuel cur2).bind fun cur3 h3 => ?_
  obtain ⟨hpos3, hmoved3⟩ := h3
  have hat3 := hat2.scan hpos3 hmoved3 (Lists.not_mem_takeWhile (isIdentContinue_newline ct) _)
  refine .bind_any fun dir => ?_
  refine Ensures.bind (Ensures.loop (fun cur hcur => directiveStep_at hcur) hat3) fun cur4 hat4 => ?_
  refine (ensures_piece_eq _ cur.pos cur4).mono fun r hr => ?_
  subst hr
  exact hat4

/-- The step over the character behind the blanks is not counted. -/
theorem PushesSign.not_at (h : PushesSign ct source cur r t) (hat : At source cur) : ¬ At source r.2 := by
  intro hat'
  have hle : cur.pos ≤ r.2.pos := by
    rw [h.pos_eq]
    omega
  have hline := hat'.line_eq
  rw [h.line_eq, hat.line_eq, take_append_slice hle, lineOf, lineOf, List.count_append] at hline
  have hnew : newline ∉ (source.drop cur.pos).take (r.2.pos - cur.pos) := List.count_eq_zero.mp (by omega)
  have hcol := hat'.col_eq
  rw [take_append_slice hle, columnOf_append _ hnew, length_slice hat'.inside, ← hat.col_eq, ← h.col_eq] at hcol
  exact Nat.succ_ne_self _ hcol.symm

theorem directive_at_iff (hc : source[cur.pos]? = some hashSign) (hat : At source cur) :
    Ensures (directive ct source fuel cur) fun r => At source r.2 ↔ r.2.pos ≤ source.length ∧
      newline ∉ (source.drop (cur.pos + 1)).takeWhile ct.isspace ∧
        StartsName ct ((source.drop (cur.pos + 1)).dropWhile ct.isspace) := by
  intro r hr
  obtain ⟨t, ⟨hname, ht⟩ | ⟨hname, ht⟩⟩ := ensures_directive hc r hr
  · constructor
    · intro hat'
      have hcount := (ht.scanned.line_iff hat).mp hat'.line_eq
      rw [ht.text_eq, directiveText, List.count_cons_of_ne (by decide), List.count_append, List.count_append,
        (logicalLine_eq_take _).2] at hcount
      exact ⟨hat'.inside, List.count_eq_zero.mp (by omega), hname⟩
    · rintro ⟨-, hnew, -⟩
      exact directive_at hc hat hnew hname r hr
  · exact iff_of_false (ht.not_at hat) fun h => hname h.2.2

/-! ## What keeps the counters right -/

/-- What begins there is read with each of its newlines counted, and with the right column behind them: a literal has no
newline, a block comment none that is stepped over, and a name follows a `#` on its line. -/
def Keeps (ct : CType) : Bytes → Prop
  | [] => True
  | c :: rest =>
      if c = doubleQuote ∨ c = singleQuote then newline ∉ rest.take (literalLength c 2 0 rest)
      else if c = slash ∧ rest.head? = some star then
        commentLines 1 0 rest.tail = (rest.tail.take (commentLength 1 0 rest.tail)).count newline
      else if c = hashSign then
        newline ∉ rest.takeWhile ct.isspace ∧ StartsName ct (rest.dropWhile ct.isspace)
      else True

/-- Where the counters are right, an iteration leaves them right if and only if it does not go beyond the source and
keeps them. -/
theorem step_at_iff (hc : source[cur.pos]? = some c) (hat : At source cur) :
    Ensures (step ct source fuel cur) fun r => At source r.2 ↔
      r.2.pos ≤ source.length ∧ Keeps ct (source.drop cur.pos) := by
  rw [drop_of_getElem? hc, Keeps, List.head?_drop, List.tail_drop]
  by_cases hquote : c = doubleQuote ∨ c = singleQuote
  · rw [step_of_quote hc hquote, if_pos hquote]
    exact literal_at_iff hc hquote hat
  rw [if_neg hquote]
  by_cases hblock : c = slash ∧ source[cur.pos + 1]? = some star
  · rw [if_pos hblock]
    obtain ⟨rfl, hstar⟩ := hblock
    rw [step_of_blockComment hc hstar]
    exact blockComment_at_iff hc hstar hat
  rw [if_neg hblock]
  by_cases hsign : c = hashSign
  · rw [if_pos hsign]
    subst hsign
    rw [step_of_hashSign hc]
    exact directive_at_iff hc hat
  · rw [if_neg hsign]
    refine (step_stays hc hquote hblock hsign).mono fun r hr => ?_
    have hat' := hr.1.at hat
    exact iff_of_true hat' ⟨hat'.inside, trivial⟩

end Dwhbll.Tokenizer
