import Dwhbll.Tokenizer.Layout
import Dwhbll.Tokenizer.Lemmas.Safe

/-!
# The position of the cursor
-/

namespace Dwhbll.Tokenizer

variable {ct : CType} {source s v : Bytes} {cur cur' : Cursor} {i k : Nat}

/-! ## Positions -/

theorem lineOf_le (s : Bytes) : lineOf s ≤ s.length + 1 := Nat.succ_le_succ List.count_le_length

theorem columnOf_le (s : Bytes) : columnOf s ≤ s.length + 1 := by
  have h := (List.takeWhile_prefix (· != newline) (l := s.reverse)).length_le
  rw [List.length_reverse] at h
  exact Nat.succ_le_succ h

theorem lineOf_append (s : Bytes) (hv : newline ∉ v) : lineOf (s ++ v) = lineOf s := by
  rw [lineOf, List.count_append, List.count_eq_zero.mpr hv]
  rfl

theorem columnOf_append (s : Bytes) (hv : newline ∉ v) : columnOf (s ++ v) = columnOf s + v.length := by
  have hall : ∀ c ∈ v.reverse, (c != newline) = true := by
    intro c hc
    rw [bne_iff_ne]
    rintro rfl
    exact hv (List.mem_reverse.mp hc)
  rw [columnOf, List.reverse_append, List.takeWhile_append_of_pos hall, List.length_append, List.length_reverse,
    columnOf]
  omega

/-- On the other lines of `v` the column is at most that. -/
theorem columnOf_append_le (s v : Bytes) : columnOf (s ++ v) ≤ columnOf s + v.length := by
  have hle := (List.takeWhile_prefix (· != newline) (l := v.reverse)).length_le
  rw [List.length_reverse] at hle
  rw [columnOf, columnOf, List.reverse_append, List.takeWhile_append]
  split
  · rw [List.length_append, List.length_reverse]
    omega
  · omega

theorem lineOf_newline (s : Bytes) : lineOf (s ++ [newline]) = lineOf s + 1 := by
  rw [lineOf, List.count_append]
  rfl

theorem columnOf_newline (s : Bytes) : columnOf (s ++ [newline]) = 1 := by
  rw [columnOf, List.reverse_append]
  rfl

/-! What stands between two positions of the source. -/

theorem take_append_slice (h : i ≤ k) : source.take k = source.take i ++ (source.drop i).take (k - i) := by
  rw [← List.take_add, Nat.add_sub_cancel' h]

theorem take_succ_of_getElem? {c : UInt8} (hc : source[i]? = some c) : source.take (i + 1) = source.take i ++ [c] := by
  rw [List.take_add, take_one hc]

theorem length_slice (hk : k ≤ source.length) : ((source.drop i).take (k - i)).length = k - i := by
  rw [List.length_take, List.length_drop]
  omega

theorem OneLine.lineOf_eq (h : OneLine source i k) (hi : i ≤ k) :
    lineOf (source.take k) = lineOf (source.take i) := by
  rw [take_append_slice hi, lineOf_append _ h.not_mem]

theorem OneLine.columnOf_eq (h : OneLine source i k) (hi : i ≤ k) (hk : k ≤ source.length) :
    columnOf (source.take k) = columnOf (source.take i) + (k - i) := by
  rw [take_append_slice hi, columnOf_append _ h.not_mem, length_slice hk]

/-! ## The position of the cursor -/

/-- The cursor is in the source and says where. -/
structure At (source : Bytes) (cur : Cursor) : Prop where
  inside : cur.pos ≤ source.length
  line_eq : cur.line = lineOf (source.take cur.pos)
  col_eq : cur.col = columnOf (source.take cur.pos)

theorem at_start (source : Bytes) : At source .start := by
  refine ⟨Nat.zero_le _, ?_, ?_⟩
  · rw [Cursor.start, List.take_zero]
    rfl
  · rw [Cursor.start, List.take_zero]
    rfl

theorem At.skips (hat : At source cur) (h : Skips source cur cur') : At source cur' where
  inside := h.inside
  line_eq := by rw [h.line_eq, hat.line_eq, h.one_line.lineOf_eq h.le]
  col_eq := by rw [h.col_eq, hat.col_eq, h.one_line.columnOf_eq h.le h.inside]

theorem At.newLine (hat : At source cur) (hc : source[cur.pos]? = some newline) (top : Nat) :
    At source { pos := cur.pos + 1, line := cur.line + 1, col := 1, top := top } where
  inside := lt_of_getElem? hc
  line_eq := by rw [take_succ_of_getElem? hc, lineOf_newline, ← hat.line_eq]
  col_eq := by rw [take_succ_of_getElem? hc, columnOf_newline]

/-- As long as the end of the source has a column that is an `int`, every other position has one. -/
theorem At.room (hat : At source cur) (hn : source.length < 2 ^ 31) (hcol : columnOf source < 2 ^ 31) :
    Room source cur := by
  intro i hi hin hone
  rw [hat.col_eq, ← hone.columnOf_eq hi hin]
  rcases Nat.lt_or_eq_of_le hin with hlt | rfl
  · have hle := columnOf_le (source.take i)
    rw [List.length_take] at hle
    omega
  · rw [List.take_length]
    exact hcol

theorem At.line_lt (hat : At source cur) (hn : source.length < 2 ^ 31) (hline : lineOf source < 2 ^ 31)
    (hc : source[cur.pos]? = some newline) : cur.line + 1 < 2 ^ 31 := by
  have hlt := lt_of_getElem? hc
  have heq := lineOf_newline (source.take cur.pos)
  rw [← take_succ_of_getElem? hc, ← hat.line_eq] at heq
  rw [← heq]
  rcases Nat.lt_or_eq_of_le hlt with hlt | hend
  · have hle := lineOf_le (source.take (cur.pos + 1))
    rw [List.length_take] at hle
    omega
  · rw [← Nat.succ_eq_add_one, hend, List.take_length]
    exact hline

/-! ## An iteration -/

theorem blank_of_space {c : UInt8} (hc : c < 0x80) (hne : c ≠ newline) (h : c = 0x0D ∨ ct.isspace c = true) :
    Blank c := by
  rcases h with rfl | h
  · exact .inr (.inr (.inr (.inr rfl)))
  · rw [ct.isspace_ascii c hc] at h
    simp only [Bool.or_eq_true, beq_iff_eq, Bool.and_eq_true, decide_eq_true_eq, UInt8.le_iff_toNat_le] at h
    rcases h with rfl | ⟨hlow, hhigh⟩
    · exact .inl rfl
    · have hnew : c.toNat ≠ 0x0A := fun h => hne (UInt8.toNat_inj.mp h)
      simp only [UInt8.reduceToNat] at hlow hhigh
      simp only [Blank, ← UInt8.toNat_inj, UInt8.reduceToNat]
      omega

/-- An iteration on a line keeps the counters right. -/
theorem Line.at {r : Option Token × Cursor} (h : Line ct source cur r) (hat : At source cur) : At source r.2 := by
  cases h with
  | newline hc => exact hat.newLine hc _
  | blank hc hspace h hpos => exact hat.skips h
  | word h => exact hat.skips h.skips

/-- An iteration on a line takes the next piece, or a blank. -/
theorem Line.covers {r : Option Token × Cursor} {ts : List Token} (h : Line ct source cur r) (hascii : Ascii source)
    (hat : At source cur) (hts : Covers (source.take cur.pos) ts) :
    At source r.2 ∧ Covers (source.take r.2.pos) (ts ++ r.1.toList) ∧ cur.pos < r.2.pos := by
  refine ⟨h.at hat, ?_⟩
  cases h with
  | newline hc =>
      refine ⟨?_, Nat.lt_succ_self _⟩
      rw [take_succ_of_getElem? hc]
      refine Covers.token (t := ⟨_, [Tokenizer.newline], _, _⟩) hts (by simp) ?_ ?_ fun _ => ⟨rfl, rfl⟩
      · simp [hat.line_eq]
      · simp [hat.col_eq]
  | @blank c cur' hc hspace h hpos =>
      have hne : c ≠ Tokenizer.newline := by
        rintro rfl
        exact h.one_line cur.pos (Nat.le_refl _) (by omega) hc
      refine ⟨?_, by simp only; omega⟩
      rw [hpos, take_succ_of_getElem? hc, Option.toList_none, List.append_nil]
      exact .blank hts (blank_of_space (hascii.lt hc) hne hspace)
  | @word t cur' h =>
      have hvalue := h.value_eq hascii
      refine ⟨?_, h.lt⟩
      rw [take_append_slice h.skips.le, ← hvalue, Option.toList_some]
      refine .token hts ?_ ?_ ?_ ?_
      · have hlen := length_slice (i := cur.pos) h.skips.inside
        have hlt := h.lt
        rw [← hvalue] at hlen
        exact List.ne_nil_of_length_pos (by omega)
      · rw [h.line_eq, hat.line_eq]
      · rw [h.column_eq, hat.col_eq]
      · intro hmem
        rw [hvalue] at hmem
        exact absurd hmem h.skips.one_line.not_mem

end Dwhbll.Tokenizer
