import Dwhbll.Tokenizer.Basic

/-!
# Moving the cursor
-/

namespace Dwhbll.Tokenizer

open Loops

variable {source : Bytes} {cur cur' cur'' : Cursor} {i k : Nat} {c : UInt8} {p : UInt8 → Bool}

/-! ## Looking at the source -/

theorem Returns.charAt (h : source[i]? = some c) : Returns (charAt source i) (· = c) := by
  rw [Tokenizer.charAt, h]
  exact .pure rfl

theorem Returns.substr {start len : Nat} (h : start < source.length) :
    Returns (substr source start len) (· = (source.drop start).take len) := by
  rw [Tokenizer.substr, if_pos h]
  exact .pure rfl

theorem Returns.ifAt (source : Bytes) (b : Bool) (i : Nat) (p : UInt8 → Bool) :
    Returns (ifAt source b i p) fun r => r = true ↔ b = true ∧ ∃ c, source[i]? = some c ∧ p c = true := by
  unfold Tokenizer.ifAt
  split
  · rename_i h
    have hc := List.getElem?_eq_getElem h.2
    refine (Returns.charAt hc).bind fun c hc' => .pure ?_
    subst hc'
    simp [h.1, hc]
  · rename_i h
    refine .pure ?_
    simp only [Bool.false_eq_true, false_iff]
    rintro ⟨hb, c, hc, -⟩
    exact h ⟨hb, (List.getElem?_eq_some_iff.mp hc).1⟩

/-! ## Moves -/

theorem Attains.int (x : Nat) : Attains (x < 2 ^ 31) (int x) (· = x) := by
  unfold Tokenizer.int
  split
  · exact .pure rfl
  · rename_i h
    exact ⟨nofun, fun hok => absurd hok h⟩

theorem Attains.move (cur : Cursor) (k : Nat) :
    Attains (cur.pos + k < 2 ^ 31) (cur.move k)
      (· = { cur with pos := cur.pos + k, top := max cur.top (cur.pos + k) }) := by
  refine (Attains.int _).bind fun pos hpos => .pure ?_
  subst hpos
  rfl

theorem Attains.advance (cur : Cursor) (k : Nat) :
    Attains (cur.pos + k < 2 ^ 31 ∧ cur.col + k < 2 ^ 31) (cur.advance k)
      (· = { cur with pos := cur.pos + k, col := cur.col + k, top := max cur.top (cur.pos + k) }) := by
  refine ((Attains.move cur k).of_imp And.left).bind fun cur1 hcur1 => ?_
  subst hcur1
  refine ((Attains.int _).of_imp And.right).bind fun col hcol => .pure ?_
  subst hcol
  rfl

theorem Attains.newLine (cur : Cursor) (k : Nat) :
    Attains (cur.pos + k < 2 ^ 31 ∧ cur.line + 1 < 2 ^ 31) (cur.newLine k)
      (· = { pos := cur.pos + k, line := cur.line + 1, col := 1, top := max cur.top (cur.pos + k) }) := by
  refine ((Attains.move cur k).of_imp And.left).bind fun cur1 hcur1 => ?_
  subst hcur1
  refine ((Attains.int _).of_imp And.right).bind fun line hline => .pure ?_
  subst hline
  rfl

theorem Returns.move (h : cur.pos + k < 2 ^ 31) :
    Returns (cur.move k) (· = { cur with pos := cur.pos + k, top := max cur.top (cur.pos + k) }) :=
  (Attains.move cur k).returns h

theorem Returns.advance (h : cur.pos + k < 2 ^ 31) (hcol : cur.col + k < 2 ^ 31) :
    Returns (cur.advance k)
      (· = { cur with pos := cur.pos + k, col := cur.col + k, top := max cur.top (cur.pos + k) }) :=
  (Attains.advance cur k).returns ⟨h, hcol⟩

theorem Returns.newLine (h : cur.pos + k < 2 ^ 31) (hline : cur.line + 1 < 2 ^ 31) :
    Returns (cur.newLine k)
      (· = { pos := cur.pos + k, line := cur.line + 1, col := 1, top := max cur.top (cur.pos + k) }) :=
  (Attains.newLine cur k).returns ⟨h, hline⟩

theorem ensures_move (cur : Cursor) (k : Nat) :
    Ensures (cur.move k) (· = { cur with pos := cur.pos + k, top := max cur.top (cur.pos + k) }) :=
  (Attains.move cur k).ensures

theorem ensures_advance (cur : Cursor) (k : Nat) :
    Ensures (cur.advance k)
      (· = { cur with pos := cur.pos + k, col := cur.col + k, top := max cur.top (cur.pos + k) }) :=
  (Attains.advance cur k).ensures

theorem ensures_newLine (cur : Cursor) (k : Nat) :
    Ensures (cur.newLine k)
      (· = { pos := cur.pos + k, line := cur.line + 1, col := 1, top := max cur.top (cur.pos + k) }) :=
  (Attains.newLine cur k).ensures

/-- How much of the source is left: the measure of the loops. -/
def left (source : Bytes) (cur : Cursor) : Nat := source.length - cur.pos

theorem left_lt (h : cur.pos < source.length) (hpos : cur.pos < cur'.pos) : left source cur' < left source cur := by
  unfold left
  omega

theorem left_lt_fuel {fuel : Nat} (hf : source.length < fuel) : left source cur < fuel := by
  unfold left
  omega

theorem lt_of_getElem? (h : source[i]? = some c) : i < source.length := (List.getElem?_eq_some_iff.mp h).1

/-! ## Moves along a line -/

/-- If the character is of a kind that newlines are not, it is there and no newline. -/
theorem Returns.ifAt_ne {b : Bool} (hp : p newline = false) :
    Returns (Tokenizer.ifAt source b i p) fun r => r = true → ∃ c, source[i]? = some c ∧ c ≠ newline := by
  refine (Returns.ifAt source b i p).mono fun r hr htrue => ?_
  obtain ⟨-, c, hc, hpc⟩ := hr.mp htrue
  refine ⟨c, hc, ?_⟩
  rintro rfl
  rw [hp] at hpc
  cases hpc

def OneLine (source : Bytes) (i k : Nat) : Prop := ∀ j, i ≤ j → j < k → source[j]? ≠ some newline

theorem oneLine_self (source : Bytes) (i : Nat) : OneLine source i i := by
  intro j hj hj'
  omega

theorem OneLine.trans {j : Nat} (h : OneLine source i j) (h' : OneLine source j k) : OneLine source i k := by
  intro l hl hl'
  by_cases hmid : l < j
  · exact h l hl hmid
  · exact h' l (by omega) hl'

theorem oneLine_succ (h : OneLine source i k) (hc : source[k]? = some c) (hne : c ≠ newline) :
    OneLine source i (k + 1) := by
  refine h.trans fun j hj hj' => ?_
  obtain rfl : j = k := by omega
  rw [hc]
  exact fun h => hne (Option.some.inj h)

theorem OneLine.not_mem (h : OneLine source i k) : newline ∉ (source.drop i).take (k - i) := by
  intro hmem
  obtain ⟨j, hj⟩ := List.mem_iff_getElem?.mp hmem
  have hlt : j < k - i := by
    have := (List.getElem?_eq_some_iff.mp hj).1
    rw [List.length_take] at this
    omega
  rw [List.getElem?_take_of_lt hlt, List.getElem?_drop] at hj
  exact h (i + j) (by omega) (by omega) hj

/-- From `cur` to `cur'` the cursor has moved along a line. -/
structure Skips (source : Bytes) (cur cur' : Cursor) : Prop where
  le : cur.pos ≤ cur'.pos
  inside : cur'.pos ≤ source.length
  line_eq : cur'.line = cur.line
  col_eq : cur'.col = cur.col + (cur'.pos - cur.pos)
  top_le : cur'.top ≤ max cur.top cur'.pos
  one_line : OneLine source cur.pos cur'.pos

theorem Skips.refl (h : cur.pos ≤ source.length) : Skips source cur cur where
  le := Nat.le_refl _
  inside := h
  line_eq := rfl
  col_eq := by simp
  top_le := Nat.le_max_left ..
  one_line := oneLine_self source cur.pos

theorem Skips.trans (h : Skips source cur cur') (h' : Skips source cur' cur'') : Skips source cur cur'' := by
  obtain ⟨hle, hin, hline, hcol, htop, hone⟩ := h
  obtain ⟨hle', hin', hline', hcol', htop', hone'⟩ := h'
  exact ⟨by omega, hin', by omega, by omega, by omega, hone.trans hone'⟩

/-- Wherever on its line the cursor gets, its column is an `int`. -/
def Room (source : Bytes) (cur : Cursor) : Prop :=
  ∀ i, cur.pos ≤ i → i ≤ source.length → OneLine source cur.pos i → cur.col + (i - cur.pos) < 2 ^ 31

theorem Skips.room (h : Skips source cur cur') (hroom : Room source cur) : Room source cur' := by
  intro i hi hin hone
  obtain ⟨hle, hin', -, hcol, -, hone'⟩ := h
  have := hroom i (by omega) hin (hone'.trans hone)
  omega

theorem oneLine_one (hc : source[i]? = some c) (hne : c ≠ newline) : OneLine source i (i + 1) :=
  oneLine_succ (oneLine_self source i) hc hne

/-- Along the line of the cursor nothing is larger than an `int` and no loop runs out of its fuel. -/
structure Roomy (source : Bytes) (fuel : Nat) (cur : Cursor) : Prop where
  length_lt : source.length < 2 ^ 31
  lt_fuel : source.length < fuel
  room : Room source cur

theorem Skips.roomy {fuel : Nat} (h : Skips source cur cur') (hok : Roomy source fuel cur) :
    Roomy source fuel cur' := ⟨hok.length_lt, hok.lt_fuel, h.room hok.room⟩

/-! From `start` the cursor has come to `cur`, and it goes on from there. -/

variable {start : Cursor} {fuel : Nat}

theorem Attains.advance_skips (h : Skips source start cur) (hin : cur.pos + k ≤ source.length)
    (hone : OneLine source cur.pos (cur.pos + k)) :
    Attains (Roomy source fuel start) (cur.advance k) fun cur' =>
      Skips source start cur' ∧ cur'.pos = cur.pos + k := by
  refine ((Attains.advance cur k).of_imp fun hok => ?_).mono fun cur' hcur' => ?_
  · have hlt := hok.length_lt
    have hcol := h.room hok.room (cur.pos + k) (Nat.le_add_right ..) hin hone
    omega
  · subst hcur'
    have hskips : Skips source cur
        { cur with pos := cur.pos + k, col := cur.col + k, top := max cur.top (cur.pos + k) } :=
      ⟨Nat.le_add_right .., hin, rfl, by simp, Nat.le_refl _, hone⟩
    exact ⟨h.trans hskips, rfl⟩

theorem Attains.advance_one (h : Skips source start cur) (hc : source[cur.pos]? = some c) (hne : c ≠ newline) :
    Attains (Roomy source fuel start) (cur.advance 1) fun cur' =>
      Skips source start cur' ∧ cur'.pos = cur.pos + 1 :=
  Attains.advance_skips h (lt_of_getElem? hc) (oneLine_one hc hne)

/-- The loop over characters of one kind, none of which is a newline. -/
theorem Attains.scan (h : Skips source start cur) (hp : p newline = false) :
    Attains (Roomy source fuel start) (scan source p fuel cur) (Skips source start) := by
  refine Attains.loop (I := Skips source start) (left source) ?_ h fun hok => left_lt_fuel hok.lt_fuel
  intro cur1 h1
  refine (Returns.ifAt_ne hp).attains.bind fun r hr => ?_
  cases r with
  | true =>
      obtain ⟨c, hc, hne⟩ := hr rfl
      refine (Attains.advance_one h1 hc hne).bind fun cur2 ⟨h2, hpos⟩ => .pure ⟨h2, ?_⟩
      exact left_lt (lt_of_getElem? hc) (by omega)
  | false => exact .pure h1

end Dwhbll.Tokenizer
