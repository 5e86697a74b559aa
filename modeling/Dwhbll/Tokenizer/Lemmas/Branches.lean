import Dwhbll.Lib.Lists
import Dwhbll.Lib.Reading
import Dwhbll.Tokenizer.Lemmas.Safe
import Dwhbll.Tokenizer.Keywords

/-!
# What the branches of an iteration make, if they return

The cursor after a move, a scan or a piece as a function of the cursor before it, for every source, and the characters
that lead into the branches which do not stay on a line.
-/

namespace Dwhbll.Tokenizer

open Loops

variable {ct : CType} {source : Bytes} {cur cur' : Cursor} {c d : UInt8} {fuel i k : Nat}

/-! ## The cursors of a run -/

/-- The cursors between two iterations of `tokenize`. -/
inductive Reached (ct : CType) (source : Bytes) (fuel : Nat) : Cursor → Prop
  | start : Reached ct source fuel .start
  | step {cur : Cursor} {r : Option Token × Cursor} (h : Reached ct source fuel cur) (hlt : cur.pos < source.length)
      (hr : step ct source fuel cur = .ok r) : Reached ct source fuel r.2

theorem Reached.fits (h : Reached ct source fuel cur) (hn : source.length < 2 ^ 31 - 4) (hf : source.length < fuel) :
    Fits source cur := by
  induction h with
  | start => exact ⟨by decide, by decide, Nat.zero_le _, Nat.zero_le _⟩
  | step _ hlt hr ih => exact ((Returns.step_safe hn ih hlt hf).ensures _ hr).fits

/-- What an iteration makes: it has `Q` for every source, if it returns, and it does return on sources whose positions
are `int`s. -/
def Settles (ct : CType) (source : Bytes) (fuel : Nat) (cur : Cursor) (Q : Option Token × Cursor → Prop) : Prop :=
  Ensures (step ct source fuel cur) Q ∧
    (source.length < 2 ^ 31 - 4 → source.length < fuel → Returns (step ct source fuel cur) Q)

theorem Settles.of_ensures {Q : Option Token × Cursor → Prop} (h : Reached ct source fuel cur)
    (hlt : cur.pos < source.length) (hQ : Ensures (step ct source fuel cur) Q) : Settles ct source fuel cur Q :=
  ⟨hQ, fun hn hf => hQ.returns (Returns.step_safe hn (h.fits hn hf) hlt hf)⟩

theorem Settles.mono {Q Q' : Option Token × Cursor → Prop} (h : Settles ct source fuel cur Q) (hQ : ∀ r, Q r → Q' r) :
    Settles ct source fuel cur Q' :=
  ⟨h.1.mono hQ, fun hn hf => (h.2 hn hf).mono hQ⟩

/-! ## Moves -/

/-- The cursor has gone on and has counted `n` newlines. If there are none, its column is that much further, else it is
at most how far it has gone. -/
structure Moved (cur cur' : Cursor) (n : Nat) : Prop where
  le : cur.pos ≤ cur'.pos
  line_eq : cur'.line = cur.line + n
  col_eq : n = 0 → cur'.col = cur.col + (cur'.pos - cur.pos)
  col_le : 0 < n → cur'.col ≤ cur'.pos - cur.pos + 1

theorem Moved.refl (cur : Cursor) : Moved cur cur 0 := ⟨Nat.le_refl _, rfl, fun _ => by omega, nofun⟩

theorem Moved.trans {cur'' : Cursor} {m n : Nat} (h : Moved cur cur' m) (h' : Moved cur' cur'' n) :
    Moved cur cur'' (m + n) := by
  obtain ⟨hle, hline, hcol, hcol'⟩ := h
  obtain ⟨hle', hline', hcol'', hcol'''⟩ := h'
  refine ⟨by omega, by omega, fun hz => ?_, fun hpos => ?_⟩
  · rw [hcol'' (by omega), hcol (by omega)]
    omega
  · rcases Nat.eq_zero_or_pos n with hn | hn
    · have h1 := hcol'' hn
      have h2 := hcol' (by omega)
      omega
    · have h1 := hcol''' hn
      omega

theorem ensures_advance_moved (cur : Cursor) (k : Nat) :
    Ensures (cur.advance k) fun cur' => cur'.pos = cur.pos + k ∧ Moved cur cur' 0 := by
  refine (ensures_advance cur k).mono fun cur' hcur' => ?_
  subst hcur'
  exact ⟨rfl, by simp, rfl, fun _ => by simp, nofun⟩

theorem ensures_newLine_moved (cur : Cursor) (k : Nat) :
    Ensures (cur.newLine k) fun cur' => cur'.pos = cur.pos + k ∧ Moved cur cur' 1 := by
  refine (ensures_newLine cur k).mono fun cur' hcur' => ?_
  subst hcur'
  exact ⟨rfl, by simp, rfl, nofun, fun _ => by simp⟩

/-! ## Looking at the source -/

theorem ensures_ifAt (source : Bytes) (b : Bool) (i : Nat) (p : UInt8 → Bool) :
    Ensures (ifAt source b i p) fun r => r = true ↔ b = true ∧ ∃ c, source[i]? = some c ∧ p c = true :=
  (Returns.ifAt source b i p).ensures

theorem ensures_substr_eq (start len : Nat) :
    Ensures (substr source start len) (· = (source.drop start).take len) := by
  unfold substr
  split
  · exact .pure rfl
  · nofun

theorem drop_of_getElem? (hc : source[i]? = some c) : source.drop i = c :: source.drop (i + 1) := by
  obtain ⟨hlt, rfl⟩ := List.getElem?_eq_some_iff.mp hc
  exact List.drop_eq_getElem_cons hlt

/-- A loop over characters of one kind stops behind the last of them. -/
theorem ensures_scan (p : UInt8 → Bool) (fuel : Nat) (cur : Cursor) :
    Ensures (scan source p fuel cur) fun cur' =>
      cur'.pos = cur.pos + ((source.drop cur.pos).takeWhile p).length ∧ Moved cur cur' 0 := by
  refine Ensures.loop (I := fun cur1 =>
    cur1.pos + ((source.drop cur1.pos).takeWhile p).length =
      cur.pos + ((source.drop cur.pos).takeWhile p).length ∧ Moved cur cur1 0) ?_ ⟨rfl, .refl cur⟩
  intro cur1 ⟨hpos, hmoved⟩
  refine Ensures.bind (ensures_ifAt source true cur1.pos p) fun r hr => ?_
  cases r with
  | true =>
      obtain ⟨-, c, hc, hp⟩ := hr.mp rfl
      refine (ensures_advance_moved cur1 1).bind fun cur2 ⟨hpos2, hmoved2⟩ => .pure ⟨?_, hmoved.trans hmoved2⟩
      rw [drop_of_getElem? hc, List.takeWhile_cons_of_pos hp, List.length_cons] at hpos
      rw [hpos2]
      omega
  | false =>
      refine .pure ⟨?_, hmoved⟩
      cases hdrop : source.drop cur1.pos with
      | nil =>
          rw [hdrop] at hpos
          exact hpos
      | cons c rest =>
          have hc : source[cur1.pos]? = some c := by
            rw [← Nat.add_zero cur1.pos, ← List.getElem?_drop, hdrop]
            rfl
          have hp : ¬ p c = true := fun hp => nomatch hr.mpr ⟨rfl, c, hc, hp⟩
          rw [hdrop, List.takeWhile_cons_of_neg hp] at hpos
          exact hpos

/-! ## Loops that read -/

/-- An iteration of a loop does what the reading does at the cursor. -/
inductive Follows (act : UInt8 → Option UInt8 → Reading.Act) (source : Bytes) (cur : Cursor) :
    Next Cursor Cursor → Prop
  | out (h : source.length ≤ cur.pos) : Follows act source cur (.done cur)
  | stop {c : UInt8} {n : Nat} {cur' : Cursor} (hc : source[cur.pos]? = some c)
      (hact : act c source[cur.pos + 1]? = .stop n) (hpos : cur'.pos = cur.pos + n) (h : Moved cur cur' 0) :
      Follows act source cur (.done cur')
  | go {c : UInt8} {skip n : Nat} {cur' : Cursor} (hc : source[cur.pos]? = some c)
      (hact : act c source[cur.pos + 1]? = .go skip n) (hpos : cur'.pos = cur.pos + 1 + skip) (h : Moved cur cur' n) :
      Follows act source cur (.again cur')

/-- Where a loop that reads has come to: it may be behind the end of the source. -/
structure Read (act : UInt8 → Option UInt8 → Reading.Act) (source : Bytes) (cur cur' : Cursor) : Prop where
  pos_eq : min cur'.pos source.length = min cur.pos source.length + Reading.length act 0 (source.drop cur.pos)
  moved : Moved cur cur' (Reading.counted act 0 (source.drop cur.pos))

theorem ensures_reading {act : UInt8 → Option UInt8 → Reading.Act} (hnear : Reading.Near act)
    {step : Cursor → Except Fault (Next Cursor Cursor)} (hstep : ∀ cur, Ensures (step cur) (Follows act source cur))
    (fuel : Nat) (cur : Cursor) : Ensures (loop .running step fuel cur) (Read act source cur) := by
  refine Ensures.loop (I := fun cur1 =>
    min cur1.pos source.length + Reading.length act 0 (source.drop cur1.pos) =
      min cur.pos source.length + Reading.length act 0 (source.drop cur.pos) ∧
      ∃ n, n + Reading.counted act 0 (source.drop cur1.pos) = Reading.counted act 0 (source.drop cur.pos) ∧
        Moved cur cur1 n) ?_ ⟨rfl, 0, Nat.zero_add _, .refl cur⟩
  intro cur1 ⟨hlen, n, hcount, hmoved⟩
  refine (hstep cur1).mono fun next hnext => ?_
  cases hnext with
  | out h =>
      rw [List.drop_eq_nil_of_le h] at hlen hcount
      refine ⟨hlen, ?_⟩
      rw [← hcount]
      exact hmoved
  | @stop c k cur2 hc hact hpos hmoved2 =>
      have hk := hnear _ _ _ hact
      have hin : cur1.pos + k ≤ source.length := by
        have hlt := lt_of_getElem? hc
        cases hd : source[cur1.pos + 1]? with
        | none =>
            rw [hd, Option.toList_none, List.length_nil] at hk
            omega
        | some d =>
            have hlt' := lt_of_getElem? hd
            rw [hd, Option.toList_some, List.length_singleton] at hk
            omega
      rw [← List.head?_drop] at hact
      rw [drop_of_getElem? hc, Reading.length_stop hact] at hlen
      rw [drop_of_getElem? hc, Reading.counted_stop hact] at hcount
      refine ⟨by omega, ?_⟩
      rw [← hcount]
      exact hmoved.trans hmoved2
  | @go c skip k cur2 hc hact hpos hmoved2 =>
      have hlt := lt_of_getElem? hc
      have hrest : (source.drop (cur1.pos + 1)).length = source.length - (cur1.pos + 1) := List.length_drop
      rw [← List.head?_drop] at hact
      rw [drop_of_getElem? hc, Reading.length_go hact, Reading.length_skip, hrest, List.drop_drop, ← hpos] at hlen
      rw [drop_of_getElem? hc, Reading.counted_go hact, Reading.counted_skip, List.drop_drop, ← hpos] at hcount
      exact ⟨by omega, n + k, by omega, hmoved.trans hmoved2⟩

/-- What is left of the source behind a scan. -/
theorem drop_scan {p : UInt8 → Bool} {j : Nat} (h : j = i + ((source.drop i).takeWhile p).length) :
    source.drop j = (source.drop i).dropWhile p := by
  rw [h, ← List.drop_drop, Lists.drop_takeWhile]

/-- The token of the characters from `start` on. -/
def pieceToken (source : Bytes) (type : TokenType) (start : Nat) (cur : Cursor) : Token :=
  ⟨type, (source.drop start).take (cur.pos - start), cur.line, (cur.col : Int) - (cur.pos - start : Nat)⟩

theorem ensures_piece_eq (type : TokenType) (start : Nat) (cur : Cursor) :
    Ensures (do return (some (← piece source type start cur), cur) : Except Fault (Option Token × Cursor))
      (· = (some (pieceToken source type start cur), cur)) := by
  refine Ensures.bind (Q := fun t => t = pieceToken source type start cur) ?_ fun t ht => .pure (by rw [ht])
  refine (ensures_substr_eq _ _).bind fun value hvalue => .pure ?_
  subst hvalue
  rfl

/-- What lies behind the end of the source does not count. -/
theorem pieceToken_value (source : Bytes) (type : TokenType) (start : Nat) (cur : Cursor) :
    (pieceToken source type start cur).value = (source.drop start).take (min cur.pos source.length - start) := by
  rw [pieceToken]
  rcases Nat.le_total cur.pos source.length with hle | hge
  · rw [Nat.min_eq_left hle]
  · have hlen : (source.drop start).length = source.length - start := List.length_drop
    rw [Nat.min_eq_right hge, List.take_of_length_le (by omega), List.take_of_length_le (by omega)]

/-- The iteration pushes what the cursor goes over as a token, and has counted `n` newlines in it. -/
structure Scanned (source : Bytes) (cur : Cursor) (n : Nat) (r : Option Token × Cursor) (t : Token) : Prop where
  token : r.1 = some t
  value_eq : t.value = (source.drop cur.pos).take (r.2.pos - cur.pos)
  moved : Moved cur r.2 n
  line_eq : t.line = cur.line + n
  column_eq : n = 0 → t.column = cur.col
  column_le : 0 < n → t.column ≤ 0

theorem scanned_piece {n : Nat} (source : Bytes) (type : TokenType) {cur1 : Cursor} (hk : 0 < k)
    (hpos : cur1.pos = cur.pos + k) (h : Moved cur cur1 0) (h' : Moved cur1 cur' n) :
    Scanned source cur n (some (pieceToken source type cur.pos cur'), cur') (pieceToken source type cur.pos cur') := by
  have htrans := h.trans h'
  rw [Nat.zero_add] at htrans
  have hle := htrans.le
  refine ⟨rfl, rfl, htrans, ?_, fun hz => ?_, fun hn => ?_⟩
  · simp [pieceToken, htrans.line_eq]
  · have hcol := htrans.col_eq hz
    simp only [pieceToken]
    omega
  · have hcol := h'.col_le hn
    have hle' := h'.le
    simp only [pieceToken]
    omega

/-! ## Into the branches -/

theorem charAt_eq (hc : source[i]? = some c) : charAt source i = .ok c := by
  rw [charAt, hc]

theorem ifAt_eq (hc : source[i]? = some c) (b : Bool) (p : UInt8 → Bool) :
    ifAt source b i p = .ok (b && p c) := by
  cases b with
  | false => exact ifAt_false source i p
  | true => simp [ifAt, lt_of_getElem? hc, charAt_eq hc, bind, Except.bind, pure, Except.pure]

theorem step_of_quote (hc : source[cur.pos]? = some c) (hq : c = doubleQuote ∨ c = singleQuote) :
    step ct source fuel cur = literal source c fuel cur := by
  have hspace : ct.isspace c = false := by
    rcases hq with rfl | rfl
    · exact ct.isspace_ascii _ (by decide)
    · exact ct.isspace_ascii _ (by decide)
  have hne : c ≠ newline ∧ c ≠ 0x0D ∧ (c == slash) = false := by
    rcases hq with rfl | rfl <;> decide
  simp [step, charAt_eq hc, hne.1, hne.2.1, hne.2.2, hspace, ifAt_false, hq, bind, Except.bind]

theorem step_of_blockComment (hc : source[cur.pos]? = some slash) (hstar : source[cur.pos + 1]? = some star) :
    step ct source fuel cur = blockComment source fuel cur := by
  have hspace : ct.isspace slash = false := ct.isspace_ascii _ (by decide)
  have hne : slash ≠ newline ∧ slash ≠ 0x0D ∧ (star == slash) = false := by decide
  simp [step, charAt_eq hc, hne.1, hne.2.1, hne.2.2, hspace, ifAt_eq hstar, bind, Except.bind]

theorem step_of_hashSign (hc : source[cur.pos]? = some hashSign) :
    step ct source fuel cur = directive ct source fuel cur := by
  have hspace : ct.isspace hashSign = false := ct.isspace_ascii _ (by decide)
  have hdigit : ct.isdigit hashSign = false := ct.isdigit_ascii _ (by decide)
  have hstart : isIdentStart ct hashSign = false := by
    rw [isIdentStart, ct.isalpha_ascii _ (by decide)]
    rfl
  have hne : hashSign ≠ newline ∧ hashSign ≠ 0x0D ∧ (hashSign == slash) = false ∧ hashSign ≠ doubleQuote ∧
      hashSign ≠ singleQuote ∧ (hashSign == dot) = false := by decide
  obtain ⟨hnew, hcr, hslash, hdouble, hsingle, hdot⟩ := hne
  simp [step, charAt_eq hc, hnew, hcr, hslash, hdouble, hsingle, hdot, hspace, hdigit, hstart, ifAt_false, bind,
    Except.bind]

end Dwhbll.Tokenizer
