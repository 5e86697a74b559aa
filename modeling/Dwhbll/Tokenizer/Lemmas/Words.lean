import Dwhbll.Tokenizer.Lemmas.Cursor
import Dwhbll.Tokenizer.Lemmas.Hash

/-!
# Tokens that are pieces of a line
-/

namespace Dwhbll.Tokenizer

open Loops

variable {ct : CType} {source : Bytes} {cur cur' : Cursor} {c : UInt8} {fuel : Nat}

def Ascii (source : Bytes) : Prop := ∀ c ∈ source, c < 0x80

theorem Ascii.lt {i : Nat} (h : Ascii source) (hc : source[i]? = some c) : c < 0x80 := h c (List.mem_of_getElem? hc)

/-! ## Newlines are in no class of characters but that of white space -/

theorem CType.isdigit_newline (ct : CType) : ct.isdigit newline = false := ct.isdigit_ascii newline (by decide)

theorem CType.isxdigit_newline (ct : CType) : ct.isxdigit newline = false := ct.isxdigit_ascii newline (by decide)

theorem isIdentStart_newline (ct : CType) : isIdentStart ct newline = false := by
  rw [isIdentStart, ct.isalpha_ascii newline (by decide)]
  rfl

theorem isIdentContinue_newline (ct : CType) : isIdentContinue ct newline = false := by
  rw [isIdentContinue, isIdentStart_newline, ct.isdigit_newline]
  rfl

/-! ## Pieces -/

/-- The token is the piece of the source that the cursor has moved over. Of a source that is not ASCII only the
position is claimed: the two characters of an arrow are known by their hash. -/
structure Word (source : Bytes) (cur : Cursor) (t : Token) (cur' : Cursor) : Prop where
  skips : Skips source cur cur'
  lt : cur.pos < cur'.pos
  line_eq : t.line = cur.line
  column_eq : t.column = cur.col
  type_ne : t.type ≠ .eof
  value_eq : Ascii source → t.value = (source.drop cur.pos).take (cur'.pos - cur.pos)

/-- The iteration pushes such a token. -/
def Pushes (source : Bytes) (cur : Cursor) (r : Option Token × Cursor) : Prop :=
  ∃ t, r.1 = some t ∧ Word source cur t r.2

/-- The token has no newline in it, or it is one. -/
def OnLine (t : Token) : Prop := newline ∈ t.value → t.type = .newline

theorem Returns.piece {type : TokenType} (h : Skips source cur cur') (hlt : cur.pos < cur'.pos)
    (htype : type ≠ .eof) :
    Returns (piece source type cur.pos cur') fun t => Word source cur t cur' ∧ OnLine t := by
  have hin := h.inside
  have hcol := h.col_eq
  refine (Returns.substr (by omega)).bind fun value hvalue => .pure ⟨?_, fun hmem => ?_⟩
  · exact ⟨h, hlt, by simp [h.line_eq], by simp only; omega, htype, fun _ => hvalue⟩
  · rw [hvalue] at hmem
    exact absurd hmem h.one_line.not_mem

/-- The iteration pushes such a token, with no newline in it. -/
def PushesLine (source : Bytes) (cur : Cursor) (r : Option Token × Cursor) : Prop :=
  Pushes source cur r ∧ ∀ t, r.1 = some t → OnLine t

/-- A branch that looks for the end of a piece and then takes it. -/
theorem Returns.pushes {type : TokenType} (h : Skips source cur cur') (hlt : cur.pos < cur'.pos)
    (htype : type ≠ .eof) :
    Returns (do return (some (← Tokenizer.piece source type cur.pos cur'), cur')) (PushesLine source cur) := by
  refine (Returns.piece h hlt htype).bind fun t ⟨ht, hone⟩ => .pure ⟨⟨t, rfl, ht⟩, ?_⟩
  rintro t' ⟨⟩
  exact hone

theorem kwType_ne_eof (word : Bytes) : kwType word ≠ .eof := by
  have hall : ∀ kw ∈ keywords, kw.2 ≠ .eof := by decide
  unfold kwType
  split
  · rename_i kw h
    exact hall kw (List.mem_of_find?_eq_some h)
  · decide

/-! ## Branches on a line -/

section Numbers

variable {start : Cursor} (h : Skips source start cur)

include h

/-- A step over a character of a kind, and what comes behind it. -/
theorem Attains.ifAt_skips {m : Cursor → Except Fault Cursor} {p : UInt8 → Bool} (hp : p newline = false)
    (hm : ∀ cur, Skips source start cur → Attains (Roomy source fuel start) (m cur) (Skips source start)) :
    Attains (Roomy source fuel start) (do if ← ifAt source true cur.pos p then m (← cur.advance 1) else return cur)
      (Skips source start) := by
  refine (Returns.ifAt_ne hp).attains.bind fun r hr => ?_
  cases r with
  | true =>
      obtain ⟨c, hc, hne⟩ := hr rfl
      exact (Attains.advance_one h hc hne).bind fun cur1 ⟨h1, _⟩ => hm cur1 h1
  | false => exact .pure h

theorem Attains.hexNumber (hc : source[cur.pos]? = some c) (hne : c ≠ newline) :
    Attains (Roomy source fuel start) (hexNumber ct source fuel cur) (Skips source start) := by
  refine (Attains.advance_one h hc hne).bind fun cur1 ⟨h1, _⟩ => ?_
  refine (Attains.scan h1 ct.isxdigit_newline).bind fun cur2 h2 => ?_
  exact Attains.scan h2 rfl

theorem Attains.fraction : Attains (Roomy source fuel start) (fraction ct source fuel cur) (Skips source start) :=
  Attains.ifAt_skips h rfl fun _ h1 => Attains.scan h1 ct.isdigit_newline

theorem Attains.sign : Attains (Roomy source fuel start) (sign source cur) (Skips source start) := by
  refine (Returns.ifAt_ne rfl).attains.bind fun r hr => ?_
  cases r with
  | true =>
      obtain ⟨c, hc, hne⟩ := hr rfl
      exact (Attains.advance_one h hc hne).mono fun cur1 ⟨h1, _⟩ => h1
  | false => exact .pure h

theorem Attains.exponent : Attains (Roomy source fuel start) (exponent ct source fuel cur) (Skips source start) :=
  Attains.ifAt_skips h (m := fun cur => do Tokenizer.scan source ct.isdigit fuel (← Tokenizer.sign source cur)) rfl
    fun _ h1 => (Attains.sign h1).bind fun _ h2 => Attains.scan h2 ct.isdigit_newline

theorem Attains.decimalNumber :
    Attains (Roomy source fuel start) (decimalNumber ct source fuel cur) (Skips source start) := by
  refine (Attains.scan h ct.isdigit_newline).bind fun cur1 h1 => ?_
  refine (Attains.fraction h1).bind fun cur2 h2 => ?_
  refine (Attains.exponent h2).bind fun cur3 h3 => ?_
  exact Attains.scan h3 rfl

theorem Attains.numberTail :
    Attains (Roomy source fuel start) (numberTail ct source c fuel cur) (Skips source start) := by
  refine (Returns.ifAt_ne rfl).attains.bind fun r hr => ?_
  cases r with
  | true =>
      obtain ⟨x, hx, hne⟩ := hr rfl
      exact Attains.hexNumber h hx hne
  | false => exact Attains.decimalNumber h

end Numbers

theorem Attains.lineComment (hc : source[cur.pos]? = some slash) (hc' : source[cur.pos + 1]? = some slash) :
    Attains (Roomy source fuel cur) (lineComment source fuel cur) (PushesLine source cur) := by
  have hin := Nat.le_of_lt (lt_of_getElem? hc)
  have hone := oneLine_succ (oneLine_one hc (by decide)) hc' (by decide)
  refine (Attains.advance_skips (.refl hin) (lt_of_getElem? hc') hone).bind fun cur1 ⟨h1, hpos⟩ => ?_
  refine ((Attains.scan (.refl h1.inside) rfl).of_imp h1.roomy).bind fun cur2 h2 => ?_
  have hle := h2.le
  exact (Returns.pushes (h1.trans h2) (by omega) (by decide)).attains

theorem Attains.number (hc : source[cur.pos]? = some c) (hne : c ≠ newline) :
    Attains (Roomy source fuel cur) (number ct source c fuel cur) (PushesLine source cur) := by
  have hin := Nat.le_of_lt (lt_of_getElem? hc)
  refine (Attains.advance_one (.refl hin) hc hne).bind fun cur1 ⟨h1, hpos⟩ => ?_
  refine ((Attains.numberTail (.refl h1.inside)).of_imp h1.roomy).bind fun cur2 h2 => ?_
  have hle := h2.le
  exact (Returns.pushes (h1.trans h2) (by omega) (by decide)).attains

theorem Attains.identifier (hc : source[cur.pos]? = some c) (hne : c ≠ newline) :
    Attains (Roomy source fuel cur) (identifier ct source fuel cur) (PushesLine source cur) := by
  have hlt := lt_of_getElem? hc
  refine (Attains.advance_one (.refl (Nat.le_of_lt hlt)) hc hne).bind fun cur1 ⟨h1, hpos⟩ => ?_
  refine ((Attains.scan (.refl h1.inside) (isIdentContinue_newline ct)).of_imp h1.roomy).bind fun cur2 h2 => ?_
  refine (Returns.substr hlt).attains.bind fun word _ => ?_
  have hle := h2.le
  refine (Returns.pushes (h1.trans h2) (by omega) ?_).attains
  split
  · decide
  · exact kwType_ne_eof word

/-! ## Operators and punctuation -/

theorem charType_ne_eof (c : UInt8) : charType c ≠ .eof := by
  have hall : ∀ n < 256, charType (UInt8.ofNat n) ≠ .eof := by decide +kernel
  exact Words.of_forall_lt (P := fun c => charType c ≠ .eof) hall c.toNat_lt

theorem take_one {i : Nat} (h : source[i]? = some c) : (source.drop i).take 1 = [c] := by
  obtain ⟨hlt, rfl⟩ := List.getElem?_eq_some_iff.mp h
  rw [List.drop_eq_getElem_cons hlt]
  rfl

theorem take_two {i : Nat} {d : UInt8} (h : source[i]? = some c) (h' : source[i + 1]? = some d) :
    (source.drop i).take 2 = [c, d] := by
  obtain ⟨hlt, rfl⟩ := List.getElem?_eq_some_iff.mp h
  obtain ⟨hlt', rfl⟩ := List.getElem?_eq_some_iff.mp h'
  rw [List.drop_eq_getElem_cons hlt, List.drop_eq_getElem_cons hlt']
  rfl

theorem hash_of_arrow {two : Bytes} (h : twoType two = .arrow) : hash two = hash (text "->") := by
  unfold twoType at h
  split at h
  · assumption
  · split at h <;> cases h

/-- Two characters that begin no other token and have the hash of an arrow. -/
theorem arrow_of_hash {d : UInt8} (hc : c < 0x80) (hd : d < 0x80) (hspace : ct.isspace c = false)
    (hident : isIdentStart ct c = false) (h : twoType [c, d] = .arrow) : [c, d] = text "->" := by
  have halpha : ct.isalpha c = false := by
    rw [isIdentStart, Bool.or_eq_false_iff] at hident
    exact hident.1
  rcases pair_of_hash_arrow hc hd (hash_of_arrow h) with rfl | rfl | rfl | h
  · rw [ct.isspace_ascii _ hc] at hspace
    exact absurd hspace (by decide)
  · rw [ct.isalpha_ascii _ hc] at halpha
    exact absurd halpha (by decide)
  · rw [ct.isalpha_ascii _ hc] at halpha
    exact absurd halpha (by decide)
  · exact h

section Operators

variable (hc : source[cur.pos]? = some c) (hne : c ≠ newline)

/-- A token whose characters are known before the cursor moves over them. -/
theorem Attains.take {type : TokenType} {value : Bytes} {k : Nat} (hk : 0 < k) (hin : cur.pos + k ≤ source.length)
    (hone : OneLine source cur.pos (cur.pos + k)) (htype : type ≠ .eof) (hnew : newline ∉ value)
    (hvalue : Ascii source → value = (source.drop cur.pos).take k) :
    Attains (Roomy source fuel cur)
      (do return (some { type, value, line := cur.line, column := cur.col }, ← cur.advance k))
      (PushesLine source cur) := by
  refine (Attains.advance_skips (.refl (by omega)) hin hone).bind fun cur' ⟨h, hpos⟩ => .pure ⟨?_, ?_⟩
  · refine ⟨_, rfl, h, by simp only; omega, rfl, rfl, htype, ?_⟩
    rw [hpos, Nat.add_sub_cancel_left]
    exact hvalue
  · rintro t ⟨⟩ hmem
    exact absurd hmem hnew

/-- Such a token with the characters that stand there. -/
theorem Attains.take_slice {type : TokenType} {value : Bytes} {k : Nat} (hk : 0 < k)
    (hin : cur.pos + k ≤ source.length) (hone : OneLine source cur.pos (cur.pos + k)) (htype : type ≠ .eof)
    (hvalue : value = (source.drop cur.pos).take k) :
    Attains (Roomy source fuel cur)
      (do return (some { type, value, line := cur.line, column := cur.col }, ← cur.advance k))
      (PushesLine source cur) := by
  have hnew := hone.not_mem
  rw [Nat.add_sub_cancel_left, ← hvalue] at hnew
  exact Attains.take hk hin hone htype hnew fun _ => hvalue

include hc hne

theorem Attains.punctuation : Attains (Roomy source fuel cur) (punctuation c cur) (PushesLine source cur) :=
  Attains.take_slice Nat.one_pos (lt_of_getElem? hc) (oneLine_one hc hne) (charType_ne_eof c) (take_one hc).symm

theorem Attains.operator (hspace : ct.isspace c = false) (hident : isIdentStart ct c = false) :
    Attains (Roomy source fuel cur) (operator source c cur) (PushesLine source cur) := by
  unfold Tokenizer.operator
  split
  · rename_i hlt
    obtain ⟨d, hd⟩ : ∃ d, source[cur.pos + 1]? = some d := ⟨_, List.getElem?_eq_getElem hlt⟩
    have htwo := take_two hc hd
    refine (Returns.substr (lt_of_getElem? hc)).attains.bind fun two htwo' => ?_
    rw [htwo] at htwo'
    subst htwo'
    have hone : twoType [c, d] ≠ .none → OneLine source cur.pos (cur.pos + 2) := by
      refine fun h => oneLine_succ (oneLine_one hc hne) hd ?_
      rintro rfl
      exact h (twoType_newline c)
    split
    · rename_i harrow
      refine Attains.take Nat.two_pos hlt (hone (by rw [harrow]; decide)) (by decide) (by decide) fun hascii => ?_
      rw [htwo]
      exact (arrow_of_hash (hascii.lt hc) (hascii.lt hd) hspace hident harrow).symm
    · rename_i hop
      have hone' := hone (by rw [hop]; decide)
      refine (Returns.ifAt_ne rfl).attains.bind fun r hr => ?_
      cases r with
      | true =>
          obtain ⟨e, he, hne'⟩ := hr rfl
          refine (Returns.substr (lt_of_getElem? hc)).attains.bind fun three hthree => ?_
          exact Attains.take_slice (Nat.succ_pos 2) (lt_of_getElem? he) (oneLine_succ hone' he hne') (by decide) hthree
      | false => exact Attains.take_slice Nat.two_pos hlt hone' (by decide) htwo.symm
    · exact Attains.punctuation hc hne
  · exact Attains.punctuation hc hne

end Operators

end Dwhbll.Tokenizer
