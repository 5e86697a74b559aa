import Dwhbll.Json.Parser

/-!
# Texts of values

The grammar that `json_parser` accepts, as a relation between values and texts. It follows that of JSON,
but for the characters of a string, which may be any bytes, and for numbers, which are what
`std::from_chars` makes of them.
-/

namespace Dwhbll.JsonText

open Ascii JsonParser

/-! ## Characters -/

def WS (w : Bytes) : Prop := ∀ c ∈ w, isSpace c = true

theorem ws_nil : WS [] := by
  intro c hc
  cases hc

theorem ws_append {w w' : Bytes} (hw : WS w) (hw' : WS w') : WS (w ++ w') := by
  intro c hc
  rcases List.mem_append.mp hc with hc | hc
  · exact hw c hc
  · exact hw' c hc

/-- What may stand behind a value and the white space that follows it. -/
def Stop (rest : Bytes) : Prop := ∀ c ∈ rest.head?, c = comma ∨ c = rightBracket ∨ c = rightBrace

/-- What may stand right behind a value. -/
def Delim (rest : Bytes) : Prop :=
  ∀ c ∈ rest.head?, isSpace c = true ∨ c = comma ∨ c = rightBracket ∨ c = rightBrace

/-- The number that hexadecimal digits give behind the ones that have given `n`. -/
def hexNumber : Bytes → (n : Nat) → Option Nat
  | [], n => some n
  | h :: hs, n => (hexValue h).bind fun v => hexNumber hs (16 * n + v)

/-- The characters `s` may be written as `t` between quotes. -/
inductive Chars : (s t : Bytes) → Prop
  | nil : Chars [] []
  | raw {c s t} (hq : c ≠ quote) (hb : c ≠ backslash) (h : Chars s t) : Chars (c :: s) (c :: t)
  | escape {b c s t} (hc : unescape c = some b) (h : Chars s t) : Chars (b :: s) (backslash :: c :: t)
  | unicode {hs cp s t} (hl : hs.length = 4) (hcp : hexNumber hs 0 = some cp) (h : Chars s t) :
      Chars (utf8 cp ++ s) (backslash :: 0x75 :: (hs ++ t))

/-! ## Values -/

variable {F : Type} (ops : FloatOps F)

/-- `t` is read as the number `x` wherever it is the text of a value. -/
structure NumberText (x : F) (t : Bytes) : Prop where
  start : ∃ c u, t = c :: u ∧ (c = minus ∨ isDigit c = true)
  no_leading_zero : ∀ c u, t = zero :: c :: u → isDigit c = false
  read_back : ∀ rest, Delim rest → ops.fromChars (t ++ rest) = some (x, t.length)

/-- What is assumed of `std::format` and `std::from_chars`: a finite number is read back from its text. -/
def ReadsBack : Prop :=
  ∀ x, ops.isinf x = false → ops.isnan x = false → NumberText ops x (ops.format x)

/-- The object that the members `ms` make, of which the last one with a key counts. -/
def insertAll (ms j : List (Bytes × Json F)) : List (Bytes × Json F) :=
  ms.foldl (fun j m => mapInsert m.1 m.2 j) j

mutual

inductive Value : Json F → Bytes → Prop
  | emptyObject {w} (hw : WS w) : Value (.object []) (leftBrace :: (w ++ [rightBrace]))
  | object {ms t} (h : Members ms t) : Value (.object (insertAll ms [])) (leftBrace :: (t ++ [rightBrace]))
  | emptyArray {w} (hw : WS w) : Value (.array []) (leftBracket :: (w ++ [rightBracket]))
  | array {js t} (h : Elements js t) : Value (.array js) (leftBracket :: (t ++ [rightBracket]))
  | string {s t} (h : Chars s t) : Value (.string s) (quote :: (t ++ [quote]))
  | number {x t} (h : NumberText ops x t) : Value (.number x) t
  | true : Value (.bool true) (ascii "true")
  | false : Value (.bool false) (ascii "false")
  | null : Value .null (ascii "null")

/-- A value with white space around it. -/
inductive Element : Json F → Bytes → Prop
  | mk {j w t w'} (hw : WS w) (h : Value j t) (hw' : WS w') : Element j (w ++ (t ++ w'))

inductive Elements : List (Json F) → Bytes → Prop
  | one {j t} (h : Element j t) : Elements [j] t
  | more {j js t u} (h : Element j t) (hs : Elements js u) : Elements (j :: js) (t ++ comma :: u)

inductive Member : Bytes × Json F → Bytes → Prop
  | mk {key j w k w' t} (hw : WS w) (hk : Chars key k) (hw' : WS w') (h : Element j t) :
      Member (key, j) (w ++ (quote :: (k ++ [quote]) ++ (w' ++ colon :: t)))

inductive Members : List (Bytes × Json F) → Bytes → Prop
  | one {m t} (h : Member m t) : Members [m] t
  | more {m ms t u} (h : Member m t) (hs : Members ms u) : Members (m :: ms) (t ++ comma :: u)

end

end Dwhbll.JsonText
