import Dwhbll.Json.Basic

/-!
# The grammar of RFC 8259

JSON texts as they are defined there, and the values that they stand for. The text is a list of bytes; the bytes of
characters that are not ASCII are all above `0x7F`. What a number and a `\u` escape stand for is a parameter. Of
members with the same name the last one counts.
-/

namespace Dwhbll.Rfc8259

open Ascii

/-! ## Tokens -/

def WS (w : Bytes) : Prop := ∀ c ∈ w, c = 0x20 ∨ c = 0x09 ∨ c = 0x0A ∨ c = 0x0D

/-- `1*DIGIT`. -/
def Digits (t : Bytes) : Prop := t ≠ [] ∧ ∀ c ∈ t, isDigit c = true

/-- `int = zero / ( digit1-9 *DIGIT )`. -/
inductive IntPart : Bytes → Prop
  | zero : IntPart [zero]
  | positive {d ds} (hd : isDigit d = true) (h0 : d ≠ Ascii.zero) (hds : ∀ c ∈ ds, isDigit c = true) :
      IntPart (d :: ds)

/-- `[ frac ]`. -/
inductive Frac : Bytes → Prop
  | none : Frac []
  | some {ds} (h : Digits ds) : Frac (0x2E :: ds)

/-- `[ exp ]`. -/
inductive Exp : Bytes → Prop
  | none : Exp []
  | some {e sign ds} (he : e = 0x65 ∨ e = 0x45) (hs : sign = [] ∨ sign = [0x2D] ∨ sign = [0x2B]) (h : Digits ds) :
      Exp (e :: (sign ++ ds))

/-- `number = [ minus ] int [ frac ] [ exp ]`. -/
inductive Number : Bytes → Prop
  | mk {m i f e} (hm : m = [] ∨ m = [minus]) (hi : IntPart i) (hf : Frac f) (he : Exp e) :
      Number (m ++ (i ++ (f ++ e)))

/-- The letter after a backslash, and the character that it stands for. -/
inductive Escape : UInt8 → UInt8 → Prop
  | quote : Escape quote quote
  | backslash : Escape backslash backslash
  | slash : Escape 0x2F 0x2F
  | backspace : Escape 0x62 0x08
  | formFeed : Escape 0x66 0x0C
  | lineFeed : Escape 0x6E 0x0A
  | carriageReturn : Escape 0x72 0x0D
  | tab : Escape 0x74 0x09

/-- A hexadecimal digit in either case, and its value. -/
inductive Hex : UInt8 → Nat → Prop
  | digit {n} (h : n < 10) : Hex (UInt8.ofNat (0x30 + n)) n
  | lower {n} (h : n < 6) : Hex (UInt8.ofNat (0x61 + n)) (10 + n)
  | upper {n} (h : n < 6) : Hex (UInt8.ofNat (0x41 + n)) (10 + n)

variable {F : Type}

/-- What the texts of numbers and the code units of `\u` escapes stand for. -/
structure Meaning (F : Type) where
  number : Bytes → F → Prop
  unicode : Nat → Bytes → Prop

/-- A `\u` escape that is no surrogate stands for the UTF-8 bytes of its code point. -/
def utf8Meaning (number : Bytes → F → Prop) : Meaning F where
  number := number
  unicode cp bytes := ¬ (0xD800 ≤ cp ∧ cp ≤ 0xDFFF) ∧ bytes = String.utf8EncodeChar (Char.ofNat cp)

variable (M : Meaning F)

/-- The characters `t` between the quotes of a string, and the bytes that they stand for. -/
inductive Chars : (s t : Bytes) → Prop
  | nil : Chars [] []
  | unescaped {c s t} (hc : 0x20 ≤ c) (hq : c ≠ quote) (hb : c ≠ backslash) (h : Chars s t) :
      Chars (c :: s) (c :: t)
  | escape {b c s t} (hc : Escape c b) (h : Chars s t) : Chars (b :: s) (backslash :: c :: t)
  | unicode {a b c d v w x y bytes s t} (ha : Hex a v) (hb : Hex b w) (hc : Hex c x) (hd : Hex d y)
      (hm : M.unicode (4096 * v + 256 * w + 16 * x + y) bytes) (h : Chars s t) :
      Chars (bytes ++ s) (backslash :: 0x75 :: a :: b :: c :: d :: t)

/-! ## Values -/

/-- The members `o` of an object, in the order of their names, of which the members `ms` of its text say the same,
each of them unless a later one has its name. -/
def LastWins (ms o : List (Bytes × Json F)) : Prop :=
  o.Pairwise (·.1 < ·.1) ∧ ∀ name, o.lookup name = ms.reverse.lookup name

mutual

inductive Value : Json F → Bytes → Prop
  | false : Value (.bool false) (ascii "false")
  | null : Value .null (ascii "null")
  | true : Value (.bool true) (ascii "true")
  | emptyObject {w} (hw : WS w) : Value (.object []) (leftBrace :: (w ++ [rightBrace]))
  | object {ms o w t w'} (hw : WS w) (h : Members ms t) (hw' : WS w') (ho : LastWins ms o) :
      Value (.object o) (leftBrace :: (w ++ (t ++ (w' ++ [rightBrace]))))
  | emptyArray {w} (hw : WS w) : Value (.array []) (leftBracket :: (w ++ [rightBracket]))
  | array {js w t w'} (hw : WS w) (h : Elements js t) (hw' : WS w') :
      Value (.array js) (leftBracket :: (w ++ (t ++ (w' ++ [rightBracket]))))
  | number {x t} (h : Number t) (hm : M.number t x) : Value (.number x) t
  | string {s t} (h : Chars M s t) : Value (.string s) (quote :: (t ++ [quote]))

/-- `member = string name-separator value`. -/
inductive Member : Bytes × Json F → Bytes → Prop
  | mk {name j k w w' t} (hk : Chars M name k) (hw : WS w) (hw' : WS w') (h : Value j t) :
      Member (name, j) (quote :: (k ++ quote :: (w ++ colon :: (w' ++ t))))

/-- `member *( value-separator member )`. -/
inductive Members : List (Bytes × Json F) → Bytes → Prop
  | one {m t} (h : Member m t) : Members [m] t
  | more {m ms t w w' u} (h : Member m t) (hw : WS w) (hw' : WS w') (hs : Members ms u) :
      Members (m :: ms) (t ++ (w ++ comma :: (w' ++ u)))

/-- `value *( value-separator value )`. -/
inductive Elements : List (Json F) → Bytes → Prop
  | one {j t} (h : Value j t) : Elements [j] t
  | more {j js t w w' u} (h : Value j t) (hw : WS w) (hw' : WS w') (hs : Elements js u) :
      Elements (j :: js) (t ++ (w ++ comma :: (w' ++ u)))

end

/-- `JSON-text = ws value ws`. -/
inductive Text : Json F → Bytes → Prop
  | mk {j w t w'} (hw : WS w) (h : Value M j t) (hw' : WS w') : Text j (w ++ (t ++ w'))

end Dwhbll.Rfc8259
