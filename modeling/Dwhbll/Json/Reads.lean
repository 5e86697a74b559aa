import Dwhbll.Json.Lemmas.Values

/-!
# What the parser reads

The texts that `json_parser` reads at the start of an input, exactly: `rest` is what follows the text, on which it
depends how far a number goes. The list of lexemes has what the parser takes over without a look at it.
-/

namespace Dwhbll.JsonReads

open Ascii JsonParser JsonText

inductive Lexeme where
  /-- The input from the first character of a number on. -/
  | number (input : Bytes)
  /-- A character of a string that is not escaped. -/
  | raw (c : UInt8)
  deriving DecidableEq, Repr

inductive Chars : (s t : Bytes) → List Lexeme → Prop
  | nil : Chars [] [] []
  | raw {c s t ls} (hq : c ≠ quote) (hb : c ≠ backslash) (h : Chars s t ls) : Chars (c :: s) (c :: t) (.raw c :: ls)
  | escape {b c s t ls} (hc : unescape c = some b) (h : Chars s t ls) : Chars (b :: s) (backslash :: c :: t) ls
  | unicode {hs cp s t ls} (hl : hs.length = 4) (hcp : hexNumber hs 0 = some cp) (h : Chars s t ls) :
      Chars (utf8 cp ++ s) (backslash :: 0x75 :: (hs ++ t)) ls

variable {F : Type} (ops : FloatOps F)

/-- A number as far as `std::from_chars` reads it. -/
structure NumberAt (x : F) (t rest : Bytes) : Prop where
  start : ∃ c u, t = c :: u ∧ (c = minus ∨ isDigit c = true)
  no_leading_zero : ∀ c u, t ++ rest = zero :: c :: u → isDigit c = false
  read : ops.fromChars (t ++ rest) = some (x, t.length)

mutual

inductive Value : Json F → (t rest : Bytes) → List Lexeme → Prop
  | emptyObject {w rest} (hw : WS w) : Value (.object []) (leftBrace :: (w ++ [rightBrace])) rest []
  | object {ms t rest ls} (h : Members ms t (rightBrace :: rest) ls) :
      Value (.object (insertAll ms [])) (leftBrace :: (t ++ [rightBrace])) rest ls
  | emptyArray {w rest} (hw : WS w) : Value (.array []) (leftBracket :: (w ++ [rightBracket])) rest []
  | array {js t rest ls} (h : Elements js t (rightBracket :: rest) ls) :
      Value (.array js) (leftBracket :: (t ++ [rightBracket])) rest ls
  | string {s t rest ls} (h : Chars s t ls) : Value (.string s) (quote :: (t ++ [quote])) rest ls
  | number {x t rest} (h : NumberAt ops x t rest) : Value (.number x) t rest [.number (t ++ rest)]
  | true {rest} : Value (.bool true) (ascii "true") rest []
  | false {rest} : Value (.bool false) (ascii "false") rest []
  | null {rest} : Value .null (ascii "null") rest []

/-- A value with all the white space around it. -/
inductive Element : Json F → (t rest : Bytes) → List Lexeme → Prop
  | mk {j w t w' rest ls} (hw : WS w) (h : Value j t (w' ++ rest) ls) (hw' : WS w') (hr : NoSpace rest) :
      Element j (w ++ (t ++ w')) rest ls

inductive Elements : List (Json F) → (t rest : Bytes) → List Lexeme → Prop
  | one {j t rest ls} (h : Element j t rest ls) : Elements [j] t rest ls
  | more {j js t u rest ls ls'} (h : Element j t (comma :: (u ++ rest)) ls) (hs : Elements js u rest ls') :
      Elements (j :: js) (t ++ comma :: u) rest (ls ++ ls')

inductive Member : Bytes × Json F → (t rest : Bytes) → List Lexeme → Prop
  | mk {key j w k w' t rest ls ls'} (hw : WS w) (hk : Chars key k ls) (hw' : WS w') (h : Element j t rest ls') :
      Member (key, j) (w ++ (quote :: (k ++ [quote]) ++ (w' ++ colon :: t))) rest (ls ++ ls')

inductive Members : List (Bytes × Json F) → (t rest : Bytes) → List Lexeme → Prop
  | one {m t rest ls} (h : Member m t rest ls) : Members [m] t rest ls
  | more {m ms t u rest ls ls'} (h : Member m t (comma :: (u ++ rest)) ls) (hs : Members ms u rest ls') :
      Members (m :: ms) (t ++ comma :: u) rest (ls ++ ls')

end

end Dwhbll.JsonReads
