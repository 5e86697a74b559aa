import Mathlib.Algebra.Group.Int.Defs
import Mathlib.Algebra.Group.Nat.Defs

/-!
# Values of `utils/json.hpp` and their texts

Strings are lists of bytes. An object is the list of its members in the order of a `std::map`, which is
that of the keys as byte strings. Numbers are of a type `F` that stands for `f64`; what the standard
library does with them is a parameter.
-/

namespace Dwhbll

abbrev Bytes := List UInt8

/-- A text of ASCII characters. -/
def ascii (s : String) : Bytes := s.toList.map fun c => UInt8.ofNat c.toNat

namespace Ascii

def newline : UInt8 := 0x0A
def space : UInt8 := 0x20
def quote : UInt8 := 0x22
def comma : UInt8 := 0x2C
def minus : UInt8 := 0x2D
def zero : UInt8 := 0x30
def colon : UInt8 := 0x3A
def leftBracket : UInt8 := 0x5B
def backslash : UInt8 := 0x5C
def rightBracket : UInt8 := 0x5D
def leftBrace : UInt8 := 0x7B
def rightBrace : UInt8 := 0x7D

def isDigit (c : UInt8) : Bool := 0x30 ≤ c && c ≤ 0x39

/-- The white space that the parser skips. -/
def isSpace (c : UInt8) : Bool := c == 0x20 || c == 0x0A || c == 0x0D || c == 0x09

end Ascii

open Ascii

inductive Json (F : Type) where
  | object (members : List (Bytes × Json F))
  | array (elements : List (Json F))
  | null
  | number (x : F)
  | string (s : Bytes)
  | bool (b : Bool)

/-- What the code takes from the standard library for `f64`. -/
structure FloatOps (F : Type) where
  isinf : F → Bool
  isnan : F → Bool
  /-- `std::format("\x7b\x7d", x)`. -/
  format : F → Bytes
  /-- `std::from_chars`: the number at the start of a text and how many characters it takes, or nothing
  where it reports an error. -/
  fromChars : Bytes → Option (F × Nat)

namespace Json

variable {F : Type}

/-! ## Writing -/

/-- A hexadecimal digit, in lower case. -/
def hexDigit (n : Nat) : UInt8 := UInt8.ofNat (if n < 10 then 0x30 + n else 0x61 + (n - 10))

def escapeChar (c : UInt8) : Bytes :=
  if c = quote then [backslash, quote]
  else if c = backslash then [backslash, backslash]
  else if c = 0x08 then ascii "\\b"
  else if c = 0x0C then ascii "\\f"
  else if c = 0x0A then ascii "\\n"
  else if c = 0x0D then ascii "\\r"
  else if c = 0x09 then ascii "\\t"
  else if c < 0x20 then ascii "\\u" ++ [zero, zero, hexDigit (c.toNat / 16), hexDigit (c.toNat % 16)]
  else [c]

/-- `utils::escape_string`. -/
def escapeString (s : Bytes) : Bytes := s.flatMap escapeChar

/-- `s` between quotes, with its special characters escaped. -/
def quoted (s : Bytes) : Bytes := quote :: (escapeString s ++ [quote])

/-- Addition on `int`, which has no value where it overflows. -/
def addInt (a b : Int) : Option Int := if -2 ^ 31 ≤ a + b ∧ a + b < 2 ^ 31 then some (a + b) else none

/-- `std::string(n, ' ')`. -/
def spaces (n : Int) : Bytes := List.replicate n.toNat space

/-- How the members or elements of a value are laid out. -/
structure Layout where
  /-- Before each of them. -/
  ind : Bytes
  /-- After the opening bracket, if there are any. -/
  first : Bytes
  /-- Before the closing bracket, if there are any. -/
  last : Bytes
  /-- Between two of them. -/
  separator : Bytes
  /-- Between a key and its value. -/
  afterKey : Bytes

def layout (indentation cur inner : Int) : Layout :=
  if indentation ≥ 0 then
    { ind := spaces inner, first := [newline], last := newline :: spaces cur, separator := [comma, newline]
      afterKey := [colon, space] }
  else { ind := [], first := [], last := [], separator := [comma], afterKey := [colon] }

/-- `cur_indentation` inside a value. -/
def innerIndentation (indentation cur : Int) : Option Int :=
  if indentation ≥ 0 then addInt cur indentation else some cur

mutual

/-- `format_internal`, where an object or an array is concerned, and `format_literal` where not. -/
def formatInternal (ops : FloatOps F) (indentation : Int) : Json F → Int → Option Bytes
  | .object members, cur => do
      let inner ← innerIndentation indentation cur
      let lay := layout indentation cur inner
      let body ← formatMembers ops indentation lay inner members
      if members.isEmpty then return [leftBrace, rightBrace]
      else return leftBrace :: (lay.first ++ (body ++ (lay.last ++ [rightBrace])))
  | .array elements, cur => do
      let inner ← innerIndentation indentation cur
      let lay := layout indentation cur inner
      let body ← formatElements ops indentation lay inner elements
      if elements.isEmpty then return [leftBracket, rightBracket]
      else return leftBracket :: (lay.first ++ (body ++ (lay.last ++ [rightBracket])))
  | .null, _ => some (ascii "null")
  | .string s, _ => some (quoted s)
  | .number x, _ => some (if ops.isinf x || ops.isnan x then ascii "null" else ops.format x)
  | .bool b, _ => some (if b then ascii "true" else ascii "false")

/-- The loop over the members of an object. -/
def formatMembers (ops : FloatOps F) (indentation : Int) (lay : Layout) (inner : Int) :
    List (Bytes × Json F) → Option Bytes
  | [] => some []
  | (key, value) :: members => do
      let text ← formatInternal ops indentation value inner
      let rest ← formatMembers ops indentation lay inner members
      return lay.ind ++ (quoted key ++ (lay.afterKey ++ (text ++
        ((if members.isEmpty then [] else lay.separator) ++ rest))))

/-- The loop over the elements of an array. -/
def formatElements (ops : FloatOps F) (indentation : Int) (lay : Layout) (inner : Int) :
    List (Json F) → Option Bytes
  | [] => some []
  | element :: elements => do
      let text ← formatInternal ops indentation element inner
      let rest ← formatElements ops indentation lay inner elements
      return lay.ind ++ (text ++ ((if elements.isEmpty then [] else lay.separator) ++ rest))

end

def dump (ops : FloatOps F) (j : Json F) : Option Bytes := formatInternal ops (-1) j 0

def format (ops : FloatOps F) (indentation : Int) (j : Json F) : Option Bytes := formatInternal ops indentation j 0

/-! ## Parts of a value -/

mutual

/-- `P` holds of a value and of all values inside it. -/
def Forall (P : Json F → Prop) : Json F → Prop
  | .object members => P (.object members) ∧ ForallMembers P members
  | .array elements => P (.array elements) ∧ ForallElements P elements
  | .null => P .null
  | .number x => P (.number x)
  | .string s => P (.string s)
  | .bool b => P (.bool b)

def ForallMembers (P : Json F → Prop) : List (Bytes × Json F) → Prop
  | [] => True
  | (_, value) :: members => Forall P value ∧ ForallMembers P members

def ForallElements (P : Json F → Prop) : List (Json F) → Prop
  | [] => True
  | element :: elements => Forall P element ∧ ForallElements P elements

end

mutual

/-- How deep objects and arrays are nested. -/
def depth : Json F → Nat
  | .object members => depthMembers members + 1
  | .array elements => depthElements elements + 1
  | .null | .number _ | .string _ | .bool _ => 0

def depthMembers : List (Bytes × Json F) → Nat
  | [] => 0
  | (_, value) :: members => max (depth value) (depthMembers members)

def depthElements : List (Json F) → Nat
  | [] => 0
  | element :: elements => max (depth element) (depthElements elements)

end

/-- The members of an object are those of a `std::map`. -/
def SortedKeys : Json F → Prop
  | .object members => members.Pairwise (·.1 < ·.1)
  | _ => True

def FiniteNumber (ops : FloatOps F) : Json F → Prop
  | .number x => ops.isinf x = false ∧ ops.isnan x = false
  | _ => True

end Json

end Dwhbll
