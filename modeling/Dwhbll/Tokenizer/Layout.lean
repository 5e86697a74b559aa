import Dwhbll.Tokenizer.Basic

/-!
# The pieces of a source

Where the text in front of a position says which line and column it is at, and what it means that tokens are the
pieces of a source.
-/

namespace Dwhbll.Tokenizer

def lineOf (s : Bytes) : Nat := s.count newline + 1

def columnOf (s : Bytes) : Nat := (s.reverse.takeWhile (· != newline)).length + 1

/-- White space other than a newline. -/
def Blank (c : UInt8) : Prop := c = 0x20 ∨ c = 0x09 ∨ c = 0x0B ∨ c = 0x0C ∨ c = 0x0D

/-- The tokens are consecutive pieces of the text, with blanks between them. Each of them has the position of its
first character, and a newline is a piece of its own. -/
inductive Covers : Bytes → List Token → Prop
  | nil : Covers [] []
  | blank {s : Bytes} {ts : List Token} {c : UInt8} (h : Covers s ts) (hc : Blank c) : Covers (s ++ [c]) ts
  | token {s : Bytes} {ts : List Token} {t : Token} (h : Covers s ts) (hne : t.value ≠ [])
      (hline : t.line = lineOf s) (hcol : t.column = columnOf s)
      (hnew : newline ∈ t.value → t.value = [newline] ∧ t.type = .newline) : Covers (s ++ t.value) (ts ++ [t])

end Dwhbll.Tokenizer
