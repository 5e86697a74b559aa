import Dwhbll.Lib.Loops
import Mathlib.Algebra.Group.Int.Defs
import Mathlib.Algebra.Group.Nat.Defs

/-!
# `tokenize` of `lang/c/tokenize.cpp`

Each access to the source is checked, and so is each `int` that grows: what the program must not do is a fault. The
loops take a bound, `fuel`, on their iterations. A source is shorter than 2^31 bytes, since its size is kept in an
`int`.
-/

namespace Dwhbll.Tokenizer

open Loops

abbrev Bytes := List UInt8

def newline : UInt8 := 0x0A
def hashSign : UInt8 := 0x23
def doubleQuote : UInt8 := 0x22
def singleQuote : UInt8 := 0x27
def backslash : UInt8 := 0x5C
def slash : UInt8 := 0x2F
def star : UInt8 := 0x2A
def dot : UInt8 := 0x2E
def zero : UInt8 := 0x30
def equalsSign : UInt8 := 0x3D

def text (s : String) : Bytes := s.toList.map fun c => UInt8.ofNat c.toNat

/-! ## Tokens -/

inductive TokenType where
  | none | eof | newline | identifier | stringLit | charLit | number
  | lbrace | rbrace | lparen | rparen | lbracket | rbracket | semicolon | comma | colon | question | dot | arrow
  | kwIf | kwElse | kwFor | kwWhile | kwDo | kwSwitch | kwCase | kwReturn | kwBreak | kwContinue
  | kwStruct | kwUnion | kwEnum | kwTypedef | kwStatic | kwExtern | kwConst | kwVoid | kwChar | kwInt | kwShort
  | kwLong | kwFloat | kwDouble | kwSigned | kwUnsigned | kwSizeof | kwAuto | kwRegister | kwVolatile | kwGoto
  | kwDefault | operator | ppInclude | ppDefine | ppOther | lineComment | blockComment
  deriving DecidableEq, Repr

structure Token where
  type : TokenType
  value : Bytes
  line : Int
  column : Int
  deriving DecidableEq, Repr

/-- `hash`; a `char` is signed, and the word ends at its first zero. -/
def hash : Bytes → UInt32
  | [] => 5381
  | c :: word => if c = 0 then 5381 else (hash word * 33) ^^^ c.toInt8.toInt32.toUInt32

def keywords : List (String × TokenType) :=
  [("if", .kwIf), ("else", .kwElse), ("for", .kwFor), ("while", .kwWhile), ("do", .kwDo), ("switch", .kwSwitch),
    ("case", .kwCase), ("return", .kwReturn), ("break", .kwBreak), ("continue", .kwContinue), ("struct", .kwStruct),
    ("union", .kwUnion), ("enum", .kwEnum), ("typedef", .kwTypedef), ("static", .kwStatic), ("extern", .kwExtern),
    ("const", .kwConst), ("void", .kwVoid), ("char", .kwChar), ("int", .kwInt), ("short", .kwShort), ("long", .kwLong),
    ("float", .kwFloat), ("double", .kwDouble), ("signed", .kwSigned), ("unsigned", .kwUnsigned),
    ("sizeof", .kwSizeof), ("auto", .kwAuto), ("register", .kwRegister), ("volatile", .kwVolatile),
    ("goto", .kwGoto), ("default", .kwDefault)]

/-- `kw_type`, which looks at the hash of the word only. -/
def kwType (word : Bytes) : TokenType :=
  match keywords.find? fun kw => hash (text kw.1) == hash word with
  | some kw => kw.2
  | .none => .none

/-! ## Characters -/

/-- The functions of `<cctype>`, in any locale that classifies the characters of ASCII as the C locale does. -/
structure CType where
  isspace : UInt8 → Bool
  isalpha : UInt8 → Bool
  isdigit : UInt8 → Bool
  isxdigit : UInt8 → Bool
  isspace_ascii : ∀ c < 0x80, isspace c = (c == 0x20 || (0x09 ≤ c && c ≤ 0x0D))
  isalpha_ascii : ∀ c < 0x80, isalpha c = ((0x41 ≤ c && c ≤ 0x5A) || (0x61 ≤ c && c ≤ 0x7A))
  isdigit_ascii : ∀ c < 0x80, isdigit c = (0x30 ≤ c && c ≤ 0x39)
  isxdigit_ascii : ∀ c < 0x80,
    isxdigit c = ((0x30 ≤ c && c ≤ 0x39) || (0x41 ≤ c && c ≤ 0x46) || (0x61 ≤ c && c ≤ 0x66))

def CType.c : CType where
  isspace c := c == 0x20 || (0x09 ≤ c && c ≤ 0x0D)
  isalpha c := (0x41 ≤ c && c ≤ 0x5A) || (0x61 ≤ c && c ≤ 0x7A)
  isdigit c := 0x30 ≤ c && c ≤ 0x39
  isxdigit c := (0x30 ≤ c && c ≤ 0x39) || (0x41 ≤ c && c ≤ 0x46) || (0x61 ≤ c && c ≤ 0x66)
  isspace_ascii _ _ := rfl
  isalpha_ascii _ _ := rfl
  isdigit_ascii _ _ := rfl
  isxdigit_ascii _ _ := rfl

def isIdentStart (ct : CType) (c : UInt8) : Bool := ct.isalpha c || c == 0x5F

def isIdentContinue (ct : CType) (c : UInt8) : Bool := isIdentStart ct c || ct.isdigit c

def isHexSuffix (c : UInt8) : Bool := c == 0x75 || c == 0x55 || c == 0x6C || c == 0x4C

def isSuffix (c : UInt8) : Bool := isHexSuffix c || c == 0x66 || c == 0x46

/-! ## The source and the position in it -/

inductive Fault where
  /-- `source[i]` outside the source. -/
  | access (i : Nat)
  /-- `source.substr(start, ...)` that does not start inside the source. -/
  | substr (start : Nat)
  /-- An `int` of more than `2 ^ 31 - 1`. -/
  | overflow
  /-- A loop has not ended within its fuel. -/
  | running
  deriving DecidableEq, Repr

/-- `pos`, `line` and `col`, and the largest value that `pos` has had. -/
structure Cursor where
  pos : Nat
  line : Nat
  col : Nat
  top : Nat
  deriving DecidableEq, Repr

def Cursor.start : Cursor := ⟨0, 1, 1, 0⟩

/-- The result of an addition of `int`s that are not negative. -/
def int (x : Nat) : Except Fault Nat := if x < 2 ^ 31 then .ok x else .error .overflow

/-- `pos += k`. -/
def Cursor.move (cur : Cursor) (k : Nat) : Except Fault Cursor := do
  let pos ← int (cur.pos + k)
  return { cur with pos := pos, top := max cur.top pos }

/-- `pos += k, col += k`. -/
def Cursor.advance (cur : Cursor) (k : Nat) : Except Fault Cursor := do
  let cur ← cur.move k
  let col ← int (cur.col + k)
  return { cur with col := col }

/-- `pos += k, line++, col = 1`. -/
def Cursor.newLine (cur : Cursor) (k : Nat) : Except Fault Cursor := do
  let cur ← cur.move k
  let line ← int (cur.line + 1)
  return { cur with line := line, col := 1 }

variable (ct : CType) (source : Bytes)

/-- `source[i]`. -/
def charAt (i : Nat) : Except Fault UInt8 :=
  match source[i]? with
  | some c => .ok c
  | none => .error (.access i)

def substr (start len : Nat) : Except Fault Bytes :=
  if start < source.length then .ok ((source.drop start).take len) else .error (.substr start)

/-- `b && i < n && p(source[i])`. -/
def ifAt (b : Bool) (i : Nat) (p : UInt8 → Bool) : Except Fault Bool :=
  if b ∧ i < source.length then do return p (← charAt source i) else return false

/-- `for (; pos < n && p(source[pos]); pos++, col++);` -/
def scan (p : UInt8 → Bool) (fuel : Nat) (cur : Cursor) : Except Fault Cursor :=
  loop .running (fun cur => do
    if ← ifAt source true cur.pos p then return .again (← cur.advance 1) else return .done cur) fuel cur

/-- The token of the characters from `start` up to the cursor. -/
def piece (type : TokenType) (start : Nat) (cur : Cursor) : Except Fault Token := do
  let pms := cur.pos - start
  let value ← substr source start pms
  return { type, value, line := cur.line, column := (cur.col : Int) - pms }

/-! ## The branches of the loop

Each is entered in front of its first character, `c`. -/

def lineComment (fuel : Nat) (cur : Cursor) : Except Fault (Option Token × Cursor) := do
  let start := cur.pos
  let cur ← cur.advance 2
  let cur ← scan source (· != newline) fuel cur
  return (some (← piece source .lineComment start cur), cur)

/-- The body of the loop over a block comment, with the increments of its head. -/
def blockCommentStep (cur : Cursor) : Except Fault (Next Cursor Cursor) := do
  if cur.pos < source.length then
    let c ← charAt source cur.pos
    if c = newline then
      let cur ← cur.newLine 1
      return .again (← cur.advance 1)
    else if ← ifAt source (c == star) (cur.pos + 1) (· == slash) then return .done (← cur.advance 2)
    else return .again (← cur.advance 1)
  else return .done cur

def blockComment (fuel : Nat) (cur : Cursor) : Except Fault (Option Token × Cursor) := do
  let start := cur.pos
  let cur ← cur.advance 2
  let cur ← loop .running (blockCommentStep source) fuel cur
  return (some (← piece source .blockComment start cur), cur)

/-- The body of the loop over a literal, with the increments of its head. -/
def literalStep (quote : UInt8) (cur : Cursor) : Except Fault (Next Cursor Cursor) := do
  if cur.pos < source.length then
    let c ← charAt source cur.pos
    if c = backslash then
      let cur ← cur.advance 2
      return .again (← cur.advance 1)
    else if c = quote then return .done (← cur.advance 1)
    else if c = newline then
      let cur ← cur.newLine 0
      return .again (← cur.advance 1)
    else return .again (← cur.advance 1)
  else return .done cur

def literal (quote : UInt8) (fuel : Nat) (cur : Cursor) : Except Fault (Option Token × Cursor) := do
  let start := cur.pos
  let cur ← cur.advance 1
  let cur ← loop .running (literalStep source quote) fuel cur
  let type := if quote = doubleQuote then .stringLit else .charLit
  return (some (← piece source type start cur), cur)

/-- A hexadecimal number, behind its `0`. -/
def hexNumber (fuel : Nat) (cur : Cursor) : Except Fault Cursor := do
  let cur ← cur.advance 1
  let cur ← scan source ct.isxdigit fuel cur
  scan source isHexSuffix fuel cur

def fraction (fuel : Nat) (cur : Cursor) : Except Fault Cursor := do
  if ← ifAt source true cur.pos (· == dot) then
    let cur ← cur.advance 1
    scan source ct.isdigit fuel cur
  else return cur

def sign (cur : Cursor) : Except Fault Cursor := do
  if ← ifAt source true cur.pos (fun c => c == 0x2B || c == 0x2D) then cur.advance 1 else return cur

def exponent (fuel : Nat) (cur : Cursor) : Except Fault Cursor := do
  if ← ifAt source true cur.pos (fun c => c == 0x65 || c == 0x45) then
    let cur ← cur.advance 1
    let cur ← sign source cur
    scan source ct.isdigit fuel cur
  else return cur

def decimalNumber (fuel : Nat) (cur : Cursor) : Except Fault Cursor := do
  let cur ← scan source ct.isdigit fuel cur
  let cur ← fraction ct source fuel cur
  let cur ← exponent ct source fuel cur
  scan source isSuffix fuel cur

/-- A number behind its first character, `c`. -/
def numberTail (c : UInt8) (fuel : Nat) (cur : Cursor) : Except Fault Cursor := do
  if ← ifAt source (c == zero) cur.pos (fun c => c == 0x78 || c == 0x58) then hexNumber ct source fuel cur
  else decimalNumber ct source fuel cur

def number (c : UInt8) (fuel : Nat) (cur : Cursor) : Except Fault (Option Token × Cursor) := do
  let start := cur.pos
  let cur ← cur.advance 1
  let cur ← numberTail ct source c fuel cur
  return (some (← piece source .number start cur), cur)

def identifier (fuel : Nat) (cur : Cursor) : Except Fault (Option Token × Cursor) := do
  let start := cur.pos
  let cur ← cur.advance 1
  let cur ← scan source (isIdentContinue ct) fuel cur
  let word ← substr source start (cur.pos - start)
  let type := if kwType word = .none then .identifier else kwType word
  return (some (← piece source type start cur), cur)

/-- The body of the loop over the rest of a directive. -/
def directiveStep (cur : Cursor) : Except Fault (Next Cursor Cursor) := do
  if ← ifAt source true cur.pos (· != newline) then
    let c ← charAt source cur.pos
    if ← ifAt source (c == backslash) (cur.pos + 1) (· == newline) then return .again (← cur.newLine 2)
    else return .again (← cur.advance 1)
  else return .done cur

def directive (fuel : Nat) (cur : Cursor) : Except Fault (Option Token × Cursor) := do
  let start := cur.pos
  let cur ← cur.advance 1
  let cur ← scan source ct.isspace fuel cur
  if ← ifAt source true cur.pos (isIdentStart ct) then
    let dirStart := cur.pos
    let cur ← scan source (isIdentContinue ct) fuel cur
    let dir ← substr source dirStart (cur.pos - dirStart)
    let cur ← loop .running (directiveStep source) fuel cur
    let type :=
      if dir = text "include" then .ppInclude else if dir = text "define" then .ppDefine else .ppOther
    return (some (← piece source type start cur), cur)
  else
    let token := { type := .operator, value := [hashSign], line := cur.line, column := (cur.col : Int) - 1 }
    return (some token, ← cur.move 1)

def operators : List String :=
  ["==", "!=", "<=", ">=", "&&", "||", "++", "--", "+=", "-=", "*=", "/=", "%=", "&=", "|=", "^=", "~=", "<<", ">>"]

/-- What the switch over the hash of two characters makes of them. -/
def twoType (two : Bytes) : TokenType :=
  if hash two = hash (text "->") then .arrow
  else if operators.any fun op => hash two == hash (text op) then .operator
  else .none

def charType (c : UInt8) : TokenType :=
  if c = 0x7B then .lbrace
  else if c = 0x7D then .rbrace
  else if c = 0x28 then .lparen
  else if c = 0x29 then .rparen
  else if c = 0x5B then .lbracket
  else if c = 0x5D then .rbracket
  else if c = 0x3B then .semicolon
  else if c = 0x2C then .comma
  else if c = 0x3A then .colon
  else if c = 0x3F then .question
  else if c = dot then .dot
  else .operator

def punctuation (c : UInt8) (cur : Cursor) : Except Fault (Option Token × Cursor) := do
  return (some { type := charType c, value := [c], line := cur.line, column := cur.col }, ← cur.advance 1)

def operator (c : UInt8) (cur : Cursor) : Except Fault (Option Token × Cursor) := do
  if cur.pos + 1 < source.length then
    let two ← substr source cur.pos 2
    match twoType two with
    | .arrow =>
        return (some { type := .arrow, value := text "->", line := cur.line, column := cur.col }, ← cur.advance 2)
    | .operator =>
        if ← ifAt source (two == text "<<" || two == text ">>") (cur.pos + 2) (· == equalsSign) then
          let three ← substr source cur.pos 3
          return (some { type := .operator, value := three, line := cur.line, column := cur.col }, ← cur.advance 3)
        else
          return (some { type := .operator, value := two, line := cur.line, column := cur.col }, ← cur.advance 2)
    | _ => punctuation c cur
  else punctuation c cur

/-! ## The loop -/

def step (fuel : Nat) (cur : Cursor) : Except Fault (Option Token × Cursor) := do
  let c ← charAt source cur.pos
  if c = newline then
    return (some { type := .newline, value := [newline], line := cur.line, column := cur.col }, ← cur.newLine 1)
  else if c = 0x0D ∨ ct.isspace c then return (none, ← cur.advance 1)
  else if ← ifAt source (c == slash) (cur.pos + 1) (· == slash) then lineComment source fuel cur
  else if ← ifAt source (c == slash) (cur.pos + 1) (· == star) then blockComment source fuel cur
  else if c = doubleQuote ∨ c = singleQuote then literal source c fuel cur
  else if ct.isdigit c || (← ifAt source (c == dot) (cur.pos + 1) ct.isdigit) then number ct source c fuel cur
  else if isIdentStart ct c then identifier ct source fuel cur
  else if c = hashSign then directive ct source fuel cur
  else operator source c cur


def tokenizeStep (fuel : Nat) (s : List Token × Cursor) :
    Except Fault (Next (List Token × Cursor) (List Token × Cursor)) := do
  if s.2.pos < source.length then
    let (token, cur) ← step ct source fuel s.2
    return .again (s.1 ++ token.toList, cur)
  else return .done s

/-- The tokens, and the position in the end. -/
def tokenize (fuel : Nat) : Except Fault (List Token × Cursor) := do
  let (tokens, cur) ← loop .running (tokenizeStep ct source fuel) fuel ([], .start)
  return (tokens ++ [{ type := .eof, value := [], line := cur.line, column := cur.col }], cur)

end Dwhbll.Tokenizer
