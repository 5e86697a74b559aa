import Dwhbll.Json.Basic

/-!
# `json_parser` of `utils/json.cpp`

A call of the parser takes `idx` and returns a value with the new `idx`, or an error. The recursion
through `element` and the loops of `object` and `array` take a bound, `fuel`, on their depth and on
their iterations.
-/

namespace Dwhbll.JsonParser

open Ascii

/-- The errors, each with its text. -/
inductive ParseError where
  | eof
  | unexpected (expected found : UInt8)
  | hexDigit
  | escape (c : UInt8)
  | invalidNumber
  | leadingZeros
  | character (c : UInt8)
  deriving DecidableEq, Repr

def ParseError.text : ParseError → Bytes
  | eof => ascii "Unexpected EOF"
  | unexpected expected found =>
      ascii "Unexpected character\nExpected: '" ++ [expected] ++ ascii "'\n Found: '" ++ [found] ++ ascii "'"
  | hexDigit => ascii "Invalid hex digit in \\u escape"
  | escape c => ascii "Unexpected character while parsing escape sequence: '" ++ [c] ++ ascii "'"
  | invalidNumber => ascii "Invalid number"
  | leadingZeros => ascii "Leading zeros are not allowed"
  | character c => ascii "Unexpected character '" ++ [c] ++ ascii "'"

inductive Failure where
  | error (e : ParseError)
  /-- The call has not ended within its fuel. -/
  | running
  deriving DecidableEq, Repr

abbrev Parser := StateT Nat (Except Failure)

def fail {α : Type} (e : ParseError) : Parser α := fun _ => .error (.error e)

theorem Parser.bind_eq_ok {α β : Type} {m : Parser α} {f : α → Parser β} {i k : Nat} {b : β}
    (h : (m >>= f) i = .ok (b, k)) : ∃ a j, m i = .ok (a, j) ∧ f a j = .ok (b, k) := by
  cases hm : m i with
  | error e =>
      simp only [bind, StateT.bind, Except.bind, hm] at h
      cases h
  | ok p =>
      obtain ⟨a, j⟩ := p
      simp only [bind, StateT.bind, Except.bind, hm] at h
      exact ⟨a, j, rfl, h⟩

section Text

variable (data : Bytes)

/-! ## Characters -/

def peek : Parser UInt8 := fun idx =>
  match data[idx]? with
  | none => .error (.error .eof)
  | some c => .ok (c, idx)

def consume : Parser UInt8 := fun idx =>
  match data[idx]? with
  | none => .error (.error .eof)
  | some c => .ok (c, idx + 1)

/-- `match(char)`. -/
def matchChar (c : UInt8) : Parser Unit := do
  let n ← consume data
  if n ≠ c then fail (.unexpected c n)

/-- `match(std::string_view)`. -/
def matchText : Bytes → Parser Unit
  | [] => return ()
  | c :: cs => do
      matchChar data c
      matchText cs

/-- The loop of `ws`. -/
def skipSpace (idx : Nat) : Nat :=
  match _h : data[idx]? with
  | none => idx
  | some c => if isSpace c then skipSpace (idx + 1) else idx
termination_by data.length - idx
decreasing_by
  have := (List.getElem?_eq_some_iff.mp ‹_›).1
  omega

def ws : Parser Unit := fun idx => .ok ((), skipSpace data idx)

/-! ## Strings -/

/-- The character that a one-letter escape stands for. -/
def unescape (c : UInt8) : Option UInt8 :=
  if c = quote ∨ c = backslash ∨ c = 0x2F then some c
  else if c = 0x62 then some 0x08
  else if c = 0x66 then some 0x0C
  else if c = 0x6E then some 0x0A
  else if c = 0x72 then some 0x0D
  else if c = 0x74 then some 0x09
  else none

def hexValue (h : UInt8) : Option Nat :=
  if 0x30 ≤ h ∧ h ≤ 0x39 then some (h.toNat - 0x30)
  else if 0x61 ≤ h ∧ h ≤ 0x66 then some (h.toNat - 0x61 + 10)
  else if 0x41 ≤ h ∧ h ≤ 0x46 then some (h.toNat - 0x41 + 10)
  else none

/-- `n` hexadecimal digits behind the ones that have given `cp`. -/
def codePoint : Nat → (cp : Nat) → Parser Nat
  | 0, cp => return cp
  | n + 1, cp => do
      let h ← consume data
      match hexValue h with
      | none => fail .hexDigit
      | some v => codePoint n (cp <<< 4 ||| v)

/-- The UTF-8 encoding of a code point of up to 16 bits. -/
def utf8 (cp : Nat) : Bytes :=
  if cp ≤ 0x7F then [UInt8.ofNat cp]
  else if cp ≤ 0x7FF then [UInt8.ofNat (0xC0 ||| cp >>> 6), UInt8.ofNat (0x80 ||| (cp &&& 0x3F))]
  else if cp ≤ 0xFFFF then
    [UInt8.ofNat (0xE0 ||| cp >>> 12), UInt8.ofNat (0x80 ||| (cp >>> 6 &&& 0x3F)),
      UInt8.ofNat (0x80 ||| (cp &&& 0x3F))]
  else []

/-- What follows a backslash. -/
def escape : Parser Bytes := do
  let c ← peek data
  let _ ← consume data
  match unescape c with
  | some b => return [b]
  | none =>
      if c = 0x75 then
        let cp ← codePoint data 4 0
        return utf8 cp
      else fail (.escape c)

/-- The body of the loop of `string`, at a character that is not a quote. -/
def stringChar (c : UInt8) : Parser Bytes := do
  let _ ← consume data
  if c = backslash then escape data else return [c]

variable {data}

theorem consume_eq_ok {i j : Nat} {c : UInt8} (h : consume data i = .ok (c, j)) :
    data[i]? = some c ∧ j = i + 1 := by
  rw [consume] at h
  split at h
  · cases h
  · cases h
    exact ⟨‹_›, rfl⟩

theorem peek_eq_ok {i j : Nat} {c : UInt8} (h : peek data i = .ok (c, j)) : data[i]? = some c ∧ j = i := by
  rw [peek] at h
  split at h
  · cases h
  · cases h
    exact ⟨‹_›, rfl⟩

theorem codePoint_le {n cp i j v : Nat} (h : codePoint data n cp i = .ok (v, j)) : i ≤ j := by
  induction n generalizing cp i with
  | zero => cases h; exact Nat.le_refl _
  | succ n ih =>
      obtain ⟨c, k, h1, h2⟩ := Parser.bind_eq_ok h
      obtain ⟨-, rfl⟩ := consume_eq_ok h1
      cases hv : hexValue c with
      | none => rw [hv] at h2; cases h2
      | some v =>
          rw [hv] at h2
          exact Nat.le_trans (Nat.le_succ i) (ih h2)

theorem escape_le {i j : Nat} {bs : Bytes} (h : escape data i = .ok (bs, j)) : i ≤ j := by
  obtain ⟨c, k, h1, h2⟩ := Parser.bind_eq_ok h
  obtain ⟨c', k', h3, h4⟩ := Parser.bind_eq_ok h2
  obtain ⟨-, rfl⟩ := peek_eq_ok h1
  obtain ⟨-, rfl⟩ := consume_eq_ok h3
  cases hc : unescape c with
  | some b =>
      rw [hc] at h4
      cases h4
      exact Nat.le_succ _
  | none =>
      rw [hc] at h4
      by_cases hu : c = 0x75
      · simp only [if_pos hu] at h4
        obtain ⟨cp, l, h5, h6⟩ := Parser.bind_eq_ok h4
        cases h6
        exact Nat.le_of_succ_le (codePoint_le h5)
      · simp only [if_neg hu] at h4
        cases h4

theorem stringChar_lt {i j : Nat} {c : UInt8} {bs : Bytes} (h : stringChar data c i = .ok (bs, j)) : i < j := by
  obtain ⟨c', k, h1, h2⟩ := Parser.bind_eq_ok h
  obtain ⟨-, rfl⟩ := consume_eq_ok h1
  by_cases hb : c = backslash
  · rw [if_pos hb] at h2
    exact escape_le h2
  · rw [if_neg hb] at h2
    cases h2
    exact Nat.lt_succ_self _

variable (data)

/-- The loop of `string`, with the characters `s` read so far; it ends in front of the closing quote. -/
def stringLoop (s : Bytes) (idx : Nat) : Except Failure (Bytes × Nat) :=
  match _h : data[idx]? with
  | none => .error (.error .eof)
  | some c =>
      if c = quote then .ok (s, idx)
      else
        match _h' : stringChar data c idx with
        | .error e => .error e
        | .ok (bs, idx') => stringLoop (s ++ bs) idx'
termination_by data.length - idx
decreasing_by
  have h1 := (List.getElem?_eq_some_iff.mp _h).1
  have h2 := stringChar_lt _h'
  omega

def string : Parser Bytes := do
  matchChar data quote
  let s ← stringLoop data []
  matchChar data quote
  return s

/-! ## Values -/

variable {F : Type}

def number (ops : FloatOps F) : Parser F := fun idx =>
  match ops.fromChars (data.drop idx) with
  | none => .error (.error .invalidNumber)
  | some (num, n) =>
      if data[idx]? = some zero ∧ (data[idx + 1]?.any isDigit) then .error (.error .leadingZeros)
      else .ok (num, idx + n)

/-- `operator[]` of `std::map` and an assignment to what it returns. -/
def mapInsert (key : Bytes) (value : Json F) : List (Bytes × Json F) → List (Bytes × Json F)
  | [] => [(key, value)]
  | (k, v) :: members =>
      if key < k then (key, value) :: (k, v) :: members
      else if key = k then (k, value) :: members
      else (k, v) :: mapInsert key value members

section Nested

variable (element : Parser (Json F))

def member : Parser (Bytes × Json F) := do
  ws data
  let id ← string data
  ws data
  matchChar data colon
  let value ← element
  return (id, value)

/-- The loop of `object`; it ends in front of the closing brace. -/
def objectLoop : (fuel : Nat) → List (Bytes × Json F) → Parser (List (Bytes × Json F))
  | 0, _ => fun _ => .error .running
  | fuel + 1, j => do
      let (id, val) ← member data element
      let j := mapInsert id val j
      ws data
      let c ← peek data
      if c = rightBrace then return j
      else
        matchChar data comma
        objectLoop fuel j

def object (fuel : Nat) : Parser (List (Bytes × Json F)) := do
  matchChar data leftBrace
  ws data
  let c ← peek data
  if c = rightBrace then
    matchChar data rightBrace
    return []
  else
    let j ← objectLoop data element fuel []
    matchChar data rightBrace
    return j

/-- The loop of `array`; it ends in front of the closing bracket. -/
def arrayLoop : (fuel : Nat) → List (Json F) → Parser (List (Json F))
  | 0, _ => fun _ => .error .running
  | fuel + 1, j => do
      let val ← element
      let j := j ++ [val]
      ws data
      let c ← peek data
      if c = rightBracket then return j
      else
        matchChar data comma
        arrayLoop fuel j

def array (fuel : Nat) : Parser (List (Json F)) := do
  matchChar data leftBracket
  ws data
  let c ← peek data
  if c = rightBracket then
    matchChar data rightBracket
    return []
  else
    let j ← arrayLoop data element fuel []
    matchChar data rightBracket
    return j

/-- The part of `element` between the two calls of `ws`. -/
def value (ops : FloatOps F) (fuel : Nat) : Parser (Json F) := do
  let c ← peek data
  if c = leftBrace then return .object (← object data element fuel)
  else if c = leftBracket then return .array (← array data element fuel)
  else if c = quote then return .string (← string data)
  else if c = minus ∨ isDigit c then return .number (← number data ops)
  else if c = 0x74 then
    matchText data (ascii "true")
    return .bool true
  else if c = 0x66 then
    matchText data (ascii "false")
    return .bool false
  else if c = 0x6E then
    matchText data (ascii "null")
    return .null
  else fail (.character c)

end Nested

def element (ops : FloatOps F) : (fuel : Nat) → Parser (Json F)
  | 0 => fun _ => .error .running
  | fuel + 1 => do
      ws data
      let j ← value data (element ops fuel) ops fuel
      ws data
      return j

/-- `json::parse`. -/
def parse (ops : FloatOps F) (fuel : Nat) : Except Failure (Json F) :=
  (element data ops fuel 0).map Prod.fst

end Text

end Dwhbll.JsonParser
