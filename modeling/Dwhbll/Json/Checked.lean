import Dwhbll.Json.Parser
import Dwhbll.Lib.Progress

/-!
# The accesses of `json_parser`

The functions of `json_parser` once more, with `idx` as it is also after an error, and with each access to a character
apart from the comparison that goes before it: an access outside the input is a fault. Every loop takes `fuel`.
-/

namespace Dwhbll.JsonParser.Checked

open Ascii Progress

variable {α F : Type}

inductive Fault where
  | error (e : ParseError)
  /-- A character outside the input is read. -/
  | outside
  /-- The call has not ended within its fuel. -/
  | running
  deriving DecidableEq

section Text

variable (data : Bytes)

/-! ## Characters -/

def fail (e : ParseError) : Call Fault α := throw (.error e)

/-- `idx + n < data.size()`. -/
def hasChar (n : Nat) : Call Fault Bool := fun idx => (.ok (idx + n < data.length), idx)

/-- `data[idx + n]`. -/
def charAt (n : Nat) : Call Fault UInt8 := fun idx =>
  match data[idx + n]? with
  | none => (.error .outside, idx)
  | some c => (.ok c, idx)

/-- `idx += n`. -/
def advance (n : Nat) : Call Fault Unit := fun idx => (.ok (), idx + n)

def peek : Call Fault UInt8 := do
  if ← hasChar data 0 then charAt data 0
  else fail .eof

def consume : Call Fault UInt8 := do
  if ← hasChar data 0 then
    let c ← charAt data 0
    advance 1
    return c
  else fail .eof

/-- `match(char)`. -/
def matchChar (c : UInt8) : Call Fault Unit := do
  let n ← consume data
  if n ≠ c then fail (.unexpected c n) else return ()

/-- `match(std::string_view)`. -/
def matchText : Bytes → Call Fault Unit
  | [] => return ()
  | c :: cs => do
      matchChar data c
      matchText cs

def ws : (fuel : Nat) → Call Fault Unit
  | 0 => throw .running
  | fuel + 1 => do
      if ← hasChar data 0 then
        let c ← charAt data 0
        if isSpace c then
          advance 1
          ws fuel
        else return ()
      else return ()

/-! ## Strings -/

/-- `n` hexadecimal digits behind the ones that have given `cp`. -/
def codePoint : Nat → (cp : Nat) → Call Fault Nat
  | 0, cp => return cp
  | n + 1, cp => do
      let h ← consume data
      match hexValue h with
      | none => fail .hexDigit
      | some v => codePoint n (cp <<< 4 ||| v)

/-- What follows a backslash. -/
def escape : Call Fault Bytes := do
  let c ← peek data
  let _ ← consume data
  match unescape c with
  | some b => return [b]
  | none =>
      if c = 0x75 then
        let cp ← codePoint data 4 0
        return utf8 cp
      else fail (.escape c)

/-- The loop of `string`. -/
def stringLoop : (fuel : Nat) → (s : Bytes) → Call Fault Bytes
  | 0, _ => throw .running
  | fuel + 1, s => do
      let c ← peek data
      if c = quote then return s
      else
        let _ ← consume data
        if c = backslash then
          let bs ← escape data
          stringLoop fuel (s ++ bs)
        else stringLoop fuel (s ++ [c])

def string (fuel : Nat) : Call Fault Bytes := do
  matchChar data quote
  let s ← stringLoop data fuel []
  matchChar data quote
  return s

/-! ## Numbers -/

/-- `std::from_chars` on the characters from `idx` on, of which there may be none. -/
def fromChars (ops : FloatOps F) : Call Fault (F × Nat) := fun idx =>
  if idx ≤ data.length then
    match ops.fromChars (data.drop idx) with
    | none => (.error (.error .invalidNumber), idx)
    | some r => (.ok r, idx)
  else (.error .outside, idx)

def leadingZero : Call Fault Bool := do
  let c ← charAt data 0
  if c = zero then
    if ← hasChar data 1 then
      let d ← charAt data 1
      return isDigit d
    else return false
  else return false

def number (ops : FloatOps F) : Call Fault F := do
  let (num, n) ← fromChars data ops
  if ← leadingZero data then fail .leadingZeros
  else
    advance n
    return num

/-! ## Values -/

section Nested

variable (element : Call Fault (Json F)) (fuel : Nat)

def member : Call Fault (Bytes × Json F) := do
  ws data fuel
  let id ← string data fuel
  ws data fuel
  matchChar data colon
  let value ← element
  return (id, value)

/-- The loop of `object`, with its own fuel. -/
def objectLoop : (loops : Nat) → List (Bytes × Json F) → Call Fault (List (Bytes × Json F))
  | 0, _ => throw .running
  | loops + 1, j => do
      let (id, val) ← member data element fuel
      let j := mapInsert id val j
      ws data fuel
      let c ← peek data
      if c = rightBrace then return j
      else
        matchChar data comma
        objectLoop loops j

def object : Call Fault (List (Bytes × Json F)) := do
  matchChar data leftBrace
  ws data fuel
  let c ← peek data
  if c = rightBrace then
    matchChar data rightBrace
    return []
  else
    let j ← objectLoop data element fuel fuel []
    matchChar data rightBrace
    return j

/-- The loop of `array`, with its own fuel. -/
def arrayLoop : (loops : Nat) → List (Json F) → Call Fault (List (Json F))
  | 0, _ => throw .running
  | loops + 1, j => do
      let val ← element
      let j := j ++ [val]
      ws data fuel
      let c ← peek data
      if c = rightBracket then return j
      else
        matchChar data comma
        arrayLoop loops j

def array : Call Fault (List (Json F)) := do
  matchChar data leftBracket
  ws data fuel
  let c ← peek data
  if c = rightBracket then
    matchChar data rightBracket
    return []
  else
    let j ← arrayLoop data element fuel fuel []
    matchChar data rightBracket
    return j

/-- The part of `element` between the two calls of `ws`. -/
def value (ops : FloatOps F) : Call Fault (Json F) := do
  let c ← peek data
  if c = leftBrace then return .object (← object data element fuel)
  else if c = leftBracket then return .array (← array data element fuel)
  else if c = quote then return .string (← string data fuel)
  else if c = minus ∨ isDigit c then return .number (← number data ops)
  else if c = 0x74 then
    matchText data (ascii "true")
    return .bool true
  else if c = 0x66 then
    matchText data (ascii "false")
    return .bool false
  else if c = 0x6E then
    matchText data (ascii "null")
    return .null
  else fail (.character c)

end Nested

def element (ops : FloatOps F) : (fuel : Nat) → Call Fault (Json F)
  | 0 => throw .running
  | fuel + 1 => do
      ws data (fuel + 1)
      let j ← value data (element ops fuel) fuel ops
      ws data (fuel + 1)
      return j

end Text

/-! ## What comes next -/

variable {data : Bytes} {ops : FloatOps F} {c : UInt8} {i fuel : Nat}

theorem charAt_of_some {n : Nat} (h : data[i + n]? = some c) : charAt data n i = (.ok c, i) := by
  rw [charAt, h]

theorem hasChar_of_some {n : Nat} (h : data[i + n]? = some c) : hasChar data n i = (.ok true, i) := by
  rw [hasChar, decide_eq_true (List.getElem?_eq_some_iff.mp h).1]

theorem hasChar_of_none {n : Nat} (h : data[i + n]? = none) : hasChar data n i = (.ok false, i) := by
  rw [hasChar, decide_eq_false (Nat.not_lt.mpr (List.getElem?_eq_none_iff.mp h))]

theorem peek_of_some (h : data[i]? = some c) : peek data i = (.ok c, i) := by
  rw [peek, bind_ok (hasChar_of_some h), if_pos rfl, charAt_of_some h]

theorem peek_of_none (h : data[i]? = none) : peek data i = (.error (.error .eof), i) := by
  rw [peek, bind_ok (hasChar_of_none h)]
  rfl

theorem consume_of_some (h : data[i]? = some c) : consume data i = (.ok c, i + 1) := by
  rw [consume, bind_ok (hasChar_of_some h), if_pos rfl, bind_ok (charAt_of_some h)]
  rfl

theorem consume_of_none (h : data[i]? = none) : consume data i = (.error (.error .eof), i) := by
  rw [consume, bind_ok (hasChar_of_none h)]
  rfl

theorem ws_of_some (h : data[i]? = some c) :
    ws data (fuel + 1) i = if isSpace c then ws data fuel (i + 1) else (.ok (), i) := by
  rw [ws, bind_ok (hasChar_of_some h), if_pos rfl, bind_ok (charAt_of_some h)]
  split <;> rfl

theorem ws_of_none (h : data[i]? = none) : ws data (fuel + 1) i = (.ok (), i) := by
  rw [ws, bind_ok (hasChar_of_none h)]
  rfl

theorem fromChars_of_none (hi : i ≤ data.length) (h : ops.fromChars (data.drop i) = none) :
    fromChars data ops i = (.error (.error .invalidNumber), i) := by
  rw [fromChars, if_pos hi, h]

theorem fromChars_of_some {r : F × Nat} (hi : i ≤ data.length) (h : ops.fromChars (data.drop i) = some r) :
    fromChars data ops i = (.ok r, i) := by
  rw [fromChars, if_pos hi, h]

theorem leadingZero_of_some (h : data[i]? = some c) :
    leadingZero data i = (.ok (c == zero && data[i + 1]?.any isDigit), i) := by
  rw [leadingZero, bind_ok (charAt_of_some h)]
  by_cases hzero : c = zero
  · rw [if_pos hzero, beq_iff_eq.mpr hzero, Bool.true_and]
    cases hd : data[i + 1]? with
    | none =>
        rw [bind_ok (hasChar_of_none hd)]
        rfl
    | some d =>
        rw [bind_ok (hasChar_of_some hd), if_pos rfl, bind_ok (charAt_of_some hd)]
        rfl
  · rw [if_neg hzero, beq_eq_false_iff_ne.mpr hzero]
    rfl

/-- What `number` comes to where the characters that it looks at are there. -/
theorem number_of_some {num : F} {n : Nat} (hread : ops.fromChars (data.drop i) = some (num, n))
    (hc : data[i]? = some c) : number data ops i =
      if c = zero ∧ data[i + 1]?.any isDigit then (.error (.error .leadingZeros), i) else (.ok num, i + n) := by
  have hi : i ≤ data.length := Nat.le_of_lt (List.getElem?_eq_some_iff.mp hc).1
  rw [number, bind_ok (fromChars_of_some hi hread)]
  dsimp only
  rw [bind_ok (leadingZero_of_some hc)]
  simp only [Bool.and_eq_true, beq_iff_eq]
  split <;> rfl

end Dwhbll.JsonParser.Checked
