import Dwhbll.Http.Socket

/-!
# `build_request` of `network/http_server.hpp`

The request that is read from a socket, line by line. A string is the list of its bytes. A read outside of the vector of
parts, or the removal of more than a string has, ends the call without an answer.
-/

namespace Dwhbll.Network.HttpServer

abbrev Bytes := List UInt8

def text (s : String) : Bytes := s.toList.map fun c => UInt8.ofNat c.toNat

def space : UInt8 := 0x20
def colon : UInt8 := 0x3A

/-! ## Strings -/

/-- The loop of `split_string`, with the piece from `left` on. -/
def splitLoop (delim : UInt8) : (piece : Bytes) → Bytes → List Bytes
  | piece, [] => if piece = [] then [] else [piece]
  | piece, c :: str => if c = delim then piece :: splitLoop delim [] str else splitLoop delim (piece ++ [c]) str

def splitString (str : Bytes) (delim : UInt8) : List Bytes := splitLoop delim [] str

def removePrefix (n : Nat) (str : Bytes) : Option Bytes := if n ≤ str.length then some (str.drop n) else none

def removeSuffix (n : Nat) (str : Bytes) : Option Bytes :=
  if n ≤ str.length then some (str.take (str.length - n)) else none

/-- There is no index where it returns `npos`. -/
def findFirstNotOf (c : UInt8) (str : Bytes) : Option Nat := str.findIdx? (· ≠ c)

def findLastNotOf (c : UInt8) (str : Bytes) : Option Nat :=
  (str.reverse.findIdx? (· ≠ c)).map fun k => str.length - 1 - k

/-- `npos` is larger than all sizes, and one more than `npos` is zero. -/
def trimWhitespace (str : Bytes) : Option Bytes := do
  let str ← removePrefix (((findFirstNotOf space str).map (min · str.length)).getD str.length) str
  removeSuffix (((findLastNotOf space str).map (str.length - · - 1)).getD str.length) str

/-- `std::tolower` in the C locale. -/
def tolower (c : UInt8) : UInt8 := if 0x41 ≤ c ∧ c ≤ 0x5A then c + 0x20 else c

def toLowerCase (str : Bytes) : Bytes := str.map tolower

def isDigit (c : UInt8) : Bool := 0x30 ≤ c ∧ c ≤ 0x39

/-- `std::from_chars` for a `size_t`: the number that the digits at the start are, if there are any and it fits. -/
def fromChars (str : Bytes) : Option Nat :=
  let digits := str.takeWhile isDigit
  let value := digits.foldl (fun v c => v * 10 + (c.toNat - 0x30)) 0
  if digits = [] ∨ 2 ^ 64 ≤ value then none else some value

/-! ## Requests -/

inductive HttpMethod where
  | connect | delete | get | head | options | patch | post | put | trace
  deriving DecidableEq, Repr

inductive Version where
  | v11
  deriving DecidableEq, Repr

structure Request where
  method : HttpMethod
  uri : Bytes
  version : Version
  fields : Bytes → Option Bytes
  body : Bytes

def Request.reset (request : Request) : Request := { request with fields := fun _ => none, body := [] }

/-- `fields.emplace`, which keeps what is there already. -/
def Request.emplace (name value : Bytes) (request : Request) : Request :=
  { request with fields := fun q => if q = name then some ((request.fields q).getD value) else request.fields q }

def methodMap : List (Bytes × HttpMethod) :=
  [(text "GET", .get), (text "HEAD", .head), (text "POST", .post), (text "PUT", .put), (text "DELETE", .delete),
    (text "CONNECT", .connect), (text "OPTIONS", .options), (text "TRACE", .trace), (text "PATCH", .patch)]

/-- How a call ends: it returns or throws, does what is not defined, or needs more rounds than it was given. -/
inductive Outcome where
  | returned (value : Bool) (request : Request)
  | threw (what : String) (request : Request)
  | undefined
  | running

/-! ## `build_request` -/

/-- The local variables of the loop, and the request. -/
structure Progress where
  request : Request
  bodySize : Nat := 0
  hasLength : Bool := false
  isChunked : Bool := false

inductive Round where
  | continue (p : Progress)
  | returnFalse (p : Progress)
  | undefined

/-- The body of the loop, for a field that is not empty. -/
def Progress.round (p : Progress) (field : Bytes) : Round :=
  match splitString field colon with
  | part0 :: part1 :: _ =>
      match trimWhitespace part1 with
      | none => .undefined
      | some value =>
          let fieldName := toLowerCase part0
          if fieldName = text "content-length" then
            match fromChars value with
            | none => .returnFalse { p with hasLength := true }
            | some bodySize => .continue { p with hasLength := true, bodySize }
          else
            .continue { p with
              isChunked := p.isChunked || (fieldName = text "transfer-encoding" && value = text "chunked")
              request := p.request.emplace fieldName value }
  | _ => .undefined

def Progress.finish (env : Nat → Answer) (p : Progress) (reader : Socket) : Outcome × Socket :=
  if p.hasLength then
    let (body, reader) := reader.readBytes env p.bodySize p.request.body
    (.returned true { p.request with body }, reader)
  else if p.isChunked then (.threw "unimplemented" p.request, reader)
  else (.returned true p.request, reader)

def fieldLoop (env : Nat → Answer) (rounds : Nat) : (lines : Nat) → Progress → Socket → Outcome × Socket
  | 0, _, reader => (.running, reader)
  | lines + 1, p, reader =>
      match reader.readUntilCrlf env rounds with
      | (field, reader) =>
          if field = [] then p.finish env reader
          else
            match p.round field with
            | .undefined => (.undefined, reader)
            | .returnFalse p => (.returned false p.request, reader)
            | .continue p => fieldLoop env rounds lines p reader

def buildRequest (env : Nat → Answer) (rounds lines : Nat) (request : Request) (reader : Socket) : Outcome × Socket :=
  let request := request.reset
  match reader.readUntilCrlf env rounds with
  | (header, reader) =>
      match splitString header space with
      | [method, uri, version] =>
          match methodMap.lookup method with
          | none => (.returned false request, reader)
          | some method =>
              let request := { request with method }
              if version ≠ text "HTTP/1.1" then (.returned false request, reader)
              else fieldLoop env rounds lines { request := { request with uri, version := .v11 } } reader
      | _ => (.returned false request, reader)

end Dwhbll.Network.HttpServer
