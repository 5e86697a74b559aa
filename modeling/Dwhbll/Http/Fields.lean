import Dwhbll.Http.Lines
import Dwhbll.Http.Requests
import Dwhbll.Lib.Pieces
import Mathlib.Data.List.DropRight

/-!
# What a request is made of

The strings of `build_request` in terms of the text of a line, and the request as it follows from the stream, which is
the same however the stream is cut into reads.
-/

namespace Dwhbll.Network.HttpServer

open Pieces Socket

variable {str line stream xs : Bytes} {c : UInt8} {p : Progress} {lines : List Bytes}

/-! ## Strings -/

theorem splitLoop_eq {piece : Bytes} (h : c ∉ piece) (str : Bytes) :
    splitLoop c piece str = pieces c (piece ++ str) := by
  induction str generalizing piece with
  | nil =>
      rw [splitLoop, List.append_nil]
      split
      · rename_i hnil
        rw [hnil, pieces_nil]
      · rename_i hne
        rw [pieces_of_not_mem hne h]
  | cons d str ih =>
      rw [splitLoop]
      split
      · rename_i hd
        rw [hd, pieces_append_cons h, ih (List.not_mem_nil (a := c)), List.nil_append]
      · rename_i hd
        rw [ih (by simp [h, Ne.symm hd]), List.append_assoc, List.singleton_append]

theorem splitString_eq (str : Bytes) (c : UInt8) : splitString str c = pieces c str :=
  splitLoop_eq (List.not_mem_nil (a := c)) str

def trimmed (str : Bytes) : Bytes := (str.dropWhile (· = space)).rdropWhile (· = space)

theorem findFirstNotOf_none (h : findFirstNotOf c str = none) : str.dropWhile (· = c) = [] := by
  refine List.dropWhile_eq_nil_iff.mpr fun x hx => ?_
  simpa using List.findIdx?_eq_none_iff.mp h x hx

theorem findFirstNotOf_some {k : Nat} (h : findFirstNotOf c str = some k) :
    k < str.length ∧ str.drop k = str.dropWhile (· = c) := by
  obtain ⟨hk, hp, hbefore⟩ := List.findIdx?_eq_some_iff_getElem.mp h
  refine ⟨hk, ?_⟩
  have hall : ∀ x ∈ str.take k, decide (x = c) = true := by
    intro x hx
    obtain ⟨j, hj, rfl⟩ := List.mem_take_iff_getElem.mp hx
    simpa using hbefore j (by omega)
  conv => rhs; rw [← List.take_append_drop k str]
  rw [List.dropWhile_append_of_pos hall, List.drop_eq_getElem_cons hk, List.dropWhile_cons_of_neg (by simpa using hp)]

theorem trimWhitespace_eq (str : Bytes) : trimWhitespace str = some (trimmed str) := by
  have hfirst : removePrefix (((findFirstNotOf space str).map (min · str.length)).getD str.length) str =
      some (str.dropWhile (· = space)) := by
    cases hf : findFirstNotOf space str with
    | none =>
        rw [findFirstNotOf_none hf]
        simp [removePrefix]
    | some k =>
        obtain ⟨hk, hdrop⟩ := findFirstNotOf_some hf
        rw [← hdrop]
        simp [removePrefix, Nat.le_of_lt hk]
  have hlast : ∀ u : Bytes, removeSuffix (((findLastNotOf space u).map (u.length - · - 1)).getD u.length) u =
      some (u.rdropWhile (· = space)) := by
    intro u
    rw [List.rdropWhile, findLastNotOf]
    cases hf : u.reverse.findIdx? (· ≠ space) with
    | none =>
        rw [findFirstNotOf_none hf]
        simp [removeSuffix]
    | some k =>
        obtain ⟨hk, hdrop⟩ := findFirstNotOf_some hf
        rw [List.length_reverse] at hk
        have hcount : u.length - (u.length - 1 - k) - 1 = k := by omega
        rw [← hdrop, List.reverse_drop, List.reverse_reverse, List.length_reverse]
        simp [removeSuffix, hcount, Nat.le_of_lt hk]
  rw [trimWhitespace, hfirst]
  exact hlast _

/-! ## Lines -/

def beforeColon (line : Bytes) : Bytes := line.takeWhile (· ≠ colon)

/-- What is behind the first colon, if there is one. -/
def afterColon (line : Bytes) : Bytes := (line.dropWhile (· ≠ colon)).tail

def nameOf (line : Bytes) : Bytes := toLowerCase (beforeColon line)

/-- What is between the first colon and the next one. -/
def valueOf (line : Bytes) : Bytes := trimmed ((afterColon line).takeWhile (· ≠ colon))

theorem round_eq (p : Progress) (hline : line ≠ []) : p.round line =
    if afterColon line = [] then .undefined
    else if nameOf line = text "content-length" then
      match fromChars (valueOf line) with
      | none => .returnFalse { p with hasLength := true }
      | some bodySize => .continue { p with hasLength := true, bodySize }
    else
      .continue { p with
        isChunked := p.isChunked || (nameOf line = text "transfer-encoding" && valueOf line = text "chunked")
        request := p.request.emplace (nameOf line) (valueOf line) } := by
  have hparts : splitString line colon = beforeColon line :: pieces colon (afterColon line) := by
    rw [splitString_eq, pieces_eq_cons hline]
    rfl
  rw [Progress.round, hparts]
  by_cases hnil : afterColon line = []
  · rw [if_pos hnil, hnil, pieces_nil]
  · rw [if_neg hnil, pieces_eq_cons hnil]
    dsimp only
    rw [trimWhitespace_eq]
    rfl

/-! ## The loop -/

/-- The rounds for these lines, up to the first one that does not go on. -/
def Progress.rounds (p : Progress) : List Bytes → Round
  | [] => .continue p
  | line :: lines =>
      match p.round line with
      | .continue p => p.rounds lines
      | r => r

/-- How the call ends after the loop, where `rest` is behind the empty line. -/
def Round.outcome (rest : Bytes) : Round → Outcome
  | .undefined => .undefined
  | .returnFalse p => .returned false p.request
  | .continue p =>
      if p.hasLength then .returned true { p.request with body := p.request.body ++ rest.take p.bodySize }
      else if p.isChunked then .threw "unimplemented" p.request
      else .returned true p.request

/-- The method and the URI of a request line that is accepted. -/
def requestLine (header : Bytes) : Option (HttpMethod × Bytes) :=
  match splitString header space with
  | [method, uri, version] => if version = text "HTTP/1.1" then (methodMap.lookup method).map (·, uri) else none
  | _ => none

variable {env : Nat → Answer} {s : Socket} {rounds n : Nat}

theorem finish_eq (h : Remains env xs s) (p : Progress) : (p.finish env s).1 = (Round.continue p).outcome xs := by
  rw [Progress.finish, Round.outcome]
  split
  · rw [← h.readBytes]
  · split <;> rfl

theorem fieldLoop_eq (h : Remains env xs s) (hrounds : xs.length < rounds) (hn : xs.length < n) (p : Progress) :
    (fieldLoop env rounds n p s).1 = (p.rounds (cutHeaders xs).1).outcome (cutHeaders xs).2 := by
  induction n generalizing xs s p with
  | zero => omega
  | succ n ih =>
      obtain ⟨s', hread, hs'⟩ := h.readUntilCrlf hrounds
      rw [fieldLoop, hread, cutHeaders]
      dsimp only
      split
      · exact finish_eq hs' p
      · rename_i hne
        have hlt := cutLine_lt hne
        rw [Progress.rounds]
        cases p.round (cutLine xs).1 with
        | undefined => rfl
        | returnFalse p => rfl
        | «continue» p => exact ih hs' (by omega) (by omega) p

theorem requestLine_eq_some {header uri : Bytes} {method : HttpMethod} (h : requestLine header = some (method, uri)) :
    ∃ name, splitString header space = [name, uri, text "HTTP/1.1"] ∧ methodMap.lookup name = some method := by
  rw [requestLine] at h
  split at h
  · rename_i name uri' version hparts
    split at h
    · rename_i hversion
      obtain ⟨m, hm, heq⟩ := Option.map_eq_some_iff.mp h
      cases heq
      exact ⟨name, hversion ▸ hparts, hm⟩
    · cases h
  · cases h

/-- A request line that is not accepted is refused. -/
theorem buildRequest_refused (hd : Delivers env stream) (hrounds : stream.length < rounds)
    (h : requestLine (cutLine stream).1 = none) (request : Request) (recvBuffer : Nat → UInt8) :
    ∃ request', (buildRequest env rounds n request (assignSocket recvBuffer)).1 = .returned false request' := by
  obtain ⟨s, hread, -⟩ := (hd.remains recvBuffer).readUntilCrlf hrounds
  rw [buildRequest, hread]
  rw [requestLine] at h
  dsimp only
  split
  · rename_i name uri version hparts
    rw [hparts] at h
    dsimp only at h
    cases hm : methodMap.lookup name with
    | none => exact ⟨_, rfl⟩
    | some method =>
        rw [hm] at h
        dsimp only
        split
        · exact ⟨_, rfl⟩
        · rename_i hversion
          rw [if_pos (not_not.mp hversion)] at h
          cases h
  · exact ⟨_, rfl⟩

/-- With a request line that is accepted, the request follows from the lines behind it. -/
theorem buildRequest_accepted (hd : Delivers env stream) (hrounds : stream.length < rounds) (hn : stream.length < n)
    {method : HttpMethod} {uri : Bytes} (h : requestLine (cutLine stream).1 = some (method, uri)) (request : Request)
    (recvBuffer : Nat → UInt8) :
    (buildRequest env rounds n request (assignSocket recvBuffer)).1 =
      (Progress.rounds { request := ⟨method, uri, .v11, fun _ => none, []⟩ } (cutHeaders (cutLine stream).2).1).outcome
        (cutHeaders (cutLine stream).2).2 := by
  obtain ⟨s, hread, hs⟩ := (hd.remains recvBuffer).readUntilCrlf hrounds
  obtain ⟨name, hparts, hm⟩ := requestLine_eq_some h
  have hlen := cutLine_length stream
  rw [buildRequest, hread]
  dsimp only
  rw [hparts]
  dsimp only
  rw [hm]
  dsimp only
  rw [if_neg (not_not.mpr rfl)]
  exact fieldLoop_eq hs (by omega) (by omega) _

end Dwhbll.Network.HttpServer
