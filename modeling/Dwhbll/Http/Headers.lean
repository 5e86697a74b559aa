import Dwhbll.Http.Fields
import Dwhbll.Lib.Splitting
import Mathlib.Data.List.Nodup

/-!
# The fields of a request

Which header lines end the call, and what the others leave in the fields. The value that is kept ends at the next colon.
-/

namespace Dwhbll.Network.HttpServer

open Socket

variable {line q : Bytes} {lines : List Bytes} {p : Progress}

/-- The line is a content length without a number. -/
def Refuses (line : Bytes) : Prop := nameOf line = text "content-length" ∧ fromChars (valueOf line) = none

instance : DecidablePred Refuses := fun _ => inferInstanceAs (Decidable (_ ∧ _))

/-- The lines that are looked at: those up to a content length without a number. -/
def reached : List Bytes → List Bytes
  | [] => []
  | line :: lines => if Refuses line then [line] else line :: reached lines

/-! ## One line -/

theorem round_undefined (hline : line ≠ []) (h : afterColon line = []) : p.round line = .undefined := by
  rw [round_eq p hline, if_pos h]

theorem round_refuses (hline : line ≠ []) (h : afterColon line ≠ []) (hr : Refuses line) :
    ∃ p', p.round line = .returnFalse p' := by
  rw [round_eq p hline, if_neg h, if_pos hr.1, hr.2]
  exact ⟨_, rfl⟩

/-- What a line leaves that is not refused: its value under its name, if there is none yet. -/
structure Kept (line : Bytes) (p p' : Progress) : Prop where
  fields : ∀ q, q ≠ text "content-length" → p'.request.fields q =
    if nameOf line = q then some ((p.request.fields q).getD (valueOf line)) else p.request.fields q
  hasLength : nameOf line ≠ text "content-length" → p'.hasLength = p.hasLength
  isChunked : nameOf line ≠ text "transfer-encoding" → p'.isChunked = p.isChunked

theorem round_continues (hline : line ≠ []) (h : afterColon line ≠ []) (hr : ¬ Refuses line) :
    ∃ p', p.round line = .continue p' ∧ Kept line p p' := by
  rw [round_eq p hline, if_neg h]
  by_cases hname : nameOf line = text "content-length"
  · rw [if_pos hname]
    cases hnumber : fromChars (valueOf line) with
    | none => exact absurd ⟨hname, hnumber⟩ hr
    | some bodySize =>
        refine ⟨_, rfl, fun q hq => ?_, fun hne => absurd hname hne, fun _ => rfl⟩
        rw [if_neg fun heq => hq (heq.symm.trans hname)]
  · rw [if_neg hname]
    refine ⟨_, rfl, fun q _ => ?_, fun _ => rfl, fun hne => ?_⟩
    · simp only [Request.emplace, eq_comm]
    · simp [hne]

/-! ## All lines -/

theorem rounds_undefined (hlines : ∀ line ∈ lines, line ≠ []) (h : ∃ line ∈ reached lines, afterColon line = []) :
    p.rounds lines = .undefined := by
  induction lines generalizing p with
  | nil =>
      obtain ⟨line, hmem, -⟩ := h
      cases hmem
  | cons line lines ih =>
      obtain ⟨hline, hlines⟩ := List.forall_mem_cons.mp hlines
      rw [Progress.rounds]
      by_cases hafter : afterColon line = []
      · rw [round_undefined hline hafter]
      · obtain ⟨line', hmem, hafter'⟩ := h
        rw [reached] at hmem
        split at hmem
        · rw [List.mem_singleton.mp hmem] at hafter'
          exact absurd hafter' hafter
        · rename_i hr
          obtain ⟨p', hround, -⟩ := round_continues (p := p) hline hafter hr
          rw [hround]
          rcases List.mem_cons.mp hmem with rfl | hmem
          · exact absurd hafter' hafter
          · exact ih hlines ⟨line', hmem, hafter'⟩

theorem rounds_refuses (hlines : ∀ line ∈ lines, line ≠ []) (hafter : ∀ line ∈ reached lines, afterColon line ≠ [])
    (h : ∃ line ∈ lines, Refuses line) : ∃ p', p.rounds lines = .returnFalse p' := by
  induction lines generalizing p with
  | nil =>
      obtain ⟨line, hmem, -⟩ := h
      cases hmem
  | cons line lines ih =>
      obtain ⟨hline, hlines⟩ := List.forall_mem_cons.mp hlines
      rw [Progress.rounds]
      rw [reached] at hafter
      split at hafter
      · rename_i hr
        obtain ⟨p', hround⟩ := round_refuses (p := p) hline (hafter line List.mem_cons_self) hr
        rw [hround]
        exact ⟨p', rfl⟩
      · rename_i hr
        obtain ⟨hline', hafter⟩ := List.forall_mem_cons.mp hafter
        obtain ⟨p', hround, -⟩ := round_continues (p := p) hline hline' hr
        obtain ⟨line', hmem, hr'⟩ := h
        rw [hround]
        rcases List.mem_cons.mp hmem with rfl | hmem
        · exact absurd hr' hr
        · exact ih hlines hafter ⟨line', hmem, hr'⟩

/-- Of the lines with one name the first one that has it is kept. -/
theorem rounds_continue (hlines : ∀ line ∈ lines, line ≠ []) (hafter : ∀ line ∈ lines, afterColon line ≠ [])
    (hr : ∀ line ∈ lines, ¬ Refuses line) :
    ∃ p', p.rounds lines = .continue p' ∧
      (∀ q, q ≠ text "content-length" → p'.request.fields q =
        (p.request.fields q).or ((lines.find? (nameOf · = q)).map valueOf)) ∧
      ((∀ line ∈ lines, nameOf line ≠ text "content-length") → p'.hasLength = p.hasLength) ∧
      ((∀ line ∈ lines, nameOf line ≠ text "transfer-encoding") → p'.isChunked = p.isChunked) := by
  induction lines generalizing p with
  | nil => exact ⟨p, rfl, fun q _ => (Option.or_none).symm, fun _ => rfl, fun _ => rfl⟩
  | cons line lines ih =>
      obtain ⟨hline, hlines⟩ := List.forall_mem_cons.mp hlines
      obtain ⟨hline', hafter⟩ := List.forall_mem_cons.mp hafter
      obtain ⟨hr', hr⟩ := List.forall_mem_cons.mp hr
      obtain ⟨p₁, hround, hkept⟩ := round_continues (p := p) hline hline' hr'
      obtain ⟨p', hrounds, hfields, hlength, hchunked⟩ := ih (p := p₁) hlines hafter hr
      rw [Progress.rounds, hround]
      refine ⟨p', hrounds, fun q hq => ?_, fun hall => ?_, fun hall => ?_⟩
      · rw [hfields q hq, hkept.fields q hq, List.find?_cons]
        by_cases hname : nameOf line = q
        · simp only [hname, if_true, decide_true, Option.map_some]
          cases p.request.fields q <;> rfl
        · simp only [hname, if_false, decide_false]
      · obtain ⟨hname, hall⟩ := List.forall_mem_cons.mp hall
        rw [hlength hall, hkept.hasLength hname]
      · obtain ⟨hname, hall⟩ := List.forall_mem_cons.mp hall
        rw [hchunked hall, hkept.isChunked hname]

theorem reached_eq (h : ∀ line ∈ lines, ¬ Refuses line) : reached lines = lines := by
  induction lines with
  | nil => rfl
  | cons line lines ih =>
      obtain ⟨hline, hlines⟩ := List.forall_mem_cons.mp h
      rw [reached, if_neg hline, ih hlines]

/-! ## Texts without spaces around them -/

theorem mem_trimmed {str : Bytes} {c : UInt8} (hc : c ≠ space) : c ∈ trimmed str ↔ c ∈ str := by
  have hdrop : ∀ u : Bytes, c ∈ u.dropWhile (· = space) ↔ c ∈ u := by
    intro u
    refine ⟨fun h => (List.dropWhile_suffix _).subset h, fun h => ?_⟩
    rw [← List.takeWhile_append_dropWhile (p := (· = space)) (l := u)] at h
    refine (List.mem_append.mp h).resolve_left fun htake => hc ?_
    simpa using List.mem_takeWhile_imp htake
  rw [trimmed, List.rdropWhile, List.mem_reverse, hdrop, List.mem_reverse, hdrop]

theorem trimmed_eq_nil_iff {str : Bytes} : trimmed str = [] ↔ ∀ c ∈ str, c = space := by
  constructor
  · intro h c hc
    by_contra hne
    have hmem := (mem_trimmed hne).mpr hc
    rw [h] at hmem
    cases hmem
  · intro h
    have hdrop : str.dropWhile (· = space) = [] := List.dropWhile_eq_nil_iff.mpr fun c hc => decide_eq_true (h c hc)
    rw [trimmed, hdrop, List.rdropWhile_nil]

/-- There is no colon in the line, or only spaces behind it. -/
def Lacks (line : Bytes) : Prop := trimmed (afterColon line) = []

theorem Lacks.valueOf_eq_nil (h : Lacks line) : valueOf line = [] :=
  trimmed_eq_nil_iff.mpr fun c hc => trimmed_eq_nil_iff.mp h c ((List.takeWhile_sublist _).subset hc)

theorem fromChars_nil : fromChars [] = none := rfl

/-! ## Calls -/

/-- The request as the call leaves it, whether it returns or throws. -/
def Outcome.request? : Outcome → Option Request
  | .returned _ request | .threw _ request => some request
  | .undefined | .running => none

theorem outcome_continue (p : Progress) (rest : Bytes) :
    (∃ request, ((Round.continue p).outcome rest).request? = some request ∧ request.fields = p.request.fields) ∧
      ∀ request, (Round.continue p).outcome rest ≠ .returned false request := by
  rw [Round.outcome]
  split
  · exact ⟨⟨_, rfl, rfl⟩, fun request h => by cases h⟩
  · split
    · exact ⟨⟨_, rfl, rfl⟩, fun request h => by cases h⟩
    · exact ⟨⟨_, rfl, rfl⟩, fun request h => by cases h⟩

/-- The call returns or throws. Where a header line has no colon or no value it returns false, or there is no value under
its name. -/
structure Handled (o : Outcome) (lines : List Bytes) : Prop where
  ends : ∃ request, o.request? = some request
  lacking : ∀ line ∈ lines, Lacks line → (∃ request, o = .returned false request) ∨
    ∃ request, o.request? = some request ∧ request.fields (nameOf line) = some []

/-- The request line is refused. Or behind the first colon of each line that is looked at there is something, and if
none of them is a content length without a number, a name that is given without a value is given without one first. -/
def Regular (stream : Bytes) : Prop :=
  requestLine (cutLine stream).1 = none ∨
    (∀ line ∈ reached (cutHeaders (cutLine stream).2).1, afterColon line ≠ []) ∧
      ((∃ line ∈ (cutHeaders (cutLine stream).2).1, Refuses line) ∨
        ∀ line ∈ (cutHeaders (cutLine stream).2).1, Lacks line →
          ∀ first, (cutHeaders (cutLine stream).2).1.find? (nameOf · = nameOf line) = some first → valueOf first = [])

theorem handled_undefined : ¬ Handled .undefined lines := by
  intro h
  obtain ⟨request, hrequest⟩ := h.ends
  cases hrequest

theorem handled_refused (request : Request) : Handled (.returned false request) lines :=
  ⟨⟨request, rfl⟩, fun _ _ _ => .inl ⟨request, rfl⟩⟩

/-- What is looked up under the name of a line that has no value. -/
theorem find_first_iff (hline : line ∈ lines) : ((lines.find? (nameOf · = nameOf line)).map valueOf = some []) ↔
    ∀ first, lines.find? (nameOf · = nameOf line) = some first → valueOf first = [] := by
  cases hfind : lines.find? (nameOf · = nameOf line) with
  | none =>
      have := List.find?_eq_none.mp hfind line hline
      simp at this
  | some first =>
      rw [Option.map_some, Option.some.injEq]
      exact ⟨fun h first' heq => by cases heq; exact h, fun h => h first rfl⟩

variable {env : Nat → Answer} {stream : Bytes} {rounds n : Nat}

/-- For a stream that ends anywhere, and whatever it is cut into: the call is defined, and handles the lines without a
colon or without a value as it should, if and only if the stream is regular. -/
theorem handled_iff (hd : Delivers env stream) (hrounds : stream.length < rounds) (hn : stream.length < n)
    (request : Request) (recvBuffer : Nat → UInt8) :
    Handled (buildRequest env rounds n request (assignSocket recvBuffer)).1 (cutHeaders (cutLine stream).2).1 ↔
      Regular stream := by
  cases hline : requestLine (cutLine stream).1 with
  | none =>
      obtain ⟨request', heq⟩ := buildRequest_refused (n := n) hd hrounds hline request recvBuffer
      rw [heq]
      exact iff_of_true (handled_refused request') (.inl hline)
  | some header =>
      obtain ⟨method, uri⟩ := header
      rw [buildRequest_accepted hd hrounds hn hline request recvBuffer, Regular, hline, or_iff_right (by simp)]
      have hlines : ∀ line ∈ (cutHeaders (cutLine stream).2).1, line ≠ [] := fun _ => ne_nil_of_mem_cutHeaders
      generalize (cutHeaders (cutLine stream).2).1 = lines at hlines
      by_cases hafter : ∀ line ∈ reached lines, afterColon line ≠ []
      · rw [and_iff_right hafter]
        by_cases hr : ∃ line ∈ lines, Refuses line
        · obtain ⟨p', hrounds'⟩ := rounds_refuses hlines hafter hr
          rw [hrounds']
          exact iff_of_true (handled_refused _) (.inl hr)
        · have hr' : ∀ line ∈ lines, ¬ Refuses line := fun line hline hrefuses => hr ⟨line, hline, hrefuses⟩
          rw [reached_eq hr'] at hafter
          obtain ⟨p', hrounds', hfields, -, -⟩ := rounds_continue hlines hafter hr'
          obtain ⟨⟨request', hrequest, hsame⟩, hnot⟩ := outcome_continue p' (cutHeaders (cutLine stream).2).2
          rw [hrounds', or_iff_right hr]
          have hkept : ∀ line ∈ lines, Lacks line → (request'.fields (nameOf line) = some [] ↔
              ∀ first, lines.find? (nameOf · = nameOf line) = some first → valueOf first = []) := by
            intro line hline hlacks
            have hname : nameOf line ≠ text "content-length" := by
              intro hname
              refine hr' line hline ⟨hname, ?_⟩
              rw [hlacks.valueOf_eq_nil, fromChars_nil]
            rw [hsame, hfields _ hname, Option.none_or, find_first_iff hline]
          constructor
          · intro h line hline hlacks
            rcases h.lacking line hline hlacks with ⟨request, heq⟩ | ⟨request, heq, hempty⟩
            · exact absurd heq (hnot request)
            · cases hrequest.symm.trans heq
              exact (hkept line hline hlacks).mp hempty
          · intro h
            exact ⟨⟨request', hrequest⟩, fun line hline hlacks =>
              .inr ⟨request', hrequest, (hkept line hline hlacks).mpr (h line hline hlacks)⟩⟩
      · have hbad : ∃ line ∈ reached lines, afterColon line = [] := by
          by_contra hnone
          exact hafter fun line hline heq => hnone ⟨line, hline, heq⟩
        rw [rounds_undefined hlines hbad]
        exact iff_of_false handled_undefined fun h => hafter h.1

/-- A field whose value is a space is kept without a value. -/
theorem handled_iff_space :
    Handled (buildRequest (reads [⟨text "GET / HTTP/1.1\r\nA: ", by decide⟩, ⟨text "\r\n\r\n", by decide⟩]) 30 30
      ⟨.get, [], .v11, fun _ => none, []⟩ (assignSocket fun _ => 0)).1 [text "A: "] := by
  have hd : Delivers _ (text "GET / HTTP/1.1\r\nA: \r\n\r\n") :=
    @reads_delivers [⟨text "GET / HTTP/1.1\r\nA: ", by decide⟩, ⟨text "\r\n\r\n", by decide⟩] (by decide)
  have hrest : (cutLine (text "GET / HTTP/1.1\r\nA: \r\n\r\n")).2 = text "A: " ++ (crlf ++ (crlf ++ [])) := by decide
  have hcut : cutHeaders (cutLine (text "GET / HTTP/1.1\r\nA: \r\n\r\n")).2 = ([text "A: "], []) := by
    rw [hrest, cutHeaders_singleton (by decide +kernel) (by decide)]
  have hregular : Regular (text "GET / HTTP/1.1\r\nA: \r\n\r\n") := by
    refine .inr ?_
    rw [hcut]
    refine ⟨by decide, .inr fun line hline _ first hfirst => ?_⟩
    have hmem := List.mem_of_find?_eq_some hfirst
    rw [List.mem_singleton.mp hmem]
    decide
  have hlength : (text "GET / HTTP/1.1\r\nA: \r\n\r\n").length < 30 := by decide
  have hhandled := (handled_iff hd hlength hlength ⟨.get, [], .v11, fun _ => none, []⟩ fun _ => 0).mpr hregular
  rwa [hcut] at hhandled

/-- With nothing behind the colon, the call reads a part that is not there. -/
theorem nothing_behind_colon :
    Delivers (reads [⟨text "GET / HTTP/1.1\r\nHost:\r\n\r\n", by decide⟩]) (text "GET / HTTP/1.1\r\nHost:\r\n\r\n") ∧
    (buildRequest (reads [⟨text "GET / HTTP/1.1\r\nHost:\r\n\r\n", by decide⟩]) 30 30
      ⟨.get, [], .v11, fun _ => none, []⟩ (assignSocket fun _ => 0)).1 = .undefined := by
  have hd : Delivers _ (text "GET / HTTP/1.1\r\nHost:\r\n\r\n") :=
    @reads_delivers [⟨text "GET / HTTP/1.1\r\nHost:\r\n\r\n", by decide⟩] (by decide)
  have hrest : (cutLine (text "GET / HTTP/1.1\r\nHost:\r\n\r\n")).2 = text "Host:" ++ (crlf ++ (crlf ++ [])) := by decide
  have hcut : cutHeaders (cutLine (text "GET / HTTP/1.1\r\nHost:\r\n\r\n")).2 = ([text "Host:"], []) := by
    rw [hrest, cutHeaders_singleton (by decide +kernel) (by decide)]
  have hline : requestLine (cutLine (text "GET / HTTP/1.1\r\nHost:\r\n\r\n")).1 = some (.get, text "/") := by decide
  refine ⟨hd, ?_⟩
  rw [buildRequest_accepted hd (by decide) (by decide) hline, hcut]
  rfl

/-! ## Requests whose fields are given once -/

def headerLine (header : Bytes × Bytes) : Bytes := header.1 ++ colon :: header.2

def requestText (method uri : Bytes) (headers : List (Bytes × Bytes)) (rest : Bytes) : Bytes :=
  (method ++ space :: (uri ++ space :: text "HTTP/1.1")) ++
    (crlf ++ (headers.flatMap (fun header => headerLine header ++ crlf) ++ (crlf ++ rest)))

/-- A request line for a method of the map, and headers with names that are not the same in lower case. -/
structure WellFormed (method uri : Bytes) (headers : List (Bytes × Bytes)) : Prop where
  method : methodMap.lookup method ≠ none
  uri : space ∉ uri ∧ ¬ crlf <:+: uri
  lines : ∀ header ∈ headers, colon ∉ header.1 ∧ ¬ crlf <:+: header.1 ∧ ¬ crlf <:+: header.2
  names : (headers.map fun header => toLowerCase header.1).Nodup
  others : ∀ header ∈ headers,
    toLowerCase header.1 ≠ text "content-length" ∧ toLowerCase header.1 ≠ text "transfer-encoding"

variable {method uri rest : Bytes} {headers : List (Bytes × Bytes)} {header : Bytes × Bytes}

theorem beforeColon_headerLine (h : colon ∉ header.1) : beforeColon (headerLine header) = header.1 := by
  have hall : ∀ c ∈ header.1, decide (c ≠ colon) = true := fun c hc => decide_eq_true fun heq => h (heq ▸ hc)
  rw [beforeColon, headerLine, List.takeWhile_append_of_pos hall, List.takeWhile_cons_of_neg (by simp), List.append_nil]

theorem afterColon_headerLine (h : colon ∉ header.1) : afterColon (headerLine header) = header.2 := by
  have hall : ∀ c ∈ header.1, decide (c ≠ colon) = true := fun c hc => decide_eq_true fun heq => h (heq ▸ hc)
  rw [afterColon, headerLine, List.dropWhile_append_of_pos hall, List.dropWhile_cons_of_neg (by simp), List.tail_cons]

theorem not_crlf_cons {c : UInt8} {xs ys : Bytes} (hc : c ∉ crlf) (hx : ¬ crlf <:+: xs) (hy : ¬ crlf <:+: ys) :
    ¬ crlf <:+: xs ++ c :: ys :=
  fun h => (Splitting.infix_of_infix_cons hc h).elim hx hy

theorem cutHeaders_headers (h : ∀ header ∈ headers, ¬ crlf <:+: header.1 ∧ ¬ crlf <:+: header.2) (rest : Bytes) :
    cutHeaders (headers.flatMap (fun header => headerLine header ++ crlf) ++ (crlf ++ rest)) =
      (headers.map headerLine, rest) := by
  induction headers with
  | nil => exact cutHeaders_nil (cutLine_crlf rest)
  | cons header headers ih =>
      obtain ⟨hheader, hheaders⟩ := List.forall_mem_cons.mp h
      have hline : ¬ crlf <:+: headerLine header := not_crlf_cons (by decide) hheader.1 hheader.2
      have hcut := cutLine_append hline (headers.flatMap (fun header => headerLine header ++ crlf) ++ (crlf ++ rest))
      rw [List.flatMap_cons, List.append_assoc, List.append_assoc, cutHeaders_cons hcut (by simp [headerLine]),
        ih hheaders]
      rfl

theorem lookup_methodMap {m : HttpMethod} (h : methodMap.lookup method = some m) :
    method ≠ [] ∧ space ∉ method ∧ ¬ crlf <:+: method := by
  have hall : ∀ entry ∈ methodMap, entry.1 ≠ [] ∧ space ∉ entry.1 ∧ ¬ crlf <:+: entry.1 := by decide +kernel
  obtain ⟨before, behind, hmap, -⟩ := List.lookup_eq_some_iff.mp h
  exact hall (method, m) (hmap ▸ List.mem_append_right before List.mem_cons_self)

theorem requestLine_text {m : HttpMethod} (h : methodMap.lookup method = some m) (huri : space ∉ uri) :
    requestLine (method ++ space :: (uri ++ space :: text "HTTP/1.1")) = some (m, uri) := by
  have hparts : splitString (method ++ space :: (uri ++ space :: text "HTTP/1.1")) space =
      [method, uri, text "HTTP/1.1"] := by
    rw [splitString_eq, Pieces.pieces_append_cons (lookup_methodMap h).2.1, Pieces.pieces_append_cons huri,
      Pieces.pieces_of_not_mem (by decide) (by decide)]
  simp only [requestLine, hparts, if_true, h, Option.map_some]

theorem WellFormed.cut (h : WellFormed method uri headers) (rest : Bytes) :
    (∃ m, requestLine (cutLine (requestText method uri headers rest)).1 = some (m, uri)) ∧
      (cutHeaders (cutLine (requestText method uri headers rest)).2).1 = headers.map headerLine := by
  obtain ⟨m, hm⟩ := Option.ne_none_iff_exists'.mp h.method
  have hline : ¬ crlf <:+: method ++ space :: (uri ++ space :: text "HTTP/1.1") :=
    not_crlf_cons (by decide) (lookup_methodMap hm).2.2 (not_crlf_cons (by decide) h.uri.2 (by decide +kernel))
  rw [requestText, cutLine_append hline]
  refine ⟨⟨m, requestLine_text hm h.uri.1⟩, ?_⟩
  rw [cutHeaders_headers fun header hheader => (h.lines header hheader).2]

theorem WellFormed.nameOf_headerLine (h : WellFormed method uri headers) (hheader : header ∈ headers) :
    nameOf (headerLine header) = toLowerCase header.1 := by
  rw [nameOf, beforeColon_headerLine (h.lines header hheader).1]

theorem WellFormed.afterColon_headerLine (h : WellFormed method uri headers) (hheader : header ∈ headers) :
    afterColon (headerLine header) = header.2 := HttpServer.afterColon_headerLine (h.lines header hheader).1

theorem WellFormed.others_headerLine (h : WellFormed method uri headers) {line : Bytes}
    (hline : line ∈ headers.map headerLine) :
    nameOf line ≠ text "content-length" ∧ nameOf line ≠ text "transfer-encoding" := by
  obtain ⟨header, hheader, rfl⟩ := List.mem_map.mp hline
  rw [h.nameOf_headerLine hheader]
  exact h.others header hheader

/-- Among the headers there is one line for each name. -/
theorem WellFormed.find_headerLine (h : WellFormed method uri headers) (hheader : header ∈ headers) :
    (headers.map headerLine).find? (nameOf · = toLowerCase header.1) = some (headerLine header) := by
  cases hfind : (headers.map headerLine).find? (nameOf · = toLowerCase header.1) with
  | none =>
      have := List.find?_eq_none.mp hfind _ (List.mem_map_of_mem hheader)
      simp [h.nameOf_headerLine hheader] at this
  | some line =>
      obtain ⟨header', hheader', rfl⟩ := List.mem_map.mp (List.mem_of_find?_eq_some hfind)
      have hsame := List.find?_some hfind
      rw [decide_eq_true_eq, h.nameOf_headerLine hheader'] at hsame
      rw [List.inj_on_of_nodup_map h.names hheader' hheader hsame]

theorem colon_not_mem_valueOf (line : Bytes) : colon ∉ valueOf line := by
  rw [valueOf, mem_trimmed (by decide)]
  intro hmem
  simpa using List.mem_takeWhile_imp hmem

theorem valueOf_headerLine (h : colon ∉ header.1) :
    valueOf (headerLine header) = trimmed header.2 ↔ colon ∉ header.2 := by
  constructor
  · intro heq hmem
    refine colon_not_mem_valueOf (headerLine header) ?_
    rw [heq, mem_trimmed (by decide)]
    exact hmem
  · intro hnot
    have hall : ∀ c ∈ header.2, decide (c ≠ colon) = true := fun c hc => decide_eq_true fun heq => hnot (heq ▸ hc)
    rw [valueOf, afterColon_headerLine h, List.takeWhile_eq_self_iff.mpr hall]

/-- However the text is cut into reads, the call returns true with each value under its name in lower case, without the
spaces around it, if and only if no value is empty or has a colon in it. -/
theorem fields_iff (hw : WellFormed method uri headers) (hd : Delivers env (requestText method uri headers rest))
    (hrounds : (requestText method uri headers rest).length < rounds)
    (hn : (requestText method uri headers rest).length < n) (request : Request) (recvBuffer : Nat → UInt8) :
    (∃ request', (buildRequest env rounds n request (assignSocket recvBuffer)).1 = .returned true request' ∧
        ∀ header ∈ headers, request'.fields (toLowerCase header.1) = some (trimmed header.2)) ↔
      ∀ header ∈ headers, header.2 ≠ [] ∧ colon ∉ header.2 := by
  obtain ⟨⟨m, hline⟩, hcut⟩ := hw.cut rest
  rw [buildRequest_accepted hd hrounds hn hline request recvBuffer, hcut]
  have hlines : ∀ line ∈ headers.map headerLine, line ≠ [] := by
    intro line hmem
    obtain ⟨header, -, rfl⟩ := List.mem_map.mp hmem
    simp [headerLine]
  have hrefuses : ∀ line ∈ headers.map headerLine, ¬ Refuses line :=
    fun line hmem hr => (hw.others_headerLine hmem).1 hr.1
  by_cases hempty : ∃ header ∈ headers, header.2 = []
  · obtain ⟨header, hheader, hnil⟩ := hempty
    have hbad : ∃ line ∈ reached (headers.map headerLine), afterColon line = [] := by
      rw [reached_eq hrefuses]
      exact ⟨_, List.mem_map_of_mem hheader, (hw.afterColon_headerLine hheader).trans hnil⟩
    rw [rounds_undefined hlines hbad]
    refine iff_of_false ?_ fun h => (h header hheader).1 hnil
    rintro ⟨request', heq, -⟩
    cases heq
  · have hall : ∀ line ∈ headers.map headerLine, afterColon line ≠ [] := by
      intro line hmem hnil
      obtain ⟨header, hheader, rfl⟩ := List.mem_map.mp hmem
      exact hempty ⟨header, hheader, (hw.afterColon_headerLine hheader).symm.trans hnil⟩
    obtain ⟨p', hrounds', hfields, hlength, hchunked⟩ := rounds_continue hlines hall hrefuses
    rw [hrounds', Round.outcome, hlength fun line hmem => (hw.others_headerLine hmem).1,
      hchunked fun line hmem => (hw.others_headerLine hmem).2]
    have hkept : ∀ header ∈ headers, (p'.request.fields (toLowerCase header.1) = some (trimmed header.2) ↔
        colon ∉ header.2) := by
      intro header hheader
      rw [hfields _ (hw.others header hheader).1, hw.find_headerLine hheader, Option.none_or, Option.map_some,
        Option.some.injEq, valueOf_headerLine (hw.lines header hheader).1]
    constructor
    · rintro ⟨request', heq, h⟩ header hheader
      cases heq
      exact ⟨fun hnil => hempty ⟨header, hheader, hnil⟩, (hkept header hheader).mp (h header hheader)⟩
    · intro h
      exact ⟨_, rfl, fun header hheader => (hkept header hheader).mpr (h header hheader).2⟩

theorem fields_iff_one :
    ∃ request', (buildRequest (reads [⟨text "GET / HTTP/1.1\r\nA: b", by decide⟩, ⟨text " \r\n\r\n", by decide⟩]) 40 40
        ⟨.put, [], .v11, fun _ => none, []⟩ (assignSocket fun _ => 0)).1 = .returned true request' ∧
      ∀ header ∈ [(text "A", text " b ")], request'.fields (toLowerCase header.1) = some (trimmed header.2) := by
  have hd : Delivers _ (requestText (text "GET") (text "/") [(text "A", text " b ")] []) :=
    @reads_delivers [⟨text "GET / HTTP/1.1\r\nA: b", by decide⟩, ⟨text " \r\n\r\n", by decide⟩] (by decide)
  have hw : WellFormed (text "GET") (text "/") [(text "A", text " b ")] :=
    ⟨by decide, by decide +kernel, by decide +kernel, by decide, by decide⟩
  have hlength : (requestText (text "GET") (text "/") [(text "A", text " b ")] []).length < 40 := by decide
  exact (fields_iff hw hd hlength hlength ⟨.put, [], .v11, fun _ => none, []⟩ fun _ => 0).mpr (by decide)

/-- The port is not in the value that is kept. -/
theorem port_is_cut_off :
    WellFormed (text "GET") (text "/") [(text "Host", text " localhost:8080")] ∧
    Delivers (reads [⟨text "GET / HTTP/1.1\r\nHost: localhost:8080\r\n\r\n", by decide⟩])
      (requestText (text "GET") (text "/") [(text "Host", text " localhost:8080")] []) ∧
    (buildRequest (reads [⟨text "GET / HTTP/1.1\r\nHost: localhost:8080\r\n\r\n", by decide⟩]) 50 50
        ⟨.get, [], .v11, fun _ => none, []⟩ (assignSocket fun _ => 0)).1.request?.map (fun request =>
          request.fields (text "host")) = some (some (text "localhost")) ∧
    trimmed (text " localhost:8080") = text "localhost:8080" := by
  have hd : Delivers (reads [⟨text "GET / HTTP/1.1\r\nHost: localhost:8080\r\n\r\n", by decide⟩])
      (requestText (text "GET") (text "/") [(text "Host", text " localhost:8080")] []) := reads_delivers (by decide)
  have hrest : (cutLine (requestText (text "GET") (text "/") [(text "Host", text " localhost:8080")] [])).2 =
      text "Host: localhost:8080" ++ (crlf ++ (crlf ++ [])) := by decide
  have hcut : cutHeaders (cutLine (requestText (text "GET") (text "/") [(text "Host", text " localhost:8080")] [])).2 =
      ([text "Host: localhost:8080"], []) := by
    rw [hrest, cutHeaders_singleton (by decide +kernel) (by decide)]
  have hline : requestLine (cutLine (requestText (text "GET") (text "/")
      [(text "Host", text " localhost:8080")] [])).1 = some (.get, text "/") := by decide
  refine ⟨⟨by decide, by decide +kernel, by decide +kernel, by decide, by decide⟩, hd, ?_, by decide⟩
  rw [buildRequest_accepted hd (by decide) (by decide) hline, hcut]
  decide +kernel

end Dwhbll.Network.HttpServer
