import Dwhbll.Http.Fields
import Dwhbll.Http.Sending
import Mathlib.Data.List.ReduceOption

/-!
# `executor` of `network/http_server.hpp`

A worker takes connections one after the other, with one socket, one request and one response for all of them. The routes
and what their handlers keep are parameters.
-/

namespace Dwhbll.Network.HttpServer

open Socket

/-- `fields` in the order in which the map is walked. -/
structure Response where
  code : Bytes := []
  reason : Bytes := []
  fields : List (Bytes × Bytes) := []
  body : Bytes := []
  deriving DecidableEq, Repr

def Response.reset (_ : Response) : Response := {}

/-- What `poll` and `read`, and `poll` and `write`, answer on a descriptor. -/
structure Connection where
  reads : Nat → Answer
  writes : Nat → Nat → Sent

/-- A call of `handle` on what the factory of the route makes. There is no outcome where it throws. -/
abbrev Handler (σ : Type) := Request → Response → σ → Option (Request × Response × σ)

/-- The `i`-th connection that was accepted has the descriptor `i`. `replies` are the bytes that `write` accepted on each
one, where an answer was written. -/
structure Worker (σ : Type) where
  recvBuffer : Nat → UInt8
  sendBuffer : Nat → UInt8
  sendSize : Nat := 0
  request : Request
  response : Response := {}
  kept : σ
  opened : List Nat := []
  replies : List (Option Bytes) := []

def crlfText : Bytes := text "\r\n"

/-- The calls of `write` for a response. -/
def Response.writes (r : Response) : List Outgoing.Write :=
  [.chars (text "HTTP/1.1 "), .string r.code, .chars (text " "), .string r.reason, .chars crlfText] ++
    r.fields.flatMap (fun field => [.string field.1, .chars (text ": "), .string field.2, .chars crlfText]) ++
    [.chars crlfText, .bytes r.body]

variable {σ : Type}

/-- The thread has just started. -/
def Worker.start (recvBuffer sendBuffer : Nat → UInt8) (request : Request) (kept : σ) : Worker σ :=
  { recvBuffer, sendBuffer, request, kept }

/-- The body of the loop, for a connection that was accepted. It does not come to its end where an exception leaves it,
where something is not defined, and where a loop needs more rounds. -/
def serve (rt : Bytes → Option (Handler σ)) (rounds lines : Nat) (c : Connection) (w : Worker σ) : Option (Worker σ) :=
  let fd := w.replies.length
  match buildRequest c.reads rounds lines w.request (assignSocket w.recvBuffer) with
  | (.returned built request, reader) =>
      let w := { w with recvBuffer := reader.recvBuffer, request, opened := w.opened ++ [fd] }
      if built then
        match rt request.uri with
        | none => some { w with replies := w.replies ++ [none] }
        | some handle => do
            let (request, response, kept) ← handle request w.response w.kept
            let socket ← Outgoing.run c.writes rounds { sendBuffer := w.sendBuffer, sendSize := w.sendSize } response.writes
            some { w with
              sendBuffer := socket.sendBuffer, sendSize := socket.sendSize, request, kept
              response := response.reset, opened := w.opened.erase fd, replies := w.replies ++ [some socket.accepted] }
      else some { w with replies := w.replies ++ [none] }
  | _ => none

/-- `accept4` fails, or there is a connection. -/
def executor (rt : Bytes → Option (Handler σ)) (rounds lines : Nat) (accepts : List (Option Connection))
    (w : Worker σ) : Option (Worker σ) :=
  accepts.foldlM (fun w accepted => match accepted with
    | none => some w
    | some c => serve rt rounds lines c w) w

/-! ## What a stream is answered with -/

/-- The request in a stream, if it is not refused. It is not defined for some streams. -/
def requestOf (stream : Bytes) : Option (Option Request) :=
  match requestLine (cutLine stream).1 with
  | none => some none
  | some (method, uri) =>
      let (fields, rest) := cutHeaders (cutLine stream).2
      match (Progress.rounds { request := ⟨method, uri, .v11, fun _ => none, []⟩ } fields).outcome rest with
      | .returned true request => some (some request)
      | .returned false _ => some none
      | _ => none

def Response.text (r : Response) : Bytes :=
  HttpServer.text "HTTP/1.1 " ++ r.code ++ HttpServer.text " " ++ r.reason ++ crlfText ++
    r.fields.flatMap (fun field => field.1 ++ HttpServer.text ": " ++ field.2 ++ crlfText) ++ crlfText ++ r.body

/-- The answer to a stream on its own. -/
def answer (rt : Bytes → Option (Handler σ)) (kept : σ) (stream : Bytes) : Option (Option Bytes × σ) := do
  match ← requestOf stream with
  | none => some (none, kept)
  | some request =>
      match rt request.uri with
      | none => some (none, kept)
      | some handle => (handle request {} kept).map fun (_, response, kept) => (some response.text, kept)

def answers (rt : Bytes → Option (Handler σ)) : σ → List Bytes → Option (List (Option Bytes) × σ)
  | kept, [] => some ([], kept)
  | kept, stream :: streams => do
      let (reply, kept) ← answer rt kept stream
      let (replies, kept) ← answers rt kept streams
      return (reply :: replies, kept)

/-- The connection brings the stream, and each `write` on it takes all that it is given. -/
structure Connection.Brings (c : Connection) (stream : Bytes) : Prop where
  delivers : Delivers c.reads stream
  takes : ∀ k n, 0 < n → c.writes k n = .accepted n

variable {rt : Bytes → Option (Handler σ)} {rounds lines : Nat} {c : Connection} {stream : Bytes} {w w' : Worker σ}

/-! ## One connection -/

theorem takeWhile_text {xs : Bytes} (h : (0 : UInt8) ∉ xs) : xs.takeWhile (· ≠ 0) = xs :=
  by
  refine List.takeWhile_eq_self_iff.mpr fun x hx => decide_eq_true ?_
  rintro rfl
  exact h hx

theorem writes_content (r : Response) : r.writes.flatMap Outgoing.Write.content = r.text := by
  have hversion : (0 : UInt8) ∉ text "HTTP/1.1 " := by decide
  have hspace : (0 : UInt8) ∉ text " " := by decide
  have hcolon : (0 : UInt8) ∉ text ": " := by decide
  have hcrlf : (0 : UInt8) ∉ crlfText := by decide
  simp only [Response.writes, Response.text, List.flatMap_append, List.flatMap_cons, List.flatMap_nil, List.flatMap_assoc,
    Outgoing.Write.content, takeWhile_text hversion, takeWhile_text hspace, takeWhile_text hcolon, takeWhile_text hcrlf,
    List.append_nil, List.append_assoc]

theorem flushLoop_sendSize {env : Nat → Nat → Sent} {pos : Nat} {s t : Outgoing}
    (h : Outgoing.flushLoop env rounds pos s = some t) : t.sendSize = 0 := by
  induction rounds generalizing s with
  | zero => cases h
  | succ rounds ih =>
      rw [Outgoing.flushLoop] at h
      split at h
      · dsimp only at h
        split at h
        · exact ih h
        · cases h
          rfl
        · cases h
          rfl
      · cases h
        rfl

/-- A response goes out as a whole where each `write` takes all that it is given, and leaves nothing in the buffer. -/
theorem run_writes {env : Nat → Nat → Sent} (henv : ∀ k n, 0 < n → env k n = .accepted n) (rounds : Nat)
    (sendBuffer : Nat → UInt8) (calls : List Outgoing.Write) :
    ∃ t, Outgoing.run env (rounds + 1) { sendBuffer } calls = some t ∧
      t.accepted = calls.flatMap Outgoing.Write.content ∧ t.sendSize = 0 := by
  have hw : Outgoing.Writable env := fun k n hn => ⟨n, henv k n hn, hn, Nat.le_refl n⟩
  obtain ⟨s, full, rest, hwrite, hs⟩ := (Outgoing.fresh_holds sendBuffer).writeAll rounds hw calls
  obtain ⟨t, hflush, ht⟩ := hs.flush rounds hw
  have hsplits := hs.splits
  rw [List.nil_append] at hsplits
  refine ⟨t, by rw [Outgoing.run, hwrite]; exact hflush, ?_, flushLoop_sendSize hflush⟩
  have htaken := (Outgoing.forall_taken_iff hw hsplits).mpr
    ⟨fun k _ => henv k 4096 (by decide), fun hne => henv _ _ (Nat.pos_of_ne_zero hne)⟩
  rw [ht, (Lists.flatten_mapIdx_eq_iff (Outgoing.taken_isPrefix env) _).mpr htaken, Outgoing.flatten_blocks hsplits]

/-- What `build_request` makes of a stream, whatever was in the request and in the buffer before. -/
theorem buildRequest_eq (hd : Delivers c.reads stream) (hrounds : stream.length < rounds) (hlines : stream.length < lines)
    (request : Request) (recvBuffer : Nat → UInt8) :
    match requestOf stream with
    | none => ∀ built request',
        (buildRequest c.reads rounds lines request (assignSocket recvBuffer)).1 ≠ .returned built request'
    | some none => ∃ request',
        (buildRequest c.reads rounds lines request (assignSocket recvBuffer)).1 = .returned false request'
    | some (some request') =>
        (buildRequest c.reads rounds lines request (assignSocket recvBuffer)).1 = .returned true request' := by
  rw [requestOf]
  cases hline : requestLine (cutLine stream).1 with
  | none => exact buildRequest_refused hd hrounds hline request recvBuffer
  | some line =>
      obtain ⟨method, uri⟩ := line
      dsimp only
      rw [buildRequest_accepted hd hrounds hlines hline request recvBuffer]
      generalize Round.outcome _ _ = o
      cases o with
      | returned built request' =>
          cases built with
          | false => exact ⟨request', rfl⟩
          | true => rfl
      | threw what request' => exact fun _ _ h => by cases h
      | undefined => exact fun _ _ h => by cases h
      | running => exact fun _ _ h => by cases h

/-- The connections that got no answer. -/
def unanswered (replies : List (Option Bytes)) : List Nat :=
  (List.range replies.length).filter fun i => replies[i]? = some none

theorem unanswered_concat (replies : List (Option Bytes)) (reply : Option Bytes) :
    unanswered (replies ++ [reply]) = unanswered replies ++ if reply = none then [replies.length] else [] := by
  rw [unanswered, List.length_append, List.length_singleton, List.range_succ, List.filter_append, unanswered]
  congr 1
  · refine List.filter_congr fun i hi => ?_
    rw [List.getElem?_append_left (List.mem_range.mp hi)]
  · cases reply <;> simp

theorem length_not_mem_unanswered (replies : List (Option Bytes)) : replies.length ∉ unanswered replies := by
  intro h
  exact Nat.lt_irrefl _ (List.mem_range.mp (List.mem_filter.mp h).1)

/-- Between two connections. -/
structure Idle (w : Worker σ) : Prop where
  response : w.response = {}
  sendSize : w.sendSize = 0
  opened : w.opened = unanswered w.replies

variable (rt) in
theorem serve_eq (hw : Idle w) (hc : c.Brings stream) (hrounds : stream.length < rounds) (hlines : stream.length < lines) :
    match answer rt w.kept stream with
    | none => serve rt rounds lines c w = none
    | some (reply, kept) => ∃ w', serve rt rounds lines c w = some w' ∧ Idle w' ∧ w'.kept = kept ∧
        w'.replies = w.replies ++ [reply] := by
  have hbuild := buildRequest_eq hc.delivers hrounds hlines w.request w.recvBuffer
  have hnone : w.opened ++ [w.replies.length] = unanswered (w.replies ++ [none]) := by
    rw [unanswered_concat, if_pos rfl, hw.opened]
  rw [answer, serve]
  generalize buildRequest c.reads rounds lines w.request (assignSocket w.recvBuffer) = built at hbuild
  obtain ⟨o, reader⟩ := built
  cases hrequest : requestOf stream with
  | none =>
      rw [hrequest] at hbuild
      cases o with
      | returned built request => exact absurd rfl (hbuild built request)
      | threw what request => rfl
      | undefined => rfl
      | running => rfl
  | some r =>
      rw [hrequest] at hbuild
      cases r with
      | none =>
          obtain ⟨request, rfl⟩ := hbuild
          exact ⟨_, rfl, ⟨hw.response, hw.sendSize, hnone⟩, rfl, rfl⟩
      | some request =>
          cases hbuild
          simp only [Option.bind_eq_bind, Option.bind_some, if_true]
          cases rt request.uri with
          | none => exact ⟨_, rfl, ⟨hw.response, hw.sendSize, hnone⟩, rfl, rfl⟩
          | some handle =>
              simp only [hw.response, hw.sendSize]
              cases handle request {} w.kept with
              | none => rfl
              | some result =>
                  obtain ⟨request', response, kept⟩ := result
                  obtain ⟨rounds, rfl⟩ := Nat.exists_eq_add_of_lt hrounds
                  obtain ⟨t, hrun, haccepted, hsize⟩ :=
                    run_writes hc.takes (stream.length + rounds) w.sendBuffer response.writes
                  rw [writes_content] at haccepted
                  simp only [Option.bind_some, hrun, Option.map_some]
                  refine ⟨_, rfl, ⟨rfl, hsize, ?_⟩, rfl, by rw [haccepted]⟩
                  show (w.opened ++ [w.replies.length]).erase w.replies.length = unanswered (w.replies ++ [some t.accepted])
                  rw [unanswered_concat, if_neg (Option.some_ne_none _), List.append_nil, hw.opened,
                    List.erase_append_right _ (length_not_mem_unanswered w.replies), List.erase_cons_head, List.append_nil]

/-! ## Any number of connections -/

variable (rt) in
theorem executor_eq {accepts : List (Option Connection)} {streams : List Bytes} (hw : Idle w)
    (h : List.Forall₂ (fun c stream => c.Brings stream ∧ stream.length < rounds ∧ stream.length < lines)
      accepts.reduceOption streams) :
    match answers rt w.kept streams with
    | none => executor rt rounds lines accepts w = none
    | some (replies, kept) => ∃ w', executor rt rounds lines accepts w = some w' ∧ Idle w' ∧ w'.kept = kept ∧
        w'.replies = w.replies ++ replies := by
  induction accepts generalizing w streams with
  | nil =>
      cases h
      exact ⟨w, rfl, hw, rfl, (List.append_nil _).symm⟩
  | cons accepted accepts ih =>
      cases accepted with
      | none => exact ih hw h
      | some c =>
          rw [List.reduceOption_cons_of_some] at h
          obtain _ | ⟨⟨hc, hrounds, hlines⟩, hrest⟩ := h
          rename_i stream streams
          have hserve := serve_eq rt hw hc hrounds hlines
          rw [answers, executor, List.foldlM_cons]
          cases hanswer : answer rt w.kept stream with
          | none =>
              rw [hanswer] at hserve
              simp only [hserve]
              rfl
          | some result =>
              obtain ⟨reply, kept⟩ := result
              rw [hanswer] at hserve
              obtain ⟨w₁, hw₁, hidle, rfl, hreplies⟩ := hserve
              have hnext := ih hidle hrest
              simp only [hw₁, Option.bind_eq_bind, Option.bind_some]
              cases hanswers : answers rt w₁.kept streams with
              | none =>
                  rw [hanswers] at hnext
                  exact hnext
              | some results =>
                  obtain ⟨replies, kept'⟩ := results
                  rw [hanswers] at hnext
                  obtain ⟨w', hw', hidle', hkept', hreplies'⟩ := hnext
                  refine ⟨w', hw', hidle', hkept', ?_⟩
                  rw [hreplies', hreplies, List.append_assoc, List.singleton_append]

variable (rt) in
/-- Each connection is answered as its stream on its own would be, after what the handlers did for those before. The
descriptors that stay open are those of the connections that got no answer. -/
theorem executor_answers {accepts : List (Option Connection)} {streams : List Bytes}
    (h : List.Forall₂ (fun c stream => c.Brings stream ∧ stream.length < rounds ∧ stream.length < lines)
      accepts.reduceOption streams) (recvBuffer sendBuffer : Nat → UInt8) (request : Request) (kept : σ) :
    match answers rt kept streams with
    | none => executor rt rounds lines accepts (.start recvBuffer sendBuffer request kept) = none
    | some (replies, kept') =>
        ∃ w, executor rt rounds lines accepts (.start recvBuffer sendBuffer request kept) = some w ∧
          w.kept = kept' ∧ w.replies = replies ∧ w.opened = unanswered replies := by
  have hrun := executor_eq rt (w := .start recvBuffer sendBuffer request kept) ⟨rfl, rfl, rfl⟩ h
  simp only [Worker.start] at hrun ⊢
  split at hrun
  · exact hrun
  · obtain ⟨w, hw, hidle, hkept, hreplies⟩ := hrun
    rw [List.nil_append] at hreplies
    exact ⟨w, hw, hkept, hreplies, hreplies ▸ hidle.opened⟩

/-! ## Two connections -/

/-- A counter of the requests to "/". -/
def counting (uri : Bytes) : Option (Handler Nat) :=
  if uri = text "/" then
    some fun request response n => some (request, { response with code := text "200", body := [UInt8.ofNat n] }, n + 1)
  else none

def readAll (stream : { xs : List UInt8 // xs.length ≤ 4096 }) : Connection where
  reads := reads [stream]
  writes _ n := .accepted n

def unknownRoute : Bytes := text "GET /none HTTP/1.1\r\n\r\n"

def knownRoute : Bytes := text "GET / HTTP/1.1\r\nHost: a\r\n\r\n"

theorem requestOf_unknownRoute :
    requestOf unknownRoute = some (some ⟨.get, text "/none", .v11, fun _ => none, []⟩) := by
  have hline : requestLine (cutLine unknownRoute).1 = some (.get, text "/none") := by decide
  have hcut : cutHeaders (cutLine unknownRoute).2 = ([], []) := cutHeaders_nil (by decide)
  simp only [requestOf, hline, hcut]
  rfl

theorem requestOf_knownRoute : requestOf knownRoute = some (some ((Request.mk .get (text "/") .v11 (fun _ => none) []).emplace
    (text "host") (text "a"))) := by
  have hline : requestLine (cutLine knownRoute).1 = some (.get, text "/") := by decide
  have hrest : (cutLine knownRoute).2 = text "Host: a" ++ (crlf ++ (crlf ++ [])) := by decide
  have hcut : cutHeaders (cutLine knownRoute).2 = ([text "Host: a"], []) := by
    rw [hrest, cutHeaders_singleton (by decide +kernel) (by decide)]
  have hround : ∀ p : Progress, p.round (text "Host: a") =
      .continue { p with request := p.request.emplace (text "host") (text "a") } := by
    intro p
    rw [round_eq p (by decide), if_neg (by decide +kernel), if_neg (by decide +kernel)]
    have hname : nameOf (text "Host: a") = text "host" := by decide +kernel
    have hvalue : valueOf (text "Host: a") = text "a" := by decide +kernel
    have hother : ¬ text "host" = text "transfer-encoding" := by decide
    simp only [hname, hvalue, hother, decide_false, Bool.false_and, Bool.or_false]
  simp only [requestOf, hline, hcut, Progress.rounds, hround]
  rfl

theorem readAll_brings {stream : Bytes} (h : stream.length ≤ 4096) (hne : stream ≠ []) :
    (readAll ⟨stream, h⟩).Brings stream := by
  refine ⟨?_, fun _ _ _ => rfl⟩
  have hd : Delivers (reads [⟨stream, h⟩]) [stream].flatten :=
    reads_delivers fun c hc => by rwa [List.mem_singleton.mp hc]
  rwa [List.flatten_singleton] at hd

/-- The first request has no route, and its descriptor stays open. -/
theorem executor_answers_two :
    ∃ w, executor counting 100 100 [some (readAll ⟨unknownRoute, by decide⟩), none, some (readAll ⟨knownRoute, by decide⟩)]
        (.start (fun _ => 0) (fun _ => 0) ⟨.get, [], .v11, fun _ => none, []⟩ 7) = some w ∧
      w.kept = 8 ∧ w.replies = [none, some (text "HTTP/1.1 200 \r\n\r\n" ++ [7])] ∧ w.opened = [0] := by
  have hstreams : List.Forall₂ (fun (c : Connection) stream => c.Brings stream ∧ stream.length < 100 ∧ stream.length < 100)
      [some (readAll ⟨unknownRoute, by decide⟩), none, some (readAll ⟨knownRoute, by decide⟩)].reduceOption
      [unknownRoute, knownRoute] :=
    .cons ⟨readAll_brings (by decide) (by decide), by decide, by decide⟩
      (.cons ⟨readAll_brings (by decide) (by decide), by decide, by decide⟩ .nil)
  have hanswers : answers counting 7 [unknownRoute, knownRoute] =
      some ([none, some (text "HTTP/1.1 200 \r\n\r\n" ++ [7])], 8) := by
    simp only [answers, answer, requestOf_unknownRoute, requestOf_knownRoute]
    rfl
  have hrun := executor_answers counting hstreams (fun _ => 0) (fun _ => 0) ⟨.get, [], .v11, fun _ => none, []⟩ 7
  rw [hanswers] at hrun
  exact hrun

end Dwhbll.Network.HttpServer
