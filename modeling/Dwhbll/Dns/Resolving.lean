import Dwhbll.Dns.Aliases
import Dwhbll.Dns.Parsing
import Dwhbll.Dns.Query
import Dwhbll.Lib.Searching
import Dwhbll.Ring.Bulk

/-!
# `Resolver::query_dns`

The call asks one server. A server that is not the authority for the name can give the names of others in its authority
section and their addresses in the additional section; each of these is asked by a nested call, in turn, until one has an
address. What the sockets do is given by what has been sent so far.
-/

namespace Dwhbll.Network.Dns.Resolver

open Collections

/-- Where it goes, and what. -/
abbrev Sent := UInt32 × Send

inductive Datagram where
  /-- `connect` fails. -/
  | unconnected
  /-- `recv` returns -1. -/
  | failed
  | received (bs : List UInt8)

inductive Segments where
  | unconnected
  /-- What the two calls of `recv` read. A failed one reads nothing. -/
  | received (length rest : List UInt8)

/-- What the code does not decide, at each point of a run: what stands behind the storage of the rings, and what the
sockets do once this has been sent. -/
structure World where
  behind : List Sent → Behind
  resized : Nat → UInt8
  udp : List Sent → Datagram
  tcp : List Sent → Segments

inductive Failure where
  /-- "Failed to connect to socket" -/
  | runtimeError
  | lengthError
  | badVariantAccess
  | terminated
  | outside
  | running
  deriving DecidableEq, Repr

structure State where
  queryID : UInt16
  sent : List Sent
  deriving DecidableEq

abbrev Query (α : Type) := ExceptT Failure (StateM State) α

def ofOutcome {α : Type} : Outcome α → Except Failure α
  | .done a => .ok a
  | .outside => .error .outside
  | .lengthError => .error .lengthError
  | .terminated => .error .terminated
  | .running => .error .running

def Failure.ofFault : Fault → Failure
  | .outside => .outside
  | .badVariantAccess => .badVariantAccess
  | .running => .running

/-! ## One question -/

/-- `recv` into a vector, which it does not resize. -/
def recvInto (bs cells : List UInt8) : List UInt8 := bs.take cells.length ++ cells.drop bs.length

/-- The stream of a datagram. -/
def datagramStream (mem : Nat → UInt8) (bs : List UInt8) : MemoryStream :=
  let data := ({} : MemoryStream).data.resizeTo mem 512
  let bufSize := (bs.take data.data.length).length
  let data := { data with data := recvInto bs data.data }
  { data := data.used mem bufSize }

/-- The length in front of a message over TCP. The masks take away what the signs of the two `char` have added. -/
def segmentSize (bs : List UInt8) : UInt16 :=
  let buf := recvInto bs [0, 0]
  ((buf.getD 0 0).toUInt16 <<< 8 &&& 0xFF00) ||| ((buf.getD 1 0).toUInt16 &&& 0xFF)

def segmentStream (mem : Nat → UInt8) (size : Nat) (bs : List UInt8) : MemoryStream :=
  let data := (({} : MemoryStream).data.resizeTo mem size).used mem size
  { data := { data with data := recvInto bs data.data } }

variable (w : World) (fuel : Nat)

def unpackFrom (stream : MemoryStream) : Except Failure Message :=
  ofOutcome ((Message.unpack fuel stream).bind fun (result, _) => .done result)

def askUdp (addr : UInt32) (bytes : List UInt8) : Query Message := fun s =>
  let sent := s.sent ++ [(addr, .udp bytes)]
  match w.udp sent with
  | .unconnected => (.error .runtimeError, s)
  -- `used` with -1 as a `std::size_t`.
  | .failed => (.error .lengthError, { s with sent })
  | .received bs => (unpackFrom fuel (datagramStream w.resized bs), { s with sent })

def askTcp (addr : UInt32) (bytes : List UInt8) : Query Message := fun s =>
  let sent := s.sent ++ [(addr, .tcp bytes)]
  match w.tcp sent with
  | .unconnected => (.error .runtimeError, s)
  | .received length rest =>
      (unpackFrom fuel (segmentStream w.resized (segmentSize length).toNat rest), { s with sent })

/-- The buffer of the next question. -/
def nextBuffer (domain : Domain) : Query (Collections.Ring UInt8) := fun s =>
  (ofOutcome (queryBuffer (w.behind s.sent) s.queryID domain), { s with queryID := s.queryID + 1 })

/-- The question, over TCP where it is too long for a datagram or the answer over UDP has been cut off. -/
def ask (addr : UInt32) (domain : Domain) : Query Message := do
  let buffer ← nextBuffer w domain
  if buffer.size ≤ 512 then
    let result ← askUdp w fuel addr ((buffer.data.drop 2).take (buffer.size - 2))
    if result.header.tc then askTcp w fuel addr buffer.data else return result
  else askTcp w fuel addr buffer.data

/-! ## The servers in turn -/

/-- Calls in turn, until one has a value. -/
def tryEach {α β : Type} (call : α → Query (Option β)) : List α → Query (Option β)
  | [] => return none
  | a :: as => do
      match ← call a with
      | some b => return some b
      | none => tryEach call as

/-- The loop over the additional records, for the server with the given name. -/
def followAdditionals (recurse : UInt32 → Query (Option UInt32)) (target : Domain) :
    List ResourceRecord → Query (Option UInt32)
  | [] => return none
  | additional :: additionals =>
      if additional.type = QTYPE.A ∧ target = additional.name then
        match additional.rdata with
        | .a address => do
            match ← recurse (htonl address) with
            | some resultAddr => return some resultAddr
            | none => followAdditionals recurse target additionals
        | _ => throw .badVariantAccess
      else followAdditionals recurse target additionals

/-- The loop over the authority records. -/
def followAuthorities (recurse : UInt32 → Query (Option UInt32)) (additionals : List ResourceRecord) :
    List ResourceRecord → Query (Option UInt32)
  | [] => return none
  | authority :: authorities =>
      if authority.type = QTYPE.NS then
        match authority.rdata with
        | .domain target => do
            match ← followAdditionals recurse target additionals with
            | some resultAddr => return some resultAddr
            | none => followAuthorities recurse additionals authorities
        | _ => throw .badVariantAccess
      else followAuthorities recurse additionals authorities

/-- `calls` bounds the number of nested calls, this one included. -/
def queryDns (domain : Domain) : (calls : Nat) → UInt32 → Query (Option UInt32)
  | 0, _ => throw .running
  | calls + 1, addr => do
      let result ← ask w fuel addr domain
      if result.header.aa then
        match getFromMsg result fuel domain with
        | .ok r => return r
        | .error e => throw (Failure.ofFault e)
      else if result.header.nscount = 0 then return none
      else followAuthorities (queryDns domain calls) result.additionals result.authorities

def buildIPV4 (a b c d : UInt32) : UInt32 :=
  let high (x k mask : UInt32) : UInt32 := x <<< k &&& mask
  htonl (high a 24 0xFF000000 ||| high b 16 0xFF0000 ||| high c 8 0xFF00 ||| d &&& 0xFF)

def rootServers : List UInt32 :=
  [buildIPV4 198 41 0 4, buildIPV4 170 247 170 2, buildIPV4 192 33 4 12, buildIPV4 199 7 91 13,
    buildIPV4 192 203 230 10, buildIPV4 192 5 5 241, buildIPV4 192 112 36 4, buildIPV4 198 97 190 53,
    buildIPV4 192 36 148 17, buildIPV4 192 58 128 30, buildIPV4 193 0 14 129, buildIPV4 199 7 83 42,
    buildIPV4 202 12 27 33]

/-- `query_dns` of a text, from the root servers on. -/
def resolve (ct : Tokenizer.CType) (calls : Nat) (domain : List UInt8) : Query (Option UInt32) :=
  tryEach (fun target => queryDns w fuel (Domain.parse ct domain) calls target) rootServers

/-! ## Runs -/

theorem Query.run_bind {α β : Type} (m : Query α) (f : α → Query β) (s : State) :
    (m >>= f) s = match m s with
      | (.ok a, s') => f a s'
      | (.error e, s') => (.error e, s') := by
  simp only [bind, ExceptT.bind, ExceptT.mk, StateT.bind, ExceptT.bindCont]
  rcases m s with ⟨_ | _, _⟩ <;> rfl

/-- The length of the question, with its two bytes of length. -/
theorem nextBuffer_eq (w : World) (domain : Domain) (s : State) :
    ∃ buffer, nextBuffer w domain s = (.ok buffer, { s with queryID := s.queryID + 1 }) ∧
      buffer.size = (Domain.format domain.labels).length + 18 := by
  obtain ⟨stream, hstream, hpacked⟩ := pack_packed (w.behind s.sent).pack s.queryID domain
  have hbuffer : queryBuffer (w.behind s.sent) s.queryID domain = .done (prependLength (w.behind s.sent) stream.data) := by
    rw [queryBuffer, hstream]
    rfl
  have hwf := pushLength_wf (w.behind s.sent) hpacked
  refine ⟨_, by rw [nextBuffer, hbuffer, ofOutcome], ?_⟩
  rw [(prependLength_data _ hwf.1).2, hwf.2, format_length]

section

variable {α β : Type} {call : α → Query (Option β)}

theorem tryEach_nil (s : State) : tryEach call [] s = (.ok none, s) := rfl

theorem tryEach_cons (a : α) (as : List α) (s : State) :
    tryEach call (a :: as) s = match call a s with
      | (.ok (some b), s') => (.ok (some b), s')
      | (.ok none, s') => tryEach call as s'
      | (.error e, s') => (.error e, s') := by
  rw [tryEach, Query.run_bind]
  rcases call a s with ⟨_ | _ | _, _⟩ <;> rfl

theorem tryEach_append (as bs : List α) (s : State) :
    tryEach call (as ++ bs) s = match tryEach call as s with
      | (.ok (some b), s') => (.ok (some b), s')
      | (.ok none, s') => tryEach call bs s'
      | (.error e, s') => (.error e, s') := by
  induction as generalizing s with
  | nil => rfl
  | cons a as ih =>
      rw [List.cons_append, tryEach_cons, tryEach_cons]
      rcases call a s with ⟨_ | _ | _, s'⟩
      · rfl
      · exact ih s'
      · rfl

end

/-! ## Delegations -/

/-- The name of a server, from the authority section. -/
def nameServer (r : ResourceRecord) : Option Domain :=
  match r.rdata with
  | .domain target => if r.type = QTYPE.NS then some target else none
  | _ => none

/-- The address of the server with the given name, from the additional section. -/
def glue (target : Domain) (r : ResourceRecord) : Option UInt32 :=
  match r.rdata with
  | .a address => if r.type = QTYPE.A ∧ target = r.name then some (htonl address) else none
  | _ => none

/-- The servers that a reply refers to, in the order in which they are asked. -/
def delegations (m : Message) : List UInt32 :=
  (m.authorities.filterMap nameServer).flatMap fun target => m.additionals.filterMap (glue target)

end Resolver

theorem ResourceRecord.unpack_ns {fuel : Nat} {s s' : MemoryStream} {r : ResourceRecord}
    (h : unpack fuel s = .done (r, s')) (htype : r.type = QTYPE.NS) : ∃ name, r.rdata = .domain name := by
  obtain ⟨name, t₁, -, h⟩ := Unpack.bind_eq_done h
  obtain ⟨type, t₂, -, h⟩ := Unpack.bind_eq_done h
  obtain ⟨clazz, t₃, -, h⟩ := Unpack.bind_eq_done h
  obtain ⟨ttl, t₄, -, h⟩ := Unpack.bind_eq_done h
  obtain ⟨rdlength, t₅, -, h⟩ := Unpack.bind_eq_done h
  obtain ⟨rdata, t₆, hdata, h⟩ := Unpack.bind_eq_done h
  cases h
  change (type.toNat : Int) = QTYPE.NS at htype
  rw [htype] at hdata
  exact RData.unpack_domain (by decide) hdata

/-- All records of a message that has come from bytes have the data of their type. -/
structure Message.Unpacked (m : Message) : Prop where
  answered : m.Answered
  nscount : m.authorities.length = m.header.nscount.toNat
  authorities : ∀ r ∈ m.authorities, r.type = QTYPE.NS → ∃ name, r.rdata = .domain name
  additionals : ∀ r ∈ m.additionals, r.Typed

theorem Message.unpack_unpacked {fuel : Nat} {s s' : MemoryStream} {m : Message} (h : unpack fuel s = .done (m, s')) :
    m.Unpacked := by
  have hanswered := unpack_answered h
  obtain ⟨header, t₁, -, h⟩ := Unpack.bind_eq_done h
  obtain ⟨questions, t₂, -, h⟩ := Unpack.bind_eq_done h
  obtain ⟨answers, t₃, -, h⟩ := Unpack.bind_eq_done h
  obtain ⟨authorities, t₄, hauthorities, h⟩ := Unpack.bind_eq_done h
  obtain ⟨additionals, t₅, hadditionals, h⟩ := Unpack.bind_eq_done h
  cases h
  obtain ⟨hlen, hns⟩ := unpackAll_forall (fun _ _ _ => ResourceRecord.unpack_ns) hauthorities
  exact ⟨hanswered, hlen, hns, (unpackAll_forall (fun _ _ _ => ResourceRecord.unpack_typed) hadditionals).2⟩

namespace Resolver

variable {recurse : UInt32 → Query (Option UInt32)} {additionals authorities : List ResourceRecord} {m : Message}

theorem followAdditionals_eq (target : Domain) (h : ∀ r ∈ additionals, r.Typed) (s : State) :
    followAdditionals recurse target additionals s = tryEach recurse (additionals.filterMap (glue target)) s := by
  induction additionals generalizing s with
  | nil => rfl
  | cons r additionals ih =>
      obtain ⟨hr, hrest⟩ := List.forall_mem_cons.mp h
      rw [followAdditionals]
      by_cases hc : r.type = QTYPE.A ∧ target = r.name
      · obtain ⟨address, hdata⟩ := hr.a hc.1
        have hglue : glue target r = some (htonl address) := by simp only [glue, hdata, if_pos hc]
        rw [if_pos hc, List.filterMap_cons_some hglue, tryEach_cons]
        simp only [hdata, Query.run_bind]
        rcases recurse (htonl address) s with ⟨_ | _ | _, s'⟩
        · rfl
        · exact ih hrest s'
        · rfl
      · have hglue : glue target r = none := by
          rw [glue]
          split
          · exact if_neg hc
          · rfl
        rw [if_neg hc, List.filterMap_cons_none hglue]
        exact ih hrest s

theorem followAuthorities_eq (hadditionals : ∀ r ∈ additionals, r.Typed)
    (h : ∀ r ∈ authorities, r.type = QTYPE.NS → ∃ name, r.rdata = .domain name) (s : State) :
    followAuthorities recurse additionals authorities s =
      tryEach recurse ((authorities.filterMap nameServer).flatMap fun target => additionals.filterMap (glue target)) s := by
  induction authorities generalizing s with
  | nil => rfl
  | cons r authorities ih =>
      obtain ⟨hr, hrest⟩ := List.forall_mem_cons.mp h
      rw [followAuthorities]
      by_cases hc : r.type = QTYPE.NS
      · obtain ⟨target, hdata⟩ := hr hc
        have hserver : nameServer r = some target := by simp only [nameServer, hdata, if_pos hc]
        rw [if_pos hc, List.filterMap_cons_some hserver, List.flatMap_cons, tryEach_append]
        simp only [hdata, Query.run_bind, followAdditionals_eq target hadditionals]
        rcases tryEach recurse (additionals.filterMap (glue target)) s with ⟨_ | _ | _, s'⟩
        · rfl
        · exact ih hrest s'
        · rfl
      · have hserver : nameServer r = none := by
          rw [nameServer]
          split
          · exact if_neg hc
          · rfl
        rw [if_neg hc, List.filterMap_cons_none hserver]
        exact ih hrest s

end Dwhbll.Network.Dns.Resolver
