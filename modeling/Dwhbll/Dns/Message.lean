import Dwhbll.Dns.Stream

/-!
# Names and messages of `network/dns/dns.cpp`

The enumerations have `int` for their underlying type and take whatever comes from the wire, so their
values, and those of the `std::int8_t` `z`, are integers; `UInt16.ofInt` is their conversion to
`std::uint16_t`. The loops whose end depends on the bytes take a number of iterations, `fuel`.
-/

namespace Dwhbll.Network.Dns

open Collections MemoryStream

/-! ## Names -/

structure Domain where
  labels : List (List UInt8) := []
  deriving DecidableEq, Repr

namespace Domain

/-- A length byte that is the first of the two of a compression pointer. -/
def isPointer (size : UInt8) : Bool := size &&& 0xC0 == 0xC0

/-- The offset that the two bytes of a pointer give. -/
def target (size sbyte : UInt8) : Nat := ((size &&& 0x3F).toNat <<< 8 &&& 0xFF00) ||| sbyte.toNat

/-- The bytes of a label. -/
def label (data : Collections.Ring UInt8) (head : Nat) : Nat → Option (List UInt8)
  | 0 => some []
  | n + 1 =>
      match data.get? head with
      | none => none
      | some c => (label data (head + 1) n).map (c :: ·)

/-- The loop of `unpack`: the labels, and what `current_head` is set to. `after` is what it was set to
at the first pointer, if there was one. -/
def unpackLoop (data : Collections.Ring UInt8) :
    (fuel head : Nat) → (after : Option Nat) → (labels : List (List UInt8)) → Outcome (Domain × Nat)
  | 0, _, _, _ => .running
  | fuel + 1, head, after, labels => do
      let size ← Outcome.ofOption (data.get? head)
      if size = 0 then return (⟨labels ++ [[]]⟩, after.getD (head + 1))
      else if isPointer size then
        let sbyte ← Outcome.ofOption (data.get? (head + 1))
        unpackLoop data fuel (target size sbyte) (some (after.getD (head + 2))) labels
      else
        let bytes ← Outcome.ofOption (label data (head + 1) size.toNat)
        unpackLoop data fuel (head + 1 + size.toNat) after (labels ++ [bytes])

def unpack (fuel : Nat) : Unpack Domain := fun s => do
  let (domain, head) ← unpackLoop s.data fuel s.currentHead none []
  return (domain, { s with currentHead := head })

/-- The length byte and the bytes of a label, cut off behind 63. -/
def packLabel (mem : Nat → UInt8) (lab : List UInt8) (s : MemoryStream) : MemoryStream :=
  if lab.length > 63 then
    let lab := lab.take 63
    (s.writeUint8 mem (UInt8.ofNat lab.length)).writeBytes mem lab
  else (s.writeUint8 mem (UInt8.ofNat lab.length)).writeBytes mem lab

def packLabels (mem : Nat → UInt8) : List (List UInt8) → MemoryStream → MemoryStream
  | [], s => s
  | lab :: labels, s =>
      if lab = [] then s.writeUint8 mem 0
      else packLabels mem labels (packLabel mem lab s)

def pack (mem : Nat → UInt8) (domain : Domain) (s : MemoryStream) : MemoryStream :=
  packLabels mem domain.labels s

end Domain

/-! ## Resource records -/

namespace QTYPE

def A : Int := 1
def NS : Int := 2
def MD : Int := 3
def MF : Int := 4
def CNAME : Int := 5
def SOA : Int := 6
def MB : Int := 7
def MG : Int := 8
def MR : Int := 9
def NUL : Int := 10
def WKS : Int := 11
def PTR : Int := 12
def HINFO : Int := 13
def MINFO : Int := 14
def MX : Int := 15
def TXT : Int := 16

/-- The types whose data are a name. -/
def ofDomain : List Int := [CNAME, MB, MD, MF, MG, MR, PTR, NS]

end QTYPE

inductive RData where
  | a (address : UInt32)
  | domain (name : Domain)
  | hinfo (cpu os : List UInt8)
  | mx (preference : Int16) (exchange : Domain)
  | minfo (rmailbx emailbx : Domain)
  | txt (txt : List (List UInt8))
  | soa (mname rname : Domain) (serial : UInt32) (refresh retry expire minimum : Int32)
  | wks (address : Int32) (protocol : Int8) (map : List Bool)
  | nul (data : List UInt8)
  | monostate
  deriving DecidableEq

namespace RData

/-- A length byte and as many bytes. -/
def getString : Unpack (List UInt8) := do
  let size ← getUint8
  getBytes size.toNat

/-- The loop over the strings of a TXT record; `eaten` counts their bytes without the length bytes. -/
def txtLoop (rdlength : UInt16) : (fuel eaten : Nat) → (strings : List (List UInt8)) → Unpack (List (List UInt8))
  | 0, _, _ => fun _ => .running
  | fuel + 1, eaten, strings => do
      if eaten < rdlength.toNat then
        let size ← getUint8
        let r ← getBytes size.toNat
        txtLoop rdlength fuel (eaten + size.toNat) (strings ++ [r])
      else return strings

/-- The bits of a byte, the most significant first. -/
def bits (b : UInt8) : List Bool := (List.range 8).map fun i => (b <<< UInt8.ofNat i) &&& 0x80 != 0

/-- `reserve(8 * (rdlength - 5))`, with a negative number taken as a `std::size_t`. -/
def reserveMap (rdlength : UInt16) : Unpack Unit := fun s =>
  if rdlength.toNat < 5 then .lengthError else .done ((), s)

def unpack (fuel : Nat) (type : Int) (rdlength : UInt16) : Unpack RData := do
  if type ∈ QTYPE.ofDomain then
    return .domain (← Domain.unpack fuel)
  else if type = QTYPE.A then
    return .a (← getUint32)
  else if type = QTYPE.SOA then
    let mname ← Domain.unpack fuel
    let rname ← Domain.unpack fuel
    let serial ← getUint32
    let refresh ← getUint32
    let retry ← getUint32
    let expire ← getUint32
    let minimum ← getUint32
    return .soa mname rname serial refresh.toInt32 retry.toInt32 expire.toInt32 minimum.toInt32
  else if type = QTYPE.HINFO then
    let cpu ← getString
    let os ← getString
    return .hinfo cpu os
  else if type = QTYPE.MINFO then
    let rmailbx ← Domain.unpack fuel
    let emailbx ← Domain.unpack fuel
    return .minfo rmailbx emailbx
  else if type = QTYPE.MX then
    let preference ← getUint16
    let exchange ← Domain.unpack fuel
    return .mx preference.toInt16 exchange
  else if type = QTYPE.NUL then
    return .nul (← getBytes rdlength.toNat)
  else if type = QTYPE.TXT then
    return .txt (← txtLoop rdlength fuel 0 [])
  else if type = QTYPE.WKS then
    let address ← getUint32
    let protocol ← getUint8
    reserveMap rdlength
    -- As many bytes as the whole of the data has, though five of them are read already.
    let bytes ← getBytes rdlength.toNat
    return .wks address.toInt32 protocol.toInt8 (bytes.flatMap bits)
  else
    let _ ← getBytes rdlength.toNat
    return .monostate

end RData

structure ResourceRecord where
  name : Domain
  type : Int
  clazz : Int
  ttl : Int32
  rdlength : UInt16
  rdata : RData
  deriving DecidableEq

namespace ResourceRecord

def unpack (fuel : Nat) : Unpack ResourceRecord := do
  let name ← Domain.unpack fuel
  let type ← getUint16
  let clazz ← getUint16
  let ttl ← getUint32
  let rdlength ← getUint16
  let rdata ← RData.unpack fuel type.toNat rdlength
  return ⟨name, type.toNat, clazz.toNat, ttl.toInt32, rdlength, rdata⟩

/-- Packing of resource records is not supported. -/
def pack (_ : ResourceRecord) : Pack := fun _ => .terminated

end ResourceRecord

/-! ## Messages -/

structure MessageHeader where
  id : UInt16
  qr : Bool
  opcode : Int
  aa : Bool
  tc : Bool
  rd : Bool
  ra : Bool
  z : Int
  rcode : Int
  qdcount : UInt16
  ancount : UInt16
  nscount : UInt16
  arcount : UInt16
  deriving DecidableEq, Repr

namespace MessageHeader

def unpack : Unpack MessageHeader := do
  let id ← getUint16
  let b2 ← getUint16
  let qdcount ← getUint16
  let ancount ← getUint16
  let nscount ← getUint16
  let arcount ← getUint16
  return {
    id
    qr := b2 >>> 15 &&& 0x1 != 0
    opcode := (b2 >>> 11 &&& 0xF).toNat
    aa := b2 >>> 10 &&& 0x1 != 0
    tc := b2 >>> 9 &&& 0x1 != 0
    rd := b2 >>> 8 &&& 0x1 != 0
    ra := b2 >>> 7 &&& 0x1 != 0
    z := (b2 >>> 4 &&& 0x7).toNat
    rcode := (b2 &&& 0xF).toNat
    qdcount, ancount, nscount, arcount }

/-- The second word of the header. -/
def b2 (h : MessageHeader) : UInt16 :=
  let b2 := h.qr.toUInt16 <<< 15
  let b2 := b2 ||| UInt16.ofInt h.opcode <<< 11
  let b2 := b2 ||| h.aa.toUInt16 <<< 10
  let b2 := b2 ||| h.tc.toUInt16 <<< 9
  let b2 := b2 ||| h.rd.toUInt16 <<< 8
  let b2 := b2 ||| h.ra.toUInt16 <<< 7
  let b2 := b2 ||| UInt16.ofInt h.z <<< 4
  b2 ||| UInt16.ofInt h.rcode

def pack (mem : Nat → UInt8) (h : MessageHeader) (s : MemoryStream) : MemoryStream :=
  let s := s.writeUint16 mem h.id
  let s := s.writeUint16 mem h.b2
  let s := s.writeUint16 mem h.qdcount
  let s := s.writeUint16 mem h.ancount
  let s := s.writeUint16 mem h.nscount
  s.writeUint16 mem h.arcount

end MessageHeader

structure MessageQuestion where
  qname : Domain
  type : Int
  clazz : Int
  deriving DecidableEq, Repr

namespace MessageQuestion

def unpack (fuel : Nat) : Unpack MessageQuestion := do
  let qname ← Domain.unpack fuel
  let type ← getUint16
  let clazz ← getUint16
  return ⟨qname, type.toNat, clazz.toNat⟩

def pack (mem : Nat → UInt8) (q : MessageQuestion) : Pack := fun s =>
  let s := q.qname.pack mem s
  let s := s.writeUint16 mem (UInt16.ofInt q.type)
  .done (s.writeUint16 mem (UInt16.ofInt q.clazz))

end MessageQuestion

structure Message where
  header : MessageHeader
  questions : List MessageQuestion
  answers : List ResourceRecord
  authorities : List ResourceRecord
  additionals : List ResourceRecord
  deriving DecidableEq

namespace Message

/-- One `unpack` for each element of a vector of the given size. -/
def unpackAll {α : Type} (unpack : Unpack α) : Nat → Unpack (List α)
  | 0 => return []
  | n + 1 => do
      let a ← unpack
      let as ← unpackAll unpack n
      return a :: as

def unpack (fuel : Nat) : Unpack Message := do
  let header ← MessageHeader.unpack
  let questions ← unpackAll (MessageQuestion.unpack fuel) header.qdcount.toNat
  let answers ← unpackAll (ResourceRecord.unpack fuel) header.ancount.toNat
  let authorities ← unpackAll (ResourceRecord.unpack fuel) header.nscount.toNat
  let additionals ← unpackAll (ResourceRecord.unpack fuel) header.arcount.toNat
  return ⟨header, questions, answers, authorities, additionals⟩

/-- `pack` of the first elements of a vector, as many as the header says. -/
def packAll {α : Type} (pack : α → Pack) : Nat → List α → Pack
  | 0, _ => .done
  | _ + 1, [] => fun _ => .outside
  | n + 1, a :: as => fun s => do
      let s ← pack a s
      packAll pack n as s

def pack (mem : Nat → UInt8) (m : Message) : Pack := fun s => do
  let s := m.header.pack mem s
  let s ← packAll (MessageQuestion.pack mem) m.header.qdcount.toNat m.questions s
  let s ← packAll ResourceRecord.pack m.header.ancount.toNat m.answers s
  let s ← packAll ResourceRecord.pack m.header.nscount.toNat m.authorities s
  packAll ResourceRecord.pack m.header.arcount.toNat m.additionals s

end Message

end Dwhbll.Network.Dns
