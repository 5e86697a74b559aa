import Dwhbll.Dns.Message
import Dwhbll.Lib.Words
import Dwhbll.Ring.Lemmas.Flat

/-!
# The bytes of a message

What `pack` writes, as a list of bytes, and the messages and names that it writes without loss.
-/

namespace Dwhbll.Network.Dns

open Collections

/-! ## Formats -/

namespace Domain

def format : List (List UInt8) → List UInt8
  | [] => []
  | lab :: labels =>
      if lab = [] then [0] else UInt8.ofNat (lab.take 63).length :: (lab.take 63 ++ format labels)

/-- Labels of 1 to 63 bytes followed by the empty label. -/
structure Plain (d : Domain) : Prop where
  last : ∃ ls, d.labels = ls ++ [[]]
  length : ∀ l ∈ d.labels.dropLast, 1 ≤ l.length ∧ l.length ≤ 63

/-- The length bytes that the loop of `unpack` meets, those of pointers included. -/
def lengths (data : Collections.Ring UInt8) : (fuel head : Nat) → List UInt8
  | 0, _ => []
  | fuel + 1, head =>
      match data.get? head with
      | none => []
      | some size =>
          if size = 0 then []
          else if isPointer size then
            size :: match data.get? (head + 1) with
              | none => []
              | some sbyte => lengths data fuel (target size sbyte)
          else size :: lengths data fuel (head + 1 + size.toNat)

end Domain

namespace MessageHeader

def format (h : MessageHeader) : List UInt8 :=
  [h.id, h.b2, h.qdcount, h.ancount, h.nscount, h.arcount].flatMap Words.bytes

/-- The values of the fields fit in their bits. -/
structure Fits (h : MessageHeader) : Prop where
  opcode : 0 ≤ h.opcode ∧ h.opcode < 16
  z : 0 ≤ h.z ∧ h.z ≤ 7
  rcode : 0 ≤ h.rcode ∧ h.rcode < 16

end MessageHeader

namespace MessageQuestion

def format (q : MessageQuestion) : List UInt8 :=
  Domain.format q.qname.labels ++ [UInt16.ofInt q.type, UInt16.ofInt q.clazz].flatMap Words.bytes

structure Fits (q : MessageQuestion) : Prop where
  qname : q.qname.Plain
  type : 0 ≤ q.type ∧ q.type < 2 ^ 16
  clazz : 0 ≤ q.clazz ∧ q.clazz < 2 ^ 16

/-- The length bytes of the names of so many questions. -/
def lengths (fuel : Nat) : Nat → MemoryStream → List UInt8
  | 0, _ => []
  | n + 1, s =>
      Domain.lengths s.data fuel s.currentHead ++
        match unpack fuel s with
        | .done (_, s') => lengths fuel n s'
        | _ => []

end MessageQuestion

namespace Message

def format (m : Message) : List UInt8 := m.header.format ++ m.questions.flatMap MessageQuestion.format

/-- The header announces the questions and no resource record. -/
structure NoRecords (m : Message) : Prop where
  qdcount : m.header.qdcount.toNat = m.questions.length
  ancount : m.header.ancount = 0 ∧ m.answers = []
  nscount : m.header.nscount = 0 ∧ m.authorities = []
  arcount : m.header.arcount = 0 ∧ m.additionals = []

structure Fits (m : Message) : Prop where
  noRecords : m.NoRecords
  header : m.header.Fits
  questions : ∀ q ∈ m.questions, q.Fits

/-- The length bytes that `unpack` meets in the names of the questions. -/
def lengths (fuel : Nat) (s : MemoryStream) : List UInt8 :=
  match MessageHeader.unpack s with
  | .done (h, s') => MessageQuestion.lengths fuel h.qdcount.toNat s'
  | _ => []

end Message

/-! ## `pack` writes the format -/

namespace MemoryStream

variable (mem : Nat → UInt8) (s : MemoryStream)

theorem writeBytes_append (bs cs : List UInt8) :
    s.writeBytes mem (bs ++ cs) = (s.writeBytes mem bs).writeBytes mem cs := List.foldl_append

/-- Bytes written to a stream are behind those that it holds. -/
theorem writeBytes_spec {s : MemoryStream} (h : s.data.Flat) (bs : List UInt8) :
    (s.writeBytes mem bs).data.Flat ∧ (s.writeBytes mem bs).data.toList = s.data.toList ++ bs ∧
      (s.writeBytes mem bs).currentHead = s.currentHead := by
  induction bs generalizing s with
  | nil => exact ⟨h, (List.append_nil _).symm, rfl⟩
  | cons b bs ih =>
      obtain ⟨hf, hl⟩ := h.pushBack mem b
      obtain ⟨h1, h2, h3⟩ := ih (s := s.writeUint8 mem b) hf
      refine ⟨h1, ?_, h3⟩
      rw [show s.data.toList ++ b :: bs = s.data.toList ++ [b] ++ bs by simp, ← hl]
      exact h2

end MemoryStream

theorem Domain.packLabel_eq (mem : Nat → UInt8) (lab : List UInt8) (s : MemoryStream) :
    packLabel mem lab s = s.writeBytes mem (UInt8.ofNat (lab.take 63).length :: lab.take 63) := by
  rw [packLabel]
  split
  · rfl
  · rw [List.take_of_length_le (by omega)]
    rfl

theorem Domain.pack_eq (mem : Nat → UInt8) (d : Domain) (s : MemoryStream) :
    d.pack mem s = s.writeBytes mem (format d.labels) := by
  obtain ⟨labels⟩ := d
  simp only [pack]
  induction labels generalizing s with
  | nil => rfl
  | cons lab labels ih =>
      rw [packLabels, format]
      split
      · rfl
      · rw [ih, packLabel_eq, ← MemoryStream.writeBytes_append]
        rfl

theorem MessageHeader.pack_eq (mem : Nat → UInt8) (h : MessageHeader) (s : MemoryStream) :
    h.pack mem s = s.writeBytes mem h.format := rfl

theorem MessageQuestion.pack_eq (mem : Nat → UInt8) (q : MessageQuestion) (s : MemoryStream) :
    q.pack mem s = .done (s.writeBytes mem q.format) := by
  rw [pack, Domain.pack_eq, format, MemoryStream.writeBytes_append]
  rfl

theorem Message.packAll_questions (mem : Nat → UInt8) (qs : List MessageQuestion) (s : MemoryStream) :
    packAll (MessageQuestion.pack mem) qs.length qs s =
      .done (s.writeBytes mem (qs.flatMap MessageQuestion.format)) := by
  induction qs generalizing s with
  | nil => rfl
  | cons q qs ih =>
      rw [List.flatMap_cons, MemoryStream.writeBytes_append, ← ih, List.length_cons]
      simp only [packAll, MessageQuestion.pack_eq]
      rfl

theorem Message.pack_eq (mem : Nat → UInt8) {m : Message} (h : m.NoRecords) (s : MemoryStream) :
    m.pack mem s = .done (s.writeBytes mem m.format) := by
  simp only [pack, h.qdcount, packAll_questions, h.ancount.1, h.nscount.1, h.arcount.1,
    MessageHeader.pack_eq, format, MemoryStream.writeBytes_append]
  rfl

end Dwhbll.Network.Dns
