import Dwhbll.Dns.Compression
import Dwhbll.Dns.Lemmas.Header

/-!
# Messages with resource records

What a whole message stands for (RFC 1035, 4), as a relation on its bytes. Its names may be compressed in any way. The
records may have any type but `TXT` and `WKS`, whose data are not read as they are, and their data are as long as they say.
-/

namespace Dwhbll.Network.Dns

open Collections MemoryStream

/-! ## The format -/

/-- These bytes stand at `i`. -/
def At (bs : List UInt8) (i : Nat) (piece : List UInt8) : Prop := piece <+: bs.drop i

instance (bs : List UInt8) (i : Nat) (piece : List UInt8) : Decidable (At bs i piece) :=
  inferInstanceAs (Decidable (piece <+: bs.drop i))

/-- The name at `i`, and what is behind it. -/
def NameAt (bs : List UInt8) (i : Nat) (d : Domain) (next : Nat) : Prop :=
  ∃ labels, Domain.Expands bs i labels next ∧ d = ⟨labels ++ [[]]⟩

namespace QTYPE

/-- The types whose data have a form. -/
def known : List Int := ofDomain ++ [A, SOA, HINFO, MINFO, MX, NUL, TXT, WKS]

end QTYPE

/-- The data of a record of the given type, from `i` on, and what is behind them. -/
inductive DataAt (bs : List UInt8) (i : Nat) : (type : Int) → RData → (next : Nat) → Prop where
  | a {address : UInt32} : At bs i (Words.bytes32 address) → DataAt bs i QTYPE.A (.a address) (i + 4)
  | domain {type : Int} {name : Domain} {next : Nat} :
      type ∈ QTYPE.ofDomain → NameAt bs i name next → DataAt bs i type (.domain name) next
  | hinfo {cpu os : List UInt8} :
      cpu.length < 256 → os.length < 256 →
      At bs i ((UInt8.ofNat cpu.length :: cpu) ++ (UInt8.ofNat os.length :: os)) →
      DataAt bs i QTYPE.HINFO (.hinfo cpu os)
        (i + ((UInt8.ofNat cpu.length :: cpu) ++ (UInt8.ofNat os.length :: os)).length)
  | mx {preference : UInt16} {exchange : Domain} {next : Nat} :
      At bs i (Words.bytes preference) → NameAt bs (i + 2) exchange next →
      DataAt bs i QTYPE.MX (.mx preference.toInt16 exchange) next
  | minfo {rmailbx emailbx : Domain} {j next : Nat} :
      NameAt bs i rmailbx j → NameAt bs j emailbx next → DataAt bs i QTYPE.MINFO (.minfo rmailbx emailbx) next
  | soa {mname rname : Domain} {serial refresh retry expire minimum : UInt32} {j k : Nat} :
      NameAt bs i mname j → NameAt bs j rname k →
      At bs k ([serial, refresh, retry, expire, minimum].flatMap Words.bytes32) →
      DataAt bs i QTYPE.SOA
        (.soa mname rname serial refresh.toInt32 retry.toInt32 expire.toInt32 minimum.toInt32) (k + 20)
  | nul {data : List UInt8} : At bs i data → DataAt bs i QTYPE.NUL (.nul data) (i + data.length)
  | other {type : Int} {data : List UInt8} :
      type ∉ QTYPE.known → At bs i data → DataAt bs i type .monostate (i + data.length)

inductive QuestionAt (bs : List UInt8) (i : Nat) : MessageQuestion → (next : Nat) → Prop where
  | mk {qname : Domain} {type clazz : UInt16} {j : Nat} :
      NameAt bs i qname j → At bs j (Words.bytes type ++ Words.bytes clazz) →
      QuestionAt bs i ⟨qname, type.toNat, clazz.toNat⟩ (j + 4)

/-- Behind its data a record ends. -/
inductive RecordAt (bs : List UInt8) (i : Nat) : ResourceRecord → (next : Nat) → Prop where
  | mk {name : Domain} {type clazz rdlength : UInt16} {ttl : UInt32} {rdata : RData} {j : Nat} :
      NameAt bs i name j →
      At bs j (Words.bytes type ++ (Words.bytes clazz ++ (Words.bytes32 ttl ++ Words.bytes rdlength))) →
      DataAt bs (j + 10) type.toNat rdata (j + 10 + rdlength.toNat) →
      RecordAt bs i ⟨name, type.toNat, clazz.toNat, ttl.toInt32, rdlength, rdata⟩ (j + 10 + rdlength.toNat)

/-- One behind the other. -/
inductive AllAt {α : Type} (P : Nat → α → Nat → Prop) : (i : Nat) → List α → (next : Nat) → Prop where
  | nil {i : Nat} : AllAt P i [] i
  | cons {i j next : Nat} {a : α} {as : List α} : P i a j → AllAt P j as next → AllAt P i (a :: as) next

/-- The header has the numbers of the four sections behind it. -/
structure MessageAt (bs : List UInt8) (m : Message) : Prop where
  header : At bs 0 m.header.format ∧ m.header.Fits
  counts : m.header.qdcount.toNat = m.questions.length ∧ m.header.ancount.toNat = m.answers.length ∧
    m.header.nscount.toNat = m.authorities.length ∧ m.header.arcount.toNat = m.additionals.length
  sections : ∃ i j k next, AllAt (QuestionAt bs) 12 m.questions i ∧ AllAt (RecordAt bs) i m.answers j ∧
    AllAt (RecordAt bs) j m.authorities k ∧ AllAt (RecordAt bs) k m.additionals next

/-! ## Reading at a place -/

/-- With enough iterations the call reads this from `i` on and moves behind it. -/
def ReadsAt {α : Type} (unpack : Nat → Unpack α) (data : Collections.Ring UInt8) (i : Nat) (a : α) (next : Nat) : Prop :=
  ∃ n, ∀ fuel ≥ n, unpack fuel ⟨data, i⟩ = .done (a, ⟨data, next⟩)

variable {α β : Type} {data : Collections.Ring UInt8} {bs piece : List UInt8} {i j next : Nat} {a : α} {b : β}
  {unpack : Nat → Unpack α}

theorem At.holds (h : At bs i piece) (hbuf : Holds data 0 bs) : Holds data i piece := by
  rw [List.prefix_iff_eq_take.mp h]
  exact Domain.holds_drop_take hbuf piece.length

theorem at_append {piece' : List UInt8} : At bs i (piece ++ piece') ↔ At bs i piece ∧ At bs (i + piece.length) piece' := by
  constructor
  · rintro ⟨rest, hrest⟩
    rw [List.append_assoc] at hrest
    exact ⟨⟨_, hrest⟩, rest, (Lists.drop_add_of_drop hrest.symm).symm⟩
  · rintro ⟨⟨rest, hrest⟩, rest', hrest'⟩
    rw [Lists.drop_add_of_drop hrest.symm] at hrest'
    exact ⟨rest', by rw [List.append_assoc, hrest', hrest]⟩

theorem ReadsAt.pure : ReadsAt (fun _ => Pure.pure a) data i a i := ⟨0, fun _ _ => rfl⟩

theorem ReadsAt.bind {f : Nat → α → Unpack β} (h : ReadsAt unpack data i a j)
    (hf : ReadsAt (fun fuel => f fuel a) data j b next) : ReadsAt (fun fuel => unpack fuel >>= f fuel) data i b next := by
  obtain ⟨m, hm⟩ := h
  obtain ⟨n, hn⟩ := hf
  refine ⟨max m n, fun fuel hfuel => ?_⟩
  have hfirst := hm fuel (Nat.le_trans (Nat.le_max_left m n) hfuel)
  exact (Unpack.bind_of_done hfirst).trans (hn fuel (Nat.le_trans (Nat.le_max_right m n) hfuel))

/-- Reading known bytes. -/
theorem ReadsAt.yields {call : Unpack α} (hbuf : Holds data 0 bs) (hy : Yields call piece a) (h : At bs i piece) :
    ReadsAt (fun _ => call) data i a (i + piece.length) :=
  ⟨0, fun _ _ => hy ⟨data, i⟩ (h.holds hbuf)⟩

theorem ReadsAt.name {d : Domain} (hbuf : Holds data 0 bs) (h : NameAt bs i d next) : ReadsAt Domain.unpack data i d next := by
  obtain ⟨labels, hexpands, rfl⟩ := h
  exact hexpands.unpack (s := ⟨data, i⟩) hbuf

theorem ReadsAt.all {P : Nat → α → Nat → Prop} {as : List α} (hread : ∀ i a next, P i a next → ReadsAt unpack data i a next)
    (h : AllAt P i as next) : ReadsAt (fun fuel => Message.unpackAll (unpack fuel) as.length) data i as next := by
  induction h with
  | nil => exact .pure
  | cons ha _ ih => exact (hread _ _ _ ha).bind (ih.bind .pure)

/-! ## The data of a record -/

theorem ReadsAt.string {str : List UInt8} (hbuf : Holds data 0 bs) (hlt : str.length < 256)
    (h : At bs i (UInt8.ofNat str.length :: str)) :
    ReadsAt (fun _ => RData.getString) data i str (i + (UInt8.ofNat str.length :: str).length) := by
  have hlength : (UInt8.ofNat str.length).toNat = str.length := by rw [UInt8.toNat_ofNat', Nat.mod_eq_of_lt hlt]
  have hbytes := Yields.getBytes str
  rw [← hlength] at hbytes
  exact .yields hbuf ((Yields.getUint8 _).bind hbytes) h

theorem ReadsAt.word {v : UInt16} (hbuf : Holds data 0 bs) (h : At bs i (Words.bytes v)) :
    ReadsAt (fun _ => getUint16) data i v (i + 2) := .yields hbuf (Yields.getUint16 v) h

theorem ReadsAt.word32 {v : UInt32} (hbuf : Holds data 0 bs) (h : At bs i (Words.bytes32 v)) :
    ReadsAt (fun _ => getUint32) data i v (i + 4) := .yields hbuf (Yields.getUint32 v) h

variable {type : Int} {rdlength : UInt16} {rdata : RData}

/-- The data of a record are read as they are, if they are as long as the record says. -/
theorem DataAt.reads (hbuf : Holds data 0 bs) (h : DataAt bs i type rdata next) (hnext : next = i + rdlength.toNat) :
    ReadsAt (fun fuel => RData.unpack fuel type rdlength) data i rdata next := by
  cases h with
  | a h => exact (ReadsAt.word32 hbuf h).bind .pure
  | domain htype h =>
      have heq : ∀ fuel, RData.unpack fuel type rdlength = do return .domain (← Domain.unpack fuel) := fun fuel => by
        rw [RData.unpack, if_pos htype]
      simp only [heq]
      exact (ReadsAt.name hbuf h).bind .pure
  | hinfo hcpu hos h =>
      obtain ⟨h1, h2⟩ := at_append.mp h
      have hread : ReadsAt (fun _ => RData.getString) data _ _ _ := ReadsAt.string hbuf hos h2
      rw [Nat.add_assoc, ← List.length_append] at hread
      exact (ReadsAt.string hbuf hcpu h1).bind (hread.bind .pure)
  | mx h1 h2 => exact (ReadsAt.word hbuf h1).bind ((ReadsAt.name hbuf h2).bind .pure)
  | minfo h1 h2 => exact (ReadsAt.name hbuf h1).bind ((ReadsAt.name hbuf h2).bind .pure)
  | soa h1 h2 h =>
      simp only [List.flatMap_cons, List.flatMap_nil, List.append_nil] at h
      obtain ⟨hserial, h⟩ := at_append.mp h
      obtain ⟨hrefresh, h⟩ := at_append.mp h
      obtain ⟨hretry, h⟩ := at_append.mp h
      obtain ⟨hexpire, hminimum⟩ := at_append.mp h
      exact (ReadsAt.name hbuf h1).bind ((ReadsAt.name hbuf h2).bind ((ReadsAt.word32 hbuf hserial).bind
        ((ReadsAt.word32 hbuf hrefresh).bind ((ReadsAt.word32 hbuf hretry).bind ((ReadsAt.word32 hbuf hexpire).bind
          ((ReadsAt.word32 hbuf hminimum).bind .pure))))))
  | nul h =>
      have hread := ReadsAt.yields hbuf (Yields.getBytes _) h
      rw [Nat.add_left_cancel hnext] at hread
      rw [hnext]
      exact hread.bind .pure
  | other htype h =>
      have heq : ∀ fuel, RData.unpack fuel type rdlength = do
          let _ ← getBytes rdlength.toNat
          return .monostate := fun fuel => by
        simp only [QTYPE.known, List.mem_append, List.mem_cons, List.not_mem_nil, or_false, not_or] at htype
        obtain ⟨hdomain, ha, hsoa, hhinfo, hminfo, hmx, hnul, htxt, hwks⟩ := htype
        rw [RData.unpack, if_neg hdomain, if_neg ha, if_neg hsoa, if_neg hhinfo, if_neg hminfo, if_neg hmx, if_neg hnul,
          if_neg htxt, if_neg hwks]
      have hread := ReadsAt.yields hbuf (Yields.getBytes _) h
      rw [Nat.add_left_cancel hnext] at hread
      rw [hnext]
      simp only [heq]
      exact hread.bind .pure

/-! ## Messages -/

theorem QuestionAt.reads {q : MessageQuestion} (hbuf : Holds data 0 bs) (h : QuestionAt bs i q next) :
    ReadsAt MessageQuestion.unpack data i q next := by
  cases h with
  | mk hname h =>
      obtain ⟨htype, hclazz⟩ := at_append.mp h
      exact (ReadsAt.name hbuf hname).bind ((ReadsAt.word hbuf htype).bind ((ReadsAt.word hbuf hclazz).bind .pure))

theorem RecordAt.reads {r : ResourceRecord} (hbuf : Holds data 0 bs) (h : RecordAt bs i r next) :
    ReadsAt ResourceRecord.unpack data i r next := by
  cases h with
  | mk hname h hdata =>
      obtain ⟨htype, h⟩ := at_append.mp h
      obtain ⟨hclazz, h⟩ := at_append.mp h
      obtain ⟨httl, hrdlength⟩ := at_append.mp h
      exact (ReadsAt.name hbuf hname).bind ((ReadsAt.word hbuf htype).bind ((ReadsAt.word hbuf hclazz).bind
        ((ReadsAt.word32 hbuf httl).bind ((ReadsAt.word hbuf hrdlength).bind ((hdata.reads hbuf rfl).bind .pure)))))

theorem MessageAt.reads {m : Message} (hbuf : Holds data 0 bs) (h : MessageAt bs m) :
    ∃ next, ReadsAt Message.unpack data 0 m next := by
  obtain ⟨hheader, hfits⟩ := h.header
  obtain ⟨hqd, han, hns, har⟩ := h.counts
  obtain ⟨i, j, k, next, hquestions, hanswers, hauthorities, hadditionals⟩ := h.sections
  have hq := ReadsAt.all (fun _ _ _ => QuestionAt.reads hbuf) hquestions
  have ha := ReadsAt.all (fun _ _ _ => RecordAt.reads hbuf) hanswers
  have hn := ReadsAt.all (fun _ _ _ => RecordAt.reads hbuf) hauthorities
  have hr := ReadsAt.all (fun _ _ _ => RecordAt.reads hbuf) hadditionals
  rw [← hqd] at hq
  rw [← han] at ha
  rw [← hns] at hn
  rw [← har] at hr
  exact ⟨next, (ReadsAt.yields hbuf (MessageHeader.unpack_yields hfits) hheader).bind
    (hq.bind (ha.bind (hn.bind (hr.bind .pure))))⟩

end Dwhbll.Network.Dns
