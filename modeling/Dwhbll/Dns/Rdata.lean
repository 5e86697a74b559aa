import Dwhbll.Dns.Pointers
import Dwhbll.Dns.Records

/-!
# The data whose length is in the record

`ResourceRecord::unpack` itself reads the data of `TXT` and `WKS` records. Its counter of the bytes eaten leaves the
length bytes of the strings out, and for `WKS` the address and the protocol.
-/

namespace Dwhbll.Network.Dns

open Collections MemoryStream

/-- The strings one behind the other, each behind its length. -/
def characterStrings (strings : List (List UInt8)) : List UInt8 :=
  strings.flatMap fun str => UInt8.ofNat str.length :: str

variable {fuel start : Nat} {s s' : MemoryStream} {rdlength : UInt16} {rdata : List UInt8}

namespace ResourceRecord

/-- At the head of the stream stand a name, compressed or not, the fields of a record and, from `start` on, its data. -/
structure Stands (fuel : Nat) (s : MemoryStream) (type : UInt16) (rdata : List UInt8) (start : Nat) : Prop where
  record : ∃ name clazz ttl head, Domain.unpack fuel s = .done (name, { s with currentHead := head }) ∧
    start = head + 10 ∧ Holds s.data head (Words.bytes type ++ (Words.bytes clazz ++ (Words.bytes32 ttl ++
      (Words.bytes (UInt16.ofNat rdata.length) ++ rdata))))
  length_lt : rdata.length < 2 ^ 16

/-- The record is unpacked with this data, and the next one is read from there. -/
def Reads (fuel : Nat) (s : MemoryStream) (d : RData) (next : Nat) : Prop :=
  ∃ r, unpack fuel s = .done (r, { s with currentHead := next }) ∧ r.rdata = d

theorem Stands.toNat_rdlength {type : UInt16} (h : Stands fuel s type rdata start) :
    (UInt16.ofNat rdata.length).toNat = rdata.length := by
  rw [UInt16.toNat_ofNat', Nat.mod_eq_of_lt h.length_lt]

/-- All depends on how the data are read. -/
theorem Stands.reads_iff {type : UInt16} (h : Stands fuel s type rdata start) {d : RData} {next : Nat} :
    Reads fuel s d next ↔
      RData.unpack fuel type.toNat (UInt16.ofNat rdata.length) { s with currentHead := start } =
        .done (d, { s with currentHead := next }) := by
  obtain ⟨⟨name, clazz, ttl, head, hname, rfl, hholds⟩, -⟩ := h
  obtain ⟨htype, hholds⟩ := holds_append.mp hholds
  obtain ⟨hclazz, hholds⟩ := holds_append.mp hholds
  obtain ⟨httl, hholds⟩ := holds_append.mp hholds
  obtain ⟨hlength, -⟩ := holds_append.mp hholds
  have e1 : getUint16 { s with currentHead := head } = .done (type, { s with currentHead := head + 2 }) :=
    Yields.getUint16 type _ htype
  have e2 : getUint16 { s with currentHead := head + 2 } = .done (clazz, { s with currentHead := head + 4 }) :=
    Yields.getUint16 clazz { s with currentHead := head + 2 } hclazz
  have e3 : getUint32 { s with currentHead := head + 4 } = .done (ttl, { s with currentHead := head + 8 }) :=
    Yields.getUint32 ttl { s with currentHead := head + 4 } httl
  have e4 : getUint16 { s with currentHead := head + 8 } =
      .done (UInt16.ofNat rdata.length, { s with currentHead := head + 10 }) :=
    Yields.getUint16 _ { s with currentHead := head + 8 } hlength
  have hunpack : unpack fuel s = (do
      let d ← RData.unpack fuel type.toNat (UInt16.ofNat rdata.length)
      return ⟨name, type.toNat, clazz.toNat, ttl.toInt32, UInt16.ofNat rdata.length, d⟩ : Unpack ResourceRecord)
        { s with currentHead := head + 10 } := by
    rw [unpack, Unpack.bind_of_done hname, Unpack.bind_of_done e1, Unpack.bind_of_done e2, Unpack.bind_of_done e3,
      Unpack.bind_of_done e4]
  rw [Reads, hunpack]
  constructor
  · rintro ⟨r, hr, rfl⟩
    obtain ⟨d, t, hd, h⟩ := Unpack.bind_eq_done hr
    cases h
    exact hd
  · intro hd
    exact ⟨_, Unpack.bind_of_done hd, rfl⟩

end ResourceRecord

/-! ## `TXT` -/

namespace RData

/-- The loop goes on until the strings alone are as long as the data should be. -/
theorem txtLoop_eaten {eaten : Nat} {strings out : List (List UInt8)}
    (h : txtLoop rdlength fuel eaten strings s = .done (out, s')) :
    ∃ read, out = strings ++ read ∧ rdlength.toNat ≤ eaten + (read.map List.length).sum := by
  induction fuel generalizing eaten strings s with
  | zero => cases h
  | succ fuel ih =>
      rw [txtLoop] at h
      split at h
      · obtain ⟨size, t₁, -, h⟩ := Unpack.bind_eq_done h
        obtain ⟨str, t₂, hstr, h⟩ := Unpack.bind_eq_done h
        obtain ⟨read, rfl, hle⟩ := ih h
        have hlen : str.length = size.toNat := getBytes_length hstr
        refine ⟨str :: read, by simp, ?_⟩
        rw [List.map_cons, List.sum_cons, hlen]
        omega
      · cases h
        exact ⟨[], by simp, by simp; omega⟩

theorem unpack_txt (fuel : Nat) (rdlength : UInt16) :
    unpack fuel QTYPE.TXT rdlength = do return .txt (← txtLoop rdlength fuel 0 []) := by
  rw [unpack, if_neg (by decide), if_neg (by decide), if_neg (by decide), if_neg (by decide), if_neg (by decide),
    if_neg (by decide), if_neg (by decide), if_pos rfl]

/-! ## `WKS` -/

/-- The map has the bits of as many bytes as the whole of the data. -/
theorem unpack_wks {d : RData} (h : unpack fuel QTYPE.WKS rdlength s = .done (d, s')) :
    ∃ (address : Int32) (protocol : Int8) (bytes : List UInt8),
      bytes.length = rdlength.toNat ∧ d = .wks address protocol (bytes.flatMap bits) := by
  rw [unpack, if_neg (by decide), if_neg (by decide), if_neg (by decide), if_neg (by decide), if_neg (by decide),
    if_neg (by decide), if_neg (by decide), if_neg (by decide), if_pos rfl] at h
  obtain ⟨address, t₁, -, h⟩ := Unpack.bind_eq_done h
  obtain ⟨protocol, t₂, -, h⟩ := Unpack.bind_eq_done h
  obtain ⟨_, t₃, -, h⟩ := Unpack.bind_eq_done h
  obtain ⟨bytes, t₄, hbytes, h⟩ := Unpack.bind_eq_done h
  cases h
  exact ⟨_, _, bytes, getBytes_length hbytes, rfl⟩

theorem length_bits (b : UInt8) : (bits b).length = 8 := by
  rw [bits, List.length_map, List.length_range]

theorem length_flatMap_bits (bs : List UInt8) : (bs.flatMap bits).length = 8 * bs.length := by
  induction bs with
  | nil => rfl
  | cons b bs ih =>
      rw [List.flatMap_cons, List.length_append, length_bits, ih, List.length_cons]
      omega

end RData

/-! ## What is read -/

open ResourceRecord

theorem length_characterStrings (strings : List (List UInt8)) :
    (characterStrings strings).length = (strings.map List.length).sum + strings.length := by
  induction strings with
  | nil => rfl
  | cons str strings ih =>
      rw [characterStrings, List.flatMap_cons, List.length_append, ← characterStrings, ih, List.map_cons, List.sum_cons,
        List.length_cons, List.length_cons]
      omega

/-- Only a `TXT` record without strings is read as it is, and never a `WKS` record. -/
theorem unpack_rdata_iff (fuel : Nat) (s : MemoryStream) (start : Nat) :
    (∀ strings, Stands fuel s 16 (characterStrings strings) start →
      (Reads fuel s (.txt strings) (start + (characterStrings strings).length) ↔ strings = [])) ∧
      ∀ address protocol map, Stands fuel s 11 (Words.bytes32 address ++ protocol :: map) start →
        ¬ Reads fuel s (.wks address.toInt32 protocol.toInt8 (map.flatMap RData.bits)) (start + 5 + map.length) := by
  constructor
  · intro strings h
    have hrdlength := h.toNat_rdlength
    rw [h.reads_iff]
    constructor
    · intro hdata
      obtain ⟨out, t, hloop, hout⟩ := Unpack.bind_eq_done ((RData.unpack_txt fuel _) ▸ hdata)
      cases hout
      obtain ⟨read, hread, hle⟩ := RData.txtLoop_eaten hloop
      rw [List.nil_append] at hread
      subst hread
      rw [hrdlength, length_characterStrings, Nat.zero_add] at hle
      exact List.eq_nil_of_length_eq_zero (by omega)
    · rintro rfl
      obtain ⟨name, clazz, ttl, head, hname, -⟩ := h.record
      cases fuel with
      | zero => cases hname
      | succ fuel => rfl
  · intro address protocol map h hreads
    obtain ⟨address', protocol', bytes, hlength, hwks⟩ := RData.unpack_wks (h.reads_iff.mp hreads)
    rw [h.toNat_rdlength] at hlength
    injection hwks with _ _ hmap
    have hlen := congrArg List.length hmap
    rw [RData.length_flatMap_bits, RData.length_flatMap_bits, hlength, List.length_append, List.length_cons] at hlen
    omega

/-- A record of the root in a message of its own. -/
theorem stands_received {bs : List UInt8} {type : UInt16} (clazz : UInt16) (ttl : UInt32)
    (hbs : Words.bytes type ++ (Words.bytes clazz ++ (Words.bytes32 ttl ++
      (Words.bytes (UInt16.ofNat rdata.length) ++ rdata))) <+: bs) (hlt : rdata.length < 2 ^ 16) :
    Stands (fuel + 1) ⟨Domain.received (0 :: bs), 0⟩ type rdata 11 := by
  refine ⟨⟨⟨[[]]⟩, clazz, ttl, 1, ?_, rfl, ?_⟩, hlt⟩
  · have hzero : (Domain.received (0 :: bs)).get? 0 = some 0 := rfl
    rw [Domain.unpack, Domain.unpackLoop_end hzero]
    rfl
  · have hall : Holds (Domain.received (0 :: bs)) 0 (0 :: bs) :=
      Domain.holds_of_isPrefix rfl (List.prefix_refl (0 :: bs))
    obtain ⟨rest, rfl⟩ := hbs
    exact (holds_append.mp (holds_cons.mp hall).2).1

theorem unpack_rdata_iff_empty :
    Reads 1 ⟨Domain.received [0, 0, 16, 0, 1, 0, 0, 0, 60, 0, 0], 0⟩ (.txt []) 11 :=
  ((unpack_rdata_iff 1 _ 11).1 [] (stands_received 1 60 ⟨[], rfl⟩ (by decide))).mpr rfl

/-- A `TXT` record of the string `a`, with three more bytes behind their number. -/
def txtBytes : List UInt8 := [0, 0, 16, 0, 1, 0, 0, 0, 60, 0, 2, 1, 97, 3, 98, 99, 100]

/-- The bytes behind the record are read for a second string. -/
theorem txt_reads_on :
    Stands 3 ⟨Domain.received txtBytes, 0⟩ 16 (characterStrings [[97]]) 11 ∧
      ResourceRecord.unpack 3 ⟨Domain.received txtBytes, 0⟩ =
        .done (⟨⟨[[]]⟩, QTYPE.TXT, 1, 60, 2, .txt [[97], [98, 99, 100]]⟩, ⟨Domain.received txtBytes, 17⟩) ∧
      ¬ Reads 3 ⟨Domain.received txtBytes, 0⟩ (.txt [[97]]) 13 := by
  have hunpack : ResourceRecord.unpack 3 ⟨Domain.received txtBytes, 0⟩ =
      .done (⟨⟨[[]]⟩, QTYPE.TXT, 1, 60, 2, .txt [[97], [98, 99, 100]]⟩, ⟨Domain.received txtBytes, 17⟩) := by
    decide +kernel
  refine ⟨stands_received 1 60 ⟨[3, 98, 99, 100], rfl⟩ (by decide), hunpack, ?_⟩
  rintro ⟨r, hr, hd⟩
  cases hunpack.symm.trans hr

end Dwhbll.Network.Dns
