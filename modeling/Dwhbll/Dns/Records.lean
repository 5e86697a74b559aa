import Dwhbll.Dns.Lemmas.Name

/-!
# The data of resource records

The records of `ResourceRecordInner` that can be packed as well as unpacked, each with its two functions, and what they
have to do with each other.
-/

namespace Dwhbll.Network.Dns

open Collections MemoryStream

/-! ## Records -/

namespace ResourceRecordInner

structure A where
  address : UInt32
  deriving DecidableEq, Repr

structure DomainRecord where
  name : Domain
  deriving DecidableEq, Repr

structure Hinfo where
  cpu : List UInt8 := []
  os : List UInt8 := []
  deriving DecidableEq, Repr

structure Minfo where
  rmailbx : Domain
  emailbx : Domain
  deriving DecidableEq, Repr

structure Mx where
  preference : Int16
  exchange : Domain
  deriving DecidableEq

structure Soa where
  mname : Domain
  rname : Domain
  serial : UInt32
  refresh : Int32
  retry : Int32
  expire : Int32
  minimum : Int32
  deriving DecidableEq

/-! Only the strings of `HINFO` are appended to what the record holds; the members of the others are assigned to. -/

def A.unpack : Unpack A := do
  let address ← getUint32
  return ⟨address⟩

def DomainRecord.unpack (fuel : Nat) : Unpack DomainRecord := do
  let name ← Domain.unpack fuel
  return ⟨name⟩

def Hinfo.unpack (r : Hinfo) : Unpack Hinfo := do
  let cpu ← RData.getString
  let os ← RData.getString
  return ⟨r.cpu ++ cpu, r.os ++ os⟩

def Minfo.unpack (fuel : Nat) : Unpack Minfo := do
  let rmailbx ← Domain.unpack fuel
  let emailbx ← Domain.unpack fuel
  return ⟨rmailbx, emailbx⟩

def Mx.unpack (fuel : Nat) : Unpack Mx := do
  let preference ← getUint16
  let exchange ← Domain.unpack fuel
  return ⟨preference.toInt16, exchange⟩

def Soa.unpack (fuel : Nat) : Unpack Soa := do
  let mname ← Domain.unpack fuel
  let rname ← Domain.unpack fuel
  let serial ← getUint32
  let refresh ← getUint32
  let retry ← getUint32
  let expire ← getUint32
  let minimum ← getUint32
  return ⟨mname, rname, serial, refresh.toInt32, retry.toInt32, expire.toInt32, minimum.toInt32⟩

variable (mem : Nat → UInt8) (s : MemoryStream)

def A.pack (r : A) : MemoryStream := s.writeUint32 mem r.address

def DomainRecord.pack (r : DomainRecord) : MemoryStream := r.name.pack mem s

def Hinfo.pack (r : Hinfo) : MemoryStream :=
  let s := s.writeUint8 mem (UInt8.ofNat r.cpu.length)
  let s := s.writeBytes mem r.cpu
  let s := s.writeUint8 mem (UInt8.ofNat r.os.length)
  s.writeBytes mem r.os

def Minfo.pack (r : Minfo) : MemoryStream :=
  let s := r.rmailbx.pack mem s
  r.emailbx.pack mem s

def Mx.pack (r : Mx) : MemoryStream :=
  let s := s.writeUint16 mem r.preference.toUInt16
  r.exchange.pack mem s

def Soa.pack (r : Soa) : MemoryStream :=
  let s := r.mname.pack mem s
  let s := r.rname.pack mem s
  let s := s.writeUint32 mem r.serial
  let s := s.writeUint32 mem r.refresh.toUInt32
  let s := s.writeUint32 mem r.retry.toUInt32
  let s := s.writeUint32 mem r.expire.toUInt32
  s.writeUint32 mem r.minimum.toUInt32

end ResourceRecordInner

open ResourceRecordInner

/-! ## Formats -/

theorem Yields.getString {str : List UInt8} (h : str.length ≤ 255) :
    Yields RData.getString (UInt8.ofNat str.length :: str) str := by
  have hlen : (UInt8.ofNat str.length).toNat = str.length := by
    rw [UInt8.toNat_ofNat', Nat.mod_eq_of_lt (Nat.lt_succ_of_le h)]
  have hbytes := Yields.getBytes str
  rw [← hlen] at hbytes
  exact (Yields.getUint8 (UInt8.ofNat str.length)).bind hbytes

namespace ResourceRecordInner

def Hinfo.format (r : Hinfo) : List UInt8 :=
  UInt8.ofNat r.cpu.length :: r.cpu ++ UInt8.ofNat r.os.length :: r.os

def Minfo.format (r : Minfo) : List UInt8 := Domain.format r.rmailbx.labels ++ Domain.format r.emailbx.labels

def Mx.format (r : Mx) : List UInt8 := Words.bytes r.preference.toUInt16 ++ Domain.format r.exchange.labels

def Soa.format (r : Soa) : List UInt8 :=
  Domain.format r.mname.labels ++ (Domain.format r.rname.labels ++
    [r.serial, r.refresh.toUInt32, r.retry.toUInt32, r.expire.toUInt32, r.minimum.toUInt32].flatMap Words.bytes32)

variable (mem : Nat → UInt8) (s : MemoryStream)

theorem A.pack_eq (r : A) : r.pack mem s = s.writeBytes mem (Words.bytes32 r.address) := rfl

theorem DomainRecord.pack_eq (r : DomainRecord) : r.pack mem s = s.writeBytes mem (Domain.format r.name.labels) :=
  Domain.pack_eq mem r.name s

theorem Hinfo.pack_eq (r : Hinfo) : r.pack mem s = s.writeBytes mem r.format := by
  rw [Hinfo.format, writeBytes_append]
  rfl

theorem Minfo.pack_eq (r : Minfo) : r.pack mem s = s.writeBytes mem r.format := by
  rw [Minfo.format, writeBytes_append, Minfo.pack, Domain.pack_eq, Domain.pack_eq]

theorem Mx.pack_eq (r : Mx) : r.pack mem s = s.writeBytes mem r.format := by
  rw [Mx.format, writeBytes_append, Mx.pack, Domain.pack_eq]
  rfl

theorem Soa.pack_eq (r : Soa) : r.pack mem s = s.writeBytes mem r.format := by
  rw [Soa.format, writeBytes_append, writeBytes_append, Soa.pack, Domain.pack_eq, Domain.pack_eq]
  rfl

/-! ## Reading the format -/

variable {fuel : Nat}

theorem A.unpack_yields (r : A) : Yields A.unpack (Words.bytes32 r.address) r :=
  (Yields.getUint32 r.address).bind_pure A.mk

theorem DomainRecord.unpack_yields {r : DomainRecord} (h : r.name.Plain) (hfuel : r.name.labels.length ≤ fuel) :
    Yields (DomainRecord.unpack fuel) (Domain.format r.name.labels) r :=
  (Domain.unpack_yields h hfuel).bind_pure DomainRecord.mk

theorem Hinfo.unpack_yields {r : Hinfo} (hcpu : r.cpu.length ≤ 255) (hos : r.os.length ≤ 255) :
    Yields (Hinfo.unpack {}) r.format r :=
  (Yields.getString hcpu).bind ((Yields.getString hos).bind_pure fun os => Hinfo.mk ([] ++ r.cpu) ([] ++ os))

theorem Minfo.unpack_yields {r : Minfo} (hr : r.rmailbx.Plain) (he : r.emailbx.Plain)
    (hrfuel : r.rmailbx.labels.length ≤ fuel) (hefuel : r.emailbx.labels.length ≤ fuel) :
    Yields (Minfo.unpack fuel) r.format r :=
  (Domain.unpack_yields hr hrfuel).bind ((Domain.unpack_yields he hefuel).bind_pure (Minfo.mk r.rmailbx))

theorem Mx.unpack_yields {r : Mx} (h : r.exchange.Plain) (hfuel : r.exchange.labels.length ≤ fuel) :
    Yields (Mx.unpack fuel) r.format r :=
  (Yields.getUint16 r.preference.toUInt16).bind ((Domain.unpack_yields h hfuel).bind_pure (Mx.mk r.preference))

theorem Soa.unpack_yields {r : Soa} (hm : r.mname.Plain) (hr : r.rname.Plain) (hmfuel : r.mname.labels.length ≤ fuel)
    (hrfuel : r.rname.labels.length ≤ fuel) : Yields (Soa.unpack fuel) r.format r :=
  (Domain.unpack_yields hm hmfuel).bind ((Domain.unpack_yields hr hrfuel).bind
    ((Yields.getUint32 _).bind ((Yields.getUint32 _).bind ((Yields.getUint32 _).bind ((Yields.getUint32 _).bind
      ((Yields.getUint32 _).bind (Yields.pure r)))))))

end ResourceRecordInner

/-! ## Records that come back -/

/-- The streams that there are after any writes to a new one and any moves of the head. -/
inductive MemoryStream.Written : MemoryStream → Prop where
  | new : Written {}
  | write {s : MemoryStream} (mem : Nat → UInt8) (b : UInt8) : Written s → Written (s.writeUint8 mem b)
  | move {s : MemoryStream} (head : Nat) : Written s → Written { s with currentHead := head }

theorem MemoryStream.Written.flat {s : MemoryStream} (h : s.Written) : s.data.Flat := by
  induction h with
  | new => exact Collections.Ring.new_flat (by decide)
  | write mem b _ ih => exact (ih.pushBack mem b).1
  | move head _ ih => exact ih

/-- Where `pack` has written the record `unpack` returns it, and moves the head over all that was written. -/
def RoundTrip {R : Type} (pack : (Nat → UInt8) → MemoryStream → R → MemoryStream) (unpack : Nat → Unpack R) (r : R) :
    Prop :=
  ∀ mem s, s.Written → ∃ n, ∀ fuel ≥ n,
    unpack fuel { pack mem s r with currentHead := s.data.size } =
      .done (r, { pack mem s r with currentHead := (pack mem s r).data.size })

theorem RoundTrip.of_yields {R : Type} {pack : (Nat → UInt8) → MemoryStream → R → MemoryStream}
    {unpack : Nat → Unpack R} {r : R} {bs : List UInt8} (hpack : ∀ mem s, pack mem s r = s.writeBytes mem bs) {n : Nat}
    (hunpack : ∀ fuel ≥ n, Yields (unpack fuel) bs r) : RoundTrip pack unpack r := by
  intro mem s hs
  refine ⟨n, fun fuel hfuel => ?_⟩
  obtain ⟨hflat, hlist, -⟩ := writeBytes_spec mem hs.flat bs
  have hsize : (s.writeBytes mem bs).data.size = s.data.size + bs.length := by
    have hlen := congrArg List.length hlist
    rwa [List.length_append, Collections.Ring.toList_length, Collections.Ring.toList_length] at hlen
  have hholds := holds_of_flat fun i b => hflat.get? (i := i) (x := b)
  rw [hlist, holds_append, Collections.Ring.toList_length, Nat.zero_add] at hholds
  rw [hpack, hunpack fuel hfuel _ hholds.2, hsize]

open ResourceRecordInner

/-- Every record whose names and strings fit comes back as it was packed. -/
theorem records_roundTrip :
    (∀ r : A, RoundTrip A.pack (fun _ => A.unpack) r) ∧
      (∀ r : DomainRecord, r.name.Plain → RoundTrip DomainRecord.pack DomainRecord.unpack r) ∧
      (∀ r : Hinfo, r.cpu.length ≤ 255 → r.os.length ≤ 255 → RoundTrip Hinfo.pack (fun _ => Hinfo.unpack {}) r) ∧
      (∀ r : Minfo, r.rmailbx.Plain → r.emailbx.Plain → RoundTrip Minfo.pack Minfo.unpack r) ∧
      (∀ r : Mx, r.exchange.Plain → RoundTrip Mx.pack Mx.unpack r) ∧
      ∀ r : Soa, r.mname.Plain → r.rname.Plain → RoundTrip Soa.pack Soa.unpack r := by
  refine ⟨fun r => ?_, fun r h => ?_, fun r hcpu hos => ?_, fun r hr he => ?_, fun r h => ?_, fun r hm hr => ?_⟩
  · exact .of_yields (n := 0) (fun mem s => r.pack_eq mem s) fun _ _ => r.unpack_yields
  · exact .of_yields (fun mem s => r.pack_eq mem s) fun _ hfuel => DomainRecord.unpack_yields h hfuel
  · exact .of_yields (n := 0) (fun mem s => r.pack_eq mem s) fun _ _ => Hinfo.unpack_yields hcpu hos
  · exact .of_yields (fun mem s => r.pack_eq mem s) fun _ hfuel =>
      Minfo.unpack_yields hr he (Nat.le_trans (Nat.le_max_left ..) hfuel) (Nat.le_trans (Nat.le_max_right ..) hfuel)
  · exact .of_yields (fun mem s => r.pack_eq mem s) fun _ hfuel => Mx.unpack_yields h hfuel
  · exact .of_yields (fun mem s => r.pack_eq mem s) fun _ hfuel =>
      Soa.unpack_yields hm hr (Nat.le_trans (Nat.le_max_left ..) hfuel) (Nat.le_trans (Nat.le_max_right ..) hfuel)

/-- `MX -5 a` behind one byte. -/
theorem records_roundTrip_mx :
    RoundTrip Mx.pack Mx.unpack ⟨-5, ⟨[[97], []]⟩⟩ ∧ (MemoryStream.writeUint8 (fun _ => 0) 9 {}).Written :=
  ⟨records_roundTrip.2.2.2.2.1 _ ⟨⟨[[97]], rfl⟩, by decide⟩, .write _ _ .new⟩

end Dwhbll.Network.Dns
