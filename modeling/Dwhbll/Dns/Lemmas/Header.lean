import Dwhbll.Dns.Format
import Dwhbll.Dns.Lemmas.Reading

/-!
# The header, packed and unpacked
-/

namespace Dwhbll.Network.Dns.MessageHeader

variable {h : MessageHeader}

/-- The fields of the second word, put in from the highest to the lowest, do not overlap. -/
theorem toNat_fields {q o a t d r z c : UInt16} (hq : q.toNat < 2 ^ 1) (ho : o.toNat < 2 ^ 4)
    (ha : a.toNat < 2 ^ 1) (ht : t.toNat < 2 ^ 1) (hd : d.toNat < 2 ^ 1) (hr : r.toNat < 2 ^ 1)
    (hz : z.toNat < 2 ^ 3) (hc : c.toNat < 2 ^ 4) :
    (q <<< 15 ||| o <<< 11 ||| a <<< 10 ||| t <<< 9 ||| d <<< 8 ||| r <<< 7 ||| z <<< 4 ||| c).toNat =
      q.toNat * 2 ^ 15 + o.toNat * 2 ^ 11 + a.toNat * 2 ^ 10 + t.toNat * 2 ^ 9 + d.toNat * 2 ^ 8 +
        r.toNat * 2 ^ 7 + z.toNat * 2 ^ 4 + c.toNat := by
  have e0 : (q <<< 15).toNat = _ := Words.toNat_shiftLeft (k := 15) (by decide) (by omega)
  have e1 : (q <<< 15 ||| o <<< 11).toNat = _ :=
    Words.toNat_or_shiftLeft (k := 11) (w := 4) (by omega) ho (by decide) (by decide)
  have e2 : (q <<< 15 ||| o <<< 11 ||| a <<< 10).toNat = _ :=
    Words.toNat_or_shiftLeft (k := 10) (w := 1) (by omega) ha (by decide) (by decide)
  have e3 : (q <<< 15 ||| o <<< 11 ||| a <<< 10 ||| t <<< 9).toNat = _ :=
    Words.toNat_or_shiftLeft (k := 9) (w := 1) (by omega) ht (by decide) (by decide)
  have e4 : (q <<< 15 ||| o <<< 11 ||| a <<< 10 ||| t <<< 9 ||| d <<< 8).toNat = _ :=
    Words.toNat_or_shiftLeft (k := 8) (w := 1) (by omega) hd (by decide) (by decide)
  have e5 : (q <<< 15 ||| o <<< 11 ||| a <<< 10 ||| t <<< 9 ||| d <<< 8 ||| r <<< 7).toNat = _ :=
    Words.toNat_or_shiftLeft (k := 7) (w := 1) (by omega) hr (by decide) (by decide)
  have e6 : (q <<< 15 ||| o <<< 11 ||| a <<< 10 ||| t <<< 9 ||| d <<< 8 ||| r <<< 7 ||| z <<< 4).toNat = _ :=
    Words.toNat_or_shiftLeft (k := 4) (w := 3) (by omega) hz (by decide) (by decide)
  rw [Words.toNat_or (k := 4) (by omega) hc, e6, e5, e4, e3, e2, e1, e0]

theorem b2_toNat (hf : h.Fits) :
    h.b2.toNat = h.qr.toNat * 2 ^ 15 + h.opcode.toNat * 2 ^ 11 + h.aa.toNat * 2 ^ 10 + h.tc.toNat * 2 ^ 9 +
      h.rd.toNat * 2 ^ 8 + h.ra.toNat * 2 ^ 7 + h.z.toNat * 2 ^ 4 + h.rcode.toNat := by
  obtain ⟨⟨ho1, ho2⟩, ⟨hz1, hz2⟩, ⟨hr1, hr2⟩⟩ := hf
  have hbit : ∀ b : Bool, b.toUInt16.toNat < 2 ^ 1 := by
    intro b
    cases b <;> decide
  have ho : (UInt16.ofInt h.opcode).toNat = h.opcode.toNat := Words.toNat_ofInt ho1 (by omega)
  have hz : (UInt16.ofInt h.z).toNat = h.z.toNat := Words.toNat_ofInt hz1 (by omega)
  have hr : (UInt16.ofInt h.rcode).toNat = h.rcode.toNat := Words.toNat_ofInt hr1 (by omega)
  rw [b2, toNat_fields (hbit _) (by omega) (hbit _) (hbit _) (hbit _) (hbit _) (by omega) (by omega), ho, hz, hr]
  simp only [Words.toNat_toUInt16]

/-- The header with the given words. -/
def ofWords (id b2 qdcount ancount nscount arcount : UInt16) : MessageHeader where
  id := id
  qr := b2 >>> 15 &&& 0x1 != 0
  opcode := (b2 >>> 11 &&& 0xF).toNat
  aa := b2 >>> 10 &&& 0x1 != 0
  tc := b2 >>> 9 &&& 0x1 != 0
  rd := b2 >>> 8 &&& 0x1 != 0
  ra := b2 >>> 7 &&& 0x1 != 0
  z := (b2 >>> 4 &&& 0x7).toNat
  rcode := (b2 &&& 0xF).toNat
  qdcount := qdcount
  ancount := ancount
  nscount := nscount
  arcount := arcount

theorem flag_toNat (v : UInt16) {k : Nat} (hk : k < 16) :
    (v >>> UInt16.ofNat k &&& 0x1 != 0).toNat = v.toNat / 2 ^ k % 2 := by
  have hfield : (v >>> UInt16.ofNat k &&& 0x1).toNat = v.toNat / 2 ^ k % 2 :=
    Words.toNat_field v (w := 1) hk (by decide)
  by_cases h0 : v >>> UInt16.ofNat k &&& 0x1 = 0
  · rw [h0] at hfield ⊢
    simpa using hfield
  · have hne : (v >>> UInt16.ofNat k &&& 0x1).toNat ≠ 0 := fun he => h0 (UInt16.toNat_inj.mp he)
    have hb : (v >>> UInt16.ofNat k &&& 0x1 != 0) = true := by simpa using h0
    rw [hb, ← hfield]
    have : v.toNat / 2 ^ k % 2 < 2 := Nat.mod_lt _ (by decide)
    simp only [Bool.toNat_true]
    omega

section Words

variable (id b2 qdcount ancount nscount arcount : UInt16)

theorem ofWords_opcode :
    (ofWords id b2 qdcount ancount nscount arcount).opcode = (b2.toNat / 2 ^ 11 % 2 ^ 4 : Nat) :=
  congrArg Int.ofNat (Words.toNat_field b2 (k := 11) (w := 4) (by decide) (by decide))

theorem ofWords_z : (ofWords id b2 qdcount ancount nscount arcount).z = (b2.toNat / 2 ^ 4 % 2 ^ 3 : Nat) :=
  congrArg Int.ofNat (Words.toNat_field b2 (k := 4) (w := 3) (by decide) (by decide))

theorem ofWords_rcode : (ofWords id b2 qdcount ancount nscount arcount).rcode = (b2.toNat % 2 ^ 4 : Nat) := by
  have h := Words.toNat_field b2 (k := 0) (w := 4) (by decide) (by decide)
  rw [Nat.pow_zero, Nat.div_one] at h
  have hz : b2 >>> UInt16.ofNat 0 = b2 := UInt16.shiftRight_zero
  rw [hz] at h
  exact congrArg Int.ofNat h

theorem ofWords_fits : (ofWords id b2 qdcount ancount nscount arcount).Fits where
  opcode := by rw [ofWords_opcode]; omega
  z := by rw [ofWords_z]; omega
  rcode := by rw [ofWords_rcode]; omega

theorem ofWords_flags :
    (ofWords id b2 qdcount ancount nscount arcount).qr.toNat = b2.toNat / 2 ^ 15 % 2 ∧
      (ofWords id b2 qdcount ancount nscount arcount).aa.toNat = b2.toNat / 2 ^ 10 % 2 ∧
      (ofWords id b2 qdcount ancount nscount arcount).tc.toNat = b2.toNat / 2 ^ 9 % 2 ∧
      (ofWords id b2 qdcount ancount nscount arcount).rd.toNat = b2.toNat / 2 ^ 8 % 2 ∧
      (ofWords id b2 qdcount ancount nscount arcount).ra.toNat = b2.toNat / 2 ^ 7 % 2 :=
  ⟨flag_toNat b2 (k := 15) (by decide), flag_toNat b2 (k := 10) (by decide), flag_toNat b2 (k := 9) (by decide),
    flag_toNat b2 (k := 8) (by decide), flag_toNat b2 (k := 7) (by decide)⟩

/-- Packing the fields of a word gives the word back. -/
theorem ofWords_b2 : (ofWords id b2 qdcount ancount nscount arcount).b2 = b2 := by
  have hlt := b2.toNat_lt
  obtain ⟨hqr, haa, htc, hrd, hra⟩ := ofWords_flags id b2 qdcount ancount nscount arcount
  rw [← UInt16.toNat_inj, b2_toNat (ofWords_fits ..), ofWords_opcode, ofWords_z, ofWords_rcode, hqr, haa, htc,
    hrd, hra]
  simp only [Int.toNat_natCast]
  omega

end Words

theorem toNat_inj_bool {a b : Bool} (h : a.toNat = b.toNat) : a = b := by
  cases a <;> cases b <;> first | rfl | cases h

/-- The fields of a sum of fields. -/
theorem fields_of_sum {q o a t d r z c n : Nat} (hq : q < 2) (ho : o < 16) (ha : a < 2) (ht : t < 2) (hd : d < 2)
    (hr : r < 2) (hz : z < 8) (hc : c < 16)
    (hn : n = q * 2 ^ 15 + o * 2 ^ 11 + a * 2 ^ 10 + t * 2 ^ 9 + d * 2 ^ 8 + r * 2 ^ 7 + z * 2 ^ 4 + c) :
    n / 2 ^ 15 % 2 = q ∧ n / 2 ^ 11 % 2 ^ 4 = o ∧ n / 2 ^ 10 % 2 = a ∧ n / 2 ^ 9 % 2 = t ∧ n / 2 ^ 8 % 2 = d ∧
      n / 2 ^ 7 % 2 = r ∧ n / 2 ^ 4 % 2 ^ 3 = z ∧ n % 2 ^ 4 = c := by
  omega

/-- Unpacking the words of a header gives the header back. -/
theorem ofWords_self (hf : h.Fits) : ofWords h.id h.b2 h.qdcount h.ancount h.nscount h.arcount = h := by
  have hb := b2_toNat hf
  obtain ⟨⟨ho1, ho2⟩, ⟨hz1, hz2⟩, ⟨hr1, hr2⟩⟩ := hf
  obtain ⟨eqr, eop, eaa, etc, erd, era, ez, er⟩ := fields_of_sum h.qr.toNat_lt (by omega) h.aa.toNat_lt
    h.tc.toNat_lt h.rd.toNat_lt h.ra.toNat_lt (by omega) (by omega) hb
  obtain ⟨hqr, haa, htc, hrd, hra⟩ := ofWords_flags h.id h.b2 h.qdcount h.ancount h.nscount h.arcount
  have hop := ofWords_opcode h.id h.b2 h.qdcount h.ancount h.nscount h.arcount
  have hz := ofWords_z h.id h.b2 h.qdcount h.ancount h.nscount h.arcount
  have hr := ofWords_rcode h.id h.b2 h.qdcount h.ancount h.nscount h.arcount
  rw [eop, Int.toNat_of_nonneg ho1] at hop
  rw [ez, Int.toNat_of_nonneg hz1] at hz
  rw [er, Int.toNat_of_nonneg hr1] at hr
  have e1 := toNat_inj_bool (hqr.trans eqr)
  have e2 := toNat_inj_bool (haa.trans eaa)
  have e3 := toNat_inj_bool (htc.trans etc)
  have e4 := toNat_inj_bool (hrd.trans erd)
  have e5 := toNat_inj_bool (hra.trans era)
  generalize h.b2 = b2 at *
  cases h
  simp only [ofWords, mk.injEq] at *
  exact ⟨trivial, e1, hop, e2, e3, e4, e5, hz, hr, trivial, trivial, trivial, trivial⟩

/-! ## Reading -/

theorem unpack_yields (hf : h.Fits) : Yields unpack h.format h := by
  have hy : Yields unpack h.format (ofWords h.id h.b2 h.qdcount h.ancount h.nscount h.arcount) := by
    rw [unpack, format]
    exact (Yields.getUint16 _).bind ((Yields.getUint16 _).bind ((Yields.getUint16 _).bind
      ((Yields.getUint16 _).bind ((Yields.getUint16 _).bind ((Yields.getUint16 _).bind (Yields.pure _))))))
  rw [ofWords_self hf] at hy
  exact hy

theorem unpack_consumes : Consumes unpack fun h bs => bs = h.format ∧ h.Fits := by
  have hc := Consumes.getUint16.bind fun id => Consumes.getUint16.bind fun b2 =>
    Consumes.getUint16.bind fun qd => Consumes.getUint16.bind fun an => Consumes.getUint16.bind fun ns =>
    Consumes.getUint16.bind fun ar => Consumes.pure (ofWords id b2 qd an ns ar)
  refine hc.mono ?_
  rintro h bs ⟨id, _, _, rfl, rfl, b2, _, _, rfl, rfl, qd, _, _, rfl, rfl, an, _, _, rfl, rfl,
    ns, _, _, rfl, rfl, ar, _, _, rfl, rfl, rfl, rfl⟩
  refine ⟨?_, ofWords_fits ..⟩
  rw [format, ofWords_b2]
  rfl

end Dwhbll.Network.Dns.MessageHeader
