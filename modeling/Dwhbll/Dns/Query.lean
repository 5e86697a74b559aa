import Dwhbll.Dns.Theorems

/-!
# The query that `Resolver::query_dns` sends

The message is packed into the ring of a new stream, its length is pushed in front of it, and the ring is put
in order so that its vector can be sent. The two pushes and `make_cont` meet a ring that does not start at
its first cell. The answer and the questions after it are in `Resolving`.
-/

namespace Dwhbll.Network.Dns.Resolver

open Collections

/-- What stands behind the storage of the ring, at each of the calls that may copy from it. -/
structure Behind where
  pack : Nat → UInt8
  low : Nat → UInt8
  high : Nat → UInt8
  cont : Nat → UInt8

def queryMessage (queryID : UInt16) (domain : Domain) : Message where
  header := ⟨queryID, false, 0, false, false, false, false, 0, 0, 1, 0, 0, 0⟩
  questions := [⟨domain, QTYPE.A, 1⟩]
  answers := []
  authorities := []
  additionals := []

/-- `resize(n)` of a vector. -/
def resizeVector (n : Nat) (bs : List UInt8) : List UInt8 := (bs.take n).rightpad n 0

/-- The length in front of the packed message. -/
def pushLength (behind : Behind) (data : Collections.Ring UInt8) : Collections.Ring UInt8 :=
  let size := UInt16.ofNat data.size
  let data := data.pushFront behind.low (size &&& 0xFF).toUInt8
  data.pushFront behind.high (size >>> 8 &&& 0xFF).toUInt8

/-- The ring whose vector is sent. -/
def prependLength (behind : Behind) (data : Collections.Ring UInt8) : Collections.Ring UInt8 :=
  let data := pushLength behind data
  let data := data.makeCont behind.cont
  { data with data := resizeVector data.size data.data }

def queryBuffer (behind : Behind) (queryID : UInt16) (domain : Domain) : Outcome (Collections.Ring UInt8) := do
  let stream ← (queryMessage queryID domain).pack behind.pack {}
  return prependLength behind stream.data

inductive Send where
  | udp (bytes : List UInt8)
  | tcp (bytes : List UInt8)
  deriving DecidableEq, Repr

/-- The sends of a query whose answer over UDP, if there is one, has the given `tc`. -/
def sends (buffer : Collections.Ring UInt8) (tc : Bool) : List Send :=
  (if buffer.size ≤ 512 then [.udp ((buffer.data.drop 2).take (buffer.size - 2))] else []) ++
    if buffer.size > 512 ∨ tc then [.tcp buffer.data] else []

/-! ## The property -/

/-- The message behind its length, in two bytes. -/
def withLength (p : List UInt8) : List UInt8 := UInt8.ofNat (p.length / 256) :: UInt8.ofNat (p.length % 256) :: p

/-- The buffer of the query holds the length and the packed message, and these are what is sent. -/
def Carries (behind : Behind) (queryID : UInt16) (domain : Domain) : Prop :=
  ∃ stream buffer, (queryMessage queryID domain).pack behind.pack {} = .done stream ∧
    queryBuffer behind queryID domain = .done buffer ∧
    buffer.data = withLength stream.data.toList ∧
    ∀ tc, ∀ send ∈ sends buffer tc,
      send = .udp stream.data.toList ∨ send = .tcp (withLength stream.data.toList)

/-! ## The ring of the packed message -/

variable {p : List UInt8} {r : Collections.Ring UInt8}

/-- A ring that holds the packed message from its first cell on, and is no larger than it has to be. -/
structure Packed (p : List UInt8) (r : Collections.Ring UInt8) : Prop where
  flat : r.Flat
  toList : r.toList = p
  grown : r.Grown 16

theorem Packed.sz (h : Packed p r) : r.sz = p.length := by
  rw [← h.toList, Collections.Ring.toList_length]

theorem writeBytes_packed (mem : Nat → UInt8) {s : MemoryStream} (h : Packed p s.data) (bs : List UInt8) :
    Packed (p ++ bs) (s.writeBytes mem bs).data := by
  induction bs generalizing s p with
  | nil =>
      rw [List.append_nil]
      exact h
  | cons b bs ih =>
      obtain ⟨hf, hl⟩ := h.flat.pushBack mem b
      have hp : Packed (p ++ [b]) (s.writeUint8 mem b).data :=
        ⟨hf, by rw [← h.toList]; exact hl, h.grown.pushBack mem b h.flat.wf⟩
      have hrest := ih hp
      rw [List.append_assoc] at hrest
      exact hrest

theorem pack_packed (mem : Nat → UInt8) (queryID : UInt16) (domain : Domain) :
    ∃ s, (queryMessage queryID domain).pack mem {} = .done s ∧
      Packed (queryMessage queryID domain).format s.data := by
  have hrec : (queryMessage queryID domain).NoRecords := ⟨rfl, ⟨rfl, rfl⟩, ⟨rfl, rfl⟩, ⟨rfl, rfl⟩⟩
  refine ⟨_, Message.pack_eq mem hrec {}, ?_⟩
  have hnew : Packed [] ({} : MemoryStream).data :=
    ⟨Collections.Ring.new_flat (by decide), rfl, Collections.Ring.new_grown 16⟩
  exact writeBytes_packed mem hnew _

theorem format_length (queryID : UInt16) (domain : Domain) :
    (queryMessage queryID domain).format.length = (Domain.format domain.labels).length + 16 := by
  simp only [queryMessage, Message.format, MessageHeader.format, MessageQuestion.format, List.flatMap_cons,
    List.flatMap_nil, List.append_nil, List.length_append, Words.bytes, List.length_cons, List.length_nil]
  omega

theorem length_bytes {n : Nat} (h : n < 65536) :
    (UInt16.ofNat n >>> 8 &&& 0xFF).toUInt8 = UInt8.ofNat (n / 256) ∧
      (UInt16.ofNat n &&& 0xFF).toUInt8 = UInt8.ofNat (n % 256) := by
  obtain ⟨hhigh, hlow⟩ := Words.bytes_toNat (UInt16.ofNat n)
  have hmask := (Words.bytes_toNat (UInt16.ofNat n >>> 8)).2
  rw [← UInt16.toNat_toUInt8, hhigh] at hmask
  rw [UInt16.toNat_ofNat', Nat.mod_eq_of_lt h] at hlow hmask
  constructor
  · rw [← UInt8.toNat_inj, hmask, UInt8.toNat_ofNat']
    omega
  · rw [← UInt8.toNat_inj, hlow, UInt8.toNat_ofNat']
    omega

/-! ## The two pushes -/

/-- The capacity when the low byte is pushed: the one of the growing storage that is above the length of
the message and at most twice that. -/
theorem Packed.roomy_capacity (mem : Nat → UInt8) (h : Packed p r) (hp : 16 ≤ p.length) :
    (∃ k, (r.roomy mem).capacity = 16 * 2 ^ k) ∧ p.length < (r.roomy mem).capacity ∧
      (r.roomy mem).capacity ≤ 2 * p.length := by
  have hwf := h.flat.wf
  have hle := hwf.sz_le
  obtain ⟨k, hcap, hk⟩ := h.grown
  rw [Collections.Ring.roomy_capacity mem hwf, h.sz]
  rw [h.sz] at hk hle
  split
  · rename_i hf
    exact ⟨⟨k + 1, by rw [hcap, Nat.pow_succ]; omega⟩, by omega, by omega⟩
  · refine ⟨⟨k, hcap⟩, by omega, ?_⟩
    rcases hk with rfl | hk <;> omega

theorem power_unique {n a b : Nat} (ha : n < 16 * 2 ^ a) (ha' : 16 * 2 ^ a ≤ 2 * n) (hb : n < 16 * 2 ^ b)
    (hb' : 16 * 2 ^ b ≤ 2 * n) : 16 * 2 ^ a = 16 * 2 ^ b := by
  rcases Nat.lt_trichotomy a b with h | rfl | h
  · have := Nat.pow_le_pow_right (n := 2) (by decide) (Nat.succ_le_of_lt h)
    rw [Nat.pow_succ] at this
    omega
  · rfl
  · have := Nat.pow_le_pow_right (n := 2) (by decide) (Nat.succ_le_of_lt h)
    rw [Nat.pow_succ] at this
    omega

/-- The ring after the first push, of the low byte. -/
theorem Packed.pushFront (mem : Nat → UInt8) (x : UInt8) (h : Packed p r) :
    (r.pushFront mem x).WF ∧ (r.pushFront mem x).toList = x :: p ∧ (r.pushFront mem x).sz = p.length + 1 ∧
      (r.pushFront mem x).head = (r.roomy mem).capacity - 1 := by
  obtain ⟨hwf, hl⟩ := Collections.Ring.pushFront_spec mem x h.flat.wf
  obtain ⟨hflat, hlist⟩ := h.flat.roomy mem
  rw [hlist, h.toList] at hl
  refine ⟨hwf, hl, ?_, ?_⟩
  · rw [Collections.Ring.pushFront_sz, h.sz]
  · rw [Collections.Ring.pushFront_head, if_pos hflat.head_eq]

theorem pushLength_wf (behind : Behind) (h : Packed p r) :
    (pushLength behind r).WF ∧ (pushLength behind r).sz = p.length + 2 := by
  obtain ⟨hwf, -, hsz, -⟩ := h.pushFront behind.low (UInt16.ofNat r.size &&& 0xFF).toUInt8
  refine ⟨(Collections.Ring.pushFront_spec behind.high _ hwf).1, ?_⟩
  rw [pushLength, Collections.Ring.pushFront_sz, hsz]

/-- Where the first push does not fill the ring, the second one does not move the storage. -/
theorem pushLength_room (behind : Behind) (h : Packed p r)
    (hroom : p.length + 1 < (r.roomy behind.low).capacity) :
    (pushLength behind r).toList = (UInt16.ofNat p.length >>> 8 &&& 0xFF).toUInt8 ::
        (UInt16.ofNat p.length &&& 0xFF).toUInt8 :: p ∧
      (pushLength behind r).capacity = (r.roomy behind.low).capacity ∧
      (pushLength behind r).head = (r.roomy behind.low).capacity - 2 := by
  obtain ⟨hwf, hl, hsz, hhead⟩ := h.pushFront behind.low (UInt16.ofNat r.size &&& 0xFF).toUInt8
  have hcap := Collections.Ring.pushFront_capacity (r := r) behind.low (UInt16.ofNat r.size &&& 0xFF).toUInt8
  have hfalse := hwf.needsResize_eq_false (by rw [hsz, hcap]; exact hroom)
  have hroomy := Collections.Ring.roomy_of_not_needsResize behind.high hfalse
  have hsize : r.size = p.length := h.sz
  rw [hsize] at hl hhead hcap hroomy hwf
  simp only [pushLength, hsize]
  refine ⟨?_, ?_, ?_⟩
  · rw [(Collections.Ring.pushFront_spec behind.high _ hwf).2, hroomy, hl]
  · rw [Collections.Ring.pushFront_capacity, hroomy, hcap]
  · rw [Collections.Ring.pushFront_head, hroomy, hhead, if_neg (by omega)]
    omega

/-! ## The vector that is sent -/

theorem resizeVector_take {n : Nat} {bs : List UInt8} (h : n ≤ bs.length) : resizeVector n bs = bs.take n := by
  rw [resizeVector, List.rightpad, List.length_take, Nat.min_eq_left h, Nat.sub_self, List.replicate_zero,
    List.append_nil]

/-- The vector that is sent is what `make_cont` has made of the elements. -/
theorem prependLength_data (behind : Behind) (hwf : (pushLength behind r).WF) :
    (prependLength behind r).data = ((pushLength behind r).makeCont behind.cont).toList ∧
      (prependLength behind r).size = (pushLength behind r).sz := by
  have hle := hwf.sz_le
  rw [← Collections.Ring.makeCont_capacity behind.cont, ← Collections.Ring.makeCont_sz behind.cont] at hle
  constructor
  · rw [Collections.Ring.toList, Collections.Ring.makeCont_head, Circular.window_at_zero hle]
    exact resizeVector_take hle
  · exact Collections.Ring.makeCont_sz behind.cont _

/-! ## When the buffer is right -/

theorem prependLength_of_room (behind : Behind) (h : Packed p r) (hlen : p.length < 65536)
    (hroom : p.length + 2 < (r.roomy behind.low).capacity) :
    (prependLength behind r).data = withLength p := by
  obtain ⟨hwf, hsz⟩ := pushLength_wf behind h
  obtain ⟨hl, hcap, -⟩ := pushLength_room behind h (by omega)
  obtain ⟨hhigh, hlow⟩ := length_bytes hlen
  rw [(prependLength_data behind hwf).1, Collections.Ring.makeCont_toList behind.cont hwf (by omega), hl,
    hhigh, hlow, withLength]

/-- The first push fills the ring, and the second one copies the message from behind the storage. -/
theorem prependLength_of_full (behind : Behind) (h : Packed p r) (hp : 16 ≤ p.length)
    (hfull : (r.roomy behind.low).capacity = p.length + 1) :
    (prependLength behind r).data[2]? = some (behind.high (p.length + 1)) := by
  obtain ⟨hwf, -, hsz, hhead⟩ := h.pushFront behind.low (UInt16.ofNat r.size &&& 0xFF).toUInt8
  have hcap := Collections.Ring.pushFront_capacity (r := r) behind.low (UInt16.ofNat r.size &&& 0xFF).toUInt8
  obtain ⟨hwf₂, hsz₂⟩ := pushLength_wf behind h
  have hl := (Collections.Ring.pushFront_spec behind.high (UInt16.ofNat r.size >>> 8 &&& 0xFF).toUInt8 hwf).2
  have hcap₂ := Collections.Ring.roomy_capacity behind.high hwf
  rw [hsz, hcap, hfull, if_pos rfl] at hcap₂
  have hneeds := hwf.needsResize_iff.mpr (by rw [hsz, hcap, hfull])
  have hlt : (pushLength behind r).sz < (pushLength behind r).capacity := by
    rw [hsz₂, pushLength, Collections.Ring.pushFront_capacity, hcap₂]
    omega
  have hcell := Collections.Ring.resize_getElem?_of_full behind.high hwf (i := 1) (by omega) (by omega) (by omega)
  rw [(prependLength_data behind hwf₂).1, Collections.Ring.makeCont_toList behind.cont hwf₂ hlt]
  rw [pushLength, hl, Collections.Ring.roomy, if_pos hneeds, List.getElem?_cons_succ, hcell, hhead, hfull]
  rfl

/-- The second push fills the ring, and `make_cont` copies the message from behind the storage. -/
theorem prependLength_of_almost_full (behind : Behind) (h : Packed p r) (hp : 16 ≤ p.length)
    (hfull : (r.roomy behind.low).capacity = p.length + 2) :
    (prependLength behind r).data[2]? = some (behind.cont (p.length + 2)) := by
  obtain ⟨hwf, hsz⟩ := pushLength_wf behind h
  obtain ⟨-, hcap, hhead⟩ := pushLength_room behind h (by omega)
  rw [hfull] at hcap hhead
  rw [(prependLength_data behind hwf).1,
    Collections.Ring.makeCont_getElem?_of_full behind.cont hwf (by omega) (by omega) (by omega) (by omega), hhead]
  rfl

theorem carries_iff_data {behind : Behind} {queryID : UInt16} {domain : Domain} {s : MemoryStream}
    (hs : (queryMessage queryID domain).pack behind.pack {} = .done s) (h : Packed p s.data) :
    Carries behind queryID domain ↔ (prependLength behind s.data).data = withLength p := by
  have hbuffer : queryBuffer behind queryID domain = .done (prependLength behind s.data) := by
    rw [queryBuffer, hs]
    rfl
  constructor
  · rintro ⟨s', buffer, hs', hbuffer', hdata, -⟩
    cases hs.symm.trans hs'
    cases hbuffer.symm.trans hbuffer'
    rw [hdata, h.toList]
  · intro hdata
    have hsize : (prependLength behind s.data).size = p.length + 2 :=
      (prependLength_data behind (pushLength_wf behind h).1).2.trans (pushLength_wf behind h).2
    refine ⟨s, _, hs, hbuffer, by rw [h.toList, hdata], ?_⟩
    intro tc send hsend
    rw [sends, hdata, hsize, h.toList] at *
    rcases List.mem_append.mp hsend with hudp | htcp
    · split at hudp
      · rw [List.mem_singleton.mp hudp]
        refine .inl (congrArg Send.udp ?_)
        exact List.take_of_length_le (Nat.le_refl _)
      · cases hudp
    · split at htcp
      · exact .inr (List.mem_singleton.mp htcp)
      · cases htcp

def Behind.all (b : UInt8) : Behind := ⟨fun _ => b, fun _ => b, fun _ => b, fun _ => b⟩

theorem add_one_ne (b : UInt8) : b + 1 ≠ b := by
  intro he
  have h := congrArg UInt8.toNat he
  have hb := b.toNat_lt
  rw [UInt8.toNat_add] at h
  have h1 : (1 : UInt8).toNat = 1 := rfl
  omega

/-- The buffer holds the length and the message, whatever stands behind the storage, if and only if neither
the first nor the second byte of the length fills a storage of the ring. -/
theorem carries_iff {queryID : UInt16} {domain : Domain}
    (hlen : (queryMessage queryID domain).format.length ≤ 65533) :
    (∀ behind, Carries behind queryID domain) ↔
      ∀ k, (Domain.format domain.labels).length + 17 ≠ 16 * 2 ^ k ∧
        (Domain.format domain.labels).length + 18 ≠ 16 * 2 ^ k := by
  have hp := format_length queryID domain
  constructor
  · intro hall k
    obtain ⟨b, p, hbp⟩ : ∃ b p, (queryMessage queryID domain).format = b :: p :=
      List.exists_cons_of_length_pos (by omega)
    -- Behind the storage stands another byte than the first of the message.
    obtain ⟨s, hs, hpacked⟩ := pack_packed (Behind.all (b + 1)).pack queryID domain
    have hdata := (carries_iff_data hs hpacked).mp (hall _)
    have hthird := congrArg (fun bs => bs[2]?) hdata
    simp only [withLength, List.getElem?_cons_succ, hbp, List.getElem?_cons_zero] at hthird
    obtain ⟨⟨j, hj⟩, hlt, hle⟩ := hpacked.roomy_capacity (Behind.all (b + 1)).low (by omega)
    have hpower : (queryMessage queryID domain).format.length < 16 * 2 ^ k →
        16 * 2 ^ k ≤ 2 * (queryMessage queryID domain).format.length →
        (s.data.roomy (Behind.all (b + 1)).low).capacity = 16 * 2 ^ k := by
      intro h1 h2
      exact hj.trans (power_unique (hj ▸ hlt) (hj ▸ hle) h1 h2)
    constructor
    · intro hk
      have hfull := hpower (by omega) (by omega)
      rw [prependLength_of_full _ hpacked (by omega) (by omega)] at hthird
      exact add_one_ne b (Option.some.inj hthird)
    · intro hk
      have hfull := hpower (by omega) (by omega)
      rw [prependLength_of_almost_full _ hpacked (by omega) (by omega)] at hthird
      exact add_one_ne b (Option.some.inj hthird)
  · intro hne behind
    obtain ⟨s, hs, hpacked⟩ := pack_packed behind.pack queryID domain
    obtain ⟨⟨j, hj⟩, hlt, -⟩ := hpacked.roomy_capacity behind.low (by omega)
    have hroom : (queryMessage queryID domain).format.length + 2 < (s.data.roomy behind.low).capacity := by
      have := hne j
      omega
    exact (carries_iff_data hs hpacked).mpr (prependLength_of_room behind hpacked (by omega) hroom)

/-- `example.com`, whose query is as it should be. -/
def exampleCom : Domain := ⟨[[101, 120, 97, 109, 112, 108, 101], [99, 111, 109], []]⟩

theorem power_ne {n : Nat} (h : ∀ j < n, n ≠ 16 * 2 ^ j) (k : Nat) : n ≠ 16 * 2 ^ k := by
  by_cases hk : k < n
  · exact h k hk
  · have hlt : k < 2 ^ k := Nat.lt_two_pow_self
    omega

theorem carries_iff_exampleCom :
    (queryMessage 7 exampleCom).format.length ≤ 65533 ∧ Carries (Behind.all 9) 7 exampleCom := by
  have hlen : (queryMessage 7 exampleCom).format.length ≤ 65533 := by decide
  refine ⟨hlen, (carries_iff hlen).mpr (fun k => ⟨?_, ?_⟩) (Behind.all 9)⟩
  · exact power_ne (n := 30) (by decide) k
  · exact power_ne (n := 31) (by decide) k

/-- `example.info`, whose name has one byte more: the message of 30 bytes and its length fill a ring of 32. -/
def exampleInfo : Domain := ⟨[[101, 120, 97, 109, 112, 108, 101], [105, 110, 102, 111], []]⟩

/-- Of the query for `example.info` only the length is in the buffer; the rest is what stood behind the
storage. -/
theorem exampleInfo_lost :
    (queryMessage 7 exampleInfo).format.length = 30 ∧
      queryBuffer (Behind.all 9) 7 exampleInfo =
        .done { tail := 32, sz := 32, data := 0 :: 30 :: List.replicate 30 9, needsResize := true } ∧
      ¬ Carries (Behind.all 9) 7 exampleInfo := by
  have hlost : queryBuffer (Behind.all 9) 7 exampleInfo =
      .done { tail := 32, sz := 32, data := 0 :: 30 :: List.replicate 30 9, needsResize := true } := by
    decide +kernel
  refine ⟨by decide, hlost, ?_⟩
  rintro ⟨stream, buffer, hs, hbuffer, hdata, -⟩
  obtain ⟨s, hs', hpacked⟩ := pack_packed (Behind.all 9).pack 7 exampleInfo
  cases hs'.symm.trans hs
  cases hlost.symm.trans hbuffer
  rw [hpacked.toList] at hdata
  exact absurd hdata (by decide)

end Dwhbll.Network.Dns.Resolver
