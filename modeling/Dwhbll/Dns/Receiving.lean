import Dwhbll.Dns.Resolving
import Dwhbll.Dns.Wire

/-!
# The message that a server's bytes stand for

A question is answered with the message that the bytes of the reply stand for, whether they come in a datagram or in
segments.
-/

namespace Dwhbll.Network.Dns.Resolver

open Collections

variable {bs : List UInt8} {m : Message}

/-- The server answers a question over UDP with this datagram. -/
def SendsDatagram (w : World) (addr : UInt32) (bs : List UInt8) : Prop :=
  ∀ sent bytes, w.udp (sent ++ [(addr, .udp bytes)]) = .received bs

/-- The server answers a question over TCP with this message behind its length. The two reads that the code makes, one of
the length and one of the rest, return the whole of it: it does not read on where a message comes in more segments. -/
def SendsSegments (w : World) (addr : UInt32) (bs : List UInt8) : Prop :=
  ∀ sent bytes, w.tcp (sent ++ [(addr, .tcp bytes)]) = .received ((withLength bs).take 2) bs

/-! ## Streams -/

theorem isPrefix_recvInto {cells : List UInt8} (h : bs.length ≤ cells.length) : bs <+: recvInto bs cells := by
  rw [recvInto, List.take_of_length_le h]
  exact List.prefix_append bs _

theorem length_recvInto {cells : List UInt8} (h : bs.length ≤ cells.length) : (recvInto bs cells).length = cells.length := by
  rw [recvInto, List.take_of_length_le h, List.length_append, List.length_drop]
  omega

theorem used_data (mem : Nat → UInt8) {r : Collections.Ring UInt8} {count : Nat} (hle : count ≤ r.capacity) :
    (r.used mem count).data = r.data ∧ (r.used mem count).head = r.head := by
  rw [Collections.Ring.used_eq_of_le mem hle]
  exact ⟨rfl, rfl⟩

theorem datagramStream_holds (mem : Nat → UInt8) (h : bs.length ≤ 512) : Holds (datagramStream mem bs).data 0 bs := by
  generalize hsize : 512 = size at h
  have hcap : (({} : MemoryStream).data.resizeTo mem size).data.length = size := Collections.Ring.resizeTo_capacity ..
  simp only [datagramStream, hsize]
  generalize hr : ({} : MemoryStream).data.resizeTo mem size = r at hcap
  rw [← hcap] at h
  have hcount : (bs.take r.data.length).length ≤ (recvInto bs r.data).length := by
    rw [List.take_of_length_le h, length_recvInto h]
    exact h
  obtain ⟨hdata, hhead⟩ := used_data (r := { r with data := recvInto bs r.data }) mem hcount
  refine Domain.holds_of_isPrefix (hhead.trans ?_) (hdata ▸ isPrefix_recvInto h)
  rw [← hr]
  rfl

theorem segmentStream_holds (mem : Nat → UInt8) : Holds (segmentStream mem bs.length bs).data 0 bs := by
  have hcap : (({} : MemoryStream).data.resizeTo mem bs.length).capacity = bs.length := Collections.Ring.resizeTo_capacity ..
  have hused := used_data mem (Nat.le_of_eq hcap.symm)
  refine Domain.holds_of_isPrefix (hused.2.trans rfl) (isPrefix_recvInto (Nat.le_of_eq ?_))
  rw [hused.1]
  exact hcap.symm

theorem toUInt16_and (b : UInt8) : b.toUInt16 &&& 0xFF = b.toUInt16 := by
  have hand : b &&& 0xFF = b := UInt8.and_neg_one
  exact (UInt8.toUInt16_and b 0xFF).symm.trans (congrArg UInt8.toUInt16 hand)

theorem segmentSize_withLength (h : bs.length < 65536) : (segmentSize ((withLength bs).take 2)).toNat = bs.length := by
  have hsize : ∀ high low : UInt8, segmentSize [high, low] = Words.ofBytes high low := by
    intro high low
    have hhigh : (high.toUInt16 <<< 8) &&& (0xFF00 : UInt16) = high.toUInt16 <<< 8 := by
      have hshift := UInt16.shiftLeft_and (a := high.toUInt16) (b := 0xFF) (c := 8)
      rw [toUInt16_and] at hshift
      exact hshift.symm
    show ((high.toUInt16 <<< 8) &&& (0xFF00 : UInt16)) ||| (low.toUInt16 &&& 0xFF) = _
    rw [hhigh, toUInt16_and, Words.ofBytes]
  rw [withLength, List.take_succ_cons, List.take_succ_cons, List.take_zero, hsize, Words.toNat_ofBytes, UInt8.toNat_ofNat',
    UInt8.toNat_ofNat']
  omega

/-! ## One question -/

theorem unpackFrom_reads {data : Collections.Ring UInt8} (hbuf : Holds data 0 bs) (hm : MessageAt bs m) :
    ∃ n, ∀ fuel ≥ n, unpackFrom fuel ⟨data, 0⟩ = .ok m := by
  obtain ⟨next, n, hn⟩ := hm.reads hbuf
  refine ⟨n, fun fuel hfuel => ?_⟩
  rw [unpackFrom, hn fuel hfuel]
  rfl

theorem askUdp_reads (w : World) (hlen : bs.length ≤ 512) (hm : MessageAt bs m) :
    ∃ n, ∀ fuel ≥ n, ∀ addr bytes s, SendsDatagram w addr bs →
      askUdp w fuel addr bytes s = (.ok m, { s with sent := s.sent ++ [(addr, .udp bytes)] }) := by
  obtain ⟨n, hn⟩ := unpackFrom_reads (datagramStream_holds w.resized hlen) hm
  refine ⟨n, fun fuel hfuel addr bytes s hudp => ?_⟩
  have hunpack := hn fuel hfuel
  rw [askUdp, hudp]
  generalize hstream : datagramStream w.resized bs = stream at hunpack
  have hhead : stream.currentHead = 0 := by rw [← hstream]; rfl
  simp only [hstream]
  rw [show stream = ⟨stream.data, 0⟩ by rw [← hhead], hunpack]

theorem askTcp_reads (w : World) (hlen : bs.length < 65536) (hm : MessageAt bs m) :
    ∃ n, ∀ fuel ≥ n, ∀ addr bytes s, SendsSegments w addr bs → (askTcp w fuel addr bytes s).1 = .ok m := by
  obtain ⟨n, hn⟩ := unpackFrom_reads (segmentStream_holds w.resized) hm
  refine ⟨n, fun fuel hfuel addr bytes s htcp => ?_⟩
  rw [askTcp, htcp]
  simp only [segmentSize_withLength hlen]
  exact hn fuel hfuel

theorem ask_datagram (w : World) (hlen : bs.length ≤ 512) (hm : MessageAt bs m) (htc : m.header.tc = false) :
    ∃ n, ∀ fuel ≥ n, ∀ addr domain s, SendsDatagram w addr bs → (Domain.format domain.labels).length ≤ 494 →
      (ask w fuel addr domain s).1 = .ok m := by
  obtain ⟨n, hn⟩ := askUdp_reads w hlen hm
  refine ⟨n, fun fuel hfuel addr domain s hudp hshort => ?_⟩
  obtain ⟨buffer, hbuffer, hsize⟩ := nextBuffer_eq w domain s
  rw [ask, Query.run_bind, hbuffer]
  simp only [hsize, if_pos (Nat.add_le_add_right hshort 18), Query.run_bind, hn fuel hfuel addr _ _ hudp, htc]
  rfl

theorem ask_segments {part : List UInt8} {cut : Message} (w : World) (hlen : bs.length < 65536) (hm : MessageAt bs m)
    (hpartlen : part.length ≤ 512) (hpart : MessageAt part cut) (htc : cut.header.tc = true) :
    ∃ n, ∀ fuel ≥ n, ∀ addr domain s, SendsSegments w addr bs →
      ((Domain.format domain.labels).length ≤ 494 → SendsDatagram w addr part) → (ask w fuel addr domain s).1 = .ok m := by
  obtain ⟨n, hn⟩ := askTcp_reads w hlen hm
  obtain ⟨k, hk⟩ := askUdp_reads w hpartlen hpart
  refine ⟨max k n, fun fuel hfuel addr domain s hsegments hdatagram => ?_⟩
  have hrest := fun bytes s => hn fuel (Nat.le_trans (Nat.le_max_right k n) hfuel) addr bytes s hsegments
  obtain ⟨buffer, hbuffer, hsize⟩ := nextBuffer_eq w domain s
  rw [ask, Query.run_bind, hbuffer]
  by_cases hshort : (Domain.format domain.labels).length ≤ 494
  · simp only [hsize, if_pos (Nat.add_le_add_right hshort 18), Query.run_bind,
      hk fuel (Nat.le_trans (Nat.le_max_left k n) hfuel) addr _ _ (hdatagram hshort), htc, if_true]
    exact hrest _ _
  · simp only [hsize, if_neg (fun h => hshort (Nat.le_of_add_le_add_right h))]
    exact hrest _ _

/-- A question that fits in a datagram is answered with the message that the datagram of the server stands for, which has
at most the 512 bytes that there is room for. If that says that it has been cut off, or the question does not fit, it is
answered with the message that the segments stand for. -/
theorem ask_reads (w : World) :
    (∀ bs m, bs.length ≤ 512 → MessageAt bs m → m.header.tc = false →
        ∃ n, ∀ fuel ≥ n, ∀ addr domain s, SendsDatagram w addr bs → (Domain.format domain.labels).length ≤ 494 →
          (ask w fuel addr domain s).1 = .ok m) ∧
      ∀ bs m part cut, bs.length < 65536 → MessageAt bs m → part.length ≤ 512 → MessageAt part cut → cut.header.tc = true →
        ∃ n, ∀ fuel ≥ n, ∀ addr domain s, SendsSegments w addr bs →
          ((Domain.format domain.labels).length ≤ 494 → SendsDatagram w addr part) →
          (ask w fuel addr domain s).1 = .ok m :=
  ⟨fun _ _ => ask_datagram w, fun _ _ _ _ => ask_segments w⟩

/-- The question for `a`, and `a A 1.2.3.4` with a pointer to the name in the question. -/
def pointingBytes : List UInt8 :=
  [0, 7, 0x84, 0, 0, 1, 0, 1, 0, 0, 0, 0] ++ ([1, 97, 0, 0, 1, 0, 1] ++
    [192, 12, 0, 1, 0, 1, 0, 0, 0, 60, 0, 4, 1, 2, 3, 4])

def pointing : Message where
  header := ⟨7, true, 0, true, false, false, false, 0, 0, 1, 1, 0, 0⟩
  questions := [⟨nameA, QTYPE.A, 1⟩]
  answers := [⟨nameA, QTYPE.A, 1, 60, 4, .a 0x01020304⟩]
  authorities := []
  additionals := []

/-- A reply that has been cut off behind its header. -/
def cutBytes : List UInt8 := [0, 7, 0x82, 0, 0, 0, 0, 0, 0, 0, 0, 0]

def cut : Message where
  header := ⟨7, true, 0, false, true, false, false, 0, 0, 0, 0, 0, 0⟩
  questions := []
  answers := []
  authorities := []
  additionals := []

theorem messageAt_pointing : MessageAt pointingBytes pointing where
  header := ⟨by decide, ⟨by decide, by decide, by decide⟩⟩
  counts := by decide
  sections := by
    have hname : Domain.Expands pointingBytes 12 [[97]] 15 :=
      .label (n := 1) rfl (by decide) (by decide) (by decide) (.root rfl)
    have hpointer : Domain.Expands pointingBytes 19 [[97]] 21 := .pointer rfl (by decide) rfl hname
    have hdata : DataAt pointingBytes 31 QTYPE.A (.a 0x01020304) 35 := .a (by decide)
    have hquestion : QuestionAt pointingBytes 12 ⟨nameA, QTYPE.A, 1⟩ 19 :=
      @QuestionAt.mk _ _ nameA 1 1 _ ⟨_, hname, rfl⟩ (by decide)
    have hanswer : RecordAt pointingBytes 19 ⟨nameA, QTYPE.A, 1, 60, 4, .a 0x01020304⟩ 35 :=
      @RecordAt.mk _ _ nameA 1 1 4 60 _ _ ⟨_, hpointer, rfl⟩ (by decide) hdata
    exact ⟨19, 35, 35, 35, .cons hquestion .nil, .cons hanswer .nil, .nil, .nil⟩

theorem messageAt_cut : MessageAt cutBytes cut where
  header := ⟨by decide, ⟨by decide, by decide, by decide⟩⟩
  counts := by decide
  sections := ⟨12, 12, 12, 12, .nil, .nil, .nil, .nil⟩

/-- The datagram is cut off, and the answer comes over TCP. -/
def cutting : World where
  behind _ := Behind.all 9
  resized _ := 9
  udp _ := .received cutBytes
  tcp _ := .received ((withLength pointingBytes).take 2) pointingBytes

theorem ask_reads_pointing : ∃ n, ∀ fuel ≥ n, ∀ s, (ask cutting fuel 7 nameA s).1 = .ok pointing := by
  obtain ⟨n, hn⟩ := (ask_reads cutting).2 pointingBytes pointing cutBytes cut (by decide) messageAt_pointing (by decide)
    messageAt_cut rfl
  exact ⟨n, fun fuel hfuel s => hn fuel hfuel 7 nameA s (fun _ _ => rfl) fun _ _ _ => rfl⟩

end Dwhbll.Network.Dns.Resolver
