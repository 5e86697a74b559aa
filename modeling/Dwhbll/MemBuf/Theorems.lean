import Dwhbll.Lib.Words
import Dwhbll.MemBuf.Contents
import Mathlib.Algebra.GroupWithZero.Nat

/-!
# What is written to a `MemBuf` is read from it

As long as there are no more than 1024 bytes in the ring its storage stays where it is, and the ring is a queue of
bytes. Each kind of value has an encoding, which the writes append and the reads take from the front.
-/

namespace Dwhbll.Collections.MemBuf

open Transition

/-! ## The ring as a queue of bytes -/

/-- The bytes `xs` are in the ring of capacity 1024. -/
structure Holds (b : MemBuf) (e : Bool) (xs : List UInt8) : Prop where
  wf : b.buffer.WF
  capacity : b.buffer.capacity = 1024
  toList : b.buffer.toList = xs
  bigEndian : b.bigEndian = e

variable {b : MemBuf} {e : Bool} {xs : List UInt8}

theorem new_holds : new.Holds false [] where
  wf := Ring.new_wf (by omega)
  capacity := List.length_replicate
  toList := rfl
  bigEndian := rfl

theorem Holds.setBigEndian (h : b.Holds e xs) (e' : Bool) : (b.setBigEndian e').Holds e' xs :=
  ⟨h.wf, h.capacity, h.toList, rfl⟩

theorem Holds.contains (h : b.Holds e xs) : b.Contains xs := ⟨h.wf, h.toList⟩

theorem Contains.holds {b' : MemBuf} (h : b'.Contains xs) (hsame : SameStorage b b') (hcap : b.buffer.capacity = 1024)
    (he : b.bigEndian = e) : b'.Holds e xs :=
  ⟨h.wf, hsame.capacity.trans hcap, h.toList, hsame.bigEndian.trans he⟩

theorem Holds.sz_eq (h : b.Holds e xs) : b.buffer.sz = xs.length := h.contains.sz_eq

theorem Holds.writeU8 (h : b.Holds e xs) (mem : Nat → UInt8) (x : UInt8) (hroom : xs.length + 1 ≤ 1024) :
    (b.writeU8 mem x).Holds e (xs ++ [x]) := by
  obtain ⟨hx, hsame⟩ := h.contains.writeU8 mem x (by rw [h.capacity]; omega)
  exact hx.holds hsame h.capacity h.bigEndian

theorem Holds.readU8 {x : UInt8} (h : b.Holds e (x :: xs)) : ∃ b', readU8 b = (.ok x, b') ∧ b'.Holds e xs := by
  obtain ⟨b', hread, hb', hsame, -⟩ := h.contains.readU8
  exact ⟨b', hread, hb'.holds hsame h.capacity h.bigEndian⟩

theorem Holds.peekU8 {x : UInt8} (h : b.Holds e (x :: xs)) : b.peekU8 0 = some x := by
  have hlt := h.wf.head_lt
  have hle : ¬ b.buffer.head > b.buffer.capacity := by omega
  have hfront := h.contains.front
  rw [Ring.front, List.getElem?_eq_getElem hlt, Option.getD_some] at hfront
  simp only [MemBuf.peekU8, Ring.get?, Nat.zero_add, if_neg hle]
  rw [List.getElem?_eq_getElem hlt, hfront]

theorem Holds.isBigEndian (h : b.Holds e xs) : isBigEndian b = (.ok e, b) := by
  rw [MemBuf.isBigEndian, h.bigEndian]

/-! ## Encodings -/

def encodeU16 (e : Bool) (v : UInt16) : List UInt8 :=
  if e then [(v >>> 8).toUInt8, (v &&& 0xFF).toUInt8] else [(v &&& 0xFF).toUInt8, (v >>> 8).toUInt8]

def encodeU32 (e : Bool) (v : UInt32) : List UInt8 :=
  if e then encodeU16 e (v >>> 16).toUInt16 ++ encodeU16 e (v &&& 0xFFFF).toUInt16
  else encodeU16 e (v &&& 0xFFFF).toUInt16 ++ encodeU16 e (v >>> 16).toUInt16

def encodeU64 (e : Bool) (v : UInt64) : List UInt8 :=
  if e then encodeU32 e (v >>> 32).toUInt32 ++ encodeU32 e (v &&& 0xFFFFFFFF).toUInt32
  else encodeU32 e (v &&& 0xFFFFFFFF).toUInt32 ++ encodeU32 e (v >>> 32).toUInt32

@[simp] theorem encodeU16_length (e : Bool) (v : UInt16) : (encodeU16 e v).length = 2 := by
  unfold encodeU16
  split <;> rfl

@[simp] theorem encodeU32_length (e : Bool) (v : UInt32) : (encodeU32 e v).length = 4 := by
  unfold encodeU32
  split <;> simp

@[simp] theorem encodeU64_length (e : Bool) (v : UInt64) : (encodeU64 e v).length = 8 := by
  unfold encodeU64
  split <;> simp

/-! ## Writes -/

theorem Holds.writeU16 (h : b.Holds e xs) (mem : Nat → UInt8) (v : UInt16) (hroom : xs.length + 2 ≤ 1024) :
    (b.writeU16 mem v).Holds e (xs ++ encodeU16 e v) := by
  have hstep : ∀ x y, ((b.writeU8 mem x).writeU8 mem y).Holds e (xs ++ [x, y]) := by
    intro x y
    have hx := h.writeU8 mem x (by omega)
    rw [List.append_cons]
    exact hx.writeU8 mem y (by simp; omega)
  unfold MemBuf.writeU16 encodeU16
  rw [h.bigEndian]
  cases e with
  | false => exact hstep _ _
  | true => exact hstep _ _

theorem Holds.writeU32 (h : b.Holds e xs) (mem : Nat → UInt8) (v : UInt32) (hroom : xs.length + 4 ≤ 1024) :
    (b.writeU32 mem v).Holds e (xs ++ encodeU32 e v) := by
  have hstep : ∀ x y, ((b.writeU16 mem x).writeU16 mem y).Holds e (xs ++ (encodeU16 e x ++ encodeU16 e y)) := by
    intro x y
    have hx := h.writeU16 mem x (by omega)
    rw [← List.append_assoc]
    exact hx.writeU16 mem y (by simp; omega)
  unfold MemBuf.writeU32 encodeU32
  rw [h.bigEndian]
  cases e with
  | false => exact hstep _ _
  | true => exact hstep _ _

theorem Holds.writeU64 (h : b.Holds e xs) (mem : Nat → UInt8) (v : UInt64) (hroom : xs.length + 8 ≤ 1024) :
    (b.writeU64 mem v).Holds e (xs ++ encodeU64 e v) := by
  have hstep : ∀ x y, ((b.writeU32 mem x).writeU32 mem y).Holds e (xs ++ (encodeU32 e x ++ encodeU32 e y)) := by
    intro x y
    have hx := h.writeU32 mem x (by omega)
    rw [← List.append_assoc]
    exact hx.writeU32 mem y (by simp; omega)
  unfold MemBuf.writeU64 encodeU64
  rw [h.bigEndian]
  cases e with
  | false => exact hstep _ _
  | true => exact hstep _ _

theorem Holds.writeVector (h : b.Holds e xs) (mem : Nat → UInt8) (data : List UInt8)
    (hroom : xs.length + data.length ≤ 1024) : (b.writeVector mem data).Holds e (xs ++ data) := by
  obtain ⟨hdata, hsame⟩ := h.contains.writeVector mem data (by rwa [h.capacity])
  exact hdata.holds hsame h.capacity h.bigEndian

/-! ## Reads -/

theorem Holds.readU16_halves {x y : UInt8} (h : b.Holds e (x :: y :: xs)) :
    ∃ b', readU16 b =
        (.ok (if e then (x.toUInt16 &&& 0xFF) <<< 8 ||| (y.toUInt16 &&& 0xFF)
          else (y.toUInt16 &&& 0xFF) <<< 8 ||| (x.toUInt16 &&& 0xFF)), b') ∧ b'.Holds e xs := by
  obtain ⟨b1, hr1, h1⟩ := h.readU8
  obtain ⟨b2, hr2, h2⟩ := h1.readU8
  refine ⟨b2, ?_, h2⟩
  rw [MemBuf.readU16, bind_ok hr1, bind_ok hr2, bind_ok h2.isBigEndian]
  rfl

theorem Holds.readU16 {v : UInt16} (h : b.Holds e (encodeU16 e v ++ xs)) :
    ∃ b', readU16 b = (.ok v, b') ∧ b'.Holds e xs := by
  unfold encodeU16 at h
  cases e with
  | false =>
      rw [if_neg Bool.false_ne_true] at h
      obtain ⟨b', hr, h'⟩ := h.readU16_halves
      rw [if_neg Bool.false_ne_true, Words.uInt16_halves] at hr
      exact ⟨b', hr, h'⟩
  | true =>
      rw [if_pos rfl] at h
      obtain ⟨b', hr, h'⟩ := h.readU16_halves
      rw [if_pos rfl, Words.uInt16_halves] at hr
      exact ⟨b', hr, h'⟩

theorem Holds.readU32_halves {x y : UInt16} (h : b.Holds e (encodeU16 e x ++ (encodeU16 e y ++ xs))) :
    ∃ b', readU32 b =
        (.ok (if e then (x.toUInt32 &&& 0xFFFF) <<< 16 ||| (y.toUInt32 &&& 0xFFFF)
          else (y.toUInt32 &&& 0xFFFF) <<< 16 ||| (x.toUInt32 &&& 0xFFFF)), b') ∧ b'.Holds e xs := by
  obtain ⟨b1, hr1, h1⟩ := h.readU16
  obtain ⟨b2, hr2, h2⟩ := h1.readU16
  refine ⟨b2, ?_, h2⟩
  rw [MemBuf.readU32, bind_ok hr1, bind_ok hr2, bind_ok h2.isBigEndian]
  rfl

theorem Holds.readU32 {v : UInt32} (h : b.Holds e (encodeU32 e v ++ xs)) :
    ∃ b', readU32 b = (.ok v, b') ∧ b'.Holds e xs := by
  unfold encodeU32 at h
  cases e with
  | false =>
      rw [if_neg Bool.false_ne_true, List.append_assoc] at h
      obtain ⟨b', hr, h'⟩ := h.readU32_halves
      rw [if_neg Bool.false_ne_true, Words.uInt32_halves] at hr
      exact ⟨b', hr, h'⟩
  | true =>
      rw [if_pos rfl, List.append_assoc] at h
      obtain ⟨b', hr, h'⟩ := h.readU32_halves
      rw [if_pos rfl, Words.uInt32_halves] at hr
      exact ⟨b', hr, h'⟩

theorem Holds.readU64_halves {x y : UInt32} (h : b.Holds e (encodeU32 e x ++ (encodeU32 e y ++ xs))) :
    ∃ b', readU64 b =
        (.ok (if e then (x.toUInt64 &&& 0xFFFFFFFF) <<< 32 ||| (y.toUInt64 &&& 0xFFFFFFFF)
          else (y.toUInt64 &&& 0xFFFFFFFF) <<< 32 ||| (x.toUInt64 &&& 0xFFFFFFFF)), b') ∧ b'.Holds e xs := by
  obtain ⟨b1, hr1, h1⟩ := h.readU32
  obtain ⟨b2, hr2, h2⟩ := h1.readU32
  refine ⟨b2, ?_, h2⟩
  rw [MemBuf.readU64, bind_ok hr1, bind_ok hr2, bind_ok h2.isBigEndian]
  rfl

theorem Holds.readU64 {v : UInt64} (h : b.Holds e (encodeU64 e v ++ xs)) :
    ∃ b', readU64 b = (.ok v, b') ∧ b'.Holds e xs := by
  unfold encodeU64 at h
  cases e with
  | false =>
      rw [if_neg Bool.false_ne_true, List.append_assoc] at h
      obtain ⟨b', hr, h'⟩ := h.readU64_halves
      rw [if_neg Bool.false_ne_true, Words.uInt64_halves] at hr
      exact ⟨b', hr, h'⟩
  | true =>
      rw [if_pos rfl, List.append_assoc] at h
      obtain ⟨b', hr, h'⟩ := h.readU64_halves
      rw [if_pos rfl, Words.uInt64_halves] at hr
      exact ⟨b', hr, h'⟩

theorem Holds.readVector {data : List UInt8} (h : b.Holds e (data ++ xs)) :
    ∃ b', readVector data.length b = (.ok data, b') ∧ b'.Holds e xs := by
  obtain ⟨b', hread, hb', hsame, -⟩ := h.contains.readVector
  exact ⟨b', hread, hb'.holds hsame h.capacity h.bigEndian⟩

theorem Holds.popFront {x : UInt8} (h : b.Holds e (x :: xs)) : ∃ b', popFront b = (.ok (), b') ∧ b'.Holds e xs := by
  obtain ⟨b', hread, hb'⟩ := h.readU8
  have hsz := h.sz_eq
  obtain ⟨r, hpop, -, -⟩ := Ring.popFront_spec h.wf (by rw [hsz]; simp)
  refine ⟨b', ?_, hb'⟩
  simp only [MemBuf.readU8, hpop] at hread
  cases hread
  simp only [MemBuf.popFront, hpop]

theorem Holds.skip {data : List UInt8} (h : b.Holds e (data ++ xs)) :
    ∃ b', skip data.length b = (.ok (), b') ∧ b'.Holds e xs := by
  induction data generalizing b with
  | nil => exact ⟨b, rfl, h⟩
  | cons x data ih =>
      obtain ⟨b1, hp1, h1⟩ := h.popFront
      obtain ⟨b2, hp2, h2⟩ := ih h1
      refine ⟨b2, ?_, h2⟩
      rw [List.length_cons, MemBuf.skip, bind_ok hp1, hp2]

/-! ## Straightening -/

theorem Holds.makeCont (h : b.Holds e xs) (mem : Nat → UInt8) (hlt : xs.length < 1024) :
    ({ b with buffer := b.buffer.makeCont mem } : MemBuf).Holds e xs := by
  have hroom : b.buffer.sz < b.buffer.capacity := by rwa [h.sz_eq, h.capacity]
  exact ⟨h.wf.makeCont mem hroom, (Ring.makeCont_capacity mem b.buffer).trans h.capacity,
    (Ring.makeCont_toList mem h.wf hroom).trans h.toList, h.bigEndian⟩

/-- From the first cell on there is what the ring holds. -/
theorem Holds.data_take (h : b.Holds e xs) (h0 : b.buffer.head = 0) : b.buffer.data.take xs.length = xs := by
  have hlist := h.toList
  rwa [Ring.toList, h0, Circular.window_at_zero h.wf.sz_le, h.sz_eq] at hlist

/-! ## A queue of values -/

/-- The values that are written and not yet read, each with the byte order it was written in. -/
structure Fifo where
  queue : List (Bool × Value)
  bigEndian : Bool
  deriving DecidableEq, Repr

namespace Fifo

def init : Fifo := ⟨[], false⟩

def write (v : Value) (q : Fifo) : Answer × Fifo := (none, { q with queue := q.queue ++ [(q.bigEndian, v)] })

/-- The value that was written first of those that are left. -/
def read (q : Fifo) : Answer × Fifo := (q.queue.head?.map fun v => .ok v.2, { q with queue := q.queue.tail })

def step (q : Fifo) : (Nat → UInt8) × Op → Answer × Fifo
  | (_, .setBigEndian endian) => (none, { q with bigEndian := endian })
  | (_, .writeU8 data) => q.write (.u8 data)
  | (_, .writeU16 data) => q.write (.u16 data)
  | (_, .writeU32 data) => q.write (.u32 data)
  | (_, .writeU64 data) => q.write (.u64 data)
  | (_, .writeVector data) | (_, .writeString data) => q.write (.bytes data)
  | (_, .readU8) | (_, .readU16) | (_, .readU32) | (_, .readU64) | (_, .readVector _) => q.read

end Fifo

def Value.size : Value → Nat
  | .u8 _ => 1
  | .u16 _ => 2
  | .u32 _ => 4
  | .u64 _ => 8
  | .bytes v => v.length

def Op.written : Op → Option Value
  | .writeU8 data => some (.u8 data)
  | .writeU16 data => some (.u16 data)
  | .writeU32 data => some (.u32 data)
  | .writeU64 data => some (.u64 data)
  | .writeVector data | .writeString data => some (.bytes data)
  | _ => none

/-- The call reads a value of this kind and length. The byte order has to be that of the write where it matters. -/
def Op.fits (e : Bool) : Op → Bool × Value → Bool
  | .readU8, (_, .u8 _) => true
  | .readU16, (e', .u16 _) => e = e'
  | .readU32, (e', .u32 _) => e = e'
  | .readU64, (e', .u64 _) => e = e'
  | .readVector size, (_, .bytes v) => v.length = size
  | _, _ => false

def Fifo.unread (q : Fifo) : Nat := (q.queue.map fun v => v.2.size).sum

def Op.isRead : Op → Bool
  | .readU8 | .readU16 | .readU32 | .readU64 | .readVector _ => true
  | _ => false

/-- What is asked of the calls: the values that are not yet read take no more than 1024 bytes, and a read fits the
value that was written first. -/
def Fits (q : Fifo) (call : (Nat → UInt8) × Op) : Prop :=
  (q.step call).2.unread ≤ 1024 ∧ (call.2.isRead → q.queue.head?.any (call.2.fits q.bigEndian))

instance (q : Fifo) (call : (Nat → UInt8) × Op) : Decidable (Fits q call) :=
  inferInstanceAs (Decidable (_ ∧ (_ → _)))

def encode : Bool × Value → List UInt8
  | (_, .u8 v) => [v]
  | (e, .u16 v) => encodeU16 e v
  | (e, .u32 v) => encodeU32 e v
  | (e, .u64 v) => encodeU64 e v
  | (_, .bytes v) => v

theorem encode_length (v : Bool × Value) : (encode v).length = v.2.size := by
  obtain ⟨e, v⟩ := v
  cases v <;> simp [encode, Value.size]

/-- The ring holds the encodings of the values. -/
def Stands (q : Fifo) (b : MemBuf) : Prop := b.Holds q.bigEndian (q.queue.flatMap encode)

variable {q : Fifo}

theorem flatMap_encode_length (vs : List (Bool × Value)) :
    (vs.flatMap encode).length = (vs.map fun v => v.2.size).sum := by
  rw [List.length_flatMap]
  simp only [encode_length]

theorem stands_write {v : Value}
    (h : b.Holds q.bigEndian (q.queue.flatMap encode ++ encode (q.bigEndian, v))) : Stands (q.write v).2 b := by
  unfold Stands Fifo.write
  rw [List.flatMap_append, List.flatMap_singleton]
  exact h

theorem room_of_write {v : Value} (h : (q.write v).2.unread ≤ 1024) :
    (q.queue.flatMap encode).length + v.size ≤ 1024 := by
  rw [flatMap_encode_length]
  simpa [Fifo.unread, Fifo.write] using h

theorem stands_read {α : Type} {f : α → Value} {m : M α} {v : Bool × Value} {rest : List (Bool × Value)} {a : α}
    {b' : MemBuf} (hq : q.queue = v :: rest) (hm : m b = (.ok a, b')) (hf : f a = v.2)
    (hb' : b'.Holds q.bigEndian (rest.flatMap encode)) :
    q.read.1 = (answer f m b).1 ∧ Stands q.read.2 (answer f m b).2 := by
  unfold Stands
  simp only [Fifo.read, answer, hm, hq, List.head?_cons, List.tail_cons, Option.map_some, Except.map, hf]
  exact ⟨trivial, hb'⟩

theorem Stands.read (h : Stands q b) {v : Bool × Value} {rest : List (Bool × Value)} (hq : q.queue = v :: rest)
    (mem : Nat → UInt8) {op : Op} (hfits : op.fits q.bigEndian v) :
    q.read.1 = (b.step (mem, op)).1 ∧ Stands q.read.2 (b.step (mem, op)).2 := by
  unfold Stands at h
  rw [hq, List.flatMap_cons] at h
  match op, v, hfits with
  | .readU8, (_, .u8 x), _ =>
      obtain ⟨b', hr, h'⟩ := h.readU8
      exact stands_read hq hr rfl h'
  | .readU16, (e, .u16 x), hfits =>
      rw [← of_decide_eq_true hfits] at h
      obtain ⟨b', hr, h'⟩ := h.readU16
      exact stands_read hq hr rfl h'
  | .readU32, (e, .u32 x), hfits =>
      rw [← of_decide_eq_true hfits] at h
      obtain ⟨b', hr, h'⟩ := h.readU32
      exact stands_read hq hr rfl h'
  | .readU64, (e, .u64 x), hfits =>
      rw [← of_decide_eq_true hfits] at h
      obtain ⟨b', hr, h'⟩ := h.readU64
      exact stands_read hq hr rfl h'
  | .readVector size, (_, .bytes data), hfits =>
      obtain rfl := of_decide_eq_true hfits
      obtain ⟨b', hr, h'⟩ := h.readVector
      exact stands_read hq hr rfl h'

theorem Stands.step (h : Stands q b) {call : (Nat → UInt8) × Op} (hfits : Fits q call) :
    (q.step call).1 = (b.step call).1 ∧ Stands (q.step call).2 (b.step call).2 := by
  obtain ⟨mem, op⟩ := call
  obtain ⟨hroom, hread⟩ := hfits
  cases op with
  | setBigEndian e => exact ⟨rfl, h.setBigEndian e⟩
  | writeU8 data => exact ⟨rfl, stands_write (Holds.writeU8 h mem data (room_of_write hroom))⟩
  | writeU16 data => exact ⟨rfl, stands_write (Holds.writeU16 h mem data (room_of_write hroom))⟩
  | writeU32 data => exact ⟨rfl, stands_write (Holds.writeU32 h mem data (room_of_write hroom))⟩
  | writeU64 data => exact ⟨rfl, stands_write (Holds.writeU64 h mem data (room_of_write hroom))⟩
  | writeVector data | writeString data =>
      exact ⟨rfl, stands_write (Holds.writeVector h mem data (room_of_write hroom))⟩
  | readU8 | readU16 | readU32 | readU64 | readVector size =>
      have hany := hread rfl
      cases hq : q.queue with
      | nil => simp [hq] at hany
      | cons v rest =>
          rw [hq] at hany
          exact h.read hq mem hany

theorem fifo_simulates : Simulation Fifo.step step Fits Stands where
  answer _ _ _ h hfits := (h.step hfits).1
  related _ _ _ h hfits := (h.step hfits).2

/-! ## What the queue answers -/

def written (calls : List ((Nat → UInt8) × Op)) : List Value := calls.filterMap fun call => call.2.written

/-- What is answered and what is left is what was there and what is written. -/
theorem Fifo.step_answer {q : Fifo} {call : (Nat → UInt8) × Op} (h : Fits q call) :
    (q.step call).1.toList ++ (q.step call).2.queue.map (fun v => Except.ok v.2) =
      (q.queue.map (·.2) ++ call.2.written.toList).map .ok := by
  obtain ⟨mem, op⟩ := call
  cases op with
  | setBigEndian e => simp [Fifo.step, Op.written]
  | writeU8 data | writeU16 data | writeU32 data | writeU64 data | writeVector data | writeString data =>
      simp [Fifo.step, Fifo.write, Op.written]
  | readU8 | readU16 | readU32 | readU64 | readVector size =>
      have hany := h.2 rfl
      cases hq : q.queue with
      | nil => simp [hq] at hany
      | cons v rest => simp [Fifo.step, Fifo.read, Op.written, hq]

theorem Fifo.run_answers {q : Fifo} {calls : List ((Nat → UInt8) × Op)} (h : Along Fifo.step Fits q calls) :
    (run Fifo.step q calls).1.filterMap id ++ (run Fifo.step q calls).2.queue.map (fun v => Except.ok v.2) =
      (q.queue.map (·.2) ++ written calls).map .ok := by
  induction calls generalizing q with
  | nil => simp [run, written]
  | cons call calls ih =>
      have hstep := Fifo.step_answer h.1
      have hwritten : written (call :: calls) = call.2.written.toList ++ written calls := by
        unfold written
        rw [List.filterMap_cons]
        cases call.2.written <;> rfl
      have hrun : (run Fifo.step q (call :: calls)).1.filterMap id =
          (q.step call).1.toList ++ (run Fifo.step (q.step call).2 calls).1.filterMap id := by
        rw [run, List.filterMap_cons]
        cases (q.step call).1 <;> rfl
      calc
        _ = (q.step call).1.toList ++ ((q.step call).2.queue.map (·.2) ++ written calls).map Except.ok := by
          rw [hrun, List.append_assoc, ← ih h.2]
          rfl
        _ = (q.step call).1.toList ++ (q.step call).2.queue.map (fun v => Except.ok v.2) ++
            (written calls).map Except.ok := by simp
        _ = _ := by rw [hstep, ← List.map_append, List.append_assoc, hwritten]

/-- As long as the calls fit, they answer as a queue of values does: every read gives back a value as it was written,
and the values come in the order in which they were written. -/
theorem reads_written {calls : List ((Nat → UInt8) × Op)} (h : Along Fifo.step Fits .init calls) :
    (run step new calls).1 = (run Fifo.step .init calls).1 ∧
      (run step new calls).1.filterMap id <+: (written calls).map .ok := by
  have hnew : Stands .init new := new_holds
  have hrun := fifo_simulates.run_eq hnew h
  refine ⟨hrun.symm, ?_⟩
  rw [← hrun]
  exact ⟨_, Fifo.run_answers h⟩

/-- A vector is written in the other byte order than the word before it. -/
def mixed (mem : Nat → UInt8) : List ((Nat → UInt8) × Op) :=
  [.writeU16 0x1234, .setBigEndian true, .writeVector [1, 2], .setBigEndian false, .readU16, .readVector 2].map (mem, ·)

theorem reads_written_mixed :
    Along Fifo.step Fits .init (mixed fun _ => 0) ∧
      (run step new (mixed fun _ => 0)).1 =
        [none, none, none, none, some (.ok (.u16 0x1234)), some (.ok (.bytes [1, 2]))] := by
  have h : Along Fifo.step Fits .init (mixed fun _ => 0) := by decide
  exact ⟨h, (reads_written h).1.trans rfl⟩

end Dwhbll.Collections.MemBuf
