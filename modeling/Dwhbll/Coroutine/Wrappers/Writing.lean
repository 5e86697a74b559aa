import Dwhbll.Coroutine.Wrappers.File
import Dwhbll.MemBuf.Theorems

/-!
# What is written goes to the file or waits

The file up to `write_head` and the bytes that wait in `wrbuf` are all that was written, at each point of each call, as
long as fewer than 1024 bytes wait.
-/

namespace Dwhbll.Concurrency.Coroutine.Wrappers

open Collections

/-- What a call is given to write. -/
def WriteOp.data : WriteOp → List UInt8
  | .write data => data
  | .drain => []

namespace Writer

variable {w w' : Writer} {pending rest bytes data : List UInt8} {mem : Nat → UInt8} {op : WriteOp} {a : Action}

/-! ## The kernel -/

theorem pwrite_take {contents : List UInt8} {offset : Nat} (hle : offset ≤ contents.length) (bytes : List UInt8) :
    (pwrite contents offset bytes).take (offset + bytes.length) = contents.take offset ++ bytes ∧
      offset + bytes.length ≤ (pwrite contents offset bytes).length := by
  unfold pwrite
  split
  · rename_i hnil
    subst hnil
    exact ⟨(List.append_nil _).symm, hle⟩
  · rw [Nat.sub_eq_zero_of_le hle, List.replicate_zero, List.append_nil]
    have hlen : (contents.take offset ++ bytes).length = offset + bytes.length := by
      rw [List.length_append, List.length_take, Nat.min_eq_left hle]
    refine ⟨?_, ?_⟩
    · rw [← hlen, List.take_left]
    · rw [List.length_append, hlen]
      exact Nat.le_add_right ..

/-- Bytes that are written behind others. -/
theorem pwrite_append (contents : List UInt8) (offset : Nat) (xs ys : List UInt8) :
    pwrite (pwrite contents offset xs) (offset + xs.length) ys = pwrite contents offset (xs ++ ys) := by
  by_cases hxs : xs = []
  · subst hxs
    simp [pwrite]
  by_cases hys : ys = []
  · subst hys
    simp [pwrite]
  have hbefore : ((contents ++ List.replicate (offset - contents.length) 0).take offset).length = offset := by
    simp only [List.length_take, List.length_append, List.length_replicate]
    omega
  unfold pwrite
  rw [if_neg hys, if_neg hxs, if_neg (by simp [hxs])]
  generalize (contents ++ List.replicate (offset - contents.length) 0).take offset = before at hbefore
  subst hbefore
  rw [← List.length_append, List.append_assoc _ (contents.drop _), List.take_left, ← List.drop_drop, List.drop_left,
    List.drop_drop, List.append_assoc before xs ys, ← List.append_assoc before xs ys]
  simp [Nat.add_assoc]

/-! ## The invariant -/

/-- `pending` waits, and with what is in the file it is `total`. -/
structure Holds (w : Writer) (pending total : List UInt8) : Prop where
  fd : 0 ≤ w.file.fd
  waits : w.file.wrbuf.Holds false pending
  le : w.file.writeHead ≤ w.contents.length
  sum : w.contents.take w.file.writeHead ++ pending = total

/-- What a point of a call needs. -/
def Fits (w : Writer) (pending : List UInt8) : Prop :=
  match w.pc with
  | .returned none | .returned (some (.write _)) => True
  | .returned (some .drain) => pending = []
  | .thrown _ => False
  | .flushing _ => w.file.wrbuf.buffer.head = 0
  | .writing _ => pending = []
  | .polling => True

structure Inv (w : Writer) : Prop where
  below : w.file.wrbuf.size < 1024
  holds : ∃ pending, w.Holds pending w.written ∧ Fits w pending

/-! ## Steps -/

/-- What the running call has been given, and is not in `wrbuf`. -/
def outstanding : Pc → List UInt8
  | .flushing op => op.data
  | .writing data => data
  | _ => []

def given : Action → List UInt8
  | .call _ op => op.data
  | _ => []

/-- What is not accepted has room. -/
def Room (w : Writer) : Action → Prop
  | .wrote _ wrote =>
      match w.pc with
      | .flushing op => wrote < w.file.wrbuf.size → w.file.wrbuf.size - wrote + op.data.length < 1024
      | .writing data => data.length - wrote < 1024
      | _ => True
  | _ => True

/-- The file has these contents, `todo` is still to be written from `head` on, and the calls have been given `all`. -/
structure At (w : Writer) (contents : List UInt8) (head : Nat) (todo all : List UInt8) : Prop where
  fd : 0 ≤ w.file.fd
  below : w.file.wrbuf.size < 1024
  contents_eq : w.contents = contents
  head_eq : w.file.writeHead = head
  waits : ∃ pending, w.file.wrbuf.Holds false pending ∧ Fits w pending ∧ pending ++ outstanding w.pc = todo
  written : w.written ++ outstanding w.pc = all

variable {contents todo all : List UInt8} {head : Nat}

theorem isEmpty_iff (hwaits : w.file.wrbuf.Holds false pending) : w.file.wrbuf.isEmpty = true ↔ pending = [] := by
  have hsize : w.file.wrbuf.size = pending.length := hwaits.sz_eq
  rw [MemBuf.isEmpty, decide_eq_true_eq, hsize, List.length_eq_zero_iff]

/-- The rest of the data waits behind what waits already. -/
theorem keep_at (hfd : 0 ≤ w.file.fd) (hwaits : w.file.wrbuf.Holds false pending)
    (hroom : pending.length + rest.length < 1024) :
    (w.keep mem data rest).At w.contents w.file.writeHead (pending ++ rest) (w.written ++ data) := by
  have hkept := hwaits.writeVector mem rest (Nat.le_of_lt hroom)
  refine ⟨hfd, ?_, rfl, rfl, ⟨pending ++ rest, hkept, trivial, List.append_nil _⟩, List.append_nil _⟩
  have hsize : (w.keep mem data rest).file.wrbuf.size = (pending ++ rest).length := hkept.sz_eq
  rwa [hsize, List.length_append]

theorem resume_at (hfd : 0 ≤ w.file.fd) (hwaits : w.file.wrbuf.Holds false pending) {result : Bool}
    (hresult : result = true ↔ pending = []) (hroom : pending ≠ [] → pending.length + op.data.length < 1024) :
    (w.resume mem op result).At w.contents w.file.writeHead (pending ++ op.data) (w.written ++ op.data) := by
  have hsize : w.file.wrbuf.size = pending.length := hwaits.sz_eq
  have hbelow : w.file.wrbuf.size < 1024 := by
    by_cases hnil : pending = []
    · rw [hsize, hnil]
      exact Nat.zero_lt_succ _
    · have := hroom hnil
      omega
  cases result with
  | true =>
      cases op with
      | write data => exact ⟨hfd, hbelow, rfl, rfl, ⟨pending, hwaits, hresult.mp rfl, rfl⟩, rfl⟩
      | drain => exact ⟨hfd, hbelow, rfl, rfl, ⟨pending, hwaits, hresult.mp rfl, rfl⟩, rfl⟩
  | false =>
      have hne : pending ≠ [] := fun hnil => absurd (hresult.mpr hnil) Bool.false_ne_true
      cases op with
      | write data => exact keep_at hfd hwaits (hroom hne)
      | drain => exact ⟨hfd, hbelow, rfl, rfl, ⟨pending, hwaits, trivial, rfl⟩, rfl⟩

theorem tryFlush_at (hfd : 0 ≤ w.file.fd) (hwaits : w.file.wrbuf.Holds false pending) (hlt : pending.length < 1024) :
    (w.tryFlush mem op).At w.contents w.file.writeHead (pending ++ op.data) (w.written ++ op.data) := by
  unfold Writer.tryFlush
  rw [if_neg (Int.not_lt.mpr hfd)]
  cases hempty : w.file.wrbuf.isEmpty with
  | true =>
      have hnil := (isEmpty_iff hwaits).mp hempty
      exact resume_at hfd hwaits (iff_of_true rfl hnil) fun hne => absurd hnil hne
  | false =>
      have hflat := hwaits.makeCont mem hlt
      refine ⟨hfd, ?_, rfl, rfl, ⟨pending, hflat, Ring.makeCont_head mem _, rfl⟩, rfl⟩
      exact lt_of_eq_of_lt hflat.sz_eq hlt

@[simp] theorem accept_wrbuf (bytes : List UInt8) : (w.accept bytes).file.wrbuf = w.file.wrbuf := rfl

/-- The storage of the ring, from its first cell on, is what waits, and the kernel accepts the first of it. -/
theorem flushed (hwaits : w.file.wrbuf.Holds false pending) (hhead : w.file.wrbuf.buffer.head = 0) {wrote : Nat}
    (hle : wrote ≤ pending.length) :
    w.file.wrbuf.buffer.data.take wrote = pending.take wrote ∧
      ∃ b, MemBuf.skip wrote w.file.wrbuf = (.ok (), b) ∧ b.Holds false (pending.drop wrote) := by
  have hsplit : w.file.wrbuf.Holds false (pending.take wrote ++ pending.drop wrote) := by
    rwa [List.take_append_drop]
  obtain ⟨b, hskip, hb⟩ := hsplit.skip
  rw [List.length_take, Nat.min_eq_left hle] at hskip
  refine ⟨?_, b, hskip, hb⟩
  rw [← hwaits.data_take hhead, List.take_take, Nat.min_eq_left hle]

/-- A flush: the first of what waits is accepted, and the call goes on. -/
theorem flushing_at (hfd : 0 ≤ w.file.fd) (hwaits : w.file.wrbuf.Holds false pending)
    (hhead : w.file.wrbuf.buffer.head = 0) {wrote : Nat} (hle : wrote ≤ pending.length)
    (hroom : wrote < pending.length → pending.length - wrote + op.data.length < 1024) :
    ∃ b, MemBuf.skip wrote w.file.wrbuf = (.ok (), b) ∧
      (({ w.accept (w.file.wrbuf.buffer.data.take wrote) with
        file := { (w.accept (w.file.wrbuf.buffer.data.take wrote)).file with wrbuf := b } } : Writer).resume mem op
          b.isEmpty).At (pwrite w.contents w.file.writeHead (pending.take wrote))
            (w.file.writeHead + (pending.take wrote).length) (pending.drop wrote ++ op.data) (w.written ++ op.data) := by
  obtain ⟨hdata, b, hskip, hb⟩ := flushed hwaits hhead hle
  refine ⟨b, hskip, ?_⟩
  rw [hdata]
  let w₁ : Writer :=
    { w.accept (pending.take wrote) with file := { (w.accept (pending.take wrote)).file with wrbuf := b } }
  refine resume_at (w := w₁) hfd hb (isEmpty_iff (w := w₁) hb) fun hne => ?_
  rw [ne_eq, List.drop_eq_nil_iff, Nat.not_le] at hne
  rw [List.length_drop]
  exact hroom hne

/-- The kernel has been given the data of a `write`. -/
theorem writing_at (mem : Nat → UInt8) (hfd : 0 ≤ w.file.fd) (hwaits : w.file.wrbuf.Holds false []) (wrote : Nat)
    (hroom : data.length - wrote < 1024) :
    ((w.accept (data.take wrote)).keep mem data (data.drop wrote)).At
      (pwrite w.contents w.file.writeHead (data.take wrote)) (w.file.writeHead + (data.take wrote).length)
      (data.drop wrote) (w.written ++ data) := by
  refine keep_at (w := w.accept (data.take wrote)) hfd hwaits ?_
  rwa [List.length_nil, Nat.zero_add, List.length_drop]

/-- The kernel accepts some bytes of what is to be written, and the rest is still to be written behind them. -/
theorem At.step (h : w.At contents head todo all) (hroom : Room w a) (hs : step w a = some w') :
    ∃ bytes rest, bytes ++ rest = todo ++ given a ∧
      w'.At (pwrite contents head bytes) (head + bytes.length) rest (all ++ given a) := by
  obtain ⟨hfd, hbelow, rfl, rfl, ⟨pending, hwaits, hfits, rfl⟩, rfl⟩ := h
  have hsize : w.file.wrbuf.size = pending.length := hwaits.sz_eq
  have hlt : pending.length < 1024 := by rwa [hsize] at hbelow
  cases a with
  | call mem op =>
      simp only [Writer.step] at hs
      split at hs
      · rename_i hpc
        have hnone : outstanding w.pc = [] := by rw [hpc]; rfl
        rw [if_neg (Int.not_lt.mpr hfd)] at hs
        cases hs
        rw [hnone, List.append_nil, List.append_nil]
        exact ⟨[], _, rfl, tryFlush_at hfd hwaits hlt⟩
      · cases hs
  | wrote mem wrote =>
      simp only [Writer.step] at hs
      simp only [Room] at hroom
      split at hs
      · rename_i op hpc
        have hrun : outstanding w.pc = op.data := by rw [hpc]; rfl
        split at hs
        · rename_i hmay
          simp only [Fits, hpc] at hfits hroom
          rw [hsize] at hroom hmay
          obtain ⟨b, hskip, hat⟩ := flushing_at hfd hwaits hfits (Nat.le_trans hmay.1 (Nat.mod_le ..)) hroom
          rw [accept_wrbuf, hskip] at hs
          cases hs
          refine ⟨pending.take wrote, pending.drop wrote ++ op.data, ?_, ?_⟩
          · rw [← List.append_assoc, List.take_append_drop, hrun]
            exact (List.append_nil _).symm
          · rw [hrun]
            simpa only [given, List.append_nil] using hat
        · cases hs
      · rename_i data hpc
        have hrun : outstanding w.pc = data := by rw [hpc]; rfl
        split at hs
        · simp only [Fits, hpc] at hfits hroom
          subst hfits
          have hat := writing_at mem hfd hwaits wrote hroom
          rw [hrun]
          refine ⟨data.take wrote, data.drop wrote, ?_, ?_⟩
          · rw [List.take_append_drop]
            exact (List.append_nil _).symm
          · simp only [given, List.append_nil]
            split at hs
            · cases hs
              exact hat
            · rename_i hall
              cases hs
              have hnil : data.drop wrote = [] := List.drop_of_length_le (by omega)
              rw [hnil]
              exact ⟨hfd, hbelow, rfl, rfl, ⟨[], hwaits, trivial, rfl⟩, List.append_nil _⟩
        · cases hs
      · cases hs
  | polled mem =>
      simp only [Writer.step] at hs
      split at hs
      · rename_i hpc
        have hnone : outstanding w.pc = [] := by rw [hpc]; rfl
        cases hs
        rw [hnone, List.append_nil, List.append_nil]
        exact ⟨[], _, rfl, tryFlush_at hfd hwaits hlt⟩
      · cases hs

theorem keep_size : (w.keep mem data rest).file.wrbuf.size = w.file.wrbuf.size + rest.length :=
  MemBuf.writeVector_size mem rest w.file.wrbuf

theorem resume_size : (w.resume mem op false).file.wrbuf.size = w.file.wrbuf.size + op.data.length := by
  cases op with
  | write data => exact keep_size
  | drain => rfl

/-- What there is room for can be seen by what waits behind the step. -/
theorem At.room (h : w.At contents head todo all) (hs : Writer.step w a = some w')
    (hbelow : w'.file.wrbuf.size < 1024) : Room w a := by
  obtain ⟨-, -, -, -, ⟨pending, hwaits, hfits, -⟩, -⟩ := h
  have hsize : w.file.wrbuf.size = pending.length := hwaits.sz_eq
  cases a with
  | call mem op => trivial
  | polled mem => trivial
  | wrote mem wrote =>
      simp only [Writer.step] at hs
      split at hs
      · rename_i op hpc
        simp only [Fits, Room, hpc] at hfits ⊢
        intro hlt
        rw [hsize] at hlt ⊢
        obtain ⟨-, b, hskip, hb⟩ := flushed hwaits hfits (Nat.le_of_lt hlt)
        have hrest : b.size = pending.length - wrote := by
          rw [← List.length_drop]
          exact hb.sz_eq
        have hempty : b.isEmpty = false := decide_eq_false (by omega)
        split at hs
        · simp only [accept_wrbuf, hskip, hempty] at hs
          cases hs
          rw [resume_size] at hbelow
          simpa only [hrest] using hbelow
        · cases hs
      · rename_i data hpc
        simp only [Room, hpc]
        split at hs
        · split at hs
          · cases hs
            rw [keep_size, List.length_drop] at hbelow
            exact Nat.lt_of_le_of_lt (Nat.le_add_left ..) hbelow
          · omega
        · cases hs
      · cases hs

theorem Inv.step (h : Inv w) (hs : step w a = some w') (hbelow : w'.file.wrbuf.size < 1024) : Inv w' := by
  obtain ⟨hsize, pending, hholds, hfits⟩ := h
  have hat : w.At w.contents w.file.writeHead (pending ++ outstanding w.pc) (w.written ++ outstanding w.pc) :=
    ⟨hholds.fd, hsize, rfl, rfl, ⟨pending, hholds.waits, hfits, rfl⟩, rfl⟩
  obtain ⟨bytes, rest, hsplit, hfd, hbelow', hcontents, hhead, ⟨pending', hwaits, hfits', hrest⟩, hwritten⟩ :=
    hat.step (hat.room hs hbelow) hs
  obtain ⟨htake, hle⟩ := pwrite_take hholds.le bytes
  refine ⟨hbelow', pending', ⟨hfd, hwaits, ?_, ?_⟩, hfits'⟩
  · rwa [hcontents, hhead]
  · rw [← List.append_left_inj (outstanding w'.pc), hwritten, hcontents, hhead, htake, List.append_assoc, hrest,
      List.append_assoc, hsplit, ← hholds.sum]
    simp only [List.append_assoc]

/-- The step leaves fewer bytes waiting than the ring has room for. -/
def StaysBelow (w : Writer) (a : Action) : Prop := ∀ w', step w a = some w' → w'.file.wrbuf.size < 1024

theorem inv_of_reachable {fd : Int} (hfd : 0 ≤ fd) {contents : List UInt8}
    (h : ((system fd contents).restrict StaysBelow).Reachable w) : Inv w := by
  have hinvariant : ((system fd contents).restrict StaysBelow).Invariant Inv := by
    refine ⟨fun w hw => ?_, fun w a w' hinv hs => hinv.step hs.2 (hs.1 w' hs.2)⟩
    cases hw
    have hempty : MemBuf.new.size < 1024 := by decide
    exact ⟨hempty, [], ⟨hfd, MemBuf.new_holds, Nat.zero_le _, rfl⟩, trivial⟩
  exact hinvariant.reachable h

/-- At each point the file up to `write_head` and what waits are what was written, and nothing waits when `drain` has
returned. -/
theorem reachable_written {fd : Int} (hfd : 0 ≤ fd) {contents : List UInt8}
    (h : ((system fd contents).restrict StaysBelow).Reachable w) :
    w.file.writeHead ≤ w.contents.length ∧
      w.contents.take w.file.writeHead ++ w.file.wrbuf.buffer.toList = w.written ∧
      (w.pc = .returned (some .drain) → w.file.wrbuf.buffer.toList = []) := by
  obtain ⟨-, pending, hholds, hfits⟩ := inv_of_reachable hfd h
  rw [hholds.waits.toList]
  refine ⟨hholds.le, hholds.sum, fun hpc => ?_⟩
  simpa only [Fits, hpc] using hfits

/-- Two bytes are written, and the kernel accepts one of them. -/
theorem reachable_written_one : ∃ w, ((system 3 []).restrict StaysBelow).Reachable w ∧ w.contents = [1] ∧
    w.contents.take w.file.writeHead ++ w.file.wrbuf.buffer.toList = [1, 2] := by
  let w₀ : Writer := { file := { fd := 3 }, contents := [] }
  let w₁ := w₀.tryFlush (fun _ => 0) (.write [1, 2])
  let w₂ := (w₁.accept [1]).keep (fun _ => 0) [1, 2] [2]
  have h₀ : ((system 3 []).restrict StaysBelow).Reachable w₀ := .init rfl
  have h₁ : ((system 3 []).restrict StaysBelow).Reachable w₁ := by
    refine .step (i := .call (fun _ => 0) (.write [1, 2])) h₀ ⟨?_, rfl⟩
    intro w' hs
    cases hs
    decide +kernel
  have h₂ : ((system 3 []).restrict StaysBelow).Reachable w₂ := by
    refine .step (i := .wrote (fun _ => 0) 1) h₁ ⟨?_, rfl⟩
    intro w' hs
    cases hs
    decide +kernel
  exact ⟨w₂, h₂, by decide +kernel, (reachable_written (by decide) h₂).2.1⟩

end Writer

end Dwhbll.Concurrency.Coroutine.Wrappers
