import Dwhbll.Coroutine.Wrappers.File
import Dwhbll.MemBuf.Contents
import Mathlib.Data.List.TakeDrop

/-!
# When reads return what is in the file

A read returns bytes that were left over and what the kernel finds behind them, unless the kernel finds fewer than it
asks for in a batch, or finds more than there is room for in `rdbuf`, where that does not start at its first cell.
-/

namespace Dwhbll.Concurrency.Coroutine.Wrappers

open Collections

namespace File

variable {f : File} {spare : List UInt8} {n : Nat}

/-- All that is left over is taken out of the buffer. -/
theorem read_spare (hspare : f.rdbuf.Contains spare) :
    ∃ b, MemBuf.readVector f.rdbuf.size f.rdbuf = (.ok spare, b) ∧ b.Contains [] ∧ MemBuf.SameStorage f.rdbuf b ∧
      b.buffer.tail = f.rdbuf.buffer.tail := by
  have hall : f.rdbuf.Contains (spare ++ []) := by
    rwa [List.append_nil]
  obtain ⟨b, hread, hb, hsame, htail⟩ := hall.readVector
  have hsize : f.rdbuf.size = spare.length := hspare.sz_eq
  exact ⟨b, by rw [hsize, hread], hb, hsame, htail⟩

variable (mem : Nat → UInt8) (contents : List UInt8) (answers : Nat → Nat) (fuel : Nat)

/-- A call that finds enough in the buffer. -/
theorem read_enough (hfd : 0 ≤ f.fd) (hopen : f.eof = false) (hspare : f.rdbuf.Contains spare) (hn : n < spare.length) :
    ∃ b, b.Contains (spare.drop n) ∧
      f.read mem contents answers fuel n = some (.ok (spare.take n), { f with rdbuf := b }) := by
  have hsplit : f.rdbuf.Contains (spare.take n ++ spare.drop n) := by
    rwa [List.take_append_drop]
  obtain ⟨b, hread, hb, -, -⟩ := hsplit.readVector
  rw [List.length_take, Nat.min_eq_left (Nat.le_of_lt hn)] at hread
  have henough : (n : Int) ≠ -1 ∧ f.rdbuf.size > (n : Int).toNat := by
    have hsize : f.rdbuf.size = spare.length := hspare.sz_eq
    rw [hsize, Int.toNat_natCast]
    exact ⟨by omega, hn⟩
  refine ⟨b, hb, ?_⟩
  unfold File.read
  rw [if_neg (Int.not_lt.mpr hfd), if_neg (Bool.eq_false_iff.mp hopen), if_pos henough, Int.toNat_natCast, hread]

/-- What is left over is not enough: the kernel is asked. -/
theorem read_few (hfd : 0 ≤ f.fd) (hopen : f.eof = false) (hspare : f.rdbuf.Contains spare) (hn : spare.length ≤ n) :
    ∃ b, b.Contains [] ∧ MemBuf.SameStorage f.rdbuf b ∧ b.buffer.tail = f.rdbuf.buffer.tail ∧
      f.read mem contents answers fuel n =
        if n - spare.length > batchReadCount then
          let (result, f) := readDirect contents answers spare { f with rdbuf := b }
          some (.ok result, f)
        else
          let (result, f) := readBatch mem contents answers (n - spare.length) spare { f with rdbuf := b }
          some (.ok result, f) := by
  obtain ⟨b, hread, hb, hsame, htail⟩ := read_spare hspare
  have hfew : ¬ ((n : Int) ≠ -1 ∧ f.rdbuf.size > (n : Int).toNat) := by
    have hsize : f.rdbuf.size = spare.length := hspare.sz_eq
    rw [hsize, Int.toNat_natCast]
    omega
  have hminus : ¬ (n : Int) = -1 := by omega
  refine ⟨b, hb, hsame, htail, ?_⟩
  unfold File.read
  rw [if_neg (Int.not_lt.mpr hfd), if_neg (Bool.eq_false_iff.mp hopen), if_neg hfew, hread]
  simp only [if_neg hminus, Int.toNat_natCast]

/-- `read(-1)`. -/
theorem read_all (hfd : 0 ≤ f.fd) (hopen : f.eof = false) (hspare : f.rdbuf.Contains spare) :
    ∃ b, b.Contains [] ∧
      f.read mem contents answers fuel (-1) =
        (readAll contents answers fuel 0 spare { f with rdbuf := b }).map fun (result, f) =>
          (.ok result, { f with eof := true }) := by
  obtain ⟨b, hread, hb, -, -⟩ := read_spare hspare
  refine ⟨b, hb, ?_⟩
  unfold File.read
  rw [if_neg (Int.not_lt.mpr hfd), if_neg (Bool.eq_false_iff.mp hopen), if_neg (by simp), hread]
  simp only [if_pos]

end File

/-- A file that is read, what is in it, and what the calls of `read` were asked for and have returned. -/
structure Reader where
  file : File
  contents : List UInt8
  reads : List (Nat × List UInt8) := []
  deriving DecidableEq, Repr

namespace Reader

/-- A call of `read(n)`, with what the kernel answers if it is asked. -/
structure Call where
  mem : Nat → UInt8
  n : Nat
  count : Nat

/-- What the kernel is asked for behind the bytes that are left over. -/
def requested (f : File) (n : Nat) : Nat :=
  if n - f.rdbuf.size > File.batchReadCount then n - f.rdbuf.size else File.batchReadCount

/-- Some of the bytes that are left in the file, or none at its end. -/
def MayFind (r : Reader) (c : Call) : Prop :=
  c.count ≤ requested r.file c.n ∧ c.count ≤ r.contents.length - r.file.readHead ∧
    (r.file.readHead < r.contents.length → 1 ≤ c.count)

instance (r : Reader) (c : Call) : Decidable (MayFind r c) := inferInstanceAs (Decidable (_ ∧ _ ∧ _))

def step (r : Reader) (c : Call) : Option Reader :=
  if 1 ≤ c.n ∧ r.MayFind c then
    match r.file.read c.mem r.contents (fun _ => c.count) 0 c.n with
    | some (.ok result, f) => some { r with file := f, reads := r.reads ++ [(c.n, result)] }
    | _ => none
  else none

/-- The runs of calls on a file that is open. -/
def system (fd : Int) (contents : List UInt8) : Transition.System Reader Call :=
  .ofOption { file := { fd := fd }, contents := contents } step

/-- What has been returned, one call after the other. -/
def returned (r : Reader) : List UInt8 := (r.reads.map Prod.snd).flatten

/-- What reads are for: none returns more than it was asked for, and at the end of the file all of it has been
returned. -/
structure Exact (r : Reader) : Prop where
  bounded : ∀ p ∈ r.reads, p.2.length ≤ p.1
  complete : r.file.eof = true → r.returned = r.contents

/-- The call does not come to a batch, or the kernel finds all that is missing and the surplus has room. -/
def Sound (r : Reader) (c : Call) : Prop :=
  r.file.eof = true ∨ c.n < r.file.rdbuf.size ∨ File.batchReadCount < c.n - r.file.rdbuf.size ∨
    (c.n - r.file.rdbuf.size ≤ c.count ∧
      (r.file.rdbuf.buffer.tail = 0 ∨ c.count - (c.n - r.file.rdbuf.size) ≤ r.file.rdbuf.buffer.capacity))

instance (r : Reader) (c : Call) : Decidable (Sound r c) := inferInstanceAs (Decidable (_ ∨ _ ∨ _ ∨ _))

/-! ## The invariant -/

variable {r r' : Reader} {c : Call} {f : File} {contents spare total : List UInt8}

/-- What has been returned and what is left over are the file up to `read_head`. -/
structure Holds (f : File) (contents total spare : List UInt8) : Prop where
  fd : 0 ≤ f.fd
  buffered : f.rdbuf.Contains spare
  le : f.readHead ≤ contents.length
  sum : total ++ spare = contents.take f.readHead
  ended : f.eof = true → f.readHead = contents.length ∧ spare = []

theorem take_found (contents : List UInt8) (offset count : Nat) :
    contents.take offset ++ File.found contents offset count = contents.take (offset + count) := by
  rw [File.found, List.take_add]

theorem found_length {offset count : Nat} (h : count ≤ contents.length - offset) :
    (File.found contents offset count).length = count := by
  rw [File.found, List.length_take, List.length_drop, Nat.min_eq_left h]

theorem Holds.size_eq (h : Holds f contents total spare) : f.rdbuf.size = spare.length := h.buffered.sz_eq

/-- What the kernel finds goes behind what is left over: the first of it is returned, too, and the rest is kept. -/
theorem Holds.advance (h : Holds f contents total spare) (hopen : f.eof = false) {count : Nat} (missing : Nat)
    {b : MemBuf}
    (hcount : count ≤ contents.length - f.readHead) (hmore : f.readHead < contents.length → 1 ≤ count)
    (hb : b.Contains ((File.found contents f.readHead count).drop missing)) :
    Holds { f with readHead := f.readHead + count, eof := f.eof || count = 0, rdbuf := b } contents
      (total ++ (spare ++ (File.found contents f.readHead count).take missing))
      ((File.found contents f.readHead count).drop missing) := by
  have hle := h.le
  refine ⟨h.fd, hb, by simp only; omega, ?_, fun heof => ?_⟩
  · rw [List.append_assoc, List.append_assoc, List.take_append_drop, ← List.append_assoc, h.sum]
    exact take_found contents f.readHead count
  · simp only [hopen, Bool.false_or, decide_eq_true_eq] at heof
    subst heof
    refine ⟨by simp only; omega, ?_⟩
    rw [File.found, List.take_zero, List.drop_nil]

/-- What is found too much is written to a buffer that has been read to its end. -/
theorem contains_surplus {b b' : MemBuf} (hb : b'.Contains []) (hsame : MemBuf.SameStorage b b')
    (htail : b'.buffer.tail = b.buffer.tail) (mem : Nat → UInt8) (surplus : List UInt8)
    (hroom : b.buffer.tail = 0 ∨ surplus.length ≤ b.buffer.capacity) :
    (b'.writeVector mem surplus).Contains surplus := by
  rcases hroom with h0 | hle
  · -- An empty ring ends where it starts.
    have hhead : b'.buffer.head = 0 := by
      have hwrap := hb.wf.tail_eq
      rwa [hb.sz_eq, List.length_nil, Nat.add_zero, Nat.mod_eq_of_lt hb.wf.head_lt, htail, h0, eq_comm] at hwrap
    exact hb.writeVector_flat hhead mem surplus
  · rw [← hsame.capacity] at hle
    exact (hb.writeVector mem surplus (by simpa using hle)).1

/-- A call that finds enough in the buffer. -/
theorem Holds.read_enough (h : Holds r.file r.contents total spare) (hopen : r.file.eof = false)
    (hn : c.n < spare.length) :
    ∃ f', r.file.read c.mem r.contents (fun _ => c.count) 0 c.n = some (.ok (spare.take c.n), f') ∧
      Holds f' r.contents (total ++ spare.take c.n) (spare.drop c.n) := by
  obtain ⟨b, hb, hread⟩ := File.read_enough c.mem r.contents (fun _ => c.count) 0 h.fd hopen h.buffered hn
  refine ⟨{ r.file with rdbuf := b }, hread, h.fd, hb, h.le, ?_, fun heof => ?_⟩
  · rw [List.append_assoc, List.take_append_drop, h.sum]
  · rw [show r.file.eof = true from heof] at hopen
    cases hopen

/-- Straight into the result: nothing is found too much. -/
theorem Holds.direct (h : Holds f contents total spare) (hopen : f.eof = false) {count missing : Nat}
    (hcount : count ≤ contents.length - f.readHead) (hmore : f.readHead < contents.length → 1 ≤ count)
    (hfits : count ≤ missing) {b : MemBuf} (hb : b.Contains []) :
    Holds { f with readHead := f.readHead + count, eof := f.eof || count = 0, rdbuf := b } contents
      (total ++ (spare ++ File.found contents f.readHead count)) [] := by
  have hfound := found_length hcount
  have hnone : (File.found contents f.readHead count).drop missing = [] := List.drop_of_length_le (by rwa [hfound])
  have hall : (File.found contents f.readHead count).take missing = File.found contents f.readHead count :=
    List.take_of_length_le (by rwa [hfound])
  have hnext := h.advance hopen missing hcount hmore (hnone.symm ▸ hb)
  rwa [hnone, hall] at hnext

/-- A batch that has what is missing, with room for the surplus. -/
theorem Holds.batch (h : Holds f contents total spare) (hopen : f.eof = false) {count missing : Nat}
    (hcount : count ≤ contents.length - f.readHead) (hmore : f.readHead < contents.length → 1 ≤ count)
    (hmissing : missing ≤ count) {b : MemBuf} (hb : b.Contains []) (hsame : MemBuf.SameStorage f.rdbuf b)
    (htail : b.buffer.tail = f.rdbuf.buffer.tail) (mem : Nat → UInt8)
    (hroom : f.rdbuf.buffer.tail = 0 ∨ count - missing ≤ f.rdbuf.buffer.capacity) :
    ∃ result f' spare',
      File.readBatch mem contents (fun _ => count) missing spare { f with rdbuf := b } = (result, f') ∧
      Holds f' contents (total ++ result) spare' ∧ result.length = spare.length + missing := by
  have hfound := found_length hcount
  rw [← hfound, ← List.length_drop] at hroom
  have hsurplus := contains_surplus hb hsame htail mem _ hroom
  simp only [File.readBatch, if_neg (Nat.not_lt.mpr hmissing)]
  refine ⟨_, _, _, rfl, h.advance hopen missing hcount hmore hsurplus, ?_⟩
  rw [List.length_append, List.length_take, hfound, Nat.min_eq_left hmissing]

/-- One call of `read`. -/
theorem Holds.read (h : Holds r.file r.contents total spare) (hfind : r.MayFind c) (hsound : r.Sound c) :
    ∃ result f' spare', r.file.read c.mem r.contents (fun _ => c.count) 0 c.n = some (.ok result, f') ∧
      Holds f' r.contents (total ++ result) spare' ∧ result.length ≤ c.n := by
  obtain ⟨hrequested, hleft, hmore⟩ := hfind
  rw [requested, h.size_eq] at hrequested
  rw [Sound, h.size_eq] at hsound
  cases hopen : r.file.eof with
  | true =>
      obtain ⟨hhead, rfl⟩ := h.ended hopen
      refine ⟨[], r.file, [], ?_, by rwa [List.append_nil], Nat.zero_le _⟩
      unfold File.read
      rw [if_neg (Int.not_lt.mpr h.fd), if_pos hopen]
  | false =>
      rcases Nat.lt_or_ge c.n spare.length with hn | hn
      · obtain ⟨f', hread, hf'⟩ := h.read_enough hopen hn
        exact ⟨_, f', _, hread, hf', List.length_take_le ..⟩
      · obtain ⟨b, hb, hsame, htail, hread⟩ :=
          File.read_few c.mem r.contents (fun _ => c.count) 0 h.fd hopen h.buffered hn
        rw [hread]
        split
        · rename_i hdirect
          rw [if_pos hdirect] at hrequested
          refine ⟨_, _, [], rfl, h.direct hopen hleft hmore hrequested hb, ?_⟩
          rw [List.length_append, found_length hleft]
          omega
        · rename_i hbatch
          -- Of the cases in which a call is sound only the last comes to a batch.
          rw [hopen] at hsound
          obtain ⟨hmissing, hroom⟩ := ((hsound.resolve_left Bool.false_ne_true).resolve_left
            (Nat.not_lt.mpr hn)).resolve_left hbatch
          obtain ⟨result, f', spare', hresult, hf', hlen⟩ :=
            h.batch hopen hleft hmore hmissing hb hsame htail c.mem hroom
          refine ⟨result, f', spare', by rw [hresult], hf', ?_⟩
          omega

/-! ## Runs -/

/-- What holds between the calls. -/
structure Inv (r : Reader) : Prop where
  bounded : ∀ p ∈ r.reads, p.2.length ≤ p.1
  holds : ∃ spare, Holds r.file r.contents r.returned spare

theorem Inv.step (h : Inv r) (hsound : r.Sound c) (hs : step r c = some r') : Inv r' := by
  obtain ⟨spare, hholds⟩ := h.holds
  unfold Reader.step at hs
  split at hs
  · rename_i hc
    obtain ⟨result, f', spare', hread, hf', hlen⟩ := hholds.read hc.2 hsound
    rw [hread] at hs
    cases hs
    refine ⟨fun p hp => ?_, spare', ?_⟩
    · rcases List.mem_append.mp hp with hp | hp
      · exact h.bounded p hp
      · rw [List.mem_singleton.mp hp]
        exact hlen
    · simpa [returned] using hf'
  · cases hs

theorem Inv.exact (h : Inv r) : Exact r := by
  obtain ⟨spare, hholds⟩ := h.holds
  refine ⟨h.bounded, fun heof => ?_⟩
  obtain ⟨hhead, rfl⟩ := hholds.ended heof
  have hsum := hholds.sum
  rwa [List.append_nil, hhead, List.take_length] at hsum

/-- Runs in which each call comes to no batch, or to one that finds what is missing and has room for the surplus. -/
theorem reachable_exact {fd : Int} (hfd : 0 ≤ fd) {contents : List UInt8}
    (h : ((system fd contents).restrict Sound).Reachable r) : Exact r := by
  have hinvariant : ((system fd contents).restrict Sound).Invariant Inv := by
    refine ⟨fun r hr => ?_, fun r c r' hinv hs => hinv.step hs.1 hs.2⟩
    cases hr
    exact ⟨nofun, [], hfd, ⟨Ring.new_wf (by decide), rfl⟩, Nat.zero_le _, rfl, nofun⟩
  exact (hinvariant.reachable h).exact

/-- A byte is read, and then the end of the file, where more is asked for than a batch holds. -/
theorem reachable_exact_byte : ∃ r, ((system 3 [7]).restrict Sound).Reachable r ∧ r.file.eof = true ∧
    (∀ p ∈ r.reads, p.2.length ≤ p.1) ∧ r.returned = [7] := by
  let r₀ : Reader := { file := { fd := 3 }, contents := [7] }
  let r₁ : Reader := { r₀ with file := { fd := 3, readHead := 1 }, reads := [(1, [7])] }
  let r₂ : Reader := { r₁ with file := { r₁.file with eof := true }, reads := [(1, [7]), (70000, [])] }
  have h₀ : ((system 3 [7]).restrict Sound).Reachable r₀ := .init rfl
  have hbyte : step r₀ ⟨fun _ => 0, 1, 1⟩ = some r₁ := by decide +kernel
  have hend : step r₁ ⟨fun _ => 0, 70000, 0⟩ = some r₂ := by decide +kernel
  have h₁ : ((system 3 [7]).restrict Sound).Reachable r₁ := .step h₀ ⟨by decide +kernel, hbyte⟩
  have h₂ : ((system 3 [7]).restrict Sound).Reachable r₂ := .step h₁ ⟨by decide +kernel, hend⟩
  have hexact := reachable_exact (by decide) h₂
  exact ⟨r₂, h₂, rfl, hexact.bounded, hexact.complete rfl⟩

/-- A byte is asked for, the file is empty, and the byte is returned. -/
theorem reachable_not_exact : ∃ r, (system 3 []).Reachable r ∧ r.file.eof = true ∧ r.returned = [0] ∧ ¬ Exact r := by
  let r₁ : Reader := { file := { fd := 3, eof := true }, contents := [], reads := [(1, [0])] }
  have hend : step { file := { fd := 3 }, contents := [] } ⟨fun _ => 0, 1, 0⟩ = some r₁ := by decide +kernel
  refine ⟨r₁, .step (.init rfl) hend, rfl, rfl, fun hexact => ?_⟩
  exact absurd (hexact.complete rfl) (by decide)

end Reader

end Dwhbll.Concurrency.Coroutine.Wrappers
