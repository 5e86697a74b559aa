import Dwhbll.Coroutine.Wrappers.Reading

/-!
# `readexactly` of `concurrency/coroutine/wrappers/file.cpp`

The kernel is asked for what is missing behind the bytes that are left over, also where none are missing.
-/

namespace Dwhbll.Concurrency.Coroutine.Wrappers.File

open Collections

/-- What the kernel is asked for: `n - buf2.size()`, of which the call takes 32 bits. -/
def exactCount (n size : Nat) : Nat := (((n : Int) - size) % 2 ^ 64 % 2 ^ 32).toNat

/-- `readexactly(n)`, for what the kernel finds of so many bytes. There is no outcome where it writes behind the
result. -/
def readexactly (contents : List UInt8) (kernel : Nat → Nat) (n : Nat) (f : File) :
    Option (Except Exn (List UInt8) × File) :=
  if f.fd < 0 then some (.error (.runtime "reading from closed file!"), f)
  else if f.eof then some (.error (.runtime "file reached eof before finishing read!"), f)
  else
    match MemBuf.readVector f.rdbuf.size f.rdbuf with
    | (.error e, b) => some (.error (.ring e), { f with rdbuf := b })
    | (.ok buf2, b) =>
        let result := (buf2 ++ List.replicate (n - buf2.length) 0).take n
        let read := kernel (exactCount n buf2.length)
        if read ≠ 0 ∧ n < buf2.length + read then none
        else
          let f' := { f with rdbuf := b, readHead := f.readHead + read }
          if (read : Int) ≠ ((n : Int) - buf2.length) % 2 ^ 64 then
            some (.error (.runtime "file reached eof before finishing the read!"), f')
          else
            some (.ok (result.take buf2.length ++ found contents f.readHead read ++ result.drop (buf2.length + read)), f')

/-- A kernel that finds all that it is asked for, up to the end of the file. -/
def fullCount (contents : List UInt8) (f : File) (requested : Nat) : Nat :=
  min requested (contents.length - f.readHead)

/-- The same for the calls of `read(-1)`, which starts at an offset. -/
def fullAnswers (contents : List UInt8) (offset k : Nat) : Nat := min 65536 (contents.length - (offset + 65536 * k))

/-! ## Earlier calls -/

/-- A call of `read(n)`, with what the kernel answers if it is asked. -/
structure ReadCall where
  mem : Nat → UInt8
  n : Int
  answers : Nat → Nat
  fuel : Nat

/-- The file behind the call. -/
def readStep (contents : List UInt8) (f : File) (c : ReadCall) : Option File :=
  if c.n = -1 ∨ 0 ≤ c.n ∧ Reader.MayFind ⟨f, contents, []⟩ ⟨c.mem, c.n.toNat, c.answers 0⟩ then
    (f.read c.mem contents c.answers c.fuel c.n).map Prod.snd
  else none

/-- The runs of calls of `read` on a file that is open. -/
def readSystem (fd : Int) (contents : List UInt8) : Transition.System File ReadCall :=
  .ofOption { fd := fd } (readStep contents)

/-! ## The next bytes -/

/-- How many bytes of the file have been handed out: those before `read_head`, but for the ones that are left over. -/
def position (f : File) : Nat := f.readHead - f.rdbuf.size

/-- The next `m` bytes are returned, and a `read` that follows goes on with the byte after them. -/
structure ReadsExactly (contents : List UInt8) (m : Nat) (f : File) : Prop where
  exact : ∃ f', f.readexactly contents (fullCount contents f) m = some (.ok ((contents.drop f.position).take m), f') ∧
    (∀ mem k, ∃ result f'',
      f'.read mem contents (fun _ => fullCount contents f' (Reader.requested f' k)) 0 k = some (.ok result, f'') ∧
        (contents.drop (f.position + m)).take k <+: result) ∧
    ∀ mem, ∃ fuel f'', f'.read mem contents (fullAnswers contents f'.readHead) fuel (-1) =
      some (.ok (contents.drop (f.position + m)), f'')

variable {f f' : File} {contents spare result : List UInt8} {mem : Nat → UInt8} {answers : Nat → Nat} {fuel n m : Nat}

/-! ## What holds between the calls -/

structure Ready (contents : List UInt8) (f : File) : Prop where
  fd : 0 ≤ f.fd
  wf : f.rdbuf.buffer.WF
  le : f.eof = false → f.rdbuf.size ≤ f.readHead ∧ f.readHead ≤ contents.length

theorem readAll_frame {k : Nat} (h : readAll contents answers fuel k result f = some (spare, f')) :
    f' = { f with readHead := f'.readHead } := by
  induction fuel generalizing k result f with
  | zero => cases h
  | succ fuel ih =>
      rw [readAll] at h
      split at h
      · cases h
        rfl
      · have hrest := ih h
        exact hrest

theorem Ready.read (h : Ready contents f) {count : Nat} (hfind : Reader.MayFind ⟨f, contents, []⟩ ⟨mem, n, count⟩)
    (hanswer : answers 0 = count) {r : Except Exn (List UInt8)}
    (hread : f.read mem contents answers fuel n = some (r, f')) :
    Ready contents f' := by
  cases hopen : f.eof with
  | true =>
      unfold File.read at hread
      rw [if_neg (Int.not_lt.mpr h.fd), if_pos hopen] at hread
      cases hread
      exact h
  | false =>
      obtain ⟨hsize, hle⟩ := h.le hopen
      have hspare : f.rdbuf.Contains f.rdbuf.buffer.toList := ⟨h.wf, rfl⟩
      have hlen : f.rdbuf.buffer.toList.length = f.rdbuf.size := hspare.sz_eq.symm
      obtain ⟨-, hleft, -⟩ := hfind
      simp only at hleft
      rcases Nat.lt_or_ge n f.rdbuf.buffer.toList.length with hn | hn
      · obtain ⟨b, hb, heq⟩ := read_enough mem contents answers fuel h.fd hopen hspare hn
        cases heq.symm.trans hread
        have hrest : b.size = (f.rdbuf.buffer.toList.drop n).length := hb.sz_eq
        rw [List.length_drop] at hrest
        exact ⟨h.fd, hb.wf, fun _ => ⟨by simp only; omega, hle⟩⟩
      · obtain ⟨b, hb, -, -, heq⟩ := read_few mem contents answers fuel h.fd hopen hspare hn
        have hempty : b.size = 0 := hb.sz_eq
        rw [heq] at hread
        split at hread
        · cases hread
          exact ⟨h.fd, hb.wf, fun _ => ⟨by simp only; omega, by simp only; omega⟩⟩
        · simp only [readBatch] at hread
          split at hread
          · cases hread
            exact ⟨h.fd, hb.wf, fun _ => ⟨by simp only; omega, by simp only; omega⟩⟩
          · cases hread
            refine ⟨h.fd, MemBuf.writeVector_wf hb.wf mem _, fun _ => ⟨?_, by simp only; omega⟩⟩
            simp only
            rw [MemBuf.writeVector_size, List.length_drop, Reader.found_length (by omega)]
            omega

theorem Ready.readAll (h : Ready contents f) {r : Except Exn (List UInt8)}
    (hread : f.read mem contents answers fuel (-1) = some (r, f')) : Ready contents f' := by
  cases hopen : f.eof with
  | true =>
      unfold File.read at hread
      rw [if_neg (Int.not_lt.mpr h.fd), if_pos hopen] at hread
      cases hread
      exact h
  | false =>
      have hspare : f.rdbuf.Contains f.rdbuf.buffer.toList := ⟨h.wf, rfl⟩
      obtain ⟨b, hb, heq⟩ := read_all mem contents answers fuel h.fd hopen hspare
      obtain ⟨⟨result, f₁⟩, hall, heq'⟩ := Option.map_eq_some_iff.mp (heq.symm.trans hread)
      have hframe := readAll_frame hall
      cases heq'
      rw [hframe]
      exact ⟨h.fd, hb.wf, nofun⟩

theorem ready_of_reachable {fd : Int} (hfd : 0 ≤ fd) (h : (readSystem fd contents).Reachable f) : Ready contents f := by
  refine Transition.System.Invariant.reachable (P := Ready contents) (.ofOption ?_ fun f c f' hf hs => ?_) h
  · exact ⟨hfd, Ring.new_wf (by decide), fun _ => ⟨Nat.le_refl 0, Nat.zero_le _⟩⟩
  · unfold readStep at hs
    split at hs
    · rename_i hc
      obtain ⟨⟨r, g⟩, hread, rfl⟩ := Option.map_eq_some_iff.mp hs
      rcases hc with hminus | ⟨hn, hfind⟩
      · rw [hminus] at hread
        exact hf.readAll hread
      · rw [← Int.toNat_of_nonneg hn] at hread
        exact hf.read hfind rfl hread
    · cases hs

/-! ## `readexactly` -/

theorem exactCount_of_le {size : Nat} (hle : size ≤ n) (hint : n < 2 ^ 31) : exactCount n size = n - size := by
  unfold exactCount
  omega

/-- As much is left over as is asked for, or less, and the file has the rest. -/
theorem readexactly_le (hfd : 0 ≤ f.fd) (hopen : f.eof = false) (hspare : f.rdbuf.Contains spare)
    (hle : spare.length ≤ n) (hint : n < 2 ^ 31) (hrest : n - spare.length ≤ contents.length - f.readHead) :
    ∃ b, b.Contains [] ∧ f.readexactly contents (fullCount contents f) n =
      some (.ok (spare ++ found contents f.readHead (n - spare.length)),
        { f with rdbuf := b, readHead := f.readHead + (n - spare.length) }) := by
  obtain ⟨b, hread, hb, -, -⟩ := read_spare hspare
  refine ⟨b, hb, ?_⟩
  have hcount : fullCount contents f (exactCount n spare.length) = n - spare.length := by
    rw [exactCount_of_le hle hint, fullCount, Nat.min_eq_left hrest]
  have hresult : (spare ++ List.replicate (n - spare.length) (0 : UInt8)).take n =
      spare ++ List.replicate (n - spare.length) 0 := by
    refine List.take_of_length_le ?_
    rw [List.length_append, List.length_replicate]
    omega
  unfold readexactly
  rw [if_neg (Int.not_lt.mpr hfd), if_neg (Bool.eq_false_iff.mp hopen), hread]
  simp only [hcount, hresult]
  rw [if_neg (by omega), if_neg (by omega), List.take_left, List.drop_of_length_le, List.append_nil]
  simp

/-- More is left over than is asked for. -/
theorem readexactly_lt (kernel : Nat → Nat) (hfd : 0 ≤ f.fd) (hopen : f.eof = false) (hspare : f.rdbuf.Contains spare)
    (hlt : n < spare.length) (hsize : spare.length < 2 ^ 63) :
    f.readexactly contents kernel n ≠ some (.ok result, f') := by
  obtain ⟨b, hread, -, -, -⟩ := read_spare hspare
  unfold readexactly
  rw [if_neg (Int.not_lt.mpr hfd), if_neg (Bool.eq_false_iff.mp hopen), hread]
  simp only
  split
  · exact nofun
  · rename_i hnone
    have hzero : kernel (exactCount n spare.length) = 0 := by omega
    rw [hzero, if_pos (by omega)]
    exact nofun

/-! ## The read that follows -/

/-- Nothing is left over. -/
theorem read_continues (hfd : 0 ≤ f.fd) (hopen : f.eof = false) (hempty : f.rdbuf.Contains []) (mem : Nat → UInt8)
    (k : Nat) : ∃ result f', f.read mem contents (fun _ => fullCount contents f (Reader.requested f k)) 0 k =
      some (.ok result, f') ∧ (contents.drop f.readHead).take k <+: result := by
  obtain ⟨b, -, -, -, hread⟩ := read_few mem contents (fun _ => fullCount contents f (Reader.requested f k)) 0 hfd hopen
    hempty (Nat.zero_le k)
  have hsize : f.rdbuf.size = 0 := hempty.sz_eq
  have hlength : (contents.drop f.readHead).length = contents.length - f.readHead := List.length_drop
  rw [hread]
  simp only [List.length_nil, Nat.sub_zero]
  unfold Reader.requested fullCount
  rw [hsize, Nat.sub_zero]
  split
  · have hfound : (contents.drop f.readHead).take k = found contents f.readHead (min k (contents.length - f.readHead)) := by
      rw [found, ← hlength, ← List.take_eq_take_min]
    exact ⟨_, _, rfl, hfound ▸ List.prefix_refl _⟩
  · refine ⟨_, _, rfl, ?_⟩
    rw [readBatch]
    simp only [found, ← hlength, ← List.take_eq_take_min]
    split
    · exact (List.take_prefix_take_left (by omega)).trans (List.prefix_append _ _)
    · have hfound : ((contents.drop f.readHead).take File.batchReadCount).take k = (contents.drop f.readHead).take k := by
        rw [List.take_take, Nat.min_eq_left (by omega)]
      exact hfound ▸ List.prefix_refl _

/-- The calls of `read(-1)`: each finds the next piece, and the first one behind the end finds nothing. -/
theorem readAll_full (result : List UInt8) {offset k left : Nat}
    (hhead : f.readHead = min contents.length (offset + 65536 * k))
    (hleft : contents.length ≤ offset + 65536 * (k + left)) :
    ∃ f', readAll contents (fullAnswers contents offset) (left + 1) k result f =
      some (result ++ contents.drop f.readHead, f') := by
  induction left generalizing k result f with
  | zero =>
      have hanswer : fullAnswers contents offset k = 0 := by
        unfold fullAnswers
        omega
      refine ⟨f, ?_⟩
      rw [readAll, if_pos hanswer, List.drop_of_length_le (by omega), List.append_nil]
  | succ left ih =>
      rw [readAll]
      split
      · rename_i hanswer
        unfold fullAnswers at hanswer
        refine ⟨f, ?_⟩
        rw [List.drop_of_length_le (by omega), List.append_nil]
      · have hnext : f.readHead + fullAnswers contents offset k = min contents.length (offset + 65536 * (k + 1)) := by
          unfold fullAnswers
          omega
        obtain ⟨f', hread⟩ := ih (result ++ found contents f.readHead (fullAnswers contents offset k))
          (f := { f with readHead := f.readHead + fullAnswers contents offset k }) hnext (by omega)
        refine ⟨f', hread.trans ?_⟩
        rw [List.append_assoc, found, ← List.drop_drop, List.take_append_drop]

theorem read_all_continues (hfd : 0 ≤ f.fd) (hopen : f.eof = false) (hempty : f.rdbuf.Contains [])
    (hle : f.readHead ≤ contents.length) (mem : Nat → UInt8) :
    ∃ fuel f', f.read mem contents (fullAnswers contents f.readHead) fuel (-1) =
      some (.ok (contents.drop f.readHead), f') := by
  obtain ⟨b, -, hread⟩ := read_all mem contents (fullAnswers contents f.readHead) (contents.length + 1) hfd hopen hempty
  have hhead : ({ f with rdbuf := b } : File).readHead = min contents.length (f.readHead + 65536 * 0) := by
    simp only
    omega
  have hleft : contents.length ≤ f.readHead + 65536 * (0 + contents.length) := by omega
  obtain ⟨g, hall⟩ := readAll_full [] hhead hleft
  refine ⟨contents.length + 1, { g with eof := true }, ?_⟩
  rw [hread, hall]
  rfl

/-! ## When the next bytes are returned -/

/-- The bytes that are left over are those of the file before `read_head`. -/
def Leftover (contents : List UInt8) (f : File) : Prop :=
  f.rdbuf.buffer.toList = (contents.drop f.position).take f.rdbuf.size

instance (contents : List UInt8) (f : File) : Decidable (Leftover contents f) := inferInstanceAs (Decidable (_ = _))

/-- In every state that calls of `read` lead to, and for all that the file has: the next bytes are returned if and only
if not more is left over than is asked for, what is left over is of the file, and the end has not been seen. -/
theorem readexactly_iff {fd : Int} (hfd : 0 ≤ fd) (hfile : contents.length < 2 ^ 63)
    (h : (readSystem fd contents).Reachable f) (hint : m < 2 ^ 31) (hm : m ≤ contents.length - f.position) :
    ReadsExactly contents m f ↔ f.eof = false ∧ f.rdbuf.size ≤ m ∧ Leftover contents f := by
  have hready := ready_of_reachable hfd h
  have hspare : f.rdbuf.Contains f.rdbuf.buffer.toList := ⟨hready.wf, rfl⟩
  have hsize : f.rdbuf.size = f.rdbuf.buffer.toList.length := hspare.sz_eq
  constructor
  · rintro ⟨f', hexact, -⟩
    have hopen : f.eof = false := by
      cases heof : f.eof with
      | false => rfl
      | true =>
          unfold readexactly at hexact
          rw [if_neg (Int.not_lt.mpr hready.fd), if_pos heof] at hexact
          cases hexact
    obtain ⟨hle, hhead⟩ := hready.le hopen
    have hleft : f.rdbuf.buffer.toList.length ≤ m := by
      by_contra hlt
      exact readexactly_lt _ hready.fd hopen hspare (by omega) (by omega) hexact
    rw [position] at hm
    have hrest : m - f.rdbuf.buffer.toList.length ≤ contents.length - f.readHead := by omega
    obtain ⟨b, -, heq⟩ := readexactly_le hready.fd hopen hspare hleft hint hrest
    have hresult := heq.symm.trans hexact
    simp only [Option.some.injEq, Prod.mk.injEq, Except.ok.injEq] at hresult
    refine ⟨hopen, by rwa [hsize], ?_⟩
    have hfirst := congrArg (List.take f.rdbuf.size) hresult.1
    rwa [hsize, List.take_left, List.take_take, Nat.min_eq_left hleft, ← hsize] at hfirst
  · rintro ⟨hopen, hleft, hover⟩
    obtain ⟨hle, hhead⟩ := hready.le hopen
    have hposition : f.position + f.rdbuf.size = f.readHead := Nat.sub_add_cancel hle
    have hrest : m - f.rdbuf.buffer.toList.length ≤ contents.length - f.readHead := by omega
    obtain ⟨b, hb, heq⟩ := readexactly_le hready.fd hopen hspare (hsize ▸ hleft) hint hrest
    rw [← hsize] at heq
    have hresult : f.rdbuf.buffer.toList ++ found contents f.readHead (m - f.rdbuf.size) =
        (contents.drop f.position).take m := by
      rw [hover, found, ← hposition, ← List.drop_drop, ← List.take_add, Nat.add_sub_of_le hleft]
    have hnext : f.readHead + (m - f.rdbuf.size) = f.position + m := by omega
    rw [hresult, hnext] at heq
    refine ⟨_, heq, fun mem k => ?_, fun mem => ?_⟩
    · exact read_continues (f := { f with rdbuf := b, readHead := f.position + m }) hready.fd hopen hb mem k
    · have hle' : f.position + m ≤ contents.length := by omega
      exact read_all_continues (f := { f with rdbuf := b, readHead := f.position + m }) hready.fd hopen hb hle' mem

/-- The state behind one call of `read`, with what can be computed of it. -/
theorem exists_behind (fd : Int) (contents : List UInt8) (c : ReadCall) (P : File → Prop) [DecidablePred P]
    (h : (readStep contents { fd := fd } c).any (fun f => P f) = true) :
    ∃ f, (readSystem fd contents).Reachable f ∧ P f := by
  cases hstep : readStep contents { fd := fd } c with
  | none =>
      rw [hstep] at h
      cases h
  | some f =>
      rw [hstep] at h
      exact ⟨f, .step (.init rfl) hstep, by simpa using h⟩

/-- Four bytes of six are read, and then the two that are left over. -/
theorem readexactly_iff_rest : ∃ f, (readSystem 3 [1, 2, 3, 4, 5, 6]).Reachable f ∧
    ReadsExactly [1, 2, 3, 4, 5, 6] 2 f := by
  obtain ⟨f, hf, hm, hcondition⟩ := exists_behind 3 [1, 2, 3, 4, 5, 6] ⟨fun _ => 0, 4, fun _ => 6, 0⟩
    (fun f => 2 ≤ 6 - f.position ∧ f.eof = false ∧ f.rdbuf.size ≤ 2 ∧ Leftover [1, 2, 3, 4, 5, 6] f)
    (by decide +kernel)
  exact ⟨f, hf, (readexactly_iff (by decide) (by decide) hf (by decide) hm).mpr hcondition⟩

/-- One byte of six is read, and two of the five that are left over are asked for. -/
theorem surplus_is_lost : ∃ f, (readSystem 3 [1, 2, 3, 4, 5, 6]).Reachable f ∧ 2 ≤ 6 - f.position ∧
    (f.readexactly [1, 2, 3, 4, 5, 6] (fullCount [1, 2, 3, 4, 5, 6] f) 2).map Prod.fst =
      some (.error (.runtime "file reached eof before finishing the read!")) ∧
    ¬ ReadsExactly [1, 2, 3, 4, 5, 6] 2 f := by
  obtain ⟨f, hf, hm, hthrows⟩ := exists_behind 3 [1, 2, 3, 4, 5, 6] ⟨fun _ => 0, 1, fun _ => 6, 0⟩
    (fun f => 2 ≤ 6 - f.position ∧
      (f.readexactly [1, 2, 3, 4, 5, 6] (fullCount [1, 2, 3, 4, 5, 6] f) 2).map Prod.fst =
        some (.error (.runtime "file reached eof before finishing the read!")))
    (by decide +kernel)
  refine ⟨f, hf, hm, hthrows, fun ⟨f', hexact, _⟩ => ?_⟩
  rw [hexact] at hthrows
  cases hthrows

end Dwhbll.Concurrency.Coroutine.Wrappers.File
