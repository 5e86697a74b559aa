import Dwhbll.Coroutine.Wrappers.Readexactly
import Dwhbll.Coroutine.Wrappers.Writing

/-!
# `seekg` and `seekp` of `concurrency/coroutine/wrappers/file.cpp`

They set the heads and leave both buffers and the flag for the end of the file as they are.
-/

namespace Dwhbll.Concurrency.Coroutine.Wrappers

open Collections

def File.seekg (head : Nat) (f : File) : File := { f with readHead := head }

def File.seekp (head : Nat) (f : File) : File := { f with writeHead := head }

/-- A `read(n)` that follows a `seekg(offset)`: what is in the file when it is called, and what comes of it. -/
structure SoughtRead where
  offset : Nat
  n : Int
  contents : List UInt8
  result : Except File.Exn (List UInt8)

/-- A file that is read and written. -/
structure Session where
  writer : Writer
  /-- The argument of the last `seekg`, if there has been no `read` since. -/
  sought : Option Nat := none
  reads : List SoughtRead := []
  /-- Where the data of the next `write` belongs. -/
  offset : Nat := 0
  /-- What would be in the file if all data had been written where it belongs. -/
  placed : List UInt8

namespace Session

inductive Action where
  /-- A `write` or `drain` is called, or goes on. -/
  | io (a : Writer.Action)
  | read (c : File.ReadCall)
  | seekg (head : Nat)
  | seekp (head : Nat)

/-- No call is running. -/
def idle (s : Session) : Bool :=
  match s.writer.pc with
  | .returned _ => true
  | _ => false

def step (s : Session) : Action → Option Session
  | .io a => do
      let w ← s.writer.step a
      return { s with
        writer := w
        offset := s.offset + (Writer.given a).length
        placed := Writer.pwrite s.placed s.offset (Writer.given a) }
  | .read c =>
      if s.idle ∧ -1 ≤ c.n ∧
          Reader.MayFind ⟨s.writer.file, s.writer.contents, []⟩ ⟨c.mem, c.n.toNat, c.answers 0⟩ then do
        let (result, f) ← s.writer.file.read c.mem s.writer.contents c.answers c.fuel c.n
        return { s with
          writer := { s.writer with file := f }
          sought := none
          reads := s.reads ++ (s.sought.map fun p => ⟨p, c.n, s.writer.contents, result⟩).toList }
      else none
  | .seekg head =>
      if s.idle then some { s with writer := { s.writer with file := s.writer.file.seekg head }, sought := some head }
      else none
  | .seekp head =>
      if s.idle then some { s with writer := { s.writer with file := s.writer.file.seekp head }, offset := head }
      else none

/-- The runs on a file that is open. -/
def system (fd : Int) (contents : List UInt8) : Transition.System Session Action :=
  .ofOption { writer := { file := { fd := fd }, contents := contents }, placed := contents } step

/-- Bytes of the file from the offset on are returned, and some if there are any and one is asked for. -/
def SoughtRead.Right (r : SoughtRead) : Prop :=
  ∃ bytes, r.result = .ok bytes ∧ bytes <+: r.contents.drop r.offset ∧
    (bytes = [] → r.n = 0 ∨ r.contents.length ≤ r.offset)

/-- What seeking is for. Between the calls, with what waits at `write_head` all data is where it belongs. -/
structure Faithful (s : Session) : Prop where
  reads : ∀ r ∈ s.reads, SoughtRead.Right r
  writes : s.idle = true →
    Writer.pwrite s.writer.contents s.writer.file.writeHead s.writer.file.wrbuf.buffer.toList = s.placed
  flushed : s.idle = true → s.writer.file.wrbuf.isEmpty = true → s.writer.contents = s.placed

/-- A `read` behind a `seekg` finds nothing left over and the end not seen, and comes to no batch that is too short; a
`seekp` finds nothing waiting; and what the kernel does not accept has room. -/
def Sound (s : Session) : Action → Prop
  | .io a => Writer.Room s.writer a
  | .read c => s.sought ≠ none → s.writer.file.eof = false ∧ s.writer.file.rdbuf.size = 0 ∧
      (c.n = -1 ∨ File.batchReadCount < c.n.toNat ∨ c.n.toNat ≤ c.answers 0)
  | .seekg _ => True
  | .seekp _ => s.writer.file.wrbuf.isEmpty = true

end Session

/-! ## Reading -/

namespace File

variable {f f' : File} {contents result : List UInt8} {mem : Nat → UInt8} {answers : Nat → Nat} {fuel : Nat} {n : Int}

/-- The calls of `read(-1)` find what is in the file one piece after the other. -/
theorem readAll_found {k : Nat} {all : List UInt8} (h : readAll contents answers fuel k result f = some (all, f')) :
    ∃ count, all = result ++ found contents f.readHead count ∧ answers k ≤ count := by
  induction fuel generalizing k result f with
  | zero => cases h
  | succ fuel ih =>
      rw [readAll] at h
      split at h
      · rename_i hzero
        cases h
        exact ⟨0, by simp [found], Nat.le_of_eq hzero⟩
      · obtain ⟨count, hall, -⟩ := ih h
        refine ⟨answers k + count, ?_, Nat.le_add_right ..⟩
        rw [hall, List.append_assoc]
        simp only [found]
        rw [List.take_add, List.drop_drop]

/-- A read leaves alone what belongs to writing. -/
theorem read_frame {r : Except Exn (List UInt8)} (h : f.read mem contents answers fuel n = some (r, f')) :
    f'.fd = f.fd ∧ f'.wrbuf = f.wrbuf ∧ f'.writeHead = f.writeHead := by
  unfold File.read at h
  split at h
  · cases h
    exact ⟨rfl, rfl, rfl⟩
  · split at h
    · cases h
      exact ⟨rfl, rfl, rfl⟩
    · split at h
      · split at h <;> cases h <;> exact ⟨rfl, rfl, rfl⟩
      · split at h
        · cases h
          exact ⟨rfl, rfl, rfl⟩
        · split at h
          · obtain ⟨⟨all, f₁⟩, hall, heq⟩ := Option.map_eq_some_iff.mp h
            have hframe := readAll_frame hall
            cases heq
            rw [hframe]
            exact ⟨rfl, rfl, rfl⟩
          · split at h
            · cases h
              exact ⟨rfl, rfl, rfl⟩
            · simp only [readBatch] at h
              split at h <;> cases h <;> exact ⟨rfl, rfl, rfl⟩

/-- Nothing is left over and the end has not been seen: what is returned stands in the file from `read_head` on. -/
theorem read_found (hfd : 0 ≤ f.fd) (hopen : f.eof = false) (hsize : f.rdbuf.size = 0) (hn : -1 ≤ n)
    (hmore : f.readHead < contents.length → 1 ≤ answers 0)
    (hbatch : n = -1 ∨ batchReadCount < n.toNat ∨ n.toNat ≤ answers 0) {r : Except Exn (List UInt8)}
    (h : f.read mem contents answers fuel n = some (r, f')) :
    ∃ count, r = .ok (found contents f.readHead count) ∧
      (f.readHead < contents.length → n = 0 ∨ 1 ≤ count) := by
  have hnone : MemBuf.readVector 0 f.rdbuf = (.ok [], f.rdbuf) := rfl
  unfold File.read at h
  rw [if_neg (Int.not_lt.mpr hfd), if_neg (Bool.eq_false_iff.mp hopen), hsize, if_neg (by omega), hnone] at h
  simp only [List.length_nil, Nat.sub_zero] at h
  split at h
  · obtain ⟨⟨all, g⟩, hall, heq⟩ := Option.map_eq_some_iff.mp h
    obtain ⟨count, rfl, hle⟩ := readAll_found hall
    cases heq
    exact ⟨count, rfl, fun hlt => .inr (Nat.le_trans (hmore hlt) hle)⟩
  · rename_i hminus
    split at h
    · cases h
      exact ⟨answers 0, rfl, fun hlt => .inr (hmore hlt)⟩
    · rename_i hfew
      have henough : n.toNat ≤ answers 0 := (hbatch.resolve_left hminus).resolve_left hfew
      rw [readBatch] at h
      simp only [if_neg (Nat.not_lt.mpr henough)] at h
      cases h
      refine ⟨n.toNat, ?_, fun hlt => ?_⟩
      · rw [List.nil_append, found, found, List.take_take, Nat.min_eq_left henough]
      · omega

end File

/-! ## The invariant -/

namespace Writer

variable {w w' : Writer} {a : Action} {mem : Nat → UInt8} {op : WriteOp} {result : Bool}

theorem resume_readHead : (w.resume mem op result).file.readHead = w.file.readHead := by
  cases op <;> cases result <;> rfl

theorem tryFlush_readHead : (w.tryFlush mem op).file.readHead = w.file.readHead := by
  unfold Writer.tryFlush
  split
  · rfl
  · split
    · exact resume_readHead
    · rfl

theorem step_readHead (hs : step w a = some w') : w'.file.readHead = w.file.readHead := by
  cases a with
  | call mem op =>
      simp only [step] at hs
      split at hs
      · split at hs
        · cases hs
          rfl
        · cases hs
          exact tryFlush_readHead
      · cases hs
  | wrote mem wrote =>
      simp only [step] at hs
      split at hs
      · split at hs
        · split at hs
          · cases hs
            exact resume_readHead
          · cases hs
            rfl
        · cases hs
      · split at hs
        · split at hs <;> cases hs <;> rfl
        · cases hs
      · cases hs
  | polled mem =>
      simp only [step] at hs
      split at hs
      · cases hs
        exact tryFlush_readHead
      · cases hs

end Writer

namespace Session

variable {s s' : Session} {a : Action}

/-- With what is still to be written at `write_head` all data is where it belongs. -/
def Writes (w : Writer) (placed : List UInt8) (offset : Nat) : Prop :=
  ∃ todo all, w.At w.contents w.file.writeHead todo all ∧ placed = Writer.pwrite w.contents w.file.writeHead todo ∧
    offset = w.file.writeHead + todo.length

structure Inv (s : Session) : Prop where
  writes : Writes s.writer s.placed s.offset
  sought : ∀ p, s.sought = some p → s.writer.file.readHead = p
  reads : ∀ r ∈ s.reads, SoughtRead.Right r

theorem Writes.step {w w' : Writer} {b : Writer.Action} {placed : List UInt8} {offset : Nat} (h : Writes w placed offset)
    (hroom : Writer.Room w b) (hs : Writer.step w b = some w') :
    Writes w' (Writer.pwrite placed offset (Writer.given b)) (offset + (Writer.given b).length) := by
  obtain ⟨todo, all, hat, rfl, rfl⟩ := h
  obtain ⟨bytes, rest, hsplit, hat'⟩ := hat.step hroom hs
  have hlength := congrArg List.length hsplit
  rw [List.length_append, List.length_append] at hlength
  refine ⟨rest, all ++ Writer.given b, ?_, ?_, ?_⟩
  · rw [hat'.contents_eq, hat'.head_eq]
    exact hat'
  · rw [Writer.pwrite_append, ← hsplit, hat'.contents_eq, hat'.head_eq, Writer.pwrite_append]
  · rw [hat'.head_eq]
    omega

/-- What belongs to writing is as before. -/
theorem Writes.congr {w : Writer} {placed : List UInt8} {offset : Nat} {f : File} (h : Writes w placed offset)
    (hfd : f.fd = w.file.fd) (hwrbuf : f.wrbuf = w.file.wrbuf) (hhead : f.writeHead = w.file.writeHead) :
    Writes { w with file := f } placed offset := by
  obtain ⟨fd, readHead, writeHead, eof, rdbuf, wrbuf⟩ := f
  simp only at hfd hwrbuf hhead
  subst hfd hwrbuf hhead
  obtain ⟨todo, all, hat, hplaced, hoffset⟩ := h
  exact ⟨todo, all, ⟨hat.fd, hat.below, rfl, rfl, hat.waits, hat.written⟩, hplaced, hoffset⟩

theorem idle_iff : s.idle = true ↔ ∃ op, s.writer.pc = .returned op := by
  unfold idle
  split
  · exact iff_of_true rfl ⟨_, ‹_›⟩
  · rename_i hnot
    exact iff_of_false Bool.false_ne_true fun ⟨op, hop⟩ => hnot op hop

/-- Between the calls what is still to be written is what waits. -/
theorem idle_at {contents todo all : List UInt8} {head : Nat} (h : s.writer.At contents head todo all)
    (hidle : s.idle = true) : s.writer.file.wrbuf.Holds false todo := by
  obtain ⟨op, hop⟩ := idle_iff.mp hidle
  obtain ⟨pending, hwaits, -, rfl⟩ := h.waits
  rw [hop, Writer.outstanding, List.append_nil]
  · exact hwaits
  · exact nofun
  · exact nofun

theorem Inv.faithful (h : Inv s) : Faithful s where
  reads := h.reads
  writes hidle := by
    obtain ⟨todo, all, hat, hplaced, -⟩ := h.writes
    rw [(idle_at hat hidle).toList, hplaced]
  flushed hidle hempty := by
    obtain ⟨todo, all, hat, hplaced, -⟩ := h.writes
    rw [hplaced, (Writer.isEmpty_iff (idle_at hat hidle)).mp hempty]
    rfl

theorem Inv.read {c : File.ReadCall} (h : Inv s) (hsound : Sound s (.read c)) (hs : step s (.read c) = some s') :
    Inv s' := by
  simp only [step] at hs
  split at hs
  · rename_i hcall
    obtain ⟨hidle, hn, hfind⟩ := hcall
    obtain ⟨⟨result, f⟩, hread, hs⟩ := Option.bind_eq_some_iff.mp hs
    cases hs
    obtain ⟨hfd, hwrbuf, hhead⟩ := File.read_frame hread
    refine ⟨h.writes.congr hfd hwrbuf hhead, nofun, fun r hr => ?_⟩
    rcases List.mem_append.mp hr with hr | hr
    · exact h.reads r hr
    · obtain ⟨p, hp, rfl⟩ := Option.map_eq_some_iff.mp (Option.mem_toList.mp hr)
      obtain ⟨hopen, hsize, hbatch⟩ := hsound (by rw [hp]; exact nofun)
      obtain ⟨todo, all, hat, -⟩ := h.writes
      have hfirst : s.writer.file.readHead < s.writer.contents.length → 1 ≤ c.answers 0 := hfind.2.2
      obtain ⟨count, hfound, hmore⟩ := File.read_found hat.fd hopen hsize hn hfirst hbatch hread
      rw [h.sought p hp] at hfound hmore
      refine ⟨_, hfound, List.take_prefix .., fun hnil => ?_⟩
      simp only
      rcases Nat.lt_or_ge p s.writer.contents.length with hlt | hge
      · rcases hmore hlt with hzero | hone
        · exact .inl hzero
        · have hlength := congrArg List.length hnil
          rw [File.found, List.length_take, List.length_drop, List.length_nil] at hlength
          omega
      · exact .inr hge
  · cases hs

theorem Inv.step (h : Inv s) (hsound : Sound s a) (hs : Session.step s a = some s') : Inv s' := by
  cases a with
  | io b =>
      obtain ⟨w, hw, hs⟩ := Option.bind_eq_some_iff.mp hs
      cases hs
      exact ⟨h.writes.step hsound hw, fun p hp => (Writer.step_readHead hw).trans (h.sought p hp), h.reads⟩
  | read c => exact h.read hsound hs
  | seekg head =>
      simp only [Session.step] at hs
      split at hs
      · cases hs
        exact ⟨h.writes.congr rfl rfl rfl, fun p hp => Option.some.inj hp, h.reads⟩
      · cases hs
  | seekp head =>
      simp only [Session.step] at hs
      split at hs
      · rename_i hidle
        cases hs
        obtain ⟨todo, all, hat, hplaced, -⟩ := h.writes
        obtain rfl := (Writer.isEmpty_iff (idle_at hat hidle)).mp hsound
        exact ⟨⟨[], all, ⟨hat.fd, hat.below, rfl, rfl, hat.waits, hat.written⟩, hplaced, rfl⟩, h.sought, h.reads⟩
      · cases hs

/-! ## Runs -/

/-- In runs all of whose steps meet the condition, reads behind a `seekg` return what is in the file from its offset on,
and written data is where it belongs. -/
theorem reachable_faithful {fd : Int} (hfd : 0 ≤ fd) {contents : List UInt8}
    (h : ((system fd contents).restrict Sound).Reachable s) : Faithful s := by
  have hinvariant : ((system fd contents).restrict Sound).Invariant Inv := by
    refine ⟨fun s hs => ?_, fun s a s' hinv hs => hinv.step hs.1 hs.2⟩
    cases hs
    have hempty : MemBuf.new.size < 1024 := by decide
    refine ⟨⟨[], [], ⟨hfd, hempty, rfl, rfl, ⟨[], MemBuf.new_holds, trivial, rfl⟩, rfl⟩, rfl, rfl⟩, fun p hp => ?_, ?_⟩
    · cases hp
    · intro r hr
      cases hr
  exact (hinvariant.reachable h).faithful

/-- A byte is written at an offset, and read from there. -/
theorem reachable_faithful_byte : ∃ s, ((system 3 [7, 8]).restrict Sound).Reachable s ∧
    s.writer.contents = [7, 9] ∧ s.reads.length = 1 ∧ Faithful s := by
  let w₀ : Writer := { file := { fd := 3, writeHead := 1 }, contents := [7, 8] }
  let s₁ : Session := { writer := w₀, offset := 1, placed := [7, 8] }
  let s₂ : Session := { s₁ with writer := w₀.tryFlush (fun _ => 0) (.write [9]), offset := 2, placed := [7, 9] }
  let w₃ : Writer :=
    { file := { fd := 3, writeHead := 2 }, contents := [7, 9], pc := .returned (some (.write [9])), written := [9] }
  let s₃ : Session := { s₂ with writer := w₃ }
  let s₄ : Session := { s₃ with writer := { w₃ with file := w₃.file.seekg 1 }, sought := some 1 }
  let s₅ : Session :=
    { s₃ with writer := { w₃ with file := w₃.file.seekg 2 }, reads := [⟨1, 1, [7, 9], .ok [9]⟩] }
  have h₁ : ((system 3 [7, 8]).restrict Sound).Reachable s₁ := .step (i := .seekp 1) (.init rfl) ⟨rfl, rfl⟩
  have h₂ : ((system 3 [7, 8]).restrict Sound).Reachable s₂ :=
    .step (i := .io (.call (fun _ => 0) (.write [9]))) h₁ ⟨trivial, rfl⟩
  have h₃ : ((system 3 [7, 8]).restrict Sound).Reachable s₃ :=
    .step (i := .io (.wrote (fun _ => 0) 1)) h₂ ⟨Nat.zero_lt_succ _, rfl⟩
  have h₄ : ((system 3 [7, 8]).restrict Sound).Reachable s₄ := .step (i := .seekg 1) h₃ ⟨trivial, rfl⟩
  have h₅ : ((system 3 [7, 8]).restrict Sound).Reachable s₅ :=
    .step (i := .read ⟨fun _ => 0, 1, fun _ => 1, 0⟩) h₄ ⟨fun _ => ⟨rfl, rfl, .inr (.inr (Nat.le_refl 1))⟩, rfl⟩
  exact ⟨s₅, h₅, rfl, rfl, reachable_faithful (by decide) h₅⟩

/-- The state behind some actions, with what can be computed of it. -/
theorem exists_behind (fd : Int) (contents : List UInt8) (actions : List Action) (P : Session → Prop) [DecidablePred P]
    (h : (actions.foldlM step { writer := { file := { fd := fd }, contents := contents }, placed := contents }).any
      (fun s => P s) = true) : ∃ s, (system fd contents).Reachable s ∧ P s := by
  cases hrun : actions.foldlM step { writer := { file := { fd := fd }, contents := contents }, placed := contents } with
  | none =>
      rw [hrun] at h
      cases h
  | some s =>
      rw [hrun] at h
      exact ⟨s, .foldlM (.init rfl) hrun, by simpa using h⟩

/-- The second byte is left over when the first one is sought again; the second byte waits when the write offset is
set behind both. -/
theorem seeks_keep_buffers :
    (∃ s, (system 3 [1, 2]).Reachable s ∧ ¬ Faithful s) ∧ ∃ s, (system 3 []).Reachable s ∧ ¬ Faithful s := by
  constructor
  · obtain ⟨s, hs, hreads⟩ := exists_behind 3 [1, 2]
      [.read ⟨fun _ => 0, 1, fun _ => 2, 0⟩, .seekg 0, .read ⟨fun _ => 0, 1, fun _ => 1, 0⟩]
      (fun s => s.reads.map (fun r => (r.offset, r.contents, r.result.toOption)) = [(0, [1, 2], some [2])])
      (by decide +kernel)
    refine ⟨s, hs, fun h => ?_⟩
    obtain ⟨r, hr, hfields⟩ := List.map_eq_singleton_iff.mp hreads
    obtain ⟨bytes, hok, hprefix, -⟩ := h.reads r (hr ▸ List.mem_singleton_self r)
    simp only [Prod.mk.injEq, hok, Except.toOption, Option.some.injEq] at hfields
    obtain ⟨hoffset, hcontents, rfl⟩ := hfields
    rw [hoffset, hcontents] at hprefix
    exact absurd hprefix (by decide)
  · obtain ⟨s, hs, hidle, hempty, hcontents, hplaced⟩ := exists_behind 3 []
      [.io (.call (fun _ => 0) (.write [1, 2])), .io (.wrote (fun _ => 0) 1), .seekp 5, .io (.call (fun _ => 0) .drain),
        .io (.wrote (fun _ => 0) 1)]
      (fun s => s.idle = true ∧ s.writer.file.wrbuf.isEmpty = true ∧ s.writer.contents = [1, 0, 0, 0, 0, 2] ∧
        s.placed = [1, 2])
      (by decide +kernel)
    refine ⟨s, hs, fun h => ?_⟩
    have hflushed := h.flushed hidle hempty
    rw [hcontents, hplaced] at hflushed
    cases hflushed

end Session

end Dwhbll.Concurrency.Coroutine.Wrappers
