import Dwhbll.Subprocess.Process

/-!
# What `communicate` has written and read when its loop has ended

The three pipes go on independently. For each there is a statement that is kept by what the kernel answers and by
what the child does, and the `done` flag of each says that there is no more to come.
-/

namespace Dwhbll.Subprocess

open Pipes

/-! ## One of the outputs -/

/-- What has been read is what the child has written so far, and all of it when `done` is set. -/
structure Output.Holds (fd : Int) (x : Output) : Prop where
  wrapper : x.wrapper = some fd
  received : x.pipe.Received x.output
  ended : x.done = true → x.pipe.buffered = [] ∧ x.pipe.ended = true

namespace Output.Holds

variable {fd : Int} {x : Output}

theorem start (h : x.pipe.Received []) : (x.start (some fd)).Holds fd := ⟨rfl, h, nofun⟩

theorem write (h : x.Holds fd) (hopen : ¬ x.pipe.ended = true) (bytes : List UInt8) :
    { x with pipe := x.pipe.write bytes }.Holds fd :=
  ⟨h.wrapper, h.received.write bytes, fun hdone => absurd (h.ended hdone).2 hopen⟩

theorem close (h : x.Holds fd) : { x with pipe := x.pipe.close }.Holds fd :=
  ⟨h.wrapper, h.received.close, fun hdone => ⟨(h.ended hdone).1, rfl⟩⟩

/-- What is read goes behind the rest, and the end is noticed only where all has been read. -/
theorem read (h : x.Holds fd) {count : Nat} {a : Answer (List UInt8)} (hmay : x.pipe.MayRead count a) :
    ∃ value, llRead a = .ok value ∧ ((x.fetch a).insert value).Holds fd := by
  cases a with
  | again =>
      refine ⟨.ok [], rfl, h.wrapper, ?_, h.ended⟩
      simpa [fetch, insert] using h.received
  | failed what => exact hmay.elim
  | ok bytes =>
      obtain ⟨hbytes, -, hend⟩ := hmay
      cases bytes with
      | nil =>
          obtain ⟨hempty, hclosed⟩ := hend rfl
          exact ⟨.error true, rfl, h.wrapper, h.received, fun _ => ⟨hempty, hclosed⟩⟩
      | cons b bs =>
          refine ⟨.ok (b :: bs), rfl, h.wrapper, h.received.advance hbytes, fun hdone => ?_⟩
          -- There is nothing left to be read once `done` is set.
          rw [(h.ended hdone).1] at hbytes
          cases List.prefix_nil.mp hbytes

theorem complete (h : x.Holds fd) (hdone : x.done = true) : x.output = x.pipe.sent ∧ x.pipe.ended = true :=
  ⟨h.received.complete (h.ended hdone).1, (h.ended hdone).2⟩

end Output.Holds

namespace Communicate

variable {i o e : Int} {input : Option (List UInt8)} {c c' : Communicate} {s : Stream} {x : Output}

@[simp] theorem output_setOutput (s : Stream) (x : Output) (c : Communicate) : (c.setOutput s x).output s = x := by
  cases s <;> rfl

theorem output_setOutput_of_ne {s t : Stream} (h : t ≠ s) (x : Output) (c : Communicate) :
    (c.setOutput s x).output t = c.output t := by
  cases s <;> cases t <;> first | rfl | exact absurd rfl h

/-- What holds of the new output and of all that were there. -/
theorem forall_output_setOutput {Q : Stream → Output → Prop} (hx : Q s x) (h : ∀ t, Q t (c.output t)) (t : Stream) :
    Q t ((c.setOutput s x).output t) := by
  by_cases hts : t = s
  · subst hts
    rwa [output_setOutput]
  · rw [output_setOutput_of_ne hts]
    exact h t

@[simp] theorem setOutput_pc (s : Stream) (x : Output) (c : Communicate) : (c.setOutput s x).pc = c.pc := by
  cases s <;> rfl

/-! ## The invariant -/

def descriptor (o e : Int) : Stream → Int
  | .stdout => o
  | .stderr => e

/-- From the start of the loop on: what has been accepted and what has not are the input, and the descriptor is
closed when nothing is left. -/
structure Holds (i o e : Int) (input : Option (List UInt8)) (c : Communicate) : Prop where
  input_eq : c.input = input
  wrapper : c.wrapper = some i
  received : c.stdin.Received c.received
  pending : c.stdinDone = false → input.isSome = true ∧ c.process.stdin = some i ∧ c.closed = [] ∧
    c.stdin.sent ++ c.stdinBuffer = input.getD [] ∧ c.stdinRemaining = c.stdinBuffer.length
  finished : c.stdinDone = true → c.stdin.sent = input.getD [] ∧ c.stdin.ended = true ∧ c.closed = [i]
  outputs : ∀ s, (c.output s).Holds (descriptor o e s)

def AllDone (c : Communicate) : Prop := c.stdinDone = true ∧ ∀ s, (c.output s).done = true

/-- What is known at each point of the code. -/
def Fits (c : Communicate) : Prop :=
  match c.pc with
  | .start => False
  | .loop => True
  | .writing => c.stdinDone = false
  | .reading s => (c.output s).done = false
  | .waiting => c.AllDone
  | .returned result => c.AllDone ∧ result = (c.out.output, c.err.output)
  | .thrown ex => c.AllDone ∧ ex = .timeoutException "timed out waiting for child process to exit."

/-- Before `communicate` is called only the child has done something. -/
structure Before (i o e : Int) (input : Option (List UInt8)) (c : Communicate) : Prop where
  pc : c.pc = .start
  input_eq : c.input = input
  process : c.process = { stdin := some i, stdout := some o, stderr := some e }
  closed : c.closed = []
  sent : c.stdin.sent = []
  received : c.stdin.Received c.received
  outputs : ∀ s, (c.output s).pipe.Received []

def Inv (i o e : Int) (input : Option (List UInt8)) (c : Communicate) : Prop :=
  Before i o e input c ∨ Holds i o e input c ∧ c.Fits

namespace Holds

theorem goto (h : Holds i o e input c) (pc : Pc) : Holds i o e input { c with pc := pc } :=
  ⟨h.input_eq, h.wrapper, h.received, h.pending, h.finished, h.outputs⟩

theorem setOutput (h : Holds i o e input c) (hx : x.Holds (descriptor o e s)) :
    Holds i o e input (c.setOutput s x) := by
  have houtputs := forall_output_setOutput (Q := fun t y => y.Holds (descriptor o e t)) hx h.outputs
  cases s <;> exact ⟨h.input_eq, h.wrapper, h.received, h.pending, h.finished, houtputs⟩

/-- A descriptor to read from is not the one that is closed. -/
theorem not_mem_closed (h : Holds i o e input c) {fd : Int} (hne : i ≠ fd) : fd ∉ c.closed := by
  cases hdone : c.stdinDone with
  | false => simp [(h.pending hdone).2.2.1]
  | true => simpa [(h.finished hdone).2.2] using hne.symm

/-! ## The code, block by block -/

theorem toStderr (h : Holds i o e input c) : Holds i o e input c.toStderr ∧ c.toStderr.Fits := by
  refine ⟨h.goto _, ?_⟩
  cases hdone : c.err.done <;> simp [Communicate.toStderr, Fits, hdone, output]

theorem toStdout (h : Holds i o e input c) : Holds i o e input c.toStdout ∧ c.toStdout.Fits := by
  unfold Communicate.toStdout
  cases hdone : c.out.done with
  | false => exact ⟨h.goto _, hdone⟩
  | true => exact h.toStderr

theorem next (h : Holds i o e input c) (s : Stream) : Holds i o e input (c.next s) ∧ (c.next s).Fits := by
  cases s with
  | stdout => exact h.toStderr
  | stderr => exact ⟨h.goto _, trivial⟩

theorem turn (h : Holds i o e input c) : Holds i o e input c.turn ∧ c.turn.Fits := by
  unfold Communicate.turn
  split
  · split
    · rename_i hwrite
      simp only [Bool.and_eq_true, Bool.not_eq_true'] at hwrite
      exact ⟨h.goto _, hwrite.2⟩
    · exact h.toStdout
  · rename_i hdone
    simp only [Bool.or_eq_true, Bool.not_eq_true', not_or, Bool.not_eq_false] at hdone
    obtain ⟨⟨hin, hout⟩, herr⟩ := hdone
    refine ⟨h.goto _, hin, fun s => ?_⟩
    cases s with
    | stdout => exact hout
    | stderr => exact herr

/-- Some of the input is accepted, and the descriptor is closed if that is all that was left. -/
theorem wrote (h : Holds i o e input c) (hopen : c.stdinDone = false) (count : Nat)
    {c' : Communicate} (hc' : c' = ({ c with stdin := c.stdin.write (c.stdinBuffer.take count) }).wrote (.ok count)) :
    Holds i o e input c' ∧ c'.Fits := by
  obtain ⟨hsome, hstdin, hclosed, hsum, hremaining⟩ := h.pending hopen
  have hsent : (c.stdin.write (c.stdinBuffer.take count)).sent ++ c.stdinBuffer.drop count = input.getD [] := by
    rw [Pipe.write, List.append_assoc, List.take_append_drop, hsum]
  subst hc'
  simp only [Communicate.wrote, hstdin]
  by_cases hmore : c.stdinRemaining - count > 0
  · rw [if_pos hmore]
    refine toStdout ⟨h.input_eq, h.wrapper, h.received.write _, fun _ => ?_, fun hdone => ?_, h.outputs⟩
    · refine ⟨hsome, hstdin, hclosed, hsent, ?_⟩
      simp only [hremaining, List.length_drop]
    · rw [hopen] at hdone
      cases hdone
  · rw [if_neg hmore]
    rw [List.drop_of_length_le (by omega), List.append_nil] at hsent
    refine toStdout ⟨h.input_eq, h.wrapper, (h.received.write _).close, fun hdone => ?_, fun _ => ⟨hsent, rfl, ?_⟩,
      h.outputs⟩
    · cases hdone
    · simp only [closeStdin, hclosed, List.nil_append]

theorem accept_wrote (h : Holds i o e input c) (hopen : c.stdinDone = false) {a : Answer Nat}
    (hmay : MayAccept c.stdinBuffer.length a) :
    Holds i o e input ((c.accept a).wrote (llWrite a)) ∧ ((c.accept a).wrote (llWrite a)).Fits := by
  cases a with
  | ok count => exact h.wrote hopen count rfl
  | again =>
      refine h.wrote hopen 0 ?_
      simp only [accept, llWrite, List.take_zero, Pipe.write, List.append_nil]
  | failed what => exact hmay.elim

theorem read (h : Holds i o e input c) {a : Answer (List UInt8)} (hmay : (c.output s).pipe.MayRead 65535 a) :
    Holds i o e input ((c.setOutput s ((c.output s).fetch a)).read s (llRead a)) ∧
      ((c.setOutput s ((c.output s).fetch a)).read s (llRead a)).Fits := by
  obtain ⟨value, hvalue, hx⟩ := (h.outputs s).read hmay
  have hnext := (h.setOutput hx).next s
  rw [hvalue]
  simp only [Communicate.read, output_setOutput]
  cases s <;> exact hnext

theorem waited (h : Holds i o e input c) (hpc : c.pc = .waiting) (hdone : c.AllDone) (status : Status) (elapsed : Int) :
    Holds i o e input (c.waited status elapsed) ∧ (c.waited status elapsed).Fits := by
  cases status with
  | running =>
      simp only [Communicate.waited]
      split
      · exact ⟨h.goto _, hdone, rfl⟩
      · refine ⟨h, ?_⟩
        simpa only [Fits, hpc] using hdone
  | stopped => exact ⟨h.goto _, hdone, rfl⟩
  | exited code =>
      exact ⟨⟨h.input_eq, h.wrapper, h.received, h.pending, h.finished, h.outputs⟩, hdone, rfl⟩
  | signaled signal =>
      exact ⟨⟨h.input_eq, h.wrapper, h.received, h.pending, h.finished, h.outputs⟩, hdone, rfl⟩

end Holds

/-! ## What the child does -/

theorem Fits.setOutput (h : c.Fits) (hdone : x.done = (c.output s).done) (hout : x.output = (c.output s).output) :
    (c.setOutput s x).Fits := by
  have hflag := forall_output_setOutput (Q := fun t y => y.done = (c.output t).done) hdone fun _ => rfl
  have hstdin : (c.setOutput s x).stdinDone = c.stdinDone := by cases s <;> rfl
  have hpair : ((c.setOutput s x).out.output, (c.setOutput s x).err.output) = (c.out.output, c.err.output) := by
    cases s with
    | stdout => exact congrArg (·, c.err.output) hout
    | stderr => exact congrArg (c.out.output, ·) hout
  unfold Fits at h ⊢
  rw [setOutput_pc]
  cases hpc : c.pc <;> simp only [hpc, AllDone, hflag, hstdin, hpair] at h ⊢ <;> exact h

theorem Before.start (h : Before i o e input c) : Holds i o e input c.start ∧ c.start.Fits := by
  obtain ⟨-, hinput, hprocess, hclosed, hsent, hreceived, houtputs⟩ := h
  have hout : ∀ t, (Output.start (some (descriptor o e t)) (c.output t)).Holds (descriptor o e t) :=
    fun t => .start (houtputs t)
  unfold Communicate.start
  rw [hprocess, hinput]
  cases input with
  | none =>
      refine ⟨⟨rfl, rfl, hreceived.close, nofun, fun _ => ⟨hsent, rfl, ?_⟩, fun t => ?_⟩, trivial⟩
      · exact congrArg (· ++ [i]) hclosed
      · cases t with
        | stdout => exact hout .stdout
        | stderr => exact hout .stderr
  | some bytes =>
      refine ⟨⟨rfl, rfl, hreceived, fun _ => ⟨rfl, rfl, hclosed, ?_, rfl⟩, nofun, fun t => ?_⟩, trivial⟩
      · exact congrArg (· ++ bytes) hsent
      · cases t with
        | stdout => exact hout .stdout
        | stderr => exact hout .stderr

/-- The child does something to an output, of which nothing has been read or all is known to be read. -/
theorem Inv.setOutput (h : Inv i o e input c) {pipe : Pipe UInt8}
    (hbefore : (c.output s).pipe.Received [] → pipe.Received [])
    (hholds : (c.output s).Holds (descriptor o e s) → { c.output s with pipe := pipe }.Holds (descriptor o e s)) :
    Inv i o e input (c.setOutput s { c.output s with pipe := pipe }) := by
  rcases h with h | ⟨h, hfits⟩
  · have houtputs := forall_output_setOutput (s := s) (x := { c.output s with pipe := pipe })
      (Q := fun _ y => y.pipe.Received []) (hbefore (h.outputs s)) h.outputs
    cases s <;> exact .inl ⟨h.pc, h.input_eq, h.process, h.closed, h.sent, h.received, houtputs⟩
  · exact .inr ⟨h.setOutput (hholds (h.outputs s)), hfits.setOutput rfl rfl⟩

theorem Inv.childCloses (h : Inv i o e input c) (s : Stream) :
    Inv i o e input (c.setOutput s { c.output s with pipe := (c.output s).pipe.close }) :=
  h.setOutput (fun hr => hr.close) fun hx => hx.close

theorem Inv.childReads (h : Inv i o e input c) {bytes : List UInt8} (hbytes : bytes <+: c.stdin.buffered) :
    Inv i o e input { c with stdin := c.stdin.advance bytes, received := c.received ++ bytes } := by
  rcases h with h | ⟨h, hfits⟩
  · exact .inl ⟨h.pc, h.input_eq, h.process, h.closed, h.sent, h.received.advance hbytes, h.outputs⟩
  · exact .inr ⟨⟨h.input_eq, h.wrapper, h.received.advance hbytes, h.pending, h.finished, h.outputs⟩, hfits⟩

/-! ## Runs -/

/-- Where the code has got to, the first point apart. -/
theorem Inv.of_pc (h : Inv i o e input c) (hpc : c.pc ≠ .start) : Holds i o e input c ∧ c.Fits :=
  h.resolve_left fun hbefore => hpc hbefore.pc

theorem mayAnswer_iff {α : Type} {fd : Int} (hfd : fd ∉ c.closed) {may : Answer α → Prop} {a : Answer α} :
    c.MayAnswer fd may a ↔ may a := by
  rw [MayAnswer, if_neg hfd]

theorem Inv.step (hio : i ≠ o) (hie : i ≠ e) (h : Inv i o e input c) {ev : Event} (hs : c.step ev = some c') :
    Inv i o e input c' := by
  cases ev with
  | call =>
      obtain ⟨hpc, hs⟩ := Option.ite_none_right_eq_some.mp hs
      cases hs
      rcases h with h | ⟨-, hfits⟩
      · exact .inr h.start
      · simp only [Fits, hpc] at hfits
  | turn =>
      obtain ⟨hpc, hs⟩ := Option.ite_none_right_eq_some.mp hs
      cases hs
      exact .inr (h.of_pc (by simp [hpc])).1.turn
  | wrote a =>
      obtain ⟨hpc, hs⟩ := Option.ite_none_right_eq_some.mp hs
      obtain ⟨hholds, hfits⟩ := h.of_pc (by simp [hpc])
      simp only [Fits, hpc] at hfits
      simp only [hholds.wrapper] at hs
      obtain ⟨hmay, hs⟩ := Option.ite_none_right_eq_some.mp hs
      cases hs
      rw [mayAnswer_iff (by simp [(hholds.pending hfits).2.2.1])] at hmay
      exact .inr (hholds.accept_wrote hfits hmay)
  | read a =>
      simp only [Communicate.step] at hs
      split at hs
      · rename_i s hpc
        obtain ⟨hholds, hfits⟩ := h.of_pc (by simp [hpc])
        have hne : i ≠ descriptor o e s := by cases s <;> assumption
        simp only [(hholds.outputs s).wrapper] at hs
        obtain ⟨hmay, hs⟩ := Option.ite_none_right_eq_some.mp hs
        cases hs
        rw [mayAnswer_iff (hholds.not_mem_closed hne)] at hmay
        exact .inr (hholds.read hmay)
      · cases hs
  | waited status elapsed =>
      obtain ⟨hpc, hs⟩ := Option.ite_none_right_eq_some.mp hs
      cases hs
      obtain ⟨hholds, hfits⟩ := h.of_pc (by simp [hpc])
      simp only [Fits, hpc] at hfits
      exact .inr (hholds.waited hpc hfits status elapsed)
  | childWrites s bytes =>
      obtain ⟨hopen, hs⟩ := Option.ite_none_left_eq_some.mp hs
      cases hs
      exact h.setOutput (fun hr => hr.write bytes) fun hx => hx.write hopen bytes
  | childCloses s =>
      cases hs
      exact h.childCloses s
  | childReads bytes =>
      obtain ⟨hbytes, hs⟩ := Option.ite_none_right_eq_some.mp hs
      cases hs
      exact h.childReads hbytes

theorem inv_of_reachable {timeout : Option Int} (hio : i ≠ o) (hie : i ≠ e)
    (h : (system { stdin := some i, stdout := some o, stderr := some e } input timeout).Reachable c) :
    Inv i o e input c := by
  have hstart : Inv i o e input
      { process := { stdin := some i, stdout := some o, stderr := some e }, input := input, timeout := timeout } :=
    .inl ⟨rfl, rfl, rfl, rfl, rfl, rfl, fun s => by cases s <;> rfl⟩
  exact (Transition.System.Invariant.ofOption hstart fun _ _ _ hinv hs => hinv.step hio hie hs).reachable h

/-- Behind the loop, and also when the call has ended. -/
def LoopEnded (c : Communicate) : Prop :=
  match c.pc with
  | .waiting => True
  | .returned _ => True
  | .thrown _ => True
  | _ => False

theorem Inv.allDone (h : Inv i o e input c) (hended : c.LoopEnded) : Holds i o e input c ∧ c.Fits ∧ c.AllDone := by
  obtain ⟨hholds, hfits⟩ : Holds i o e input c ∧ c.Fits := by
    refine h.of_pc fun hpc => ?_
    simp only [LoopEnded, hpc] at hended
  refine ⟨hholds, hfits, ?_⟩
  unfold LoopEnded at hended
  unfold Fits at hfits
  split at hended
  · simpa only [‹c.pc = _›] using hfits
  · simp only [‹c.pc = _›] at hfits
    exact hfits.1
  · simp only [‹c.pc = _›] at hfits
    exact hfits.1
  · exact hended.elim

/-- When the loop has ended, the input has been written and `stdin` has been closed once; all that the child has
written has been read, and it writes no more; and that is what is returned. -/
theorem communicate_exact {timeout : Option Int} (hio : i ≠ o) (hie : i ≠ e)
    (h : (system { stdin := some i, stdout := some o, stderr := some e } input timeout).Reachable c)
    (hended : c.LoopEnded) :
    c.stdin.sent = input.getD [] ∧ c.closed = [i] ∧
      (∀ s, (c.output s).output = (c.output s).pipe.sent ∧ (c.output s).pipe.ended = true) ∧
      (∀ result, c.pc = .returned result → result = (c.out.pipe.sent, c.err.pipe.sent)) ∧
      ∀ ex, c.pc = .thrown ex → ex = .timeoutException "timed out waiting for child process to exit." := by
  obtain ⟨hholds, hfits, hdone⟩ := (inv_of_reachable hio hie h).allDone hended
  obtain ⟨hsent, -, hclosed⟩ := hholds.finished hdone.1
  have houtputs := fun s => (hholds.outputs s).complete (hdone.2 s)
  refine ⟨hsent, hclosed, houtputs, fun result hpc => ?_, fun ex hpc => ?_⟩
  · simp only [Fits, hpc] at hfits
    rw [hfits.2]
    exact Prod.ext (houtputs .stdout).1 (houtputs .stderr).1
  · simp only [Fits, hpc] at hfits
    exact hfits.2

/-- The first byte is accepted before the child writes and the second after it, and `stderr` ends before `stdout`. -/
theorem communicate_exact_two : ∃ c,
    (system { stdin := some 3, stdout := some 4, stderr := some 5 } (some [1, 2]) none).Reachable c ∧
      c.pc = .returned ([7], []) ∧ c.stdin.sent = [1, 2] ∧ c.closed = [3] := by
  let evs : List Event := [.call, .turn, .wrote (.ok 1), .read .again, .read .again, .childWrites .stdout [7], .turn,
    .wrote (.ok 1), .read (.ok [7]), .childCloses .stderr, .read (.ok []), .childCloses .stdout, .turn,
    .read (.ok []), .turn, .waited (.exited 0) 0]
  obtain ⟨c, hc⟩ : ∃ c, evs.foldlM step
      { process := { stdin := some 3, stdout := some 4, stderr := some 5 }, input := some [1, 2], timeout := none } =
        some c := ⟨_, rfl⟩
  have hreachable : (system { stdin := some 3, stdout := some 4, stderr := some 5 } (some [1, 2]) none).Reachable c :=
    Transition.System.Reachable.foldlM (.init rfl) hc
  have hpc : c.pc = .returned ([7], []) := by
    cases hc
    rfl
  obtain ⟨hsent, hclosed, -⟩ := communicate_exact (by decide) (by decide) hreachable (by simp [LoopEnded, hpc])
  exact ⟨c, hreachable, hpc, hsent, hclosed⟩

/-- What the child has read and what it can still read is the input, and then comes the end. -/
theorem received_append_buffered {timeout : Option Int} (hio : i ≠ o) (hie : i ≠ e)
    (h : (system { stdin := some i, stdout := some o, stderr := some e } input timeout).Reachable c)
    (hended : c.LoopEnded) : c.received ++ c.stdin.buffered = input.getD [] ∧ c.stdin.ended = true := by
  obtain ⟨hholds, -, hdone⟩ := (inv_of_reachable hio hie h).allDone hended
  obtain ⟨hsent, hclosed, -⟩ := hholds.finished hdone.1
  exact ⟨hholds.received.trans hsent, hclosed⟩

end Communicate

end Dwhbll.Subprocess
