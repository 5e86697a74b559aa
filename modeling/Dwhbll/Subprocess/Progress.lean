import Dwhbll.Subprocess.Theorems

/-!
# The call can always return

No schedule gets `communicate` to where it is stuck: whatever has happened, there is a way on to its return.
-/

namespace Dwhbll.Subprocess

open Pipes

/-- What is still to be done for an output: the bytes in the pipe, and to see its end. -/
def Output.left (x : Output) : Nat := x.pipe.buffered.length + (!x.done).toNat

/-- All that is in the pipe and fits is read, or its end is seen. -/
theorem Output.left_read {x : Output} (hopen : x.done = false) :
    ∃ value, llRead (.ok (x.pipe.buffered.take 65535)) = .ok value ∧
      ((x.fetch (.ok (x.pipe.buffered.take 65535))).insert value).left < x.left := by
  cases hbuffered : x.pipe.buffered with
  | nil =>
      refine ⟨.error true, rfl, ?_⟩
      simp [Output.left, fetch, insert, Pipe.advance, hbuffered, hopen]
  | cons b bs =>
      refine ⟨.ok (b :: bs.take 65534), rfl, ?_⟩
      simp only [Output.left, fetch, insert, Pipe.advance, hbuffered, hopen, List.length_drop, List.length_take,
        List.length_cons]
      omega

theorem Output.mayRead_take {x : Output} (hended : x.pipe.ended = true) :
    x.pipe.MayRead 65535 (.ok (x.pipe.buffered.take 65535)) := by
  refine ⟨List.take_prefix .., List.length_take_le .., fun hnil => ⟨?_, hended⟩⟩
  simpa using hnil

namespace Communicate

variable {i o e : Int} {input : Option (List UInt8)} {c : Communicate} {s : Stream}

/-- How far the point is from the end of the loop's body. -/
def rank : Pc → Nat
  | .loop => 4
  | .writing => 3
  | .reading .stdout => 2
  | .reading .stderr => 1
  | .waiting => 1
  | .returned _ => 0
  | .start => 5
  | .thrown _ => 5

def left (c : Communicate) : Nat := (!c.stdinDone).toNat + c.out.left + c.err.left

theorem left_setOutput (s : Stream) (x : Output) (c : Communicate) :
    (c.setOutput s x).left + (c.output s).left = c.left + x.left := by
  cases s <;> simp only [left, setOutput, output] <;> omega

/-- The child has closed both of its outputs, and the call is in or behind the loop. -/
structure Ending (i o e : Int) (input : Option (List UInt8)) (c : Communicate) : Prop where
  holds : Holds i o e input c
  fits : c.Fits
  ended : ∀ s, (c.output s).pipe.ended = true
  rank_le : rank c.pc ≤ 4

def Returned (c : Communicate) : Prop := ∃ result, c.pc = .returned result

/-! ## Only the point in the code changes -/

theorem toStderr_eq (c : Communicate) : ∃ pc, c.toStderr = { c with pc := pc } ∧ rank pc ≤ 4 := by
  refine ⟨_, rfl, ?_⟩
  split <;> simp [rank]

theorem toStdout_eq (c : Communicate) : ∃ pc, c.toStdout = { c with pc := pc } ∧ rank pc ≤ 4 := by
  unfold toStdout
  split
  · exact ⟨_, rfl, by simp [rank]⟩
  · exact toStderr_eq c

theorem next_eq (s : Stream) (c : Communicate) : ∃ pc, c.next s = { c with pc := pc } ∧ rank pc ≤ 4 := by
  cases s with
  | stdout => exact toStderr_eq c
  | stderr => exact ⟨_, rfl, Nat.le_refl _⟩

/-- The loop goes to one of its blocks, or it ends. -/
theorem turn_eq (h : Holds i o e input c) : ∃ pc, c.turn = { c with pc := pc } ∧ rank pc < 4 := by
  unfold turn
  cases hin : c.stdinDone with
  | false =>
      rw [h.input_eq, (h.pending hin).1]
      exact ⟨.writing, rfl, by simp [rank]⟩
  | true =>
      cases hout : c.out.done with
      | false => exact ⟨.reading .stdout, by simp [toStdout, hin, hout], by simp [rank]⟩
      | true =>
          cases herr : c.err.done with
          | false => exact ⟨.reading .stderr, by simp [toStdout, toStderr, hin, hout, herr], by simp [rank]⟩
          | true => exact ⟨.waiting, rfl, by simp [rank]⟩

/-! ## One step -/

/-- There is a step that does not fail, after which less is left to do. -/
def Advances (c : Communicate) : Prop :=
  ∃ ev c', c.step ev = some c' ∧ (∀ s, (c'.output s).pipe.ended = true) ∧ rank c'.pc ≤ 4 ∧
    5 * c'.left + rank c'.pc < 5 * c.left + rank c.pc

/-- What is done in a block counts, whichever point comes next. -/
theorem advances_of_left {d d' : Communicate} {ev : Event} (hstep : c.step ev = some d')
    (hd' : ∃ pc, d' = { d with pc := pc } ∧ rank pc ≤ 4) (hended : ∀ s, (d.output s).pipe.ended = true)
    (hless : d.left < c.left) : c.Advances := by
  obtain ⟨pc, rfl, hle⟩ := hd'
  refine ⟨ev, _, hstep, hended, hle, ?_⟩
  have hleft : ({ d with pc := pc } : Communicate).left = d.left := rfl
  rw [hleft]
  simp only
  omega

theorem advances_loop (h : Holds i o e input c) (hended : ∀ s, (c.output s).pipe.ended = true) (hpc : c.pc = .loop) :
    c.Advances := by
  obtain ⟨pc, hturn, hlt⟩ := turn_eq h
  refine ⟨.turn, { c with pc := pc }, ?_, hended, Nat.le_of_lt hlt, ?_⟩
  · simp only [step, hpc, if_true, hturn]
  · rw [hpc]
    exact Nat.add_lt_add_left hlt _

/-- All that is left of the input is accepted. -/
theorem advances_writing (h : Holds i o e input c) (hended : ∀ s, (c.output s).pipe.ended = true)
    (hpc : c.pc = .writing) (hopen : c.stdinDone = false) : c.Advances := by
  obtain ⟨-, hstdin, hclosed, -, hremaining⟩ := h.pending hopen
  have hmay : c.MayAnswer i (MayAccept c.stdinBuffer.length) (.ok c.stdinBuffer.length) := by
    rw [mayAnswer_iff (by simp [hclosed])]
    exact Nat.le_refl _
  have hstep : c.step (.wrote (.ok c.stdinBuffer.length)) = some (closeStdin i
      { c with
        stdin := c.stdin.write (c.stdinBuffer.take c.stdinBuffer.length)
        stdinHead := c.stdinHead + c.stdinBuffer.length
        stdinRemaining := 0
        stdinDone := true }).toStdout := by
    simp only [step, if_pos hpc, h.wrapper, if_pos hmay]
    simp [accept, wrote, llWrite, hstdin, hremaining, h.wrapper]
  refine advances_of_left hstep (toStdout_eq _) hended ?_
  simp [left, closeStdin, hopen]

/-- What is in the pipe is read, or its end is seen. -/
theorem advances_reading (hio : i ≠ o) (hie : i ≠ e) (h : Holds i o e input c)
    (hended : ∀ s, (c.output s).pipe.ended = true) (hpc : c.pc = .reading s) (hopen : (c.output s).done = false) :
    c.Advances := by
  have hne : i ≠ descriptor o e s := by cases s <;> assumption
  obtain ⟨value, hvalue, hless⟩ := Output.left_read hopen
  have hmay : c.MayAnswer (descriptor o e s) ((c.output s).pipe.MayRead 65535)
      (.ok ((c.output s).pipe.buffered.take 65535)) := by
    rw [mayAnswer_iff (h.not_mem_closed hne)]
    exact Output.mayRead_take (hended s)
  have hstep : c.step (.read (.ok ((c.output s).pipe.buffered.take 65535))) = some ((c.setOutput s
      (((c.output s).fetch (.ok ((c.output s).pipe.buffered.take 65535))).insert value)).next s) := by
    simp only [step, hpc, (h.outputs s).wrapper, if_pos hmay, hvalue, read, output_setOutput]
    cases s <;> rfl
  refine advances_of_left hstep (next_eq s _) ?_ ?_
  · refine forall_output_setOutput (Q := fun _ y => y.pipe.ended = true) ?_ hended
    cases value <;> exact hended s
  · have hleft := left_setOutput s
      (((c.output s).fetch (.ok ((c.output s).pipe.buffered.take 65535))).insert value) c
    omega

theorem advances_waiting (hended : ∀ s, (c.output s).pipe.ended = true) (hpc : c.pc = .waiting) : c.Advances := by
  refine ⟨.waited .stopped 0, { c with pc := .returned (c.out.output, c.err.output) }, ?_, hended, by simp [rank], ?_⟩
  · simp only [step, hpc, if_true, waited]
  · rw [hpc]
    exact Nat.lt_succ_self _

theorem Ending.advances (hio : i ≠ o) (hie : i ≠ e) (h : Ending i o e input c) (hnot : ¬ c.Returned) :
    c.Advances := by
  obtain ⟨hholds, hfits, hended, hrank⟩ := h
  unfold Fits at hfits
  cases hpc : c.pc with
  | start => simp [rank, hpc] at hrank
  | thrown ex => simp [rank, hpc] at hrank
  | returned result => exact absurd ⟨result, hpc⟩ hnot
  | loop => exact advances_loop hholds hended hpc
  | waiting => exact advances_waiting hended hpc
  | writing =>
      simp only [hpc] at hfits
      exact advances_writing hholds hended hpc hfits
  | reading s =>
      simp only [hpc] at hfits
      exact advances_reading hio hie hholds hended hpc hfits

/-! ## The way to the return -/

/-- Once the child has closed its outputs, the call can go on to its return. -/
theorem Ending.can_return (hio : i ≠ o) (hie : i ≠ e) (h : Ending i o e input c) :
    ∃ c', Transition.System.Leads step c c' ∧ c'.Returned := by
  refine Transition.System.exists_leads_of_measure (P := Ending i o e input) (fun c => 5 * c.left + rank c.pc) ?_ h
  intro c h hnot
  obtain ⟨ev, c', hstep, hended, hrank, hless⟩ := h.advances hio hie hnot
  have hpc : c'.pc ≠ .start := by
    intro hpc
    simp [rank, hpc] at hrank
  obtain ⟨hholds, hfits⟩ := (Inv.step hio hie (.inr ⟨h.holds, h.fits⟩) hstep).of_pc hpc
  exact ⟨ev, c', hstep, ⟨hholds, hfits, hended, hrank⟩, hless⟩

theorem Inv.closes (h : Inv i o e input c) :
    ∃ c', Transition.System.Leads Communicate.step c c' ∧ Inv i o e input c' ∧ c'.pc = c.pc ∧
      ∀ s, (c'.output s).pipe.ended = true := by
  have hboth := Inv.childCloses (h.childCloses .stdout) .stderr
  exact ⟨_, ⟨[.childCloses .stdout, .childCloses .stderr], rfl⟩, hboth, rfl, fun s => by cases s <;> rfl⟩

theorem Before.start_eq (h : Before i o e input c) :
    c.start.pc = .loop ∧ ∀ s, (c.start.output s).pipe = (c.output s).pipe := by
  unfold Communicate.start
  rw [h.process, h.input_eq]
  cases input <;> exact ⟨rfl, fun s => by cases s <;> rfl⟩

/-- From each state that a run reaches, if it has not thrown, a run goes on to the return. -/
theorem can_return {timeout : Option Int} (hio : i ≠ o) (hie : i ≠ e)
    (h : (system { stdin := some i, stdout := some o, stderr := some e } input timeout).Reachable c)
    (hthrown : ∀ ex, c.pc ≠ .thrown ex) : ∃ c', Transition.System.Leads step c c' ∧ c'.Returned := by
  obtain ⟨c₁, hleads, hinv, hpc, hended⟩ := Inv.closes (inv_of_reachable hio hie h)
  rw [← hpc] at hthrown
  rcases hinv with hbefore | ⟨hholds, hfits⟩
  · -- The call is still to be made.
    have hstep : c₁.step .call = some c₁.start := if_pos hbefore.pc
    obtain ⟨hloop, hpipe⟩ := hbefore.start_eq
    obtain ⟨hholds, hfits⟩ := hbefore.start
    have hending : Ending i o e input c₁.start := by
      refine ⟨hholds, hfits, fun s => ?_, by simp [rank, hloop]⟩
      rw [hpipe]
      exact hended s
    obtain ⟨c', hrun, hreturned⟩ := hending.can_return hio hie
    exact ⟨c', hleads.trans (.step hstep hrun), hreturned⟩
  · have hrank : rank c₁.pc ≤ 4 := by
      cases hpc₁ : c₁.pc with
      | start => simp only [Fits, hpc₁] at hfits
      | thrown ex => exact absurd hpc₁ (hthrown ex)
      | reading s => cases s <;> simp [rank]
      | _ => simp [rank]
    obtain ⟨c', hrun, hreturned⟩ := Ending.can_return hio hie ⟨hholds, hfits, hended, hrank⟩
    exact ⟨c', hleads.trans hrun, hreturned⟩

end Communicate

end Dwhbll.Subprocess
