import Dwhbll.Lib.Masks
import Dwhbll.Lib.Transition

/-!
# The options of `PTrace` of `platform/linux_wrappers/ptrace.cpp`

Each setter asks the kernel for its own option alone, and the kernel takes what it is asked for as the whole mask.
-/

namespace Dwhbll.Platform.LinuxWrappers

structure PTraceFlags where
  exitKill : Bool := false
  traceClone : Bool := false
  traceExec : Bool := false
  traceExit : Bool := false
  traceFork : Bool := false
  traceSysGood : Bool := false
  traceVFork : Bool := false
  traceVForkDone : Bool := false
  traceSeccomp : Bool := false
  suspendSeccomp : Bool := false
  deriving DecidableEq, Repr

/-- The argument of `PTRACE_SETOPTIONS`, an `unsigned long`. -/
abbrev Options := BitVec 64

def PTRACE_O_TRACESYSGOOD : Options := 0x1
def PTRACE_O_TRACEFORK : Options := 0x2
def PTRACE_O_TRACEVFORK : Options := 0x4
def PTRACE_O_TRACECLONE : Options := 0x8
def PTRACE_O_TRACEEXEC : Options := 0x10
def PTRACE_O_TRACEVFORKDONE : Options := 0x20
def PTRACE_O_TRACEEXIT : Options := 0x40
def PTRACE_O_TRACESECCOMP : Options := 0x80
def PTRACE_O_EXITKILL : Options := 0x100000
def PTRACE_O_SUSPEND_SECCOMP : Options := 0x200000

/-- What a call of `ptrace` comes to: -1 with what `strerror` says of `errno`, or something else. -/
abbrev Status := Except String Unit

/-- `ptrace(PTRACE_SETOPTIONS, pid, nullptr, options)`, with the options that the tracee has. -/
def ptraceSetOptions (options : Options) (answer : Status) (mask : Options) : Status × Options :=
  match answer with
  | .ok () => (.ok (), options)
  | .error what => (.error what, mask)

/-- The object, and the options of its tracee in the kernel. The flags are those that the handle of the object, a `cow`,
has for itself. -/
structure PTrace where
  flags : PTraceFlags := {}
  mask : Options := 0
  deriving DecidableEq, Repr

namespace PTrace

/-- The exception has this text. -/
def check (status : Status) : Except String Unit :=
  match status with
  | .ok () => .ok ()
  | .error what => .error ("PTrace Operation Failed! (" ++ what ++ ")")

/-! ## Getters and setters -/

/-- A setter of the flag that `get` reads and `set` sets, where the kernel answers this if it is asked. -/
def setOption (get : PTraceFlags → Bool) (set : PTraceFlags → PTraceFlags) (option : Options) (answer : Status)
    (s : PTrace) : Except String Unit × PTrace :=
  if get s.flags then (.ok (), s)
  else
    let (status, mask) := ptraceSetOptions option answer s.mask
    match check status with
    | .error e => (.error e, { s with mask := mask })
    | .ok () => (.ok (), { flags := set s.flags, mask := mask })

def getOptExitKill (s : PTrace) : Bool := s.flags.exitKill
def setOptExitKill := setOption (·.exitKill) ({ · with exitKill := true }) PTRACE_O_EXITKILL

def getOptTraceClone (s : PTrace) : Bool := s.flags.traceClone
def setOptTraceClone := setOption (·.traceClone) ({ · with traceClone := true }) PTRACE_O_TRACECLONE

def getOptTraceExec (s : PTrace) : Bool := s.flags.traceExec
def setOptTraceExec := setOption (·.traceExec) ({ · with traceExec := true }) PTRACE_O_TRACEEXEC

def getOptTraceExit (s : PTrace) : Bool := s.flags.traceExit
def setOptTraceExit := setOption (·.traceExit) ({ · with traceExit := true }) PTRACE_O_TRACEEXIT

def getOptTraceFork (s : PTrace) : Bool := s.flags.traceFork
def setOptTraceFork := setOption (·.traceFork) ({ · with traceFork := true }) PTRACE_O_TRACEFORK

def getOptTraceSysGood (s : PTrace) : Bool := s.flags.traceSysGood
def setOptTraceSysGood := setOption (·.traceSysGood) ({ · with traceSysGood := true }) PTRACE_O_TRACESYSGOOD

def getOptTraceVFork (s : PTrace) : Bool := s.flags.traceVFork
def setOptTraceVFork := setOption (·.traceVFork) ({ · with traceVFork := true }) PTRACE_O_TRACEVFORK

def getOptTraceVForkDone (s : PTrace) : Bool := s.flags.traceVForkDone
def setOptTraceVForkDone := setOption (·.traceVForkDone) ({ · with traceVForkDone := true }) PTRACE_O_TRACEVFORKDONE

def getOptTraceSeccomp (s : PTrace) : Bool := s.flags.traceSeccomp
def setOptTraceSeccomp := setOption (·.traceSeccomp) ({ · with traceSeccomp := true }) PTRACE_O_TRACESECCOMP

def getSuspendSeccomp (s : PTrace) : Bool := s.flags.suspendSeccomp
def setSuspendSeccomp := setOption (·.suspendSeccomp) ({ · with suspendSeccomp := true }) PTRACE_O_SUSPEND_SECCOMP

inductive Opt where
  | exitKill | traceClone | traceExec | traceExit | traceFork
  | traceSysGood | traceVFork | traceVForkDone | traceSeccomp | suspendSeccomp
  deriving DecidableEq, Repr

namespace Opt

def all : List Opt :=
  [exitKill, traceClone, traceExec, traceExit, traceFork, traceSysGood, traceVFork, traceVForkDone, traceSeccomp,
    suspendSeccomp]

def getter : Opt → PTrace → Bool
  | exitKill => getOptExitKill
  | traceClone => getOptTraceClone
  | traceExec => getOptTraceExec
  | traceExit => getOptTraceExit
  | traceFork => getOptTraceFork
  | traceSysGood => getOptTraceSysGood
  | traceVFork => getOptTraceVFork
  | traceVForkDone => getOptTraceVForkDone
  | traceSeccomp => getOptTraceSeccomp
  | suspendSeccomp => getSuspendSeccomp

def setter : Opt → Status → PTrace → Except String Unit × PTrace
  | exitKill => setOptExitKill
  | traceClone => setOptTraceClone
  | traceExec => setOptTraceExec
  | traceExit => setOptTraceExit
  | traceFork => setOptTraceFork
  | traceSysGood => setOptTraceSysGood
  | traceVFork => setOptTraceVFork
  | traceVForkDone => setOptTraceVForkDone
  | traceSeccomp => setOptTraceSeccomp
  | suspendSeccomp => setSuspendSeccomp

def option : Opt → Options
  | exitKill => PTRACE_O_EXITKILL
  | traceClone => PTRACE_O_TRACECLONE
  | traceExec => PTRACE_O_TRACEEXEC
  | traceExit => PTRACE_O_TRACEEXIT
  | traceFork => PTRACE_O_TRACEFORK
  | traceSysGood => PTRACE_O_TRACESYSGOOD
  | traceVFork => PTRACE_O_TRACEVFORK
  | traceVForkDone => PTRACE_O_TRACEVFORKDONE
  | traceSeccomp => PTRACE_O_TRACESECCOMP
  | suspendSeccomp => PTRACE_O_SUSPEND_SECCOMP

/-- The bit of the option. -/
def bit : Opt → Nat
  | exitKill => 20
  | traceClone => 3
  | traceExec => 4
  | traceExit => 6
  | traceFork => 1
  | traceSysGood => 0
  | traceVFork => 2
  | traceVForkDone => 5
  | traceSeccomp => 7
  | suspendSeccomp => 21

end Opt

/-! ## Calls on one tracee -/

/-- A setter is called, and the kernel answers this if it is asked. -/
structure Call where
  opt : Opt
  answer : Status

def step (s : PTrace) (c : Call) : Except String Unit × PTrace := c.opt.setter c.answer s

/-- The options whose getter returns true. -/
def options (s : PTrace) : List Opt := Opt.all.filter fun o => o.getter s

/-- The kernel has exactly the options whose getter returns true. -/
def Agrees (s : PTrace) : Prop := s.mask = Masks.mask Opt.option s.options

instance (s : PTrace) : Decidable (Agrees s) := inferInstanceAs (Decidable (_ = _))

variable {s : PTrace} {o p : Opt} {c : Call} {calls : List Call}

theorem mem_options : o ∈ s.options ↔ o.getter s = true := by
  have hall : o ∈ Opt.all := by cases o <;> decide
  rw [options, List.mem_filter, and_iff_right hall]

theorem option_bits : Masks.Bits Opt.option Opt.bit where
  own o i := by
    have hpow : o.option = BitVec.twoPow 64 o.bit := by cases o <;> rfl
    have hlt : o.bit < 64 := by cases o <;> decide
    rw [hpow, BitVec.getLsbD_twoPow, decide_eq_true hlt, Bool.true_and, decide_eq_true_eq, eq_comm]
  inj o p h := by
    cases o <;> cases p <;> first
      | rfl
      | cases h

/-! ## One call -/

theorem setter_of_getter (h : o.getter s = true) (answer : Status) : o.setter answer s = (.ok (), s) := by
  cases o <;> exact if_pos h

theorem setter_error (h : o.getter s = false) (what : String) :
    o.setter (.error what) s = (.error ("PTrace Operation Failed! (" ++ what ++ ")"), s) := by
  have hnot := Bool.eq_false_iff.mp h
  cases o <;> exact if_neg hnot

/-- The kernel has the option alone, and the flag joins those that were set. -/
theorem setter_ok (h : o.getter s = false) :
    ∃ s', o.setter (.ok ()) s = (.ok (), s') ∧ s'.mask = o.option ∧
      ∀ p, p.getter s' = true ↔ p = o ∨ p.getter s = true := by
  have hnot := Bool.eq_false_iff.mp h
  cases o <;> refine ⟨_, if_neg hnot, rfl, fun p => ?_⟩ <;> cases p <;> first
    | exact iff_of_true rfl (.inl rfl)
    | exact (or_iff_right nofun).symm

/-- A call that the kernel is not asked for, or that it refuses, changes nothing. -/
theorem step_eq_self (h : c.opt.getter s = true ∨ c.answer ≠ .ok ()) : (step s c).2 = s := by
  obtain ⟨o, answer⟩ := c
  cases hget : o.getter s with
  | true => rw [step, setter_of_getter hget]
  | false =>
      cases answer with
      | ok _ =>
          rcases h with h | h
          · exact absurd (hget.symm.trans h) Bool.false_ne_true
          · exact absurd rfl h
      | error what => rw [step, setter_error hget]

/-- A new option that the kernel accepts: only the first one is the whole mask. -/
theorem agrees_step_iff (hget : c.opt.getter s = false) (hc : c.answer = .ok ()) :
    Agrees (step s c).2 ↔ ∀ p : Opt, p.getter s = false := by
  obtain ⟨s', hs', hmask, hgetters⟩ := setter_ok hget
  rw [step, hc, hs', Agrees, hmask, ← Masks.mask_singleton Opt.option, option_bits.mask_eq_iff]
  simp only [List.mem_singleton, mem_options, hgetters]
  constructor
  · intro h p
    by_contra hp
    have hon : p.getter s = true := by simpa using hp
    have heq : p = c.opt := (h p).mpr (.inr hon)
    rw [heq, hget] at hon
    cases hon
  · intro h p
    rw [h p, or_iff_left Bool.false_ne_true]

/-! ## Runs -/

/-- Behind the first option. -/
theorem run_agrees_of_only (hs : Agrees s) (ho : ∀ p, p.getter s = true ↔ p = o) :
    Transition.Along step (fun s c => Agrees (step s c).2) s calls ↔ ∀ c ∈ calls, c.answer = .ok () → c.opt = o := by
  induction calls with
  | nil => exact iff_of_true trivial fun c hc => by cases hc
  | cons c calls ih =>
      rw [Transition.Along, List.forall_mem_cons]
      by_cases hnone : c.opt.getter s = true ∨ c.answer ≠ .ok ()
      · rw [step_eq_self hnone, ih, and_iff_right hs, iff_and_self]
        intro _ hok
        exact (ho c.opt).mp (hnone.resolve_right fun hne => hne hok)
      · obtain ⟨hget, hok⟩ := not_or.mp hnone
        rw [not_not] at hok
        have hne : c.opt ≠ o := fun heq => hget ((ho c.opt).mpr heq)
        refine iff_of_false (fun h => ?_) fun h => hne (h.1 hok)
        have hfirst := (agrees_step_iff (Bool.eq_false_iff.mpr hget) hok).mp h.1 o
        rw [(ho o).mpr rfl] at hfirst
        cases hfirst

theorem run_agrees_of_none (hs : Agrees s) (hnone : ∀ p : Opt, p.getter s = false) :
    Transition.Along step (fun s c => Agrees (step s c).2) s calls ↔
      ∃ o, ∀ c ∈ calls, c.answer = .ok () → c.opt = o := by
  induction calls with
  | nil => exact iff_of_true trivial ⟨.exitKill, fun c hc => by cases hc⟩
  | cons c calls ih =>
      rw [Transition.Along]
      by_cases hok : c.answer = .ok ()
      · have hagrees := (agrees_step_iff (hnone c.opt) hok).mpr hnone
        obtain ⟨s', hs', -, hgetters⟩ := setter_ok (hnone c.opt)
        have hstep : (step s c).2 = s' := by rw [step, hok, hs']
        have honly : ∀ p, p.getter s' = true ↔ p = c.opt := by
          intro p
          rw [hgetters, hnone p, or_iff_left Bool.false_ne_true]
        rw [hstep] at hagrees ⊢
        rw [and_iff_right hagrees, run_agrees_of_only hagrees honly]
        constructor
        · intro h
          exact ⟨c.opt, List.forall_mem_cons.mpr ⟨fun _ => rfl, h⟩⟩
        · rintro ⟨o, h⟩
          obtain ⟨hc, hcalls⟩ := List.forall_mem_cons.mp h
          rwa [hc hok]
      · rw [step_eq_self (.inr hok), and_iff_right hs, ih]
        refine exists_congr fun o => ?_
        rw [List.forall_mem_cons, and_iff_right fun h => absurd h hok]

/-- After each call the kernel has the options whose getter returns true if and only if all calls that it accepts are of
one setter. -/
theorem run_agrees_iff (calls : List Call) :
    Transition.Along step (fun s c => Agrees (step s c).2) {} calls ↔
      ∃ o, ∀ c ∈ calls, c.answer = .ok () → c.opt = o :=
  run_agrees_of_none (by decide) fun p => by cases p <;> rfl

/-- The second option takes the first one's place. -/
theorem second_option_drops_first :
    ¬ Transition.Along step (fun s c => Agrees (step s c).2) {} [⟨.exitKill, .ok ()⟩, ⟨.traceClone, .ok ()⟩] ∧
      (step (step {} ⟨.exitKill, .ok ()⟩).2 ⟨.traceClone, .ok ()⟩).2.mask = PTRACE_O_TRACECLONE ∧
      getOptExitKill (step (step {} ⟨.exitKill, .ok ()⟩).2 ⟨.traceClone, .ok ()⟩).2 = true := by
  decide

end PTrace

end Dwhbll.Platform.LinuxWrappers
