import Dwhbll.Sockets.Basic

/-!
# What reading keeps

`Moves` says what a call has done to the bytes: which came from the socket underneath, what the refills of the
inbound buffer were short of, and that the rest of it is kept where they were short of nothing.
-/

namespace Dwhbll.Async.Net

variable (peer : Peer)

/-- What one call of the socket underneath gives: an error, or from one byte to as many as are asked for. -/
theorem Wire.readSome_cases (peer : Peer) (n : Nat) (w : Wire) :
    (∃ e, w.readSome peer n = (.error e, { w with reads := w.reads + 1, failed := w.failed ++ [e] })) ∨
      ∃ got, min 1 n ≤ got.length ∧ got.length ≤ n ∧
        w.readSome peer n = (.ok got, { w with reads := w.reads + 1, received := w.received ++ got }) := by
  unfold readSome
  cases peer.readSome w.reads with
  | error e => exact .inl ⟨e, rfl⟩
  | ok k =>
      refine .inr ⟨_, ?_, ?_, rfl⟩
      · rw [List.length_map, List.length_range]
        omega
      · rw [List.length_map, List.length_range]
        omega

namespace BufferedSocket

/-- The bytes of the inbound buffer that count as not yet read. -/
def unread (s : BufferedSocket) : List UInt8 := (s.inboundBuffer.drop s.inboundHead).take s.inboundSize

structure Sized (s : BufferedSocket) : Prop where
  buffer : s.inboundBuffer.length = BUFFER_SIZE
  inside : s.inboundHead + s.inboundSize ≤ BUFFER_SIZE

variable {s s' s'' : BufferedSocket}

theorem Sized.unread_length (h : s.Sized) : s.unread.length = s.inboundSize := by
  have hb := h.buffer
  have hi := h.inside
  rw [unread, List.length_take, List.length_drop]
  omega

end BufferedSocket

/-- The error that a call has reported. -/
def ReadReply.errors (r : ReadReply) : List Int :=
  match r.result with
  | .error e => [e]
  | .ok () => []

/-- How many bytes of the inbound buffer the refills have left as they were. -/
def missing : List (Option Nat) → Nat
  | [] => 0
  | r :: rs => (BUFFER_SIZE - r.getD 0) + missing rs

theorem missing_append (rs ts : List (Option Nat)) : missing (rs ++ ts) = missing rs + missing ts := by
  induction rs with
  | nil => simp [missing]
  | cons r rs ih => simp only [List.cons_append, missing, ih, Nat.add_assoc]

theorem missing_eq_zero_iff {rs : List (Option Nat)} (h : ∀ r ∈ rs, r.getD 0 ≤ BUFFER_SIZE) :
    missing rs = 0 ↔ ∀ r ∈ rs, r = some BUFFER_SIZE := by
  induction rs with
  | nil => simp [missing]
  | cons r rs ih =>
      have hr := h r List.mem_cons_self
      rw [missing, Nat.add_eq_zero_iff, ih fun r hr => h r (List.mem_cons_of_mem _ hr), List.forall_mem_cons]
      refine and_congr_left fun _ => ?_
      cases r with
      | none => simp [BUFFER_SIZE]
      | some k =>
          simp only [Option.getD_some, Option.some.injEq] at hr ⊢
          omega

namespace BufferedSocket

variable {s s' s'' : BufferedSocket}

/-- Calls that have led from `s` to `s'`, have placed `bytes` in the buffers of their callers and have reported
`errs`; the socket underneath gave `got`, and `rs` to the refills. -/
structure Moves (s : BufferedSocket) (bytes : List UInt8) (errs : List Int) (s' : BufferedSocket)
    (got : List UInt8) (rs : List (Option Nat)) : Prop where
  sized : s'.Sized
  received : s'.wire.received = s.wire.received ++ got
  refills : s'.refills = s.refills ++ rs
  bounded : ∀ r ∈ rs, r.getD 0 ≤ BUFFER_SIZE
  length : bytes.length + s'.inboundSize = s.inboundSize + got.length + missing rs
  bytes : missing rs = 0 → bytes ++ s'.unread = s.unread ++ got
  errors : missing rs = 0 → s'.wire.failed = s.wire.failed ++ errs

theorem Moves.refl (h : s.Sized) : Moves s [] [] s [] [] :=
  ⟨h, (List.append_nil _).symm, (List.append_nil _).symm, by simp, by simp [missing],
    fun _ => (List.append_nil _).symm, fun _ => (List.append_nil _).symm⟩

theorem Moves.trans {bytes bytes' got got' : List UInt8} {errs errs' : List Int} {rs rs' : List (Option Nat)}
    (h : Moves s bytes errs s' got rs) (h' : Moves s' bytes' errs' s'' got' rs') :
    Moves s (bytes ++ bytes') (errs ++ errs') s'' (got ++ got') (rs ++ rs') where
  sized := h'.sized
  received := by rw [h'.received, h.received, List.append_assoc]
  refills := by rw [h'.refills, h.refills, List.append_assoc]
  bounded := by
    intro r hr
    rcases List.mem_append.mp hr with hr | hr
    · exact h.bounded r hr
    · exact h'.bounded r hr
  length := by
    have h1 := h.length
    have h2 := h'.length
    simp only [List.length_append, missing_append]
    omega
  bytes := by
    intro hm
    rw [missing_append] at hm
    rw [List.append_assoc, h'.bytes (by omega), ← List.append_assoc, h.bytes (by omega), List.append_assoc]
  errors := by
    intro hm
    rw [missing_append] at hm
    rw [h'.errors (by omega), h.errors (by omega), List.append_assoc]

/-! ## One call -/

theorem readFromBuffer_moves (n : Nat) (h : s.Sized) :
    Moves s (s.readFromBuffer n).1 [] (s.readFromBuffer n).2 [] [] := by
  have hb := h.buffer
  have hi := h.inside
  refine ⟨⟨hb, ?_⟩, (List.append_nil _).symm, (List.append_nil _).symm, by simp, ?_, ?_, ?_⟩
  · simp only [readFromBuffer]
    omega
  · simp only [readFromBuffer, List.length_take, List.length_drop, List.length_nil, missing]
    omega
  · intro _
    simp only [readFromBuffer, unread, List.append_nil]
    rw [← List.drop_drop, ← List.take_add, Nat.add_sub_cancel' (Nat.min_le_right ..)]
  · intro _
    exact (List.append_nil _).symm

theorem refill_moves (h : s.Sized) (h0 : s.inboundSize = 0) :
    ∃ got rs, Moves s [] [] (s.refill peer) got rs := by
  have hb := h.buffer
  have hunread : s.unread = [] := by rw [unread, h0, List.take_zero]
  unfold refill
  rcases s.wire.readSome_cases peer BUFFER_SIZE with ⟨e, he⟩ | ⟨got, -, hlen, hgot⟩
  · rw [he]
    refine ⟨[], [none], ⟨hb, Nat.le_refl _⟩, (List.append_nil _).symm, rfl, by simp, ?_, ?_, ?_⟩
    · simp only [missing, Option.getD_none, List.length_nil]
      omega
    · intro hm
      cases hm
    · intro hm
      cases hm
  · rw [hgot]
    refine ⟨got, [some got.length], ⟨?_, Nat.le_refl _⟩, rfl, rfl, by simpa using hlen, ?_, ?_, ?_⟩
    · simp only [copyTo, List.take_zero, List.nil_append, List.length_append, List.length_drop]
      omega
    · simp only [missing, Option.getD_some, List.length_nil]
      omega
    · intro hm
      simp only [missing, Option.getD_some] at hm
      rw [hunread]
      simp only [List.nil_append, unread, copyTo, List.take_zero, List.drop_zero]
      exact List.take_left' (by omega)
    · intro _
      exact (List.append_nil _).symm

theorem readSome_moves (n : Nat) (h : s.Sized) :
    ∃ got rs, Moves s (s.readSome peer n).1.bytes (s.readSome peer n).1.errors (s.readSome peer n).2 got rs := by
  unfold readSome
  split
  · exact ⟨[], [], readFromBuffer_moves n h⟩
  · rename_i h0
    have h0 : s.inboundSize = 0 := by simpa using h0
    have hunread : s.unread = [] := by rw [unread, h0, List.take_zero]
    split
    · -- The caller's buffer is filled by the socket underneath itself.
      rcases s.wire.readSome_cases peer n with ⟨e, he⟩ | ⟨got, -, -, hgot⟩
      · rw [he]
        exact ⟨[], [], ⟨h.buffer, h.inside⟩, (List.append_nil _).symm, (List.append_nil _).symm, by simp,
          by simp [missing], fun _ => (List.append_nil _).symm, fun _ => rfl⟩
      · rw [hgot]
        refine ⟨got, [], ⟨h.buffer, h.inside⟩, rfl, (List.append_nil _).symm, by simp, ?_, ?_, ?_⟩
        · simp only [missing]
          omega
        · intro _
          show got ++ s.unread = s.unread ++ got
          rw [hunread, List.append_nil, List.nil_append]
        · intro _
          exact (List.append_nil _).symm
    · obtain ⟨got, rs, hr⟩ := refill_moves peer h h0
      exact ⟨_, _, hr.trans (readFromBuffer_moves n hr.sized)⟩

theorem readLoop_moves (fuel n : Nat) (h : s.Sized) :
    ∃ got rs, Moves s (s.readLoop peer fuel n).1.bytes (s.readLoop peer fuel n).1.errors
      (s.readLoop peer fuel n).2 got rs := by
  induction fuel generalizing n s with
  | zero =>
      cases n with
      | zero => exact ⟨[], [], Moves.refl h⟩
      | succ n => exact ⟨[], [], Moves.refl h⟩
  | succ fuel ih =>
      cases n with
      | zero => exact ⟨[], [], Moves.refl h⟩
      | succ n =>
          obtain ⟨got, rs, hr⟩ := readSome_moves peer (n + 1) h
          unfold readLoop
          generalize s.readSome peer (n + 1) = out at hr
          obtain ⟨⟨bytes, result⟩, t⟩ := out
          cases result with
          | error e => exact ⟨got, rs, hr⟩
          | ok u =>
              obtain ⟨got', rs', hr'⟩ := ih (n + 1 - bytes.length) hr.sized
              exact ⟨_, _, hr.trans hr'⟩

/-! ## Runs -/

theorem ReadCall.run_moves (c : ReadCall) (h : s.Sized) :
    ∃ got rs, Moves s (c.run peer s).1.bytes (c.run peer s).1.errors (c.run peer s).2 got rs := by
  cases c with
  | read n => exact readLoop_moves peer n n h
  | readSome n => exact readSome_moves peer n h

theorem new_sized : ({} : BufferedSocket).Sized := ⟨List.length_replicate, Nat.zero_le _⟩

theorem run_moves (calls : List ReadCall) (h : s.Sized) :
    ∃ got rs, Moves s ((Transition.run (ReadCall.run peer) s calls).1.flatMap ReadReply.bytes)
      ((Transition.run (ReadCall.run peer) s calls).1.flatMap ReadReply.errors)
      (Transition.run (ReadCall.run peer) s calls).2 got rs := by
  induction calls generalizing s with
  | nil => exact ⟨[], [], Moves.refl h⟩
  | cons c calls ih =>
      obtain ⟨got, rs, hc⟩ := c.run_moves peer h
      obtain ⟨got', rs', hrest⟩ := ih hc.sized
      exact ⟨_, _, hc.trans hrest⟩

end BufferedSocket

end Dwhbll.Async.Net
