import Dwhbll.Files.ParseUtils
import Dwhbll.Lib.Lists

/-!
# How the input is divided into refills does not matter

Two buffers of which the same bytes of one stream have been consumed do the same in each call that looks at no byte
behind the one it was refilled for.
-/

namespace Dwhbll.Files.ParseUtils

open Collections Relational

/-- The refills are the stream in pieces: of no more than 1024 bytes each, and of at least one byte where there are
any left. -/
structure Divides (feed : Nat → List UInt8) (stream : Nat → Option UInt8) : Prop where
  short : ∀ k, (feed k).length ≤ 1024
  bytes : ∀ k i x, (delivered feed k)[i]? = some x → stream i = some x
  ended : ∀ k, feed k = [] → stream (delivered feed k).length = none

/-- All of the stream up to `pos` has been consumed. -/
structure At (feed : Nat → List UInt8) (pos : Nat) (s : ParseUtils) : Prop where
  holds : s.buf.Holds false ((delivered feed s.refills).drop pos)
  le : pos ≤ (delivered feed s.refills).length

variable {feed feed₁ feed₂ : Nat → List UInt8} {stream : Nat → Option UInt8} {mem mem₁ mem₂ : Nat → Nat → UInt8}
variable {s s' t : ParseUtils} {pos k : Nat} {x : UInt8}

theorem delivered_succ (feed : Nat → List UInt8) (k : Nat) : delivered feed (k + 1) = delivered feed k ++ feed k := by
  rw [delivered, List.range_succ, List.flatMap_append, List.flatMap_singleton, delivered]

theorem At.isEmpty_iff (h : At feed pos s) : s.buf.isEmpty = true ↔ pos = (delivered feed s.refills).length := by
  have hsz := h.holds.sz_eq
  have hle := h.le
  rw [List.length_drop] at hsz
  rw [MemBuf.isEmpty, decide_eq_true_eq, MemBuf.size, Ring.size]
  omega

theorem At.consumed_eq (h : At feed pos s) : consumed feed s = pos := by
  have hsz := h.holds.sz_eq
  have hle := h.le
  rw [List.length_drop] at hsz
  simp only [consumed, MemBuf.size, Ring.size]
  omega

theorem At.start (feed : Nat → List UInt8) : At feed 0 {} where
  holds := MemBuf.new_holds
  le := Nat.le_refl 0

/-- There is a byte in the buffer, and it is the next one of the stream. -/
def Ready (feed : Nat → List UInt8) (pos : Nat) (x : UInt8) (s : ParseUtils) : Prop :=
  At feed pos s ∧ ∃ rest, (delivered feed s.refills).drop pos = x :: rest

theorem At.ready (hd : Divides feed stream) (h : At feed pos s) (hne : s.buf.isEmpty ≠ true) :
    ∃ x, stream pos = some x ∧ Ready feed pos x s := by
  have hlt : pos < (delivered feed s.refills).length := by
    have := mt h.isEmpty_iff.mpr hne
    have := h.le
    omega
  refine ⟨_, hd.bytes _ _ _ (List.getElem?_eq_getElem hlt), h, _, List.drop_eq_getElem_cons hlt⟩

theorem At.refill (mem : Nat → Nat → UInt8) (hd : Divides feed stream) (h : At feed pos s)
    (hempty : s.buf.isEmpty = true) :
    At feed pos { buf := s.buf.writeVector (mem s.refills) (feed s.refills), refills := s.refills + 1 } := by
  have hpos := h.isEmpty_iff.mp hempty
  have hholds := h.holds
  rw [hpos, List.drop_length] at hholds
  refine ⟨?_, ?_⟩
  · have hwritten := hholds.writeVector (mem s.refills) (feed s.refills) (by simpa using hd.short s.refills)
    simp only [delivered_succ, hpos, List.drop_left]
    exact hwritten
  · simp only [delivered_succ, hpos, List.length_append]
    omega

theorem checkRefill_eq (s : ParseUtils) : checkRefill feed mem s =
    if s.buf.isEmpty then
      let s' : ParseUtils := { buf := s.buf.writeVector (mem s.refills) (feed s.refills), refills := s.refills + 1 }
      if s'.buf.isEmpty then some (.error .stillEmpty, s') else some (.ok (), s')
    else some (.ok (), s) := by
  rw [checkRefill, bind_ok (m := isEmpty) (s := s) rfl]
  split
  · rw [bind_ok (m := refillBuffer feed mem) (s := s) rfl]
    rw [bind_ok (m := isEmpty) rfl]
    split
    · rename_i hstill
      exact (if_pos hstill).symm
    · rename_i hstill
      exact (if_neg hstill).symm
  · rfl

theorem At.checkRefill_none (mem : Nat → Nat → UInt8) (hd : Divides feed stream) (h : At feed pos s)
    (hend : stream pos = none) :
    ∃ s', checkRefill feed mem s = some (.error .stillEmpty, s') ∧ At feed pos s' := by
  have hstill : ∀ {s : ParseUtils}, At feed pos s → s.buf.isEmpty = true := by
    intro s hs
    refine Decidable.byContradiction fun hne => ?_
    obtain ⟨x, hx, -⟩ := hs.ready hd hne
    rw [hend] at hx
    cases hx
  have hrefill := h.refill mem hd (hstill h)
  exact ⟨_, by rw [checkRefill_eq, if_pos (hstill h)]; exact if_pos (hstill hrefill), hrefill⟩

theorem At.checkRefill_some (mem : Nat → Nat → UInt8) (hd : Divides feed stream) (h : At feed pos s)
    (hx : stream pos = some x) :
    ∃ s', checkRefill feed mem s = some (.ok (), s') ∧ Ready feed pos x s' := by
  have hready : ∀ {s : ParseUtils}, At feed pos s → s.buf.isEmpty ≠ true → Ready feed pos x s := by
    intro s hs hne
    obtain ⟨y, hy, hr⟩ := hs.ready hd hne
    rw [hx] at hy
    cases hy
    exact hr
  rw [checkRefill_eq]
  split
  · rename_i hempty
    have hrefill := h.refill mem hd hempty
    have hne : ¬ (s.buf.writeVector (mem s.refills) (feed s.refills)).isEmpty = true := by
      intro hstill
      have hend := hd.ended s.refills
      have hpos := h.isEmpty_iff.mp hempty
      have hpos' := hrefill.isEmpty_iff.mp hstill
      simp only [delivered_succ, List.length_append] at hpos'
      rw [← hpos, List.length_eq_zero_iff.mp (by omega : (feed s.refills).length = 0)] at hend
      rw [hend rfl] at hx
      cases hx
    exact ⟨_, if_neg hne, hready hrefill hne⟩
  · rename_i hne
    exact ⟨s, rfl, hready h hne⟩

theorem Ready.readU8 (h : Ready feed pos x s) : ∃ s', readU8 s = some (.ok x, s') ∧ At feed (pos + 1) s' := by
  obtain ⟨hat, rest, hrest⟩ := h
  have hholds := hat.holds
  rw [hrest] at hholds
  obtain ⟨b, hread, hb⟩ := hholds.readU8
  refine ⟨{ s with buf := b }, ?_, ?_, ?_⟩
  · simp only [ParseUtils.readU8, onBuf, hread]
    rfl
  · rwa [Lists.drop_succ_of_drop hrest]
  · exact Lists.lt_of_drop hrest

theorem Ready.peekU8 (h : Ready feed pos x s) : peekU8 s = some (.ok x, s) := by
  obtain ⟨hat, rest, hrest⟩ := h
  have hholds := hat.holds
  rw [hrest] at hholds
  simp only [ParseUtils.peekU8, hholds.peekU8, Option.map_some]

/-! ## Two buffers -/

/-- The same bytes of the stream have been consumed of both. -/
def Together (feed₁ feed₂ : Nat → List UInt8) (s t : ParseUtils) : Prop := ∃ pos, At feed₁ pos s ∧ At feed₂ pos t

/-- And the next one is in both. -/
def BothReady (feed₁ feed₂ : Nat → List UInt8) (s t : ParseUtils) : Prop :=
  ∃ pos x, Ready feed₁ pos x s ∧ Ready feed₂ pos x t

/-- The two runs of a call. -/
abbrev Alike {α : Type} (feed₁ feed₂ : Nat → List UInt8) (m n : M α) : Prop :=
  Agree (Together feed₁ feed₂) (Together feed₁ feed₂) m n fun _ => Together feed₁ feed₂

section

variable (hd₁ : Divides feed₁ stream) (hd₂ : Divides feed₂ stream)

include hd₁ hd₂

theorem checkRefill_agree : Agree (Together feed₁ feed₂) (Together feed₁ feed₂) (checkRefill feed₁ mem₁)
    (checkRefill feed₂ mem₂) fun _ => BothReady feed₁ feed₂ := by
  rintro s t ⟨pos, hs, ht⟩
  cases hx : stream pos with
  | none =>
      obtain ⟨s', hs, hs'⟩ := hs.checkRefill_none mem₁ hd₁ hx
      obtain ⟨t', ht, ht'⟩ := ht.checkRefill_none mem₂ hd₂ hx
      rw [hs, ht]
      exact .error ⟨pos, hs', ht'⟩
  | some x =>
      obtain ⟨s', hs, hs'⟩ := hs.checkRefill_some mem₁ hd₁ hx
      obtain ⟨t', ht, ht'⟩ := ht.checkRefill_some mem₂ hd₂ hx
      rw [hs, ht]
      exact .ok ⟨pos, x, hs', ht'⟩

omit hd₁ hd₂ in
theorem readU8_agree : Agree (Together feed₁ feed₂) (BothReady feed₁ feed₂) readU8 readU8 fun _ =>
    Together feed₁ feed₂ := by
  rintro s t ⟨pos, x, hs, ht⟩
  obtain ⟨s', hs, hs'⟩ := hs.readU8
  obtain ⟨t', ht, ht'⟩ := ht.readU8
  rw [hs, ht]
  exact .ok ⟨pos + 1, hs', ht'⟩

omit hd₁ hd₂ in
theorem peekU8_agree : Agree (Together feed₁ feed₂) (BothReady feed₁ feed₂) peekU8 peekU8 fun _ =>
    BothReady feed₁ feed₂ := by
  rintro s t ⟨pos, x, hs, ht⟩
  rw [hs.peekU8, ht.peekU8]
  exact .ok ⟨pos, x, hs, ht⟩

theorem expectString_alike (data : List UInt8) :
    Alike feed₁ feed₂ (expectString feed₁ mem₁ data) (expectString feed₂ mem₂ data) := by
  induction data with
  | nil => exact .pure fun _ _ h => h
  | cons d data ih =>
      refine (checkRefill_agree hd₁ hd₂).bind fun _ => readU8_agree.bind fun c => .ite (fun _ => ?_) fun _ => ih
      exact .throw fun _ _ h => h

theorem expect_alike (c : UInt8) : Alike feed₁ feed₂ (expect feed₁ mem₁ c) (expect feed₂ mem₂ c) := by
  refine (checkRefill_agree hd₁ hd₂).bind fun _ => readU8_agree.bind fun next => .ite (fun _ => ?_) fun _ => ?_
  · exact .throw fun _ _ h => h
  · exact .pure fun _ _ h => h

theorem takeUntil_alike (c : UInt8) (fuel : Nat) (result : List UInt8) :
    Alike feed₁ feed₂ (takeUntil feed₁ mem₁ c fuel result) (takeUntil feed₂ mem₂ c fuel result) := by
  induction fuel generalizing result with
  | zero => exact .stuck
  | succ fuel ih =>
      refine (checkRefill_agree hd₁ hd₂).bind fun _ => readU8_agree.bind fun next => .ite (fun _ => ?_) fun _ => ih _
      exact .pure fun _ _ h => h

theorem digits_alike (readExactly : Int) (fuel i : Nat) (buffer : UInt64) :
    Alike feed₁ feed₂ (digits feed₁ mem₁ readExactly fuel i buffer) (digits feed₂ mem₂ readExactly fuel i buffer) := by
  induction fuel generalizing i buffer with
  | zero => exact .stuck
  | succ fuel ih =>
      refine .ite (fun _ => ?_) fun _ => .pure fun _ _ h => h
      refine (checkRefill_agree hd₁ hd₂).bind fun _ => peekU8_agree.bind fun next => .ite (fun _ => ?_) fun _ => ?_
      · exact readU8_agree.bind fun _ => ih _ _
      · exact .pure fun s t ⟨pos, x, hs, ht⟩ => ⟨pos, hs.1, ht.1⟩

theorem call_alike {call : Call} (hcall : call ≠ .consumeUntilEol .crlf) (fuel : Nat) :
    Alike feed₁ feed₂ (call.run feed₁ mem₁ fuel) (call.run feed₂ mem₂ fuel) := by
  have hpure : ∀ v : Value, Alike feed₁ feed₂ (pure v) (pure v) := fun v => .pure fun _ _ h => h
  cases call with
  | expectString data => exact (expectString_alike hd₁ hd₂ data).bind fun _ => hpure _
  | expect c => exact (expect_alike hd₁ hd₂ c).bind fun _ => hpure _
  | consumeUntilToken c => exact (takeUntil_alike hd₁ hd₂ c fuel []).bind fun _ => hpure _
  | consumeUntilEol type =>
      cases type with
      | crlf => exact absurd rfl hcall
      | cr => exact (takeUntil_alike hd₁ hd₂ carriageReturn fuel []).bind fun _ => hpure _
      | lf => exact (takeUntil_alike hd₁ hd₂ lineFeed fuel []).bind fun _ => hpure _
  | parseU64 readExactly radix =>
      refine Agree.bind ?_ fun _ => hpure _
      exact .ite (fun _ => digits_alike hd₁ hd₂ readExactly fuel 0 0) fun _ => .stuck

theorem results_of_together {calls : List Call} (hcalls : ∀ call ∈ calls, call ≠ .consumeUntilEol .crlf) (fuel : Nat)
    (h : Together feed₁ feed₂ s t) : results feed₁ mem₁ fuel s calls = results feed₂ mem₂ fuel t calls := by
  induction calls generalizing s t with
  | nil => rfl
  | cons call calls ih =>
      obtain ⟨hcall, hcalls⟩ := List.forall_mem_cons.mp hcalls
      have hsame : Same _ _ (call.run feed₁ mem₁ fuel s) (call.run feed₂ mem₂ fuel t) :=
        call_alike hd₁ hd₂ hcall fuel s t h
      rw [results, results]
      generalize call.run feed₁ mem₁ fuel s = u at hsame
      generalize call.run feed₂ mem₂ fuel t = v at hsame
      cases hsame with
      | none => rfl
      | error h =>
          obtain ⟨pos, hs, ht⟩ := h
          simp only [hs.consumed_eq, ht.consumed_eq, ih hcalls ⟨pos, hs, ht⟩]
      | ok h =>
          obtain ⟨pos, hs, ht⟩ := h
          simp only [hs.consumed_eq, ht.consumed_eq, ih hcalls ⟨pos, hs, ht⟩]

end

/-- What calls return and throw, and how much they consume, is a matter of the stream. Only the search for `\r\n` is
left out: it looks at a byte that may not have come. -/
theorem results_eq (hd₁ : Divides feed₁ stream) (hd₂ : Divides feed₂ stream) (mem₁ mem₂ : Nat → Nat → UInt8)
    (fuel : Nat) {calls : List Call} (hcalls : ∀ call ∈ calls, call ≠ .consumeUntilEol .crlf) :
    results feed₁ mem₁ fuel {} calls = results feed₂ mem₂ fuel {} calls :=
  results_of_together hd₁ hd₂ hcalls fuel ⟨0, At.start feed₁, At.start feed₂⟩

/-! ## Streams that end -/

theorem delivered_getD (chunks : List (List UInt8)) (k : Nat) :
    delivered (fun k => chunks.getD k []) k = (chunks.take k).flatten := by
  induction k with
  | zero => rfl
  | succ k ih =>
      rw [delivered_succ, ih, List.take_add_one, List.flatten_append, List.getD_eq_getElem?_getD]
      cases chunks[k]? with
      | none => rfl
      | some c => simp

/-- Pieces of a stream one after the other, and then nothing. -/
theorem divides_chunks {chunks : List (List UInt8)} (hshort : ∀ c ∈ chunks, c.length ≤ 1024)
    (hne : ∀ c ∈ chunks, c ≠ []) : Divides (fun k => chunks.getD k []) fun i => chunks.flatten[i]? := by
  refine ⟨fun k => ?_, fun k i x hx => ?_, fun k hk => ?_⟩
  · rw [List.getD_eq_getElem?_getD]
    cases hc : chunks[k]? with
    | none => exact Nat.zero_le _
    | some c => exact hshort c (List.mem_of_getElem? hc)
  · rw [delivered_getD] at hx
    refine Lists.getElem?_of_prefix ?_ hx
    have happ := congrArg List.flatten (List.take_append_drop k chunks)
    rw [List.flatten_append] at happ
    exact ⟨_, happ⟩
  · have hle : chunks.length ≤ k := by
      refine Nat.le_of_not_lt fun hlt => ?_
      simp only [List.getD_eq_getElem?_getD, List.getElem?_eq_getElem hlt, Option.getD_some] at hk
      exact hne _ (List.getElem_mem hlt) hk
    rw [delivered_getD, List.take_of_length_le hle, List.getElem?_eq_none (Nat.le_refl _)]

/-- `12` and a line feed, cut at two places. -/
theorem results_eq_twelve :
    results (fun k => [[0x31, 0x32], [0x0A]].getD k []) (fun _ _ => 0) 4 {} [.parseU64 (-1) 10, .expect 0x0A] =
      results (fun k => [[0x31], [0x32, 0x0A]].getD k []) (fun _ _ => 0) 4 {} [.parseU64 (-1) 10, .expect 0x0A] := by
  have hd₁ : Divides (fun k => [[0x31, 0x32], [0x0A]].getD k []) fun i => [0x31, 0x32, 0x0A][i]? :=
    divides_chunks (by simp) (by simp)
  have hd₂ : Divides (fun k => [[0x31], [0x32, 0x0A]].getD k []) fun i => [0x31, 0x32, 0x0A][i]? :=
    divides_chunks (by simp) (by simp)
  exact results_eq hd₁ hd₂ _ _ 4 (by simp)

end Dwhbll.Files.ParseUtils
