import Dwhbll.Files.Refills
import Dwhbll.Lib.Transition
import Mathlib.Tactic.IntervalCases

/-!
# The search for `\r\n` where a refill ends between the two

It looks at the character behind a carriage return before it asks for more. With nothing in the buffer it sees what was
in that cell of the ring before: the byte that came 1024 bytes earlier, or a zero.
-/

namespace Dwhbll.Files.ParseUtils

open Collections Relational Transition

variable {feed feed₁ feed₂ : Nat → List UInt8} {stream : Nat → Option UInt8} {mem mem₁ mem₂ : Nat → Nat → UInt8}
variable {s s' t : ParseUtils} {pos p q n fuel : Nat} {x y : UInt8} {result : List UInt8}

/-- Each refill was needed, and the ring still has the bytes of its last lap. -/
structure Follows (feed : Nat → List UInt8) (pos : Nat) (s : ParseUtils) : Prop extends At feed pos s where
  needed : ∀ k < s.refills, (delivered feed k).length ≤ pos
  head : s.buf.buffer.head = pos % 1024
  cells : Circular.Logged 1024 s.buf.buffer.data (delivered feed s.refills)

/-! ## The cells of the ring -/

theorem writeU8_cells {b : MemBuf} {e : Bool} {xs log : List UInt8} (h : b.Holds e xs)
    (hcells : Circular.Logged 1024 b.buffer.data log) (hlog : log.length % 1024 = (b.buffer.head + xs.length) % 1024)
    (hroom : xs.length + 1 ≤ 1024) (mem : Nat → UInt8) (x : UInt8) :
    Circular.Logged 1024 (b.writeU8 mem x).buffer.data (log ++ [x]) ∧
      (b.writeU8 mem x).buffer.head = b.buffer.head := by
  have hsz := h.sz_eq
  have hcap := h.capacity
  have htail := h.wf.tail_eq
  rw [hsz, hcap, ← hlog] at htail
  have hroomy := Ring.roomy_of_not_needsResize mem (h.wf.needsResize_eq_false (by omega))
  rw [MemBuf.writeU8, Ring.pushBack_eq, hroomy]
  refine ⟨?_, rfl⟩
  show Circular.Logged 1024 (b.buffer.data.set b.buffer.tail x) (log ++ [x])
  rw [htail]
  exact hcells.push (by omega) x

theorem writeVector_cells {b : MemBuf} {e : Bool} {xs log : List UInt8} (h : b.Holds e xs)
    (hcells : Circular.Logged 1024 b.buffer.data log) (hlog : log.length % 1024 = (b.buffer.head + xs.length) % 1024)
    (mem : Nat → UInt8) {data : List UInt8} (hroom : xs.length + data.length ≤ 1024) :
    Circular.Logged 1024 (b.writeVector mem data).buffer.data (log ++ data) ∧
      (b.writeVector mem data).buffer.head = b.buffer.head := by
  unfold MemBuf.writeVector
  induction data generalizing b xs log with
  | nil => exact ⟨by simpa using hcells, rfl⟩
  | cons x data ih =>
      rw [List.length_cons] at hroom
      obtain ⟨hcells', hhead⟩ := writeU8_cells h hcells hlog (by omega) mem x
      have hlog' : (log ++ [x]).length % 1024 = ((b.writeU8 mem x).buffer.head + (xs ++ [x]).length) % 1024 := by
        simp only [hhead, List.length_append, List.length_singleton]
        omega
      rw [List.foldl_cons, List.append_cons, ← hhead]
      refine ih (h.writeU8 mem x (by omega)) hcells' hlog' ?_
      rw [List.length_append, List.length_singleton]
      omega

theorem readU8_cells {c : UInt8} (h : readU8 s = some (.ok c, s')) :
    s'.refills = s.refills ∧ s'.buf.buffer.data = s.buf.buffer.data ∧
      s'.buf.buffer.head = s.buf.buffer.incHead.head := by
  by_cases hsz : s.buf.buffer.sz = 0
  · simp only [ParseUtils.readU8, onBuf, MemBuf.readU8, Ring.popFront, hsz, if_true] at h
    cases h
  · simp only [ParseUtils.readU8, onBuf, MemBuf.readU8, Ring.popFront, hsz, if_false] at h
    cases h
    exact ⟨rfl, rfl, rfl⟩

/-! ## One step -/

theorem Follows.start (feed : Nat → List UInt8) : Follows feed 0 {} where
  toAt := At.start feed
  needed k hk := absurd hk (Nat.not_lt_zero k)
  head := rfl
  cells := Circular.Logged.new 1024

theorem Follows.refill (mem : Nat → Nat → UInt8) (hd : Divides feed stream) (h : Follows feed pos s)
    (hempty : s.buf.isEmpty = true) :
    Follows feed pos { buf := s.buf.writeVector (mem s.refills) (feed s.refills), refills := s.refills + 1 } := by
  have hpos := h.toAt.isEmpty_iff.mp hempty
  have hholds := h.holds
  rw [hpos, List.drop_length] at hholds
  have hlog : (delivered feed s.refills).length % 1024 = (s.buf.buffer.head + ([] : List UInt8).length) % 1024 := by
    rw [h.head, hpos, List.length_nil]
    omega
  obtain ⟨hcells, hhead⟩ := writeVector_cells hholds h.cells hlog (mem s.refills) (by simpa using hd.short s.refills)
  refine ⟨h.toAt.refill mem hd hempty, fun k hk => ?_, hhead.trans h.head, ?_⟩
  · rcases Nat.lt_or_eq_of_le (Nat.le_of_lt_succ hk) with hk | rfl
    · exact h.needed k hk
    · exact Nat.le_of_eq hpos.symm
  · rw [delivered_succ]
    exact hcells

theorem Follows.checkRefill (mem : Nat → Nat → UInt8) (hd : Divides feed stream) (h : Follows feed pos s)
    {r : Except Exn Unit} (hrun : checkRefill feed mem s = some (r, s')) : Follows feed pos s' := by
  rw [checkRefill_eq] at hrun
  split at hrun
  · rename_i hempty
    have hrefill := h.refill mem hd hempty
    dsimp only at hrun
    split at hrun
    · cases hrun
      exact hrefill
    · cases hrun
      exact hrefill
  · cases hrun
    exact h

theorem Follows.readU8 (h : Follows feed pos s) (hr : Ready feed pos x s) :
    ∃ s', ParseUtils.readU8 s = some (.ok x, s') ∧ Follows feed (pos + 1) s' := by
  obtain ⟨s', hread, hat⟩ := hr.readU8
  obtain ⟨hrefills, hdata, hhead⟩ := readU8_cells hread
  refine ⟨s', hread, hat, fun k hk => ?_, ?_, ?_⟩
  · exact Nat.le_succ_of_le (h.needed k (hrefills ▸ hk))
  · have hcap := h.holds.capacity
    have h0 := h.head
    rw [hhead]
    simp only [Ring.incHead, hcap]
    split <;> omega
  · rw [hdata, hrefills]
    exact h.cells

/-! ## States that are reached -/

def system (feed : Nat → List UInt8) (mem : Nat → Nat → UInt8) : System ParseUtils (Nat × Call) where
  init s := s = {}
  step s c s' := ∃ r, c.2.run feed mem c.1 s = some (r, s')

section

variable (hd : Divides feed stream)

include hd

/-- What a computation does to the bytes that have been consumed, it does to the ring. -/
abbrev Kept {α : Type} (feed : Nat → List UInt8) (m : M α) : Prop := Keeps (fun s => ∃ pos, Follows feed pos s) m

theorem checkRefill_kept : Kept feed (checkRefill feed mem) := by
  rintro s r s' ⟨pos, hs⟩ hrun
  exact ⟨pos, hs.checkRefill mem hd hrun⟩

theorem readU8_kept : Kept feed readU8 := by
  rintro s r s' ⟨pos, hs⟩ hrun
  by_cases hempty : s.buf.isEmpty = true
  · have hsz : s.buf.buffer.sz = 0 := of_decide_eq_true hempty
    simp only [readU8, onBuf, MemBuf.readU8, Ring.popFront, hsz, if_true] at hrun
    cases hrun
    exact ⟨pos, hs⟩
  · obtain ⟨x, -, hr⟩ := hs.ready hd hempty
    obtain ⟨t, hread, ht⟩ := hs.readU8 hr
    rw [hread] at hrun
    cases hrun
    exact ⟨pos + 1, ht⟩

omit hd in
theorem peekU8_kept : Kept feed peekU8 := by
  intro s r s' hs hrun
  obtain ⟨c, -, heq⟩ := Option.map_eq_some_iff.mp hrun
  cases heq
  exact hs

theorem expectString_kept (data : List UInt8) : Kept feed (expectString feed mem data) := by
  induction data with
  | nil => exact .pure
  | cons d data ih =>
      exact (checkRefill_kept hd).bind fun _ => (readU8_kept hd).bind fun c => .ite (fun _ => .throw) fun _ => ih

theorem takeUntil_kept (c : UInt8) (fuel : Nat) (result : List UInt8) :
    Kept feed (takeUntil feed mem c fuel result) := by
  induction fuel generalizing result with
  | zero => exact .stuck
  | succ fuel ih =>
      exact (checkRefill_kept hd).bind fun _ => (readU8_kept hd).bind fun next => .ite (fun _ => .pure) fun _ => ih _

theorem takeUntilCrlf_kept (fuel : Nat) (result : List UInt8) : Kept feed (takeUntilCrlf feed mem fuel result) := by
  induction fuel generalizing result with
  | zero => exact .stuck
  | succ fuel ih =>
      refine (checkRefill_kept hd).bind fun _ => (readU8_kept hd).bind fun next => .ite (fun _ => ?_) fun _ => ih _
      refine peekU8_kept.bind fun following => .ite (fun _ => ?_) fun _ => ih _
      exact (readU8_kept hd).bind fun _ => .pure

theorem digits_kept (readExactly : Int) (fuel i : Nat) (buffer : UInt64) :
    Kept feed (digits feed mem readExactly fuel i buffer) := by
  induction fuel generalizing i buffer with
  | zero => exact .stuck
  | succ fuel ih =>
      refine .ite (fun _ => ?_) fun _ => .pure
      refine (checkRefill_kept hd).bind fun _ => peekU8_kept.bind fun next => .ite (fun _ => ?_) fun _ => .pure
      exact (readU8_kept hd).bind fun _ => ih _ _

theorem call_kept (fuel : Nat) (call : Call) : Kept feed (call.run feed mem fuel) := by
  cases call with
  | expectString data => exact (expectString_kept hd data).bind fun _ => .pure
  | expect c =>
      refine Keeps.bind ?_ fun _ => .pure
      exact (checkRefill_kept hd).bind fun _ => (readU8_kept hd).bind fun next => .ite (fun _ => .throw) fun _ => .pure
  | consumeUntilToken c => exact (takeUntil_kept hd c fuel []).bind fun _ => .pure
  | consumeUntilEol type =>
      cases type with
      | crlf => exact (takeUntilCrlf_kept hd fuel []).bind fun _ => .pure
      | cr => exact (takeUntil_kept hd carriageReturn fuel []).bind fun _ => .pure
      | lf => exact (takeUntil_kept hd lineFeed fuel []).bind fun _ => .pure
  | parseU64 readExactly radix =>
      refine Keeps.bind ?_ fun _ => .pure
      exact .ite (fun _ => digits_kept hd readExactly fuel 0 0) fun _ => .stuck

theorem follows_of_reachable (h : (system feed mem).Reachable s) : Follows feed (consumed feed s) s := by
  have hinv : (system feed mem).Invariant fun s => ∃ pos, Follows feed pos s := by
    refine ⟨?_, ?_⟩
    · rintro s rfl
      exact ⟨0, .start feed⟩
    · rintro s ⟨fuel, call⟩ s' hs ⟨r, hrun⟩
      exact call_kept hd fuel call s r s' hs hrun
  obtain ⟨pos, hpos⟩ := hinv.reachable h
  rwa [hpos.consumed_eq]

end

/-! ## The character behind a carriage return -/

/-- A refill ends in front of byte `n`. -/
def Boundary (feed : Nat → List UInt8) (n : Nat) : Prop := ∃ k, (delivered feed k).length = n

/-- What the ring has in the cell of byte `n` before that byte comes. -/
def Stale (stream : Nat → Option UInt8) (n : Nat) (y : UInt8) : Prop :=
  if 1024 ≤ n then stream (n - 1024) = some y else y = 0

theorem delivered_length_mono (feed : Nat → List UInt8) {k l : Nat} (h : k ≤ l) :
    (delivered feed k).length ≤ (delivered feed l).length := by
  induction h with
  | refl => exact Nat.le_refl _
  | step _ ih =>
      rw [delivered_succ, List.length_append]
      exact Nat.le_add_right_of_le ih

/-- The buffer runs empty where a refill ends. -/
theorem Follows.boundary_iff (h : Follows feed pos s) (h' : Follows feed (pos + 1) s') (hrefills : s'.refills = s.refills)
    (hlt : pos < (delivered feed s.refills).length) : Boundary feed (pos + 1) ↔ s'.buf.isEmpty = true := by
  rw [h'.toAt.isEmpty_iff, hrefills]
  constructor
  · rintro ⟨k, hk⟩
    have hle : s.refills ≤ k := by
      refine Nat.le_of_not_lt fun hlt' => ?_
      have := h.needed k hlt'
      omega
    have := delivered_length_mono feed hle
    omega
  · exact fun heq => ⟨_, heq.symm⟩

theorem Follows.peekU8_empty (hd : Divides feed stream) (h : Follows feed pos s) (hempty : s.buf.isEmpty = true) :
    ∃ y, peekU8 s = some (.ok y, s) ∧ Stale stream pos y := by
  have hpos := h.toAt.isEmpty_iff.mp hempty
  have hnext := h.cells.next (by omega)
  rw [← hpos, ← h.head] at hnext
  have hlt := h.holds.wf.head_lt
  have hget : s.buf.buffer.get? 0 = s.buf.buffer.data[s.buf.buffer.head]? := by
    rw [Ring.get?, Nat.zero_add, if_neg (by omega)]
  obtain ⟨y, hy⟩ : ∃ y, s.buf.buffer.data[s.buf.buffer.head]? = some y := ⟨_, List.getElem?_eq_getElem hlt⟩
  refine ⟨y, ?_, ?_⟩
  · simp only [ParseUtils.peekU8, MemBuf.peekU8, hget, hy, Option.map_some]
  · rw [hy] at hnext
    rw [Stale]
    split at hnext
    · rename_i hle
      rw [if_pos hle]
      exact hd.bytes _ _ _ hnext.symm
    · rename_i hle
      rw [if_neg hle]
      exact Option.some.inj hnext

/-! ## The search -/

/-- The first carriage return from `p` on that a line feed follows is at `q`. -/
structure FirstCrlf (stream : Nat → Option UInt8) (p q : Nat) : Prop where
  le : p ≤ q
  present : ∀ i, p ≤ i → i < q → stream i ≠ none
  carriageReturn : stream q = some carriageReturn
  lineFeed : stream (q + 1) = some lineFeed
  first : ∀ i, p ≤ i → i < q → stream i = some ParseUtils.carriageReturn → stream (i + 1) ≠ some ParseUtils.lineFeed

def between (stream : Nat → Option UInt8) (p q : Nat) : List UInt8 :=
  (List.range' p (q - p)).filterMap stream

/-- No refill ends with the carriage return of the pair at `q`, nor with one before it where the cell behind it still has a
line feed. -/
def Whole (feed : Nat → List UInt8) (stream : Nat → Option UInt8) (p q : Nat) : Prop :=
  ∀ i, p ≤ i → i ≤ q → stream i = some carriageReturn → Boundary feed (i + 1) →
    i ≠ q ∧ ¬ (1024 ≤ i + 1 ∧ stream (i + 1 - 1024) = some lineFeed)

theorem stale_lineFeed_iff : Stale stream n lineFeed ↔ 1024 ≤ n ∧ stream (n - 1024) = some lineFeed := by
  rw [Stale]
  split
  · rename_i hle
    exact (and_iff_right hle).symm
  · rename_i hle
    exact iff_of_false (by decide) fun h => hle h.1

/-- What is looked at behind a carriage return: the next byte, or what its cell had before. -/
def Seen (feed : Nat → List UInt8) (stream : Nat → Option UInt8) (n : Nat) (y : UInt8) : Prop :=
  (Boundary feed n → Stale stream n y) ∧ (¬ Boundary feed n → stream n = some y)

/-- A round that reads a byte and, behind a carriage return, looks at what is next. -/
theorem takeUntilCrlf_round (mem : Nat → Nat → UInt8) (hd : Divides feed stream) (h : Follows feed pos s)
    (hx : stream pos = some x) :
    ∃ s' y, Follows feed (pos + 1) s' ∧ Seen feed stream (pos + 1) y ∧
      (¬ Boundary feed (pos + 1) → Ready feed (pos + 1) y s') ∧
      (Boundary feed (pos + 1) → s'.buf.isEmpty = true) ∧
      ∀ fuel result, takeUntilCrlf feed mem (fuel + 1) result s =
        if x = carriageReturn ∧ y = lineFeed then (do let _ ← ParseUtils.readU8; return result : M (List UInt8)) s'
        else takeUntilCrlf feed mem fuel (result ++ [x]) s' := by
  obtain ⟨s₁, hcheck, hready⟩ := h.toAt.checkRefill_some mem hd hx
  have h₁ := h.checkRefill mem hd hcheck
  obtain ⟨s₂, hread, h₂⟩ := h₁.readU8 hready
  obtain ⟨rest, hrest⟩ := hready.2
  have hbound := h₁.boundary_iff h₂ (readU8_cells hread).1 (Lists.lt_of_drop hrest)
  obtain ⟨y, hpeek, hseen, hnext⟩ : ∃ y, peekU8 s₂ = some (.ok y, s₂) ∧ Seen feed stream (pos + 1) y ∧
      (¬ Boundary feed (pos + 1) → Ready feed (pos + 1) y s₂) := by
    by_cases hempty : s₂.buf.isEmpty = true
    · obtain ⟨y, hy, hstale⟩ := h₂.peekU8_empty hd hempty
      have hb := hbound.mpr hempty
      exact ⟨y, hy, ⟨fun _ => hstale, fun hn => absurd hb hn⟩, fun hn => absurd hb hn⟩
    · obtain ⟨y, hy, hr⟩ := h₂.ready hd hempty
      exact ⟨y, hr.peekU8, ⟨fun hb => absurd (hbound.mp hb) hempty, fun _ => hy⟩, fun _ => hr⟩
  refine ⟨s₂, y, h₂, hseen, hnext, hbound.mp, fun fuel result => ?_⟩
  rw [takeUntilCrlf, bind_ok hcheck, bind_ok hread]
  by_cases hcr : x = carriageReturn
  · rw [if_pos hcr, bind_ok hpeek]
    by_cases hlf : y = lineFeed
    · rw [if_pos hlf, if_pos ⟨hcr, hlf⟩]
    · rw [if_neg hlf, if_neg fun h => hlf h.2]
  · rw [if_neg hcr, if_neg fun h => hcr h.1]

theorem readU8_of_isEmpty (h : s.buf.isEmpty = true) :
    ParseUtils.readU8 s = some (.error (.ring (.outOfRange "size is already zero.")), s) := by
  have hsz : s.buf.buffer.sz = 0 := of_decide_eq_true h
  simp only [ParseUtils.readU8, onBuf, MemBuf.readU8, Ring.popFront, hsz, if_true]
  rfl

theorem between_self (stream : Nat → Option UInt8) (p : Nat) : between stream p p = [] := by
  rw [between, Nat.sub_self]
  rfl

theorem between_cons (hx : stream p = some x) (hlt : p < q) : between stream p q = x :: between stream (p + 1) q := by
  obtain ⟨k, rfl⟩ := Nat.exists_eq_add_of_lt hlt
  rw [between, between, show p + k + 1 - p = k + 1 by omega, show p + k + 1 - (p + 1) = k by omega, List.range'_succ,
    List.filterMap_cons_some hx]

theorem FirstCrlf.next (h : FirstCrlf stream p q) (hlt : p < q) : FirstCrlf stream (p + 1) q where
  le := hlt
  present i hp hq := h.present i (by omega) hq
  carriageReturn := h.carriageReturn
  lineFeed := h.lineFeed
  first i hp hq := h.first i (by omega) hq

theorem FirstCrlf.exists_byte (h : FirstCrlf stream p q) : ∃ x, stream p = some x := by
  rcases Nat.lt_or_eq_of_le h.le with hlt | rfl
  · exact Option.ne_none_iff_exists'.mp (h.present p (Nat.le_refl p) hlt)
  · exact ⟨_, h.carriageReturn⟩

theorem Whole.next (h : Whole feed stream p q) : Whole feed stream (p + 1) q := fun i hp hq => h i (by omega) hq

theorem Stale.unique (h : Stale stream n x) (h' : Stale stream n y) : x = y := by
  rw [Stale] at h h'
  split at h
  · rw [if_pos ‹_›, h] at h'
    exact Option.some.inj h'
  · rw [if_neg ‹_›] at h'
    exact h.trans h'.symm

theorem takeUntilCrlf_yields (fuel : Nat) (result : List UInt8) :
    Yields (result <+: ·) (takeUntilCrlf feed mem fuel result) := by
  induction fuel generalizing result with
  | zero => exact .stuck
  | succ fuel ih =>
      have hnext : ∀ x, Yields (result <+: ·) (takeUntilCrlf feed mem fuel (result ++ [x])) :=
        fun x s a s' hrun => (List.prefix_append result [x]).trans (ih _ s a s' hrun)
      refine .bind fun _ => .bind fun next => .ite (fun _ => ?_) fun _ => hnext next
      exact .bind fun following => .ite (fun _ => .bind fun _ => .pure List.prefix_rfl) fun _ => hnext next

/-- The search ends at the pair. -/
theorem returns_of_whole (mem : Nat → Nat → UInt8) (hd : Divides feed stream) (hs : Follows feed p s)
    (hq : FirstCrlf stream p q) (hw : Whole feed stream p q) (hfuel : q - p < fuel) (result : List UInt8) :
    ∃ s', takeUntilCrlf feed mem fuel result s = some (.ok (result ++ between stream p q), s') ∧
      Follows feed (q + 2) s' := by
  induction fuel generalizing p s result with
  | zero => omega
  | succ fuel ih =>
      obtain ⟨x, hx⟩ := hq.exists_byte
      obtain ⟨s', y, hs', hseen, hready, -, hround⟩ := takeUntilCrlf_round mem hd hs hx
      rw [hround fuel result]
      rcases Nat.lt_or_eq_of_le hq.le with hlt | rfl
      · have hnot : ¬ (x = carriageReturn ∧ y = lineFeed) := by
          rintro ⟨rfl, rfl⟩
          by_cases hb : Boundary feed (p + 1)
          · exact (hw p (Nat.le_refl p) hq.le hx hb).2 (stale_lineFeed_iff.mp (hseen.1 hb))
          · exact hq.first p (Nat.le_refl p) hlt hx (hseen.2 hb)
        rw [if_neg hnot, between_cons hx hlt, List.append_cons result x (between ..)]
        exact ih hs' (hq.next hlt) hw.next (by omega) _
      · have hb : ¬ Boundary feed (p + 1) := fun hb => (hw p (Nat.le_refl p) (Nat.le_refl p) hq.carriageReturn hb).1 rfl
        cases hx.symm.trans hq.carriageReturn
        cases (hseen.2 hb).symm.trans hq.lineFeed
        obtain ⟨s'', hread, hs''⟩ := hs'.readU8 (hready hb)
        rw [if_pos ⟨rfl, rfl⟩, bind_ok hread, between_self, List.append_nil]
        exact ⟨s'', rfl, hs''⟩

/-- Only there it returns those bytes. -/
theorem whole_of_returns (mem : Nat → Nat → UInt8) (hd : Divides feed stream) (hs : Follows feed p s)
    (hq : FirstCrlf stream p q) (result : List UInt8)
    (hrun : takeUntilCrlf feed mem fuel result s = some (.ok (result ++ between stream p q), s')) :
    Whole feed stream p q := by
  induction fuel generalizing p s result with
  | zero => cases hrun
  | succ fuel ih =>
      obtain ⟨x, hx⟩ := hq.exists_byte
      obtain ⟨t, y, ht, hseen, hready, hempty, hround⟩ := takeUntilCrlf_round mem hd hs hx
      rw [hround fuel result] at hrun
      -- with nothing in the buffer there is no line feed to take
      have hnot : Boundary feed (p + 1) → ¬ (x = carriageReturn ∧ y = lineFeed) := by
        intro hb hxy
        rw [if_pos hxy, bind_error (readU8_of_isEmpty (hempty hb))] at hrun
        cases hrun
      rcases Nat.lt_or_eq_of_le hq.le with hlt | rfl
      · have hnot' : ¬ (x = carriageReturn ∧ y = lineFeed) := by
          by_cases hb : Boundary feed (p + 1)
          · exact hnot hb
          · rintro ⟨rfl, rfl⟩
            exact hq.first p (Nat.le_refl p) hlt hx (hseen.2 hb)
        rw [if_neg hnot', between_cons hx hlt, List.append_cons result x (between ..)] at hrun
        have hrest := ih ht (hq.next hlt) _ hrun
        intro i hp hi hcr hb
        rcases Nat.lt_or_eq_of_le hp with hpi | rfl
        · exact hrest i hpi hi hcr hb
        · refine ⟨Nat.ne_of_lt hlt, fun hstale => hnot' ⟨Option.some.inj (hx.symm.trans hcr), ?_⟩⟩
          exact (hseen.1 hb).unique (stale_lineFeed_iff.mpr hstale)
      · intro i hp hi hcr hb
        cases Nat.le_antisymm hi hp
        rw [if_neg (hnot hb)] at hrun
        have hlen := (takeUntilCrlf_yields fuel (result ++ [x]) t _ s' hrun).length_le
        simp only [between_self, List.length_append, List.length_singleton, List.length_nil] at hlen
        omega

/-- In two runs that have consumed the same bytes of a stream, whatever the calls were, the search returns the bytes in front
of the first pair, and consumes the same, if and only if no refill of either cuts the pair, or ends with a carriage
return in front of the cell of a line feed. -/
theorem consumeUntilEol_crlf_iff (hd₁ : Divides feed₁ stream) (hd₂ : Divides feed₂ stream)
    (hs : (system feed₁ mem₁).Reachable s) (ht : (system feed₂ mem₂).Reachable t) (hsp : consumed feed₁ s = p)
    (htp : consumed feed₂ t = p) (hq : FirstCrlf stream p q) (hfuel : q - p < fuel) :
    (∃ s' t', consumeUntilEol feed₁ mem₁ fuel .crlf s = some (.ok (between stream p q), s') ∧
        consumeUntilEol feed₂ mem₂ fuel .crlf t = some (.ok (between stream p q), t') ∧
        consumed feed₁ s' = consumed feed₂ t') ↔
      Whole feed₁ stream p q ∧ Whole feed₂ stream p q := by
  have hs := hsp ▸ follows_of_reachable hd₁ hs
  have ht := htp ▸ follows_of_reachable hd₂ ht
  constructor
  · rintro ⟨s', t', hrun₁, hrun₂, -⟩
    exact ⟨whole_of_returns mem₁ hd₁ hs hq [] hrun₁, whole_of_returns mem₂ hd₂ ht hq [] hrun₂⟩
  · rintro ⟨hw₁, hw₂⟩
    obtain ⟨s', hrun₁, hs'⟩ := returns_of_whole mem₁ hd₁ hs hq hw₁ hfuel []
    obtain ⟨t', hrun₂, ht'⟩ := returns_of_whole mem₂ hd₂ ht hq hw₂ hfuel []
    exact ⟨s', t', hrun₁, hrun₂, by rw [hs'.toAt.consumed_eq, ht'.toAt.consumed_eq]⟩

theorem boundary_chunks {chunks : List (List UInt8)} :
    Boundary (fun k => chunks.getD k []) n ↔ ∃ k ≤ chunks.length, (chunks.take k).flatten.length = n := by
  simp only [Boundary, delivered_getD]
  constructor
  · rintro ⟨k, hk⟩
    rcases Nat.le_total k chunks.length with hle | hle
    · exact ⟨k, hle, hk⟩
    · exact ⟨chunks.length, Nat.le_refl _, by rwa [List.take_length, ← List.take_of_length_le hle]⟩
  · rintro ⟨k, -, hk⟩
    exact ⟨k, hk⟩

/-- `ab` and the pair, of which one refill ends in front of the `b` and the other one in front of the pair. -/
theorem consumeUntilEol_crlf_iff_two :
    ∃ s' t', consumeUntilEol (fun k => [[0x61], [0x62, 0x0D, 0x0A]].getD k []) (fun _ _ => 0) 3 .crlf {} =
        some (.ok [0x61, 0x62], s') ∧
      consumeUntilEol (fun k => [[0x61, 0x62], [0x0D, 0x0A]].getD k []) (fun _ _ => 0) 3 .crlf {} =
        some (.ok [0x61, 0x62], t') ∧
      consumed (fun k => [[0x61], [0x62, 0x0D, 0x0A]].getD k []) s' =
        consumed (fun k => [[0x61, 0x62], [0x0D, 0x0A]].getD k []) t' := by
  have hd₁ : Divides (fun k => [[0x61], [0x62, 0x0D, 0x0A]].getD k []) fun i => [0x61, 0x62, 0x0D, 0x0A][i]? :=
    divides_chunks (by simp) (by simp)
  have hd₂ : Divides (fun k => [[0x61, 0x62], [0x0D, 0x0A]].getD k []) fun i => [0x61, 0x62, 0x0D, 0x0A][i]? :=
    divides_chunks (by simp) (by simp)
  have hq : FirstCrlf (fun i => [0x61, 0x62, 0x0D, 0x0A][i]?) 0 2 := by
    refine ⟨by decide, fun i _ hi => ?_, rfl, rfl, fun i _ hi => ?_⟩
    · interval_cases i <;> decide
    · interval_cases i <;> decide
  have hwhole : ∀ chunks : List (List UInt8), ¬ Boundary (fun k => chunks.getD k []) 3 →
      Whole (fun k => chunks.getD k []) (fun i => [0x61, 0x62, 0x0D, 0x0A][i]?) 0 2 := by
    intro chunks h3 i _ hi hcr hb
    interval_cases i
    · exact absurd hcr (by decide)
    · exact absurd hcr (by decide)
    · exact absurd hb h3
  have hinit : ∀ feed, (system feed fun _ _ => 0).Reachable {} := fun feed => .init rfl
  exact (consumeUntilEol_crlf_iff hd₁ hd₂ (hinit _) (hinit _) rfl rfl hq (by decide)).mpr
      ⟨hwhole [[0x61], [0x62, 0x0D, 0x0A]] (by rw [boundary_chunks]; decide),
        hwhole [[0x61, 0x62], [0x0D, 0x0A]] (by rw [boundary_chunks]; decide)⟩

/-- The first refill ends with the carriage return of the pair. The line then goes on to the next pair; in one refill it does
not. -/
theorem cut_pair_is_missed :
    Divides (fun k => [[0x61, 0x0D], [0x0A, 0x62, 0x0D, 0x0A]].getD k [])
      (fun i => [0x61, 0x0D, 0x0A, 0x62, 0x0D, 0x0A][i]?) ∧
    Divides (fun k => [[0x61, 0x0D, 0x0A, 0x62, 0x0D, 0x0A]].getD k [])
      (fun i => [0x61, 0x0D, 0x0A, 0x62, 0x0D, 0x0A][i]?) ∧
    (consumeUntilEol (fun k => [[0x61, 0x0D], [0x0A, 0x62, 0x0D, 0x0A]].getD k []) (fun _ _ => 0) 6 .crlf {}).map
        (fun (r, s) => (r, consumed (fun k => [[0x61, 0x0D], [0x0A, 0x62, 0x0D, 0x0A]].getD k []) s)) =
      some (.ok [0x61, 0x0D, 0x0A, 0x62], 6) ∧
    (consumeUntilEol (fun k => [[0x61, 0x0D, 0x0A, 0x62, 0x0D, 0x0A]].getD k []) (fun _ _ => 0) 6 .crlf {}).map
        (fun (r, s) => (r, consumed (fun k => [[0x61, 0x0D, 0x0A, 0x62, 0x0D, 0x0A]].getD k []) s)) =
      some (.ok [0x61], 3) :=
  ⟨divides_chunks (by simp) (by simp), divides_chunks (by simp) (by simp), by decide +kernel, by decide +kernel⟩

end Dwhbll.Files.ParseUtils
