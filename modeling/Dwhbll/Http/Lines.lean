import Dwhbll.Http.Socket

/-!
# The lines of a stream

A stream that comes in any number of reads is read line by line, whatever the reads are cut into.
-/

namespace Dwhbll.Network.Socket

def carriageReturn : UInt8 := 0x0D
def lineFeed : UInt8 := 0x0A
def crlf : List UInt8 := [carriageReturn, lineFeed]

/-- What is in front of the first `\r\n`, and what is behind it; all, and nothing, where there is none. -/
def cutLine : List UInt8 → List UInt8 × List UInt8
  | [] => ([], [])
  | x :: xs =>
      if x = carriageReturn ∧ xs.head? = some lineFeed then ([], xs.tail)
      else (x :: (cutLine xs).1, (cutLine xs).2)

/-- The reads deliver the stream in pieces, and then nothing: at the end of the file, or where `read` fails. A `poll` that
is not ready delivers once more what is in the buffer. -/
def Delivers (env : Nat → Answer) (stream : List UInt8) : Prop :=
  ∃ chunks : List (List UInt8), (∀ c ∈ chunks, c ≠ []) ∧ chunks.flatten = stream ∧
    ∀ k, lastRead env (k + 1) = chunks.getD k []

/-- These reads one after the other, and then the end of the file. -/
def reads (chunks : List { xs : List UInt8 // xs.length ≤ 4096 }) (k : Nat) : Answer :=
  .bytes (chunks.getD k ⟨[], Nat.zero_le _⟩)

theorem reads_delivers {chunks : List { xs : List UInt8 // xs.length ≤ 4096 }} (h : ∀ c ∈ chunks, c.1 ≠ []) :
    Delivers (reads chunks) (chunks.map (·.1)).flatten := by
  refine ⟨chunks.map (·.1), fun c hc => ?_, rfl, fun k => ?_⟩
  · obtain ⟨d, hd, rfl⟩ := List.mem_map.mp hc
    exact h d hd
  · simp only [lastRead, reads, List.getD_eq_getElem?_getD, List.getElem?_map]
    cases chunks[k]? <;> rfl

variable {env : Nat → Answer} {stream xs : List UInt8} {x prev : UInt8} {s : Socket} {rounds count : Nat}
variable {buf result : List UInt8}

/-- What has not been consumed: the rest of the last read, and what is still to come. -/
structure Remains (env : Nat → Answer) (xs : List UInt8) (s : Socket) : Prop extends Filled env s where
  rest : ∃ chunks : List (List UInt8), (∀ c ∈ chunks, c ≠ []) ∧
    (∀ k, lastRead env (s.polls + k + 1) = chunks.getD k []) ∧
    xs = (lastRead env s.polls).drop s.recvReadpos ++ chunks.flatten

theorem Delivers.remains (h : Delivers env stream) (recvBuffer : Nat → UInt8) :
    Remains env stream (assignSocket recvBuffer) := by
  obtain ⟨chunks, hne, rfl, henv⟩ := h
  refine ⟨(assignSocket_inOrder recvBuffer).toFilled, chunks, hne, fun k => ?_, rfl⟩
  rw [show (assignSocket recvBuffer).polls + k = k from Nat.zero_add k]
  exact henv k

/-! ## One byte -/

theorem Remains.refill (h : Remains env xs s) (hempty : s.recvSize ≤ s.recvReadpos) :
    Remains env xs (refillBuffer env s) ∧ ((refillBuffer env s).recvSize = 0 ↔ xs = []) := by
  obtain ⟨chunks, hne, henv, hxs⟩ := h.rest
  have hfilled := h.toFilled.refill
  have hsize := hfilled.size
  rw [h.size] at hempty
  rw [List.drop_of_length_le hempty, List.nil_append] at hxs
  have hlast : lastRead env (refillBuffer env s).polls = chunks.getD 0 [] := by
    rw [refillBuffer_polls]
    exact henv 0
  rw [hlast] at hsize
  have hnext : ∀ k, lastRead env ((refillBuffer env s).polls + k + 1) = chunks.tail.getD k [] := by
    intro k
    rw [refillBuffer_polls, Nat.add_assoc s.polls, Nat.add_comm 1, henv (k + 1)]
    cases chunks <;> rfl
  have hrest : xs = (lastRead env (refillBuffer env s).polls).drop (refillBuffer env s).recvReadpos ++
      chunks.tail.flatten := by
    rw [refillBuffer_recvReadpos, List.drop_zero, hlast, hxs]
    cases chunks <;> rfl
  refine ⟨⟨hfilled, chunks.tail, fun c hc => hne c (List.mem_of_mem_tail hc), hnext, hrest⟩, ?_⟩
  rw [hsize, hxs, List.length_eq_zero_iff]
  cases chunks with
  | nil => exact iff_of_true rfl rfl
  | cons c chunks =>
      have hc := hne c List.mem_cons_self
      refine iff_of_false hc ?_
      simp [hc]

theorem Remains.cons_of_lt (h : Remains env xs s) (hlt : s.recvReadpos < s.recvSize) :
    ∃ ys, xs = s.take.1 :: ys ∧ Remains env ys s.take.2 := by
  obtain ⟨chunks, hne, henv, hxs⟩ := h.rest
  rw [h.size] at hlt
  have hb := h.buffer s.recvReadpos _ (List.getElem?_eq_getElem hlt)
  rw [List.drop_eq_getElem_cons hlt, ← hb, List.cons_append] at hxs
  exact ⟨_, hxs, h.toFilled.take, chunks, hne, henv, rfl⟩

theorem Remains.check (h : Remains env xs s) :
    Remains env xs (checkBuffer env s).2 ∧ ((checkBuffer env s).1 = false ↔ xs = []) := by
  rw [checkBuffer]
  split
  · rename_i hlt
    obtain ⟨ys, hxs, -⟩ := h.cons_of_lt hlt
    exact ⟨h, iff_of_false (fun h => by cases h) (hxs ▸ List.cons_ne_nil _ _)⟩
  · rename_i hlt
    obtain ⟨hremains, hiff⟩ := h.refill (Nat.not_lt.mp hlt)
    refine ⟨hremains, ?_⟩
    simp only [refillBuffer_recvReadpos]
    rw [decide_eq_false_iff_not, Nat.pos_iff_ne_zero, not_not, hiff]

theorem Remains.check_nil (h : Remains env [] s) : ∃ s', checkBuffer env s = (false, s') ∧ Remains env [] s' := by
  obtain ⟨hremains, hiff⟩ := h.check
  exact ⟨_, Prod.ext (hiff.mpr rfl) rfl, hremains⟩

theorem Remains.check_cons (h : Remains env (x :: xs) s) :
    ∃ s', checkBuffer env s = (true, s') ∧ s'.take.1 = x ∧ Remains env xs s'.take.2 := by
  obtain ⟨hremains, hiff⟩ := h.check
  have htrue : (checkBuffer env s).1 = true := Bool.not_eq_false _ ▸ fun hf => List.cons_ne_nil _ _ (hiff.mp hf)
  obtain ⟨ys, hxs, hys⟩ := hremains.cons_of_lt (checkBuffer_lt env s htrue)
  cases hxs
  exact ⟨_, Prod.ext htrue rfl, rfl, hys⟩

/-! ## Lines and bodies -/

theorem cutLine_cons_of_ne (h : x ≠ carriageReturn) (xs : List UInt8) :
    cutLine (x :: xs) = (x :: (cutLine xs).1, (cutLine xs).2) := by
  rw [cutLine, if_neg fun hx => h hx.1]

theorem cutLine_return_cons (h : x ≠ lineFeed) (xs : List UInt8) :
    cutLine (carriageReturn :: x :: xs) = (carriageReturn :: (cutLine (x :: xs)).1, (cutLine (x :: xs)).2) := by
  rw [cutLine, if_neg]
  rintro ⟨-, hx⟩
  exact h (Option.some.inj hx)

theorem cutLine_crlf (xs : List UInt8) : cutLine (carriageReturn :: lineFeed :: xs) = ([], xs) := by
  rw [cutLine, if_pos ⟨rfl, rfl⟩]
  rfl

theorem cutLine_length (xs : List UInt8) : (cutLine xs).1.length + (cutLine xs).2.length ≤ xs.length := by
  induction xs with
  | nil => exact Nat.le_refl _
  | cons x xs ih =>
      rw [cutLine]
      split
      · simp only [List.length_nil, List.length_tail, List.length_cons]
        omega
      · simp only [List.length_cons]
        omega

theorem cutLine_lt (h : (cutLine xs).1 ≠ []) : (cutLine xs).2.length < xs.length := by
  have hlen := cutLine_length xs
  have hpos := List.length_pos_iff.mpr h
  omega

theorem cutLine_append {line : List UInt8} (h : ¬ crlf <:+: line) (rest : List UInt8) :
    cutLine (line ++ (crlf ++ rest)) = (line, rest) := by
  induction line with
  | nil => exact cutLine_crlf rest
  | cons x line ih =>
      have hnext := ih fun hin => h (List.infix_cons hin)
      by_cases hx : x = carriageReturn
      · subst hx
        cases line with
        | nil =>
            show cutLine (carriageReturn :: carriageReturn :: lineFeed :: rest) = _
            rw [cutLine_return_cons (by decide), cutLine_crlf]
        | cons y line =>
            have hy : y ≠ lineFeed := by
              rintro rfl
              exact h (List.prefix_append crlf line).isInfix
            rw [List.cons_append, List.cons_append, cutLine_return_cons hy, ← List.cons_append, hnext]
      · rw [List.cons_append, cutLine_cons_of_ne hx, hnext]

/-- The lines up to the first one that is empty, and what is behind that one. -/
def cutHeaders (xs : List UInt8) : List (List UInt8) × List UInt8 :=
  if _h : (cutLine xs).1 = [] then ([], (cutLine xs).2)
  else
    ((cutLine xs).1 :: (cutHeaders (cutLine xs).2).1, (cutHeaders (cutLine xs).2).2)
termination_by xs.length
decreasing_by all_goals exact cutLine_lt ‹_›

theorem cutHeaders_nil {ys : List UInt8} (h : cutLine xs = ([], ys)) : cutHeaders xs = ([], ys) := by
  rw [cutHeaders, dif_pos (by rw [h]), h]

theorem cutHeaders_cons {line ys : List UInt8} (h : cutLine xs = (line, ys)) (hne : line ≠ []) :
    cutHeaders xs = (line :: (cutHeaders ys).1, (cutHeaders ys).2) := by
  rw [cutHeaders, dif_neg (by rwa [h]), h]

theorem cutHeaders_singleton {line : List UInt8} (h : ¬ crlf <:+: line) (hne : line ≠ []) (rest : List UInt8) :
    cutHeaders (line ++ (crlf ++ (crlf ++ rest))) = ([line], rest) := by
  have hnil : cutHeaders (crlf ++ rest) = ([], rest) := cutHeaders_nil (cutLine_crlf rest)
  rw [cutHeaders_cons (cutLine_append h _) hne, hnil]

theorem ne_nil_of_mem_cutHeaders {line : List UInt8} (h : line ∈ (cutHeaders xs).1) : line ≠ [] := by
  induction xs using cutHeaders.induct with
  | case1 xs hnil =>
      rw [cutHeaders, dif_pos hnil] at h
      cases h
  | case2 xs hne ih =>
      rw [cutHeaders, dif_neg hne] at h
      rcases List.mem_cons.mp h with rfl | h
      · exact hne
      · exact ih h

/-- What the loop has read for good, and what its line ends in: a carriage return may be the end of the line. -/
inductive Pending (xs : List UInt8) : (prev : UInt8) → (result kept ahead : List UInt8) → Prop where
  | plain {prev : UInt8} (h : prev ≠ carriageReturn) (kept : List UInt8) : Pending xs prev kept kept xs
  | half (kept : List UInt8) :
      Pending xs carriageReturn (kept ++ [carriageReturn]) kept (carriageReturn :: xs)

variable {kept ahead : List UInt8}

/-- A byte that does not end the line. -/
theorem Pending.next (h : Pending (x :: xs) prev result kept ahead) (hx : ¬ (x = lineFeed ∧ prev = carriageReturn)) :
    ∃ kept' ahead', Pending xs x (result ++ [x]) kept' ahead' ∧
      kept' ++ (cutLine ahead').1 = kept ++ (cutLine ahead).1 ∧ (cutLine ahead').2 = (cutLine ahead).2 := by
  by_cases hcr : x = carriageReturn
  · subst hcr
    cases h with
    | plain h => exact ⟨_, _, .half _, rfl, rfl⟩
    | half =>
        rw [cutLine_return_cons (by decide)]
        exact ⟨_, _, .half _, List.append_assoc .., rfl⟩
  · cases h with
    | plain h =>
        rw [cutLine_cons_of_ne hcr]
        exact ⟨_, _, .plain hcr _, List.append_assoc .., rfl⟩
    | half =>
        rw [cutLine_return_cons fun h => hx ⟨h, rfl⟩, cutLine_cons_of_ne hcr]
        exact ⟨_, _, .plain hcr _, by simp only [List.append_assoc, List.cons_append, List.nil_append], rfl⟩

theorem Pending.at_end (h : Pending [] prev result kept ahead) :
    result = kept ++ (cutLine ahead).1 ∧ (cutLine ahead).2 = [] := by
  cases h with
  | plain h => exact ⟨(List.append_nil _).symm, rfl⟩
  | half => exact ⟨rfl, rfl⟩

theorem Remains.untilCrlfLoop (h : Remains env xs s) (hp : Pending xs prev result kept ahead)
    (hrounds : xs.length < rounds) :
    (untilCrlfLoop env rounds prev result s).1 = kept ++ (cutLine ahead).1 ∧
      Remains env (cutLine ahead).2 (untilCrlfLoop env rounds prev result s).2 := by
  induction xs generalizing rounds prev result kept ahead s with
  | nil =>
      obtain ⟨rounds, rfl⟩ := Nat.exists_eq_add_of_lt hrounds
      obtain ⟨s', hcheck, hs'⟩ := h.check_nil
      obtain ⟨hresult, hrest⟩ := hp.at_end
      rw [Socket.untilCrlfLoop, hcheck]
      exact ⟨hresult, hrest ▸ hs'⟩
  | cons x xs ih =>
      obtain ⟨rounds, rfl⟩ := Nat.exists_eq_add_of_lt hrounds
      obtain ⟨s', hcheck, hx, hs'⟩ := h.check_cons
      rw [Socket.untilCrlfLoop, hcheck]
      subst hx
      dsimp only
      split
      · rename_i hend
        have hlf : s'.take.1 = lineFeed := hend.1
        cases hp with
        | plain h => exact absurd hend.2 h
        | half =>
            rw [hlf, cutLine_crlf, List.dropLast_concat, List.append_nil]
            exact ⟨rfl, hs'⟩
      · rename_i hgoes
        obtain ⟨kept', ahead', hp', hkept, hrest⟩ := hp.next hgoes
        rw [← hkept, ← hrest]
        exact ih hs' hp' (by rw [List.length_cons]; omega)

theorem Remains.readUntilCrlf (h : Remains env xs s) (hrounds : xs.length < rounds) :
    ∃ s', readUntilCrlf env rounds s = ((cutLine xs).1, s') ∧ Remains env (cutLine xs).2 s' := by
  obtain ⟨hline, hrest⟩ := h.untilCrlfLoop (@Pending.plain xs 97 (by decide) []) hrounds
  exact ⟨_, Prod.ext hline rfl, hrest⟩

theorem Remains.readBytes (h : Remains env xs s) (count : Nat) (buf : List UInt8) :
    (readBytes env count buf s).1 = buf ++ xs.take count := by
  induction count generalizing xs buf s with
  | zero => simp [Socket.readBytes]
  | succ count ih =>
      cases xs with
      | nil =>
          obtain ⟨s', hcheck, -⟩ := h.check_nil
          rw [Socket.readBytes, hcheck]
          exact (List.append_nil _).symm
      | cons x xs =>
          obtain ⟨s', hcheck, hx, hs'⟩ := h.check_cons
          rw [Socket.readBytes, hcheck]
          subst hx
          dsimp only
          rw [ih hs', List.take_succ_cons, List.append_assoc, List.singleton_append]

end Dwhbll.Network.Socket
