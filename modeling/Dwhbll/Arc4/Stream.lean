import Dwhbll.Lib.Lists

/-!
# `arc4` of `cryptography/arc4/arc4.cpp`

The array `S` has 256 bytes, so it is indexed by a byte. All arithmetic on the two counters is that of
`std::uint8_t`.
-/

namespace Dwhbll.Cryptography

structure Arc4 where
  S : UInt8 → UInt8
  keygenI : UInt8
  keygenJ : UInt8

namespace Arc4

/-- `std::swap(S[i], S[j])`. -/
def swap (S : UInt8 → UInt8) (i j : UInt8) : UInt8 → UInt8 :=
  fun k => if k = i then S j else if k = j then S i else S k

def keystreamNext (s : Arc4) : UInt8 × Arc4 :=
  let i := s.keygenI + 1
  let j := s.keygenJ + s.S i
  let S := swap s.S i j
  let t := S i + S j
  (S t, ⟨S, i, j⟩)

/-- The loops of the constructor. -/
def schedule (key : List UInt8) : Arc4 where
  S :=
    ((List.range 256).foldl
      (fun (S, j) i =>
        let j := j + S (UInt8.ofNat i) + key.getD (i % key.length) 0
        (swap S j (UInt8.ofNat i), j))
      (fun k => k, (0 : UInt8))).1
  keygenI := 0
  keygenJ := 0

/-- `arc4(key)`, with the text of the `std::range_error`. -/
def new (key : List UInt8) : Except String Arc4 :=
  if key.length > 256 ∨ key = [] then .error "ARC4 Key size not within range" else .ok (schedule key)

theorem new_eq_ok {key : List UInt8} (h1 : 1 ≤ key.length) (h256 : key.length ≤ 256) :
    new key = .ok (schedule key) := by
  refine if_neg ?_
  rintro (h | rfl)
  · omega
  · cases h1

def crypt (data : List UInt8) (s : Arc4) : List UInt8 × Arc4 :=
  (List.range data.length).foldl
    (fun (result, s) i => let (k, s) := s.keystreamNext; (result.set i (data.getD i 0 ^^^ k), s))
    (List.replicate data.length 0, s)

def cryptInplace (data : List UInt8) (s : Arc4) : List UInt8 × Arc4 :=
  (List.range data.length).foldl
    (fun (data, s) i => let (k, s) := s.keystreamNext; (data.set i (data.getD i 0 ^^^ k), s)) (data, s)

def drop (count : Nat) (s : Arc4) : Arc4 := (List.range count).foldl (fun s _ => s.keystreamNext.2) s

/-! ## Runs -/

inductive Call where
  | crypt (data : List UInt8)
  | cryptInplace (data : List UInt8)
  | drop (count : Nat)
  deriving DecidableEq, Repr

/-- The bytes that the call gives back, and the object after it. -/
def Call.run (s : Arc4) : Call → List UInt8 × Arc4
  | .crypt data => s.crypt data
  | .cryptInplace data => s.cryptInplace data
  | .drop count => ([], s.drop count)

/-- What the call takes from the stream, offset by offset; a dropped byte is nothing. -/
def Call.input : Call → List (Option UInt8)
  | .crypt data | .cryptInplace data => data.map some
  | .drop count => List.replicate count none

/-- What it makes of the stream, when it has given `bytes` back. -/
def Call.output (bytes : List UInt8) : Call → List (Option UInt8)
  | .crypt _ | .cryptInplace _ => bytes.map some
  | .drop count => List.replicate count none

def inputs (calls : List Call) : List (Option UInt8) := calls.flatMap Call.input

/-- What calls one after the other make of the stream. -/
def outputs (s : Arc4) : List Call → List (Option UInt8)
  | [] => []
  | c :: calls => c.output (c.run s).1 ++ outputs (c.run s).2 calls

/-! ## The keystream -/

/-- The object after `n` bytes of the keystream. -/
def after (s : Arc4) : Nat → Arc4
  | 0 => s
  | n + 1 => (s.after n).keystreamNext.2

/-- The byte of the keystream that comes after `k` others. -/
def nextByte (s : Arc4) (k : Nat) : UInt8 := (s.after k).keystreamNext.1

def keystream (key : List UInt8) (k : Nat) : UInt8 := (schedule key).nextByte k

variable {s : Arc4} {data : List UInt8}

theorem after_add (s : Arc4) (m n : Nat) : (s.after m).after n = s.after (m + n) := by
  induction n with
  | zero => rfl
  | succ n ih => rw [after, ih, ← Nat.add_assoc, after]

theorem nextByte_after (s : Arc4) (m k : Nat) : (s.after m).nextByte k = s.nextByte (m + k) := by
  rw [nextByte, nextByte, after_add]

theorem drop_eq (s : Arc4) (count : Nat) : s.drop count = s.after count := by
  induction count with
  | zero => rfl
  | succ n ih =>
      rw [drop] at ih ⊢
      rw [List.range_succ, List.foldl_append, ih]
      rfl

/-! ## One call -/

def masked (s : Arc4) (data : List UInt8) : List UInt8 := data.mapIdx fun k x => x ^^^ s.nextByte k

theorem masked_length (s : Arc4) (data : List UInt8) : (s.masked data).length = data.length :=
  List.length_mapIdx

theorem masked_take_succ {n : Nat} (hn : n < data.length) :
    (s.masked data).take n ++ [data.getD n 0 ^^^ s.nextByte n] = (s.masked data).take (n + 1) := by
  have hm : n < (s.masked data).length := by rw [masked_length]; exact hn
  have hd : data.getD n 0 = data[n] := by simp [hn]
  have hget : (s.masked data)[n] = data.getD n 0 ^^^ s.nextByte n := by
    rw [hd]
    exact List.getElem_mapIdx
  rw [List.take_succ_eq_append_getElem hm, hget]

theorem cryptLoop_eq {init : List UInt8} (hinit : init.length = data.length) {n : Nat} (hn : n ≤ data.length) :
    (List.range n).foldl
      (fun (result, s) i => let (k, s) := keystreamNext s; (result.set i (data.getD i 0 ^^^ k), s)) (init, s) =
      ((s.masked data).take n ++ init.drop n, s.after n) := by
  induction n with
  | zero => rfl
  | succ n ih =>
      have hlen : ((s.masked data).take n).length = n := by
        rw [List.length_take, masked_length]
        omega
      have hinit' : n < init.length := by omega
      have hset := Lists.set_append_drop hlen hinit' (data.getD n 0 ^^^ s.nextByte n)
      rw [masked_take_succ hn] at hset
      rw [List.range_succ, List.foldl_append, ih (by omega)]
      exact congrArg (·, s.after (n + 1)) hset

/-- The loop of `crypt_inplace` after `n` rounds: the bytes that it reads are not yet changed. -/
theorem cryptInplaceLoop_eq {n : Nat} (hn : n ≤ data.length) :
    (List.range n).foldl
      (fun (data, s) i => let (k, s) := keystreamNext s; (data.set i (data.getD i 0 ^^^ k), s)) (data, s) =
      ((s.masked data).take n ++ data.drop n, s.after n) := by
  induction n with
  | zero => rfl
  | succ n ih =>
      have hlen : ((s.masked data).take n).length = n := by
        rw [List.length_take, masked_length]
        omega
      have hread : ((s.masked data).take n ++ data.drop n).getD n 0 = data.getD n 0 := by
        rw [List.getD_eq_getElem?_getD, List.getElem?_append_right (Nat.le_of_eq hlen), hlen, Nat.sub_self,
          List.getElem?_drop, ← List.getD_eq_getElem?_getD]
        rfl
      have hdata : n < data.length := hn
      have hset := Lists.set_append_drop hlen hdata (data.getD n 0 ^^^ s.nextByte n)
      rw [masked_take_succ hn] at hset
      rw [List.range_succ, List.foldl_append, ih (by omega), List.foldl_cons, List.foldl_nil]
      dsimp only
      rw [hread]
      exact congrArg (·, s.after (n + 1)) hset

theorem crypt_eq (s : Arc4) (data : List UInt8) : s.crypt data = (s.masked data, s.after data.length) := by
  have hinit : (List.replicate data.length (0 : UInt8)).length = data.length := List.length_replicate
  have h := cryptLoop_eq (s := s) hinit (Nat.le_refl data.length)
  rw [List.take_of_length_le (Nat.le_of_eq (masked_length s data)), List.drop_of_length_le (Nat.le_of_eq hinit),
    List.append_nil] at h
  exact h

theorem cryptInplace_eq (s : Arc4) (data : List UInt8) :
    s.cryptInplace data = (s.masked data, s.after data.length) := by
  have h := cryptInplaceLoop_eq (s := s) (Nat.le_refl data.length)
  rw [List.take_of_length_le (Nat.le_of_eq (masked_length s data)), List.drop_length, List.append_nil] at h
  exact h

/-! ## Any division into calls -/

def overlay (s : Arc4) (xs : List (Option UInt8)) : List (Option UInt8) :=
  xs.mapIdx fun k x => x.map (· ^^^ s.nextByte k)

theorem overlay_append (s : Arc4) (xs ys : List (Option UInt8)) :
    s.overlay (xs ++ ys) = s.overlay xs ++ (s.after xs.length).overlay ys := by
  simp only [overlay, List.mapIdx_append, nextByte_after, Nat.add_comm]

theorem overlay_overlay (s : Arc4) (xs : List (Option UInt8)) : s.overlay (s.overlay xs) = xs := by
  rw [overlay, overlay, List.mapIdx_mapIdx]
  refine List.ext_getElem? fun k => ?_
  rw [List.getElem?_mapIdx]
  cases xs[k]? with
  | none => rfl
  | some x =>
      cases x with
      | none => rfl
      | some x => simp only [Function.comp_apply, Option.map_some, UInt8.xor_assoc, UInt8.xor_self, UInt8.xor_zero]

theorem overlay_some (s : Arc4) (data : List UInt8) : s.overlay (data.map some) = (s.masked data).map some := by
  refine List.ext_getElem? fun k => ?_
  simp only [overlay, masked, List.getElem?_mapIdx, List.getElem?_map]
  cases data[k]? <;> rfl

theorem overlay_none (s : Arc4) (n : Nat) : s.overlay (List.replicate n none) = List.replicate n none := by
  refine List.ext_getElem? fun k => ?_
  simp only [overlay, List.getElem?_mapIdx, List.getElem?_replicate]
  split <;> rfl

theorem Call.run_eq (s : Arc4) (c : Call) :
    c.output (c.run s).1 = s.overlay c.input ∧ (c.run s).2 = s.after c.input.length := by
  cases c with
  | crypt data =>
      simp only [Call.run, crypt_eq, Call.output, Call.input, overlay_some, List.length_map, and_self]
  | cryptInplace data =>
      simp only [Call.run, cryptInplace_eq, Call.output, Call.input, overlay_some, List.length_map, and_self]
  | drop count =>
      simp only [Call.run, drop_eq, Call.output, Call.input, overlay_none, List.length_replicate, and_self]

theorem outputs_eq (s : Arc4) (calls : List Call) : outputs s calls = s.overlay (inputs calls) := by
  induction calls generalizing s with
  | nil => rfl
  | cons c calls ih =>
      obtain ⟨hout, hafter⟩ := Call.run_eq s c
      rw [outputs, hout, hafter, ih, ← overlay_append]
      rfl

/-- The byte at each offset of the stream is combined with the byte of the keystream at that offset, however the
stream is divided into calls; calls that are given what other calls have made of a stream restore it. -/
theorem outputs_keystream {key : List UInt8} (h1 : 1 ≤ key.length) (h256 : key.length ≤ 256) :
    ∃ s, new key = .ok s ∧
      (∀ calls, outputs s calls = (inputs calls).mapIdx fun k x => x.map (· ^^^ keystream key k)) ∧
      (∀ calls calls', inputs calls' = outputs s calls → outputs s calls' = inputs calls) ∧
      ∀ (s' : Arc4) (data : List UInt8), s'.crypt data = s'.cryptInplace data := by
  refine ⟨schedule key, new_eq_ok h1 h256, fun calls => outputs_eq _ calls, ?_, ?_⟩
  · intro calls calls' h
    rw [outputs_eq, h, outputs_eq, overlay_overlay]
  · intro s' data
    rw [crypt_eq, cryptInplace_eq]

/-- Two bytes encrypted at once behind a dropped one are decrypted one by one. -/
theorem outputs_keystream_two : ∃ s, new [75, 101, 121] = .ok s ∧
    ∀ x y, outputs s [.drop 1, .crypt [1, 2]] = [none, some x, some y] →
      outputs s [.drop 1, .cryptInplace [x], .crypt [], .crypt [y]] = [none, some 1, some 2] := by
  have h1 : 1 ≤ ([75, 101, 121] : List UInt8).length := by decide
  obtain ⟨s, hs, -, hrestore, -⟩ := outputs_keystream h1 (by decide)
  exact ⟨s, hs, fun x y h => hrestore [.drop 1, .crypt [1, 2]] _ h.symm⟩

end Arc4

end Dwhbll.Cryptography
