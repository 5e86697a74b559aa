import Dwhbll.Files.Crlf

/-!
# `consume_any_whitespace` of `files/parse_utils.cpp`

It returns behind the first whitespace character, and looks at any other one again and again.
-/

namespace Dwhbll.Files.ParseUtils

open Collections Relational Transition

/-- `std::isspace` in the C locale. -/
def isSpace (c : UInt8) : Bool := c = 0x20 ∨ (0x09 ≤ c ∧ c ≤ 0x0D)

section

variable (feed : Nat → List UInt8) (mem : Nat → Nat → UInt8)

def consumeAnyWhitespace : (fuel : Nat) → M Unit
  | 0 => fun _ => none
  | fuel + 1 => do
      checkRefill feed mem
      let next ← peekU8
      if isSpace next then
        let _ ← readU8
        return
      else
        consumeAnyWhitespace fuel

/-- The states that any calls lead to, these among them. -/
def callSystem : System ParseUtils (Nat × Option Call) where
  init s := s = {}
  step s c s' := match c with
    | (fuel, some call) => ∃ r, call.run feed mem fuel s = some (r, s')
    | (fuel, none) => ∃ r, consumeAnyWhitespace feed mem fuel s = some (r, s')

end

/-- The stream has whitespace from `p` on, and another byte at `q`. -/
structure WhitespaceRun (stream : Nat → Option UInt8) (p q : Nat) : Prop where
  le : p ≤ q
  spaces : ∀ i, p ≤ i → i < q → ∃ x, stream i = some x ∧ isSpace x = true
  ended : ∃ x, stream q = some x ∧ isSpace x = false

variable {feed : Nat → List UInt8} {stream : Nat → Option UInt8} {mem : Nat → Nat → UInt8}
variable {s : ParseUtils} {p q : Nat} {x : UInt8}

theorem consumeAnyWhitespace_kept (hd : Divides feed stream) (fuel : Nat) :
    Kept feed (consumeAnyWhitespace feed mem fuel) := by
  induction fuel with
  | zero => exact .stuck
  | succ fuel ih =>
      refine (checkRefill_kept hd).bind fun _ => peekU8_kept.bind fun next => .ite (fun _ => ?_) fun _ => ih
      exact (readU8_kept hd).bind fun _ => .pure

theorem at_of_reachable (hd : Divides feed stream) (h : (callSystem feed mem).Reachable s) :
    At feed (consumed feed s) s := by
  have hinv : (callSystem feed mem).Invariant fun s => ∃ pos, Follows feed pos s := by
    refine ⟨?_, ?_⟩
    · rintro s rfl
      exact ⟨0, .start feed⟩
    · rintro s ⟨fuel, call⟩ s' hs hstep
      cases call with
      | some call =>
          obtain ⟨r, hrun⟩ := hstep
          exact call_kept hd fuel call s r s' hs hrun
      | none =>
          obtain ⟨r, hrun⟩ := hstep
          exact consumeAnyWhitespace_kept hd fuel s r s' hs hrun
  obtain ⟨pos, hpos⟩ := hinv.reachable h
  rw [hpos.consumed_eq]
  exact hpos.toAt

/-- Behind one character the call returns. -/
theorem consumeAnyWhitespace_space (mem : Nat → Nat → UInt8) (hd : Divides feed stream) (h : At feed p s)
    (hx : stream p = some x) (hspace : isSpace x = true) (fuel : Nat) :
    ∃ s', consumeAnyWhitespace feed mem (fuel + 1) s = some (.ok (), s') ∧ At feed (p + 1) s' := by
  obtain ⟨s₁, hcheck, hready⟩ := h.checkRefill_some mem hd hx
  obtain ⟨s₂, hread, h₂⟩ := hready.readU8
  refine ⟨s₂, ?_, h₂⟩
  rw [consumeAnyWhitespace, bind_ok hcheck, bind_ok hready.peekU8, if_pos hspace, bind_ok hread]
  rfl

/-- In front of any other character it does not. -/
theorem consumeAnyWhitespace_stuck (mem : Nat → Nat → UInt8) (hd : Divides feed stream) (h : At feed p s)
    (hx : stream p = some x) (hspace : isSpace x = false) (fuel : Nat) :
    consumeAnyWhitespace feed mem fuel s = none := by
  induction fuel generalizing s with
  | zero => rfl
  | succ fuel ih =>
      obtain ⟨s₁, hcheck, hready⟩ := h.checkRefill_some mem hd hx
      rw [consumeAnyWhitespace, bind_ok hcheck, bind_ok hready.peekU8, if_neg (by simp [hspace])]
      exact ih hready.1

/-- However the stream is divided, and whatever the calls were, the run of whitespace is consumed if and only if it is one
character long. -/
theorem consumeAnyWhitespace_iff (hd : Divides feed stream) (h : (callSystem feed mem).Reachable s)
    (hp : consumed feed s = p) (hrun : WhitespaceRun stream p q) :
    (∃ fuel s', consumeAnyWhitespace feed mem fuel s = some (.ok (), s') ∧ consumed feed s' = q) ↔ q = p + 1 := by
  have hat := hp ▸ at_of_reachable hd h
  rcases Nat.lt_or_eq_of_le hrun.le with hlt | rfl
  · obtain ⟨x, hx, hspace⟩ := hrun.spaces p (Nat.le_refl p) hlt
    have hone := consumeAnyWhitespace_space mem hd hat hx hspace
    constructor
    · rintro ⟨fuel, s', hcall, rfl⟩
      cases fuel with
      | zero => cases hcall
      | succ fuel =>
          obtain ⟨t, hcall', ht⟩ := hone fuel
          cases hcall.symm.trans hcall'
          exact ht.consumed_eq
    · rintro rfl
      obtain ⟨t, hcall, ht⟩ := hone 0
      exact ⟨1, t, hcall, ht.consumed_eq⟩
  · obtain ⟨x, hx, hspace⟩ := hrun.ended
    refine iff_of_false ?_ (Nat.ne_of_lt (Nat.lt_succ_self p))
    rintro ⟨fuel, s', hcall, -⟩
    rw [consumeAnyWhitespace_stuck mem hd hat hx hspace fuel] at hcall
    cases hcall

/-- A blank in front of a digit, in a refill of its own. -/
theorem consumeAnyWhitespace_iff_blank :
    ∃ fuel s', consumeAnyWhitespace (fun k => [[0x20], [0x32]].getD k []) (fun _ _ => 0) fuel {} = some (.ok (), s') ∧
      consumed (fun k => [[0x20], [0x32]].getD k []) s' = 1 := by
  have hd : Divides (fun k => [[0x20], [0x32]].getD k []) fun i => [0x20, 0x32][i]? := divides_chunks (by simp) (by simp)
  have hrun : WhitespaceRun (fun i => [0x20, 0x32][i]?) 0 1 := by
    refine ⟨by decide, fun i _ hi => ?_, ⟨0x32, rfl, rfl⟩⟩
    rw [Nat.lt_one_iff.mp hi]
    exact ⟨0x20, rfl, rfl⟩
  exact (consumeAnyWhitespace_iff hd (.init rfl) rfl hrun).mpr rfl

/-- With no blank the call does not return; of two blanks it consumes one. -/
theorem no_whitespace_hangs :
    (Divides (fun k => [[0x32]].getD k []) (fun i => [0x32][i]?) ∧ WhitespaceRun (fun i => [0x32][i]?) 0 0 ∧
      ∀ fuel, consumeAnyWhitespace (fun k => [[0x32]].getD k []) (fun _ _ => 0) fuel {} = none) ∧
    (consumeAnyWhitespace (fun k => [[0x20, 0x20, 0x32]].getD k []) (fun _ _ => 0) 5 {}).map
      (fun (r, s) => (r, consumed (fun k => [[0x20, 0x20, 0x32]].getD k []) s)) = some (.ok (), 1) := by
  have hd : Divides (fun k => [[0x32]].getD k []) fun i => [0x32][i]? := divides_chunks (by simp) (by simp)
  refine ⟨⟨hd, ⟨Nat.le_refl 0, fun i _ hi => absurd hi (Nat.not_lt_zero i), ⟨0x32, rfl, rfl⟩⟩, fun fuel => ?_⟩,
    by decide +kernel⟩
  exact consumeAnyWhitespace_stuck (fun _ _ => 0) hd (.start _) (show [0x32][0]? = some 0x32 from rfl) rfl fuel

end Dwhbll.Files.ParseUtils
