import Mathlib.Data.List.Basic

/-!
# Words that stand for sets

Each element has a bit of its own, and the mask of some elements has their bits.
-/

namespace Masks

variable {ι : Type} {w i : Nat} {option : ι → BitVec w} {xs ys : List ι} {x : ι}

def mask (option : ι → BitVec w) (xs : List ι) : BitVec w := xs.foldr (fun x m => option x ||| m) 0

@[simp] theorem mask_singleton (option : ι → BitVec w) (x : ι) : mask option [x] = option x := BitVec.or_zero

theorem getLsbD_mask : (mask option xs).getLsbD i = xs.any fun x => (option x).getLsbD i := by
  induction xs with
  | nil => simp [mask]
  | cons x xs ih => rw [List.any_cons, ← ih, mask, List.foldr_cons, BitVec.getLsbD_or, mask]

/-- The bits of the elements. -/
structure Bits (option : ι → BitVec w) (bit : ι → Nat) : Prop where
  own : ∀ x i, (option x).getLsbD i = true ↔ i = bit x
  inj : ∀ x y, bit x = bit y → x = y

variable {bit : ι → Nat}

theorem Bits.getLsbD_bit (h : Bits option bit) : (mask option xs).getLsbD (bit x) = true ↔ x ∈ xs := by
  rw [getLsbD_mask, List.any_eq_true]
  constructor
  · rintro ⟨y, hy, hbit⟩
    rwa [h.inj x y ((h.own y _).mp hbit)]
  · intro hx
    exact ⟨x, hx, (h.own x _).mpr rfl⟩

/-- Masks are equal if and only if they stand for the same set. -/
theorem Bits.mask_eq_iff (h : Bits option bit) : mask option xs = mask option ys ↔ ∀ x, x ∈ xs ↔ x ∈ ys := by
  constructor
  · intro heq x
    rw [← h.getLsbD_bit, heq, h.getLsbD_bit]
  · intro hsame
    refine BitVec.eq_of_getLsbD_eq fun i _ => ?_
    rw [getLsbD_mask, getLsbD_mask, Bool.eq_iff_iff, List.any_eq_true, List.any_eq_true]
    exact exists_congr fun x => and_congr_left fun _ => hsame x

end Masks
