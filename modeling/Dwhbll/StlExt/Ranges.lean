import Dwhbll.Lib.Lists
import Dwhbll.Lib.Selection
import Mathlib.Algebra.Group.Int.Defs
import Mathlib.Algebra.Group.Nat.Defs
import Mathlib.Data.List.Sort

/-!
# Erasing elements by their indices: `stl_ext/ranges.h`

The elements that stay are moved to the front of the container. `moved` is what a move leaves of an element. The
indices are of any integral type, and are compared as the `std::size_t` that they are converted to.
-/

namespace Dwhbll.StlExt

open Selection

variable {α : Type}

/-- The container with `write_head` and `to_remove_head`. -/
structure Erasure (α : Type) where
  container : List α
  writeHead : Nat
  toRemoveHead : Nat

namespace Erasure

/-- The index that `to_remove_head` is at, or in front of. -/
def next (eraseIndex : List Nat) (ascending : Bool) (s : Erasure α) : Option Nat :=
  if ascending then if s.toRemoveHead ≠ eraseIndex.length then eraseIndex[s.toRemoveHead]? else none
  else if s.toRemoveHead ≠ 0 then eraseIndex[s.toRemoveHead - 1]? else none

/-- `container[target] = std::move(container[source])`. -/
def move (moved : α → α) (source target : Nat) (container : List α) : List α :=
  match container[source]? with
  | none => container
  | some x => (container.set source (moved x)).set target x

/-- `to_remove_head` moves on. -/
def advance (ascending : Bool) (s : Erasure α) : Erasure α :=
  { s with toRemoveHead := if ascending then s.toRemoveHead + 1 else s.toRemoveHead - 1 }

/-- The body of the loop, which always moves `read_head` on. -/
def round (moved : α → α) (eraseIndex : List Nat) (ascending : Bool) (s : Erasure α) (readHead : Nat) : Erasure α :=
  if s.next eraseIndex ascending = some readHead then s.advance ascending
  else
    { s with
      container := if s.writeHead ≠ readHead then move moved readHead s.writeHead s.container else s.container
      writeHead := s.writeHead + 1 }

end Erasure

/-- For indices that are a `std::size_t`. -/
def eraseInplaceWithSortedIndexList (moved : α → α) (container : List α) (eraseIndex : List Nat) (ascending : Bool) :
    List α :=
  let s := (List.range container.length).foldl (Erasure.round moved eraseIndex ascending)
    ⟨container, 0, if ascending then 0 else eraseIndex.length⟩
  s.container.take s.writeHead

/-- The container, and the index list, which is sorted in place. -/
def eraseInplaceWithUnsortedIndexList (moved : α → α) (container : List α) (eraseIndex : List Nat) :
    List α × List Nat :=
  let eraseIndex := eraseIndex.insertionSort (· ≤ ·)
  (eraseInplaceWithSortedIndexList moved container eraseIndex true, eraseIndex)

/-! ## One round -/

namespace Erasure

variable {moved : α → α} {eraseIndex ps : List Nat} {ascending : Bool} {s : Erasure α} {r p : Nat} {x : α} {xs : List α}

/-- The indices that are left, the smallest one first if the list is sorted as `ascending` says. -/
def pending (eraseIndex : List Nat) (ascending : Bool) (s : Erasure α) : List Nat :=
  if ascending then eraseIndex.drop s.toRemoveHead else (eraseIndex.take s.toRemoveHead).reverse

theorem next_eq (h : s.toRemoveHead ≤ eraseIndex.length) :
    s.next eraseIndex ascending = (s.pending eraseIndex ascending).head? := by
  cases ascending with
  | true =>
      simp only [next, pending, if_true, List.head?_drop]
      split
      · rfl
      · rename_i hall
        rw [List.getElem?_eq_none (by omega)]
  | false =>
      simp only [next, pending, Bool.false_eq_true, if_false, List.head?_reverse, List.getLast?_take]
      split
      · rename_i hne
        rw [List.getElem?_eq_getElem (by omega)]
        rfl
      · rename_i hzero
        rw [if_pos (not_not.mp hzero)]

/-- Behind an index that was found. -/
theorem pending_advance (h : s.toRemoveHead ≤ eraseIndex.length) (hp : s.pending eraseIndex ascending = p :: ps) :
    (s.advance ascending).toRemoveHead ≤ eraseIndex.length ∧ (s.advance ascending).pending eraseIndex ascending = ps := by
  cases ascending with
  | true =>
      simp only [pending, advance, if_true] at hp ⊢
      exact ⟨Lists.lt_of_drop hp, Lists.drop_succ_of_drop hp⟩
  | false =>
      simp only [pending, advance, Bool.false_eq_true, if_false] at hp ⊢
      refine ⟨Nat.le_trans (Nat.sub_le ..) h, ?_⟩
      have htail := congrArg List.tail hp
      rw [List.tail_reverse, List.tail_cons] at htail
      rw [← htail, List.dropLast_eq_take, List.take_take, List.length_take, Nat.min_eq_left h,
        Nat.min_eq_left (Nat.sub_le ..)]

variable (moved) in
/-- An element that stays. -/
theorem move_spec (hw : s.writeHead ≤ r) (hx : s.container.drop r = x :: xs) :
    let container := if s.writeHead ≠ r then move moved r s.writeHead s.container else s.container
    container.take (s.writeHead + 1) = s.container.take s.writeHead ++ [x] ∧ container.drop (r + 1) = xs := by
  have hr := Lists.getElem?_of_drop hx
  have hlt := Lists.lt_of_drop hx
  have hdrop := Lists.drop_succ_of_drop hx
  split
  · rename_i hne
    have hlt' : s.writeHead < r := Nat.lt_of_le_of_ne hw hne
    simp only [move, hr]
    constructor
    · rw [List.take_add_one, List.getElem?_set_self (by rw [List.length_set]; omega),
        List.take_set_of_le (Nat.le_refl _), List.take_set_of_le (Nat.le_of_lt hlt')]
      rfl
    · rw [List.drop_set_of_lt (by omega), List.drop_set_of_lt (by omega), hdrop]
  · rename_i heq
    rw [not_not.mp heq]
    exact ⟨by rw [List.take_add_one, hr]; rfl, hdrop⟩

variable (moved ascending) in
/-- What the rounds from `r` on leave in front of `write_head`. -/
theorem foldl_round (h : s.toRemoveHead ≤ eraseIndex.length) (hw : s.writeHead ≤ r) (hx : s.container.drop r = xs) :
    let s' := (List.range' r xs.length).foldl (round moved eraseIndex ascending) s
    s'.container.take s'.writeHead = s.container.take s.writeHead ++ strike (s.pending eraseIndex ascending) r xs := by
  induction xs generalizing s r with
  | nil => cases h : s.pending eraseIndex ascending <;> simp [strike]
  | cons x xs ih =>
      rw [List.length_cons, List.range'_succ, List.foldl_cons]
      by_cases hnext : (s.pending eraseIndex ascending).head? = some r
      · obtain ⟨ps, hps⟩ := List.head?_eq_some_iff.mp hnext
        obtain ⟨hle, hpending⟩ := pending_advance h hps
        rw [round, if_pos ((next_eq h).trans hnext), hps, strike_cons_self]
        have hrest := ih (s := s.advance ascending) hle (Nat.le_succ_of_le hw) (Lists.drop_succ_of_drop hx)
        rwa [hpending] at hrest
      · obtain ⟨htake, hdrop⟩ := move_spec moved hw hx
        rw [round, if_neg (by rwa [next_eq h]), strike_cons_of_head_ne hnext, ← List.singleton_append,
          ← List.append_assoc, ← htake]
        exact ih (s := { s with container := _, writeHead := s.writeHead + 1 }) h (Nat.succ_le_succ hw) hdrop

end Erasure

/-! ## The whole container -/

variable (moved : α → α) (container : List α) (eraseIndex : List Nat)

theorem eraseInplaceWithSortedIndexList_eq (ascending : Bool) :
    eraseInplaceWithSortedIndexList moved container eraseIndex ascending =
      strike (if ascending then eraseIndex else eraseIndex.reverse) 0 container := by
  have hle : (if ascending then 0 else eraseIndex.length) ≤ eraseIndex.length := by
    split
    · exact Nat.zero_le _
    · exact Nat.le_refl _
  have hrounds := Erasure.foldl_round moved ascending
    (s := ⟨container, 0, if ascending then 0 else eraseIndex.length⟩) hle (Nat.le_refl 0) List.drop_zero
  rw [← List.range_eq_range'] at hrounds
  refine hrounds.trans ?_
  cases ascending with
  | true => simp [Erasure.pending]
  | false => simp [Erasure.pending]

/-! ## Indices of a signed type -/

/-- An index as the comparison with `read_head` converts it. -/
def toSize (index : Int) : Nat := (index % 2 ^ 64).toNat

namespace Integral

/-- The indices are read in that comparison only. -/
def eraseInplaceWithSortedIndexList (moved : α → α) (container : List α) (eraseIndex : List Int) (ascending : Bool) :
    List α :=
  StlExt.eraseInplaceWithSortedIndexList moved container (eraseIndex.map toSize) ascending

/-- The elements whose index is not in the list. -/
def others (eraseIndex : List Int) (container : List α) : List α :=
  (container.zipIdx.filter fun q => (q.2 : Int) ∉ eraseIndex).map Prod.fst

/-- No negative index is in the list together with one inside a container of that length. -/
def OneSided (eraseIndex : List Int) (length : Nat) : Prop :=
  ∀ i ∈ eraseIndex, i < 0 → ∀ j ∈ eraseIndex, 0 ≤ j → (length : Int) ≤ j

instance (eraseIndex : List Int) (length : Nat) : Decidable (OneSided eraseIndex length) :=
  inferInstanceAs (Decidable (∀ i ∈ eraseIndex, i < 0 → ∀ j ∈ eraseIndex, 0 ≤ j → (length : Int) ≤ j))

end Integral

theorem toSize_of_nonneg {i : Int} (h0 : 0 ≤ i) (h : i < 2 ^ 64) : toSize i = i.toNat := by
  rw [toSize, Int.emod_eq_of_lt h0 h]

/-- A negative index is behind every container. -/
theorem le_toSize_of_neg {i : Int} (h : -2 ^ 63 ≤ i) (h0 : i < 0) : 2 ^ 63 ≤ toSize i := by
  rw [toSize]
  omega

namespace Integral

variable {moved container} {eraseIndex : List Int}

theorem others_congr {eraseIndex' : List Int} (h : ∀ i, i ∈ eraseIndex ↔ i ∈ eraseIndex') :
    others eraseIndex container = others eraseIndex' container := by
  unfold others
  congr 1
  exact List.filter_congr fun q _ => by rw [decide_eq_decide, h]

/-- An index that the conversion keeps is one of the list, and a negative one is none of a container. -/
theorem others_eq_without (hrange : ∀ i ∈ eraseIndex, -2 ^ 63 ≤ i ∧ i < 2 ^ 64) (hsize : container.length ≤ 2 ^ 63) :
    others eraseIndex container = without (eraseIndex.map toSize) 0 container := by
  unfold others without
  congr 1
  refine List.filter_congr fun q hq => ?_
  have hlt := List.snd_lt_of_mem_zipIdx hq
  rw [decide_eq_decide, List.mem_map]
  refine not_congr ⟨fun hmem => ⟨_, hmem, ?_⟩, ?_⟩
  · rw [toSize_of_nonneg (Int.natCast_nonneg _) (by omega), Int.toNat_natCast]
  · rintro ⟨i, hi, heq⟩
    obtain ⟨hlow, hhigh⟩ := hrange i hi
    rcases Int.lt_or_le i 0 with hneg | h0
    · have := le_toSize_of_neg hlow hneg
      omega
    · rw [toSize_of_nonneg h0 hhigh] at heq
      rwa [← heq, Int.toNat_of_nonneg h0]

theorem pairwise_map_toSize (hrange : ∀ i ∈ eraseIndex, 0 ≤ i ∧ i < 2 ^ 64) (hsorted : eraseIndex.Pairwise (· < ·)) :
    (eraseIndex.map toSize).Pairwise (· < ·) := by
  refine List.pairwise_map.mpr (hsorted.imp_of_mem fun {i j} hi hj hij => ?_)
  obtain ⟨hi0, hi⟩ := hrange i hi
  obtain ⟨hj0, hj⟩ := hrange j hj
  rw [toSize_of_nonneg hi0 hi, toSize_of_nonneg hj0 hj]
  omega

/-- A negative index is the first one to be waited for, and no element is at it. -/
theorem strike_of_neg (hrange : ∀ i ∈ eraseIndex, -2 ^ 63 ≤ i ∧ i < 2 ^ 64) (hsize : container.length ≤ 2 ^ 63)
    (hsorted : eraseIndex.Pairwise (· < ·)) {i : Int} (hi : i ∈ eraseIndex) (hneg : i < 0) :
    strike (eraseIndex.map toSize) 0 container = container := by
  cases eraseIndex with
  | nil => cases hi
  | cons first rest =>
      obtain ⟨hfirst, -⟩ := List.pairwise_cons.mp hsorted
      have hle : first ≤ i := by
        rcases List.mem_cons.mp hi with rfl | hi
        · exact Int.le_refl i
        · exact Int.le_of_lt (hfirst i hi)
      have hbehind := le_toSize_of_neg (hrange first List.mem_cons_self).1 (Int.lt_of_le_of_lt hle hneg)
      rw [List.map_cons, strike_of_behind (by omega)]

theorem others_eq_self_iff (hrange : ∀ i ∈ eraseIndex, -2 ^ 63 ≤ i ∧ i < 2 ^ 64) (hsize : container.length ≤ 2 ^ 63) :
    others eraseIndex container = container ↔ ∀ j ∈ eraseIndex, 0 ≤ j → (container.length : Int) ≤ j := by
  rw [others_eq_without hrange hsize, without_eq_self_iff]
  constructor
  · intro hout j hj h0
    have hle := hout (toSize j) (List.mem_map_of_mem hj) (Nat.zero_le _)
    rw [toSize_of_nonneg h0 (hrange j hj).2] at hle
    omega
  · intro hout p hp _
    obtain ⟨j, hj, rfl⟩ := List.mem_map.mp hp
    rcases Int.lt_or_le j 0 with hneg | h0
    · have := le_toSize_of_neg (hrange j hj).1 hneg
      omega
    · have := hout j hj h0
      rw [toSize_of_nonneg h0 (hrange j hj).2]
      omega

theorem strike_map_toSize_iff (hrange : ∀ i ∈ eraseIndex, -2 ^ 63 ≤ i ∧ i < 2 ^ 64) (hsize : container.length ≤ 2 ^ 63)
    (hsorted : eraseIndex.Pairwise (· < ·)) :
    strike (eraseIndex.map toSize) 0 container = others eraseIndex container ↔ OneSided eraseIndex container.length := by
  by_cases hneg : ∃ i ∈ eraseIndex, i < 0
  · obtain ⟨i, hi, hlt⟩ := hneg
    rw [strike_of_neg hrange hsize hsorted hi hlt, eq_comm, others_eq_self_iff hrange hsize]
    exact ⟨fun hout _ _ _ => hout, fun hone => hone i hi hlt⟩
  · push Not at hneg
    rw [others_eq_without hrange hsize]
    have hsorted' := pairwise_map_toSize (fun i hi => ⟨hneg i hi, (hrange i hi).2⟩) hsorted
    refine iff_of_true (strike_eq_without hsorted' container) fun i hi hlt => ?_
    exact absurd (hneg i hi) (Int.not_le.mpr hlt)

variable (moved) in
/-- For the values of every integral type of at most 64 bits, and a container that is not larger than any can be: what
stays is the elements whose index is not in the list if and only if it does not have a negative index together with one
inside the container. -/
theorem eraseInplaceWithSortedIndexList_iff (hrange : ∀ i ∈ eraseIndex, -2 ^ 63 ≤ i ∧ i < 2 ^ 64)
    (hsize : container.length ≤ 2 ^ 63) :
    (eraseIndex.Pairwise (· < ·) →
      (eraseInplaceWithSortedIndexList moved container eraseIndex true = others eraseIndex container ↔
        OneSided eraseIndex container.length)) ∧
    (eraseIndex.Pairwise (· > ·) →
      (eraseInplaceWithSortedIndexList moved container eraseIndex false = others eraseIndex container ↔
        OneSided eraseIndex container.length)) := by
  constructor
  · intro hsorted
    rw [eraseInplaceWithSortedIndexList, eraseInplaceWithSortedIndexList_eq, if_pos rfl]
    exact strike_map_toSize_iff hrange hsize hsorted
  · intro hsorted
    have hrange' : ∀ i ∈ eraseIndex.reverse, -2 ^ 63 ≤ i ∧ i < 2 ^ 64 := fun i hi => hrange i (List.mem_reverse.mp hi)
    have hreverse := strike_map_toSize_iff hrange' hsize (List.pairwise_reverse.mpr hsorted)
    rw [List.map_reverse, others_congr fun i => List.mem_reverse] at hreverse
    rw [eraseInplaceWithSortedIndexList, eraseInplaceWithSortedIndexList_eq, if_neg Bool.false_ne_true, hreverse]
    simp only [OneSided, List.mem_reverse]

/-- Two indices from either end with one that is behind the container, in both orders, and a negative one with two that
are behind it. -/
theorem eraseInplaceWithSortedIndexList_iff_both :
    eraseInplaceWithSortedIndexList id [7, 8, 9] [0, 2, 5] true = others [0, 2, 5] [7, 8, 9] ∧
      eraseInplaceWithSortedIndexList id [7, 8, 9] [5, 2, 0] false = others [5, 2, 0] [7, 8, 9] ∧
      eraseInplaceWithSortedIndexList id [7, 8, 9] [-1, 3, 5] true = others [-1, 3, 5] [7, 8, 9] :=
  ⟨((eraseInplaceWithSortedIndexList_iff id (by decide) (by decide)).1 (by decide)).mpr (by decide),
    ((eraseInplaceWithSortedIndexList_iff id (by decide) (by decide)).2 (by decide)).mpr (by decide),
    ((eraseInplaceWithSortedIndexList_iff id (by decide) (by decide)).1 (by decide)).mpr (by decide)⟩

/-- The cursor waits at -1 for good, and the first element is not erased. -/
theorem negative_index_blocks :
    [-1, 0].Pairwise (fun i j : Int => i < j) ∧
      eraseInplaceWithSortedIndexList id [7, 8, 9] [-1, 0] true = [7, 8, 9] ∧ others [-1, 0] [7, 8, 9] = [8, 9] ∧
      eraseInplaceWithSortedIndexList id [7, 8, 9] [-1, 0] true ≠ others [-1, 0] [7, 8, 9] := by
  decide

end Integral

/-! ## Indices in any order -/

/-- In a list in any order an index that is there twice must not stand in front of another one in the container. -/
theorem eraseInplaceWithUnsortedIndexList_iff :
    (eraseInplaceWithUnsortedIndexList moved container eraseIndex).1 = without eraseIndex 0 container ↔
      Unblocked eraseIndex container.length := by
  have hperm : (eraseIndex.insertionSort (· ≤ ·)).Perm eraseIndex := List.perm_insertionSort _ eraseIndex
  have hsorted : (eraseIndex.insertionSort (· ≤ ·)).Pairwise (· ≤ ·) := List.pairwise_insertionSort _ eraseIndex
  have hwithout : without eraseIndex 0 container = without (eraseIndex.insertionSort (· ≤ ·)) 0 container :=
    without_congr (fun i _ => hperm.mem_iff.symm) container
  rw [hwithout, eraseInplaceWithUnsortedIndexList, eraseInplaceWithSortedIndexList_eq, if_pos rfl,
    strike_eq_without_iff hsorted (fun p _ => Nat.zero_le p), Nat.zero_add]
  exact ⟨fun h => h.perm hperm, fun h => h.perm hperm.symm⟩

/-- An index that is given twice: the larger one is not erased. -/
theorem repeated_index_blocks :
    (eraseInplaceWithUnsortedIndexList id [7, 8, 9] [2, 0, 0]).1 = [8, 9] ∧ without [2, 0, 0] 0 [7, 8, 9] = [8] := by
  decide

end Dwhbll.StlExt
