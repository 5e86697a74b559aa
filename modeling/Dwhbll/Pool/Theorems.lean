import Dwhbll.Pool.Lemmas

/-!
# Theorems about pools
-/

namespace Dwhbll.Memory.Pool

open Transition

variable {T : Type} [Inhabited T] {B : Nat} {w : World T B} {op : Op T}

/-! ## One operation -/

theorem run_acquire (h : Inv w) (hB : 1 ≤ B) (v : T) :
    ∃ b i os', ¬ Used w.pool.objects b i ∧ Flips B w.pool.slots os' b i true ∧
      Op.run w (.acquire (some v)) =
        (.ok (some (.slot b i)),
          ⟨{ objects := os'
             available := w.pool.available - 1
             size := if w.pool.available = 0 then w.pool.size + B else w.pool.size
             returning := fun q => if q = .slot b i then some (b, i) else w.pool.returning q },
            w.outstanding ++ [.slot b i]⟩) := by
  obtain ⟨b, i, os', hu, hf, heq⟩ := acquire_spec v hB h.objects fun _ => h.free hB
  exact ⟨b, i, os', hu, hf, by simp only [Op.run, heq]⟩

/-- An `offer` gives back a slot that is outstanding, or changes nothing. -/
theorem run_offer (h : Inv w) (q : Ptr) :
    (∃ b i os', q = .slot b i ∧ Used w.pool.objects b i ∧ Flips B w.pool.objects os' b i false ∧
      (Op.run w (.offer q)).2 =
        ⟨{ w.pool with
            objects := os'
            returning := fun q => if q = .slot b i then none else w.pool.returning q
            available := w.pool.available + 1 },
          w.outstanding.erase (.slot b i)⟩) ∨
      q ∉ w.outstanding ∧ (Op.run w (.offer q)).2 = w := by
  by_cases hq : q ∈ w.outstanding
  · left
    obtain ⟨b, i, rfl, hu⟩ := (h.outstanding q).mp hq
    obtain ⟨os', hf, heq⟩ := offer_spec h.objects ((h.returning _ b i).mpr ⟨rfl, hu⟩) hu
    exact ⟨b, i, os', rfl, hu, hf, by simp only [Op.run, heq]⟩
  · refine .inr ⟨hq, ?_⟩
    by_cases hnull : q = .null
    · simp only [Op.run, offer, hnull, if_true]
      rw [List.erase_of_not_mem (hnull ▸ hq)]
    · simp only [Op.run, offer_refused hnull (h.returning_none hq)]

theorem Op.run_inv (hB : 1 ≤ B) (h : Inv w) (hc : op.Constructs) : Inv (op.run w).2 := by
  cases op with
  | acquire value =>
      obtain ⟨v, rfl⟩ := Option.isSome_iff_exists.mp hc
      obtain ⟨b, i, os', hu, hf, heq⟩ := run_acquire h hB v
      rw [heq]
      exact h.acquire hB hu hf
  | offer q =>
      rcases run_offer h q with ⟨b, i, os', rfl, hu, hf, heq⟩ | ⟨-, heq⟩
      · rw [heq]
        exact h.offer hu hf
      · rw [heq]
        exact h

/-! ## Bookkeeping -/

/-- The four records of the pool agree, and the operations do with them what they are for. -/
structure Bookkept (w : World T B) : Prop where
  blockAvailable : ∀ o ∈ w.pool.objects, o.used.length = B ∧ o.blockAvailable = o.used.count false
  returning : ∀ q b i, w.pool.returning q = some (b, i) ↔ q = .slot b i ∧ Used w.pool.objects b i
  available_le : w.pool.available ≤ flags false w.pool.objects
  outstanding : w.outstanding.Nodup ∧
    ∀ q, q ∈ w.outstanding ↔ ∃ b i, q = .slot b i ∧ Used w.pool.objects b i
  acquire : ∀ v : T, ∃ b i pool, w.pool.acquire (some v) = (.ok (.slot b i), pool) ∧
    ¬ Used w.pool.objects b i ∧ .slot b i ∉ w.outstanding
  offer : ∀ q, q ≠ .null → q ∉ w.outstanding →
    w.pool.offer q = (.error (.runtimeError "Object was not allocated in the pool!"), w.pool)

theorem Inv.bookkept (h : Inv w) (hB : 1 ≤ B) : Bookkept w where
  blockAvailable o ho := ⟨(h.objects o ho).length, (h.objects o ho).blockAvailable⟩
  returning := h.returning
  available_le := Nat.le_trans (Nat.le_add_right ..) h.unused
  outstanding := ⟨h.nodup, h.outstanding⟩
  acquire v := by
    obtain ⟨b, i, os', hu, -, heq⟩ := acquire_spec v hB h.objects fun _ => h.free hB
    exact ⟨b, i, _, heq, hu, h.not_mem hu⟩
  offer q hq hout := offer_refused hq (h.returning_none hout)

/-- In every run of operations whose objects are constructed without an exception, the records agree. -/
theorem reachable_bookkept (hB : 1 ≤ B) {defaultSize : Nat}
    (h : ((system B defaultSize).restrict fun _ op => op.Constructs).Reachable w) : Bookkept w := by
  have hinv : ((system B defaultSize).restrict fun _ (op : Op T) => op.Constructs).Invariant Inv := by
    refine ⟨?_, ?_⟩
    · rintro s rfl
      exact new_inv B defaultSize
    · rintro s op s' hs ⟨hc, rfl⟩
      exact Op.run_inv hB hs hc
  exact (hinv.reachable h).bookkept hB

/-- Two blocks of one slot, of which one is counted: the second `acquire` makes a new block. -/
theorem reachable_bookkept_grown : ∃ w : World Nat 1, w.pool.objects.length = 3 ∧ Bookkept w := by
  have hr : ((system 1 1).restrict fun _ (op : Op Nat) => op.Constructs).Reachable
      (Op.run (Op.run (World.new 1 1) (.acquire (some 5))).2 (.acquire (some 6))).2 :=
    .step (i := .acquire (some 6)) (.step (i := .acquire (some 5)) (.init rfl) ⟨rfl, rfl⟩) ⟨rfl, rfl⟩
  exact ⟨_, rfl, reachable_bookkept (by decide) hr⟩

/-! ## What is counted as used -/

/-- `used_size()` is the number of objects that are outstanding. -/
def Exact (w : World T B) : Prop := w.pool.usedSize = w.outstanding.length

/-- `used_size()` is right before the operation, and that makes a new block only where every slot is in use. -/
def Sound (w : World T B) (op : Op T) : Prop :=
  Exact w ∧ ((op.run w).2.pool.objects.length ≠ w.pool.objects.length → flags false w.pool.objects = 0)

/-- An object is constructed while fewer than `n` are outstanding. -/
def Fits (n : Nat) (w : World T B) : Op T → Prop
  | .acquire value => value.isSome ∧ w.outstanding.length < n
  | .offer _ => True

/-- The pool has not grown, and its counters agree with the outstanding objects. -/
structure Level (n : Nat) (w : World T B) : Prop where
  size : w.pool.size = n
  available : w.pool.available + w.outstanding.length = n

variable {n : Nat}

omit [Inhabited T] in
theorem Level.exact (h : Level n w) : Exact w := by
  have h1 := h.size
  have h2 := h.available
  simp only [Exact, usedSize]
  omega

omit [Inhabited T] in
theorem Fits.constructs (h : Fits n w op) : op.Constructs := by
  cases op with
  | acquire value => exact h.1
  | offer q => trivial

theorem Level.step (hB : 1 ≤ B) (hi : Inv w) (h : Level n w) (hf : Fits n w op) :
    Level n (op.run w).2 ∧ (op.run w).2.pool.objects.length = w.pool.objects.length := by
  have h1 := h.size
  have h2 := h.available
  cases op with
  | acquire value =>
      obtain ⟨v, rfl⟩ := Option.isSome_iff_exists.mp hf.1
      have hlt : w.outstanding.length < n := hf.2
      have hne : w.pool.available ≠ 0 := by omega
      obtain ⟨b, i, os', -, hflips, heq⟩ := run_acquire hi hB v
      rw [heq]
      refine ⟨⟨?_, ?_⟩, ?_⟩
      · simp only [if_neg hne]
        exact h1
      · simp only [List.length_append, List.length_singleton]
        omega
      · show os'.length = w.pool.objects.length
        rw [hflips.length, slots_length, if_neg hne, Nat.add_zero]
  | offer q =>
      rcases run_offer hi q with ⟨b, i, os', rfl, hu, hflips, heq⟩ | ⟨-, heq⟩
      · rw [heq]
        have hmem : Ptr.slot b i ∈ w.outstanding := (hi.outstanding _).mpr ⟨b, i, rfl, hu⟩
        have hlen := List.length_erase_of_mem hmem
        have hpos := List.length_pos_of_mem hmem
        refine ⟨⟨h1, ?_⟩, hflips.length⟩
        simp only [hlen]
        omega
      · rw [heq]
        exact ⟨h, rfl⟩

/-- With nothing available `acquire` makes a block, whether its object is constructed or not. -/
theorem run_acquire_grows (value : Option T) (h0 : w.pool.available = 0) :
    (Op.run w (.acquire value)).2.pool.objects.length = w.pool.objects.length + 1 := by
  cases value with
  | none => simp [Op.run, Pool.acquire, h0, construct, makeNew]
  | some v => simp [Op.run, Pool.acquire, h0, construct, makeNew]

/-- An object that is not constructed is counted all the same. -/
theorem not_exact_of_throw (hB : 1 ≤ B) (hi : Inv w) (h : Level n w) (hne : w.pool.available ≠ 0) :
    ¬ Exact (Op.run w (.acquire none)).2 := by
  have h1 := h.size
  have h2 := h.available
  obtain ⟨_, _, _, -, -, heq⟩ := acquire_throws hB hi.objects fun _ => hi.free hB
  simp only [Exact, usedSize, Op.run, heq, if_neg hne]
  omega

theorem exact_of_along {ops : List (Op T)} (h : Along Op.run Sound w ops)
    (he : Exact (run Op.run w ops).2) : Exact w := by
  cases ops with
  | nil => exact he
  | cons op ops => exact h.1.1

theorem fits_of_sound (hB : 1 ≤ B) (hi : Inv w) (h : Level n w) (hs : Sound w op) (he : Exact (op.run w).2) :
    Fits n w op := by
  have h2 := h.available
  cases op with
  | acquire value =>
      by_cases h0 : w.pool.available = 0
      · have hgrows := run_acquire_grows value h0
        exact absurd (hs.2 (by omega)) (hi.free hB)
      · cases value with
        | none => exact absurd he (not_exact_of_throw hB hi h h0)
        | some v => exact ⟨rfl, by omega⟩
  | offer q => trivial

/-- In a run, `used_size()` is the number of outstanding objects and blocks are made only where all slots are in
use, if and only if objects are acquired without an exception and while fewer are outstanding than the pool was
made for. -/
theorem run_sound_iff (hB : 1 ≤ B) (defaultSize : Nat) (ops : List (Op T)) :
    (Along Op.run Sound (World.new B defaultSize : World T B) ops ∧
        Exact (run Op.run (World.new B defaultSize : World T B) ops).2) ↔
      Along Op.run (Fits (Pool.new B defaultSize : Pool T B).size) (World.new B defaultSize) ops := by
  have hlevel : Level (Pool.new B defaultSize : Pool T B).size (World.new B defaultSize : World T B) := ⟨rfl, rfl⟩
  have hinv := new_inv (T := T) B defaultSize
  generalize (Pool.new B defaultSize : Pool T B).size = n at hlevel
  generalize (World.new B defaultSize : World T B) = w at hlevel hinv
  induction ops generalizing w with
  | nil => exact ⟨fun _ => trivial, fun _ => ⟨trivial, hlevel.exact⟩⟩
  | cons op ops ih =>
      constructor
      · rintro ⟨⟨hs, hrest⟩, he⟩
        have hfits := fits_of_sound hB hinv hlevel hs (exact_of_along hrest he)
        exact ⟨hfits, (ih _ (hlevel.step hB hinv hfits).1 (Op.run_inv hB hinv hfits.constructs)).mp ⟨hrest, he⟩⟩
      · rintro ⟨hfits, hrest⟩
        obtain ⟨hlevel', hlen⟩ := hlevel.step hB hinv hfits
        obtain ⟨hsound, he⟩ := (ih _ hlevel' (Op.run_inv hB hinv hfits.constructs)).mpr hrest
        exact ⟨⟨⟨hlevel.exact, fun hne => absurd hlen hne⟩, hsound⟩, he⟩

theorem grow_size (hB : 1 ≤ B) {d fuel : Nat} {p : Pool T B} {m : Nat} (hsize : p.size = m * B) (hm : m ≤ d)
    (hfuel : d * B ≤ m * B + fuel) : (p.grow (d * B) fuel).size = d * B := by
  induction fuel generalizing p m with
  | zero =>
      have := Nat.mul_le_mul_right B hm
      show p.size = d * B
      omega
  | succ fuel ih =>
      rw [grow]
      split
      · rename_i hlt
        have hmd : m < d := by
          rcases Nat.lt_or_eq_of_le hm with h | rfl
          · exact h
          · omega
        have hsucc : (m + 1) * B = m * B + B := Nat.succ_mul m B
        refine ih (m := m + 1) ?_ hmd (by omega)
        show p.size + B = (m + 1) * B
        omega
      · have := Nat.mul_le_mul_right B hm
        omega

/-- What the pool was made for. -/
theorem new_size (hB : 1 ≤ B) {defaultSize : Nat} (h : defaultSize * B < 2 ^ 64) :
    (Pool.new B defaultSize : Pool T B).size = defaultSize * B := by
  simp only [Pool.new, Nat.mod_eq_of_lt h]
  exact grow_size hB (m := 0) (by simp) (Nat.zero_le _) (by omega)

/-- Two objects of a pool made for two, of which the first is given back before a third is acquired. -/
theorem run_sound_iff_two :
    Exact (run Op.run (World.new 2 1 : World Nat 2)
      [.acquire (some 5), .acquire (some 6), .offer (.slot 0 0), .acquire (some 7)]).2 :=
  ((run_sound_iff (T := Nat) (B := 2) (by decide) 1
    [.acquire (some 5), .acquire (some 6), .offer (.slot 0 0), .acquire (some 7)]).mpr
      ⟨⟨rfl, by decide⟩, ⟨rfl, by decide⟩, trivial, ⟨rfl, by decide⟩, trivial⟩).2

/-- Three objects of a pool made for two: the third is in a new block although the second block is not in use, and
four are counted as used. -/
theorem third_of_two :
    (run Op.run (World.new 2 1 : World Nat 2) [.acquire (some 5), .acquire (some 6)]).2.pool.objects.map Obj.used =
        [[true, true], [false, false]] ∧
      (run Op.run (World.new 2 1 : World Nat 2)
        [.acquire (some 5), .acquire (some 6), .acquire (some 7)]).2.pool.objects.map Obj.used =
        [[true, true], [false, false], [true, false]] ∧
      (run Op.run (World.new 2 1 : World Nat 2)
        [.acquire (some 5), .acquire (some 6), .acquire (some 7)]).2.pool.usedSize = 4 ∧
      ¬ (Along Op.run Sound (World.new 2 1 : World Nat 2) [.acquire (some 5), .acquire (some 6), .acquire (some 7)] ∧
        Exact (run Op.run (World.new 2 1 : World Nat 2)
          [.acquire (some 5), .acquire (some 6), .acquire (some 7)]).2) := by
  refine ⟨by decide, by decide, by decide, ?_⟩
  rintro ⟨-, h⟩
  revert h
  unfold Exact
  decide

end Dwhbll.Memory.Pool
