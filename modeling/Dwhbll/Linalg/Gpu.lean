import Dwhbll.Linalg.Theorems

/-!
# `matmul_gpu_wrapper` of `linalg/kernel.hip`

The threads of a launch run in any order. A computation that overflows an `int`, or an access outside of what has been
allocated, has no result.
-/

namespace Dwhbll.Linalg.Gpu

open Finset

variable {α : Type} {rowA colA colB : Nat}

/-! ## `int` -/

/-- The conversion to `int`. -/
def toInt (x : Int) : Int := x.bmod (2 ^ 32)

abbrev InRange (x : Int) : Prop := -2 ^ 31 ≤ x ∧ x < 2 ^ 31

/-- What is computed with `int`s. -/
def int (x : Int) : Option Int := if InRange x then some x else none

/-- `row * cols + col`. -/
def index (row cols col : Int) : Option Int := do
  let offset ← int (row * cols)
  int (offset + col)

theorem toInt_of_lt {n : Nat} (h : n < 2 ^ 31) : toInt n = n := by
  rw [toInt]
  exact Int.bmod_eq_of_le (by omega) (by omega)

theorem toInt_le (n : Nat) : toInt n ≤ n := by
  rw [toInt, Int.bmod_def]
  split <;> omega

/-- The smallest `int`. -/
theorem toInt_wraps {n : Nat} (h : n = 2 ^ 31) : toInt n = -2 ^ 31 := by
  rw [toInt, Int.bmod_def]
  split <;> omega

theorem inRange_toInt (x : Int) : InRange (toInt x) := by
  rw [toInt, Int.bmod_def]
  split <;> omega

theorem int_eq_some_iff {x y : Int} : int x = some y ↔ x = y ∧ InRange x := by
  unfold int
  split
  · exact ⟨fun h => ⟨Option.some.inj h, ‹_›⟩, fun h => congrArg some h.1⟩
  · rename_i hnot
    constructor
    · intro h
      cases h
    · rintro ⟨rfl, hrange⟩
      exact absurd hrange hnot

theorem index_eq_some_iff {row cols col i : Int} :
    index row cols col = some i ↔ row * cols + col = i ∧ InRange (row * cols) ∧ InRange i := by
  simp only [index, Option.bind_eq_bind, Option.bind_eq_some_iff, int_eq_some_iff]
  constructor
  · rintro ⟨_, ⟨rfl, hoffset⟩, rfl, hi⟩
    exact ⟨rfl, hoffset, hi⟩
  · rintro ⟨rfl, hoffset, hi⟩
    exact ⟨_, ⟨rfl, hoffset⟩, rfl, hi⟩

theorem index_natCast {row cols col : Nat} (h : row * cols + col < 2 ^ 31) :
    index row cols col = some ((row * cols + col : Nat) : Int) := by
  rw [index_eq_some_iff, ← Nat.cast_mul]
  generalize row * cols = offset at h
  exact ⟨(Nat.cast_add offset col).symm, by omega, by omega⟩

/-! ## Memory -/

/-- `m[i]`. -/
def load (m : List α) (i : Int) : Option α := if 0 ≤ i then m[i.toNat]? else none

/-- `m[i] = x`. -/
def store (m : List α) (i : Int) (x : α) : Option (List α) :=
  if 0 ≤ i ∧ i < m.length then some (m.set i.toNat x) else none

theorem load_natCast (m : List α) (i : Nat) : load m i = m[i]? := if_pos (Int.natCast_nonneg i)

/-! ## The kernel -/

variable [Semiring α]

/-- The loop over `p`, with as many rounds to go as `left` says. -/
def sumLoop (A B : List α) (N K row col : Int) : (left : Nat) → (p : Int) → (sum : α) → Option α
  | 0, _, sum => some sum
  | left + 1, p, sum => do
      let a ← load A (← index row K p)
      let b ← load B (← index p N col)
      sumLoop A B N K row col left (p + 1) (sum + a * b)

/-- `matmul`, as the thread for `row` and `col` runs it. -/
def matmul (A B : List α) (M N K row col : Int) (out : List α) : Option (List α) :=
  if row < M ∧ col < N then do
    let sum ← sumLoop A B N K row col K.toNat 0 0
    store out (← index row N col) sum
  else some out

/-! ## The launch -/

structure Thread where
  blockX : Nat
  blockY : Nat
  threadX : Nat
  threadY : Nat
  deriving DecidableEq, Repr

def Thread.row (t : Thread) : Int := toInt (t.blockY * 16 + t.threadY : Nat)

def Thread.col (t : Thread) : Int := toInt (t.blockX * 16 + t.threadX : Nat)

/-- How many blocks of 16 threads there are for `n` rows or columns. -/
def gridDim (n : Nat) : Nat := (n + 16 - 1) % 2 ^ 64 / 16 % 2 ^ 32

def grid (rowA colB : Nat) : List Thread :=
  (List.range (gridDim rowA)).flatMap fun blockY =>
    (List.range (gridDim colB)).flatMap fun blockX =>
      (List.range 16).flatMap fun threadY => (List.range 16).map fun threadX => ⟨blockX, blockY, threadX, threadY⟩

/-- The kernel is run by these threads, one after the other. -/
def launch (A B : List α) (M N K : Int) (threads : List Thread) (out : List α) : Option (List α) :=
  threads.foldlM (fun out t => matmul A B M N K t.row t.col out) out

/-- The storage of `out` behind the copy from the device, where `d_res` holds something when the threads start. The
kernel has its parameters in the order `M`, `N`, `K`. -/
def matmulGpuWrapper (A : Matrix α rowA colA) (B : Matrix α colA colB) (threads : List Thread) (d_res : List α) :
    Option (List α) :=
  launch A.data B.data (toInt rowA) (toInt colA) (toInt colB) threads d_res

/-! ## The loop -/

/-- What the round for `p` reads. -/
def Reads (A B : List α) (N K row col p : Int) (a b : α) : Prop :=
  (∃ i, index row K p = some i ∧ load A i = some a) ∧ ∃ i, index p N col = some i ∧ load B i = some b

variable {A B out out' : List α} {M N K row col p : Int} {left : Nat} {sum s : α}

theorem sumLoop_succ {left : Nat} :
    sumLoop A B N K row col (left + 1) p sum = some s ↔
      ∃ a b, Reads A B N K row col p a b ∧ sumLoop A B N K row col left (p + 1) (sum + a * b) = some s := by
  simp only [sumLoop, Option.bind_eq_bind, Option.bind_eq_some_iff, Reads]
  constructor
  · rintro ⟨i, hi, a, ha, j, hj, b, hb, h⟩
    exact ⟨a, b, ⟨⟨i, hi, ha⟩, j, hj, hb⟩, h⟩
  · rintro ⟨a, b, ⟨⟨i, hi, ha⟩, j, hj, hb⟩, h⟩
    exact ⟨i, hi, a, ha, j, hj, b, hb, h⟩

theorem sumLoop_eq {a b : Nat → α} (h : ∀ j < left, Reads A B N K row col (p + j) (a j) (b j)) :
    sumLoop A B N K row col left p sum = some (sum + ∑ j ∈ range left, a j * b j) := by
  induction left generalizing p sum a b with
  | zero => simp [sumLoop]
  | succ left ih =>
      have hfirst := h 0 (Nat.succ_pos left)
      simp only [Nat.cast_zero, add_zero] at hfirst
      refine sumLoop_succ.mpr ⟨a 0, b 0, hfirst, ?_⟩
      rw [ih (a := fun j => a (j + 1)) (b := fun j => b (j + 1)), sum_range_succ', add_assoc, add_comm (a 0 * b 0)]
      intro j hj
      have hnext := h (j + 1) (Nat.succ_lt_succ hj)
      rwa [Nat.cast_succ, add_comm (j : Int), ← add_assoc] at hnext

theorem exists_of_sumLoop (h : sumLoop A B N K row col left p sum = some s) :
    ∃ a b : Nat → α, (∀ j < left, Reads A B N K row col (p + j) (a j) (b j)) ∧
      s = sum + ∑ j ∈ range left, a j * b j := by
  induction left generalizing p sum with
  | zero => exact ⟨fun _ => 0, fun _ => 0, fun j hj => absurd hj (Nat.not_lt_zero j), by simpa [sumLoop] using h.symm⟩
  | succ left ih =>
      obtain ⟨a₀, b₀, hfirst, hrest⟩ := sumLoop_succ.mp h
      obtain ⟨a, b, hreads, rfl⟩ := ih hrest
      refine ⟨fun j => j.casesOn a₀ a, fun j => j.casesOn b₀ b, fun j hj => ?_, ?_⟩
      · cases j with
        | zero => simpa using hfirst
        | succ j =>
            have hnext := hreads j (Nat.lt_of_succ_lt_succ hj)
            rwa [add_assoc, add_comm 1 (j : Int), ← Nat.cast_succ] at hnext
      · rw [sum_range_succ', add_assoc, add_comm (a₀ * b₀)]
        rfl

/-! ## One thread -/

/-- A thread that passes the check of the kernel stores the sum in a place that is there. -/
theorem matmul_eq_some (h : matmul A B M N K row col out = some out') :
    (¬(row < M ∧ col < N) ∧ out' = out) ∨
      (row < M ∧ col < N) ∧ ∃ s, ∃ i : Nat, sumLoop A B N K row col K.toNat 0 0 = some s ∧
        index row N col = some (i : Int) ∧
        i < out.length ∧ out' = out.set i s := by
  unfold matmul at h
  split at h
  · rename_i hpass
    obtain ⟨s, hs, h⟩ := Option.bind_eq_some_iff.mp h
    obtain ⟨i, hi, h⟩ := Option.bind_eq_some_iff.mp h
    unfold store at h
    split at h
    · rename_i hplace
      obtain ⟨n, rfl⟩ := Int.eq_ofNat_of_zero_le hplace.1
      exact .inr ⟨hpass, s, n, hs, hi, Int.ofNat_lt.mp hplace.2, (Option.some.inj h).symm⟩
    · cases h
  · exact .inl ⟨‹_›, (Option.some.inj h).symm⟩

theorem matmul_pass {i : Nat} (hrow : row < M) (hcol : col < N)
    (hsum : sumLoop A B N K row col K.toNat 0 0 = some s) (hindex : index row N col = some (i : Int))
    (hi : i < out.length) : matmul A B M N K row col out = some (out.set i s) := by
  rw [matmul, if_pos ⟨hrow, hcol⟩, hsum, hindex]
  exact if_pos ⟨Int.natCast_nonneg i, Int.ofNat_lt.mpr hi⟩

/-! ## All threads -/

variable {threads : List Thread}

/-- A place has what a thread has stored there, or it is as before. -/
theorem exists_of_launch (h : launch A B M N K threads out = some out') :
    (∀ t ∈ threads, t.row < M → t.col < N →
      ∃ s, ∃ i : Nat, sumLoop A B N K t.row t.col K.toNat 0 0 = some s ∧ index t.row N t.col = some (i : Int)) ∧
      ∀ j : Nat, out'[j]? = out[j]? ∨ ∃ t ∈ threads, t.row < M ∧ t.col < N ∧ index t.row N t.col = some (j : Int) ∧
        sumLoop A B N K t.row t.col K.toNat 0 0 = out'[j]? := by
  induction threads generalizing out with
  | nil =>
      cases h
      exact ⟨fun t ht => absurd ht List.not_mem_nil, fun j => .inl rfl⟩
  | cons t threads ih =>
      rw [launch, List.foldlM_cons] at h
      obtain ⟨mid, hmid, h⟩ := Option.bind_eq_some_iff.mp h
      obtain ⟨hdefined, hstored⟩ := ih h
      rcases matmul_eq_some hmid with ⟨hnot, rfl⟩ | ⟨hpass, s, i, hs, hi, hlt, rfl⟩
      · refine ⟨fun u hu hrow hcol => ?_, fun j => ?_⟩
        · rcases List.mem_cons.mp hu with rfl | hu
          · exact absurd ⟨hrow, hcol⟩ hnot
          · exact hdefined u hu hrow hcol
        · rcases hstored j with hsame | ⟨u, hu, h⟩
          · exact .inl hsame
          · exact .inr ⟨u, List.mem_cons_of_mem t hu, h⟩
      · refine ⟨fun u hu hrow hcol => ?_, fun j => ?_⟩
        · rcases List.mem_cons.mp hu with rfl | hu
          · exact ⟨s, i, hs, hi⟩
          · exact hdefined u hu hrow hcol
        · rcases hstored j with hsame | ⟨u, hu, h⟩
          · by_cases hij : i = j
            · subst hij
              rw [List.getElem?_set_self hlt] at hsame
              exact .inr ⟨t, List.mem_cons_self, hpass.1, hpass.2, hi, hs.trans hsame.symm⟩
            · rw [List.getElem?_set_ne hij] at hsame
              exact .inl hsame
          · exact .inr ⟨u, List.mem_cons_of_mem t hu, h⟩

/-! ## The grid -/

variable {t : Thread} {x y : Nat}

theorem mem_grid : t ∈ grid rowA colB ↔
    t.blockY < gridDim rowA ∧ t.blockX < gridDim colB ∧ t.threadY < 16 ∧ t.threadX < 16 := by
  obtain ⟨blockX, blockY, threadX, threadY⟩ := t
  simp only [grid, List.mem_flatMap, List.mem_map, List.mem_range, Thread.mk.injEq]
  constructor
  · rintro ⟨_, h1, _, h2, _, h3, _, h4, rfl, rfl, rfl, rfl⟩
    exact ⟨h1, h2, h3, h4⟩
  · rintro ⟨h1, h2, h3, h4⟩
    exact ⟨_, h1, _, h2, _, h3, _, h4, rfl, rfl, rfl, rfl⟩

theorem exists_of_mem_grid (h : t ∈ grid rowA colB) :
    ∃ y < gridDim rowA * 16, ∃ x < gridDim colB * 16, t.row = toInt y ∧ t.col = toInt x := by
  obtain ⟨h1, h2, h3, h4⟩ := mem_grid.mp h
  exact ⟨t.blockY * 16 + t.threadY, by omega, t.blockX * 16 + t.threadX, by omega, rfl, rfl⟩

theorem exists_mem_grid (hy : y < gridDim rowA * 16) (hx : x < gridDim colB * 16) :
    ∃ t ∈ grid rowA colB, t.row = toInt y ∧ t.col = toInt x := by
  refine ⟨⟨x / 16, y / 16, x % 16, y % 16⟩, mem_grid.mpr ?_, ?_, ?_⟩
  · simp only
    omega
  · rw [Thread.row, Nat.div_add_mod']
  · rw [Thread.col, Nat.div_add_mod']

theorem gridDim_eq {n : Nat} (h : n < 2 ^ 31) : gridDim n = (n + 15) / 16 := by
  unfold gridDim
  omega

/-- Each element has its thread. -/
theorem exists_thread_at (hrows : rowA < 2 ^ 31) (hcols : colB < 2 ^ 31) (hy : y < rowA) (hx : x < colB) :
    ∃ t ∈ grid rowA colB, t.row = y ∧ t.col = x := by
  have hy' : y < gridDim rowA * 16 := by
    rw [gridDim_eq hrows]
    omega
  have hx' : x < gridDim colB * 16 := by
    rw [gridDim_eq hcols]
    omega
  obtain ⟨t, ht, hrow, hcol⟩ := exists_mem_grid hy' hx'
  exact ⟨t, ht, hrow.trans (toInt_of_lt (by omega)), hcol.trans (toInt_of_lt (by omega))⟩

/-- No coordinate of a thread wraps around. -/
theorem exists_coordinates (hrows : rowA < 2 ^ 31) (hcols : colB < 2 ^ 31) (ht : t ∈ grid rowA colB) :
    ∃ y x : Nat, t.row = y ∧ t.col = x := by
  obtain ⟨y, hy, x, hx, hrow, hcol⟩ := exists_of_mem_grid ht
  rw [gridDim_eq hrows] at hy
  rw [gridDim_eq hcols] at hx
  exact ⟨y, x, hrow.trans (toInt_of_lt (by omega)), hcol.trans (toInt_of_lt (by omega))⟩

/-- Of a launch in which nothing undefined happens, only threads with a place of their own pass the check. -/
theorem nonneg_of_defined
    (hdefined : ∀ t ∈ grid rowA colB, t.row < M → t.col < N → ∃ i : Nat, index t.row N t.col = some (i : Int))
    (ht : t ∈ grid rowA colB) (hrow : t.row < M) (hcol : t.col < N) : 0 ≤ t.row ∧ 0 ≤ t.col := by
  obtain ⟨y, hy, x, hx, hty, htx⟩ := exists_of_mem_grid ht
  have hle : -2 ^ 31 ≤ t.row := hty ▸ (inRange_toInt y).1
  have hlt : t.col < 2 ^ 31 := htx ▸ (inRange_toInt x).2
  have hplace : ∀ u ∈ grid rowA colB, u.row < M → u.col = t.col →
      0 ≤ u.row * N + t.col ∧ InRange (u.row * N) := by
    intro u hu hur huc
    obtain ⟨i, hi⟩ := hdefined u hu hur (lt_of_eq_of_lt huc hcol)
    obtain ⟨hi, hmul, -⟩ := index_eq_some_iff.mp hi
    rw [huc] at hi
    exact ⟨le_of_le_of_eq (Int.natCast_nonneg i) hi.symm, hmul⟩
  have hrow0 : 0 ≤ t.row := by
    by_contra hneg
    -- the rows are counted up, so that the smallest `int` is one of them
    obtain ⟨n, hn⟩ : ∃ n : Nat, n = 2 ^ 31 := ⟨_, rfl⟩
    have hny : n ≤ y := by
      by_contra hsmall
      rw [hty, toInt_of_lt (by omega)] at hneg
      exact hneg (Int.natCast_nonneg y)
    obtain ⟨u, hu, hury, hucx⟩ := exists_mem_grid (Nat.lt_of_le_of_lt hny hy) hx
    rw [toInt_wraps hn] at hury
    have hrow' : u.row < M := by
      rw [hury]
      exact lt_of_le_of_lt hle hrow
    obtain ⟨hpos, hmul⟩ := hplace u hu hrow' (hucx.trans htx.symm)
    rw [hury] at hpos hmul
    clear hy hx
    omega
  obtain ⟨u, hu, hury, hucx⟩ := exists_mem_grid (Nat.zero_lt_of_lt hy) hx
  have hzero : u.row = 0 := hury
  obtain ⟨hpos, -⟩ := hplace u hu (hzero ▸ lt_of_le_of_lt hrow0 hrow) (hucx.trans htx.symm)
  rw [hzero, zero_mul, zero_add] at hpos
  exact ⟨hrow0, hpos⟩

/-! ## The product -/

/-- An element of the product. -/
def product (A : Matrix α rowA colA) (B : Matrix α colA colB) (r c : Nat) : α :=
  ∑ p ∈ range colA, A.entry r p * B.entry p c

/-- In any order of the threads, and whatever is in the memory at the start, the storage holds the product. -/
def Computes (A : Matrix α rowA colA) (B : Matrix α colA colB) : Prop :=
  ∀ threads d_res, threads.Perm (grid rowA colB) → rowA * colB ≤ d_res.length →
    ∃ out, matmulGpuWrapper A B threads d_res = some out ∧
      ∀ r < rowA, ∀ c < colB, out[r * colB + c]? = some (product A B r c)

/-! ## What a launch that computes the product must be like -/

variable {A : Matrix α rowA colA} {B : Matrix α colA colB} {r c : Nat}

/-- Unless the memory holds it anyway, a thread computes the element at a place. -/
theorem Computes.exists_thread (h : Computes A B) (hr : r < rowA) (hc : c < colB) {x : α} (hne : product A B r c ≠ x) :
    ∃ t ∈ grid rowA colB, 0 ≤ t.row ∧ t.row < toInt rowA ∧ 0 ≤ t.col ∧ t.col < toInt colA ∧
      t.row * toInt colA + t.col = (r * colB + c : Nat) ∧
      sumLoop A.data B.data (toInt colA) (toInt colB) t.row t.col (toInt colB).toNat 0 0 = some (product A B r c) := by
  have hlen : rowA * colB ≤ (List.replicate (rowA * colB) x).length := by rw [List.length_replicate]
  obtain ⟨out, hout, hproduct⟩ := h (grid rowA colB) _ (.refl _) hlen
  obtain ⟨hdefined, hstored⟩ := exists_of_launch hout
  have hcell := hproduct r hr c hc
  rcases hstored (r * colB + c) with hsame | ⟨t, ht, hrow, hcol, hindex, hsum⟩
  · rw [hcell, List.getElem?_replicate_of_lt (Lists.index_lt hr hc)] at hsame
    exact absurd (Option.some.inj hsame) hne
  · have hplaces : ∀ t ∈ grid rowA colB, t.row < toInt rowA → t.col < toInt colA →
        ∃ i : Nat, index t.row (toInt colA) t.col = some (i : Int) := by
      intro t ht hrow hcol
      obtain ⟨_, i, -, hi⟩ := hdefined t ht hrow hcol
      exact ⟨i, hi⟩
    obtain ⟨hrow0, hcol0⟩ := nonneg_of_defined hplaces ht hrow hcol
    exact ⟨t, ht, hrow0, hrow, hcol0, hcol, (index_eq_some_iff.mp hindex).1, hsum.trans hcell⟩

theorem entry_eq {rows cols : Nat} {m : Matrix α rows cols} {row col : Nat} {x : α}
    (h : m.data[row * cols + col]? = some x) : m.entry row col = x := by
  rw [Matrix.entry, h]
  rfl

theorem product_new : product (Matrix.new rowA colA) B r c = 0 := by
  refine sum_eq_zero fun p _ => ?_
  rw [Matrix.entry_new, zero_mul]

/-- All places are stored to, so that there are at least as many threads as places. -/
theorem places_le [Nontrivial α] (h : ∀ (A : Matrix α rowA colA) (B : Matrix α colA colB), Computes A B)
    (hrows : 0 < rowA) (hcols : 0 < colB) :
    (rowA * colB : Int) ≤ toInt rowA * toInt colA ∧ 0 < toInt colA := by
  have hne : product (Matrix.new rowA colA : Matrix α rowA colA) (Matrix.new colA colB) (rowA - 1) (colB - 1) ≠ 1 := by
    rw [product_new]
    exact zero_ne_one
  obtain ⟨t, -, hrow0, hrow, hcol0, hcol, hplace, -⟩ :=
    (h (.new rowA colA) (.new colA colB)).exists_thread (by omega) (by omega) hne
  have hlast := Lists.index_last hrows hcols
  have hN : 0 ≤ toInt colA := Int.le_of_lt (Int.lt_of_le_of_lt hcol0 hcol)
  have hmul : (t.row + 1) * toInt colA ≤ toInt rowA * toInt colA := Int.mul_le_mul_of_nonneg_right hrow hN
  rw [Int.add_mul, one_mul] at hmul
  generalize toInt rowA * toInt colA = places at hmul ⊢
  generalize toInt colA = N at *
  rw [← Nat.cast_mul]
  exact ⟨by omega, by omega⟩

/-- One in the last place of the first row. -/
def corner (α : Type) [Semiring α] (rowA colA : Nat) : Matrix α rowA colA where
  data := (List.replicate (rowA * colA) 0).set (colA - 1) 1
  size := by rw [List.length_set, List.length_replicate]

def ones (α : Type) [Semiring α] (colA colB : Nat) : Matrix α colA colB :=
  ⟨List.replicate (colA * colB) 1, List.length_replicate⟩

theorem corner_getElem? {j : Nat} {a : α} (hj : j ≠ colA - 1) (h : (corner α rowA colA).data[j]? = some a) : a = 0 := by
  rw [corner, List.getElem?_set_ne (Ne.symm hj)] at h
  exact List.eq_of_mem_replicate (List.mem_of_getElem? h)

theorem product_corner (hrows : 0 < rowA) (hmid : 0 < colA) (hcols : 0 < colB) :
    product (corner α rowA colA) (ones α colA colB) 0 0 = 1 := by
  have hle : colA ≤ rowA * colA := Nat.le_mul_of_pos_left colA hrows
  have hentry : (corner α rowA colA).entry 0 (colA - 1) = 1 := by
    refine entry_eq ?_
    rw [corner, Nat.zero_mul, Nat.zero_add, List.getElem?_set_self]
    rw [List.length_replicate]
    omega
  rw [product, sum_eq_single (colA - 1), hentry, one_mul]
  · refine entry_eq ?_
    rw [ones, List.getElem?_replicate_of_lt]
    exact Lists.index_lt (by omega) hcols
  · intro p hp hne
    have hlt : 0 * colA + p < (corner α rowA colA).data.length := by
      rw [(corner α rowA colA).size]
      exact Lists.index_lt hrows (mem_range.mp hp)
    rw [entry_eq (List.getElem?_eq_getElem hlt)]
    rw [corner_getElem? (by omega) (List.getElem?_eq_getElem hlt), zero_mul]
  · intro hnot
    exact absurd (mem_range.mpr (by omega)) hnot

/-- The sum for the first place has no more than `colB` terms. -/
theorem colA_le [Nontrivial α] (h : ∀ (A : Matrix α rowA colA) (B : Matrix α colA colB), Computes A B)
    (hrows : 0 < rowA) (hcols : 0 < colB) : colA ≤ colB := by
  by_contra hlt
  have hproduct : product (corner α rowA colA) (ones α colA colB) 0 0 = 1 := product_corner hrows (by omega) hcols
  have hne : product (corner α rowA colA) (ones α colA colB) 0 0 ≠ 0 := by
    rw [hproduct]
    exact one_ne_zero
  obtain ⟨t, -, hrow0, -, hcol0, hcol, hplace, hsum⟩ := (h _ _).exists_thread hrows hcols hne
  rw [hproduct] at hsum
  have hle := toInt_le colB
  generalize toInt colA = N, toInt colB = K at *
  have hrow : t.row = 0 := by
    by_contra hne
    have hmul : 1 * N ≤ t.row * N := Int.mul_le_mul_of_nonneg_right (by omega) (by omega)
    omega
  obtain ⟨a, b, hreads, hone⟩ := exists_of_sumLoop hsum
  have hzero : ∀ j ∈ range K.toNat, a j * b j = 0 := by
    intro j hj
    obtain ⟨⟨i, hi, ha⟩, -⟩ := hreads j (mem_range.mp hj)
    obtain ⟨hij, -⟩ := index_eq_some_iff.mp hi
    rw [hrow, zero_mul, zero_add, zero_add] at hij
    rw [← hij, load_natCast] at ha
    have hlt := mem_range.mp hj
    rw [corner_getElem? (by omega) ha, zero_mul]
  rw [sum_eq_zero hzero, zero_add] at hone
  exact one_ne_zero hone

/-- The dimensions of `A` and `B` for which no thread needs more than an `int`. -/
structure Fits (rowA colA : Nat) : Prop where
  rows : rowA < 2 ^ 31
  left : rowA * colA ≤ 2 ^ 31
  right : colA * colA ≤ 2 ^ 31

theorem index_lt_of_eq_some {row cols col : Nat} {i : Int} (h : index row cols col = some i) :
    row * cols + col < 2 ^ 31 := by
  obtain ⟨hi, -, hrange⟩ := index_eq_some_iff.mp h
  rw [← Nat.cast_mul, ← Nat.cast_add] at hi
  omega

theorem extents [Nontrivial α] (h : ∀ (A : Matrix α rowA colA) (B : Matrix α colA colB), Computes A B)
    (hrows : 0 < rowA) (hcols : 0 < colB) : colA = colB ∧ rowA < 2 ^ 31 ∧ colA < 2 ^ 31 := by
  have hle := colA_le h hrows hcols
  obtain ⟨hplaces, hN⟩ := places_le h hrows hcols
  have hMle := toInt_le rowA
  have hNle := toInt_le colA
  have hM := (inRange_toInt rowA).2
  have hN' := (inRange_toInt colA).2
  generalize toInt colA = N, toInt rowA = M at *
  have hrowsN : (rowA * colB : Int) ≤ rowA * N := hplaces.trans (Int.mul_le_mul_of_nonneg_right hMle (by omega))
  have hcolB : (colB : Int) ≤ N := Int.le_of_mul_le_mul_left hrowsN (by omega)
  have hcolB' : (colB : Int) = N := by omega
  rw [hcolB'] at hplaces
  have hrowA : (rowA : Int) ≤ M := Int.le_of_mul_le_mul_right hplaces hN
  exact ⟨by omega, by omega, by omega⟩

/-- The last thread reads the last elements of `A` and `B`. -/
theorem fits [Nontrivial α] (h : ∀ (A : Matrix α rowA colA) (B : Matrix α colA colB), Computes A B)
    (hrows : 0 < rowA) (hcols : 0 < colB) : colA = colB ∧ Fits rowA colA := by
  obtain ⟨rfl, hrowA, hcolA⟩ := extents h hrows hcols
  have hlen : rowA * colA ≤ (List.replicate (rowA * colA) (0 : α)).length := by rw [List.length_replicate]
  obtain ⟨out, hout, -⟩ := h (.new rowA colA) (.new colA colA) (grid rowA colA) _ (.refl _) hlen
  obtain ⟨t, ht, hrow, hcol⟩ := exists_thread_at hrowA hcolA (Nat.sub_one_lt_of_lt hrows) (Nat.sub_one_lt_of_lt hcols)
  rw [matmulGpuWrapper, toInt_of_lt hrowA, toInt_of_lt hcolA] at hout
  obtain ⟨s, _, hsum, -⟩ := (exists_of_launch hout).1 t ht (by omega) (by omega)
  rw [hrow, hcol, Int.toNat_natCast] at hsum
  obtain ⟨a, b, hreads, -⟩ := exists_of_sumLoop hsum
  obtain ⟨⟨_, hi, -⟩, _, hj, -⟩ := hreads (colA - 1) (by omega)
  rw [zero_add] at hi hj
  have hleft := index_lt_of_eq_some hi
  have hright := index_lt_of_eq_some hj
  have hlast := Lists.index_last hrows hcols
  have hlast' := Lists.index_last hcols hcols
  exact ⟨rfl, hrowA, by omega, by omega⟩

/-! ## Launches that compute the product -/

theorem getElem?_entry {rows cols row col : Nat} (m : Matrix α rows cols) (hrow : row < rows) (hcol : col < cols) :
    m.data[row * cols + col]? = some (m.entry row col) :=
  (if_pos ⟨hrow, hcol⟩).symm.trans (m.get?_eq hrow hcol)

theorem Fits.cols (h : Fits rowA colA) : colA < 2 ^ 31 := by
  by_contra hle
  have hmul := Nat.mul_le_mul (Nat.le_of_not_lt hle) (Nat.le_of_not_lt hle)
  have := h.right
  omega

theorem matmul_eq (h : Fits rowA colA) (A : Matrix α rowA colA) (B : Matrix α colA colA)
    (hlen : rowA * colA ≤ out.length) (y x : Nat) :
    matmul A.data B.data rowA colA colA y x out =
      some (if y < rowA ∧ x < colA then out.set (y * colA + x) (product A B y x) else out) := by
  split
  · rename_i hpass
    obtain ⟨hy, hx⟩ := hpass
    have hplace := Lists.index_lt hy hx
    have hreads : ∀ j < colA, Reads A.data B.data colA colA y x ((0 : Int) + j) (A.entry y j) (B.entry j x) := by
      intro j hj
      have hleft := Lists.index_lt hy hj
      have hright := Lists.index_lt hj hx
      rw [zero_add]
      refine ⟨⟨_, index_natCast (hleft.trans_le h.left), ?_⟩, _, index_natCast (hright.trans_le h.right), ?_⟩
      · rw [load_natCast, getElem?_entry A hy hj]
      · rw [load_natCast, getElem?_entry B hj hx]
    refine matmul_pass (Int.ofNat_lt.mpr hy) (Int.ofNat_lt.mpr hx) ?_ (index_natCast (hplace.trans_le h.left))
      (hplace.trans_le hlen)
    rw [Int.toNat_natCast, sumLoop_eq hreads, zero_add]
    rfl
  · rename_i hnot
    refine if_neg fun hpass => hnot ?_
    exact ⟨Int.ofNat_lt.mp hpass.1, Int.ofNat_lt.mp hpass.2⟩

/-- A place that has its element keeps it, and one that a thread is for gets it. -/
theorem launch_eq (h : Fits rowA colA) (A : Matrix α rowA colA) (B : Matrix α colA colA)
    (hthreads : ∀ t ∈ threads, t ∈ grid rowA colA) (hlen : rowA * colA ≤ out.length) :
    ∃ out', launch A.data B.data rowA colA colA threads out = some out' ∧
      ∀ r < rowA, ∀ c < colA, (out[r * colA + c]? = some (product A B r c) ∨ ∃ t ∈ threads, t.row = r ∧ t.col = c) →
        out'[r * colA + c]? = some (product A B r c) := by
  induction threads generalizing out with
  | nil =>
      refine ⟨out, rfl, fun r _ c _ hhas => ?_⟩
      rcases hhas with hhas | ⟨t, ht, -⟩
      · exact hhas
      · cases ht
  | cons t threads ih =>
      obtain ⟨y, x, hrow, hcol⟩ := exists_coordinates h.rows h.cols (hthreads t List.mem_cons_self)
      have hstep := matmul_eq h A B hlen y x
      generalize hmid : (if y < rowA ∧ x < colA then out.set (y * colA + x) (product A B y x) else out) = mid at hstep
      have hlen' : rowA * colA ≤ mid.length := by
        rw [← hmid]
        split
        · rwa [List.length_set]
        · exact hlen
      obtain ⟨out', hout', hfinal⟩ := ih (fun u hu => hthreads u (List.mem_cons_of_mem t hu)) hlen'
      refine ⟨out', ?_, fun r hr c hc hhas => hfinal r hr c hc ?_⟩
      · rw [launch, List.foldlM_cons, hrow, hcol, hstep]
        exact hout'
      · rcases hhas with hhas | ⟨u, hu, hur, huc⟩
        · left
          rw [← hmid]
          split
          · rename_i hpass
            by_cases hsame : y * colA + x = r * colA + c
            · obtain ⟨rfl, rfl⟩ := Lists.index_inj hpass.2 hc hsame
              exact List.getElem?_set_self ((Lists.index_lt hr hc).trans_le hlen)
            · rwa [List.getElem?_set_ne hsame]
          · exact hhas
        · rcases List.mem_cons.mp hu with rfl | hu
          · left
            rw [hur] at hrow
            rw [huc] at hcol
            obtain rfl := Int.ofNat_inj.mp hrow
            obtain rfl := Int.ofNat_inj.mp hcol
            rw [← hmid, if_pos ⟨hr, hc⟩]
            exact List.getElem?_set_self ((Lists.index_lt hr hc).trans_le hlen)
          · exact .inr ⟨u, hu, hur, huc⟩

theorem Fits.computes (h : Fits rowA colA) (A : Matrix α rowA colA) (B : Matrix α colA colA) : Computes A B := by
  intro threads d_res hperm hlen
  obtain ⟨out, hout, hfinal⟩ := launch_eq h A B (fun t ht => hperm.mem_iff.mp ht) hlen
  rw [matmulGpuWrapper, toInt_of_lt h.rows, toInt_of_lt h.cols]
  refine ⟨out, hout, fun r hr c hc => hfinal r hr c hc (.inr ?_)⟩
  obtain ⟨t, ht, hrow, hcol⟩ := exists_thread_at h.rows h.cols hr hc
  exact ⟨t, hperm.mem_iff.mpr ht, hrow, hcol⟩

/-- There are no threads, and no elements. -/
theorem computes_of_empty (h : rowA = 0 ∨ colB = 0) (A : Matrix α rowA colA) (B : Matrix α colA colB) :
    Computes A B := by
  intro threads d_res hperm _
  have hgrid : grid rowA colB = [] := by
    rcases h with rfl | rfl
    · rfl
    · exact List.flatMap_eq_nil_iff.mpr fun _ _ => rfl
  rw [hgrid] at hperm
  refine ⟨d_res, ?_, fun r hr c hc => ?_⟩
  · rw [hperm.eq_nil]
    rfl
  · rcases h with rfl | rfl
    · exact absurd hr (Nat.not_lt_zero r)
    · exact absurd hc (Nat.not_lt_zero c)

/-- For given dimensions the launch computes the product of any two matrices if and only if there is nothing to compute,
or `A` has as many columns as `B` and no thread needs more than an `int`. -/
theorem matmulGpuWrapper_iff [Nontrivial α] (rowA colA colB : Nat) :
    (∀ (A : Matrix α rowA colA) (B : Matrix α colA colB), Computes A B) ↔
      rowA = 0 ∨ colB = 0 ∨ (colA = colB ∧ Fits rowA colA) := by
  constructor
  · intro h
    by_cases hrows : rowA = 0
    · exact .inl hrows
    · by_cases hcols : colB = 0
      · exact .inr (.inl hcols)
      · exact .inr (.inr (fits h (Nat.pos_of_ne_zero hrows) (Nat.pos_of_ne_zero hcols)))
  · rintro (h | h | ⟨rfl, h⟩) A B
    · exact computes_of_empty (.inl h) A B
    · exact computes_of_empty (.inr h) A B
    · exact h.computes A B

theorem matmulGpuWrapper_iff_ones : Computes (ones Int 17 3) (ones Int 3 3) :=
  (matmulGpuWrapper_iff 17 3 3).mpr (.inr (.inr ⟨rfl, by decide, by decide, by decide⟩)) _ _

/-- A row times a column: the second thread of the first row passes the check and stores behind the one element. -/
theorem row_by_column :
    matmulGpuWrapper (⟨[1, 2], rfl⟩ : Matrix Int 1 2) (⟨[3, 4], rfl⟩ : Matrix Int 2 1) (grid 1 1) [0] = none ∧
      ¬ Computes (⟨[1, 2], rfl⟩ : Matrix Int 1 2) (⟨[3, 4], rfl⟩ : Matrix Int 2 1) := by
  have hnone : matmulGpuWrapper (⟨[1, 2], rfl⟩ : Matrix Int 1 2) (⟨[3, 4], rfl⟩ : Matrix Int 2 1) (grid 1 1) [0] =
      none := by decide +kernel
  refine ⟨hnone, fun h => ?_⟩
  obtain ⟨out, hout, -⟩ := h (grid 1 1) [0] (.refl _) (Nat.le_refl 1)
  cases hnone.symm.trans hout

end Dwhbll.Linalg.Gpu
