import Dwhbll.Dns.Lemmas.Name
import Dwhbll.Lib.Lists

/-!
# Names with compression pointers

What the name at an offset of a message stands for (RFC 1035, 3.1 and 4.1.4), as a relation on the bytes of
the message. Nothing in it says that the pointers lead to an end; where each of them leads back before the
labels it ends, they do, and the loop of `unpack` follows them to it.
-/

namespace Dwhbll.Network.Dns.Domain

open Collections

/-- The offset of a pointer: the fourteen bits behind the two that mark it. -/
def offset (high low : UInt8) : Nat := (high.toNat - 192) * 256 + low.toNat

/-- The labels of the name at `i`, and where what follows the name begins. -/
inductive Expands (bs : List UInt8) : (i : Nat) → (labels : List (List UInt8)) → (next : Nat) → Prop where
  | root {i : Nat} : bs[i]? = some 0 → Expands bs i [] (i + 1)
  | label {i next : Nat} {n : UInt8} {labels : List (List UInt8)} :
      bs[i]? = some n → n ≠ 0 → n.toNat < 64 → i + 1 + n.toNat ≤ bs.length →
      Expands bs (i + 1 + n.toNat) labels next →
      Expands bs i ((bs.drop (i + 1)).take n.toNat :: labels) next
  | pointer {i next : Nat} {high low : UInt8} {labels : List (List UInt8)} :
      bs[i]? = some high → 192 ≤ high.toNat → bs[i + 1]? = some low →
      Expands bs (offset high low) labels next → Expands bs i labels (i + 2)

/-- The name at `start` has a length byte at `head`, in the run of labels that begins at `run`. -/
inductive Met (bs : List UInt8) (start : Nat) : (run head : Nat) → Prop where
  | start : Met bs start start start
  | label {run head : Nat} {n : UInt8} :
      Met bs start run head → bs[head]? = some n → n ≠ 0 → n.toNat < 64 →
      Met bs start run (head + 1 + n.toNat)
  | pointer {run head : Nat} {high low : UInt8} :
      Met bs start run head → bs[head]? = some high → 192 ≤ high.toNat → bs[head + 1]? = some low →
      Met bs start (offset high low) (offset high low)

/-- Every length byte of the name is one of the message; it is below 64, or the first byte of a pointer to
before the run of labels that it ends. -/
def Backward (bs : List UInt8) (start : Nat) : Prop :=
  ∀ run head, Met bs start run head → ∃ n, bs[head]? = some n ∧
    (n.toNat < 64 ∨ 192 ≤ n.toNat ∧ ∃ low, bs[head + 1]? = some low ∧ offset n low < run)

/-! ## The expansion of a name -/

variable {bs : List UInt8} {start head i next next' : Nat} {labels labels' : List (List UInt8)}

theorem Backward.expands_from (hb : Backward bs start) (run : Nat) :
    ∀ m head, bs.length - head < m → Met bs start run head → ∃ labels next, Expands bs head labels next := by
  -- A pointer makes the run begin earlier; until then every label is read behind the one before.
  induction run using Nat.strongRecOn with
  | ind run ihRun =>
      intro m
      induction m with
      | zero =>
          intro head hm
          omega
      | succ m ih =>
          intro head hm hmet
          obtain ⟨n, hn, hcase⟩ := hb run head hmet
          have hlt : head < bs.length := (List.getElem?_eq_some_iff.mp hn).1
          by_cases h0 : n = 0
          · subst h0
            exact ⟨[], head + 1, .root hn⟩
          rcases hcase with hsmall | ⟨hp, low, hlow, hback⟩
          · have hmet' := hmet.label hn h0 hsmall
            obtain ⟨n', hn', -⟩ := hb run _ hmet'
            have hin : head + 1 + n.toNat < bs.length := (List.getElem?_eq_some_iff.mp hn').1
            obtain ⟨labels, next, he⟩ := ih _ (by omega) hmet'
            exact ⟨_, next, .label hn h0 hsmall (Nat.le_of_lt hin) he⟩
          · obtain ⟨labels, next, he⟩ := ihRun _ hback _ _ (Nat.lt_succ_self _) (hmet.pointer hn hp hlow)
            exact ⟨labels, head + 2, .pointer hn hp hlow he⟩

theorem Backward.expands (hb : Backward bs start) : ∃ labels next, Expands bs start labels next :=
  hb.expands_from start _ start (Nat.lt_succ_self _) .start

theorem Expands.unique (h : Expands bs i labels next) (h' : Expands bs i labels' next') :
    labels = labels' ∧ next = next' := by
  induction h generalizing labels' next' with
  | root hn =>
      cases h' with
      | root => exact ⟨rfl, rfl⟩
      | label hn' h0 => cases hn.symm.trans hn'; exact absurd rfl h0
      | pointer hn' hp => cases hn.symm.trans hn'; exact absurd hp (by decide)
  | label hn h0 hsmall _ _ ih =>
      cases h' with
      | root hn' => cases hn.symm.trans hn'; exact absurd rfl h0
      | label hn' _ _ _ he' =>
          cases hn.symm.trans hn'
          obtain ⟨rfl, rfl⟩ := ih he'
          exact ⟨rfl, rfl⟩
      | pointer hn' hp => cases hn.symm.trans hn'; omega
  | pointer hn hp hlow _ ih =>
      cases h' with
      | root hn' => cases hn.symm.trans hn'; exact absurd hp (by decide)
      | label hn' _ hsmall => cases hn.symm.trans hn'; omega
      | pointer hn' _ hlow' he' =>
          cases hn.symm.trans hn'
          cases hlow.symm.trans hlow'
          exact ⟨(ih he').1, rfl⟩

/-! ## The loop of `unpack` -/

variable {data : Collections.Ring UInt8} {fuel : Nat} {after : Option Nat} {acc : List (List UInt8)}

/-- The first byte of a pointer, as its two bits and the six others. -/
theorem high_eq {high : UInt8} (h : 192 ≤ high.toNat) :
    high = UInt8.ofNat (192 + (high.toNat - 192)) ∧ high.toNat - 192 < 64 := by
  have hlt := high.toNat_lt
  constructor
  · rw [Nat.add_sub_cancel' h, UInt8.ofNat_toNat]
  · omega

theorem isPointer_of_high {high : UInt8} (h : 192 ≤ high.toNat) : isPointer high = true := by
  have hall : ∀ k < 64, isPointer (UInt8.ofNat (192 + k)) = true := by decide
  obtain ⟨he, hk⟩ := high_eq h
  rw [he]
  exact hall _ hk

theorem target_eq_offset {high low : UInt8} (h : 192 ≤ high.toNat) : target high low = offset high low := by
  have hall : ∀ k < 64, (UInt8.ofNat (192 + k) &&& 0x3F).toNat <<< 8 &&& 0xFF00 = k <<< 8 := by decide
  obtain ⟨he, hk⟩ := high_eq h
  have hhigh := hall _ hk
  rw [← he] at hhigh
  rw [target, hhigh, offset, ← Nat.shiftLeft_add_eq_or_of_lt (i := 8) low.toNat_lt, Nat.shiftLeft_eq]

/-- One iteration of the loop, at a pointer. -/
theorem unpackLoop_pointer {high low : UInt8} (hs : data.get? head = some high) (hp : 192 ≤ high.toNat)
    (hlow : data.get? (head + 1) = some low) :
    unpackLoop data (fuel + 1) head after acc =
      unpackLoop data fuel (offset high low) (some (after.getD (head + 2))) acc := by
  have h0 : high ≠ 0 := by
    rintro rfl
    exact absurd hp (by decide)
  simp only [unpackLoop, hs, hlow, Outcome.ofOption_some, Outcome.done_bind, if_neg h0, isPointer_of_high hp,
    if_true, target_eq_offset hp]

theorem holds_zero (hbuf : Holds data 0 bs) {b : UInt8} (hb : bs[i]? = some b) : data.get? i = some b := by
  have h := hbuf i b hb
  rwa [Nat.zero_add] at h

theorem holds_drop_take (hbuf : Holds data 0 bs) (n : Nat) : Holds data i ((bs.drop i).take n) := by
  intro j b hj
  rw [List.getElem?_take, List.getElem?_drop] at hj
  split at hj
  · exact holds_zero hbuf hj
  · cases hj

/-- With enough iterations the loop returns the expansion of the name, and does not move the head that an
earlier pointer has set. -/
theorem Expands.unpackLoop (hbuf : Holds data 0 bs) (h : Expands bs i labels next) :
    ∃ n, ∀ fuel ≥ n, ∀ after acc,
      unpackLoop data fuel i after acc = .done (⟨acc ++ (labels ++ [[]])⟩, after.getD next) := by
  induction h with
  | root hn =>
      refine ⟨1, fun fuel hf after acc => ?_⟩
      obtain ⟨k, rfl⟩ := Nat.exists_eq_add_of_le' hf
      exact unpackLoop_end (holds_zero hbuf hn)
  | @label i next n labels hn h0 hsmall hin _ ih =>
      obtain ⟨m, hm⟩ := ih
      refine ⟨m + 1, fun fuel hf after acc => ?_⟩
      obtain ⟨k, rfl⟩ := Nat.exists_eq_add_of_le' hf
      have hplain : isPointer n = false := isPointer_of_le (UInt8.le_iff_toNat_le.mpr (by
        change n.toNat ≤ 63
        omega))
      have hlength : ((bs.drop (i + 1)).take n.toNat).length = n.toNat := by
        rw [List.length_take, List.length_drop]
        omega
      have hlab := label_eq_some_iff.mpr ⟨hlength, holds_drop_take hbuf (i := i + 1) n.toNat⟩
      rw [← Nat.add_assoc, unpackLoop_label (holds_zero hbuf hn) h0 hplain hlab, hm _ (by omega)]
      simp only [List.append_assoc, List.cons_append, List.nil_append]
  | pointer hn hp hlow _ ih =>
      obtain ⟨m, hm⟩ := ih
      refine ⟨m + 1, fun fuel hf after acc => ?_⟩
      obtain ⟨k, rfl⟩ := Nat.exists_eq_add_of_le' hf
      rw [← Nat.add_assoc, unpackLoop_pointer (holds_zero hbuf hn) hp (holds_zero hbuf hlow), hm _ (by omega)]
      rfl

theorem Expands.unpack {s : MemoryStream} (hbuf : Holds s.data 0 bs) (h : Expands bs s.currentHead labels next) :
    ∃ n, ∀ fuel ≥ n, unpack fuel s = .done (⟨labels ++ [[]]⟩, { s with currentHead := next }) := by
  obtain ⟨n, hn⟩ := h.unpackLoop hbuf
  refine ⟨n, fun fuel hf => ?_⟩
  rw [Domain.unpack, hn fuel hf]
  rfl

/-- Where every length byte of the name is below 64 or begins a pointer to before its run of labels, `unpack`
returns the one expansion of the name with the empty label behind it, and leaves the head behind the first
pointer, or behind the zero byte if there was none. -/
theorem unpack_expands {s : MemoryStream} (hbuf : Holds s.data 0 bs) (hb : Backward bs s.currentHead) :
    ∃ labels next, Expands bs s.currentHead labels next ∧
      (∀ labels' next', Expands bs s.currentHead labels' next' → labels' = labels ∧ next' = next) ∧
      ∃ n, ∀ fuel ≥ n,
        unpack fuel s = .done (⟨labels ++ [[]]⟩, { s with currentHead := next }) := by
  obtain ⟨labels, next, he⟩ := hb.expands
  exact ⟨labels, next, he, fun _ _ he' => he'.unique he, he.unpack hbuf⟩

/-- The name `a` at 0, and at 3 the name `b.a`, which ends in a pointer to it. -/
def compressed : List UInt8 := [1, 97, 0, 1, 98, 192, 0]

theorem met_compressed {run head : Nat} (h : Met compressed 3 run head) :
    (run, head) ∈ [(3, 3), (3, 5), (0, 0), (0, 2)] := by
  induction h with
  | start => decide
  | label _ hn h0 hsmall ih =>
      simp only [List.mem_cons, Prod.mk.injEq, List.not_mem_nil, or_false] at ih
      rcases ih with ⟨rfl, rfl⟩ | ⟨rfl, rfl⟩ | ⟨rfl, rfl⟩ | ⟨rfl, rfl⟩
      · cases hn; decide
      · cases hn; exact absurd hsmall (by decide)
      · cases hn; decide
      · cases hn; exact absurd rfl h0
  | pointer _ hn hp hlow ih =>
      simp only [List.mem_cons, Prod.mk.injEq, List.not_mem_nil, or_false] at ih
      rcases ih with ⟨rfl, rfl⟩ | ⟨rfl, rfl⟩ | ⟨rfl, rfl⟩ | ⟨rfl, rfl⟩
      · cases hn; exact absurd hp (by decide)
      · cases hn; cases hlow; decide
      · cases hn; exact absurd hp (by decide)
      · cases hn; exact absurd hp (by decide)

theorem backward_compressed : Backward compressed 3 := by
  intro run head h
  have hmem := met_compressed h
  simp only [List.mem_cons, Prod.mk.injEq, List.not_mem_nil, or_false] at hmem
  rcases hmem with ⟨rfl, rfl⟩ | ⟨rfl, rfl⟩ | ⟨rfl, rfl⟩ | ⟨rfl, rfl⟩
  · exact ⟨1, rfl, .inl (by decide)⟩
  · exact ⟨192, rfl, .inr ⟨by decide, 0, rfl, by decide⟩⟩
  · exact ⟨1, rfl, .inl (by decide)⟩
  · exact ⟨0, rfl, .inl (by decide)⟩

theorem expands_compressed : Expands compressed 3 [[98], [97]] 7 := by
  have hname : Expands compressed (offset 192 0) [[97]] 3 :=
    .label (n := 1) rfl (by decide) (by decide) (by decide) (.root rfl)
  have hpointer : Expands compressed 5 [[97]] 7 := .pointer rfl (by decide) rfl hname
  exact .label (n := 1) rfl (by decide) (by decide) (by decide) hpointer

/-- A message as it comes from a socket, in a ring that starts at its first cell. -/
theorem holds_of_isPrefix (hd : data.head = 0) (hp : bs <+: data.data) : Holds data 0 bs := by
  intro i b hi
  have hcell := Lists.getElem?_of_prefix hp hi
  have hlt : i < data.data.length := (List.getElem?_eq_some_iff.mp hcell).1
  simp only [Collections.Ring.get?, hd, Nat.zero_add, Nat.add_zero]
  rw [if_neg (by have : data.capacity = data.data.length := rfl; omega)]
  exact hcell

/-- The ring after `resize(size)`, `used(size)` and the read of as many bytes into its vector. -/
def received (bs : List UInt8) : Collections.Ring UInt8 :=
  { tail := bs.length, sz := bs.length, data := bs, needsResize := true }

theorem unpack_expands_compressed :
    ∃ n, ∀ fuel ≥ n, unpack fuel ⟨received compressed, 3⟩ =
      .done (⟨[[98], [97], []]⟩, ⟨received compressed, 7⟩) := by
  obtain ⟨labels, next, -, hunique, hn⟩ := unpack_expands (s := ⟨received compressed, 3⟩)
    (holds_of_isPrefix rfl (List.prefix_refl compressed)) backward_compressed
  obtain ⟨rfl, rfl⟩ := hunique _ _ expands_compressed
  exact hn

end Dwhbll.Network.Dns.Domain
