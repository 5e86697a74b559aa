import Mathlib.Data.List.Basic

/-!
# `UUID` of `utils/uuid.cpp`

Each byte is formatted with as many digits as it needs. The string has the usual form, and stands for one UUID only, if
no byte does with one digit.
-/

namespace Dwhbll.Utils

structure UUID where
  data : Vector UInt8 16
  deriving DecidableEq

namespace UUID

def hexDigits : List Char := "0123456789ABCDEF".toList

def digit (n : Nat) : Char := hexDigits.getD n '0'

/-- A byte in the format `X`, which neither pads it nor marks it. -/
def format (b : UInt8) : List Char :=
  if b.toNat < 16 then [digit b.toNat] else [digit (b.toNat / 16), digit (b.toNat % 16)]

/-- `count` bytes from number `first` on. -/
def group (u : UUID) (first count : Nat) : List Char := ((u.data.toList.drop first).take count).flatMap format

def toString (u : UUID) : List Char :=
  ['-'].intercalate [u.group 0 4, u.group 4 2, u.group 6 2, u.group 8 2, u.group 10 6]

/-- Five groups of hexadecimal digits with dashes between them. -/
structure Canonical (s : List Char) : Prop where
  length : s.length = 36
  groups : ∃ gs : List (List Char), s = ['-'].intercalate gs ∧ gs.map List.length = [8, 4, 4, 4, 12] ∧
    ∀ g ∈ gs, ∀ c ∈ g, c ∈ hexDigits

variable {u v : UUID} {b c : UInt8} {bs cs : List UInt8}

/-! ## Bytes -/

theorem digit_mem {n : Nat} (h : n < 16) : digit n ∈ hexDigits := by
  have hall : ∀ n : Fin 16, digit n ∈ hexDigits := by decide
  exact hall ⟨n, h⟩

theorem digit_inj {m n : Nat} (hm : m < 16) (hn : n < 16) (h : digit m = digit n) : m = n := by
  have hall : ∀ m n : Fin 16, digit m = digit n → m = n := by decide
  exact congrArg Fin.val (hall ⟨m, hm⟩ ⟨n, hn⟩ h)

theorem mem_format {x : Char} (h : x ∈ format b) : x ∈ hexDigits := by
  have hlt := b.toNat_lt
  unfold format at h
  split at h
  · rename_i hsmall
    rw [List.mem_singleton.mp h]
    exact digit_mem hsmall
  · rcases List.mem_cons.mp h with rfl | h
    · exact digit_mem (by omega)
    · rw [List.mem_singleton.mp h]
      exact digit_mem (by omega)

theorem format_length_le (b : UInt8) : (format b).length ≤ 2 := by
  unfold format
  split <;> simp

theorem format_length_iff : (format b).length = 2 ↔ 16 ≤ b.toNat := by
  unfold format
  split
  · rename_i hsmall
    exact iff_of_false (by simp) (by omega)
  · rename_i hlarge
    exact iff_of_true rfl (by omega)

theorem format_inj (hb : 16 ≤ b.toNat) (hc : 16 ≤ c.toNat) (h : format b = format c) : b = c := by
  have hb' := b.toNat_lt
  have hc' := c.toNat_lt
  rw [format, format, if_neg (by omega), if_neg (by omega)] at h
  obtain ⟨hhigh, hlow⟩ := List.cons.inj h
  have hhigh := digit_inj (by omega) (by omega) hhigh
  have hlow := digit_inj (by omega) (by omega) (List.cons.inj hlow).1
  exact UInt8.toNat_inj.mp (by omega)

/-! ## Several bytes -/

theorem flatMap_length_le (bs : List UInt8) : (bs.flatMap format).length ≤ 2 * bs.length := by
  induction bs with
  | nil => exact Nat.le_refl _
  | cons b bs ih =>
      have hb := format_length_le b
      simp only [List.flatMap_cons, List.length_append, List.length_cons]
      omega

theorem flatMap_length_iff : (bs.flatMap format).length = 2 * bs.length ↔ ∀ b ∈ bs, 16 ≤ b.toNat := by
  induction bs with
  | nil => simp
  | cons b bs ih =>
      have hb := format_length_le b
      have hbs := flatMap_length_le bs
      rw [List.forall_mem_cons, ← ih, ← format_length_iff]
      simp only [List.flatMap_cons, List.length_append, List.length_cons]
      omega

theorem flatMap_inj (hb : ∀ b ∈ bs, 16 ≤ b.toNat) (hc : ∀ c ∈ cs, 16 ≤ c.toNat) (hlen : bs.length = cs.length)
    (h : bs.flatMap format = cs.flatMap format) : bs = cs := by
  induction bs generalizing cs with
  | nil => exact (List.eq_nil_of_length_eq_zero hlen.symm).symm
  | cons b bs ih =>
      obtain ⟨c, cs, rfl⟩ := List.exists_cons_of_length_eq_add_one hlen.symm
      obtain ⟨hb, hbs⟩ := List.forall_mem_cons.mp hb
      obtain ⟨hc, hcs⟩ := List.forall_mem_cons.mp hc
      rw [List.flatMap_cons, List.flatMap_cons] at h
      have hsame : (format b).length = (format c).length :=
        (format_length_iff.mpr hb).trans (format_length_iff.mpr hc).symm
      obtain ⟨hformat, hrest⟩ := List.append_inj h hsame
      rw [format_inj hb hc hformat, ih hbs hcs (Nat.succ.inj hlen) hrest]

/-! ## The string -/

theorem groups_append (u : UUID) :
    u.group 0 4 ++ (u.group 4 2 ++ (u.group 6 2 ++ (u.group 8 2 ++ u.group 10 6))) = u.data.toList.flatMap format := by
  have hsplit : ∀ first count, u.group first count ++ (u.data.toList.drop (first + count)).flatMap format =
      (u.data.toList.drop first).flatMap format := by
    intro first count
    rw [group, ← List.flatMap_append, ← List.drop_drop, List.take_append_drop]
  have hlast : u.group 10 6 = (u.data.toList.drop 10).flatMap format := by
    rw [group, List.take_of_length_le (by simp)]
  rw [hlast, hsplit 8 2, hsplit 6 2, hsplit 4 2, hsplit 0 4, List.drop_zero]

theorem toString_eq (u : UUID) : u.toString = u.group 0 4 ++ '-' :: (u.group 4 2 ++ '-' :: (u.group 6 2 ++
    '-' :: (u.group 8 2 ++ '-' :: u.group 10 6))) := by
  simp [toString, List.intercalate]

theorem toString_length (u : UUID) : u.toString.length = (u.data.toList.flatMap format).length + 4 := by
  rw [← groups_append, toString_eq]
  simp only [List.length_append, List.length_cons]
  omega

theorem mem_group {first count : Nat} {x : Char} (h : x ∈ u.group first count) : x ∈ hexDigits := by
  obtain ⟨b, -, hx⟩ := List.mem_flatMap.mp h
  exact mem_format hx

/-- Without its dashes the string is the digits of the bytes one after the other. -/
theorem toString_filter (u : UUID) : u.toString.filter (· ≠ '-') = u.data.toList.flatMap format := by
  have hgroup : ∀ first count, (u.group first count).filter (· ≠ '-') = u.group first count := by
    intro first count
    refine List.filter_eq_self.mpr fun x hx => decide_eq_true fun hdash => ?_
    exact absurd (hdash ▸ mem_group hx) (by decide)
  rw [← groups_append, toString_eq]
  simp only [List.filter_append, List.filter_cons, hgroup]
  simp

theorem toString_length_iff : u.toString.length = 36 ↔ ∀ b ∈ u.data.toList, 16 ≤ b.toNat := by
  rw [toString_length, ← flatMap_length_iff, Vector.length_toList]
  omega

theorem group_length (h : ∀ b ∈ u.data.toList, 16 ≤ b.toNat) {first count : Nat} (hle : first + count ≤ 16) :
    (u.group first count).length = 2 * count := by
  have hlen : ((u.data.toList.drop first).take count).length = count := by
    rw [List.length_take, List.length_drop, Vector.length_toList]
    omega
  rw [group, flatMap_length_iff.mpr fun b hb => h b (List.mem_of_mem_drop (List.mem_of_mem_take hb)), hlen]

/-- The string of a UUID has the usual form and is that of no other one if and only if all bytes have two digits. -/
theorem toString_canonical_iff (u : UUID) :
    (Canonical u.toString ∧ ∀ v : UUID, u.toString = v.toString ↔ u = v) ↔ ∀ b ∈ u.data.toList, 16 ≤ b.toNat := by
  constructor
  · rintro ⟨hcanonical, -⟩
    exact toString_length_iff.mp hcanonical.length
  · intro h
    refine ⟨⟨toString_length_iff.mpr h, _, rfl, ?_, ?_⟩, fun v => ⟨fun heq => ?_, congrArg toString⟩⟩
    · simp [group_length h]
    · intro g hg x hx
      simp only [List.mem_cons, List.not_mem_nil, or_false] at hg
      rcases hg with rfl | rfl | rfl | rfl | rfl <;> exact mem_group hx
    · have hv : ∀ b ∈ v.data.toList, 16 ≤ b.toNat := toString_length_iff.mp (heq ▸ toString_length_iff.mpr h)
      have hsame := congrArg (List.filter (· ≠ '-')) heq
      rw [toString_filter, toString_filter] at hsame
      exact congrArg mk (Vector.toList_inj.mp (flatMap_inj h hv (by simp) hsame))

/-- The string of the nil UUID is too short, and two UUIDs have one string. -/
theorem toString_nil_short :
    (UUID.mk (.replicate 16 0)).toString = "0000-00-00-00-000000".toList ∧
      ¬ Canonical (UUID.mk (.replicate 16 0)).toString ∧
      (UUID.mk #v[0x01, 0x11, 0, 0, 0, 0, 0, 0, 0, 0, 0, 0, 0, 0, 0, 0]).toString =
        (UUID.mk #v[0x11, 0x01, 0, 0, 0, 0, 0, 0, 0, 0, 0, 0, 0, 0, 0, 0]).toString ∧
      UUID.mk #v[0x01, 0x11, 0, 0, 0, 0, 0, 0, 0, 0, 0, 0, 0, 0, 0, 0] ≠
        UUID.mk #v[0x11, 0x01, 0, 0, 0, 0, 0, 0, 0, 0, 0, 0, 0, 0, 0, 0] := by
  refine ⟨by decide, fun h => ?_, by decide, by decide⟩
  exact absurd h.length (by decide)

end UUID

end Dwhbll.Utils
