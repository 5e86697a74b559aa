import Dwhbll.Json.Grammar
import Dwhbll.Json.Rfc
import Mathlib.Data.List.TakeWhile

/-!
# The texts that `std::from_chars` reads

The longest text at the start of the input that follows the decimal syntax of `strtod`, without a plus sign: digits
with a point anywhere among them and an exponent, or an infinity, or a NaN. Which of these texts are numbers of
RFC 8259 can be seen at a few of their characters.
-/

namespace Dwhbll.FromChars

open Ascii JsonText Rfc8259

def point : UInt8 := 0x2E

/-! ## The syntax of `strtod` -/

def lower (c : UInt8) : UInt8 := if 0x41 ≤ c ∧ c ≤ 0x5A then c + 0x20 else c

/-- A digit, a letter or an underscore. -/
def isNChar (c : UInt8) : Bool := isDigit c || (0x61 ≤ lower c && lower c ≤ 0x7A) || c == 0x5F

/-- The characters in parentheses that may follow `nan`. -/
def nanSequence : Bytes → Bytes
  | [] => []
  | c :: u =>
      if c = 0x28 ∧ (u.dropWhile isNChar).head? = some 0x29 then c :: (u.takeWhile isNChar ++ [0x29]) else []

/-- An infinity or a NaN, in either case. -/
def specialPrefix (u : Bytes) : Option Bytes :=
  if (ascii "infinity").isPrefixOf (u.map lower) then some (u.take 8)
  else if (ascii "inf").isPrefixOf (u.map lower) then some (u.take 3)
  else if (ascii "nan").isPrefixOf (u.map lower) then some (u.take 3 ++ nanSequence (u.drop 3))
  else none

/-- The point and the digits behind it, of which there need not be any. -/
def fracPrefix : Bytes → Bytes
  | [] => []
  | c :: v => if c = point then c :: v.takeWhile isDigit else []

def signPrefix : Bytes → Bytes
  | [] => []
  | c :: _ => if c = 0x2D ∨ c = 0x2B then [c] else []

/-- The exponent, if there are digits in it. -/
def expPrefix : Bytes → Bytes
  | [] => []
  | c :: v =>
      let sign := signPrefix v
      let ds := (v.drop sign.length).takeWhile isDigit
      if (c = 0x65 ∨ c = 0x45) ∧ ds ≠ [] then c :: (sign ++ ds) else []

def decimalPrefix (u : Bytes) : Option Bytes :=
  let ds := u.takeWhile isDigit
  let frac := fracPrefix (u.dropWhile isDigit)
  if ds = [] ∧ frac.length ≤ 1 then none
  else some (ds ++ (frac ++ expPrefix ((u.dropWhile isDigit).drop frac.length)))

def unsignedPrefix (u : Bytes) : Option Bytes := (specialPrefix u).or (decimalPrefix u)

/-- The text that `std::from_chars` reads at the start of `u`, unless the number is out of range. -/
def floatPrefix : Bytes → Option Bytes
  | [] => none
  | c :: u => if c = minus then (unsignedPrefix u).map (c :: ·) else unsignedPrefix (c :: u)

/-- What is assumed of `std::from_chars`: where it succeeds it has consumed this text. -/
def ReadsFloats {F : Type} (ops : FloatOps F) : Prop :=
  ∀ u x n, ops.fromChars u = some (x, n) → ∃ t, floatPrefix u = some t ∧ n = t.length

/-! ## Numbers of RFC 8259 -/

def unsigned : Bytes → Bytes
  | [] => []
  | c :: u => if c = minus then u else c :: u

/-- The number at the start of `u` begins with a digit, with no other digit behind a zero, and has a digit behind its
point. -/
def isFine (u : Bytes) : Bool :=
  (unsigned u).head?.any isDigit &&
    !((unsigned u).head? == some zero && (unsigned u).tail.head?.any isDigit) &&
    (!(((unsigned u).dropWhile isDigit).head? == some point) || ((unsigned u).dropWhile isDigit).tail.head?.any isDigit)

variable {t u v rest : Bytes} {c : UInt8}

/-! ## The text is at the start -/

theorem nanSequence_starts (u : Bytes) : nanSequence u <+: u := by
  cases u with
  | nil => exact List.nil_prefix
  | cons c u =>
      rw [nanSequence]
      split
      · rename_i h
        rw [List.cons_prefix_cons]
        refine ⟨rfl, ?_⟩
        obtain ⟨v, hv⟩ := List.head?_eq_some_iff.mp h.2
        exact ⟨v, by rw [List.append_assoc, List.singleton_append, ← hv, List.takeWhile_append_dropWhile]⟩
      · exact List.nil_prefix

theorem specialPrefix_starts (h : specialPrefix u = some t) : t <+: u := by
  unfold specialPrefix at h
  split at h
  · cases h
    exact List.take_prefix ..
  · split at h
    · cases h
      exact List.take_prefix ..
    · split at h
      · cases h
        obtain ⟨v, hv⟩ := nanSequence_starts (u.drop 3)
        exact ⟨v, by rw [List.append_assoc, hv, List.take_append_drop]⟩
      · cases h

theorem fracPrefix_starts (u : Bytes) : fracPrefix u <+: u := by
  cases u with
  | nil => exact List.nil_prefix
  | cons c u =>
      rw [fracPrefix]
      split
      · exact List.cons_prefix_cons.mpr ⟨rfl, List.takeWhile_prefix _⟩
      · exact List.nil_prefix

theorem signPrefix_starts (u : Bytes) : signPrefix u <+: u := by
  cases u with
  | nil => exact List.nil_prefix
  | cons c u =>
      rw [signPrefix]
      split
      · exact List.cons_prefix_cons.mpr ⟨rfl, List.nil_prefix⟩
      · exact List.nil_prefix

theorem append_starts (h : t <+: u) (hv : v <+: u.drop t.length) : t ++ v <+: u := by
  rw [← List.prefix_iff_eq_append.mp h]
  exact (List.prefix_append_right_inj t).mpr hv

theorem expPrefix_starts (u : Bytes) : expPrefix u <+: u := by
  cases u with
  | nil => exact List.nil_prefix
  | cons c u =>
      simp only [expPrefix]
      split
      · rw [List.cons_prefix_cons]
        exact ⟨rfl, append_starts (signPrefix_starts u) (List.takeWhile_prefix _)⟩
      · exact List.nil_prefix

theorem decimalPrefix_starts (h : decimalPrefix u = some t) : t <+: u := by
  simp only [decimalPrefix] at h
  split at h
  · cases h
  · cases h
    obtain ⟨v, hv⟩ := append_starts (fracPrefix_starts (u.dropWhile isDigit)) (expPrefix_starts _)
    exact ⟨v, by rw [List.append_assoc, hv, List.takeWhile_append_dropWhile]⟩

theorem unsignedPrefix_starts (h : unsignedPrefix u = some t) : t <+: u := by
  rcases Option.or_eq_some_iff.mp h with h | ⟨-, h⟩
  · exact specialPrefix_starts h
  · exact decimalPrefix_starts h

theorem floatPrefix_starts (h : floatPrefix u = some t) : t <+: u := by
  cases u with
  | nil => cases h
  | cons c u =>
      rw [floatPrefix] at h
      split at h
      · obtain ⟨v, hv, rfl⟩ := Option.map_eq_some_iff.mp h
        exact List.cons_prefix_cons.mpr ⟨rfl, unsignedPrefix_starts hv⟩
      · exact unsignedPrefix_starts h

/-! ## A fine text is a number -/

/-- What begins with a digit is no infinity and no NaN. -/
theorem specialPrefix_of_digit (h : isDigit c = true) : specialPrefix (c :: u) = none := by
  simp only [isDigit, Bool.and_eq_true, decide_eq_true_eq] at h
  have hne : ∀ d : UInt8, 0x39 < d → (d == lower c) = false := by
    intro d hd
    have hlower : lower c = c := by
      unfold lower
      rw [if_neg]
      rintro ⟨h1, -⟩
      exact absurd (UInt8.le_trans h1 h.2) (by decide)
    rw [hlower, beq_eq_false_iff_ne]
    rintro rfl
    exact absurd h.2 (UInt8.not_le.mpr hd)
  have hi := hne 0x69 (by decide)
  have hn := hne 0x6E (by decide)
  have hinfinity : (ascii "infinity").isPrefixOf ((c :: u).map lower) = false := by
    simp [ascii, List.isPrefixOf, hi]
  have hinf : (ascii "inf").isPrefixOf ((c :: u).map lower) = false := by
    simp [ascii, List.isPrefixOf, hi]
  have hnan : (ascii "nan").isPrefixOf ((c :: u).map lower) = false := by
    simp [ascii, List.isPrefixOf, hn]
  rw [specialPrefix, hinfinity, hinf, hnan]
  rfl

/-- What begins as the parser expects a number to begin. -/
theorem floatPrefix_cons (hc : c = minus ∨ isDigit c = true) (h : floatPrefix (c :: u) = some t) :
    ∃ v, t = c :: v := by
  rw [floatPrefix] at h
  split at h
  · obtain ⟨v, -, rfl⟩ := Option.map_eq_some_iff.mp h
    exact ⟨v, rfl⟩
  · rename_i hne
    have hd := hc.resolve_left hne
    rw [unsignedPrefix, specialPrefix_of_digit hd, Option.none_or] at h
    simp only [decimalPrefix, List.takeWhile_cons_of_pos hd] at h
    split at h
    · cases h
    · cases h
      exact ⟨_, rfl⟩

theorem exp_expPrefix (u : Bytes) : Exp (expPrefix u) := by
  cases u with
  | nil => exact .none
  | cons c u =>
      simp only [expPrefix]
      split
      · rename_i h
        refine .some h.1 ?_ ⟨h.2, fun c hc => List.mem_takeWhile_imp hc⟩
        cases u with
        | nil => exact .inl rfl
        | cons d u =>
            rw [signPrefix]
            split
            · rename_i hd
              rcases hd with rfl | rfl
              · exact .inr (.inl rfl)
              · exact .inr (.inr rfl)
            · exact .inl rfl
      · exact .none

theorem frac_fracPrefix (h : u.head? = some point → u.tail.head?.any isDigit = true) : Frac (fracPrefix u) := by
  cases u with
  | nil => exact .none
  | cons c u =>
      rw [fracPrefix]
      split
      · rename_i hc
        subst hc
        refine .some ⟨?_, fun c hc => List.mem_takeWhile_imp hc⟩
        have hdigit := h rfl
        cases u with
        | nil => cases hdigit
        | cons d u => simp [show isDigit d = true from hdigit]
      · exact .none

theorem intPart_takeWhile (hc : isDigit c = true) (h : c = zero → u.head?.any isDigit = false) :
    IntPart ((c :: u).takeWhile isDigit) := by
  rw [List.takeWhile_cons_of_pos hc]
  by_cases h0 : c = zero
  · have hnil : u.takeWhile isDigit = [] := by
      cases u with
      | nil => rfl
      | cons d u => simp [show isDigit d = false from h h0]
    rw [hnil, h0]
    exact .zero
  · exact .positive hc h0 fun d hd => List.mem_takeWhile_imp hd

theorem isFine_iff : isFine u = true ↔ ∃ d v, unsigned u = d :: v ∧ isDigit d = true ∧
    (d = zero → v.head?.any isDigit = false) ∧
    (((unsigned u).dropWhile isDigit).head? = some point →
      ((unsigned u).dropWhile isDigit).tail.head?.any isDigit = true) := by
  unfold isFine
  cases hu : unsigned u with
  | nil => simp
  | cons d v => simp [Bool.or_eq_true, Classical.or_iff_not_imp_left, and_assoc]

theorem number_of_isFine (h : floatPrefix u = some t) (hfine : isFine u = true) : Number t := by
  obtain ⟨d, v, hu, hd, hzero, hpoint⟩ := isFine_iff.mp hfine
  have hunsigned : ∀ {t}, unsignedPrefix (unsigned u) = some t →
      ∃ i f e, t = i ++ (f ++ e) ∧ IntPart i ∧ Frac f ∧ Exp e := by
    intro t ht
    have hint := intPart_takeWhile hd hzero
    rw [unsignedPrefix, hu, specialPrefix_of_digit hd, Option.none_or, ← hu] at ht
    simp only [decimalPrefix] at ht
    split at ht
    · cases ht
    · cases ht
      exact ⟨_, _, _, rfl, hu ▸ hint, frac_fracPrefix hpoint, exp_expPrefix _⟩
  cases u with
  | nil => cases h
  | cons c u =>
      rw [floatPrefix] at h
      split at h
      · rename_i hc
        rw [unsigned, if_pos hc] at hunsigned
        obtain ⟨t', ht', rfl⟩ := Option.map_eq_some_iff.mp h
        obtain ⟨i, f, e, rfl, hi, hf, he⟩ := hunsigned ht'
        rw [hc]
        exact .mk (m := [minus]) (.inr rfl) hi hf he
      · rename_i hc
        rw [unsigned, if_neg hc] at hunsigned
        obtain ⟨i, f, e, rfl, hi, hf, he⟩ := hunsigned h
        exact .mk (m := []) (.inl rfl) hi hf he

/-! ## A number is a fine text, and is read to its end -/

/-- What follows is no part of a number. -/
def Ends (rest : Bytes) : Prop :=
  ∀ c ∈ rest.head?, isDigit c = false ∧ c ≠ point ∧ ¬ (c = 0x65 ∨ c = 0x45)

theorem ends_of_delim (h : Delim rest) : Ends rest := by
  intro c hc
  rcases h c hc with hs | rfl | rfl | rfl
  · simp only [isSpace, Bool.or_eq_true, beq_iff_eq] at hs
    rcases hs with ((rfl | rfl) | rfl) | rfl <;> exact ⟨rfl, by decide, by decide⟩
  · exact ⟨rfl, by decide, by decide⟩
  · exact ⟨rfl, by decide, by decide⟩
  · exact ⟨rfl, by decide, by decide⟩

theorem takeWhile_digits {ds : Bytes} (hds : ∀ c ∈ ds, isDigit c = true) (h : u.head?.any isDigit = false) :
    (ds ++ u).takeWhile isDigit = ds ∧ (ds ++ u).dropWhile isDigit = u := by
  rw [List.takeWhile_append_of_pos hds, List.dropWhile_append_of_pos hds]
  cases u with
  | nil => simp
  | cons c u => simp [show isDigit c = false from h]

theorem Ends.not_digit (h : Ends rest) : rest.head?.any isDigit = false := by
  cases rest with
  | nil => rfl
  | cons c rest => exact (h c rfl).1

theorem expPrefix_eq {e : Bytes} (he : Exp e) (h : Ends rest) : expPrefix (e ++ rest) = e := by
  cases he with
  | none =>
      cases rest with
      | nil => rfl
      | cons c rest => simp [expPrefix, (h c rfl).2.2]
  | @some c sign ds hc hs hds =>
      have hsign : signPrefix (sign ++ (ds ++ rest)) = sign := by
        rcases hs with rfl | rfl | rfl
        · obtain ⟨d, ds', rfl⟩ := List.exists_cons_of_ne_nil hds.1
          have hd : ¬ (d = 0x2D ∨ d = 0x2B) := by
            rintro (rfl | rfl) <;> exact absurd (hds.2 _ List.mem_cons_self) (by decide)
          simp [signPrefix, hd]
        · rfl
        · rfl
      have htake := (takeWhile_digits hds.2 h.not_digit).1
      simp only [List.cons_append, List.append_assoc, expPrefix, hsign, List.drop_left, htake]
      rw [if_pos ⟨hc, hds.1⟩]

theorem exp_ends {e : Bytes} (he : Exp e) (h : Ends rest) :
    (e ++ rest).head?.any isDigit = false ∧ (e ++ rest).head? ≠ some point := by
  cases he with
  | none =>
      refine ⟨h.not_digit, fun hp => ?_⟩
      exact (h point hp).2.1 rfl
  | some hc _ _ =>
      rcases hc with rfl | rfl
      · exact ⟨rfl, by simp [point]⟩
      · exact ⟨rfl, by simp [point]⟩

theorem fracPrefix_eq {f e : Bytes} (hf : Frac f) (he : Exp e) (h : Ends rest) :
    fracPrefix (f ++ (e ++ rest)) = f := by
  obtain ⟨hdigit, hpoint⟩ := exp_ends he h
  cases hf with
  | none =>
      cases hv : e ++ rest with
      | nil => rfl
      | cons c v =>
          rw [hv] at hpoint
          have hc : c ≠ point := fun hc => hpoint (by rw [hc]; rfl)
          simp [fracPrefix, hc]
  | some hds =>
      have hpoint : (0x2E : UInt8) = point := rfl
      rw [List.cons_append, fracPrefix, if_pos hpoint, (takeWhile_digits hds.2 hdigit).1]

theorem frac_ends {f e : Bytes} (hf : Frac f) (he : Exp e) (h : Ends rest) :
    (f ++ (e ++ rest)).head?.any isDigit = false ∧
      ((f ++ (e ++ rest)).head? = some point → (f ++ (e ++ rest)).tail.head?.any isDigit = true) := by
  obtain ⟨hdigit, hpoint⟩ := exp_ends he h
  cases hf with
  | none => exact ⟨hdigit, fun hp => absurd hp hpoint⟩
  | some hds =>
      obtain ⟨d, ds, rfl⟩ := List.exists_cons_of_ne_nil hds.1
      exact ⟨rfl, fun _ => hds.2 d List.mem_cons_self⟩

theorem intPart_digits {i : Bytes} (h : IntPart i) :
    ∃ d ds, i = d :: ds ∧ isDigit d = true ∧ (∀ c ∈ ds, isDigit c = true) ∧ (d = zero → ds = []) := by
  cases h with
  | zero => exact ⟨_, _, rfl, rfl, by simp, fun _ => rfl⟩
  | positive hd h0 hds => exact ⟨_, _, rfl, hd, hds, fun h => absurd h h0⟩

theorem unsignedPrefix_eq {i f e : Bytes} (hi : IntPart i) (hf : Frac f) (he : Exp e) (h : Ends rest) :
    unsignedPrefix (i ++ (f ++ (e ++ rest))) = some (i ++ (f ++ e)) := by
  obtain ⟨d, ds, rfl, hd, hds, -⟩ := intPart_digits hi
  have hall : ∀ c ∈ d :: ds, isDigit c = true := List.forall_mem_cons.mpr ⟨hd, hds⟩
  obtain ⟨htake, hdrop⟩ := takeWhile_digits hall (frac_ends hf he h).1
  rw [unsignedPrefix, List.cons_append, specialPrefix_of_digit hd, Option.none_or, ← List.cons_append]
  simp only [decimalPrefix, htake, hdrop, fracPrefix_eq hf he h, List.drop_left, expPrefix_eq he h]
  rw [if_neg (fun hnil => nomatch hnil.1)]

theorem unsigned_isFine {i f e : Bytes} (hi : IntPart i) (hf : Frac f) (he : Exp e) (h : Ends rest)
    (hu : unsigned u = i ++ (f ++ (e ++ rest))) : isFine u = true := by
  obtain ⟨d, ds, rfl, hd, hds, hzero⟩ := intPart_digits hi
  have hall : ∀ c ∈ d :: ds, isDigit c = true := List.forall_mem_cons.mpr ⟨hd, hds⟩
  have hdrop := (takeWhile_digits hall (frac_ends hf he h).1).2
  rw [isFine_iff, hu]
  refine ⟨d, _, rfl, hd, fun h0 => ?_, ?_⟩
  · rw [hzero h0]
    exact (frac_ends hf he h).1
  · rw [hdrop]
    exact (frac_ends hf he h).2

theorem number_read (hn : Number t) (h : Delim rest) :
    floatPrefix (t ++ rest) = some t ∧ isFine (t ++ rest) = true := by
  have hends := ends_of_delim h
  obtain @⟨m, i, f, e, hm, hi, hf, he⟩ := hn
  have hread := unsignedPrefix_eq hi hf he hends
  simp only [List.append_assoc]
  rcases hm with rfl | rfl
  · obtain ⟨d, ds, rfl, hd, -⟩ := intPart_digits hi
    have hne : d ≠ minus := by
      rintro rfl
      exact absurd hd (by decide)
    have hu : unsigned (d :: ds ++ (f ++ (e ++ rest))) = d :: ds ++ (f ++ (e ++ rest)) := if_neg hne
    rw [List.nil_append, List.nil_append]
    refine ⟨?_, unsigned_isFine hi hf he hends hu⟩
    rw [List.cons_append, floatPrefix, if_neg hne]
    exact hread
  · refine ⟨?_, unsigned_isFine hi hf he hends rfl⟩
    rw [List.singleton_append, floatPrefix, if_pos rfl, hread]
    rfl

end Dwhbll.FromChars
