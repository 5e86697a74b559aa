import Dwhbll.Json.Theorems

/-!
# Values with numbers that are not finite

Such a number is written as `null`, so that what is read back is the value with `null` in its place. Nothing else is lost.
-/

namespace Dwhbll.Json

open JsonParser JsonText

variable {F : Type} {ops : FloatOps F}

mutual

/-- The value with `null` for each number that is not finite. -/
def nulled (ops : FloatOps F) : Json F → Json F
  | .object members => .object (nulledMembers ops members)
  | .array elements => .array (nulledElements ops elements)
  | .number x => if ops.isinf x || ops.isnan x then .null else .number x
  | .null => .null
  | .string s => .string s
  | .bool b => .bool b

def nulledMembers (ops : FloatOps F) : List (Bytes × Json F) → List (Bytes × Json F)
  | [] => []
  | (key, value) :: members => (key, nulled ops value) :: nulledMembers ops members

def nulledElements (ops : FloatOps F) : List (Json F) → List (Json F)
  | [] => []
  | element :: elements => nulled ops element :: nulledElements ops elements

end

theorem nulledMembers_isEmpty (members : List (Bytes × Json F)) :
    (nulledMembers ops members).isEmpty = members.isEmpty := by
  cases members <;> rfl

theorem nulledElements_isEmpty (elements : List (Json F)) : (nulledElements ops elements).isEmpty = elements.isEmpty := by
  cases elements <;> rfl

theorem nulledMembers_keys (members : List (Bytes × Json F)) :
    (nulledMembers ops members).map Prod.fst = members.map Prod.fst := by
  induction members with
  | nil => rfl
  | cons m members ih => rw [nulledMembers, List.map_cons, List.map_cons, ih]

/-! ## The text is the same -/

mutual

theorem formatInternal_nulled (indentation : Int) : (j : Json F) → (cur : Int) →
    formatInternal ops indentation (nulled ops j) cur = formatInternal ops indentation j cur
  | .object members, cur => by
      simp only [nulled, formatInternal, formatMembers_nulled, nulledMembers_isEmpty]
  | .array elements, cur => by
      simp only [nulled, formatInternal, formatElements_nulled, nulledElements_isEmpty]
  | .number x, cur => by
      rw [nulled]
      split
      · rename_i h
        rw [formatInternal, formatInternal, if_pos h]
      · rfl
  | .null, cur => rfl
  | .string s, cur => rfl
  | .bool b, cur => rfl

theorem formatMembers_nulled (indentation : Int) (lay : Layout) (inner : Int) : (members : List (Bytes × Json F)) →
    formatMembers ops indentation lay inner (nulledMembers ops members) = formatMembers ops indentation lay inner members
  | [] => rfl
  | (key, value) :: members => by
      simp only [nulledMembers, formatMembers, formatInternal_nulled indentation value,
        formatMembers_nulled indentation lay inner members, nulledMembers_isEmpty]

theorem formatElements_nulled (indentation : Int) (lay : Layout) (inner : Int) : (elements : List (Json F)) →
    formatElements ops indentation lay inner (nulledElements ops elements) =
      formatElements ops indentation lay inner elements
  | [] => rfl
  | element :: elements => by
      simp only [nulledElements, formatElements, formatInternal_nulled indentation element,
        formatElements_nulled indentation lay inner elements, nulledElements_isEmpty]

end

/-! ## Its numbers are finite -/

mutual

theorem nulled_finite : (j : Json F) → (nulled ops j).Forall (FiniteNumber ops)
  | .object members => ⟨trivial, nulledMembers_finite members⟩
  | .array elements => ⟨trivial, nulledElements_finite elements⟩
  | .number x => by
      rw [nulled]
      split
      · trivial
      · rename_i h
        exact Bool.or_eq_false_iff.mp (Bool.eq_false_iff.mpr h)
  | .null => trivial
  | .string s => trivial
  | .bool b => trivial

theorem nulledMembers_finite : (members : List (Bytes × Json F)) →
    ForallMembers (FiniteNumber ops) (nulledMembers ops members)
  | [] => trivial
  | (_, value) :: members => ⟨nulled_finite value, nulledMembers_finite members⟩

theorem nulledElements_finite : (elements : List (Json F)) →
    ForallElements (FiniteNumber ops) (nulledElements ops elements)
  | [] => trivial
  | element :: elements => ⟨nulled_finite element, nulledElements_finite elements⟩

end

mutual

theorem nulled_sorted : (j : Json F) → j.Forall SortedKeys → (nulled ops j).Forall SortedKeys
  | .object members, h => by
      refine ⟨?_, nulledMembers_sorted members h.2⟩
      have hkeys : (members.map Prod.fst).Pairwise (· < ·) := List.pairwise_map.mpr h.1
      rw [← nulledMembers_keys members] at hkeys
      exact List.pairwise_map.mp hkeys
  | .array elements, h => ⟨trivial, nulledElements_sorted elements h.2⟩
  | .number x, h => by
      rw [nulled]
      split <;> trivial
  | .null, _ => trivial
  | .string s, _ => trivial
  | .bool b, _ => trivial

theorem nulledMembers_sorted : (members : List (Bytes × Json F)) → ForallMembers SortedKeys members →
    ForallMembers SortedKeys (nulledMembers ops members)
  | [], _ => trivial
  | (_, value) :: members, h => ⟨nulled_sorted value h.1, nulledMembers_sorted members h.2⟩

theorem nulledElements_sorted : (elements : List (Json F)) → ForallElements SortedKeys elements →
    ForallElements SortedKeys (nulledElements ops elements)
  | [], _ => trivial
  | element :: elements, h => ⟨nulled_sorted element h.1, nulledElements_sorted elements h.2⟩

end

mutual

theorem nulled_depth : (j : Json F) → (nulled ops j).depth = j.depth
  | .object members => congrArg (· + 1) (nulledMembers_depth members)
  | .array elements => congrArg (· + 1) (nulledElements_depth elements)
  | .number x => by
      rw [nulled]
      split <;> rfl
  | .null => rfl
  | .string s => rfl
  | .bool b => rfl

theorem nulledMembers_depth : (members : List (Bytes × Json F)) →
    depthMembers (nulledMembers ops members) = depthMembers members
  | [] => rfl
  | (_, value) :: members => by
      rw [nulledMembers, depthMembers, depthMembers, nulled_depth value, nulledMembers_depth members]

theorem nulledElements_depth : (elements : List (Json F)) →
    depthElements (nulledElements ops elements) = depthElements elements
  | [] => rfl
  | element :: elements => by
      rw [nulledElements, depthElements, depthElements, nulled_depth element, nulledElements_depth elements]

end

/-! ## What is read back -/

theorem parse_formatInternal_nulled {indentation : Int} {j : Json F} (hops : ReadsBack ops) (hs : j.Forall SortedKeys)
    (hr : Fits indentation 0 j.depth) :
    ∃ t, formatInternal ops indentation j 0 = some t ∧ ∀ fuel, t.length < fuel → parse t ops fuel = .ok (nulled ops j) := by
  rw [← formatInternal_nulled]
  exact parse_formatInternal hops (nulled_sorted j hs) (nulled_finite j) ((nulled_depth j).symm ▸ hr)

/-- What `dump` and `format` write of any value is read as the value with `null` for its numbers that are not finite; two
values have the same text if and only if they are the same up to that. -/
theorem parse_dump_nulled (hops : ReadsBack ops) {j : Json F} (hs : j.Forall SortedKeys) :
    (∃ t, j.dump ops = some t ∧ (nulled ops j).dump ops = some t ∧
        ∀ fuel, t.length < fuel → parse t ops fuel = .ok (nulled ops j)) ∧
      (∀ k : Int, 0 ≤ k → k * j.depth < 2 ^ 31 →
        ∃ t, j.format ops k = some t ∧ ∀ fuel, t.length < fuel → parse t ops fuel = .ok (nulled ops j)) ∧
      ∀ j' : Json F, j'.Forall SortedKeys → (j.dump ops = j'.dump ops ↔ nulled ops j = nulled ops j') := by
  obtain ⟨t, ht, hparse⟩ := parse_formatInternal_nulled hops hs (fits_dump _)
  refine ⟨⟨t, ht, (formatInternal_nulled _ _ _).trans ht, hparse⟩, fun k _ hk => ?_,
    fun j' hs' => ⟨fun heq => ?_, fun heq => ?_⟩⟩
  · exact parse_formatInternal_nulled hops hs ⟨Int.le_refl 0, fun _ => by omega⟩
  · obtain ⟨t', ht', hparse'⟩ := parse_formatInternal_nulled hops hs' (fits_dump _)
    cases ht.symm.trans (heq.trans ht')
    have hboth := (hparse _ (Nat.lt_succ_self _)).symm.trans (hparse' _ (Nat.lt_succ_self _))
    exact Except.ok.inj hboth
  · rw [dump, dump, ← formatInternal_nulled, heq, formatInternal_nulled]

/-- Numbers of one digit, and infinity. -/
def digitsInfinity : FloatOps (Option (Fin 10)) where
  isinf x := x.isNone
  isnan _ := false
  format x := (x.map digits.format).getD (ascii "inf")
  fromChars t := (digits.fromChars t).map fun (x, n) => (some x, n)

theorem digitsInfinity_readsBack : ReadsBack digitsInfinity := by
  intro x hx _
  cases x with
  | none => cases hx
  | some x =>
      obtain ⟨hstart, hzero, hread⟩ := digits_readsBack x rfl rfl
      refine ⟨hstart, hzero, fun rest hr => ?_⟩
      show (digits.fromChars (digits.format x ++ rest)).map _ = _
      rw [hread rest hr]
      rfl

/-- `[7, inf]` and `[7, null]`. -/
theorem parse_dump_nulled_infinity :
    (∃ t, dump digitsInfinity (.array [.number (some 7), .number none]) = some t ∧
      ∀ fuel, t.length < fuel → parse t digitsInfinity fuel = .ok (.array [.number (some 7), .null])) ∧
      dump digitsInfinity (.array [.number (some 7), .number none]) =
        dump digitsInfinity (.array [.number (some 7), .null]) := by
  have hs : ∀ j : Json (Option (Fin 10)), (Json.array [.number (some 7), j]).Forall SortedKeys ↔ j.Forall SortedKeys :=
    fun j => by simp [Forall, ForallElements, SortedKeys]
  obtain ⟨⟨t, ht, -, hparse⟩, -, hiff⟩ :=
    parse_dump_nulled digitsInfinity_readsBack ((hs (.number none)).mpr trivial)
  exact ⟨⟨t, ht, hparse⟩, (hiff (.array [.number (some 7), .null]) ((hs .null).mpr trivial)).mpr rfl⟩

end Dwhbll.Json
