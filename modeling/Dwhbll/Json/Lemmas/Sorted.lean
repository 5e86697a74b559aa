import Dwhbll.Json.Parser

/-!
# The objects that the parser builds

Every object that `json_parser` returns has its members in the order of a `std::map`, inside values of any
depth.
-/

namespace Dwhbll.JsonParser

open Ascii Json

variable {α β F : Type} {data : Bytes} {ops : FloatOps F}

/-! ## Members -/

theorem mem_mapInsert {key : Bytes} {value : Json F} {ms : List (Bytes × Json F)} {m : Bytes × Json F}
    (h : m ∈ mapInsert key value ms) : m = (key, value) ∨ m ∈ ms := by
  induction ms with
  | nil => exact .inl (List.mem_singleton.mp h)
  | cons n ms ih =>
      obtain ⟨k, v⟩ := n
      rw [mapInsert] at h
      split at h
      · exact List.mem_cons.mp h
      · split at h
        · rename_i hk
          rcases List.mem_cons.mp h with rfl | h
          · exact .inl (by rw [hk])
          · exact .inr (List.mem_cons_of_mem _ h)
        · rcases List.mem_cons.mp h with rfl | h
          · exact .inr List.mem_cons_self
          · rcases ih h with h | h
            · exact .inl h
            · exact .inr (List.mem_cons_of_mem _ h)

theorem mapInsert_pairwise {key : Bytes} {value : Json F} {ms : List (Bytes × Json F)}
    (h : ms.Pairwise (·.1 < ·.1)) : (mapInsert key value ms).Pairwise (·.1 < ·.1) := by
  induction ms with
  | nil => exact List.pairwise_singleton ..
  | cons n ms ih =>
      obtain ⟨k, v⟩ := n
      obtain ⟨hk, hms⟩ := List.pairwise_cons.mp h
      rw [mapInsert]
      split
      · rename_i hlt
        refine List.pairwise_cons.mpr ⟨fun m hm => ?_, h⟩
        rcases List.mem_cons.mp hm with rfl | hm
        · exact hlt
        · exact List.lt_trans hlt (hk m hm)
      · rename_i hlt
        split
        · exact List.pairwise_cons.mpr ⟨hk, hms⟩
        · rename_i hne
          refine List.pairwise_cons.mpr ⟨fun m hm => ?_, ih hms⟩
          rcases mem_mapInsert hm with rfl | hm
          · exact Std.lt_of_le_of_ne hlt (Ne.symm hne)
          · exact hk m hm

theorem forallMembers_iff {P : Json F → Prop} {ms : List (Bytes × Json F)} :
    ForallMembers P ms ↔ ∀ m ∈ ms, m.2.Forall P := by
  induction ms with
  | nil => simp [ForallMembers]
  | cons m ms ih => simp [ForallMembers, ih]

theorem forallElements_iff {P : Json F → Prop} {js : List (Json F)} :
    ForallElements P js ↔ ∀ j ∈ js, j.Forall P := by
  induction js with
  | nil => simp [ForallElements]
  | cons j js ih => simp [ForallElements, ih]

/-! ## Calls -/

/-- Whatever `m` returns satisfies `P`. -/
def Returns (m : Parser α) (P : α → Prop) : Prop := ∀ i a j, m i = .ok (a, j) → P a

theorem Returns.pure {P : α → Prop} {a : α} (h : P a) : Returns (pure a) P := by
  intro i a j hm
  cases hm
  exact h

theorem Returns.fail {P : α → Prop} {e : ParseError} : Returns (fail e) P := by
  intro i a j hm
  cases hm

theorem Returns.trivial (m : Parser α) : Returns m fun _ => True := fun _ _ _ _ => True.intro

theorem Returns.bind {m : Parser α} {f : α → Parser β} {P : α → Prop} {Q : β → Prop} (hm : Returns m P)
    (hf : ∀ a, P a → Returns (f a) Q) : Returns (m >>= f) Q := by
  intro i b k h
  obtain ⟨a, j, h1, h2⟩ := Parser.bind_eq_ok h
  exact hf a (hm i a j h1) j b k h2

/-- A call whose value says nothing about the result. -/
theorem Returns.skip {m : Parser α} {f : α → Parser β} {Q : β → Prop} (hf : ∀ a, Returns (f a) Q) :
    Returns (m >>= f) Q :=
  (Returns.trivial m).bind fun a _ => hf a

theorem Returns.ite {c : Prop} [Decidable c] {m m' : Parser α} {P : α → Prop} (h : Returns m P)
    (h' : Returns m' P) : Returns (if c then m else m') P := by
  split
  · exact h
  · exact h'

/-! ## Values -/

/-- An object that is being built. -/
def SortedMembers (ms : List (Bytes × Json F)) : Prop :=
  ms.Pairwise (·.1 < ·.1) ∧ ForallMembers SortedKeys ms

theorem SortedMembers.mapInsert {key : Bytes} {value : Json F} {ms : List (Bytes × Json F)}
    (h : SortedMembers ms) (hv : value.Forall SortedKeys) : SortedMembers (mapInsert key value ms) := by
  refine ⟨mapInsert_pairwise h.1, forallMembers_iff.mpr fun m hm => ?_⟩
  rcases mem_mapInsert hm with rfl | hm
  · exact hv
  · exact forallMembers_iff.mp h.2 m hm

variable {e : Parser (Json F)}

theorem Returns.objectLoop (he : Returns e (Forall SortedKeys)) (n : Nat) {ms : List (Bytes × Json F)}
    (h : SortedMembers ms) : Returns (objectLoop data e n ms) SortedMembers := by
  induction n generalizing ms with
  | zero =>
      intro i a j hm
      cases hm
  | succ n ih =>
      have hm : Returns (member data e) fun m => m.2.Forall SortedKeys :=
        .skip fun _ => .skip fun _ => .skip fun _ => .skip fun _ => he.bind fun _ hv => .pure hv
      refine hm.bind fun m hv => .skip fun _ => .skip fun c => .ite (.pure (h.mapInsert hv)) ?_
      exact .skip fun _ => ih (h.mapInsert hv)

theorem Returns.object (he : Returns e (Forall SortedKeys)) (n : Nat) :
    Returns (object data e n) SortedMembers := by
  have h0 : SortedMembers ([] : List (Bytes × Json F)) := ⟨.nil, True.intro⟩
  refine .skip fun _ => .skip fun _ => .skip fun c => .ite (.skip fun _ => .pure h0) ?_
  exact (Returns.objectLoop he n h0).bind fun ms hms => .skip fun _ => .pure hms

theorem Returns.arrayLoop (he : Returns e (Forall SortedKeys)) (n : Nat) {js : List (Json F)}
    (h : ForallElements SortedKeys js) : Returns (arrayLoop data e n js) (ForallElements SortedKeys) := by
  induction n generalizing js with
  | zero =>
      intro i a j hm
      cases hm
  | succ n ih =>
      refine he.bind fun j hj => ?_
      have h' : ForallElements SortedKeys (js ++ [j]) := by
        refine forallElements_iff.mpr fun j' hj' => ?_
        rcases List.mem_append.mp hj' with hj' | hj'
        · exact forallElements_iff.mp h j' hj'
        · rw [List.mem_singleton.mp hj']
          exact hj
      exact .skip fun _ => .skip fun c => .ite (.pure h') (.skip fun _ => ih h')

theorem Returns.array (he : Returns e (Forall SortedKeys)) (n : Nat) :
    Returns (array data e n) (ForallElements SortedKeys) := by
  have h0 : ForallElements SortedKeys ([] : List (Json F)) := True.intro
  refine .skip fun _ => .skip fun _ => .skip fun c => .ite (.skip fun _ => .pure h0) ?_
  exact (Returns.arrayLoop he n h0).bind fun js hjs => .skip fun _ => .pure hjs

theorem Returns.value (he : Returns e (Forall SortedKeys)) (n : Nat) :
    Returns (value data e ops n) (Forall SortedKeys) := by
  refine .skip fun c => .ite ?_ (.ite ?_ (.ite ?_ (.ite ?_ (.ite ?_ (.ite ?_ (.ite ?_ .fail))))))
  · exact (Returns.object he n).bind fun ms hms => .pure hms
  · exact (Returns.array he n).bind fun js hjs => .pure ⟨True.intro, hjs⟩
  · exact .skip fun _ => .pure True.intro
  · exact .skip fun _ => .pure True.intro
  · exact .skip fun _ => .pure True.intro
  · exact .skip fun _ => .pure True.intro
  · exact .skip fun _ => .pure True.intro

theorem Returns.element (fuel : Nat) : Returns (element data ops fuel) (Forall SortedKeys) := by
  induction fuel with
  | zero =>
      intro i a j hm
      cases hm
  | succ fuel ih => exact .skip fun _ => (Returns.value ih fuel).bind fun j hj => .skip fun _ => .pure hj

theorem parse_sorted {fuel : Nat} {j : Json F} (h : parse data ops fuel = .ok j) : j.Forall SortedKeys := by
  cases he : element data ops fuel 0 with
  | error e =>
      rw [parse, he] at h
      cases h
  | ok p =>
      rw [parse, he] at h
      cases h
      exact Returns.element fuel 0 p.1 p.2 he

end Dwhbll.JsonParser
