import Mathlib.Logic.Relation

/-!
# Searches in depth

A search looks at a place, and if it finds nothing there it goes on to the places that this one leads to, one after the
other, until one of these searches has found something. A look may not end, and then the search does not either. The
search marks no places, so it also goes through the same place again.
-/

namespace Searching

universe u v

variable {α : Type u} {β : Type v}

/-- The first thing found by searches in turn. -/
def first (search : α → Option (Option β)) : List α → Option (Option β)
  | [] => some none
  | a :: as =>
      match search a with
      | none => none
      | some (some b) => some (some b)
      | some none => first search as

/-- A search that goes no deeper than the given number of places. -/
def search (look : α → Option (Option β)) (next : α → List α) : (depth : Nat) → α → Option (Option β)
  | 0, _ => none
  | depth + 1, a =>
      match look a with
      | none => none
      | some (some b) => some (some b)
      | some none => first (search look next depth) (next a)

/-- One place leads to another. -/
def Leads (next : α → List α) (a b : α) : Prop := b ∈ next a

/-- No way from the place goes on for ever. -/
def Ends (next : α → List α) (a : α) : Prop := Acc (fun c b => Leads next b c) a

/-- The places that some of these lead to, and these themselves. -/
def From (next : α → List α) (as : List α) (c : α) : Prop := ∃ a ∈ as, Relation.ReflTransGen (Leads next) a c

variable {look : α → Option (Option β)} {next : α → List α} {a c : α} {b : β} {as : List α} {m n : Nat}
  {r : Option β} {f g : α → Option (Option β)}

theorem From.tail {d : α} (h : From next as c) (hd : d ∈ next c) : From next as d := by
  obtain ⟨a, ha, hwalk⟩ := h
  exact ⟨a, ha, hwalk.tail hd⟩

/-! ## Searches in turn -/

theorem first_mono (hle : ∀ a ∈ as, ∀ r, f a = some r → g a = some r) (h : first f as = some r) : first g as = some r := by
  induction as with
  | nil => exact h
  | cons a as ih =>
      rw [first] at h ⊢
      cases ha : f a with
      | none =>
          rw [ha] at h
          cases h
      | some r' =>
          rw [ha] at h
          rw [hle a List.mem_cons_self r' ha]
          cases r' with
          | none => exact ih (fun a' h' => hle a' (List.mem_cons_of_mem a h')) h
          | some b => exact h

theorem exists_of_first (h : first f as = some (some b)) : ∃ a ∈ as, f a = some (some b) := by
  induction as with
  | nil => cases h
  | cons a as ih =>
      rw [first] at h
      cases ha : f a with
      | none =>
          rw [ha] at h
          cases h
      | some r =>
          rw [ha] at h
          cases r with
          | none =>
              obtain ⟨a', hmem, ha'⟩ := ih h
              exact ⟨a', List.mem_cons_of_mem a hmem, ha'⟩
          | some b' =>
              cases h
              exact ⟨a, List.mem_cons_self, ha⟩

theorem first_eq_none_iff : first f as = some none ↔ ∀ a ∈ as, f a = some none := by
  induction as with
  | nil => exact iff_of_true rfl nofun
  | cons a as ih =>
      rw [first, List.forall_mem_cons]
      cases ha : f a with
      | none => exact iff_of_false nofun fun h => by cases h.1
      | some r =>
          cases r with
          | none => exact ih.trans (and_iff_right rfl).symm
          | some b => exact iff_of_false nofun fun h => by cases h.1

theorem exists_first (h : ∀ a ∈ as, ∃ r, f a = some r) : ∃ r, first f as = some r := by
  induction as with
  | nil => exact ⟨none, rfl⟩
  | cons a as ih =>
      obtain ⟨⟨r, hr⟩, hrest⟩ := List.forall_mem_cons.mp h
      rw [first, hr]
      cases r with
      | none => exact ih hrest
      | some b => exact ⟨some b, rfl⟩

/-! ## One search -/

theorem search_mono (hle : m ≤ n) (h : search look next m a = some r) : search look next n a = some r := by
  induction m generalizing n a r with
  | zero => cases h
  | succ m ih =>
      obtain ⟨k, rfl⟩ := Nat.exists_eq_add_of_le' hle
      rw [search] at h
      rw [← Nat.add_assoc, search]
      cases hlook : look a with
      | none =>
          rw [hlook] at h
          cases h
      | some r' =>
          rw [hlook] at h
          cases r' with
          | none => exact first_mono (fun a' _ r' h' => ih (by omega) h') h
          | some b => exact h

/-- What is found is at one of the places that the first one leads to. -/
theorem exists_of_search (h : search look next n a = some (some b)) :
    ∃ c, Relation.ReflTransGen (Leads next) a c ∧ look c = some (some b) := by
  induction n generalizing a with
  | zero => cases h
  | succ n ih =>
      rw [search] at h
      cases hlook : look a with
      | none =>
          rw [hlook] at h
          cases h
      | some r =>
          rw [hlook] at h
          cases r with
          | none =>
              obtain ⟨a', hmem, ha'⟩ := exists_of_first h
              obtain ⟨c, hwalk, hc⟩ := ih ha'
              exact ⟨c, .head hmem hwalk, hc⟩
          | some b' =>
              cases h
              exact ⟨a, .refl, hlook⟩

theorem Ends.of_walk (h : Ends next a) (hwalk : Relation.ReflTransGen (Leads next) a c) : Ends next c := by
  induction hwalk with
  | refl => exact h
  | tail _ hstep ih => exact ih.inv hstep

/-- Where nothing is found, all of the places have been looked at. -/
theorem ends_of_search (h : search look next n a = some none) :
    Ends next a ∧ ∀ c, Relation.ReflTransGen (Leads next) a c → look c = some none := by
  induction n generalizing a with
  | zero => cases h
  | succ n ih =>
      rw [search] at h
      cases hlook : look a with
      | none =>
          rw [hlook] at h
          cases h
      | some r =>
          rw [hlook] at h
          cases r with
          | none =>
              have hall := first_eq_none_iff.mp h
              refine ⟨⟨a, fun b hb => (ih (hall b hb)).1⟩, fun c hwalk => ?_⟩
              obtain rfl | ⟨b, hb, hbc⟩ := Relation.ReflTransGen.cases_head hwalk
              · exact hlook
              · exact (ih (hall b hb)).2 c hbc
          | some b => cases h

theorem exists_bound {as : List α} (h : ∀ a ∈ as, ∃ n r, search look next n a = some r) :
    ∃ n, ∀ a ∈ as, ∃ r, search look next n a = some r := by
  induction as with
  | nil => exact ⟨0, nofun⟩
  | cons a as ih =>
      obtain ⟨⟨m, r, hr⟩, hrest⟩ := List.forall_mem_cons.mp h
      obtain ⟨n, hn⟩ := ih hrest
      refine ⟨max m n, List.forall_mem_cons.mpr ⟨⟨r, search_mono (Nat.le_max_left m n) hr⟩, fun a' h' => ?_⟩⟩
      obtain ⟨r', hr'⟩ := hn a' h'
      exact ⟨r', search_mono (Nat.le_max_right m n) hr'⟩

/-- A search ends where no way goes on for ever and every look ends. -/
theorem exists_search (h : Ends next a) (hlook : ∀ c, Relation.ReflTransGen (Leads next) a c → look c ≠ none) :
    ∃ n r, search look next n a = some r := by
  induction h with
  | intro a _ ih =>
      have hsearch : ∀ b ∈ next a, ∃ n r, search look next n b = some r := fun b hb =>
        ih b hb fun c hwalk => hlook c (.head hb hwalk)
      obtain ⟨n, hn⟩ := exists_bound hsearch
      obtain ⟨r, hr⟩ := Option.ne_none_iff_exists'.mp (hlook a .refl)
      refine ⟨n + 1, ?_⟩
      rw [search, hr]
      cases r with
      | none => exact exists_first hn
      | some b => exact ⟨some b, rfl⟩

/-! ## Searches from several places -/

theorem exists_of_first_search (h : first (search look next n) as = some (some b)) :
    ∃ c, From next as c ∧ look c = some (some b) := by
  obtain ⟨a, ha, hsearch⟩ := exists_of_first h
  obtain ⟨c, hwalk, hc⟩ := exists_of_search hsearch
  exact ⟨c, ⟨a, ha, hwalk⟩, hc⟩

theorem exists_bound_from (h : ∀ c, From next as c → Ends next c ∧ look c ≠ none) :
    ∃ n, ∀ a ∈ as, ∃ r, search look next n a = some r :=
  exists_bound fun a ha => exists_search (h a ⟨a, ha, .refl⟩).1 fun c hwalk => (h c ⟨a, ha, hwalk⟩).2

/-- The searches end where no way goes on for ever and every look ends. -/
theorem exists_first_search (h : ∀ c, From next as c → Ends next c ∧ look c ≠ none) :
    ∃ n r, first (search look next n) as = some r := by
  obtain ⟨n, hn⟩ := exists_bound_from h
  exact ⟨n, exists_first hn⟩

/-- The searches end and find nothing if and only if no way goes on for ever and there is nothing at any of the places. -/
theorem first_search_eq_none_iff : (∃ n, first (search look next n) as = some none) ↔
    ∀ c, From next as c → Ends next c ∧ look c = some none := by
  constructor
  · rintro ⟨n, hn⟩ c ⟨a, ha, hwalk⟩
    obtain ⟨hends, hlook⟩ := ends_of_search (first_eq_none_iff.mp hn a ha)
    exact ⟨hends.of_walk hwalk, hlook c hwalk⟩
  · intro h
    obtain ⟨n, r, hr⟩ := exists_first_search fun c hc => ⟨(h c hc).1, fun hlook => by cases (h c hc).2.symm.trans hlook⟩
    cases r with
    | none => exact ⟨n, hr⟩
    | some b =>
        obtain ⟨c, hc, hlook⟩ := exists_of_first_search hr
        cases (h c hc).2.symm.trans hlook

end Searching
