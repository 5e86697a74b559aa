import Dwhbll.Lib.Splitting

/-!
# Texts in which keys are replaced

One text is another one with some occurrences of keys replaced, none of them overlapping. Replacing one key after the
other, in any order, comes to this as long as the new texts have nothing in common with the keys.
-/

namespace Rewriting

variable {α : Type} {R : List (List α × List α)} {key new xs ys us vs as bs : List α}

inductive Rewrites (R : List (List α × List α)) : List α → List α → Prop where
  | nil : Rewrites R [] []
  | keep {xs ys : List α} (x : α) : Rewrites R xs ys → Rewrites R (x :: xs) (x :: ys)
  | cut {key new xs ys : List α} : (key, new) ∈ R → Rewrites R xs ys → Rewrites R (key ++ xs) (new ++ ys)

theorem Rewrites.refl (R : List (List α × List α)) (xs : List α) : Rewrites R xs xs := by
  induction xs with
  | nil => exact .nil
  | cons x xs ih => exact .keep x ih

theorem Rewrites.append (h : Rewrites R xs ys) (h' : Rewrites R us vs) : Rewrites R (xs ++ us) (ys ++ vs) := by
  induction h with
  | nil => exact h'
  | keep x _ ih => exact .keep x ih
  | cut hmem _ ih =>
      rw [List.append_assoc, List.append_assoc]
      exact .cut hmem ih

/-- No replacement is empty or shares an element with a key. -/
structure Apart (R : List (List α × List α)) : Prop where
  key_ne : ∀ r ∈ R, r.1 ≠ []
  new_ne : ∀ r ∈ R, r.2 ≠ []
  disjoint : ∀ r ∈ R, ∀ s ∈ R, ∀ x ∈ s.2, x ∉ r.1

/-- What stands at the front and shares no element with the replacements was there before. -/
theorem Rewrites.uncons (hne : ∀ r ∈ R, r.2 ≠ []) (hdisj : ∀ r ∈ R, ∀ x ∈ r.2, x ∉ key) (h : Rewrites R us (key ++ ys)) :
    ∃ xs, us = key ++ xs ∧ Rewrites R xs ys := by
  induction key generalizing us with
  | nil => exact ⟨us, rfl, h⟩
  | cons x key ih =>
      rw [List.cons_append] at h
      generalize hvs : x :: (key ++ ys) = vs at h
      cases h with
      | nil => cases hvs
      | keep y h =>
          obtain ⟨rfl, rfl⟩ := List.cons.inj hvs
          obtain ⟨xs, rfl, hxs⟩ := ih (fun r hr y hy hk => hdisj r hr y hy (List.mem_cons_of_mem _ hk)) h
          exact ⟨xs, rfl, hxs⟩
      | cut hmem h =>
          rename_i key' new us rest
          cases new with
          | nil => exact absurd rfl (hne _ hmem)
          | cons y new =>
              obtain ⟨rfl, -⟩ := List.cons.inj hvs
              exact absurd List.mem_cons_self (hdisj _ hmem x List.mem_cons_self)

/-- The same where something stands in front of it. -/
theorem Rewrites.split (hkey : key ≠ []) (hne : ∀ r ∈ R, r.2 ≠ []) (hdisj : ∀ r ∈ R, ∀ x ∈ r.2, x ∉ key)
    (h : Rewrites R us (as ++ (key ++ ys))) :
    ∃ bs xs, us = bs ++ (key ++ xs) ∧ Rewrites R bs as ∧ Rewrites R xs ys := by
  generalize hvs : as ++ (key ++ ys) = vs at h
  induction h generalizing as with
  | nil =>
      have hnil := (List.append_eq_nil_iff.mp (List.append_eq_nil_iff.mp hvs).2).1
      exact absurd hnil hkey
  | keep x h ih =>
      cases as with
      | nil =>
          obtain ⟨xs, hus, hxs⟩ := Rewrites.uncons hne hdisj (hvs ▸ h.keep x)
          exact ⟨[], xs, hus, .nil, hxs⟩
      | cons y as =>
          obtain ⟨rfl, hrest⟩ := List.cons.inj hvs
          obtain ⟨bs, xs, rfl, hbs, hxs⟩ := ih hrest
          exact ⟨y :: bs, xs, rfl, hbs.keep y, hxs⟩
  | cut hmem h ih =>
      rename_i key' new us rest
      rcases List.append_eq_append_iff.mp hvs with ⟨cs, hnew, hrest⟩ | ⟨cs, has, hrest⟩
      · cases cs with
        | nil =>
            rw [List.append_nil] at hnew
            have hfront : [] ++ (key ++ ys) = rest := hrest
            obtain ⟨bs, xs, rfl, hbs, hxs⟩ := ih hfront
            refine ⟨key' ++ bs, xs, by simp, ?_, hxs⟩
            rw [← hnew, ← List.append_nil new]
            exact hbs.cut hmem
        | cons c cs =>
            -- The key would begin inside of the new text.
            obtain ⟨k, key, rfl⟩ := List.exists_cons_of_ne_nil hkey
            obtain ⟨rfl, -⟩ := List.cons.inj hrest
            exact absurd List.mem_cons_self (hdisj _ hmem k (hnew ▸ List.mem_append_right as List.mem_cons_self))
      · obtain ⟨bs, xs, rfl, hbs, hxs⟩ := ih hrest.symm
        exact ⟨key' ++ bs, xs, by simp, has ▸ hbs.cut hmem, hxs⟩

theorem Rewrites.intercalate {pieces : List (List α)} (hR : Apart R) (hmem : (key, new) ∈ R)
    (h : Rewrites R us (key.intercalate pieces)) : Rewrites R us (new.intercalate pieces) := by
  induction pieces generalizing us with
  | nil => exact h
  | cons p pieces ih =>
      by_cases hnil : pieces = []
      · rwa [hnil, List.intercalate_singleton] at h ⊢
      · rw [Splitting.intercalate_cons hnil] at h ⊢
        obtain ⟨bs, xs, rfl, hbs, hxs⟩ := h.split (hR.key_ne _ hmem) hR.new_ne fun r hr => hR.disjoint _ hmem r hr
        exact hbs.append (.cut hmem (ih hxs))

theorem Rewrites.replace [DecidableEq α] (hR : Apart R) (hmem : (key, new) ∈ R) (h : Rewrites R xs ys) :
    Rewrites R xs (Splitting.replace key new ys) := by
  refine Rewrites.intercalate hR hmem ?_
  rwa [Splitting.intercalate_split (hR.key_ne _ hmem)]

/-! ## What is kept -/

variable [DecidableEq α] {keys : List (List α)} {ws : List α} {i : Nat}

/-- The element at the position `i` is in an occurrence of a key. -/
def covered (keys : List (List α)) (xs : List α) (i : Nat) : Bool :=
  keys.any fun key => (List.range (i + 1)).any fun j => i < j + key.length ∧ key <+: xs.drop j

/-- The elements that are in no occurrence of a key, in order. -/
def uncovered (keys : List (List α)) (xs : List α) : List α :=
  (xs.zipIdx.filter fun x => !covered keys xs x.2).map Prod.fst

theorem covered_of_key (hkey : key ∈ keys) (hle : ws.length ≤ i) (hlt : i < ws.length + key.length) :
    covered keys (ws ++ (key ++ xs)) i = true := by
  refine List.any_eq_true.mpr ⟨key, hkey, List.any_eq_true.mpr ⟨ws.length, List.mem_range.mpr (by omega), ?_⟩⟩
  rw [List.drop_left]
  simp [hlt]

theorem Rewrites.uncovered_sublist_from (h : Rewrites R xs ys) (ws : List α) :
    (((xs.zipIdx ws.length).filter fun x => !covered (R.map Prod.fst) (ws ++ xs) x.2).map Prod.fst).Sublist ys := by
  induction h generalizing ws with
  | nil => exact .slnil
  | keep x h ih =>
      rename_i xs ys
      have hrest := ih (ws ++ [x])
      rw [List.length_append, List.length_singleton, List.append_assoc, List.singleton_append] at hrest
      rw [List.zipIdx_cons]
      by_cases hc : covered (R.map Prod.fst) (ws ++ x :: xs) ws.length = true
      · rw [List.filter_cons_of_neg (by simpa using hc)]
        exact hrest.cons x
      · rw [List.filter_cons_of_pos (by simpa using hc), List.map_cons]
        exact hrest.cons_cons x
  | cut hmem h ih =>
      rename_i key new xs ys
      have hrest := ih (ws ++ key)
      rw [List.length_append, List.append_assoc] at hrest
      have hkey : (key.zipIdx ws.length).filter (fun x => !covered (R.map Prod.fst) (ws ++ (key ++ xs)) x.2) = [] := by
        rw [List.filter_eq_nil_iff]
        intro x hx
        have hle := List.le_snd_of_mem_zipIdx hx
        have hlt := List.snd_lt_add_of_mem_zipIdx hx
        have hkey : key ∈ R.map Prod.fst := List.mem_map_of_mem hmem
        simp [covered_of_key hkey hle hlt]
      rw [List.zipIdx_append, List.filter_append, hkey, List.nil_append]
      exact hrest.trans (List.sublist_append_right new ys)

theorem Rewrites.uncovered_sublist (h : Rewrites R xs ys) : (uncovered (R.map Prod.fst) xs).Sublist ys :=
  h.uncovered_sublist_from []

end Rewriting
