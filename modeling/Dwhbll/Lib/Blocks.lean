/-!
# Lists in blocks

A list as whole blocks of one length and a rest that is shorter.
-/

namespace Blocks

variable {α : Type} {n : Nat} {xs rest rest' : List α} {full full' : List (List α)}

structure Splits (n : Nat) (xs : List α) (full : List (List α)) (rest : List α) : Prop where
  eq : xs = full.flatten ++ rest
  full : ∀ b ∈ full, b.length = n
  rest : rest.length < n

theorem flatten_length (h : ∀ b ∈ full, b.length = n) : full.flatten.length = n * full.length := by
  induction full with
  | nil => rfl
  | cons b full ih =>
      rw [List.flatten_cons, List.length_append, h b List.mem_cons_self,
        ih fun c hc => h c (List.mem_cons_of_mem _ hc), List.length_cons, Nat.mul_succ, Nat.add_comm]

theorem Splits.nil (hn : 0 < n) : Splits n ([] : List α) [] [] := ⟨rfl, by simp, hn⟩

theorem Splits.length (h : Splits n xs full rest) : xs.length = n * full.length + rest.length := by
  rw [h.eq, List.length_append, flatten_length h.full]

theorem Splits.length_mod (h : Splits n xs full rest) : rest.length = xs.length % n := by
  rw [h.length, Nat.mul_add_mod, Nat.mod_eq_of_lt h.rest]

/-- Elements that do not make up a block. -/
theorem Splits.append (h : Splits n xs full rest) (ys : List α) (hlt : (rest ++ ys).length < n) :
    Splits n (xs ++ ys) full (rest ++ ys) :=
  ⟨by rw [h.eq, List.append_assoc], h.full, hlt⟩

/-- Elements that complete a block. -/
theorem Splits.complete (h : Splits n xs full rest) (ys : List α) (heq : (rest ++ ys).length = n) :
    Splits n (xs ++ ys) (full ++ [rest ++ ys]) [] := by
  have hpos : 0 < n := Nat.lt_of_le_of_lt (Nat.zero_le _) h.rest
  refine ⟨?_, ?_, hpos⟩
  · rw [h.eq, List.flatten_concat, List.append_nil, List.append_assoc]
  · intro b hb
    rcases List.mem_append.mp hb with hb | hb
    · exact h.full b hb
    · rw [List.mem_singleton.mp hb, heq]

theorem Splits.unique (h : Splits n xs full rest) (h' : Splits n xs full' rest') :
    full = full' ∧ rest = rest' := by
  induction full generalizing xs full' with
  | nil =>
      cases full' with
      | nil => exact ⟨rfl, by rw [← List.nil_append rest, ← List.nil_append rest']; exact h.eq.symm.trans h'.eq⟩
      | cons b full' =>
          have h1 := h.length
          have h2 := h'.length
          have h3 := h.rest
          simp only [List.length_nil, Nat.mul_zero, List.length_cons, Nat.mul_succ] at h1 h2
          omega
  | cons b full ih =>
      cases full' with
      | nil =>
          have h1 := h.length
          have h2 := h'.length
          have h3 := h'.rest
          simp only [List.length_nil, Nat.mul_zero, List.length_cons, Nat.mul_succ] at h1 h2
          omega
      | cons b' full' =>
          have he := h.eq.symm.trans h'.eq
          simp only [List.flatten_cons, List.append_assoc] at he
          obtain ⟨rfl, hrest⟩ := List.append_inj he
            ((h.full b List.mem_cons_self).trans (h'.full b' List.mem_cons_self).symm)
          have hs : Splits n (full.flatten ++ rest) full rest :=
            ⟨rfl, fun c hc => h.full c (List.mem_cons_of_mem _ hc), h.rest⟩
          have hs' : Splits n (full.flatten ++ rest) full' rest' :=
            ⟨hrest, fun c hc => h'.full c (List.mem_cons_of_mem _ hc), h'.rest⟩
          obtain ⟨rfl, rfl⟩ := ih hs hs'
          exact ⟨rfl, rfl⟩

end Blocks
