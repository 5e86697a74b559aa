/-!
# Calls that move a position forward

A call starts at a position of an input of `size` elements. It leaves the position somewhere and returns a value or
raises an error; some errors are `bad`, such as a look outside the input or an end of the fuel of a loop.
-/

namespace Progress

variable {ε α β σ : Type}

/-- An error leaves the position where it is. -/
abbrev Call (ε : Type) := ExceptT ε (StateM Nat)

/-- A call at `i` came to `r`: it has moved neither back nor behind the end and raised no bad error, and where it
returned it has moved on by `least` or more. -/
structure AdvancesAt (size : Nat) (bad : ε → Prop) (least i : Nat) (r : Except ε α × Nat) : Prop where
  le : i ≤ r.2
  le_size : r.2 ≤ size
  not_bad : ∀ e, r.1 = .error e → ¬ bad e
  least_le : ∀ a, r.1 = .ok a → i + least ≤ r.2

/-- So it is at every position from `lo` on. -/
def Advances (size : Nat) (bad : ε → Prop) (lo least : Nat) (m : Call ε α) : Prop :=
  ∀ i, lo ≤ i → i ≤ size → AdvancesAt size bad least i (m i)

variable {size lo lo' least least' i j : Nat} {bad : ε → Prop} {m : Call ε α} {f : α → Call ε β} {a : α} {e : ε}

theorem AdvancesAt.ok (hle : i + least ≤ j) (hsize : j ≤ size) :
    AdvancesAt size bad least i ((.ok a, j) : Except ε α × Nat) where
  le := Nat.le_trans (Nat.le_add_right ..) hle
  le_size := hsize
  not_bad _ h := by cases h
  least_le _ _ := hle

theorem AdvancesAt.error (he : ¬ bad e) (hle : i ≤ j) (hsize : j ≤ size) :
    AdvancesAt size bad least i ((.error e, j) : Except ε α × Nat) where
  le := hle
  le_size := hsize
  not_bad _ h := by cases h; exact he
  least_le _ h := by cases h

theorem AdvancesAt.trans {r : Except ε α × Nat} (hij : i + least ≤ j) (h : AdvancesAt size bad least' j r) :
    AdvancesAt size bad (least + least') i r where
  le := Nat.le_trans (Nat.le_trans (Nat.le_add_right ..) hij) h.le
  le_size := h.le_size
  not_bad := h.not_bad
  least_le a ha := by
    have := h.least_le a ha
    omega

theorem bind_ok (h : m i = (.ok a, j)) : (m >>= f) i = f a j := by
  simp only [bind, ExceptT.bind, ExceptT.mk, ExceptT.bindCont, StateT.bind, h]

theorem bind_error (h : m i = (.error e, j)) : (m >>= f) i = (.error e, j) := by
  simp only [bind, ExceptT.bind, ExceptT.mk, ExceptT.bindCont, StateT.bind, h]
  rfl

namespace Advances

theorem mono (h : Advances size bad lo least m) (hlo : lo ≤ lo') (hleast : least' ≤ least) :
    Advances size bad lo' least' m := by
  intro i hi hsize
  have hm := h i (Nat.le_trans hlo hi) hsize
  exact ⟨hm.le, hm.le_size, hm.not_bad, fun a ha => Nat.le_trans (Nat.add_le_add_left hleast i) (hm.least_le a ha)⟩

theorem weaken (h : Advances size bad lo least m) : Advances size bad lo 0 m := h.mono (Nat.le_refl lo) (Nat.zero_le _)

theorem pure (a : α) : Advances size bad lo 0 (Pure.pure a : Call ε α) :=
  fun _ _ hsize => .ok (Nat.le_refl _) hsize

theorem throw (he : ¬ bad e) : Advances size bad lo least (MonadExcept.throw e : Call ε α) :=
  fun i _ hsize => .error he (Nat.le_refl i) hsize

theorem bind (hm : Advances size bad lo least m) (hf : ∀ a, Advances size bad (lo + least) least' (f a)) :
    Advances size bad lo (least + least') (m >>= f) := by
  intro i hi hsize
  have h := hm i hi hsize
  cases hr : m i with
  | mk r j =>
      rw [hr] at h
      cases r with
      | error e =>
          rw [bind_error hr]
          exact .error (h.not_bad e rfl) h.le h.le_size
      | ok a =>
          rw [bind_ok hr]
          have hij := h.least_le a rfl
          exact .trans hij (hf a j (Nat.le_trans (Nat.add_le_add_right hi least) hij) h.le_size)

/-- The first of two calls moves on. -/
theorem bind_left (hm : Advances size bad lo least m) (hf : ∀ a, Advances size bad (lo + least) 0 (f a)) :
    Advances size bad lo least (m >>= f) :=
  hm.bind hf

/-- The second of two calls moves on. -/
theorem bind_right (hm : Advances size bad lo 0 m) (hf : ∀ a, Advances size bad lo least (f a)) :
    Advances size bad lo least (m >>= f) :=
  (hm.bind hf).mono (Nat.le_refl lo) (Nat.le_add_left least 0)

theorem ite {c : Prop} [Decidable c] {m m' : Call ε α} (h : Advances size bad lo least m)
    (h' : Advances size bad lo least m') : Advances size bad lo least (if c then m else m') := by
  split
  · exact h
  · exact h'

/-- Each iteration of a loop goes on behind where it starts, so that the fuel is enough if there is more of it than
there are elements left. -/
theorem loop {fuel : Nat} {s : σ} (body : Nat → σ → Call ε α)
    (hbody : ∀ fuel lo' s, lo ≤ lo' → (∀ s, Advances size bad (lo' + 1) least (body fuel s)) →
      Advances size bad lo' least (body (fuel + 1) s)) (hfuel : size < lo + fuel) :
    Advances size bad lo least (body fuel s) := by
  suffices h : ∀ lo' s, lo ≤ lo' → size < lo' + fuel → Advances size bad lo' least (body fuel s) from
    h lo s (Nat.le_refl lo) hfuel
  clear hfuel
  induction fuel with
  | zero =>
      intro lo' s _ hfuel i hi hsize
      omega
  | succ fuel ih =>
      intro lo' s hlo hfuel
      exact hbody fuel lo' s hlo fun s => ih (lo' + 1) s (Nat.le_succ_of_le hlo) (by omega)

end Advances

end Progress
