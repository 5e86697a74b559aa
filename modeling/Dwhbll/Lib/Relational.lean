/-!
# Two runs of one computation

Computations on a state that return a value, throw an exception or do not return, and what it is that two of them end
in the same way when they begin in related states.
-/

namespace Relational

variable {ε α β σ τ : Type}

/-- There is no answer where the computation does not return. -/
abbrev Comp (ε σ α : Type) := ExceptT ε (StateT σ Option) α

/-- Neither returns, both throw the same, or both return the same. -/
inductive Same (S : σ → τ → Prop) (Q : α → σ → τ → Prop) :
    Option (Except ε α × σ) → Option (Except ε α × τ) → Prop where
  | none : Same S Q none none
  | error {e : ε} {s : σ} {t : τ} (h : S s t) : Same S Q (some (.error e, s)) (some (.error e, t))
  | ok {a : α} {s : σ} {t : τ} (h : Q a s t) : Same S Q (some (.ok a, s)) (some (.ok a, t))

/-- From states related by `P` the two end in the same way: after an exception in states related by `S`, after a value
in states related by `Q`. -/
def Agree (S P : σ → τ → Prop) (m : Comp ε σ α) (n : Comp ε τ α) (Q : α → σ → τ → Prop) : Prop :=
  ∀ s t, P s t → Same S Q (m s) (n t)

variable {S P : σ → τ → Prop} {Q : α → σ → τ → Prop} {R : β → σ → τ → Prop}
variable {m : Comp ε σ α} {n : Comp ε τ α}

theorem Agree.pure {a : α} (h : ∀ s t, P s t → Q a s t) : Agree (ε := ε) S P (pure a) (pure a) Q :=
  fun s t hP => .ok (h s t hP)

theorem Agree.throw {e : ε} (h : ∀ s t, P s t → S s t) :
    Agree S P (throw e : Comp ε σ α) (throw e : Comp ε τ α) Q :=
  fun s t hP => .error (h s t hP)

theorem Agree.stuck : Agree (ε := ε) S P (fun _ => none) (fun _ => none) Q := fun _ _ _ => .none

theorem bind_none {f : α → Comp ε σ β} {s : σ} (h : m s = none) : (m >>= f) s = none := by
  simp only [bind, ExceptT.bind, ExceptT.mk, StateT.bind, h, Option.bind_none]

theorem bind_error {f : α → Comp ε σ β} {s s' : σ} {e : ε} (h : m s = some (.error e, s')) :
    (m >>= f) s = some (.error e, s') := by
  simp only [bind, ExceptT.bind, ExceptT.mk, StateT.bind, h, Option.bind_some, ExceptT.bindCont]
  rfl

theorem bind_ok {f : α → Comp ε σ β} {s s' : σ} {a : α} (h : m s = some (.ok a, s')) :
    (m >>= f) s = f a s' := by
  simp only [bind, ExceptT.bind, ExceptT.mk, StateT.bind, h, Option.bind_some, ExceptT.bindCont]

theorem Agree.bind {f : α → Comp ε σ β} {g : α → Comp ε τ β} (hm : Agree S P m n Q)
    (hf : ∀ a, Agree S (Q a) (f a) (g a) R) : Agree S P (m >>= f) (n >>= g) R := by
  intro s t hP
  have h := hm s t hP
  generalize hs : m s = x at h
  generalize ht : n t = y at h
  cases h with
  | none =>
      rw [bind_none hs, bind_none ht]
      exact .none
  | error h =>
      rw [bind_error hs, bind_error ht]
      exact .error h
  | ok h =>
      rw [bind_ok hs, bind_ok ht]
      exact hf _ _ _ h

theorem Agree.ite {c : Prop} [Decidable c] {m' : Comp ε σ α} {n' : Comp ε τ α} (ht : c → Agree S P m n Q)
    (he : ¬ c → Agree S P m' n' Q) : Agree S P (if c then m else m') (if c then n else n') Q := by
  split
  · exact ht ‹c›
  · exact he ‹¬ c›

/-! ## One run -/

/-- From a state in `I` the computation goes to one in `I`, whether it returns or throws. -/
def Keeps (I : σ → Prop) (m : Comp ε σ α) : Prop := ∀ s r s', I s → m s = some (r, s') → I s'

variable {I : σ → Prop}

theorem Keeps.pure {a : α} : Keeps I (pure a : Comp ε σ α) := by
  intro s r s' hs h
  cases h
  exact hs

theorem Keeps.throw {e : ε} : Keeps I (throw e : Comp ε σ α) := by
  intro s r s' hs h
  cases h
  exact hs

theorem Keeps.stuck : Keeps (ε := ε) (α := α) I fun _ => none := by
  intro s r s' hs h
  cases h

theorem Keeps.bind {f : α → Comp ε σ β} (hm : Keeps I m) (hf : ∀ a, Keeps I (f a)) : Keeps I (m >>= f) := by
  intro s r s' hs h
  cases hx : m s with
  | none =>
      rw [bind_none hx] at h
      cases h
  | some x =>
      obtain ⟨ra, s₁⟩ := x
      have hs₁ := hm s ra s₁ hs hx
      cases ra with
      | error e =>
          rw [bind_error hx] at h
          cases h
          exact hs₁
      | ok a =>
          rw [bind_ok hx] at h
          exact hf a s₁ r s' hs₁ h

theorem Keeps.ite {c : Prop} [Decidable c] {m' : Comp ε σ α} (ht : c → Keeps I m) (he : ¬ c → Keeps I m') :
    Keeps I (if c then m else m') := by
  split
  · exact ht ‹c›
  · exact he ‹¬ c›

/-- All that the computation returns is in `V`. -/
def Yields (V : α → Prop) (m : Comp ε σ α) : Prop := ∀ s a s', m s = some (.ok a, s') → V a

variable {V : α → Prop} {W : β → Prop}

theorem Yields.pure {a : α} (h : V a) : Yields V (pure a : Comp ε σ α) := by
  intro s a' s' hrun
  cases hrun
  exact h

theorem Yields.stuck : Yields (ε := ε) (σ := σ) V fun _ => none := by
  intro s a s' hrun
  cases hrun

theorem Yields.bind {f : α → Comp ε σ β} (hf : ∀ a, Yields W (f a)) : Yields W (m >>= f) := by
  intro s b s' hrun
  cases hx : m s with
  | none =>
      rw [bind_none hx] at hrun
      cases hrun
  | some x =>
      obtain ⟨ra, s₁⟩ := x
      cases ra with
      | error e =>
          rw [bind_error hx] at hrun
          cases hrun
      | ok a =>
          rw [bind_ok hx] at hrun
          exact hf a s₁ b s' hrun

theorem Yields.ite {c : Prop} [Decidable c] {m' : Comp ε σ α} (ht : c → Yields V m) (he : ¬ c → Yields V m') :
    Yields V (if c then m else m') := by
  split
  · exact ht ‹c›
  · exact he ‹¬ c›

end Relational
