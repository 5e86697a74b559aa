/-!
# Loops that may fail

Computations in `Except` that return, and loops with a bound on their iterations. A loop returns if there is an
invariant under which each iteration returns, and a measure that each iteration makes smaller. For what holds of the
value of a loop, if it has one, the invariant is enough; where both are wanted, the return may depend on a condition.
-/

namespace Loops

variable {ε α β σ : Type}

/-! ## What a computation returns -/

/-- The computation returns a value, and `Q` holds of it. -/
def Returns (m : Except ε α) (Q : α → Prop) : Prop := ∃ a, m = .ok a ∧ Q a

variable {m : Except ε α} {Q : α → Prop} {R : β → Prop} {a : α}

theorem Returns.pure (h : Q a) : Returns (pure a : Except ε α) Q := ⟨a, rfl, h⟩

theorem Returns.bind {f : α → Except ε β} (hm : Returns m Q) (hf : ∀ a, Q a → Returns (f a) R) :
    Returns (m >>= f) R := by
  obtain ⟨a, rfl, ha⟩ := hm
  exact hf a ha

theorem Returns.mono {Q' : α → Prop} (hm : Returns m Q) (h : ∀ a, Q a → Q' a) : Returns m Q' := by
  obtain ⟨a, ha, hq⟩ := hm
  exact ⟨a, ha, h a hq⟩

theorem bind_eq_ok {f : α → Except ε β} {b : β} (h : (m >>= f) = .ok b) : ∃ a, m = .ok a ∧ f a = .ok b := by
  cases m with
  | error e => cases h
  | ok a => exact ⟨a, rfl, h⟩

/-! ## Loops -/

/-- What an iteration of a loop leads to. -/
inductive Next (σ α : Type) where
  | again (s : σ)
  | done (a : α)

/-- The loop with the body `step`, which fails with `out` after `fuel` iterations. -/
def loop (out : ε) (step : σ → Except ε (Next σ α)) : (fuel : Nat) → σ → Except ε α
  | 0, _ => .error out
  | fuel + 1, s => do
      match ← step s with
      | .again s' => loop out step fuel s'
      | .done a => return a

/-- An iteration keeps `I` and makes `measure` smaller, or it ends the loop with a value of which `Q` holds. -/
def Next.Good (I : σ → Prop) (measure : σ → Nat) (Q : α → Prop) (s : σ) : Next σ α → Prop
  | .again s' => I s' ∧ measure s' < measure s
  | .done a => Q a

theorem Returns.loop {out : ε} {step : σ → Except ε (Next σ α)} {I : σ → Prop} {fuel : Nat} {s : σ}
    (measure : σ → Nat) (hstep : ∀ s, I s → Returns (step s) (Next.Good I measure Q s)) (hs : I s)
    (hf : measure s < fuel) : Returns (loop out step fuel s) Q := by
  induction fuel generalizing s with
  | zero => omega
  | succ fuel ih =>
      refine (hstep s hs).bind fun next hnext => ?_
      cases next with
      | again s' => exact ih hnext.1 (Nat.lt_of_lt_of_le hnext.2 (Nat.le_of_lt_succ hf))
      | done a => exact .pure hnext

/-! ## What holds of a value, if there is one -/

/-- If the computation returns a value, `Q` holds of it. -/
def Ensures (m : Except ε α) (Q : α → Prop) : Prop := ∀ a, m = .ok a → Q a

theorem Ensures.pure (h : Q a) : Ensures (pure a : Except ε α) Q := by
  intro b hb
  cases hb
  exact h

theorem Ensures.bind {f : α → Except ε β} (hm : Ensures m Q) (hf : ∀ a, Q a → Ensures (f a) R) :
    Ensures (m >>= f) R := by
  intro b hb
  obtain ⟨a, ha, hfa⟩ := bind_eq_ok hb
  exact hf a (hm a ha) b hfa

theorem Ensures.mono {Q' : α → Prop} (hm : Ensures m Q) (h : ∀ a, Q a → Q' a) : Ensures m Q' :=
  fun a ha => h a (hm a ha)

theorem Ensures.and {P : α → Prop} (hm : Ensures m P) (hm' : Ensures m Q) : Ensures m fun a => P a ∧ Q a :=
  fun a ha => ⟨hm a ha, hm' a ha⟩

/-- What a computation returns is all that it can return. -/
theorem Returns.ensures (hm : Returns m Q) : Ensures m Q := by
  obtain ⟨a, ha, hq⟩ := hm
  intro b hb
  rw [ha] at hb
  cases hb
  exact hq

theorem Ensures.returns {Q' : α → Prop} (hm : Ensures m Q) (h : Returns m Q') : Returns m Q := by
  obtain ⟨a, ha, _⟩ := h
  exact ⟨a, ha, hm a ha⟩

/-- Nothing is known of the value of the first computation. -/
theorem Ensures.bind_any {f : α → Except ε β} (hf : ∀ a, Ensures (f a) R) : Ensures (m >>= f) R :=
  Ensures.bind (Q := fun _ => True) (fun _ _ => trivial) fun a _ => hf a

/-- An iteration keeps `I`, or it ends the loop with a value of which `Q` holds. -/
def Next.Keeps (I : σ → Prop) (Q : α → Prop) : Next σ α → Prop
  | .again s' => I s'
  | .done a => Q a

theorem Ensures.loop {out : ε} {step : σ → Except ε (Next σ α)} {I : σ → Prop} {fuel : Nat} {s : σ}
    (hstep : ∀ s, I s → Ensures (step s) (Next.Keeps I Q)) (hs : I s) : Ensures (loop out step fuel s) Q := by
  induction fuel generalizing s with
  | zero =>
      intro a ha
      cases ha
  | succ fuel ih =>
      refine (hstep s hs).bind fun next hnext => ?_
      cases next with
      | again s' => exact ih hnext
      | done a => exact .pure hnext

/-! ## Values, and a condition under which there is one -/

/-- If the computation returns a value, `Q` holds of it, and under `ok` it does return one. -/
structure Attains (ok : Prop) (m : Except ε α) (Q : α → Prop) : Prop where
  ensures : Ensures m Q
  returns : ok → Returns m Q

variable {ok : Prop}

theorem Returns.attains (hm : Returns m Q) : Attains ok m Q := ⟨hm.ensures, fun _ => hm⟩

theorem Attains.pure (h : Q a) : Attains ok (pure a : Except ε α) Q := (Returns.pure h).attains

theorem Attains.bind {f : α → Except ε β} (hm : Attains ok m Q) (hf : ∀ a, Q a → Attains ok (f a) R) :
    Attains ok (m >>= f) R where
  ensures := hm.ensures.bind fun a ha => (hf a ha).ensures
  returns hok := (hm.returns hok).bind fun a ha => (hf a ha).returns hok

theorem Attains.mono {Q' : α → Prop} (hm : Attains ok m Q) (h : ∀ a, Q a → Q' a) : Attains ok m Q' where
  ensures := hm.ensures.mono h
  returns hok := (hm.returns hok).mono h

theorem Attains.of_imp {ok' : Prop} (hm : Attains ok m Q) (h : ok' → ok) : Attains ok' m Q :=
  ⟨hm.ensures, fun hok => hm.returns (h hok)⟩

theorem Attains.loop {out : ε} {step : σ → Except ε (Next σ α)} {I : σ → Prop} {fuel : Nat} {s : σ}
    (measure : σ → Nat) (hstep : ∀ s, I s → Attains ok (step s) (Next.Good I measure Q s)) (hs : I s)
    (hf : ok → measure s < fuel) : Attains ok (loop out step fuel s) Q where
  ensures := by
    refine Ensures.loop (I := I) (fun s hs => (hstep s hs).ensures.mono fun next hnext => ?_) hs
    cases next with
    | again s' => exact hnext.1
    | done a => exact hnext
  returns hok := Returns.loop measure (fun s hs => (hstep s hs).returns hok) hs (hf hok)

end Loops
