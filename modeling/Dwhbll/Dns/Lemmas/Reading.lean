import Dwhbll.Dns.Stream
import Dwhbll.Lib.Words

/-!
# Reading known bytes

`Yields m bs a` is the rule for going from bytes to values: wherever the bytes `bs` stand, `m` returns `a`
and moves behind them. `Consumes m R` is the way back: `m` returns `a` only where bytes stand that are
related to it by `R`.
-/

namespace Dwhbll.Network.Dns

open Collections

variable {α β : Type}

/-! ## Outcomes -/

@[simp]
theorem Outcome.done_bind (a : α) (f : α → Outcome β) : (done a >>= f) = f a := rfl

@[simp]
theorem Outcome.ofOption_some (a : α) : ofOption (some a) = done a := rfl

theorem Outcome.bind_eq_done {x : Outcome α} {f : α → Outcome β} {b : β} :
    (x >>= f) = .done b ↔ ∃ a, x = .done a ∧ f a = .done b := by
  cases x with
  | done a =>
      constructor
      · intro h
        exact ⟨a, rfl, h⟩
      · rintro ⟨a', h1, h2⟩
        cases h1
        exact h2
  | outside | lengthError | terminated | running =>
      constructor
      · intro h
        cases h
      · rintro ⟨a', h1, -⟩
        cases h1

theorem Outcome.ofOption_eq_done {x : Option α} {a : α} : ofOption x = .done a ↔ x = some a := by
  cases x with
  | none => simp [ofOption]
  | some b => simp [ofOption]

theorem Unpack.bind_eq_done {m : Unpack α} {f : α → Unpack β} {s s' : MemoryStream} {b : β}
    (h : (m >>= f) s = .done (b, s')) : ∃ a t, m s = .done (a, t) ∧ f a t = .done (b, s') := by
  obtain ⟨⟨a, t⟩, h1, h2⟩ := Outcome.bind_eq_done.mp h
  exact ⟨a, t, h1, h2⟩

theorem Unpack.bind_of_done {m : Unpack α} {f : α → Unpack β} {s t : MemoryStream} {a : α} (h : m s = .done (a, t)) :
    (m >>= f) s = f a t := by
  show (m s >>= fun p => f p.1 p.2) = f a t
  rw [h]
  rfl

/-! ## Bytes in a ring -/

/-- From `head` on stand the bytes `bs`. -/
def Holds (data : Collections.Ring UInt8) (head : Nat) (bs : List UInt8) : Prop :=
  ∀ i b, bs[i]? = some b → data.get? (head + i) = some b

variable {data : Collections.Ring UInt8} {head : Nat} {b : UInt8} {bs cs : List UInt8}

theorem holds_nil : Holds data head [] := by
  intro i b h
  cases h

theorem holds_cons : Holds data head (b :: bs) ↔ data.get? head = some b ∧ Holds data (head + 1) bs := by
  constructor
  · intro h
    refine ⟨h 0 b rfl, fun i c hc => ?_⟩
    rw [Nat.add_assoc, Nat.add_comm 1]
    exact h (i + 1) c hc
  · rintro ⟨h1, h2⟩ i c hc
    cases i with
    | zero => cases hc; exact h1
    | succ i =>
        rw [Nat.add_comm i, ← Nat.add_assoc]
        exact h2 i c hc

theorem holds_append : Holds data head (bs ++ cs) ↔ Holds data head bs ∧ Holds data (head + bs.length) cs := by
  induction bs generalizing head with
  | nil =>
      constructor
      · intro h
        exact ⟨holds_nil, h⟩
      · rintro ⟨-, h⟩
        exact h
  | cons b bs ih =>
      rw [List.cons_append, holds_cons, holds_cons, ih, and_assoc, List.length_cons, Nat.add_assoc,
        Nat.add_comm 1]

theorem holds_of_flat {r : Collections.Ring UInt8} (h : ∀ i b, r.toList[i]? = some b → r.get? i = some b) :
    Holds r 0 r.toList := by
  intro i b hi
  rw [Nat.zero_add]
  exact h i b hi

/-! ## From bytes to values -/

def Yields (m : Unpack α) (bs : List UInt8) (a : α) : Prop :=
  ∀ s, Holds s.data s.currentHead bs → m s = .done (a, { s with currentHead := s.currentHead + bs.length })

theorem Yields.pure (a : α) : Yields (pure a) [] a := by
  intro s _
  rfl

theorem Yields.bind {m : Unpack α} {f : α → Unpack β} {a : α} {b : β} (hm : Yields m bs a)
    (hf : Yields (f a) cs b) : Yields (m >>= f) (bs ++ cs) b := by
  intro s hs
  obtain ⟨h1, h2⟩ := holds_append.mp hs
  have hb : f a { s with currentHead := s.currentHead + bs.length } =
      .done (b, { s with currentHead := s.currentHead + bs.length + cs.length }) := hf _ h2
  rw [Nat.add_assoc, ← List.length_append] at hb
  exact Outcome.bind_eq_done.mpr ⟨_, hm s h1, hb⟩

/-- The last call of a sequence, and what is made of its value. -/
theorem Yields.bind_pure {m : Unpack α} {a : α} (hm : Yields m bs a) (f : α → β) :
    Yields (m >>= fun a => Pure.pure (f a)) bs (f a) := by
  have hy : Yields (m >>= fun a => Pure.pure (f a)) (bs ++ []) (f a) := hm.bind (Yields.pure (f a))
  rwa [List.append_nil] at hy

theorem Yields.getUint8 (b : UInt8) : Yields MemoryStream.getUint8 [b] b := by
  intro s hs
  have h := (holds_cons.mp hs).1
  rw [MemoryStream.getUint8, h]
  rfl

theorem Yields.getUint16 (v : UInt16) : Yields MemoryStream.getUint16 (Words.bytes v) v := by
  have h : ∀ x y : UInt8, Yields MemoryStream.getUint16 ([x] ++ [y]) (Words.ofBytes x y) := by
    intro x y
    rw [MemoryStream.getUint16]
    exact (Yields.getUint8 x).bind ((Yields.getUint8 y).bind_pure (Words.ofBytes x))
  have hv := h (v >>> 8).toUInt8 (v &&& 0xFF).toUInt8
  rw [Words.ofBytes_bytes] at hv
  exact hv

theorem Yields.getUint32 (v : UInt32) : Yields MemoryStream.getUint32 (Words.bytes32 v) v := by
  have h : ∀ x y : UInt16, Yields MemoryStream.getUint32 (Words.bytes x ++ Words.bytes y) (Words.ofHalves x y) := by
    intro x y
    rw [MemoryStream.getUint32]
    exact (Yields.getUint16 x).bind ((Yields.getUint16 y).bind_pure (Words.ofHalves x))
  have hv := h (v >>> 16).toUInt16 (v &&& 0xFFFF).toUInt16
  rw [Words.ofHalves_halves] at hv
  exact hv

theorem Yields.getBytes (bs : List UInt8) : Yields (MemoryStream.getBytes bs.length) bs bs := by
  induction bs with
  | nil => exact Yields.pure []
  | cons b bs ih =>
      rw [List.length_cons, MemoryStream.getBytes]
      exact (Yields.getUint8 b).bind (ih.bind_pure (b :: ·))

/-! ## From values to bytes -/

def Consumes (m : Unpack α) (R : α → List UInt8 → Prop) : Prop :=
  ∀ s a s', m s = .done (a, s') → ∃ bs, Holds s.data s.currentHead bs ∧
    s' = { s with currentHead := s.currentHead + bs.length } ∧ R a bs

theorem Consumes.getUint8 : Consumes MemoryStream.getUint8 fun b bs => bs = [b] := by
  intro s b s' h
  obtain ⟨c, h1, h2⟩ := Outcome.bind_eq_done.mp h
  cases h2
  exact ⟨[b], holds_cons.mpr ⟨Outcome.ofOption_eq_done.mp h1, holds_nil⟩, rfl, rfl⟩

theorem getBytes_length {n : Nat} {s s' : MemoryStream} (h : MemoryStream.getBytes n s = .done (bs, s')) :
    bs.length = n := by
  induction n generalizing bs s with
  | zero =>
      cases h
      rfl
  | succ n ih =>
      obtain ⟨b, t, -, h⟩ := Unpack.bind_eq_done h
      obtain ⟨bs', t', hbs, h⟩ := Unpack.bind_eq_done h
      cases h
      rw [List.length_cons, ih hbs]

theorem Consumes.bind {m : Unpack α} {f : α → Unpack β} {R : α → List UInt8 → Prop}
    {S : α → β → List UInt8 → Prop} (hm : Consumes m R) (hf : ∀ a, Consumes (f a) (S a)) :
    Consumes (m >>= f) fun b bs => ∃ a bs₁ bs₂, bs = bs₁ ++ bs₂ ∧ R a bs₁ ∧ S a b bs₂ := by
  intro s b s' h
  obtain ⟨a, t, h1, h2⟩ := Unpack.bind_eq_done h
  obtain ⟨bs₁, hb₁, rfl, hr⟩ := hm s a t h1
  obtain ⟨bs₂, hb₂, rfl, hs⟩ := hf a _ b s' h2
  refine ⟨bs₁ ++ bs₂, holds_append.mpr ⟨hb₁, hb₂⟩, ?_, a, bs₁, bs₂, rfl, hr, hs⟩
  simp only [List.length_append, Nat.add_assoc]

theorem Consumes.pure (a : α) : Consumes (pure a) fun b bs => b = a ∧ bs = [] := by
  intro s b s' h
  cases h
  exact ⟨[], holds_nil, rfl, rfl, rfl⟩

theorem Consumes.mono {m : Unpack α} {R S : α → List UInt8 → Prop} (hm : Consumes m R)
    (h : ∀ a bs, R a bs → S a bs) : Consumes m S := by
  intro s a s' hs
  obtain ⟨bs, h1, h2, h3⟩ := hm s a s' hs
  exact ⟨bs, h1, h2, h a bs h3⟩

theorem Consumes.getUint16 : Consumes MemoryStream.getUint16 fun v bs => bs = Words.bytes v := by
  refine (Consumes.getUint8.bind fun high => Consumes.getUint8.bind fun low => Consumes.pure _).mono ?_
  rintro v bs ⟨high, _, _, rfl, rfl, low, _, _, rfl, rfl, rfl, rfl⟩
  exact (Words.bytes_ofBytes high low).symm

end Dwhbll.Network.Dns
