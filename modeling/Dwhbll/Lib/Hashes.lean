/-!
# Objects that hash what they are given, and RFC 2104

Such an object computes a function of its message if this is what `finalize` gives of the updates, for a new object and
for one that has been used before.
-/

namespace Hashes

variable {σ : Type}

/-- A class of hash objects. `finalize` is given what is in its output, and has what is in there then; where the hash
does not fit it need not have an answer. -/
structure HashClass (σ : Type) where
  hashLen : Nat
  blockLen : Nat
  le : hashLen ≤ blockLen
  new : σ
  update : List UInt8 → σ → σ
  finalize : List UInt8 → σ → Option (List UInt8 × σ)

namespace HashClass

/-- The calls of `update` one after the other. -/
def updates (C : HashClass σ) (datas : List (List UInt8)) (s : σ) : σ := datas.foldl (fun s data => C.update data s) s

/-- A new object, or one as `finalize` leaves it. If `finalize` resets the object, that is a new one again. -/
inductive Fresh (C : HashClass σ) : σ → Prop where
  | new : C.Fresh C.new
  | finalized {s s' : σ} {datas : List (List UInt8)} {output result : List UInt8} :
      C.Fresh s → C.hashLen ≤ output.length → C.finalize output (C.updates datas s) = some (result, s') → C.Fresh s'

/-- `finalize` puts the hash of all that was given to `update` at the front of its output. -/
structure Computes (C : HashClass σ) (H : List UInt8 → List UInt8) : Prop where
  length : ∀ m, (H m).length = C.hashLen
  finalize : ∀ {s : σ}, C.Fresh s → ∀ (datas : List (List UInt8)) (output : List UInt8), C.hashLen ≤ output.length →
    ∃ s', C.finalize output (C.updates datas s) = some (H datas.flatten ++ output.drop C.hashLen, s')

variable {C : HashClass σ} {H : List UInt8 → List UInt8} {s : σ} {m output : List UInt8}

theorem Computes.length_le (h : C.Computes H) (m : List UInt8) : (H m).length ≤ C.blockLen :=
  Nat.le_trans (Nat.le_of_eq (h.length m)) C.le

theorem Computes.finalize_fresh (h : C.Computes H) (hs : C.Fresh s) (datas : List (List UInt8))
    (hout : C.hashLen ≤ output.length) :
    ∃ s', C.finalize output (C.updates datas s) = some (H datas.flatten ++ output.drop C.hashLen, s') ∧ C.Fresh s' := by
  obtain ⟨s', heq⟩ := h.finalize hs datas output hout
  exact ⟨s', heq, .finalized hs hout heq⟩

/-- It is enough to say which objects have been given which message. -/
theorem computes_of_invariant (Has : σ → List UInt8 → Prop) (hlen : ∀ m, (H m).length = C.hashLen)
    (hnew : Has C.new []) (hupdate : ∀ {s m} data, Has s m → Has (C.update data s) (m ++ data))
    (hfinalize : ∀ {s m output}, Has s m → C.hashLen ≤ output.length →
      ∃ s', C.finalize output s = some (H m ++ output.drop C.hashLen, s') ∧ Has s' []) : C.Computes H := by
  have hupdates : ∀ (datas : List (List UInt8)) {s : σ} {m : List UInt8}, Has s m →
      Has (C.updates datas s) (m ++ datas.flatten) := by
    intro datas
    induction datas with
    | nil =>
        intro s m hs
        rwa [List.flatten_nil, List.append_nil]
    | cons data datas ih =>
        intro s m hs
        rw [List.flatten_cons, ← List.append_assoc]
        exact ih (hupdate data hs)
  have hfresh : ∀ {s}, C.Fresh s → Has s [] := by
    intro s hs
    induction hs with
    | new => exact hnew
    | finalized _ hout heq ih =>
        obtain ⟨s', heq', hs'⟩ := hfinalize (hupdates _ ih) hout
        cases heq.symm.trans heq'
        exact hs'
  refine ⟨hlen, fun hs datas output hout => ?_⟩
  obtain ⟨s', heq, -⟩ := hfinalize (hupdates datas (hfresh hs)) hout
  exact ⟨s', heq⟩

end HashClass

/-! ## RFC 2104 -/

/-- The key as a block of `B` bytes. -/
def blockKey (H : List UInt8 → List UInt8) (B : Nat) (key : List UInt8) : List UInt8 :=
  let key := if B < key.length then H key else key
  key ++ List.replicate (B - key.length) 0

def hmac (H : List UInt8 → List UInt8) (B : Nat) (key message : List UInt8) : List UInt8 :=
  let K := blockKey H B key
  H (K.map (· ^^^ 0x5C) ++ H (K.map (· ^^^ 0x36) ++ message))

theorem blockKey_length {H : List UInt8 → List UInt8} {B : Nat} (hH : ∀ m, (H m).length ≤ B) (key : List UInt8) :
    (blockKey H B key).length = B := by
  unfold blockKey
  split
  · rw [List.length_append, List.length_replicate, Nat.add_sub_cancel' (hH key)]
  · rw [List.length_append, List.length_replicate, Nat.add_sub_cancel' (Nat.le_of_not_lt ‹_›)]

end Hashes
