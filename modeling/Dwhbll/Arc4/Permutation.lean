import Dwhbll.Arc4.Stream
import Mathlib.Logic.Equiv.Basic

/-!
# The state of `arc4` as a permutation

Every write to `S` is a swap, so that it stays a permutation of the bytes whatever the indices are, and
`keygen_i` counts the bytes of the keystream.
-/

namespace Dwhbll.Cryptography.Arc4

/-! ## The array -/

theorem swap_eq_comp (S : UInt8 → UInt8) (i j : UInt8) : swap S i j = S ∘ Equiv.swap i j := by
  funext k
  simp only [swap, Function.comp_apply, Equiv.swap_apply_def]
  split
  · rfl
  · split <;> rfl

theorem swap_bijective {S : UInt8 → UInt8} (h : Function.Bijective S) (i j : UInt8) :
    Function.Bijective (swap S i j) := by
  rw [swap_eq_comp]
  exact h.comp (Equiv.swap i j).bijective

theorem schedule_bijective (key : List UInt8) : Function.Bijective (schedule key).S := by
  unfold schedule
  generalize List.range 256 = is
  -- A round of the constructor's loop is a swap, whatever byte it gets from the key.
  exact List.foldlRecOn (motive := fun s : (UInt8 → UInt8) × UInt8 => Function.Bijective s.1) is _
    Function.bijective_id fun s hs i _ => swap_bijective hs _ _

/-- `S` is a permutation of the bytes, and `keygen_i` is the number of keystream bytes modulo 256. -/
structure Permuted (s : Arc4) (produced : Nat) : Prop where
  bijective : Function.Bijective s.S
  keygenI_eq : s.keygenI.toNat = produced % 256

theorem schedule_permuted (key : List UInt8) : (schedule key).Permuted 0 := ⟨schedule_bijective key, rfl⟩

variable {s : Arc4} {m : Nat}

theorem Permuted.keystreamNext (h : s.Permuted m) : s.keystreamNext.2.Permuted (m + 1) := by
  refine ⟨swap_bijective h.bijective _ _, ?_⟩
  show (s.keygenI + 1).toNat = (m + 1) % 256
  rw [UInt8.toNat_add, h.keygenI_eq]
  exact Nat.mod_add_mod m 256 1

theorem Permuted.after (h : s.Permuted m) (n : Nat) : (s.after n).Permuted (m + n) := by
  induction n with
  | zero => exact h
  | succ n ih => exact ih.keystreamNext

/-! ## Runs -/

/-- A call of the class, `keystream_next` among them. -/
inductive Step where
  | keystreamNext
  | call (c : Call)
  deriving DecidableEq, Repr

def Step.run (s : Arc4) : Step → Arc4
  | .keystreamNext => s.keystreamNext.2
  | .call c => (c.run s).2

/-- How many bytes of the keystream the call takes. -/
def Step.produced : Step → Nat
  | .keystreamNext => 1
  | .call (.crypt data) | .call (.cryptInplace data) => data.length
  | .call (.drop count) => count

theorem Step.run_eq (s : Arc4) (st : Step) : st.run s = s.after st.produced := by
  cases st with
  | keystreamNext => rfl
  | call c =>
      rw [Step.run, (c.run_eq s).2]
      cases c with
      | crypt data | cryptInplace data => rw [Call.input, List.length_map, Step.produced]
      | drop count => rw [Call.input, List.length_replicate, Step.produced]

theorem Permuted.run (h : s.Permuted m) (st : Step) : (st.run s).Permuted (m + st.produced) := by
  rw [Step.run_eq]
  exact h.after st.produced

theorem Permuted.runs (h : s.Permuted m) (steps : List Step) :
    (steps.foldl Step.run s).Permuted (m + (steps.map Step.produced).sum) := by
  induction steps generalizing s m with
  | nil => exact h
  | cons st steps ih =>
      rw [List.foldl_cons, List.map_cons, List.sum_cons, ← Nat.add_assoc]
      exact ih (h.run st)

/-- For every key the constructor takes, and after any calls: `S` is a permutation of the bytes, and `keygen_i`
is the number of keystream bytes modulo 256. -/
theorem runs_permuted {key : List UInt8} (h1 : 1 ≤ key.length) (h256 : key.length ≤ 256) :
    ∃ s, new key = .ok s ∧ ∀ steps : List Step,
      Function.Bijective (steps.foldl Step.run s).S ∧
        (steps.foldl Step.run s).keygenI.toNat = (steps.map Step.produced).sum % 256 := by
  refine ⟨schedule key, new_eq_ok h1 h256, fun steps => ?_⟩
  have h := (schedule_permuted key).runs steps
  rw [Nat.zero_add] at h
  exact ⟨h.bijective, h.keygenI_eq⟩

theorem runs_permuted_three : ∃ s, new [75, 101, 121] = .ok s ∧ ∀ steps : List Step,
    Function.Bijective (steps.foldl Step.run s).S ∧
      (steps.foldl Step.run s).keygenI.toNat = (steps.map Step.produced).sum % 256 :=
  have h1 : 1 ≤ ([75, 101, 121] : List UInt8).length := by decide
  runs_permuted h1 (by decide)

end Dwhbll.Cryptography.Arc4
