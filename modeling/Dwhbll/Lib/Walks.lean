import Mathlib.Data.Finset.Card
import Mathlib.Data.Fintype.Card
import Mathlib.Logic.Relation

/-!
# Walks of a partial function

From each state a partial function leads to at most one other. A walk through finitely many states ends if and only if
it does not come to a circle, and then it has at most as many steps as there are states to go on from.
-/

namespace Walks

universe u

variable {α : Type u} {next : α → Option α} {a b c : α} {m n : Nat}

/-- Where `n` steps lead to, if there are as many. -/
def after (next : α → Option α) : (n : Nat) → α → Option α
  | 0, a => some a
  | n + 1, a => (next a).bind (after next n)

theorem after_add (m n : Nat) (a : α) : after next (m + n) a = (after next m a).bind (after next n) := by
  induction m generalizing a with
  | zero => rw [Nat.zero_add]; rfl
  | succ m ih =>
      rw [Nat.succ_add, after, after]
      cases next a with
      | none => rfl
      | some b => exact ih b

/-- The steps before a step of a walk. -/
theorem after_of_le (hle : m ≤ n) (h : after next n a = some c) :
    ∃ b, after next m a = some b ∧ after next (n - m) b = some c := by
  rw [← Nat.add_sub_cancel' hle, after_add] at h
  exact Option.bind_eq_some_iff.mp h

def Leads (next : α → Option α) (a b : α) : Prop := next a = some b

theorem reflTransGen_iff : Relation.ReflTransGen (Leads next) a b ↔ ∃ n, after next n a = some b := by
  constructor
  · intro h
    induction h with
    | refl => exact ⟨0, rfl⟩
    | tail _ hstep ih =>
        obtain ⟨n, hn⟩ := ih
        refine ⟨n + 1, ?_⟩
        rw [after_add, hn, Option.bind_some, after, hstep]
        rfl
  · rintro ⟨n, hn⟩
    induction n generalizing a with
    | zero => cases hn; exact .refl
    | succ n ih =>
        obtain ⟨c, hc, hcb⟩ := Option.bind_eq_some_iff.mp hn
        exact .head hc (ih hcb)

theorem transGen_iff : Relation.TransGen (Leads next) a b ↔ ∃ n, after next (n + 1) a = some b := by
  rw [Relation.TransGen.head'_iff]
  simp only [reflTransGen_iff, after, Option.bind_eq_some_iff]
  constructor
  · rintro ⟨c, hc, n, hn⟩
    exact ⟨n, c, hc, hn⟩
  · rintro ⟨n, c, hc, hn⟩
    exact ⟨c, hc, n, hn⟩

/-- The walk comes to a state that it comes to again. -/
def Circles (next : α → Option α) (a : α) : Prop :=
  ∃ b, Relation.ReflTransGen (Leads next) a b ∧ Relation.TransGen (Leads next) b b

/-- A walk that circles has no end. -/
theorem Circles.goes_on (h : Circles next a) (n : Nat) : after next n a ≠ none := by
  obtain ⟨b, hab, hbb⟩ := h
  obtain ⟨m, hm⟩ := reflTransGen_iff.mp hab
  obtain ⟨k, hk⟩ := transGen_iff.mp hbb
  have hround : ∀ j, after next ((k + 1) * j) b = some b := by
    intro j
    induction j with
    | zero => rfl
    | succ j ih => rw [Nat.mul_succ, after_add, ih, Option.bind_some, hk]
  have hlong : after next (m + (k + 1) * n) a = some b := by rw [after_add, hm, Option.bind_some, hround]
  have hle : n ≤ m + (k + 1) * n := by
    rw [Nat.succ_mul]
    omega
  obtain ⟨c, hc, -⟩ := after_of_le hle hlong
  rw [hc]
  exact nofun

/-- Among more steps than there are states to go on from, two begin at the same one. -/
theorem circles_of_long {live : List α} (hlive : ∀ b c, next b = some c → b ∈ live)
    (h : after next (live.length + 1) a ≠ none) : Circles next a := by
  classical
  obtain ⟨last, hlast⟩ := Option.ne_none_iff_exists'.mp h
  have hstate : ∀ k ∈ Finset.range (live.length + 1), (after next k a).getD a ∈ live.toFinset := by
    intro k hk
    obtain ⟨b, hb, hgo⟩ := after_of_le (Nat.le_of_lt (Finset.mem_range.mp hk)) hlast
    have hpos : live.length + 1 - k = live.length - k + 1 := by
      have := Finset.mem_range.mp hk
      omega
    rw [hpos, after] at hgo
    obtain ⟨c, hc, -⟩ := Option.bind_eq_some_iff.mp hgo
    rw [hb]
    exact List.mem_toFinset.mpr (hlive b c hc)
  have hcard : live.toFinset.card < (Finset.range (live.length + 1)).card := by
    rw [Finset.card_range]
    exact Nat.lt_succ_of_le (List.toFinset_card_le live)
  obtain ⟨i, hi, j, hj, hne, heq⟩ := Finset.exists_ne_map_eq_of_card_lt_of_maps_to hcard hstate
  wlog hlt : i < j generalizing i j
  · exact this j hj i hi hne.symm heq.symm (by omega)
  obtain ⟨c, hc, -⟩ := after_of_le (Nat.le_of_lt (Finset.mem_range.mp hj)) hlast
  obtain ⟨b, hb, hbc⟩ := after_of_le (Nat.le_of_lt hlt) hc
  rw [hb, hc, Option.getD_some, Option.getD_some] at heq
  subst heq
  refine ⟨b, reflTransGen_iff.mpr ⟨i, hb⟩, transGen_iff.mpr ⟨j - i - 1, ?_⟩⟩
  rw [Nat.sub_add_cancel (by omega)]
  exact hbc

/-- A walk ends if and only if it does not circle, and as soon as the states to go on from are used up. -/
theorem ends_iff {live : List α} (hlive : ∀ b c, next b = some c → b ∈ live) :
    (after next (live.length + 1) a = none ↔ ¬ Circles next a) ∧
      ((∃ n, after next n a = none) ↔ ¬ Circles next a) := by
  have hbound : ¬ Circles next a → after next (live.length + 1) a = none := by
    intro h
    by_contra hlong
    exact h (circles_of_long hlive hlong)
  refine ⟨⟨fun h hcircles => hcircles.goes_on _ h, hbound⟩, ?_, fun h => ⟨_, hbound h⟩⟩
  rintro ⟨n, hn⟩ hcircles
  exact hcircles.goes_on n hn

end Walks
