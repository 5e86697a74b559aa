import Dwhbll.Stack.Lemmas.Values

/-!
# Theorems about the recycling stack
-/

namespace Dwhbll.Concurrency.Stack

open Linked

variable {P T : Type} {s : State P T} {n : Nat}

/-- No operation is in progress. -/
def State.Quiet (s : State P T) : Prop := ∀ p, s.pc p = .idle

/-- The values pushed are those popped and those on the list from `_head`, and no node is on that list
and on the one from `_free`. -/
def Balanced (s : State P T) : Prop :=
  ∃ hs fs, IsList s.next s.head hs ∧ IsList s.next s.free fs ∧
    (s.pushed : Multiset T) = s.popped + hs.map s.data ∧ ∀ m ∈ hs, m ∉ fs

theorem Inv.balanced (h : Inv s) (hq : s.Quiet) : Balanced s := by
  obtain ⟨hs, fs, ps, hl, hv⟩ := h
  -- Nobody is between taking a node off the list and returning its value.
  have hps : ps = [] := by
    refine List.eq_nil_iff_forall_not_mem.mpr fun p hp => ?_
    rw [hv.mem, State.hand, hq p] at hp
    cases hp
  subst hps
  refine ⟨hs, fs, hl.head_list, hl.free_list, ?_, ?_⟩
  · simpa using hv.sum
  · intro m hm hf
    exact List.disjoint_of_nodup_append hl.nodup hm hf

variable [DecidableEq P]

/-- In every run in which no removal installs an outdated successor, every state with no operation in
progress is balanced. -/
theorem reachable_balanced (h : ((system n).restrict Current).Reachable s) (hq : s.Quiet) : Balanced s :=
  (Inv.reachable h).balanced hq

def runs (p : Fin 3) (n : Nat) : List (Act (Fin 3) Nat) := List.replicate n (.run p)

/-- Two pushes and a pop, one after the other. -/
theorem reachable_balanced_three :
    ∃ s : State (Fin 3) Nat, ((system 0).restrict Current).Reachable s ∧ s.Quiet ∧ s.pushed = [10, 20] ∧
      s.popped = [20] ∧ s.head = some 0 ∧ Balanced s := by
  have hr := Transition.System.Reachable.exec_restrict (f := step) (C := Current)
    (.init ⟨fun _ => 0, rfl⟩ : ((system 0).restrict Current).Reachable (State.init 0 fun _ => 0))
    (.callPush 1 10 :: runs 1 6 ++ .callPush 1 20 :: runs 1 6 ++ .callPop 2 :: runs 2 7) rfl
  exact ⟨_, hr, fun | 0 | 1 | 2 => rfl, rfl, rfl, rfl, reachable_balanced hr fun | 0 | 1 | 2 => rfl⟩

/-- Thread 0 stops in a pop between its read of `next` and its exchange. Threads 1 and 2 pop both nodes,
and thread 1 pushes the first of them again. The exchange of thread 0 succeeds and puts the other node
back on the stack, though it is on the free list. -/
def recycled : List (Act (Fin 3) Nat) :=
  .callPush 1 10 :: runs 1 6 ++ .callPush 1 20 :: runs 1 6 ++ .callPop 0 :: runs 0 2 ++
  .callPop 1 :: runs 1 3 ++ .callPop 2 :: runs 2 7 ++ runs 1 4 ++ .callPush 1 30 :: runs 1 7 ++ runs 0 5

theorem recycled_unbalanced :
    ∃ s : State (Fin 3) Nat, (system 0).Reachable s ∧ s.Quiet ∧ s.pushed = [10, 20, 30] ∧
      s.popped = [10, 20, 30] ∧ s.head = some 0 ∧ s.free = some 1 ∧ s.next 1 = some 0 ∧ ¬ Balanced s := by
  have hr := Transition.System.Reachable.exec (f := step)
    (.init ⟨fun _ => 0, rfl⟩ : (system 0).Reachable (State.init 0 fun _ => 0)) recycled rfl
  refine ⟨_, hr, fun | 0 | 1 | 2 => rfl, rfl, rfl, rfl, rfl, rfl, ?_⟩
  rintro ⟨hs, fs, hh, -, hsum, -⟩
  obtain rfl := hh.unique (show IsList _ _ [0] from ⟨rfl, rfl⟩)
  have := congrArg Multiset.card hsum
  cases this

end Dwhbll.Concurrency.Stack
