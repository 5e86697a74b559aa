import Dwhbll.Stack.Basic
import Mathlib.Data.List.Nodup

/-!
# The layout of the nodes

As long as every successful removal installs the successor that its node still has, the nodes are split
between the list from `_head`, the list from `_free` and the threads that hold one.
-/

namespace Dwhbll.Concurrency.Stack

open Linked

variable {P T : Type}

/-- The node that a thread holds: out of one list and not yet in the other. -/
def Pc.owned : Pc T → Option Nat
  | .pushConstruct _ n | .pushLoadHead _ n | .pushWriteNext _ n _ | .pushCasHead _ n _ | .popMove n
  | .popLoadFree _ n | .popWriteNext _ n _ | .popCasFree _ n _ => some n
  | _ => none

/-- What a thread has written to its node. -/
def Pc.Ok (next : Nat → Option Nat) (data : Nat → T) : Pc T → Prop
  | .pushLoadHead v n | .pushWriteNext v n _ => data n = v
  | .pushCasHead v n nx => data n = v ∧ next n = nx
  | .popCasFree _ n nx => next n = nx
  | _ => True

/-- The list from `_head` is `hs` and the list from `_free` is `fs`. -/
structure Layout (s : State P T) (hs fs : List Nat) : Prop where
  head_list : IsList s.next s.head hs
  free_list : IsList s.next s.free fs
  nodup : (hs ++ fs).Nodup
  lt : ∀ n ∈ hs ++ fs, n < s.nodes
  owned : ∀ p n, (s.pc p).owned = some n → n ∉ hs ++ fs ∧ n < s.nodes
  unique : ∀ p q n, (s.pc p).owned = some n → (s.pc q).owned = some n → p = q
  ok : ∀ p, (s.pc p).Ok s.next s.data

theorem init_isList {next : Nat → Option Nat} (hn : next = fun i => if i = 0 then none else some (i - 1))
    (n : Nat) : IsList next (if n = 0 then none else some (n - 1)) (List.range n).reverse := by
  induction n with
  | zero => rfl
  | succ n ih =>
      rw [List.range_succ, List.reverse_append]
      refine ⟨by simp, ?_⟩
      rw [hn] at ih ⊢
      exact ih

theorem Layout.init (n : Nat) (data : Nat → T) :
    Layout (State.init n data : State P T) [] (List.range n).reverse where
  head_list := rfl
  free_list := init_isList rfl n
  nodup := by simpa using List.nodup_range
  lt := by simp [State.init]
  owned := by intro p m h; cases h
  unique := by intro p q m h; cases h
  ok := by intro p; trivial

variable [DecidableEq P] {s s' : State P T} {hs fs hs' fs' : List Nat} {p : P} {x : Pc T} {node : Nat}

/-! ## One thread among the others -/

section Update

variable {f : P → Pc T}

theorem owned_update (hx : x.owned = (f p).owned) (q : P) : (Function.update f p x q).owned = (f q).owned := by
  rw [Function.update_apply]
  split
  · subst q; exact hx
  · rfl

theorem ok_update {next : Nat → Option Nat} {data : Nat → T} (hx : x.Ok next data)
    (h : ∀ q, (f q).Ok next data) (q : P) : (Function.update f p x q).Ok next data := by
  rw [Function.update_apply]
  split
  · exact hx
  · exact h q

/-- A node that nobody holds gets one holder. -/
theorem unique_update (hx : x.owned = some node) (hnode : ∀ q, (f q).owned ≠ some node)
    (h : ∀ q r n, (f q).owned = some n → (f r).owned = some n → q = r) :
    ∀ q r n, (Function.update f p x q).owned = some n → (Function.update f p x r).owned = some n → q = r := by
  intro q r n hq hr
  rw [Function.update_apply] at hq hr
  split at hq <;> split at hr
  · rw [‹q = p›, ‹r = p›]
  · cases hx.symm.trans hq
    exact absurd hr (hnode r)
  · cases hx.symm.trans hr
    exact absurd hq (hnode q)
  · exact h q r n hq hr

end Update

/-- What a thread has written to its node does not depend on the other nodes. -/
theorem Pc.Ok.congr {x : Pc T} {next next' : Nat → Option Nat} {data data' : Nat → T}
    (h : x.Ok next data) (hn : ∀ n, x.owned = some n → next' n = next n ∧ data' n = data n) :
    x.Ok next' data' := by
  cases x with
  | pushLoadHead v n | pushWriteNext v n nx =>
      obtain ⟨_, h2⟩ := hn n rfl
      exact h2.trans h
  | pushCasHead v n nx =>
      obtain ⟨h1, h2⟩ := hn n rfl
      exact ⟨h2.trans h.1, h1.trans h.2⟩
  | popCasFree r n nx =>
      obtain ⟨h1, _⟩ := hn n rfl
      exact h1.trans h
  | _ => trivial

/-! ## Steps -/

/-- A thread moves on and keeps the node it holds, if any. -/
theorem Layout.goto (h : Layout s hs fs) (ho : x.owned = (s.pc p).owned) (hx : x.Ok s.next s.data) :
    Layout (s.goto p x) hs fs := by
  have howned := owned_update ho
  exact { h with
    owned := fun q n hq => h.owned q n ((howned q).symm.trans hq)
    unique := fun q r n hq hr => h.unique q r n ((howned q).symm.trans hq) ((howned r).symm.trans hr)
    ok := ok_update hx h.ok }

/-- A thread takes a node off one of the lists. -/
theorem Layout.acquire (h : Layout s hs fs) (hperm : (hs ++ fs).Perm (node :: (hs' ++ fs')))
    (hx : x.owned = some node) (hok : x.Ok s.next s.data) (hpc : s'.pc = Function.update s.pc p x)
    (hnext : s'.next = s.next) (hdata : s'.data = s.data) (hnodes : s'.nodes = s.nodes)
    (hh : IsList s.next s'.head hs') (hf : IsList s.next s'.free fs') : Layout s' hs' fs' := by
  have hnd := hperm.nodup_iff.mp h.nodup
  rw [List.nodup_cons] at hnd
  have hsub : ∀ n ∈ hs' ++ fs', n ∈ hs ++ fs := fun n hn =>
    hperm.mem_iff.mpr (List.mem_cons_of_mem _ hn)
  have hnode : node ∈ hs ++ fs := hperm.mem_iff.mpr List.mem_cons_self
  refine ⟨hnext ▸ hh, hnext ▸ hf, hnd.2, ?_, ?_, ?_, ?_⟩
  · intro n hn
    rw [hnodes]
    exact h.lt n (hsub n hn)
  · intro q n hq
    rw [hpc, Function.update_apply] at hq
    rw [hnodes]
    split at hq
    · cases hx.symm.trans hq
      exact ⟨hnd.1, h.lt node hnode⟩
    · obtain ⟨h1, h2⟩ := h.owned q n hq
      exact ⟨fun hn => h1 (hsub n hn), h2⟩
  · rw [hpc]
    exact unique_update hx (fun q hq => (h.owned q node hq).1 hnode) h.unique
  · rw [hpc, hnext, hdata]
    exact ok_update hok h.ok

/-- A thread puts its node on one of the lists. -/
theorem Layout.release (h : Layout s hs fs) (hp : (s.pc p).owned = some node)
    (hperm : (hs' ++ fs').Perm (node :: (hs ++ fs))) (hx : x.owned = none) (hok : x.Ok s.next s.data)
    (hpc : s'.pc = Function.update s.pc p x) (hnext : s'.next = s.next) (hdata : s'.data = s.data)
    (hnodes : s'.nodes = s.nodes) (hh : IsList s.next s'.head hs') (hf : IsList s.next s'.free fs') :
    Layout s' hs' fs' := by
  obtain ⟨hni, hlt⟩ := h.owned p node hp
  have hcases : ∀ n ∈ hs' ++ fs', n = node ∨ n ∈ hs ++ fs := fun n hn =>
    List.mem_cons.mp (hperm.mem_iff.mp hn)
  have howned : ∀ q n, (s'.pc q).owned = some n → q ≠ p ∧ (s.pc q).owned = some n := by
    intro q n hq
    rw [hpc, Function.update_apply] at hq
    split at hq
    · cases hx.symm.trans hq
    · exact ⟨‹_›, hq⟩
  refine ⟨hnext ▸ hh, hnext ▸ hf, hperm.nodup_iff.mpr (List.nodup_cons.mpr ⟨hni, h.nodup⟩), ?_, ?_, ?_, ?_⟩
  · intro n hn
    rw [hnodes]
    rcases hcases n hn with rfl | hn
    · exact hlt
    · exact h.lt n hn
  · intro q n hq
    obtain ⟨hqp, hq⟩ := howned q n hq
    obtain ⟨h1, h2⟩ := h.owned q n hq
    rw [hnodes]
    refine ⟨fun hn => ?_, h2⟩
    rcases hcases n hn with rfl | hn
    · exact hqp (h.unique q p n hq hp)
    · exact h1 hn
  · intro q r n hq hr
    exact h.unique q r n (howned q n hq).2 (howned r n hr).2
  · rw [hpc, hnext, hdata]
    exact ok_update hok h.ok

/-- A thread allocates a node. -/
theorem Layout.alloc (h : Layout s hs fs) (hx : x.owned = some s.nodes) (hok : x.Ok s.next s.data) :
    Layout ({ s with nodes := s.nodes + 1 }.goto p x) hs fs :=
  { h with
    lt := fun n hn => Nat.lt_succ_of_lt (h.lt n hn)
    owned := by
      intro q n hq
      simp only [State.goto, Function.update_apply] at hq
      split at hq
      · cases hx.symm.trans hq
        exact ⟨fun hn => Nat.lt_irrefl _ (h.lt _ hn), Nat.lt_succ_self _⟩
      · obtain ⟨h1, h2⟩ := h.owned q n hq
        exact ⟨h1, Nat.lt_succ_of_lt h2⟩
    unique := unique_update hx (fun q hq => Nat.lt_irrefl _ (h.owned q _ hq).2) h.unique
    ok := ok_update hok h.ok }

/-- A thread writes the fields of the node it holds. -/
theorem Layout.write (h : Layout s hs fs) (hp : (s.pc p).owned = some node) (hx : x.owned = some node)
    (hpc : s'.pc = Function.update s.pc p x) (hhead : s'.head = s.head) (hfree : s'.free = s.free)
    (hnodes : s'.nodes = s.nodes)
    (hnext : s'.next = s.next ∨ ∃ m, s'.next = Function.update s.next node m)
    (hdata : ∀ n, n ≠ node → s'.data n = s.data n) (hok : x.Ok s'.next s'.data) : Layout s' hs fs := by
  obtain ⟨hni, _⟩ := h.owned p node hp
  have hlist : ∀ start xs, IsList s.next start xs → node ∉ xs → IsList s'.next start xs := by
    intro start xs hl hn
    rcases hnext with he | ⟨m, he⟩
    · rw [he]; exact hl
    · rw [he]; exact hl.update hn
  have hnext' : ∀ n, n ≠ node → s'.next n = s.next n := by
    intro n hn
    rcases hnext with he | ⟨m, he⟩
    · rw [he]
    · rw [he, Function.update_of_ne hn]
  have howned : ∀ q, (s'.pc q).owned = (s.pc q).owned := hpc ▸ owned_update (hx.trans hp.symm)
  rw [List.mem_append, not_or] at hni
  refine ⟨hhead ▸ hlist _ _ h.head_list hni.1, hfree ▸ hlist _ _ h.free_list hni.2, h.nodup, ?_, ?_, ?_, ?_⟩
  · rw [hnodes]; exact h.lt
  · intro q n hq
    rw [howned] at hq
    rw [hnodes]
    exact h.owned q n hq
  · intro q r n hq hr
    rw [howned] at hq hr
    exact h.unique q r n hq hr
  · intro q
    rw [hpc, Function.update_apply]
    split
    · exact hok
    · refine (h.ok q).congr fun n hn => ?_
      have hne : n ≠ node := by
        rintro rfl
        exact ‹¬ q = p› (h.unique q p n hn hp)
      exact ⟨hnext' n hne, hdata n hne⟩

end Dwhbll.Concurrency.Stack
