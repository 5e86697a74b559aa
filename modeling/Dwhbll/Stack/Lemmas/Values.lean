import Dwhbll.Stack.Lemmas.Layout
import Mathlib.Algebra.Order.Group.Multiset

/-!
# The values, and the runs that keep them

The values pushed are those popped, those in the hands of a pop and those on the list from `_head`.
-/

namespace Dwhbll.Concurrency.Stack

open Linked

variable {P T : Type}

/-- The value that a pop is going to return. -/
def Pc.hand (data : Nat → T) : Pc T → Option T
  | .popMove n => some (data n)
  | .popLoadFree r _ | .popWriteNext r _ _ | .popCasFree r _ _ => some r
  | _ => none

def State.hand (s : State P T) (p : P) : Option T := (s.pc p).hand s.data

/-- With `hs` the list from `_head`, the threads `ps` are the ones with a value in hand. -/
structure Values (s : State P T) (hs : List Nat) (ps : List P) : Prop where
  nodup : ps.Nodup
  mem : ∀ p, p ∈ ps ↔ (s.hand p).isSome
  sum : (s.pushed : Multiset T) = s.popped + ps.filterMap s.hand + hs.map s.data

theorem Values.init (n : Nat) (data : Nat → T) : Values (State.init n data : State P T) [] [] where
  nodup := List.nodup_nil
  mem := by intro p; simp [State.hand, State.init, Pc.hand]
  sum := rfl

variable {s s' : State P T} {hs : List Nat} {ps : List P} {p : P} {v : T} {node : Nat}

theorem Values.congr (h : Values s hs ps) (hh : s'.hand = s.hand) (hpu : s'.pushed = s.pushed)
    (hpo : s'.popped = s.popped) (hd : ∀ n ∈ hs, s'.data n = s.data n) : Values s' hs ps where
  nodup := h.nodup
  mem := by rw [hh]; exact h.mem
  sum := by rw [hh, hpu, hpo, List.map_congr_left hd]; exact h.sum

theorem coe_concat (xs : List T) (v : T) : ((xs ++ [v] : List T) : Multiset T) = v ::ₘ xs :=
  Multiset.coe_eq_coe.mpr (List.perm_append_singleton v xs)

/-- A push puts its node on the list. -/
theorem Values.push (h : Values s hs ps) (hh : s'.hand = s.hand) (hpu : s'.pushed = s.pushed ++ [v])
    (hpo : s'.popped = s.popped) (hd : s'.data = s.data) (hv : s.data node = v) :
    Values s' (node :: hs) ps where
  nodup := h.nodup
  mem := by rw [hh]; exact h.mem
  sum := by
    rw [hh, hpu, hpo, hd, coe_concat, h.sum, List.map_cons, hv, ← Multiset.cons_coe, Multiset.add_cons]

def Inv (s : State P T) : Prop := ∃ hs fs ps, Layout s hs fs ∧ Values s hs ps

theorem Inv.init (n : Nat) (data : Nat → T) : Inv (State.init n data : State P T) :=
  ⟨_, _, _, Layout.init n data, Values.init n data⟩

/-- A compare-exchange that takes a node off a list finds the successor it read before still in the
node. -/
def Pc.Current (s : State P T) : Pc T → Prop
  | .popCasHead node next => s.head = some node → s.next node = next
  | .pushCasFree _ node next => s.free = some node → s.next node = next
  | _ => True

def Current (s : State P T) : Act P T → Prop
  | .run p => (s.pc p).Current s
  | _ => True

instance : (x : Pc T) → Decidable (x.Current s)
  | .popCasHead node next => inferInstanceAs (Decidable (s.head = some node → s.next node = next))
  | .pushCasFree _ node next => inferInstanceAs (Decidable (s.free = some node → s.next node = next))
  | .idle | .pushLoadFree _ | .pushReadNext .. | .pushNew _ | .pushConstruct .. | .pushLoadHead ..
  | .pushWriteNext .. | .pushCasHead .. | .popLoadHead | .popReadNext _ | .popMove _ | .popLoadFree ..
  | .popWriteNext .. | .popCasFree .. => isTrue trivial

instance : (a : Act P T) → Decidable (Current s a)
  | .run p => inferInstanceAs (Decidable ((s.pc p).Current s))
  | .callPush .. | .callPop _ => isTrue trivial

variable [DecidableEq P]

/-- A pop takes the first node off the list. -/
theorem Values.take (h : Values s (node :: hs) ps) (hp : s.hand p = none)
    (hh : s'.hand = Function.update s.hand p (some (s.data node))) (hpu : s'.pushed = s.pushed)
    (hpo : s'.popped = s.popped) (hd : s'.data = s.data) : Values s' hs (p :: ps) := by
  have hni : p ∉ ps := by rw [h.mem, hp]; simp
  refine ⟨List.nodup_cons.mpr ⟨hni, h.nodup⟩, ?_, ?_⟩
  · intro q
    rw [hh, Function.update_apply]
    split
    · subst q; simp
    · simp [‹¬ q = p›, h.mem]
  · have hf : ps.filterMap s'.hand = ps.filterMap s.hand := by
      refine List.filterMap_congr fun q hq => ?_
      rw [hh, Function.update_of_ne]
      rintro rfl
      exact hni hq
    have hcons : (p :: ps).filterMap s'.hand = s.data node :: ps.filterMap s.hand := by
      rw [List.filterMap_cons_some (by rw [hh]; exact Function.update_self ..), hf]
    rw [hpu, hpo, hd, hcons, h.sum, List.map_cons, ← Multiset.cons_coe, ← Multiset.cons_coe,
      Multiset.add_cons, Multiset.add_cons, Multiset.cons_add]

/-- A pop returns its value. -/
theorem Values.give (h : Values s hs ps) (hp : s.hand p = some v)
    (hh : s'.hand = Function.update s.hand p none) (hpu : s'.pushed = s.pushed)
    (hpo : s'.popped = s.popped ++ [v]) (hd : s'.data = s.data) : Values s' hs (ps.erase p) := by
  have hmem : p ∈ ps := by rw [h.mem, hp]; rfl
  refine ⟨h.nodup.erase p, ?_, ?_⟩
  · intro q
    rw [h.nodup.mem_erase_iff, hh, Function.update_apply]
    split
    · subst q; simp
    · simp [‹¬ q = p›, h.mem]
  · have hf : (ps.erase p).filterMap s'.hand = (ps.erase p).filterMap s.hand := by
      refine List.filterMap_congr fun q hq => ?_
      rw [hh, Function.update_of_ne]
      exact (h.nodup.mem_erase_iff.mp hq).1
    have hperm : (ps.filterMap s.hand : Multiset T) = v ::ₘ ((ps.erase p).filterMap s.hand : List T) := by
      rw [Multiset.cons_coe, Multiset.coe_eq_coe, ← List.filterMap_cons_some (f := s.hand) hp]
      exact (List.perm_cons_erase hmem).filterMap _
    rw [hpu, hpo, hd, hf, h.sum, coe_concat, hperm, Multiset.add_cons, Multiset.cons_add,
      Multiset.cons_add, Multiset.cons_add]

/-! ## Steps -/

variable {x : Pc T}

theorem hand_goto (hpc : s'.pc = Function.update s.pc p x) (hd : s'.data = s.data) :
    s'.hand = Function.update s.hand p (x.hand s.data) := by
  funext q
  simp only [State.hand, hpc, hd, Function.update_apply]
  split <;> rfl

theorem hand_goto_same (hpc : s'.pc = Function.update s.pc p x) (hd : s'.data = s.data)
    (hx : x.hand s.data = s.hand p) : s'.hand = s.hand := by
  rw [hand_goto hpc hd, hx, Function.update_eq_self]

/-- A thread moves on and changes nothing. -/
theorem Inv.goto (h : Inv s) (ho : x.owned = (s.pc p).owned) (hh : x.hand s.data = s.hand p)
    (hx : x.Ok s.next s.data) : Inv (s.goto p x) := by
  obtain ⟨hs, fs, ps, hl, hv⟩ := h
  exact ⟨hs, fs, ps, hl.goto ho hx, hv.congr (hand_goto_same rfl rfl hh) rfl rfl fun _ _ => rfl⟩

theorem Inv.pushCasFree (h : Inv s) {next : Option Nat} (hp : s.pc p = .pushCasFree v node next)
    (hf : s.free = some node) (hc : s.next node = next) :
    Inv ({ s with free := next }.goto p (.pushConstruct v node)) := by
  obtain ⟨hs, fs, ps, hl, hv⟩ := h
  have hfl := hl.free_list
  rw [hf] at hfl
  obtain ⟨fs', rfl, htail⟩ := hfl.some
  refine ⟨hs, fs', ps, ?_, ?_⟩
  · exact hl.acquire (p := p) (x := .pushConstruct v node) List.perm_middle rfl trivial rfl rfl rfl rfl
      hl.head_list (hc ▸ htail)
  · refine hv.congr (hand_goto_same rfl rfl ?_) rfl rfl fun _ _ => rfl
    rw [State.hand, hp]; rfl

theorem Inv.pushNew (h : Inv s) (hp : s.pc p = .pushNew v) :
    Inv ({ s with nodes := s.nodes + 1 }.goto p (.pushConstruct v s.nodes)) := by
  obtain ⟨hs, fs, ps, hl, hv⟩ := h
  refine ⟨hs, fs, ps, hl.alloc rfl trivial, hv.congr (hand_goto_same rfl rfl ?_) rfl rfl fun _ _ => rfl⟩
  rw [State.hand, hp]; rfl

theorem Inv.pushConstruct (h : Inv s) (hp : s.pc p = .pushConstruct v node) :
    Inv ({ s with data := Function.update s.data node v }.goto p (.pushLoadHead v node)) := by
  obtain ⟨hs, fs, ps, hl, hv⟩ := h
  have ho : (s.pc p).owned = some node := by rw [hp]; rfl
  have hni := (hl.owned p node ho).1
  have hdata : ∀ n, n ≠ node → Function.update s.data node v n = s.data n := fun n hn =>
    Function.update_of_ne hn ..
  refine ⟨hs, fs, ps, ?_, ?_⟩
  · exact hl.write ho rfl rfl rfl rfl rfl (.inl rfl) hdata (Function.update_self ..)
  · refine hv.congr ?_ rfl rfl fun n hn => hdata n ?_
    · -- A value in hand that is still in its node is in another thread's node.
      funext q
      simp only [State.hand, State.goto, Function.update_apply]
      split
      · subst q; rw [hp]; rfl
      · cases hq : s.pc q with
        | popMove m =>
            have hne : m ≠ node := by
              rintro rfl
              exact ‹¬ q = p› (hl.unique q p m (by rw [hq]; rfl) ho)
            simp only [Pc.hand]
            rw [hdata m hne]
        | _ => rfl
    · rintro rfl
      exact hni (List.mem_append_left _ hn)

theorem Inv.writeNext (h : Inv s) {next : Option Nat} (ho : (s.pc p).owned = some node)
    (hx : x.owned = some node) (hh : x.hand s.data = s.hand p)
    (hok : x.Ok (Function.update s.next node next) s.data) :
    Inv ({ s with next := Function.update s.next node next }.goto p x) := by
  obtain ⟨hs, fs, ps, hl, hv⟩ := h
  exact ⟨hs, fs, ps, hl.write ho hx rfl rfl rfl rfl (.inr ⟨next, rfl⟩) (fun _ _ => rfl) hok,
    hv.congr (hand_goto_same rfl rfl hh) rfl rfl fun _ _ => rfl⟩

theorem Inv.pushCasHead (h : Inv s) {next : Option Nat} (hp : s.pc p = .pushCasHead v node next)
    (hc : s.head = next) :
    Inv ({ s with head := some node, pushed := s.pushed ++ [v] }.goto p .idle) := by
  obtain ⟨hs, fs, ps, hl, hv⟩ := h
  have hok := hl.ok p
  rw [hp] at hok
  have hlist : IsList s.next (some node) (node :: hs) := ⟨rfl, by rw [hok.2, ← hc]; exact hl.head_list⟩
  refine ⟨node :: hs, fs, ps, ?_, ?_⟩
  · exact hl.release (p := p) (x := .idle) (by rw [hp]; rfl) (List.Perm.refl _) rfl trivial rfl rfl rfl rfl
      hlist hl.free_list
  · refine hv.push (hand_goto_same rfl rfl ?_) rfl rfl rfl hok.1
    rw [State.hand, hp]; rfl

theorem Inv.popCasHead (h : Inv s) {next : Option Nat} (hp : s.pc p = .popCasHead node next)
    (hf : s.head = some node) (hc : s.next node = next) :
    Inv ({ s with head := next }.goto p (.popMove node)) := by
  obtain ⟨hs, fs, ps, hl, hv⟩ := h
  have hhl := hl.head_list
  rw [hf] at hhl
  obtain ⟨hs', rfl, htail⟩ := hhl.some
  refine ⟨hs', fs, p :: ps, ?_, ?_⟩
  · exact hl.acquire (p := p) (x := .popMove node) (List.Perm.refl _) rfl trivial rfl rfl rfl rfl (hc ▸ htail)
      hl.free_list
  · exact hv.take (by rw [State.hand, hp]; rfl) (hand_goto (s := s) (p := p) (x := .popMove node) rfl rfl)
      rfl rfl rfl

theorem Inv.popCasFree (h : Inv s) {next : Option Nat} (hp : s.pc p = .popCasFree v node next)
    (hc : s.free = next) :
    Inv ({ s with free := some node, popped := s.popped ++ [v] }.goto p .idle) := by
  obtain ⟨hs, fs, ps, hl, hv⟩ := h
  have hok := hl.ok p
  rw [hp] at hok
  have hlist : IsList s.next (some node) (node :: fs) :=
    ⟨rfl, by rw [show s.next node = next from hok, ← hc]; exact hl.free_list⟩
  refine ⟨hs, node :: fs, ps.erase p, ?_, ?_⟩
  · exact hl.release (p := p) (x := .idle) (by rw [hp]; rfl) List.perm_middle rfl trivial rfl rfl rfl rfl
      hl.head_list hlist
  · exact hv.give (by rw [State.hand, hp]; rfl) (hand_goto (s := s) (p := p) (x := .idle) rfl rfl) rfl rfl rfl

theorem Inv.runStep {e : Option (Event T)} (h : Inv s) (hc : Current s (.run p))
    (hst : Stack.runStep s p = some (s', e)) : Inv s' := by
  have hok : (s.pc p).Ok s.next s.data := by obtain ⟨_, _, _, hl, _⟩ := h; exact hl.ok p
  have hgoto : ∀ x : Pc T, x.owned = (s.pc p).owned → x.hand s.data = s.hand p →
      x.Ok s.next s.data → Inv (s.goto p x) := fun x => h.goto
  simp only [State.hand] at hgoto
  simp only [Stack.runStep] at hst
  have hc : (s.pc p).Current s := hc
  cases hp : s.pc p with
  | idle => simp [hp] at hst
  | pushLoadFree v =>
      rw [hp] at hst hgoto
      simp only at hst
      split at hst <;> cases hst <;> exact hgoto _ rfl rfl trivial
  | pushReadNext v node =>
      rw [hp] at hst hgoto
      cases hst
      exact hgoto _ rfl rfl trivial
  | pushCasFree v node next =>
      rw [hp] at hst hgoto hc
      simp only at hst
      split at hst
      · cases hst; exact h.pushCasFree hp ‹_› (hc ‹_›)
      · cases hst; exact hgoto _ rfl rfl trivial
  | pushNew v =>
      rw [hp] at hst
      cases hst
      exact h.pushNew hp
  | pushConstruct v node =>
      rw [hp] at hst
      cases hst
      exact h.pushConstruct hp
  | pushLoadHead v node =>
      rw [hp] at hst hgoto hok
      cases hst
      exact hgoto _ rfl rfl hok
  | pushWriteNext v node next =>
      rw [hp] at hst hok
      cases hst
      exact h.writeNext (by rw [hp]; rfl) rfl (by rw [State.hand, hp]; rfl)
        ⟨hok, Function.update_self ..⟩
  | pushCasHead v node next =>
      rw [hp] at hst hgoto hok
      simp only at hst
      split at hst
      · cases hst; exact h.pushCasHead hp ‹_›
      · cases hst; exact hgoto _ rfl rfl hok.1
  | popLoadHead =>
      rw [hp] at hst hgoto
      simp only at hst
      split at hst <;> cases hst <;> exact hgoto _ rfl rfl trivial
  | popReadNext node =>
      rw [hp] at hst hgoto
      cases hst
      exact hgoto _ rfl rfl trivial
  | popCasHead node next =>
      rw [hp] at hst hgoto hc
      simp only at hst
      split at hst
      · cases hst; exact h.popCasHead hp ‹_› (hc ‹_›)
      · cases hst; exact hgoto _ rfl rfl trivial
  | popMove node =>
      rw [hp] at hst hgoto
      cases hst
      exact hgoto _ rfl rfl trivial
  | popLoadFree result node =>
      rw [hp] at hst hgoto
      cases hst
      exact hgoto _ rfl rfl trivial
  | popWriteNext result node next =>
      rw [hp] at hst
      cases hst
      exact h.writeNext (by rw [hp]; rfl) rfl (by rw [State.hand, hp]; rfl) (Function.update_self ..)
  | popCasFree result node next =>
      rw [hp] at hst hgoto
      simp only at hst
      split at hst
      · cases hst; exact h.popCasFree hp ‹_›
      · cases hst; exact hgoto _ rfl rfl trivial

theorem Inv.step {a : Act P T} {e : Option (Event T)} (h : Inv s) (hc : Current s a)
    (hst : Stack.step s a = some (s', e)) : Inv s' := by
  cases a with
  | run p => exact h.runStep hc hst
  | callPush p v =>
      cases hp : s.pc p with
      | idle =>
          simp only [Stack.step, hp, if_true] at hst
          cases hst
          exact h.goto (by rw [hp]; rfl) (by rw [State.hand, hp]; rfl) trivial
      | _ => simp [Stack.step, hp] at hst
  | callPop p =>
      cases hp : s.pc p with
      | idle =>
          simp only [Stack.step, hp, if_true] at hst
          cases hst
          exact h.goto (by rw [hp]; rfl) (by rw [State.hand, hp]; rfl) trivial
      | _ => simp [Stack.step, hp] at hst

/-- The invariant holds in every run in which no removal installs an outdated successor. -/
theorem Inv.reachable {n : Nat} (h : ((system n).restrict Current).Reachable s) : Inv s := by
  refine Transition.System.Invariant.reachable ⟨?_, ?_⟩ h
  · rintro s ⟨data, rfl⟩
    exact Inv.init n data
  · rintro s a s' hi ⟨hc, e, hst⟩
    exact hi.step hc hst

end Dwhbll.Concurrency.Stack
