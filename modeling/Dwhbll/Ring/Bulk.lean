import Dwhbll.Ring.Lemmas.Flat
import Dwhbll.Ring.Theorems

/-!
# The bulk operations of the ring

`clear`, `assign` and `used` set the ends and the size, `make_cont` and `resize(target)` move the storage.
Only `resize(target)` clears `needsResize`, and only `used` sets it; none of them takes a `tail` that has come
to the capacity back to 0.
-/

open Memory Circular

namespace Dwhbll.Collections.Ring

variable {T : Type}

def clear (r : Ring T) : Ring T := { r with head := 0, tail := 0, sz := 0 }

theorem clear_marked {r : Ring T} (h : 0 < r.capacity) : r.clear.Marked := by
  have hne : ¬ 0 = r.capacity := by omega
  refine ⟨⟨.of_wrap h (Nat.zero_le _) ?_ ?_, rfl⟩, fun h0 => absurd h0 hne⟩
  · exact (if_pos h).symm
  · exact decide_eq_true_iff

/-- `assign(start, end)` with the values of the range. -/
def assign (xs : List T) (r : Ring T) : Ring T :=
  { r with head := 0, tail := xs.length, sz := xs.length, data := xs }

/-- The indices and the flag agree, if there is a storage. -/
def Consistent (r : Ring T) : Prop := r.capacity ≠ 0 → r.WF

theorem clear_consistent_iff {r : Ring T} (h : r.Consistent) :
    r.clear.Consistent ↔ r.capacity = 0 ∨ r.sz ≠ r.capacity := by
  by_cases hc : r.capacity = 0
  · exact ⟨fun _ => .inl hc, fun _ hne => absurd hc hne⟩
  · have hwf := h hc
    constructor
    · intro hcl
      refine .inr fun hfull => ?_
      -- The mark of a full ring stays on the empty one.
      have hsz : 0 = r.capacity := (hcl hc).needsResize_iff.mp (hwf.needsResize_iff.mpr hfull)
      omega
    · rintro (hz | hne) _
      · exact absurd hz hc
      · refine .of_wrap (Nat.pos_of_ne_zero hc) (Nat.zero_le _) ?_ ?_
        · exact (if_pos (Nat.pos_of_ne_zero hc)).symm
        · exact ⟨fun hn => absurd (hwf.needsResize_iff.mp hn) hne, fun he => absurd he.symm hc⟩

theorem assign_consistent_iff {r : Ring T} {xs : List T} : (r.assign xs).Consistent ↔ xs = [] := by
  constructor
  · intro has
    cases xs with
    | nil => rfl
    | cons x xs =>
        have hwf := has (by simp [assign, capacity])
        exact absurd hwf.tail_lt (Nat.lt_irrefl _)
  · rintro rfl hne
    exact absurd rfl hne

/-- What holds along the runs below. A ring may be without a storage; then it starts at 0, and is marked as full
only when it is empty. -/
structure BulkInv (r : Ring T) : Prop where
  consistent : r.Consistent
  head_eq : r.capacity = 0 → r.head = 0
  sz_eq : r.capacity = 0 → r.needsResize = true → r.sz = 0

theorem BulkInv.of_wf {r : Ring T} (h : r.WF) : r.BulkInv := by
  have h1 := h.head_lt
  exact ⟨fun _ => h, fun hz => by omega, fun hz => by omega⟩

theorem BulkInv.of_capacity_zero {r : Ring T} (hc : r.capacity = 0) (hh : r.head = 0)
    (hs : r.needsResize = true → r.sz = 0) : r.BulkInv :=
  ⟨fun hne => absurd hc hne, fun _ => hh, fun _ => hs⟩

variable [Inhabited T]

theorem new_bulkInv (n : Nat) : (new n : Ring T).BulkInv := by
  cases n with
  | zero => exact .of_capacity_zero rfl rfl fun _ => rfl
  | succ n => exact .of_wf (new_wf (by omega))

def used (mem : Nat → T) (count : Nat) (r : Ring T) : Ring T :=
  let r := if count > r.capacity then r.resizeTo mem count else r
  let r := { r with tail := count, sz := count }
  if r.sz = r.capacity then { r with needsResize := true } else r

@[simp] theorem resizeTo_capacity (mem : Nat → T) (target : Nat) (r : Ring T) :
    (r.resizeTo mem target).capacity = target := by
  simp [resizeTo, capacity]

theorem resizeTo_consistent_iff (mem : Nat → T) {r : Ring T} {target : Nat} :
    (r.resizeTo mem target).Consistent ↔ target = 0 ∨ r.sz < target := by
  rw [Consistent, resizeTo_capacity]
  constructor
  · intro hrs
    by_cases hz : target = 0
    · exact .inl hz
    · have htail := (hrs hz).tail_lt
      rw [resizeTo_capacity] at htail
      exact .inr htail
  · rintro (hz | hlt) hne
    · exact absurd hz hne
    · refine .of_wrap ?_ ?_ ?_ ?_
      · rw [resizeTo_capacity]
        exact Nat.pos_of_ne_zero hne
      · rw [resizeTo_capacity]
        exact Nat.le_of_lt hlt
      · rw [resizeTo_capacity]
        simp only [resizeTo, Nat.zero_add, hlt, if_true]
      · rw [resizeTo_capacity]
        exact ⟨fun hn => absurd hn Bool.false_ne_true, fun he => absurd (show r.sz = target from he) (Nat.ne_of_lt hlt)⟩

/-- A ring that does not start at its first cell is put in order there, up to `tail = sz`. -/
theorem makeCont_consistent_iff (mem : Nat → T) {r : Ring T} (h : r.BulkInv) :
    (r.makeCont mem).Consistent ↔ r.capacity = 0 ∨ r.head = 0 ∨ r.sz ≠ r.capacity := by
  by_cases hh : r.head = 0
  · have hcont : r.makeCont mem = r := if_pos (by simp [isCont, hh])
    rw [hcont]
    exact ⟨fun _ => .inr (.inl hh), fun _ => h.consistent⟩
  · have hc : r.capacity ≠ 0 := fun hz => hh (h.head_eq hz)
    have hwf := h.consistent hc
    have h2 := hwf.sz_le
    have hmoved : r.makeCont mem =
        { r with
          head := 0, tail := r.sz
          data := memcpys mem r.data (List.replicate r.capacity default) r.inOrder } :=
      if_neg (by simp [isCont, hh])
    have hcap := makeCont_capacity mem r
    constructor
    · intro hmc
      have htail := (hmc (by rw [hcap]; exact hc)).tail_lt
      rw [hcap, hmoved] at htail
      exact .inr (.inr (Nat.ne_of_lt htail))
    · rintro (hz | hz | hne) _
      · exact absurd hz hc
      · exact absurd hz hh
      · refine .of_wrap ?_ ?_ ?_ ?_
        · rw [hcap, hmoved]
          exact Nat.pos_of_ne_zero hc
        · rw [hcap, hmoved]
          exact h2
        · rw [hcap, hmoved]
          simp only [Nat.zero_add]
          exact (if_pos (by omega)).symm
        · rw [hcap, hmoved]
          exact hwf.needsResize_iff

theorem used_eq_of_le (mem : Nat → T) {r : Ring T} {count : Nat} (hle : count ≤ r.capacity) :
    r.used mem count =
      { r with
        tail := count, sz := count
        needsResize := if count = r.capacity then true else r.needsResize } := by
  simp only [used, if_neg (Nat.not_lt.mpr hle)]
  show (if count = r.capacity then _ else _) = _
  split <;> rfl

theorem used_capacity (mem : Nat → T) (r : Ring T) (count : Nat) :
    (r.used mem count).capacity = max r.capacity count := by
  rcases Nat.lt_or_ge r.capacity count with hgt | hle
  · have hdata : (r.used mem count).data = (r.resizeTo mem count).data := by
      simp only [used, if_pos hgt]
      split <;> rfl
    rw [Nat.max_eq_right (Nat.le_of_lt hgt), capacity, hdata]
    exact resizeTo_capacity mem count r
  · rw [Nat.max_eq_left hle, used_eq_of_le mem hle]
    rfl

theorem used_consistent_iff (mem : Nat → T) {r : Ring T} {count : Nat} (h : r.BulkInv) :
    (r.used mem count).Consistent ↔
      r.capacity = 0 ∧ count = 0 ∨ r.head = 0 ∧ count < r.capacity ∧ r.sz ≠ r.capacity := by
  rcases Nat.lt_or_ge r.capacity count with hgt | hle
  · -- The ring has been resized to `count` cells and ends behind them.
    have hcap : (r.used mem count).capacity = count := by
      rw [used_capacity, Nat.max_eq_right (Nat.le_of_lt hgt)]
    have htail : (r.used mem count).tail = count := by
      simp only [used, if_pos hgt]
      split <;> rfl
    constructor
    · intro hu
      have hlt := (hu (by omega)).tail_lt
      omega
    · rintro (hz | hz) <;> omega
  · have hcap : (r.used mem count).capacity = r.capacity := by
      rw [used_capacity, Nat.max_eq_left hle]
    by_cases hc : r.capacity = 0
    · exact ⟨fun _ => .inl ⟨hc, by omega⟩, fun _ hne => absurd (hcap.trans hc) hne⟩
    · have hwf := h.consistent hc
      have h1 := hwf.head_lt
      constructor
      · intro hu
        have hu := hu (by rw [hcap]; exact hc)
        have htail := hu.tail_wrap
        have hlt := hu.tail_lt
        have hneeds := hu.needsResize_iff
        rw [hcap] at htail hlt hneeds
        rw [used_eq_of_le mem hle] at htail hlt hneeds
        simp only at htail hlt hneeds
        refine .inr ⟨by split at htail <;> omega, hlt, fun hfull => ?_⟩
        have := hneeds.mp (by rw [if_neg (by omega)]; exact hwf.needsResize_iff.mpr hfull)
        omega
      · rintro (hz | ⟨hh, hlt, hne⟩) _
        · exact absurd hz.1 hc
        · refine .of_wrap ?_ ?_ ?_ ?_
          · rw [hcap, used_eq_of_le mem hle]
            exact h1
          · rw [hcap, used_eq_of_le mem hle]
            exact hle
          · rw [hcap, used_eq_of_le mem hle]
            simp only [hh, Nat.zero_add, if_pos hlt]
          · rw [hcap, used_eq_of_le mem hle]
            simp only [if_neg (Nat.ne_of_lt hlt)]
            exact ⟨fun hn => absurd (hwf.needsResize_iff.mp hn) hne, fun he => absurd he (Nat.ne_of_lt hlt)⟩

/-! ## Runs with bulk operations -/

inductive Bulk (T : Type) where
  | clear
  | assign (xs : List T)
  | used (count : Nat)
  | makeCont
  | resizeTo (target : Nat)
  deriving DecidableEq, Repr

def Bulk.run (mem : Nat → T) (r : Ring T) : Bulk T → Ring T
  | .clear => r.clear
  | .assign xs => r.assign xs
  | .used count => r.used mem count
  | .makeCont => r.makeCont mem
  | .resizeTo target => r.resizeTo mem target

/-- When the operation leaves a ring whose indices and flag agree, or one without a storage. -/
def Bulk.Right (r : Ring T) : Bulk T → Prop
  | .clear => r.capacity = 0 ∨ r.sz ≠ r.capacity
  | .assign xs => xs = []
  | .used count => r.capacity = 0 ∧ count = 0 ∨ r.head = 0 ∧ count < r.capacity ∧ r.sz ≠ r.capacity
  | .makeCont => r.capacity = 0 ∨ r.head = 0 ∨ r.sz ≠ r.capacity
  | .resizeTo target => target = 0 ∨ r.sz < target

/-- A call of one of the operations. -/
inductive Call (T : Type) where
  | op (o : Op T)
  | bulk (b : Bulk T)
  deriving DecidableEq, Repr

def Call.run (mem : Nat → T) (r : Ring T) : Call T → Ring T
  | .op o => (o.run mem r).2
  | .bulk b => b.run mem r

/-- A bulk operation is right, and a push is not one on a ring without a storage that it does not make grow. -/
def Call.Right (r : Ring T) : Call T → Prop
  | .op o => o.isPop = true ∨ r.capacity ≠ 0 ∨ r.needsResize = true
  | .bulk b => b.Right r

/-- The runs of all calls on `Ring(n)`. -/
def bulkSystem (n : Nat) : Transition.System (Ring T) ((Nat → T) × Call T) :=
  .ofFun (Ring.new n) fun r c => c.2.run c.1 r

/-- The cells that the pushes write to are cells of the storage. -/
def PushesInside (r : Ring T) : Prop :=
  ∀ mem, (r.roomy mem).tail < (r.roomy mem).capacity ∧ (r.roomy mem).decHead.head < (r.roomy mem).capacity

theorem Bulk.run_consistent_iff (mem : Nat → T) {r : Ring T} (h : r.BulkInv) (b : Bulk T) :
    (b.run mem r).Consistent ↔ b.Right r := by
  cases b with
  | clear => exact clear_consistent_iff h.consistent
  | assign xs => exact assign_consistent_iff
  | used count => exact used_consistent_iff mem h
  | makeCont => exact makeCont_consistent_iff mem h
  | resizeTo target => exact resizeTo_consistent_iff mem

/-- A ring that is without a storage after a bulk operation starts at 0, and is marked as full only when empty. -/
theorem Bulk.run_capacity_zero (mem : Nat → T) {r : Ring T} (h : r.BulkInv) (b : Bulk T)
    (hc : (b.run mem r).capacity = 0) :
    (b.run mem r).head = 0 ∧ ((b.run mem r).needsResize = true → (b.run mem r).sz = 0) := by
  cases b with
  | clear => exact ⟨rfl, fun _ => rfl⟩
  | assign xs => exact ⟨rfl, fun _ => hc⟩
  | resizeTo target => exact ⟨rfl, nofun⟩
  | makeCont =>
      simp only [Bulk.run, makeCont_capacity] at *
      have hh := h.head_eq hc
      have hcont : r.makeCont mem = r := if_pos (by simp [isCont, hh])
      rw [hcont]
      exact ⟨hh, h.sz_eq hc⟩
  | used count =>
      simp only [Bulk.run, used_capacity] at *
      have hz : r.capacity = 0 ∧ count = 0 := by omega
      rw [used_eq_of_le mem (by omega)]
      exact ⟨h.head_eq hz.1, fun _ => hz.2⟩

theorem roomy_of_marked (mem : Nat → T) {r : Ring T} (h : r.BulkInv) (hc : r.capacity = 0)
    (hn : r.needsResize = true) : (r.roomy mem).WF ∧ (r.roomy mem).sz < (r.roomy mem).capacity := by
  have hz := h.sz_eq hc hn
  have hcap : (r.resize mem).capacity = 2 := by rw [resize_capacity, if_pos hc]
  have hroomy : r.roomy mem = r.resize mem := if_pos hn
  have hsz : (r.resize mem).sz = 0 := hz
  rw [hroomy, hcap, hsz]
  refine ⟨.of_wrap ?_ ?_ ?_ ?_, by omega⟩
  · rw [hcap]
    exact Nat.zero_lt_two
  · rw [hcap, hsz]
    exact Nat.zero_le _
  · rw [hcap, hsz]
    exact hz
  · rw [hcap, hsz]
    exact ⟨nofun, nofun⟩

theorem Op.run_bulkInv (mem : Nat → T) {r : Ring T} (h : r.BulkInv) {o : Op T}
    (ho : o.isPop = true ∨ r.capacity ≠ 0 ∨ r.needsResize = true) : (o.run mem r).2.BulkInv := by
  by_cases hc : r.capacity = 0
  · cases o with
    | pushBack x | moveBack x =>
        have hn : r.needsResize = true := by simpa [Op.isPop, hc] using ho
        obtain ⟨hwf, hlt⟩ := roomy_of_marked mem h hc hn
        exact .of_wf (pushBack_of_roomy mem x hwf hlt).1
    | pushFront x =>
        have hn : r.needsResize = true := by simpa [Op.isPop, hc] using ho
        obtain ⟨hwf, hlt⟩ := roomy_of_marked mem h hc hn
        exact .of_wf (pushFront_of_roomy mem x hwf hlt).1
    | popBack =>
        show r.popBack.2.BulkInv
        unfold Ring.popBack
        split
        · exact h
        · exact .of_capacity_zero hc (h.head_eq hc) nofun
    | popFront =>
        show r.popFront.2.BulkInv
        unfold Ring.popFront
        split
        · exact h
        · refine .of_capacity_zero hc (if_pos ?_) nofun
          rw [hc]
          exact Nat.zero_le _
  · exact .of_wf (o.run_wf mem (h.consistent hc))

theorem Call.run_bulkInv (mem : Nat → T) {r : Ring T} (h : r.BulkInv) {c : Call T} (hr : c.Right r) :
    (c.run mem r).BulkInv := by
  cases c with
  | op o => exact o.run_bulkInv mem h hr
  | bulk b =>
      exact ⟨(b.run_consistent_iff mem h).mpr hr, fun hc => (b.run_capacity_zero mem h hc).1,
        fun hc => (b.run_capacity_zero mem h hc).2⟩

theorem bulkInv_of_reachable {n : Nat} {r : Ring T}
    (hr : ((bulkSystem n).restrict fun r c => c.2.Right r).Reachable r) : r.BulkInv := by
  have hinv : ((bulkSystem n).restrict fun (r : Ring T) c => c.2.Right r).Invariant BulkInv := by
    constructor
    · rintro r rfl
      exact new_bulkInv n
    · rintro r c r' h ⟨hright, rfl⟩
      exact Call.run_bulkInv c.1 h hright
  exact hinv.reachable hr

/-- With a storage the pushes are inside; without one they are if the ring is marked as full, so that it grows first. -/
theorem BulkInv.pushesInside_iff {r : Ring T} (h : r.BulkInv) :
    r.PushesInside ↔ r.capacity ≠ 0 ∨ r.needsResize = true := by
  have hinside : (∀ mem, (r.roomy mem).WF ∧ (r.roomy mem).sz < (r.roomy mem).capacity) → r.PushesInside := by
    intro hroomy mem
    obtain ⟨hwf, hlt⟩ := hroomy mem
    exact ⟨hwf.tail_lt, (decHead_eq hwf hlt).1⟩
  by_cases hc : r.capacity = 0
  · cases hn : r.needsResize with
    | true => exact iff_of_true (hinside fun mem => roomy_of_marked mem h hc hn) (.inr rfl)
    | false =>
        refine iff_of_false (fun hpush => ?_) (by simp [hc])
        have htail := (hpush fun _ => default).1
        rw [roomy_of_not_needsResize _ hn, hc] at htail
        exact absurd htail (Nat.not_lt_zero _)
  · have hwf := h.consistent hc
    exact iff_of_true (hinside fun mem => ⟨roomy_wf mem hwf, roomy_sz_lt mem hwf⟩) (.inl hc)

/-- In every state of every run whose bulk operations and pushes are right, a ring with a storage has its indices
and its flag in order, the pushes are inside the storage unless there is none and the ring is not marked as full, and a
bulk operation leaves a storage in order if and only if it is right. -/
theorem bulk_consistent_iff {n : Nat} {r : Ring T}
    (hr : ((bulkSystem n).restrict fun r c => c.2.Right r).Reachable r) :
    (r.capacity ≠ 0 → r.WF) ∧ (r.PushesInside ↔ r.capacity ≠ 0 ∨ r.needsResize = true) ∧
      ∀ mem (b : Bulk T), ((b.run mem r).capacity ≠ 0 → (b.run mem r).WF) ↔ b.Right r := by
  have h := bulkInv_of_reachable hr
  exact ⟨h.consistent, h.pushesInside_iff, fun mem b => b.run_consistent_iff mem h⟩

/-- `clear()` on a full `Ring(1)`. -/
theorem bulk_consistent_iff_full :
    let r : Ring Nat := { data := [7], sz := 1, needsResize := true }
    (r.capacity ≠ 0 → r.WF) ∧ (r.PushesInside ↔ r.capacity ≠ 0 ∨ r.needsResize = true) ∧
      ∀ mem (b : Bulk Nat), ((b.run mem r).capacity ≠ 0 → (b.run mem r).WF) ↔ b.Right r :=
  bulk_consistent_iff (n := 1) (.step (i := (fun _ => 0, .op (.pushBack 7))) (.init rfl) ⟨.inr (.inl (by decide)), rfl⟩)

/-- What the constructor of `MemBuf` from a span makes of three bytes: the ring ends behind its storage without
being marked as full, and a push writes there. -/
theorem assigned_pushes_outside :
    (bulkSystem 16).Reachable (new 16 : Ring Nat) ∧
      ((Bulk.assign [1, 2, 3]).run (fun _ => 0) (new 16)).capacity = 3 ∧
      ((Bulk.assign [1, 2, 3]).run (fun _ => 0) (new 16)).tail = 3 ∧
      ¬ ((Bulk.assign [1, 2, 3]).run (fun _ => 0) (new 16)).WF ∧
      ¬ ((Bulk.assign [1, 2, 3]).run (fun _ => 0) (new 16)).PushesInside :=
  ⟨.init rfl, rfl, rfl, fun h => absurd h.tail_lt (by decide), fun h => absurd (h fun _ => 0).1 (by decide)⟩

end Dwhbll.Collections.Ring
