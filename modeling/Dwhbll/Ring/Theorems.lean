import Dwhbll.Ring.Lemmas.Storage

/-!
# Theorems about the ring

Every ring that pushes and pops make of `Ring(n)` satisfies `WF` and behaves as a double-ended queue as
long as the storage stays where it is. Moving the storage keeps the elements exactly in the layouts
that `Move.Straight` describes.
-/

namespace Dwhbll.Collections.Ring

variable {T : Type} [Inhabited T]

/-! ## The ring as a double-ended queue -/

/-- What a call makes of a double-ended queue; `none` where it throws. -/
def Op.onDeque : Op T → List T → Option (List T)
  | .pushBack x, l => some (l ++ [x])
  | .moveBack x, l => some (l ++ [x])
  | .pushFront x, l => some (x :: l)
  | .popBack, l => if l.isEmpty then none else some l.dropLast
  | .popFront, l => if l.isEmpty then none else some l.tail

def Op.isPop : Op T → Bool
  | .popBack | .popFront => true
  | _ => false

def emptyPop : Exn := .outOfRange "size is already zero."

theorem toList_isEmpty (r : Ring T) : r.toList.isEmpty = true ↔ r.sz = 0 := by
  rw [List.isEmpty_iff, ← List.length_eq_zero_iff, Ring.toList_length]

theorem Op.run_onDeque (mem : Nat → T) (op : Op T) {r : Ring T} (h : r.WF)
    (hc : op.callsResize r = false) :
    match op.onDeque r.toList with
    | none => op.run mem r = (.error emptyPop, r)
    | some l => (op.run mem r).1 = .ok () ∧ (op.run mem r).2.toList = l := by
  cases op with
  | pushBack x | moveBack x =>
      have hl := (Ring.pushBack_spec mem x h).2
      rw [Ring.roomy_of_not_needsResize mem hc] at hl
      exact ⟨rfl, hl⟩
  | pushFront x =>
      have hl := (Ring.pushFront_spec mem x h).2
      rw [Ring.roomy_of_not_needsResize mem hc] at hl
      exact ⟨rfl, hl⟩
  | popBack =>
      simp only [Op.onDeque, toList_isEmpty]
      by_cases hz : r.sz = 0
      · simp [hz, Op.run, Ring.popBack, emptyPop]
      · obtain ⟨r', he, _, hl⟩ := Ring.popBack_spec h hz
        simp [hz, Op.run, he, hl]
  | popFront =>
      simp only [Op.onDeque, toList_isEmpty]
      by_cases hz : r.sz = 0
      · simp [hz, Op.run, Ring.popFront, emptyPop]
      · obtain ⟨r', he, _, hl⟩ := Ring.popFront_spec h hz
        simp [hz, Op.run, he, hl]

/-- In every state of every run the indices and the flag agree, a pop of an empty ring throws and
changes nothing, and a call that does not grow the storage acts on the elements as on a double-ended
queue. -/
theorem reachable_isDeque {n : Nat} (hn : 1 ≤ n) {r : Ring T} (hr : Reachable n r) :
    r.WF ∧
      (∀ mem (op : Op T), op.isPop = true → r.sz = 0 → op.run mem r = (.error emptyPop, r)) ∧
      ∀ mem (op : Op T), op.callsResize r = false →
        match op.onDeque r.toList with
        | none => op.run mem r = (.error emptyPop, r)
        | some l => (op.run mem r).1 = .ok () ∧ (op.run mem r).2.toList = l := by
  have h := hr.wf hn
  refine ⟨h, ?_, fun mem op hc => op.run_onDeque mem h hc⟩
  intro mem op hp hz
  cases op with
  | popBack => simp [Op.run, Ring.popBack, hz, emptyPop]
  | popFront => simp [Op.run, Ring.popFront, hz, emptyPop]
  | pushBack x | moveBack x | pushFront x => cases hp

/-- `Ring(2)` after two `push_back`, one `pop_front` and one `push_back`: full, started at cell 1. -/
def wrappedFull : Ring Nat := { head := 1, tail := 1, sz := 2, data := [3, 2], needsResize := true }

theorem wrappedFull_reachable : Reachable 2 wrappedFull :=
  Reachable.run (n := 2) (.init rfl)
    [(fun _ => 0, .pushBack 1), (fun _ => 0, .pushBack 2), (fun _ => 0, .popFront),
      (fun _ => 0, .pushBack 3)]

/-- The elements of `wrappedFull` go over the end of its storage, and `pop_front` takes the first of them. -/
theorem reachable_isDeque_wrappedFull :
    wrappedFull.WF ∧ wrappedFull.toList = [2, 3] ∧
      (Op.run (fun _ => 0) .popFront wrappedFull).1 = .ok () ∧
      (Op.run (fun _ => 0) .popFront wrappedFull).2.toList = [3] :=
  have h := reachable_isDeque (n := 2) (by decide) wrappedFull_reachable
  ⟨h.1, by decide, h.2.2 (fun _ => 0) .popFront rfl⟩

/-! ## Moving the storage -/

/-- The operation reads only cells of the old storage and leaves the elements as they were. -/
def Move.KeepsElements (mem : Nat → T) (r : Ring T) (m : Move) : Prop :=
  (∀ c ∈ m.copies r, c.ReadsInside r.capacity) ∧ (m.run mem r).toList = r.toList

/-- The layouts the copies are right for: the ring is not both full and started behind the first cell,
and a chopping `resize(target)` of a straight ring does not run over its end. -/
def Move.Straight (r : Ring T) : Move → Prop
  | .resize => r.head = 0
  | .makeCont => r.head = 0 ∨ r.sz < r.capacity
  | .resizeTo target =>
      if target > r.capacity then r.head = 0 ∨ r.sz < r.capacity
      else r.tail < r.head ∨ r.head + target ≤ r.capacity

theorem Move.resize_keepsElements_iff (mem : Nat → T) {r : Ring T} (h : r.WF)
    (hf : r.needsResize = true) : Move.KeepsElements mem r .resize ↔ r.head = 0 := by
  have h1 := h.head_lt
  have hsz := h.needsResize_iff.mp hf
  constructor
  · intro hk
    exact Ring.inOrder_full h hsz hk.1
  · intro hz
    obtain ⟨hr, hw⟩ := Ring.inOrder_spec mem h (.inl hz)
      (n := if r.capacity = 0 then 2 else r.capacity * 2) (by split <;> omega)
    exact ⟨hr, hw⟩

theorem Move.makeCont_keepsElements_iff (mem : Nat → T) {r : Ring T} (h : r.WF) :
    Move.KeepsElements mem r .makeCont ↔ r.head = 0 ∨ r.sz < r.capacity := by
  by_cases hc : r.isCont = true
  · have hz : r.head = 0 := by simp [Ring.isCont] at hc; exact hc.2
    simp [Move.KeepsElements, Move.copies, Move.run, Ring.makeCont, hc, hz]
  · constructor
    · intro hk
      have hr := hk.1
      simp only [Move.copies, hc] at hr
      exact (Ring.inOrder_reads_iff h).mp hr
    · intro ho
      obtain ⟨hr, hw⟩ := Ring.inOrder_spec mem h ho h.sz_le
      simp only [Move.KeepsElements, Move.copies, Move.run, Ring.makeCont, hc]
      exact ⟨hr, hw⟩

theorem Move.resizeTo_keepsElements_iff (mem : Nat → T) {r : Ring T} (h : r.WF) {target : Nat}
    (hs : r.sz ≤ target) :
    Move.KeepsElements mem r (.resizeTo target) ↔ Move.Straight r (.resizeTo target) := by
  simp only [Move.KeepsElements, Move.copies, Move.run, Move.Straight, Ring.resizeTo,
    Ring.resizeCopies, Ring.toList]
  by_cases hg : target > r.capacity
  · simp only [hg, if_true]
    constructor
    · intro hk
      exact (Ring.inOrder_reads_iff h).mp hk.1
    · intro ho
      exact Ring.inOrder_spec mem h ho hs
  · simp only [hg, if_false]
    constructor
    · intro hk
      exact (Ring.chopped_reads_iff h (by omega)).mp hk.1
    · intro ho
      exact ⟨(Ring.chopped_reads_iff h (by omega)).mpr ho, Ring.chopped_window mem h hs ho⟩

/-- In every state of every run, an operation that moves the storage stays inside the old one and keeps
the elements if and only if the layout is one its copies are right for. -/
theorem reachable_keepsElements_iff {n : Nat} (hn : 1 ≤ n) {r : Ring T} (hr : Reachable n r) {m : Move}
    (hm : m.Called r) (mem : Nat → T) : m.KeepsElements mem r ↔ m.Straight r := by
  have h := hr.wf hn
  cases m with
  | resize => exact Move.resize_keepsElements_iff mem h hm
  | makeCont => exact Move.makeCont_keepsElements_iff mem h
  | resizeTo target => exact Move.resizeTo_keepsElements_iff mem h hm

theorem reachable_keepsElements_iff_wrappedFull :
    Move.KeepsElements (fun _ => 0) wrappedFull .resize ↔ Move.Straight wrappedFull .resize :=
  reachable_keepsElements_iff (n := 2) (m := .resize) (by decide) wrappedFull_reachable rfl _

/-- The next push on `wrappedFull` copies two cells from cell 1 on, of which the second is not in the
storage: the element 3 is lost. -/
theorem wrappedFull_loses_element :
    Reachable 2 wrappedFull ∧ Move.Called wrappedFull .resize ∧
      (¬ ∀ c ∈ Move.copies wrappedFull .resize, c.ReadsInside wrappedFull.capacity) ∧
      wrappedFull.toList = [2, 3] ∧ (Move.run (fun _ => 0) wrappedFull .resize).toList = [2, 0] ∧
      ¬ Move.KeepsElements (fun _ => 0) wrappedFull .resize :=
  ⟨wrappedFull_reachable, rfl, by decide, by decide, by decide, fun h => absurd h.1 (by decide)⟩

end Dwhbll.Collections.Ring
