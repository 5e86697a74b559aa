import Mathlib.Data.List.Induction
import Mathlib.Data.List.Perm.Basic

/-!
# `generic_cache` of `collections/cache.cpp`

A time point is a count of ticks of the system clock. A `void*` is a number, or nothing where it is `nullptr`.
-/

namespace Dwhbll.Collections

structure GenericCache.Entry where
  expire : Int
  key : Option Nat
  value : Option Nat
  deriving DecidableEq, Repr

structure GenericCache where
  firstExpireTime : Int
  entries : List GenericCache.Entry
  /-- The flag that wakes the worker; it is shared by all caches. -/
  updated : Bool
  deriving DecidableEq, Repr

namespace GenericCache

def new : GenericCache := ⟨0, [], false⟩

/-- The walk over the list: an insertion leaves the iterator at the entry it stands before. -/
def insertLoop (e : Entry) : List Entry → List Entry
  | [] => []
  | x :: xs => if x.expire > e.expire then e :: x :: insertLoop e xs else x :: insertLoop e xs

def addEntry (s : GenericCache) (e : Entry) : GenericCache :=
  let first := if s.firstExpireTime > e.expire then e.expire else s.firstExpireTime
  let (entries, updated) := if s.entries = [] then ([e], true) else (s.entries, s.updated)
  let flagWorker := entries.head?.any fun x => x.expire > e.expire
  ⟨first, insertLoop e entries, updated || flagWorker⟩

def getEntry (now : Int) (key : Option Nat) (s : GenericCache) : Option Nat :=
  match s.entries.find? fun x => ¬ now > x.expire ∧ x.key = key with
  | some x => x.value
  | none => none

def run (adds : List Entry) : GenericCache := adds.foldl addEntry new

variable {e a : Entry} {xs adds : List Entry}

theorem run_concat (adds : List Entry) (a : Entry) : run (adds ++ [a]) = (run adds).addEntry a :=
  List.foldl_concat ..

/-! ## One insertion -/

/-- How often the walk inserts: once before every entry that expires later. -/
def later (e : Entry) (xs : List Entry) : Nat := xs.countP fun x => e.expire < x.expire

theorem later_cons (e x : Entry) (xs : List Entry) :
    later e (x :: xs) = later e xs + if e.expire < x.expire then 1 else 0 := by
  simp [later, List.countP_cons]

theorem later_perm {ys : List Entry} (h : xs.Perm ys) : later e xs = later e ys := h.countP_eq _

theorem later_pos {x : Entry} (hx : x ∈ xs) (h : e.expire < x.expire) : 0 < later e xs :=
  List.countP_pos_iff.mpr ⟨x, hx, by simpa using h⟩

theorem later_eq_zero (h : ∀ x ∈ xs, x.expire ≤ e.expire) : later e xs = 0 := by
  rw [later, List.countP_eq_zero]
  intro x hx
  simpa using h x hx

theorem insertLoop_perm (e : Entry) (xs : List Entry) :
    (insertLoop e xs).Perm (List.replicate (later e xs) e ++ xs) := by
  induction xs with
  | nil => exact .nil
  | cons x xs ih =>
      have hx : (x :: insertLoop e xs).Perm (List.replicate (later e xs) e ++ x :: xs) :=
        (ih.cons x).trans List.perm_middle.symm
      rw [insertLoop, later_cons]
      split
      · exact hx.cons e
      · exact hx

theorem mem_insertLoop {x : Entry} (h : x ∈ insertLoop e xs) : x = e ∨ x ∈ xs := by
  rcases List.mem_append.mp ((insertLoop_perm e xs).mem_iff.mp h) with h | h
  · exact .inl (List.eq_of_mem_replicate h)
  · exact .inr h

def Sorted (xs : List Entry) : Prop := xs.Pairwise fun x y => x.expire ≤ y.expire

/-- One insertion leaves a sorted list sorted: only the last entry expires later. -/
theorem insertLoop_sorted (hs : Sorted xs) (h1 : later e xs ≤ 1) : Sorted (insertLoop e xs) := by
  induction xs with
  | nil => exact .nil
  | cons x xs ih =>
      obtain ⟨hx, hxs⟩ := List.pairwise_cons.mp hs
      rw [later_cons] at h1
      have ih := ih hxs (by omega)
      rw [insertLoop]
      split
      · rename_i hlt
        rw [if_pos hlt] at h1
        have hnil : xs = [] := by
          cases xs with
          | nil => rfl
          | cons y ys =>
              have hpos : 0 < later e (y :: ys) :=
                later_pos List.mem_cons_self (Int.lt_of_lt_of_le hlt (hx y List.mem_cons_self))
              omega
        subst hnil
        exact List.pairwise_pair.mpr (Int.le_of_lt hlt)
      · rename_i hge
        refine List.pairwise_cons.mpr ⟨fun y hy => ?_, ih⟩
        rcases mem_insertLoop hy with rfl | hy
        · exact Int.not_lt.mp hge
        · exact hx y hy

theorem addEntry_entries (s : GenericCache) (e : Entry) :
    (s.addEntry e).entries = if s.entries = [] then [e] else insertLoop e s.entries := by
  simp only [addEntry]
  split
  · simp [insertLoop]
  · rfl

theorem run_singleton (a : Entry) : (run [a]).entries = [a] := by
  simp [run, addEntry_entries, new]

theorem entries_concat (adds : List Entry) (hne : (run adds).entries ≠ []) (a : Entry) :
    (run (adds ++ [a])).entries = insertLoop a (run adds).entries := by
  rw [run_concat, addEntry_entries, if_neg hne]

theorem entries_concat_perm (adds : List Entry) (hne : (run adds).entries ≠ []) (a : Entry) :
    (run (adds ++ [a])).entries.Perm (List.replicate (later a (run adds).entries) a ++ (run adds).entries) := by
  rw [entries_concat adds hne]
  exact insertLoop_perm ..

/-! ## The entry that was added first -/

/-- Nothing gets behind the entry that was added first: what does not expire before it is never inserted. -/
theorem exists_rest (a : Entry) (rest : List Entry) :
    ∃ ys, (run (a :: rest)).entries.Perm (a :: ys) ∧ ∀ x ∈ ys, x.expire < a.expire := by
  induction rest using List.reverseRecOn with
  | nil => exact ⟨[], by rw [run_singleton], by simp⟩
  | append_singleton rest b ih =>
      obtain ⟨ys, hperm, hys⟩ := ih
      have hne : (run (a :: rest)).entries ≠ [] := by
        intro h
        rw [h] at hperm
        cases hperm.length_eq
      have hstep := (entries_concat_perm (a :: rest) hne b).trans (hperm.append_left _)
      by_cases hb : b.expire < a.expire
      · refine ⟨List.replicate (later b (run (a :: rest)).entries) b ++ ys, hstep.trans List.perm_middle, ?_⟩
        intro x hx
        rcases List.mem_append.mp hx with hx | hx
        · rw [List.eq_of_mem_replicate hx]
          exact hb
        · exact hys x hx
      · have hzero : later b (run (a :: rest)).entries = 0 := by
          rw [later_perm hperm]
          refine later_eq_zero fun x hx => ?_
          rcases List.mem_cons.mp hx with rfl | hx
          · exact Int.not_lt.mp hb
          · have := hys x hx
            omega
        rw [hzero] at hstep
        exact ⟨ys, hstep, hys⟩

theorem mem_entries_run (a : Entry) (rest : List Entry) : a ∈ (run (a :: rest)).entries := by
  obtain ⟨ys, hperm, -⟩ := exists_rest a rest
  exact hperm.mem_iff.mpr List.mem_cons_self

/-- An entry that does not expire before the one that was added first is not there. -/
theorem mem_entries_iff {x : Entry} {rest : List Entry} :
    x ∈ (run (a :: rest)).entries ↔ x = a ∨ x ∈ rest ∧ x.expire < a.expire := by
  induction rest using List.reverseRecOn with
  | nil => simp [run_singleton]
  | append_singleton rest b ih =>
      have hlater : 0 < later b (run (a :: rest)).entries ↔ b.expire < a.expire := by
        constructor
        · intro hpos
          obtain ⟨y, hy, hlt⟩ := List.countP_pos_iff.mp hpos
          obtain ⟨ys, hperm, hys⟩ := exists_rest a rest
          rcases List.mem_cons.mp (hperm.mem_iff.mp hy) with rfl | hy
          · simpa using hlt
          · exact Int.lt_trans (by simpa using hlt) (hys y hy)
        · exact later_pos (mem_entries_run a rest)
      have hne : (run (a :: rest)).entries ≠ [] := List.ne_nil_of_mem (mem_entries_run a rest)
      rw [← List.cons_append, (entries_concat_perm _ hne b).mem_iff, List.mem_append, List.mem_replicate, ih,
        ← Nat.pos_iff_ne_zero, hlater]
      constructor
      · rintro (⟨hlt, rfl⟩ | rfl | ⟨hx, hlt⟩)
        · simp [hlt]
        · simp
        · simp [hx, hlt]
      · rintro (rfl | ⟨hx, hlt⟩)
        · simp
        · rcases List.mem_append.mp hx with hx | hx
          · simp [hx, hlt]
          · simp [← List.mem_singleton.mp hx, hlt]

theorem entries_run_ne_nil (hne : adds ≠ []) : (run adds).entries ≠ [] := by
  cases adds with
  | nil => exact absurd rfl hne
  | cons a rest => exact List.ne_nil_of_mem (mem_entries_run a rest)

/-- As long as every entry expires before the first one, none is lost. -/
theorem length_le_entries {rest : List Entry} (h : ∀ x ∈ rest, x.expire < a.expire) :
    (a :: rest).length ≤ (run (a :: rest)).entries.length := by
  induction rest using List.reverseRecOn with
  | nil => simp [run_singleton]
  | append_singleton rest b ih =>
      have hlen := (entries_concat_perm (a :: rest) (entries_run_ne_nil (by simp)) b).length_eq
      have hpos := later_pos (mem_entries_run a rest) (h b (by simp))
      have ih := ih fun x hx => h x (by simp [hx])
      simp only [List.length_append, List.length_replicate, List.cons_append, List.length_cons,
        List.length_nil] at hlen ih ⊢
      omega

/-! ## The runs that keep every entry once -/

/-- Every entry but the first is added when exactly one of those before it expires later. -/
def OneLater (adds : List Entry) : Prop :=
  ∀ before a, before ++ [a] <+: adds → before ≠ [] → later a before = 1

theorem oneLater_concat (adds : List Entry) (a : Entry) :
    OneLater (adds ++ [a]) ↔ OneLater adds ∧ (adds ≠ [] → later a adds = 1) := by
  constructor
  · intro h
    exact ⟨fun before b hb => h before b (hb.trans (List.prefix_append ..)), h adds a (List.prefix_refl _)⟩
  · rintro ⟨h, hlast⟩ before b hb hne
    rcases List.prefix_concat_iff.mp hb with heq | hb
    · obtain ⟨rfl, hlabel⟩ : before = adds ∧ [b] = [a] := List.append_inj' heq rfl
      obtain rfl : b = a := List.singleton_inj.mp hlabel
      exact hlast hne
    · exact h before b hb hne

/-- What the cache is for: the added entries in the order in which they expire, each of them once, and found as long
as they have not expired. -/
structure Keeps (adds : List Entry) (s : GenericCache) : Prop where
  sorted : Sorted s.entries
  perm : s.entries.Perm adds
  finds : ∀ a ∈ adds, ∀ now, now < a.expire →
    ∃ e ∈ s.entries, e.key = a.key ∧ now ≤ e.expire ∧ s.getEntry now a.key = e.value

theorem getEntry_of_mem {s : GenericCache} (ha : a ∈ s.entries) {now : Int} (hnow : now < a.expire) :
    ∃ e ∈ s.entries, e.key = a.key ∧ now ≤ e.expire ∧ s.getEntry now a.key = e.value := by
  cases hf : s.entries.find? fun x => ¬ now > x.expire ∧ x.key = a.key with
  | none =>
      have := List.find?_eq_none.mp hf a ha
      simp at this
      omega
  | some e =>
      have he := List.find?_some hf
      simp only [gt_iff_lt, decide_eq_true_eq] at he
      refine ⟨e, List.mem_of_find?_eq_some hf, he.2, Int.not_lt.mp he.1, ?_⟩
      rw [getEntry, hf]

theorem sorted_perm_of_oneLater (h : OneLater adds) : Sorted (run adds).entries ∧ (run adds).entries.Perm adds := by
  induction adds using List.reverseRecOn with
  | nil => exact ⟨.nil, .nil⟩
  | append_singleton adds a ih =>
      obtain ⟨h, hlast⟩ := (oneLater_concat adds a).mp h
      obtain ⟨hsorted, hperm⟩ := ih h
      by_cases hnil : adds = []
      · subst hnil
        rw [List.nil_append, run_singleton]
        exact ⟨List.pairwise_singleton .., .refl _⟩
      · have hne := entries_run_ne_nil hnil
        have hone : later a (run adds).entries = 1 := (later_perm hperm).trans (hlast hnil)
        constructor
        · rw [entries_concat adds hne]
          exact insertLoop_sorted hsorted (Nat.le_of_eq hone)
        · have hstep := entries_concat_perm adds hne a
          rw [hone] at hstep
          exact (hstep.trans (hperm.append_left _)).trans List.perm_append_comm

/-- Each entry was inserted at least once, and the number of entries leaves no more than that. -/
theorem oneLater_of_perm {rest : List Entry} (h : ∀ x ∈ rest, x.expire < a.expire)
    (hperm : (run (a :: rest)).entries.Perm (a :: rest)) : OneLater (a :: rest) := by
  induction rest using List.reverseRecOn with
  | nil =>
      intro before b hb hne
      have hlen := hb.length_le
      rw [List.length_append, List.length_singleton, List.length_singleton] at hlen
      exact absurd (List.eq_nil_of_length_eq_zero (by omega)) hne
  | append_singleton rest b ih =>
      have hrest : ∀ x ∈ rest, x.expire < a.expire := fun x hx => h x (by simp [hx])
      have hstep := (entries_concat_perm (a :: rest) (entries_run_ne_nil (by simp)) b).symm.trans hperm
      have hpos := later_pos (mem_entries_run a rest) (h b (by simp))
      have hle := length_le_entries hrest
      have hlen := hstep.length_eq
      rw [← List.cons_append, List.length_append, List.length_append, List.length_replicate,
        List.length_singleton] at hlen
      have hone : later b (run (a :: rest)).entries = 1 := by omega
      rw [hone, ← List.cons_append] at hstep
      have hprev : (run (a :: rest)).entries.Perm (a :: rest) :=
        (List.perm_append_left_iff [b]).mp (hstep.trans List.perm_append_comm)
      rw [← List.cons_append, oneLater_concat]
      exact ⟨ih hrest hprev, fun _ => (later_perm hprev).symm.trans hone⟩

/-- The cache keeps what is added to it if and only if every entry but the first is added when exactly one of the
entries before it expires later: the walk goes on after it has inserted, and does not insert behind the last entry. -/
theorem run_keeps_iff (adds : List Entry) : Keeps adds (run adds) ↔ OneLater adds := by
  constructor
  · intro h
    cases adds with
    | nil =>
        intro before b hb
        cases before <;> cases List.prefix_nil.mp hb
    | cons a rest =>
        obtain ⟨ys, hys, hlt⟩ := exists_rest a rest
        have hrest : ys.Perm rest := (hys.symm.trans h.perm).cons_inv
        exact oneLater_of_perm (fun x hx => hlt x (hrest.mem_iff.mpr hx)) h.perm
  · intro h
    obtain ⟨hsorted, hperm⟩ := sorted_perm_of_oneLater h
    exact ⟨hsorted, hperm, fun a ha now hnow => getEntry_of_mem (hperm.mem_iff.mpr ha) hnow⟩

/-- An entry that expires after the only one there is not inserted at all. -/
theorem run_loses_second : ¬ ∀ adds, Keeps adds (run adds) := by
  intro h
  have hlen := (h [⟨10, some 1, some 2⟩, ⟨20, some 3, some 4⟩]).perm.length_eq
  revert hlen
  decide

end GenericCache

end Dwhbll.Collections
