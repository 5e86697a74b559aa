import Dwhbll.Lib.Rewriting

/-!
# `censoring_log_filter` of `console/Logging.cpp`

The filter goes through its map in an order that is not specified, and replaces one key after the other in what it has
made of the message so far.
-/

namespace Dwhbll.Console

open Rewriting

abbrev Bytes := List UInt8

/-- `utils::replace_all`: `std::views::split` by `source`, joined again with `target`. -/
def replaceAll (str source target : Bytes) : Bytes := Splitting.replace source target str

/-- `replacements` is a `std::unordered_map`. -/
structure CensoringLogFilter where
  replacements : List (Bytes × Bytes)
  nodup : (replacements.map Prod.fst).Nodup

namespace CensoringLogFilter

/-- `process`, which iterates over the map in the given order. -/
def process (order : List (Bytes × Bytes)) (str : Bytes) : Bytes :=
  order.foldl (fun str r => replaceAll str r.1 r.2) str

def keys (f : CensoringLogFilter) : List Bytes := f.replacements.map Prod.fst

/-- `replacements[str] = replacement`. -/
def assign (str replacement : Bytes) (R : List (Bytes × Bytes)) : List (Bytes × Bytes) :=
  if str ∈ R.map Prod.fst then R.map fun r => if r.1 = str then (str, replacement) else r else R ++ [(str, replacement)]

theorem assign_nodup {R : List (Bytes × Bytes)} (h : (R.map Prod.fst).Nodup) (str replacement : Bytes) :
    ((assign str replacement R).map Prod.fst).Nodup := by
  unfold assign
  split
  · have hkeys : (Prod.fst ∘ fun r : Bytes × Bytes => if r.1 = str then (str, replacement) else r) = Prod.fst := by
      funext r
      simp only [Function.comp]
      split
      · exact Eq.symm ‹_›
      · rfl
    rw [List.map_map, hkeys]
    exact h
  · rename_i hnew
    rw [List.map_append, List.nodup_append]
    refine ⟨h, by simp, fun a ha b hb => ?_⟩
    rw [List.map_singleton, List.mem_singleton] at hb
    subst hb
    exact fun heq => hnew (heq ▸ ha)

def addBlacklist (str replacement : Bytes) (f : CensoringLogFilter) : CensoringLogFilter :=
  ⟨assign str replacement f.replacements, assign_nodup f.nodup str replacement⟩

/-- The other `addBlacklist`, which censors with a text of its own. -/
def addBlacklistCensored (str : Bytes) (f : CensoringLogFilter) : CensoringLogFilter :=
  f.addBlacklist str ("[CENSORED]".toList.map fun c => UInt8.ofNat c.toNat)

variable {R order : List (Bytes × Bytes)} {key str msg : Bytes}

theorem process_cons (r : Bytes × Bytes) (order : List (Bytes × Bytes)) (str : Bytes) :
    process (r :: order) str = process order (replaceAll str r.1 r.2) := rfl

theorem process_rewrites (hR : Apart R) (horder : ∀ r ∈ order, r ∈ R) (h : Rewrites R msg str) :
    Rewrites R msg (process order str) := by
  induction order generalizing str with
  | nil => exact h
  | cons r order ih =>
      rw [List.forall_mem_cons] at horder
      exact ih horder.2 (h.replace hR horder.1)

/-- A key that is not there does not come back. -/
theorem process_not_infix (hR : Apart R) (horder : ∀ r ∈ order, r ∈ R) (hkey : key ∈ R.map Prod.fst)
    (h : ¬ key <:+: str) : ¬ key <:+: process order str := by
  obtain ⟨s, hs, rfl⟩ := List.mem_map.mp hkey
  induction order generalizing str with
  | nil => exact h
  | cons r order ih =>
      rw [List.forall_mem_cons] at horder
      have hr := horder.1
      exact ih horder.2 (Splitting.not_infix_replace_of_not_infix (hR.key_ne s hs) (hR.key_ne r hr) (hR.new_ne r hr)
        (hR.disjoint s hs r hr) h)

theorem process_removes (hR : Apart R) (horder : ∀ r ∈ order, r ∈ R) (hkey : key ∈ order.map Prod.fst) (str : Bytes) :
    ¬ key <:+: process order str := by
  induction order generalizing str with
  | nil => cases hkey
  | cons r order ih =>
      rw [List.forall_mem_cons] at horder
      rw [process_cons]
      have hr := horder.1
      rcases List.mem_cons.mp hkey with rfl | hkey
      · exact process_not_infix hR horder.2 (List.mem_map_of_mem hr)
          (Splitting.not_infix_replace (hR.key_ne r hr) (hR.new_ne r hr) (hR.disjoint r hr r hr) str)
      · exact ih horder.2 hkey _

/-- In whatever order the map is gone through, no key is left in the message, and what is in no occurrence of a key is
kept, in order: all that happens is that occurrences of keys are replaced. -/
theorem process_censors (f : CensoringLogFilter) (hR : Apart f.replacements) (horder : order.Perm f.replacements)
    (msg : Bytes) :
    (∀ key ∈ f.keys, ¬ key <:+: process order msg) ∧ (uncovered f.keys msg).Sublist (process order msg) ∧
      Rewrites f.replacements msg (process order msg) := by
  have hmem : ∀ r ∈ order, r ∈ f.replacements := fun r hr => horder.mem_iff.mp hr
  have hrewrites := process_rewrites hR hmem (.refl _ msg)
  refine ⟨fun key hkey => process_removes hR hmem ?_ msg, hrewrites.uncovered_sublist, hrewrites⟩
  exact (horder.map Prod.fst).mem_iff.mpr hkey

/-- `ab` and `bc` overlap in `abcd`; which of them is replaced depends on the order. -/
def overlapping : CensoringLogFilter :=
  (CensoringLogFilter.mk [] .nil).addBlacklist [97, 98] [42] |>.addBlacklist [98, 99] [43]

theorem overlapping_apart : Apart overlapping.replacements :=
  ⟨by decide +kernel, by decide +kernel, by decide +kernel⟩

theorem process_censors_overlapping :
    process [([98, 99], [43]), ([97, 98], [42])] [97, 98, 99, 100] = [97, 43, 100] ∧
      (uncovered overlapping.keys [97, 98, 99, 100]).Sublist
        (process [([98, 99], [43]), ([97, 98], [42])] [97, 98, 99, 100]) :=
  ⟨by decide, (process_censors overlapping overlapping_apart (.swap ..) [97, 98, 99, 100]).2.1⟩

end CensoringLogFilter

end Dwhbll.Console
