import Dwhbll.Lib.Lists
import Dwhbll.Lib.Transition
import Mathlib.Logic.Basic

/-!
# `file_mgr` of `files/filejar/file_mgr.cpp`

The two maps of a manager are functions. A moved-from map is empty.
-/

namespace Dwhbll.Files

open Transition

/-- What a call finds outside of the program: the paths that are made absolute, and the files that exist. -/
structure FileSystem (Path : Type) where
  absolute : Path → Path
  read : Path → Option (List UInt8)

structure File (Path : Type) where
  path : Path
  contents : List UInt8
  exists_ : Bool

def File.new {Path : Type} (fs : FileSystem Path) (path : Path) : File Path :=
  ⟨path, (fs.read path).getD [], (fs.read path).isSome⟩

/-- `std::unordered_map::emplace`: an element that is there stays. -/
def emplace {K V : Type} [DecidableEq K] (m : K → Option V) (k : K) (v : V) : K → Option V :=
  if (m k).isSome then m else fun x => if x = k then some v else m x

structure FileMgr (Path : Type) where
  files : UInt64 → Option (File Path)
  fileIds : Path → Option UInt64

namespace FileMgr

variable {Path : Type}

def new : FileMgr Path := ⟨fun _ => none, fun _ => none⟩

/-- `debug::panic` with its text is an error. -/
def get (id : UInt64) (m : FileMgr Path) : Except String (File Path) :=
  match m.files id with
  | some f => .ok f
  | none => .error "File has not been registered with this file_mgr!"

def exists_ (id : UInt64) (m : FileMgr Path) : Except String Bool := (m.get id).map (·.exists_)

def path (id : UInt64) (m : FileMgr Path) : Except String Path := (m.get id).map (·.path)

def contents (id : UInt64) (m : FileMgr Path) : Except String (List UInt8) := (m.get id).map (·.contents)

/-- The id, and the counter that all managers share and the manager after the call. -/
def addFile [DecidableEq Path] (fs : FileSystem Path) (path : Path) (idAlloc : UInt64) (m : FileMgr Path) :
    UInt64 × UInt64 × FileMgr Path :=
  let abspath := fs.absolute path
  match m.fileIds abspath with
  | some id => (id, idAlloc, m)
  | none =>
      (idAlloc, idAlloc + 1,
        { fileIds := emplace m.fileIds abspath idAlloc
          files := emplace m.files idAlloc (.new fs abspath) })

/-! ## Any number of managers -/

/-- The counter, and the managers in the order in which they were made. -/
structure World (Path : Type) where
  idAlloc : UInt64
  mgrs : List (FileMgr Path)

inductive Op (Path : Type) where
  | create
  | moveConstruct (other : Nat)
  | moveAssign (this other : Nat)
  | addFile (mgr : Nat) (fs : FileSystem Path) (path : Path)

namespace World

def init : World Path := ⟨0, []⟩

/-- What the manager leaves of itself when it is moved from. -/
def movedFrom (m : FileMgr Path) : FileMgr Path := { m with files := fun _ => none }

/-- One call, with the id that it returns. Nothing happens where there is no such manager. -/
def step [DecidableEq Path] (w : World Path) : Op Path → Option UInt64 × World Path
  | .create => (none, { w with mgrs := w.mgrs ++ [new] })
  | .moveConstruct other =>
      match w.mgrs[other]? with
      | none => (none, w)
      | some o => (none, { w with mgrs := w.mgrs.set other (movedFrom o) ++ [{ new with files := o.files }] })
  | .moveAssign this other =>
      match w.mgrs[this]?, w.mgrs[other]? with
      | some t, some o =>
          if this = other then (none, w)
          else
            (none, { w with mgrs := (w.mgrs.set this { t with files := o.files }).set other (movedFrom o) })
      | _, _ => (none, w)
  | .addFile mgr fs path =>
      match w.mgrs[mgr]? with
      | none => (none, w)
      | some m =>
          let (id, idAlloc, m) := m.addFile fs path w.idAlloc
          (some id, ⟨idAlloc, w.mgrs.set mgr m⟩)

end World

/-! ## The two maps of one manager -/

/-- The maps are inverse to each other. -/
structure Consistent (m : FileMgr Path) : Prop where
  listed : ∀ p id, m.fileIds p = some id → ∃ f, m.files id = some f ∧ f.path = p
  held : ∀ id f, m.files id = some f → m.fileIds f.path = some id

def Empty (m : FileMgr Path) : Prop := ∀ id, m.files id = none

/-- One of the maps has the path under this id. -/
def Holds (m : FileMgr Path) (p : Path) (id : UInt64) : Prop :=
  m.fileIds p = some id ∨ ∃ f, m.files id = some f ∧ f.path = p

variable {m : FileMgr Path} {p : Path} {id : UInt64}

theorem emplace_of_none {K V : Type} [DecidableEq K] {m : K → Option V} {k : K} (h : m k = none) (v : V) (x : K) :
    emplace m k v x = if x = k then some v else m x := by
  simp [emplace, h]

theorem emplace_of_some {K V : Type} [DecidableEq K] {m : K → Option V} {k : K} {u : V} (h : m k = some u) (v : V) :
    emplace m k v = m := by
  simp [emplace, h]

theorem new_consistent : (new : FileMgr Path).Consistent where
  listed := by simp [new]
  held := by simp [new]

theorem consistent_of_empty_iff (h : m.Empty) : m.Consistent ↔ ∀ p, m.fileIds p = none := by
  constructor
  · intro hm p
    cases hp : m.fileIds p with
    | none => rfl
    | some id =>
        obtain ⟨f, hf, -⟩ := hm.listed p id hp
        rw [h id] at hf
        cases hf
  · intro hids
    constructor
    · intro p id hp
      rw [hids p] at hp
      cases hp
    · intro id f hf
      rw [h id] at hf
      cases hf

theorem Consistent.empty_iff (hm : m.Consistent) : m.Empty ↔ ∀ p, m.fileIds p = none := by
  constructor
  · intro h
    exact (consistent_of_empty_iff h).mp hm
  · intro hids id
    cases hid : m.files id with
    | none => rfl
    | some f =>
        have := hm.held id f hid
        rw [hids] at this
        cases this

theorem Consistent.fileIds_of_holds (hm : m.Consistent) (h : m.Holds p id) : m.fileIds p = some id := by
  rcases h with h | ⟨f, hf, rfl⟩
  · exact h
  · exact hm.held id f hf

theorem Consistent.addFile_of_holds [DecidableEq Path] (hm : m.Consistent) (h : m.Holds p id)
    {fs : FileSystem Path} {path : Path} (hp : fs.absolute path = p) (idAlloc : UInt64) :
    (m.addFile fs path idAlloc).1 = id := by
  simp [addFile, hp, hm.fileIds_of_holds h]

theorem Consistent.get_of_holds (hm : m.Consistent) (h : m.Holds p id) :
    (∃ b, m.exists_ id = .ok b) ∧ m.path id = .ok p ∧ ∃ bytes, m.contents id = .ok bytes := by
  obtain ⟨f, hf, rfl⟩ := hm.listed p id (hm.fileIds_of_holds h)
  have hget : m.get id = .ok f := by rw [get, hf]
  rw [exists_, path, contents, hget]
  exact ⟨⟨_, rfl⟩, rfl, ⟨_, rfl⟩⟩

theorem Consistent.assigned_iff (hm : m.Consistent) {o : FileMgr Path} (ho : o.Empty) :
    ({ m with files := o.files } : FileMgr Path).Consistent ↔ m.Empty := by
  rw [hm.empty_iff]
  exact consistent_of_empty_iff ho

theorem Consistent.movedFrom_iff (hm : m.Consistent) : (World.movedFrom m).Consistent ↔ m.Empty := by
  rw [hm.empty_iff]
  exact consistent_of_empty_iff fun _ => rfl

/-- A new path gets an id that no other file may have. -/
theorem Consistent.addFile_iff [DecidableEq Path] (hm : m.Consistent) (fs : FileSystem Path) (path : Path)
    (idAlloc : UInt64) :
    (m.addFile fs path idAlloc).2.2.Consistent ↔
      (m.fileIds (fs.absolute path) = none → m.files idAlloc = none) := by
  cases hp : m.fileIds (fs.absolute path) with
  | some id => simpa [addFile, hp] using hm
  | none =>
      simp only [addFile, hp, true_imp_iff]
      cases hid : m.files idAlloc with
      | some f =>
          simp only [reduceCtorEq, iff_false]
          intro h
          -- The path is listed under the id of the file that is already there.
          obtain ⟨g, hg, hpath⟩ := h.listed (fs.absolute path) idAlloc (by simp [emplace_of_none hp])
          simp only [emplace_of_some hid, hid] at hg
          cases hg
          rw [← hpath, hm.held idAlloc f hid] at hp
          cases hp
      | none =>
          simp only [iff_true]
          constructor
          · intro q id hq
            simp only [emplace_of_none hp] at hq
            simp only [emplace_of_none hid]
            split at hq
            · rename_i heq
              cases hq
              exact ⟨_, if_pos rfl, heq.symm⟩
            · obtain ⟨f, hf, rfl⟩ := hm.listed q id hq
              have hne : id ≠ idAlloc := by
                rintro rfl
                rw [hid] at hf
                cases hf
              exact ⟨f, by rw [if_neg hne, hf], rfl⟩
          · intro id f hf
            simp only [emplace_of_none hid] at hf
            simp only [emplace_of_none hp]
            split at hf
            · rename_i heq
              cases hf
              rw [heq]
              exact if_pos rfl
            · have hlisted := hm.held id f hf
              have hne : f.path ≠ fs.absolute path := by
                intro h
                rw [h, hp] at hlisted
                cases hlisted
              rw [if_neg hne, hlisted]

theorem addFile_fileIds [DecidableEq Path] (fs : FileSystem Path) (path : Path) (idAlloc : UInt64) (m : FileMgr Path) :
    (m.addFile fs path idAlloc).2.2.fileIds (fs.absolute path) = some (m.addFile fs path idAlloc).1 := by
  cases hp : m.fileIds (fs.absolute path) with
  | some id => simp [addFile, hp]
  | none => simp [addFile, hp, emplace_of_none hp]

/-! ## Runs -/

namespace World

/-- All managers, those that were moved from among them. -/
def Consistent (w : World Path) : Prop := ∀ m ∈ w.mgrs, m.Consistent

variable [DecidableEq Path]

/-- What is asked of the call `op` in the state `w`. -/
structure Keeps (w : World Path) (op : Op Path) : Prop where
  consistent : (w.step op).2.Consistent
  /-- A path that a manager holds is not added again. -/
  same : ∀ m ∈ (w.step op).2.mgrs, ∀ p id, m.Holds p id → ∀ fs path, fs.absolute path = p →
    (m.addFile fs path (w.step op).2.idAlloc).1 = id
  noPanic : ∀ m ∈ (w.step op).2.mgrs, ∀ p id, m.Holds p id →
    (∃ b, m.exists_ id = .ok b) ∧ m.path id = .ok p ∧ ∃ bytes, m.contents id = .ok bytes
  /-- The id that is returned is held. -/
  answer : ∀ mgr fs path id, op = .addFile mgr fs path → (w.step op).1 = some id →
    ∃ m, (w.step op).2.mgrs[mgr]? = some m ∧ m.Holds (fs.absolute path) id

/-- The calls that leave the maps inverse to each other. -/
def Safe (w : World Path) : Op Path → Prop
  | .create => True
  | .moveConstruct other => ∀ o, w.mgrs[other]? = some o → o.Empty
  | .moveAssign this other =>
      ∀ t o, w.mgrs[this]? = some t → w.mgrs[other]? = some o → this ≠ other → t.Empty ∧ o.Empty
  | .addFile mgr fs path =>
      ∀ m, w.mgrs[mgr]? = some m → m.fileIds (fs.absolute path) = none → m.files w.idAlloc = none

theorem step_consistent_iff {w : World Path} (hw : w.Consistent) (op : Op Path) :
    (w.step op).2.Consistent ↔ w.Safe op := by
  cases op with
  | create =>
      simp only [Consistent, step, Safe, List.forall_mem_append, List.forall_mem_singleton, iff_true]
      exact ⟨hw, new_consistent⟩
  | moveConstruct other =>
      simp only [step, Safe]
      cases ho : w.mgrs[other]? with
      | none => simpa using hw
      | some o =>
          have hmem := hw o (List.mem_of_getElem? ho)
          have hlt := (List.getElem?_eq_some_iff.mp ho).1
          simp only [Consistent, List.forall_mem_append, List.forall_mem_singleton, Lists.forall_mem_set hw hlt,
            hmem.movedFrom_iff, Option.some.injEq, forall_eq', and_iff_left_iff_imp]
          intro hempty
          exact (new_consistent.assigned_iff hempty).mpr fun _ => rfl
  | moveAssign this other =>
      simp only [step, Safe]
      cases ht : w.mgrs[this]? with
      | none => simpa using hw
      | some t =>
          cases ho : w.mgrs[other]? with
          | none => simpa using hw
          | some o =>
              simp only [Option.some.injEq]
              by_cases heq : this = other
              · simpa [heq] using hw
              · have hmt := hw t (List.mem_of_getElem? ht)
                have hmo := hw o (List.mem_of_getElem? ho)
                rw [if_neg heq]
                simp only [Consistent, Lists.forall_mem_set_set hw (List.getElem?_eq_some_iff.mp ht).1
                  (List.getElem?_eq_some_iff.mp ho).1 heq, hmo.movedFrom_iff, ne_eq, heq, not_false_eq_true,
                  true_imp_iff]
                rw [and_congr_left fun hempty => hmt.assigned_iff hempty]
                constructor
                · rintro hboth _ _ rfl rfl
                  exact hboth
                · intro h
                  exact h t o rfl rfl
  | addFile mgr fs path =>
      simp only [step, Safe]
      cases hm : w.mgrs[mgr]? with
      | none => simpa using hw
      | some m =>
          simp only [Consistent, Lists.forall_mem_set hw (List.getElem?_eq_some_iff.mp hm).1, Option.some.injEq,
            forall_eq']
          exact (hw m (List.mem_of_getElem? hm)).addFile_iff fs path w.idAlloc

theorem step_answer (w : World Path) {mgr : Nat} {fs : FileSystem Path} {path : Path} {id : UInt64}
    (h : (w.step (.addFile mgr fs path)).1 = some id) :
    ∃ m, (w.step (.addFile mgr fs path)).2.mgrs[mgr]? = some m ∧ m.Holds (fs.absolute path) id := by
  simp only [step] at h ⊢
  cases hm : w.mgrs[mgr]? with
  | none => simp [hm] at h
  | some m =>
      simp only [hm, Option.some.injEq] at h ⊢
      subst h
      exact ⟨_, List.getElem?_set_self (List.getElem?_eq_some_iff.mp hm).1, .inl (addFile_fileIds ..)⟩

theorem keeps_of_consistent {w : World Path} {op : Op Path} (h : (w.step op).2.Consistent) : w.Keeps op where
  consistent := h
  same m hm _ _ hholds _ _ hp := (h m hm).addFile_of_holds hholds hp _
  noPanic m hm _ _ hholds := (h m hm).get_of_holds hholds
  answer := by
    rintro mgr fs path id rfl hid
    exact step_answer w hid

/-- The maps of all managers stay inverse to each other in a run if and only if it moves no files and no counter that
has come round hands out an id which is in use. -/
theorem run_keeps_iff_safe (ops : List (Op Path)) : Along step Keeps init ops ↔ Along step Safe init ops := by
  have hstep : ∀ (w : World Path) (op : Op Path), w.Consistent → (w.Keeps op ↔ w.Safe op) := by
    intro w op hw
    rw [← step_consistent_iff hw op]
    exact ⟨fun h => h.consistent, keeps_of_consistent⟩
  have hinit : (init : World Path).Consistent := by simp [Consistent, init]
  exact Along.iff_of_invariant hstep (fun _ _ _ h => h.consistent) hinit ops

/-- A manager that was moved from still lists the file that it does not have. -/
theorem moveConstruct_not_keeps : ¬ ∀ ops : List (Op String), Along step Keeps init ops := by
  intro h
  let fs : FileSystem String := ⟨fun p => p, fun _ => none⟩
  obtain ⟨-, hadd, hmove, -⟩ := h [.create, .addFile 0 fs "/a", .moveConstruct 0]
  have hempty := (step_consistent_iff hadd.consistent _).mp hmove.consistent _ rfl 0
  revert hempty
  simp [step, init, new, emplace]

end World

end FileMgr

end Dwhbll.Files
