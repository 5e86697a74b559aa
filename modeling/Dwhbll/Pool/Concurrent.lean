import Dwhbll.Concurrency.Spinlock
import Dwhbll.Pool.Find
import Dwhbll.Pool.Theorems

/-!
# The pool with several threads

`acquire`, `find` and `offer` take the lock of the pool and then read and write it one field at a time. `offer` takes no
lock for a null pointer.
-/

namespace Dwhbll.Memory.Pool

open Transition Locks Concurrency

inductive Call (T : Type) where
  | acquire (value : Option T)
  | find (value : T)
  | offer (object : Ptr) (h : object ≠ .null)

/-- What a call has still to do. A block that `makeNew()` has made is already the last one. -/
inductive Point (T : Type) where
  | acquire (value : Option T)
  | makeNew (value : Option T)
  | grow (value : Option T) (block : Nat)
  | block (value : Option T) (current : Nat)
  | slot (value : Option T) (current i : Nat)
  | take (value : Option T) (block index : Nat)
  | reserve (value : Option T) (block index : Nat)
  | use (value : Option T) (block index : Nat)
  | construct (value : Option T) (block index : Nat)
  | returning (block index : Nat)
  | find (value : T) (current : Nat)
  | findUsed (value : T) (current i : Nat)
  | findObject (value : T) (current i : Nat)
  | offer (object : Ptr)
  | unuse (object : Ptr) (block index : Nat)
  | free (object : Ptr) (block index : Nat)
  | erase (object : Ptr)
  | count
  deriving DecidableEq, Repr

/-- `acquire` returns an object, `find` an object or a null pointer, and `offer` nothing. -/
abbrev Answer := Except Exn (Option Ptr)

variable {T : Type} {B : Nat}

def Call.start : Call T → Point T
  | .acquire value => .acquire value
  | .find value => .find value 0
  | .offer object _ => .offer object

section

variable [Inhabited T] [BEq T]

/-- The next access to the pool. -/
def Point.work (p : Pool T B) : Point T → (Point T ⊕ Answer) × Pool T B
  | .acquire value => (.inl (if p.available = 0 then .makeNew value else .block value 0), p)
  | .makeNew value => (.inl (.grow value p.objects.length), { p with objects := p.objects ++ [newObj B] })
  | .grow value b => (.inl (.reserve value b 0), { p with size := p.size + B })
  | .block value current =>
      match p.objects[current]? with
      | none => (.inr (.error (.runtimeError "available != 0 and no available objects!")), p)
      | some obj => (.inl (if obj.blockAvailable = 0 then .block value (current + 1) else .slot value current 0), p)
  | .slot value current i =>
      if i < B then
        match p.objects[current]?.bind (·.used[i]?) with
        | some false => (.inl (.take value current i), p)
        | _ => (.inl (.slot value current (i + 1)), p)
      else (.inl (.block value (current + 1)), p)
  | .take value b index => (.inl (.reserve value b index), { p with available := p.available - 1 })
  | .reserve value b index =>
      (.inl (.use value b index),
        { p with objects := p.objects.modify b fun obj => { obj with blockAvailable := obj.blockAvailable - 1 } })
  | .use value b index =>
      (.inl (.construct value b index),
        { p with objects := p.objects.modify b fun obj => { obj with used := obj.used.set index true } })
  | .construct none _ _ => (.inr (.error .constructor), p)
  | .construct (some v) b index =>
      (.inl (.returning b index),
        { p with objects := p.objects.modify b fun obj => { obj with object := obj.object.set index v } })
  | .returning b index =>
      (.inr (.ok (some (.slot b index))),
        { p with returning := fun q => if q = .slot b index then some (b, index) else p.returning q })
  | .find value current =>
      match p.objects[current]? with
      | none => (.inr (.ok (some .null)), p)
      | some _ => (.inl (.findUsed value current 0), p)
  | .findUsed value current i =>
      if i < B then
        match p.objects[current]?.bind (·.used[i]?) with
        | some true => (.inl (.findObject value current i), p)
        | _ => (.inl (.findUsed value current (i + 1)), p)
      -- `current` stays where it is.
      else (.inl (.find value current), p)
  | .findObject value current i =>
      if (p.objects[current]?.bind (·.object[i]?)).any (· == value) then (.inr (.ok (some (.slot current i))), p)
      else (.inl (.findUsed value current (i + 1)), p)
  | .offer object =>
      match p.returning object with
      | none => (.inr (.error (.runtimeError "Object was not allocated in the pool!")), p)
      | some (b, index) => (.inl (.unuse object b index), p)
  | .unuse object b index =>
      (.inl (.free object b index),
        { p with objects := p.objects.modify b fun obj => { obj with used := obj.used.set index false } })
  | .free object b _ =>
      (.inl (.erase object),
        { p with objects := p.objects.modify b fun obj => { obj with blockAvailable := obj.blockAvailable + 1 } })
  | .erase object => (.inl .count, { p with returning := fun q => if q = object then none else p.returning q })
  | .count => (.inr (.ok none), { p with available := p.available + 1 })

def sections (T : Type) [Inhabited T] [BEq T] (B : Nat) : Sections (Pool T B) (Call T) (Point T) Answer where
  start := Call.start
  work l p := l.work p

end

/-! ## One call without interruption -/

/-- A whole call, as a thread makes it that is alone. -/
inductive Returns [Inhabited T] [BEq T] (w : World T B) : Call T → Answer → World T B → Prop where
  | acquire (value : Option T) : Returns w (.acquire value) (Op.run w (.acquire value)).1 (Op.run w (.acquire value)).2
  | find {value : T} {rounds : Nat} {q : Ptr} :
      Pool.find rounds value w.pool = some q → Returns w (.find value) (.ok (some q)) w
  | offer (object : Ptr) (h : object ≠ .null) :
      Returns w (.offer object h) (Op.run w (.offer object)).1 (Op.run w (.offer object)).2

variable {p : Pool T B} {obj : Obj T} {value : Option T} {b i j : Nat} {a : Answer}

/-- The index of the first free slot that is left, from some slot on. -/
theorem findIdx?_unused {us : List Bool} (h : us.findIdx? (! ·) = some i) :
    us[i]? = some false ∧ ∀ k < i, us[k]? = some true := by
  obtain ⟨hlt, hi, hbefore⟩ := List.findIdx?_eq_some_iff_getElem.mp h
  refine ⟨?_, fun k hk => ?_⟩
  · rw [List.getElem?_eq_getElem hlt]
    simpa using hi
  · rw [List.getElem?_eq_getElem (Nat.lt_trans hk hlt)]
    simpa using hbefore k hk

variable [Inhabited T] [BEq T]

/-- The slots in use are gone over. -/
theorem slot_steps (hobj : p.objects[b]? = some obj) (hj : j ≤ B) (hused : ∀ k < j, obj.used[k]? = some true) :
    (sections T B).Steps (.slot value b 0) p (.slot value b j) p := by
  induction j with
  | zero => exact .refl
  | succ j ih =>
      refine .concat (ih (Nat.le_of_succ_le hj) fun k hk => hused k (Nat.lt_succ_of_lt hk)) ?_
      simp only [sections, Point.work, if_pos (Nat.lt_of_succ_le hj), hobj, Option.bind_some, hused j (Nat.lt_succ_self j)]

theorem slot_take (hobj : p.objects[b]? = some obj) (hlen : obj.used.length = B)
    (h : obj.used.findIdx? (! ·) = some i) : (sections T B).Steps (.slot value b 0) p (.take value b i) p := by
  obtain ⟨hi, hbefore⟩ := findIdx?_unused h
  have hlt : i < B := hlen ▸ (List.getElem?_eq_some_iff.mp hi).1
  refine .concat (slot_steps hobj (Nat.le_of_lt hlt) hbefore) ?_
  simp only [sections, Point.work, if_pos hlt, hobj, Option.bind_some, hi]

theorem slot_block (hobj : p.objects[b]? = some obj) (hlen : obj.used.length = B)
    (h : obj.used.findIdx? (! ·) = none) : (sections T B).Steps (.slot value b 0) p (.block value (b + 1)) p := by
  refine .concat (slot_steps hobj (Nat.le_refl B) fun k hk => ?_) ?_
  · rw [List.getElem?_eq_getElem (hlen ▸ hk)]
    simpa using List.findIdx?_eq_none_iff.mp h _ (List.getElem_mem (hlen ▸ hk))
  · simp only [sections, Point.work, if_neg (Nat.lt_irrefl B)]

/-- The search of `acquire`, from one of the blocks on. -/
theorem block_search (value : Option T) {os : List (Obj T)} (hos : p.objects.drop b = os)
    (hlen : ∀ o ∈ p.objects, o.used.length = B) :
    match findUnused os b with
    | some (b', i') => (sections T B).Steps (.block value b) p (.take value b' i') p
    | none => (sections T B).EndsFrom (.block value b) p
        (.error (.runtimeError "available != 0 and no available objects!")) p := by
  induction os generalizing b with
  | nil =>
      refine .done ?_
      have hnone : p.objects[b]? = none := List.getElem?_eq_none (List.drop_eq_nil_iff.mp hos)
      simp only [sections, Point.work, hnone]
  | cons obj os ih =>
      have hobj : p.objects[b]? = some obj := by
        rw [← List.head?_drop, hos, List.head?_cons]
      have hrest := ih (b := b + 1) (by rw [← List.drop_drop, hos, List.drop_succ_cons, List.drop_zero])
      have hblock := hlen obj (List.mem_of_getElem? hobj)
      have hnext : (sections T B).Steps (.block value b) p (.block value (b + 1)) p →
          match findUnused os (b + 1) with
          | some (b', i') => (sections T B).Steps (.block value b) p (.take value b' i') p
          | none => (sections T B).EndsFrom (.block value b) p
              (.error (.runtimeError "available != 0 and no available objects!")) p := by
        intro hsteps
        split at hrest
        · exact hsteps.trans hrest
        · exact .of_steps hsteps hrest
      rw [findUnused]
      by_cases hzero : obj.blockAvailable = 0
      · rw [if_pos hzero]
        refine hnext (.concat .refl ?_)
        simp only [sections, Point.work, hobj, if_pos hzero]
      · rw [if_neg hzero]
        have hslot : (sections T B).work (.block value b) p = (.inl (.slot value b 0), p) := by
          simp only [sections, Point.work, hobj, if_neg hzero]
        cases hfind : obj.used.findIdx? (! ·) with
        | some i => exact .cons hslot (slot_take hobj hblock hfind)
        | none => exact hnext (.cons hslot (slot_block hobj hblock hfind))

/-- What is done to a slot that was found. -/
theorem reserve_ends : (sections T B).EndsFrom (.reserve value b i) p ((p.construct value b i).1.map some)
    (p.construct value b i).2 := by
  refine .step rfl (.step rfl ?_)
  cases value with
  | none =>
      refine .done (Prod.ext rfl ?_)
      simp only [sections, Point.work, construct, List.modify_modify_eq]
      rfl
  | some v =>
      refine .step rfl (.done (Prod.ext rfl ?_))
      simp only [construct, List.modify_modify_eq]
      rfl

theorem acquire_ends (h : Shaped B p.objects) (value : Option T) :
    (sections T B).Ends (.acquire value) p ((p.acquire value).1.map some) (p.acquire value).2 := by
  by_cases hzero : p.available = 0
  · have hgrown : p.acquire value = p.makeNew.construct value p.objects.length 0 := by
      simp only [Pool.acquire, if_pos hzero, Pool.makeNew, List.length_append, List.length_singleton, Nat.add_sub_cancel]
    rw [hgrown]
    have hgrow : (sections T B).work ((sections T B).start (.acquire value)) p = (.inl (.makeNew value), p) := by
      simp only [sections, Call.start, Point.work, if_pos hzero]
    exact .step hgrow (.step rfl (.step rfl reserve_ends))
  · have hfirst : (sections T B).work ((sections T B).start (.acquire value)) p = (.inl (.block value 0), p) := by
      simp only [sections, Call.start, Point.work, if_neg hzero]
    have hsearch := block_search value (b := 0) (p := p) List.drop_zero h.length
    cases hfind : findUnused p.objects 0 with
    | none =>
        rw [hfind] at hsearch
        simp only [Pool.acquire, if_neg hzero, hfind]
        exact .step hfirst hsearch
    | some bi =>
        rw [hfind] at hsearch
        simp only [Pool.acquire, if_neg hzero, hfind]
        exact .step hfirst (.of_steps hsearch (.step rfl reserve_ends))

theorem offer_ends (object : Ptr) (h : object ≠ .null) :
    (sections T B).Ends (.offer object h) p ((p.offer object).1.map fun _ => none) (p.offer object).2 := by
  cases hret : p.returning object with
  | none =>
      refine .done ?_
      simp only [sections, Call.start, Point.work, Pool.offer, if_neg h, hret]
      rfl
  | some bi =>
      have hfound : (sections T B).work ((sections T B).start (.offer object h)) p = (.inl (.unuse object bi.1 bi.2), p) := by
        simp only [sections, Call.start, Point.work, hret]
      refine .step hfound (.step rfl (.step rfl (.step rfl (.done ?_))))
      simp only [sections, Point.work, Pool.offer, if_neg h, hret, List.modify_modify_eq]
      rfl

/-! ## The search of `find` -/

/-- The search is in the first block. -/
structure Finding (value : T) (obj : Obj T) (l : Point T) (p : Pool T B) : Prop where
  point : l = .find value 0 ∨ ∃ i, l = .findUsed value 0 i ∨ l = .findObject value 0 i ∧ obj.used[i]? = some true
  first : p.objects[0]? = some obj

/-- It stays there until it comes to the value. -/
theorem Finding.work {v : T} {l : Point T} (h : Finding v obj l p) :
    (∃ l', (sections T B).work l p = (.inl l', p) ∧ Finding v obj l' p) ∨
      ∃ i, (sections T B).work l p = (.inr (.ok (some (.slot 0 i))), p) ∧ Holds v p 0 i := by
  obtain ⟨rfl | ⟨i, rfl | ⟨rfl, hi⟩⟩, hfirst⟩ := h
  · refine .inl ⟨.findUsed v 0 0, ?_, .inr ⟨0, .inl rfl⟩, hfirst⟩
    simp only [sections, Point.work, hfirst]
  · left
    by_cases hlt : i < B
    · cases hi : obj.used[i]? with
      | none =>
          refine ⟨.findUsed v 0 (i + 1), ?_, .inr ⟨i + 1, .inl rfl⟩, hfirst⟩
          simp only [sections, Point.work, if_pos hlt, hfirst, Option.bind_some, hi]
      | some u =>
          cases u with
          | false =>
              refine ⟨.findUsed v 0 (i + 1), ?_, .inr ⟨i + 1, .inl rfl⟩, hfirst⟩
              simp only [sections, Point.work, if_pos hlt, hfirst, Option.bind_some, hi]
          | true =>
              refine ⟨.findObject v 0 i, ?_, .inr ⟨i, .inr ⟨rfl, hi⟩⟩, hfirst⟩
              simp only [sections, Point.work, if_pos hlt, hfirst, Option.bind_some, hi]
    · refine ⟨.find v 0, ?_, .inl rfl, hfirst⟩
      simp only [sections, Point.work, if_neg hlt]
  · cases heq : (obj.object[i]?).any (· == v) with
    | true =>
        obtain ⟨x, hx, hvalue⟩ := (Option.any_eq_true ..).mp heq
        refine .inr ⟨i, ?_, obj, x, hfirst, hi, hx, hvalue⟩
        simp only [sections, Point.work, hfirst, Option.bind_some, heq, if_true]
    | false =>
        refine .inl ⟨.findUsed v 0 (i + 1), ?_, .inr ⟨i + 1, .inl rfl⟩, hfirst⟩
        simp only [sections, Point.work, hfirst, Option.bind_some, heq, Bool.false_eq_true, if_false]

/-- Where the first block does not hold the value the search goes on for ever. -/
theorem Finding.searching {v : T} {l : Point T} (h : Finding v obj l p ∧ ¬ ∃ i, Holds v p 0 i) :
    ∃ l' p', (sections T B).work l p = (.inl l', p') ∧ Finding v obj l' p' ∧ ¬ ∃ i, Holds v p' 0 i := by
  rcases h.1.work with ⟨l', hw, hl'⟩ | ⟨i, -, hi⟩
  · exact ⟨l', p, hw, hl', h.2⟩
  · exact absurd ⟨i, hi⟩ h.2

/-- It does not change the pool. -/
theorem Finding.steps {v : T} {l : Point T} {p' : Pool T B} (hfirst : p.objects[0]? = some obj)
    (h : (sections T B).Steps (.find v 0) p l p') : p' = p ∧ Finding v obj l p := by
  induction h with
  | refl => exact ⟨rfl, .inl rfl, hfirst⟩
  | concat _ hw ih =>
      obtain ⟨rfl, hl⟩ := ih
      rcases hl.work with ⟨l', hw', hl'⟩ | ⟨i, hw', -⟩
      · cases hw.symm.trans hw'
        exact ⟨rfl, hl'⟩
      · cases hw.symm.trans hw'

/-- The slots that do not hold the value are gone over. -/
theorem find_steps {v : T} (hfirst : p.objects[0]? = some obj) (hj : j ≤ B)
    (hbefore : ∀ k < j, (obj.used[k]? == some true && obj.object[k]?.any (· == v)) = false) :
    (sections T B).Steps (.findUsed v 0 0) p (.findUsed v 0 j) p := by
  induction j with
  | zero => exact .refl
  | succ j ih =>
      have hsteps := ih (Nat.le_of_succ_le hj) fun k hk => hbefore k (Nat.lt_succ_of_lt hk)
      have hlt : j < B := Nat.lt_of_succ_le hj
      have hslot := hbefore j (Nat.lt_succ_self j)
      by_cases hused : obj.used[j]? = some true
      · rw [hused, beq_self_eq_true, Bool.true_and] at hslot
        have hobject : (sections T B).work (.findUsed v 0 j) p = (.inl (.findObject v 0 j), p) := by
          simp only [sections, Point.work, if_pos hlt, hfirst, Option.bind_some, hused]
        refine .concat (.concat hsteps hobject) ?_
        simp only [sections, Point.work, hfirst, Option.bind_some, hslot, Bool.false_eq_true, if_false]
      · refine .concat hsteps ?_
        cases hi : obj.used[j]? with
        | none => simp only [sections, Point.work, if_pos hlt, hfirst, Option.bind_some, hi]
        | some u =>
            cases u with
            | false => simp only [sections, Point.work, if_pos hlt, hfirst, Option.bind_some, hi]
            | true => exact absurd hi hused

theorem find_ends {v : T} (hfirst : p.objects[0]? = some obj) (h : findSlot B v obj = some i) :
    (sections T B).Ends (.find v) p (.ok (some (.slot 0 i))) p := by
  obtain ⟨hslot, hlt, hbefore⟩ := List.find?_range_eq_some.mp h
  rw [Bool.and_eq_true, beq_iff_eq] at hslot
  have hlt : i < B := List.mem_range.mp hlt
  have hstart : (sections T B).work ((sections T B).start (.find v)) p = (.inl (.findUsed v 0 0), p) := by
    simp only [sections, Call.start, Point.work, hfirst]
  refine .step hstart (.of_steps (find_steps hfirst (Nat.le_of_lt hlt) fun k hk => ?_) ?_)
  · exact (Bool.not_eq_true' _).mp (hbefore k hk)
  have hobject : (sections T B).work (.findUsed v 0 i) p = (.inl (.findObject v 0 i), p) := by
    simp only [sections, Point.work, if_pos hlt, hfirst, Option.bind_some, hslot.1]
  refine .step hobject (.done ?_)
  simp only [sections, Point.work, hfirst, Option.bind_some, hslot.2, if_true]

omit [Inhabited T] [BEq T] in
theorem first_block (h : Shaped B p.objects) : ∃ obj, p.objects[0]? = some obj := by
  obtain ⟨obj, objs, hobjs⟩ := List.exists_cons_of_ne_nil h.ne_nil
  exact ⟨obj, by rw [hobjs]; rfl⟩

/-- What a call does that is not interrupted. -/
theorem Returns.of_ends {w : World T B} {c : Call T} (h : Shaped B w.pool.objects)
    (hends : (sections T B).Ends c w.pool a p) : ∃ w', Returns w c a w' ∧ w'.pool = p := by
  cases c with
  | acquire value =>
      obtain ⟨rfl, rfl⟩ := hends.unique (acquire_ends h value)
      refine ⟨_, ?_, run_acquire_pool w value⟩
      have hanswer : (Op.run w (.acquire value)).1 = (w.pool.acquire value).1.map some := by
        rw [Op.run]
        split <;> (rename_i heq; rw [heq]; rfl)
      exact hanswer ▸ .acquire value
  | offer object hne =>
      obtain ⟨rfl, rfl⟩ := hends.unique (offer_ends object hne)
      refine ⟨_, ?_, run_offer_pool w object⟩
      have hanswer : (Op.run w (.offer object)).1 = (w.pool.offer object).1.map fun _ => none := by
        rw [Op.run]
        split <;> (rename_i heq; rw [heq]; rfl)
      exact hanswer ▸ .offer object hne
  | find v =>
      obtain ⟨obj, hfirst⟩ := first_block h
      cases hslot : findSlot B v obj with
      | none =>
          have hmiss := findSlot_none (h.length obj (List.mem_of_getElem? hfirst)) hfirst hslot
          exact absurd hends (Sections.not_endsFrom (P := fun l p => Finding v obj l p ∧ ¬ ∃ i, Holds v p 0 i)
            (fun l p hl => Finding.searching hl) ⟨⟨.inl rfl, hfirst⟩, hmiss⟩)
      | some i =>
          obtain ⟨rfl, rfl⟩ := hends.unique (find_ends hfirst hslot)
          have hfind : Pool.find 1 v w.pool = some (.slot 0 i) := by
            simp only [Pool.find, findFrom, hfirst, hslot]
          exact ⟨w, .find hfind, rfl⟩

/-! ## Threads -/

variable {τ : Type}

/-- Whole calls one after the other on a new pool, each with the thread that made it and its answer. -/
inductive Sequence (B defaultSize : Nat) : List (τ × Call T × Answer) → World T B → Prop where
  | nil : Sequence B defaultSize [] (World.new B defaultSize)
  | concat {log : List (τ × Call T × Answer)} {w w' : World T B} {t : τ} {c : Call T} {a : Answer} :
      Sequence B defaultSize log w → Returns w c a w' → Sequence B defaultSize (log ++ [(t, c, a)]) w'

variable {log : List (τ × Call T × Answer)} {w : World T B} {defaultSize : Nat}

theorem Sequence.shaped (h : Sequence B defaultSize log w) : Shaped B w.pool.objects := by
  induction h with
  | nil => exact new_shaped B defaultSize
  | concat _ hret ih =>
      cases hret with
      | acquire value => rw [run_acquire_pool]; exact ih.acquire
      | find => exact ih
      | offer object => rw [run_offer_pool]; exact ih.offer object

/-- Whether the object of a call is constructed without an exception. -/
def Call.Constructs : Call T → Prop
  | .acquire value => value.isSome
  | .find _ | .offer _ _ => True

theorem Sequence.inv (hB : 1 ≤ B) (h : Sequence B defaultSize log w) (hc : ∀ r ∈ log, r.2.1.Constructs) : Inv w := by
  induction h with
  | nil => exact new_inv B defaultSize
  | concat _ hret ih =>
      have hw := ih fun r hr => hc r (List.mem_append_left _ hr)
      have hlast := hc _ List.mem_concat_self
      cases hret with
      | acquire value => exact Op.run_inv hB hw hlast
      | find => exact hw
      | offer object =>
          have hoffer : (Op.offer object : Op T).Constructs := trivial
          exact Op.run_inv hB hw hoffer

theorem Sequence.of_serial (h : Serial (sections T B) (Pool.new B defaultSize) log p) :
    ∃ w, Sequence B defaultSize log w ∧ w.pool = p := by
  induction h with
  | nil => exact ⟨_, .nil, rfl⟩
  | concat _ hends ih =>
      obtain ⟨w, hseq, rfl⟩ := ih
      obtain ⟨w', hret, hpool⟩ := Returns.of_ends hseq.shaped hends
      exact ⟨w', hseq.concat hret, hpool⟩

variable [DecidableEq τ]

/-- Threads that call the pool. -/
def threads (τ T : Type) [DecidableEq τ] [Inhabited T] [BEq T] (B defaultSize : Nat) :
    System (Spinlock.State τ (Pool T B) (Call T) (Point T) Answer) (Spinlock.Act τ (Call T)) :=
  Spinlock.system (sections T B) (Pool.new B defaultSize)

/-- What has been answered is what the same calls answer that are made one after the other, in the order in which the
lock was taken; if no constructor threw in them, the records of the pool agree after them; and while no thread has
the lock the pool is the one that they lead to. -/
structure Sequential (B defaultSize : Nat) (s : Spinlock.State τ (Pool T B) (Call T) (Point T) Answer) : Prop where
  answers : ∃ w : World T B, Sequence B defaultSize (returned s.events) w ∧
    ((∀ r ∈ returned s.events, r.2.1.Constructs) → Bookkept w) ∧ (s.lock = false → s.object = w.pool)
  order : s.lock = false → entered s.events = (returned s.events).map fun r => (r.1, r.2.1)

variable {s s' : Spinlock.State τ (Pool T B) (Call T) (Point T) Answer} {t : τ}

/-- In every interleaving of the steps of any number of threads. -/
theorem reachable_sequential (hB : 1 ≤ B) (h : (threads τ T B defaultSize).Reachable s) : Sequential B defaultSize s := by
  obtain ⟨hs, hlocked⟩ := Spinlock.guarded_of_reachable h
  have hserialised := serialised_of_reachable hlocked
  obtain ⟨object, hserial, hunder⟩ := hserialised.serial
  obtain ⟨w, hseq, hpool⟩ := Sequence.of_serial hserial
  refine ⟨⟨w, hseq, fun hc => (hseq.inv hB hc).bookkept hB, fun hlock => ?_⟩,
    fun hlock => (hserialised.free (hs.of_false hlock)).2⟩
  exact (hunder.of_free (hs.of_false hlock)).2.trans hpool.symm

/-- Two threads at the same time: the second one makes a new block. -/
theorem reachable_sequential_two :
    ∃ s : Spinlock.State Bool (Pool Nat 1) (Call Nat) (Point Nat) Answer, s.lock = false ∧
      returned s.events = [(true, .acquire (some 6), .ok (some (.slot 0 0))),
        (false, .acquire (some 5), .ok (some (.slot 2 0)))] ∧ Sequential 1 1 s :=
  ⟨_, rfl, rfl, reachable_sequential (by decide) (.of_run [.call false (.acquire (some 5)), .call true (.acquire (some 6)),
    .testAndSet true, .work true, .work true, .testAndSet false, .work true, .work true, .work true, .work true, .work true,
    .work true, .destroy true, .testAndSet false, .work false, .work false, .work false, .work false, .work false,
    .work false, .work false, .destroy false] rfl)⟩

/-! ## Who waits -/

/-- The calls that change the pool. -/
def Call.Changes : Call T → Prop
  | .acquire _ | .offer _ _ => True
  | .find _ => False

omit [DecidableEq τ] in
theorem Call.Changes.ends {c : Call T} (h : c.Changes) (hp : Shaped B p.objects) :
    ∃ a p', (sections T B).Ends c p a p' := by
  cases c with
  | acquire value => exact ⟨_, _, acquire_ends hp value⟩
  | offer object hne => exact ⟨_, _, offer_ends object hne⟩
  | find v => exact h.elim

omit [DecidableEq τ] in
theorem shaped_of_serial (h : Serial (sections T B) (Pool.new B defaultSize) log p) : Shaped B p.objects := by
  obtain ⟨w, hseq, rfl⟩ := Sequence.of_serial h
  exact hseq.shaped

/-- A thread that has the lock for a `find` comes to an end if and only if the first block holds the value. -/
theorem find_or_stuck (h : (threads τ T B defaultSize).Reachable s) {v : T} {l : Point T} {d : Sanify.Deferred Unit}
    (hc : s.caller t = .inside (.find v) l d) :
    (∃ a p', (sections T B).EndsFrom l s.object a p') ∧ (∃ i, Holds v s.object 0 i) ∨
      ∃ obj, Spinlock.Stuck (fun l p => Finding v obj l p ∧ ¬ ∃ i, Holds v p 0 i) t (.find v) s := by
  obtain ⟨p, hserial, hsteps⟩ := Spinlock.steps_of_inside h hc
  have hshaped := shaped_of_serial hserial
  obtain ⟨obj, hfirst⟩ := first_block hshaped
  obtain ⟨heq, hl⟩ := Finding.steps hfirst hsteps
  rw [heq] at hsteps ⊢
  by_cases hholds : ∃ i, Holds v p 0 i
  · left
    cases hslot : findSlot B v obj with
    | none => exact absurd hholds (findSlot_none (hshaped.length obj (List.mem_of_getElem? hfirst)) hfirst hslot)
    | some i => exact ⟨⟨_, _, (find_ends hfirst hslot).after hsteps⟩, hholds⟩
  · exact .inr ⟨obj, ⟨l, d, hc, heq ▸ ⟨hl, hholds⟩⟩,
      (Spinlock.guarded_of_reachable h).1.of_holds (Spinlock.holds_of_caller hc trivial)⟩

/-- A `find` of a value that the first block does not hold keeps the lock for ever, and no call returns any more. -/
theorem find_keeps_lock (h : (threads τ T B defaultSize).Reachable s) {v : T} {l : Point T} {d : Sanify.Deferred Unit}
    (hc : s.caller t = .inside (.find v) l d) (hmiss : ¬ ∃ i, Holds v s.object 0 i)
    (hleads : System.Leads (Spinlock.step (sections T B)) s s') :
    s'.lock = true ∧ (∃ l d, s'.caller t = .inside (.find v) l d) ∧ returned s'.events = returned s.events := by
  rcases find_or_stuck h hc with ⟨-, hholds⟩ | ⟨obj, hstuck⟩
  · exact absurd hholds hmiss
  · obtain ⟨⟨⟨l', d', hc', -⟩, hlock⟩, hret, -⟩ := hstuck.leads (fun l p => Finding.searching) h hleads
    exact ⟨hlock, ⟨l', d', hc'⟩, hret⟩

theorem leads_outside_iff (h : (threads τ T B defaultSize).Reachable s) {c : Call T} (hc : s.caller t = .spinning c)
    (hchanges : c.Changes) :
    (∃ s', System.Leads (Spinlock.step (sections T B)) s s' ∧ s'.caller t = .outside) ↔
      ∀ t' v l d, s.caller t' = .inside (.find v) l d → ∃ i, Holds v s.object 0 i := by
  constructor
  · rintro ⟨s', hleads, hout⟩ t' v l d hc'
    rcases find_or_stuck h hc' with ⟨-, hholds⟩ | ⟨obj, hstuck⟩
    · exact hholds
    · have hwait := (hstuck.leads (fun l p => Finding.searching) h hleads).2.2 t c hc
      cases hout.symm.trans hwait
  · intro hfind
    cases hlock : s.lock with
    | false =>
        obtain ⟨a, p, hends⟩ := hchanges.ends (shaped_of_serial (Spinlock.serial_of_unlocked h hlock))
        obtain ⟨s', hleads, hout, -⟩ := Spinlock.leads_returns h hc hlock hends
        exact ⟨s', hleads, hout⟩
    | true =>
        have hends : ∀ t c l d, s.caller t = .inside c l d → ∃ a p, (sections T B).EndsFrom l s.object a p := by
          intro t' c' l d hc'
          obtain ⟨p, hserial, hsteps⟩ := Spinlock.steps_of_inside h hc'
          have hchange : c'.Changes → ∃ a p', (sections T B).EndsFrom l s.object a p' := by
            intro hc₁
            obtain ⟨a, p', hend⟩ := hc₁.ends (shaped_of_serial hserial)
            exact ⟨a, p', hend.after hsteps⟩
          cases c' with
          | acquire value => exact hchange trivial
          | offer object hne => exact hchange trivial
          | find v =>
              rcases find_or_stuck h hc' with ⟨hend, -⟩ | ⟨obj, ⟨l', d', hc₁, -, hmiss⟩, -⟩
              · exact hend
              · exact absurd (hfind t' v l d hc') hmiss
        obtain ⟨t₁, c₁, a₁, p₁, ht₁, is, hrun⟩ := Spinlock.exists_unlocked h hlock hends
        have hne : t ≠ t₁ := by
          rintro rfl
          rw [hc] at ht₁
          exact ht₁
        have h₁ := h.foldlM hrun
        obtain ⟨a, p, hend⟩ := hchanges.ends (shaped_of_serial (Spinlock.serial_of_unlocked h₁ rfl))
        obtain ⟨s', hleads, hout, -⟩ := Spinlock.leads_returns h₁ ((Function.update_of_ne hne ..).trans hc) rfl hend
        exact ⟨s', .trans ⟨is, hrun⟩ hleads, hout⟩

/-- A thread that waits with `acquire` or `offer` can still return if and only if no thread has the lock for a `find` of a
value that the first block does not hold. Such a `find` keeps the lock for ever: in every state that follows the thread is
in it, and no call has returned. -/
theorem waiting_returns_iff (h : (threads τ T B defaultSize).Reachable s) :
    (∀ t c, s.caller t = .spinning c → c.Changes →
      ((∃ s', System.Leads (Spinlock.step (sections T B)) s s' ∧ s'.caller t = .outside) ↔
        ∀ t' v l d, s.caller t' = .inside (.find v) l d → ∃ i, Holds v s.object 0 i)) ∧
      ∀ t v l d, s.caller t = .inside (.find v) l d → (¬ ∃ i, Holds v s.object 0 i) →
        ∀ s', System.Leads (Spinlock.step (sections T B)) s s' →
          s'.lock = true ∧ (∃ l d, s'.caller t = .inside (.find v) l d) ∧ returned s'.events = returned s.events :=
  ⟨fun _ _ hc hchanges => leads_outside_iff h hc hchanges, fun _ _ _ _ hc hmiss _ => find_keeps_lock h hc hmiss⟩

/-- A thread that looks for a value that is in no slot, and one that waits for an object: it gets none, and the first one
keeps the lock. -/
theorem waiting_returns_iff_missing :
    ∃ s : Spinlock.State Bool (Pool Nat 1) (Call Nat) (Point Nat) Answer,
      (∃ l d, s.caller false = .inside (.find 7) l d) ∧ s.caller true = .spinning (.acquire (some 5)) ∧
      (¬ ∃ s', System.Leads (Spinlock.step (sections Nat 1)) s s' ∧ s'.caller true = .outside) ∧
      ∀ s', System.Leads (Spinlock.step (sections Nat 1)) s s' → s'.lock = true ∧ returned s'.events = [] := by
  have hmiss : ¬ ∃ i, Holds 7 (Pool.new 1 1 : Pool Nat 1) 0 i := by
    rintro ⟨i, obj, x, hfirst, hused, -⟩
    cases hfirst
    cases i with
    | zero => cases hused
    | succ i => cases hused
  have h : (threads Bool Nat 1 1).Reachable _ :=
    .of_run [.call false (.find 7), .call true (.acquire (some 5)), .testAndSet false] rfl
  exact ⟨_, ⟨_, _, rfl⟩, rfl,
    fun hret => hmiss (((waiting_returns_iff h).1 true _ rfl trivial).mp hret false 7 _ _ rfl),
    fun s' hleads =>
      have hkeeps := (waiting_returns_iff h).2 false 7 _ _ rfl hmiss s' hleads
      ⟨hkeeps.1, hkeeps.2.2⟩⟩

end Dwhbll.Memory.Pool
