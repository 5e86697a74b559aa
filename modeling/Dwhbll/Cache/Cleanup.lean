import Dwhbll.Cache.Pooled
import Dwhbll.Lib.Transition

/-!
# `cacheCleanupWorker` of `collections/cache.cpp`

What the worker does with one cache once it is awake. Nothing in the library starts the worker; the theorem is about
calls of `addEntry` with passes of it in between.
-/

namespace Dwhbll.Collections.Cache

open Memory
open Memory.Pool (defaultBlockSize Holding)

variable {K V : Type} {sizeK sizeV : Nat}

def returnValues (key value : Option Nat) (c : Cache K V sizeK sizeV) : Except Pool.Exn Unit × Cache K V sizeK sizeV :=
  match c.keys.offer (pointer (defaultBlockSize sizeK) key) with
  | (.error e, keys) => (.error e, { c with keys := keys })
  | (.ok (), keys) =>
      match c.values.offer (pointer (defaultBlockSize sizeV) value) with
      | (.error e, values) => (.error e, { c with keys := keys, values := values })
      | (.ok (), values) => (.ok (), { c with keys := keys, values := values })

def expired (ctime : Int) (e : GenericCache.Entry) : Bool := e.expire < ctime

/-- The loop over the entries, for so many removals at the most: after each it starts again at the beginning. -/
def removeExpired (ctime : Int) : Nat → Cache K V sizeK sizeV → Except Pool.Exn Unit × Cache K V sizeK sizeV
  | 0, c => (.ok (), c)
  | rounds + 1, c =>
      match c.entries.find? (expired ctime) with
      | none => (.ok (), c)
      | some e =>
          match c.returnValues e.key e.value with
          | (.error exn, c) => (.error exn, c)
          | (.ok (), c) => removeExpired ctime rounds { c with entries := c.entries.eraseP (expired ctime) }

/-- One pass over the cache. Each removal is of one entry, so there are no more of them than entries. -/
def cleanup (ctime : Int) (c : Cache K V sizeK sizeV) : Except Pool.Exn Unit × Cache K V sizeK sizeV :=
  removeExpired ctime c.entries.length c

/-! ## Pointers of the entries -/

section

variable {T : Type} {B : Nat} {p : Memory.Pool T B} {qs : List Ptr} {addr : GenericCache.Entry → Option Nat}
  {es : List GenericCache.Entry} {e : GenericCache.Entry}

/-- The entries point to objects of the pool, and only equal ones to the same object. -/
structure Points (p : Memory.Pool T B) (qs : List Ptr) (addr : GenericCache.Entry → Option Nat)
    (es : List GenericCache.Entry) : Prop where
  holding : Holding p qs
  mem : ∀ e ∈ es, ∃ q ∈ qs, addr e = address B q
  inj : ∀ e ∈ es, ∀ e' ∈ es, addr e = addr e' → e = e'

theorem Points.pointer_mem (h : Points p qs addr es) (he : e ∈ es) :
    pointer B (addr e) ∈ qs ∧ addr e = address B (pointer B (addr e)) := by
  obtain ⟨q, hq, haddr⟩ := h.mem e he
  rw [haddr, pointer_of_holding h.holding hq]
  exact ⟨hq, rfl⟩

theorem Points.eq_of_pointer (h : Points p qs addr es) {e' : GenericCache.Entry} (he : e ∈ es) (he' : e' ∈ es)
    (heq : pointer B (addr e) = pointer B (addr e')) : e = e' := by
  apply h.inj e he e' he'
  rw [(h.pointer_mem he).2, heq, ← (h.pointer_mem he').2]

theorem Points.acquire [Inhabited T] (h : Points p qs addr es) (hB : 1 ≤ B) (v : T) :
    ∃ q p', p.acquire (some v) = (.ok q, p') ∧ q ∉ qs ∧ pointer B (address B q) = q ∧
      (∀ q', p'.object? q' = if q' = q then some v else p.object? q') ∧
      ∀ e es', addr e = address B q → (∀ x ∈ es', x = e ∨ x ∈ es) → Points p' (qs ++ [q]) addr es' := by
  obtain ⟨b, i, p', heq, hholding, hfresh, hobject⟩ := h.holding.acquire hB v
  have hlast : Ptr.slot b i ∈ qs ++ [.slot b i] := by simp
  have hnew : ∀ x ∈ es, addr x ≠ address B (.slot b i) := by
    intro x hx hsame
    obtain ⟨q, hq, haddr⟩ := h.mem x hx
    have := address_inj hholding (List.mem_append_left _ hq) hlast (haddr.symm.trans hsame)
    exact hfresh (this ▸ hq)
  refine ⟨_, p', heq, hfresh, pointer_of_holding hholding hlast, hobject, fun e es' he hes' => ⟨hholding, ?_, ?_⟩⟩
  · intro x hx
    rcases hes' x hx with rfl | hx
    · exact ⟨_, hlast, he⟩
    · obtain ⟨q, hq, haddr⟩ := h.mem x hx
      exact ⟨q, List.mem_append_left _ hq, haddr⟩
  · intro x hx y hy hxy
    rcases hes' x hx with rfl | hx <;> rcases hes' y hy with rfl | hy
    · rfl
    · exact absurd (hxy.symm.trans he) (hnew y hy)
    · exact absurd (hxy.trans he) (hnew x hx)
    · exact h.inj x hx y hy hxy

theorem Points.offer (h : Points p qs addr es) (he : e ∈ es) :
    ∃ p', p.offer (pointer B (addr e)) = (.ok (), p') ∧ Holding p' (qs.erase (pointer B (addr e))) ∧
      (∀ q, p'.object? q = if q = pointer B (addr e) then none else p.object? q) ∧
      ∀ es', (∀ x ∈ es', x ∈ es ∧ x ≠ e) → Points p' (qs.erase (pointer B (addr e))) addr es' := by
  obtain ⟨p', heq, hholding, hobject⟩ := h.holding.offer (h.pointer_mem he).1
  refine ⟨p', heq, hholding, hobject, fun es' hes' => ⟨hholding, ?_, ?_⟩⟩
  · intro x hx
    obtain ⟨hx, hne⟩ := hes' x hx
    have hpointer : pointer B (addr x) ≠ pointer B (addr e) := fun heq => hne (h.eq_of_pointer hx he heq)
    exact ⟨_, (List.mem_erase_of_ne hpointer).mpr (h.pointer_mem hx).1, (h.pointer_mem hx).2⟩
  · exact fun x hx y hy => h.inj x (hes' x hx).1 y (hes' y hy).1

end

/-! ## The invariant -/

/-- Each entry is that of a call, and the key and the value of the call are behind its pointers. -/
structure Tracks (adds : List (Add K V)) (c : Cache K V sizeK sizeV) (ks vs : List Ptr) : Prop where
  keys : Points c.keys ks GenericCache.Entry.key c.entries
  values : Points c.values vs GenericCache.Entry.value c.entries
  entry : ∀ e ∈ c.entries, ∃ a ∈ adds, e.expire = a.expire ∧
    c.keys.object? (pointer (defaultBlockSize sizeK) e.key) = some a.key ∧
      c.values.object? (pointer (defaultBlockSize sizeV) e.value) = some a.value

variable {adds : List (Add K V)} {c : Cache K V sizeK sizeV} {ks vs : List Ptr} {ctime : Int}

/-! ## A pass -/

theorem Tracks.returnValues (h : Tracks adds c ks vs) {e : GenericCache.Entry} (he : e ∈ c.entries) :
    ∃ keys values, c.returnValues e.key e.value = (.ok (), { c with keys := keys, values := values }) ∧
      Holding keys (ks.erase (pointer (defaultBlockSize sizeK) e.key)) ∧
      Holding values (vs.erase (pointer (defaultBlockSize sizeV) e.value)) ∧
      (∀ q, keys.object? q = if q = pointer (defaultBlockSize sizeK) e.key then none else c.keys.object? q) ∧
      (∀ q, values.object? q = if q = pointer (defaultBlockSize sizeV) e.value then none else c.values.object? q) ∧
      ∀ es, (∀ x ∈ es, x ∈ c.entries ∧ x ≠ e) →
        Tracks adds { c with keys := keys, values := values, entries := es }
          (ks.erase (pointer (defaultBlockSize sizeK) e.key))
          (vs.erase (pointer (defaultBlockSize sizeV) e.value)) := by
  obtain ⟨keys, hk, hkholding, hkobject, hkeys⟩ := h.keys.offer he
  obtain ⟨values, hv, hvholding, hvobject, hvalues⟩ := h.values.offer he
  refine ⟨keys, values, by simp [Cache.returnValues, hk, hv], hkholding, hvholding, hkobject, hvobject,
    fun es hes => ⟨hkeys es hes, hvalues es hes, fun x hx => ?_⟩⟩
  obtain ⟨hx, hne⟩ := hes x hx
  obtain ⟨a, ha, hexpire, hkey, hvalue⟩ := h.entry x hx
  have hk' : pointer (defaultBlockSize sizeK) x.key ≠ pointer (defaultBlockSize sizeK) e.key :=
    fun heq => hne (h.keys.eq_of_pointer hx he heq)
  have hv' : pointer (defaultBlockSize sizeV) x.value ≠ pointer (defaultBlockSize sizeV) e.value :=
    fun heq => hne (h.values.eq_of_pointer hx he heq)
  exact ⟨a, ha, hexpire, by rw [hkobject, if_neg hk', hkey], by rw [hvobject, if_neg hv', hvalue]⟩

/-- The pointers that a pass gives back. -/
def returned (B : Nat) (addr : GenericCache.Entry → Option Nat) (ctime : Int)
    (es : List GenericCache.Entry) : List Ptr :=
  (es.filter (expired ctime)).map fun e => pointer B (addr e)

/-- What a removal and the rest of the pass leave of an object. -/
theorem returned_of_find? {T : Type} {B : Nat} {addr : GenericCache.Entry → Option Nat} {ctime : Int}
    {es : List GenericCache.Entry} {e : GenericCache.Entry} (h : es.find? (expired ctime) = some e) (q : Ptr)
    (x : Option T) :
    (if q ∈ returned B addr ctime (es.eraseP (expired ctime)) then none
      else if q = pointer B (addr e) then none else x) = if q ∈ returned B addr ctime es then none else x := by
  have hcons : returned B addr ctime es = pointer B (addr e) :: returned B addr ctime (es.eraseP (expired ctime)) := by
    simp [returned, (Lists.filter_of_find? h).1]
  rw [hcons]
  by_cases hq : q = pointer B (addr e)
  · simp [hq]
  · simp [hq]

/-- `c'` is left by a pass over `c` that has removed what has expired. -/
structure Cleaned (ctime : Int) (c c' : Cache K V sizeK sizeV) : Prop where
  entries : c'.entries = c.entries.filter fun e => ! expired ctime e
  keys : ∀ q, c'.keys.object? q =
    if q ∈ returned (defaultBlockSize sizeK) GenericCache.Entry.key ctime c.entries then none else c.keys.object? q
  values : ∀ q, c'.values.object? q =
    if q ∈ returned (defaultBlockSize sizeV) GenericCache.Entry.value ctime c.entries then none else c.values.object? q

theorem cleaned_of_none (h : c.entries.find? (expired ctime) = none) : Cleaned ctime c c := by
  have hnone := List.find?_eq_none.mp h
  have hfilter : c.entries.filter (expired ctime) = [] := List.filter_eq_nil_iff.mpr hnone
  exact ⟨(List.filter_eq_self.mpr fun e he => by simpa using hnone e he).symm, by simp [returned, hfilter],
    by simp [returned, hfilter]⟩

/-- If no entry that has expired is in the list twice, each is removed, and nothing else. -/
theorem Tracks.removeExpired {rounds : Nat} (h : Tracks adds c ks vs)
    (hnodup : (c.entries.filter (expired ctime)).Nodup) (hr : (c.entries.filter (expired ctime)).length ≤ rounds) :
    ∃ c' ks' vs', c.removeExpired ctime rounds = (.ok (), c') ∧ Tracks adds c' ks' vs' ∧ Cleaned ctime c c' := by
  induction rounds generalizing c ks vs with
  | zero =>
      have hfilter := List.eq_nil_of_length_eq_zero (Nat.le_zero.mp hr)
      exact ⟨c, ks, vs, rfl, h, cleaned_of_none (List.find?_eq_none.mpr (List.filter_eq_nil_iff.mp hfilter))⟩
  | succ rounds ih =>
      cases hfind : c.entries.find? (expired ctime) with
      | none => exact ⟨c, ks, vs, by simp [Cache.removeExpired, hfind], h, cleaned_of_none hfind⟩
      | some e =>
          obtain ⟨hfilter, hrest⟩ := Lists.filter_of_find? hfind
          rw [hfilter] at hnodup hr
          obtain ⟨hnot, hnodup'⟩ := List.nodup_cons.mp hnodup
          obtain ⟨keys, values, heq, -, -, hkobject, hvobject, htracks⟩ :=
            h.returnValues (List.mem_of_find?_eq_some hfind)
          obtain ⟨c', ks', vs', heq', htracks', hcleaned⟩ :=
            ih (htracks (c.entries.eraseP (expired ctime)) fun x hx => Lists.mem_eraseP_of_find? hfind hnot hx) hnodup'
              (by simpa using hr)
          refine ⟨c', ks', vs', ?_, htracks', ?_, ?_, ?_⟩
          · simp [Cache.removeExpired, hfind, heq, heq']
          · rw [hcleaned.entries, hrest]
          · intro q
            rw [hcleaned.keys, hkobject]
            exact returned_of_find? hfind q _
          · intro q
            rw [hcleaned.values, hvobject]
            exact returned_of_find? hfind q _

/-! ## A pass that throws -/

/-- What is thrown for a pointer that is not there. -/
def notAllocated : Pool.Exn := .runtimeError "Object was not allocated in the pool!"

theorem offer_cases {T : Type} {B : Nat} {p : Memory.Pool T B} {qs : List Ptr} (h : Holding p qs) (q : Ptr) :
    q ≠ .null ∧ q ∉ qs ∧ p.offer q = (.error notAllocated, p) ∨
      ∃ p' qs', p.offer q = (.ok (), p') ∧ Holding p' qs' ∧ qs' ⊆ qs := by
  by_cases hnull : q = .null
  · exact .inr ⟨p, qs, by simp [Pool.offer, hnull], h, fun x hx => hx⟩
  · by_cases hq : q ∈ qs
    · obtain ⟨p', heq, hholding, -⟩ := h.offer hq
      exact .inr ⟨p', _, heq, hholding, List.erase_subset⟩
    · exact .inl ⟨hnull, hq, Pool.offer_refused hnull (h.inv.returning_none hq)⟩

/-- A pass that gets to an entry whose key is not there throws, if nothing before it does. -/
theorem removeExpired_dangling {rounds : Nat} (hk : Holding c.keys ks) (hv : Holding c.values vs)
    {e : GenericCache.Entry} (he : e ∈ c.entries) (hexpired : expired ctime e = true)
    (hnull : pointer (defaultBlockSize sizeK) e.key ≠ .null) (hnot : pointer (defaultBlockSize sizeK) e.key ∉ ks)
    (hr : (c.entries.filter (expired ctime)).length ≤ rounds) :
    (c.removeExpired ctime rounds).1 = .error notAllocated := by
  induction rounds generalizing c ks vs with
  | zero =>
      have hmem : e ∈ c.entries.filter (expired ctime) := List.mem_filter.mpr ⟨he, hexpired⟩
      rw [List.eq_nil_of_length_eq_zero (Nat.le_zero.mp hr)] at hmem
      cases hmem
  | succ rounds ih =>
      cases hfind : c.entries.find? (expired ctime) with
      | none => exact absurd hexpired (List.find?_eq_none.mp hfind e he)
      | some x =>
          obtain ⟨hfilter, -⟩ := Lists.filter_of_find? hfind
          rw [hfilter] at hr
          rcases offer_cases hk (pointer (defaultBlockSize sizeK) x.key) with
            ⟨-, -, hoffer⟩ | ⟨keys, ks', hoffer, hk', hsub⟩
          · simp [Cache.removeExpired, hfind, Cache.returnValues, hoffer]
          · rcases offer_cases hv (pointer (defaultBlockSize sizeV) x.value) with
              ⟨-, -, hoffer'⟩ | ⟨values, vs', hoffer', hv', -⟩
            · simp [Cache.removeExpired, hfind, Cache.returnValues, hoffer, hoffer']
            · have hne : e ≠ x := by
                rintro rfl
                have hthrows := Pool.offer_refused hnull (hk.inv.returning_none hnot)
                cases hoffer.symm.trans hthrows
              have hmem : e ∈ c.entries.eraseP (expired ctime) := by
                have hcons : e ∈ x :: (c.entries.eraseP (expired ctime)).filter (expired ctime) :=
                  hfilter ▸ List.mem_filter.mpr ⟨he, hexpired⟩
                exact (List.mem_filter.mp ((List.mem_cons.mp hcons).resolve_left hne)).1
              have := ih (c := { c with keys := keys, values := values, entries := c.entries.eraseP (expired ctime) })
                hk' hv' hmem (fun hin => hnot (hsub hin)) (by simpa using hr)
              simpa [Cache.removeExpired, hfind, Cache.returnValues, hoffer, hoffer'] using this

/-- If an entry that has expired is in the list twice, its key is given back twice. -/
theorem Tracks.removeExpired_throws {rounds : Nat} (h : Tracks adds c ks vs)
    (hdup : ¬ (c.entries.filter (expired ctime)).Nodup) (hr : (c.entries.filter (expired ctime)).length ≤ rounds) :
    (c.removeExpired ctime rounds).1 = .error notAllocated := by
  induction rounds generalizing c ks vs with
  | zero =>
      rw [List.eq_nil_of_length_eq_zero (Nat.le_zero.mp hr)] at hdup
      exact absurd List.nodup_nil hdup
  | succ rounds ih =>
      cases hfind : c.entries.find? (expired ctime) with
      | none =>
          rw [List.filter_eq_nil_iff.mpr (List.find?_eq_none.mp hfind)] at hdup
          exact absurd List.nodup_nil hdup
      | some e =>
          obtain ⟨hfilter, -⟩ := Lists.filter_of_find? hfind
          rw [hfilter] at hdup hr
          have he := List.mem_of_find?_eq_some hfind
          obtain ⟨keys, values, heq, hk, hv, -, -, htracks⟩ := h.returnValues he
          have hstep : c.removeExpired ctime (rounds + 1) = Cache.removeExpired ctime rounds
              { c with keys := keys, values := values, entries := c.entries.eraseP (expired ctime) } := by
            simp [Cache.removeExpired, hfind, heq]
          have hr' : ((c.entries.eraseP (expired ctime)).filter (expired ctime)).length ≤ rounds := by simpa using hr
          rw [hstep]
          by_cases hagain : e ∈ (c.entries.eraseP (expired ctime)).filter (expired ctime)
          · have hpointer := (h.keys.pointer_mem he).1
            refine removeExpired_dangling (c := { c with
              keys := keys, values := values, entries := c.entries.eraseP (expired ctime) }) hk hv
              (List.mem_filter.mp hagain).1 (List.mem_filter.mp hagain).2 ?_ ?_ hr'
            · intro hnull
              obtain ⟨b, i, hslot, -⟩ := h.keys.holding.slot_of_mem hpointer
              cases hslot.symm.trans hnull
            · rw [h.keys.holding.inv.nodup.mem_erase_iff]
              exact fun hin => hin.1 rfl
          · refine ih (htracks _ fun x hx => Lists.mem_eraseP_of_find? hfind hagain hx) ?_ hr'
            exact fun hnodup => hdup (List.nodup_cons.mpr ⟨hagain, hnodup⟩)

theorem Tracks.cleanup (h : Tracks adds c ks vs) (ctime : Int) :
    if (c.entries.filter (expired ctime)).Nodup then
      ∃ c' ks' vs', c.cleanup ctime = (.ok (), c') ∧ Tracks adds c' ks' vs' ∧ Cleaned ctime c c'
    else (c.cleanup ctime).1 = .error notAllocated := by
  have hr := List.length_filter_le (expired ctime) c.entries
  split
  · rename_i hnodup
    exact h.removeExpired hnodup hr
  · rename_i hdup
    exact h.removeExpired_throws hdup hr

/-! ## What is never given back -/

/-- The object is in use, and no entry points to it. -/
structure Lost {T : Type} {B : Nat} (p : Memory.Pool T B) (addr : GenericCache.Entry → Option Nat)
    (es : List GenericCache.Entry) (q : Ptr) (x : T) : Prop where
  object : p.object? q = some x
  entry : ∀ e ∈ es, pointer B (addr e) ≠ q

section

variable {T : Type} {B : Nat} {p p' : Memory.Pool T B} {addr : GenericCache.Entry → Option Nat}
  {es es' : List GenericCache.Entry} {q : Ptr} {x : T}

theorem Lost.acquire {k : Ptr} {v : T} {qs : List Ptr} (h : Lost p addr es q x) (hp : Holding p qs) (hk : k ∉ qs)
    (hobject : ∀ q, p'.object? q = if q = k then some v else p.object? q)
    (hes : ∀ e ∈ es', e ∈ es ∨ pointer B (addr e) = k) : Lost p' addr es' q x := by
  have hq : q ∈ qs := hp.isSome_iff.mp (by rw [h.object]; rfl)
  have hne : q ≠ k := fun heq => hk (heq ▸ hq)
  refine ⟨by rw [hobject, if_neg hne, h.object], fun e he => ?_⟩
  rcases hes e he with he | he
  · exact h.entry e he
  · rw [he]
    exact hne.symm

theorem Lost.cleaned (h : Lost p addr es q x)
    (hobject : ∀ q, p'.object? q = if q ∈ returned B addr ctime es then none else p.object? q)
    (hes : ∀ e ∈ es', e ∈ es) : Lost p' addr es' q x := by
  have hnot : q ∉ returned B addr ctime es := by
    intro hmem
    obtain ⟨e, he, heq⟩ := List.mem_map.mp hmem
    exact h.entry e (List.mem_of_mem_filter he) heq
  exact ⟨by rw [hobject, if_neg hnot, h.object], fun e he => h.entry e (hes e he)⟩

end

/-! ## Lookups -/

theorem Tracks.fetch [BEq K] {key : K} {k : Ptr} (h : Tracks adds c ks vs)
    (hk : k = .null ∨ ∃ x, c.keys.object? k = some x ∧ (x == key) = true) (now : Int) :
    (∃ a ∈ adds, (a.key == key) = true ∧ now ≤ a.expire ∧ c.fetch now k = .ok a.value) ∨
      c.fetch now k = .error (.outOfRange "key not found (probably expired)") := by
  cases hfind : c.entries.find? fun x => ¬ now > x.expire ∧ x.key = address (defaultBlockSize sizeK) k with
  | none => exact .inr (by simp only [Cache.fetch, GenericCache.getEntry, hfind])
  | some e =>
      have he := List.mem_of_find?_eq_some hfind
      have hp := List.find?_some hfind
      simp only [gt_iff_lt, Int.not_lt, decide_eq_true_eq] at hp
      obtain ⟨a, ha, hexpire, hkey, hvalue⟩ := h.entry e he
      obtain ⟨v, hv, hvaddr⟩ := h.values.mem e he
      obtain ⟨r, hr⟩ := address_of_holding h.values.holding hv
      have hget : c.toGenericCache.getEntry now (address (defaultBlockSize sizeK) k) = some r := by
        simp only [GenericCache.getEntry, hfind]
        exact hvaddr.trans hr
      have hfetch : c.fetch now k = .ok a.value := by
        rw [hvaddr, hr] at hvalue
        simp only [Cache.fetch, hget, hvalue]
      rcases hk with rfl | ⟨x, hx, heq⟩
      · obtain ⟨q, hq, hqaddr⟩ := h.keys.mem e he
        obtain ⟨n, hn⟩ := address_of_holding h.keys.holding hq
        rw [hp.2, hn] at hqaddr
        cases hqaddr
      · have hmem : k ∈ ks := h.keys.holding.isSome_iff.mp (by rw [hx]; rfl)
        rw [hp.2, pointer_of_holding h.keys.holding hmem, hx, Option.some.injEq] at hkey
        exact .inl ⟨a, ha, hkey ▸ heq, hexpire ▸ hp.1, hfetch⟩

/-! ## Runs -/

inductive Op (K V : Type) where
  | add (a : Add K V)
  | cleanup (ctime : Int)

variable [Inhabited K] [Inhabited V]

/-- An exception ends the run: nothing catches it in the worker. -/
def Op.step (c : Cache K V sizeK sizeV) : Op K V → Option (Cache K V sizeK sizeV)
  | .add a =>
      match c.addEntry a.expire a.key a.value with
      | (.error _, _) => none
      | (.ok _, c) => some c
  | .cleanup ctime =>
      match c.cleanup ctime with
      | (.error _, _) => none
      | (.ok (), c) => some c

def Op.add? : Op K V → Option (Add K V)
  | .add a => some a
  | .cleanup _ => none

theorem new_tracks : Tracks [] (new : Cache K V sizeK sizeV) [] [] :=
  ⟨⟨Pool.new_holding _ _, by simp [new, GenericCache.new], by simp [new, GenericCache.new]⟩,
    ⟨Pool.new_holding _ _, by simp [new, GenericCache.new], by simp [new, GenericCache.new]⟩,
    by simp [new, GenericCache.new]⟩

theorem Tracks.addEntry (h : Tracks adds c ks vs) (a : Add K V) :
    ∃ k v c', c.addEntry a.expire a.key a.value = (.ok k, c') ∧ Tracks (adds ++ [a]) c' (ks ++ [k]) (vs ++ [v]) ∧
      k ∉ ks ∧ v ∉ vs ∧ (∀ q, c'.keys.object? q = if q = k then some a.key else c.keys.object? q) ∧
      (∀ q, c'.values.object? q = if q = v then some a.value else c.values.object? q) ∧
      ∀ e ∈ c'.entries, e ∈ c.entries ∨
        e = ⟨a.expire, address (defaultBlockSize sizeK) k, address (defaultBlockSize sizeV) v⟩ := by
  obtain ⟨k, keys, hk, hkfresh, hkpointer, hkobject, hkeys⟩ := h.keys.acquire (Pool.one_le_defaultBlockSize _) a.key
  obtain ⟨v, values, hv, hvfresh, hvpointer, hvobject, hvalues⟩ :=
    h.values.acquire (Pool.one_le_defaultBlockSize _) a.value
  let e : GenericCache.Entry :=
    ⟨a.expire, address (defaultBlockSize sizeK) k, address (defaultBlockSize sizeV) v⟩
  have hmem : ∀ x ∈ (c.toGenericCache.addEntry e).entries, x = e ∨ x ∈ c.entries := by
    intro x hx
    rw [GenericCache.addEntry_entries] at hx
    split at hx
    · exact .inl (List.mem_singleton.mp hx)
    · exact GenericCache.mem_insertLoop hx
  refine ⟨k, v, { c.toGenericCache.addEntry e with keys := keys, values := values }, ?_,
    ⟨hkeys e _ rfl hmem, hvalues e _ rfl hmem, ?_⟩, hkfresh, hvfresh, hkobject, hvobject, fun x hx => (hmem x hx).symm⟩
  · simp [Cache.addEntry, hk, hv, e]
  · intro x hx
    rcases hmem x hx with rfl | hx
    · exact ⟨a, by simp, rfl, by simp [e, hkpointer, hkobject], by simp [e, hvpointer, hvobject]⟩
    · obtain ⟨a', ha', hexpire, hkey, hvalue⟩ := h.entry x hx
      have hk' : pointer (defaultBlockSize sizeK) x.key ≠ k := fun heq => hkfresh (heq ▸ (h.keys.pointer_mem hx).1)
      have hv' : pointer (defaultBlockSize sizeV) x.value ≠ v := fun heq => hvfresh (heq ▸ (h.values.pointer_mem hx).1)
      exact ⟨a', List.mem_append_left _ ha', hexpire, by rw [hkobject, if_neg hk', hkey],
        by rw [hvobject, if_neg hv', hvalue]⟩

/-- What a step leaves of the objects to which no entry points. -/
structure Leaves (c c' : Cache K V sizeK sizeV) : Prop where
  keys : ∀ q x, Lost c.keys GenericCache.Entry.key c.entries q x → Lost c'.keys GenericCache.Entry.key c'.entries q x
  values : ∀ q x, Lost c.values GenericCache.Entry.value c.entries q x →
    Lost c'.values GenericCache.Entry.value c'.entries q x

theorem Tracks.step {c' : Cache K V sizeK sizeV} {op : Op K V} (h : Tracks adds c ks vs) (hstep : op.step c = some c') :
    ∃ ks' vs', Tracks (adds ++ op.add?.toList) c' ks' vs' ∧ Leaves c c' := by
  cases op with
  | add a =>
      obtain ⟨k, v, c₁, heq, htracks, hk, hv, hkobject, hvobject, hentries⟩ := h.addEntry a
      simp only [Op.step, heq, Option.some.injEq] at hstep
      subst hstep
      have hkmem : k ∈ ks ++ [k] := by simp
      have hvmem : v ∈ vs ++ [v] := by simp
      refine ⟨_, _, htracks, fun q x hlost => ?_, fun q x hlost => ?_⟩
      · refine hlost.acquire h.keys.holding hk hkobject fun e he => (hentries e he).imp_right ?_
        rintro rfl
        exact pointer_of_holding htracks.keys.holding hkmem
      · refine hlost.acquire h.values.holding hv hvobject fun e he => (hentries e he).imp_right ?_
        rintro rfl
        exact pointer_of_holding htracks.values.holding hvmem
  | cleanup ctime =>
      have hpass := h.cleanup ctime
      split at hpass
      · obtain ⟨c₁, ks', vs', heq, htracks, hcleaned⟩ := hpass
        simp only [Op.step, heq, Option.some.injEq] at hstep
        subst hstep
        have hentries : ∀ e ∈ c₁.entries, e ∈ c.entries := by
          intro e he
          rw [hcleaned.entries] at he
          exact List.mem_of_mem_filter he
        exact ⟨ks', vs', by simpa [Op.add?] using htracks, fun q x hlost => hlost.cleaned hcleaned.keys hentries,
          fun q x hlost => hlost.cleaned hcleaned.values hentries⟩
      · cases hcleanup : c.cleanup ctime with
        | mk r c₁ =>
            rw [hcleanup] at hpass
            simp only at hpass
            simp [Op.step, hcleanup, hpass] at hstep

theorem Tracks.run {c' : Cache K V sizeK sizeV} {ops : List (Op K V)} (h : Tracks adds c ks vs)
    (hrun : ops.foldlM Op.step c = some c') :
    ∃ ks' vs', Tracks (adds ++ ops.filterMap Op.add?) c' ks' vs' ∧ Leaves c c' := by
  induction ops generalizing c adds ks vs with
  | nil =>
      cases hrun
      exact ⟨ks, vs, by simpa using h, fun _ _ => id, fun _ _ => id⟩
  | cons op ops ih =>
      rw [List.foldlM_cons] at hrun
      obtain ⟨c₁, hstep, hrun⟩ := Option.bind_eq_some_iff.mp hrun
      obtain ⟨ks₁, vs₁, h₁, hleaves⟩ := h.step hstep
      obtain ⟨ks', vs', h', hleaves'⟩ := ih h₁ hrun
      have hadds : adds ++ op.add?.toList ++ ops.filterMap Op.add? = adds ++ (op :: ops).filterMap Op.add? := by
        cases op <;> simp [Op.add?, List.filterMap_cons]
      exact ⟨ks', vs', hadds ▸ h', fun q x hlost => hleaves'.keys q x (hleaves.keys q x hlost),
        fun q x hlost => hleaves'.values q x (hleaves.values q x hlost)⟩

/-- What holds of a cache after the calls `adds`, with passes of the worker in between. -/
structure Sound [BEq K] (adds : List (Add K V)) (c : Cache K V sizeK sizeV) : Prop where
  getEntry : ∀ rounds now key r, c.getEntry rounds now key = some r →
    (∃ a ∈ adds, (a.key == key) = true ∧ now ≤ a.expire ∧ r = .ok a.value) ∨
      r = .error (.outOfRange "key not found (probably expired)")
  cleanup : ∀ ctime,
    if (c.entries.filter (expired ctime)).Nodup then ∃ c', c.cleanup ctime = (.ok (), c') ∧ Cleaned ctime c c'
    else (c.cleanup ctime).1 = .error notAllocated
  lost : ∀ (ops : List (Op K V)) c', ops.foldlM Op.step c = some c' → Leaves c c'

/-- However calls of `addEntry` and passes of the worker follow each other: a lookup gives back the value of a call with
an equal key that has not expired, or throws; a pass removes what has expired and gives it back once, unless an entry
that has expired is in the list twice, which throws; and what no entry points to stays in the pools for ever. -/
theorem sound_of_run [BEq K] {ops : List (Op K V)} (h : ops.foldlM Op.step new = some c) :
    Sound (ops.filterMap Op.add?) c := by
  obtain ⟨ks, vs, htracks, -⟩ := new_tracks.run h
  rw [List.nil_append] at htracks
  refine ⟨fun rounds now key r hget => ?_, fun ctime => ?_, fun ops' c' hrun => ?_⟩
  · obtain ⟨k, hk, rfl⟩ := Option.map_eq_some_iff.mp hget
    exact htracks.fetch (Pool.object?_of_find hk) now
  · have hpass := htracks.cleanup ctime
    split at hpass
    · rename_i hnodup
      obtain ⟨c', -, -, heq, -, hcleaned⟩ := hpass
      rw [if_pos hnodup]
      exact ⟨c', heq, hcleaned⟩
    · rename_i hdup
      rwa [if_neg hdup]
  · obtain ⟨-, -, -, hleaves⟩ := htracks.run hrun
    exact hleaves

/-- Of two entries one has expired when the worker looks. -/
theorem sound_of_run_expired :
    ∃ c : Cache Nat Nat 1024 1024, c.entries.length = 1 ∧ Sound [⟨30, 1, 10⟩, ⟨20, 2, 20⟩] c := by
  have hrun : ([.add ⟨30, 1, 10⟩, .add ⟨20, 2, 20⟩, .cleanup 25] : List (Op Nat Nat)).foldlM Op.step
      (new : Cache Nat Nat 1024 1024) = some _ := rfl
  exact ⟨_, rfl, sound_of_run hrun⟩

/-- An entry is inserted before each of two that expire later, and its key is given back twice. -/
example : ((run [⟨30, 1, 10⟩, ⟨20, 2, 20⟩, ⟨10, 3, 30⟩] : Cache Nat Nat 1024 1024).cleanup 15).1 =
    .error notAllocated := rfl

end Dwhbll.Collections.Cache
