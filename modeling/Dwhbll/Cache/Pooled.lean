import Dwhbll.Cache.Entries
import Dwhbll.Pool.Contents

/-!
# `cache` of `collections/cache.h`

The keys and the values are in a pool each, and the list of `generic_cache` holds their addresses. A slot of a pool
has the number of the slot as its address.
-/

namespace Dwhbll.Collections

open Memory
open Memory.Pool (defaultBlockSize Holding Filling)

def address (B : Nat) : Ptr → Option Nat
  | .slot b i => some (b * B + i)
  -- No pointer of a pool is foreign.
  | .null | .foreign _ => none

def pointer (B : Nat) : Option Nat → Ptr
  | some a => .slot (a / B) (a % B)
  | none => .null

/-- `sizeK` and `sizeV` are the sizes of a key and of a value. -/
structure Cache (K V : Type) (sizeK sizeV : Nat) extends GenericCache where
  keys : Pool K (defaultBlockSize sizeK)
  values : Pool V (defaultBlockSize sizeV)

namespace Cache

/-- `std::out_of_range` with its text. `dangling` is a pointer whose object is not in use. -/
inductive Exn where
  | outOfRange (what : String)
  | dangling
  deriving DecidableEq, Repr

variable {K V : Type} {sizeK sizeV : Nat}

/-- What `getEntry` does with the pointer to the key; `now` is the time at which the list is searched. -/
def fetch (now : Int) (k : Ptr) (c : Cache K V sizeK sizeV) : Except Exn V :=
  match c.toGenericCache.getEntry now (address (defaultBlockSize sizeK) k) with
  | none => .error (.outOfRange "key not found (probably expired)")
  | some r =>
      match c.values.object? (pointer (defaultBlockSize sizeV) (some r)) with
      | none => .error .dangling
      | some value => .ok value

/-- The search for the key has so many rounds at the most. -/
def getEntry [BEq K] (rounds : Nat) (now : Int) (key : K) (c : Cache K V sizeK sizeV) : Option (Except Exn V) :=
  (c.keys.find rounds key).map fun k => c.fetch now k

variable [Inhabited K] [Inhabited V]

def new : Cache K V sizeK sizeV := { GenericCache.new with keys := .new _ 16, values := .new _ 16 }

def addEntry (expireTime : Int) (key : K) (value : V) (c : Cache K V sizeK sizeV) :
    Except Pool.Exn Ptr × Cache K V sizeK sizeV :=
  match c.keys.acquire (some key) with
  | (.error e, keys) => (.error e, { c with keys := keys })
  | (.ok k, keys) =>
      match c.values.acquire (some value) with
      | (.error e, values) => (.error e, { c with keys := keys, values := values })
      | (.ok v, values) =>
          let generic := c.toGenericCache.addEntry ⟨expireTime, address (defaultBlockSize sizeK) k,
            address (defaultBlockSize sizeV) v⟩
          (.ok k, { generic with keys := keys, values := values })

/-- The arguments of a call of `addEntry`. -/
structure Add (K V : Type) where
  expire : Int
  key : K
  value : V

def run (adds : List (Add K V)) : Cache K V sizeK sizeV :=
  adds.foldl (fun c a => (c.addEntry a.expire a.key a.value).2) new

/-- What a lookup comes to after these calls, if no entry is removed: that of the first call with an equal key, if its
key is in the first block of the pool. Its value is there as long as it has not expired, and if it expires before the
entry of the very first call. Without such a call the search for the key does not end. -/
def lookup [BEq K] (sizeK : Nat) (now : Int) (key : K) : List (Add K V) → Option (Except Exn V)
  | [] => none
  | first :: rest =>
      if first.key == key then
        some (if now ≤ first.expire then .ok first.value else .error (.outOfRange "key not found (probably expired)"))
      else
        ((rest.take (defaultBlockSize sizeK - 1)).find? (·.key == key)).map fun a =>
          if now ≤ a.expire ∧ a.expire < first.expire then .ok a.value
          else .error (.outOfRange "key not found (probably expired)")

end Cache

/-! ## Addresses -/

variable {B b i : Nat} {q q' : Ptr}

theorem pointer_address (hi : i < B) : pointer B (address B (.slot b i)) = .slot b i := by
  have hB : 0 < B := by omega
  simp only [address, pointer, Ptr.slot.injEq]
  rw [Nat.mul_comm b B, Nat.mul_add_div hB, Nat.mul_add_mod, Nat.div_eq_of_lt hi, Nat.mod_eq_of_lt hi]
  exact ⟨rfl, rfl⟩

theorem pointer_of_holding {T : Type} {p : Memory.Pool T B} {qs : List Ptr} (h : Holding p qs) (hq : q ∈ qs) :
    pointer B (address B q) = q := by
  obtain ⟨b, i, rfl, hi⟩ := h.slot_of_mem hq
  exact pointer_address hi

theorem address_inj {T : Type} {p : Memory.Pool T B} {qs : List Ptr} (h : Holding p qs) (hq : q ∈ qs) (hq' : q' ∈ qs)
    (heq : address B q = address B q') : q = q' := by
  rw [← pointer_of_holding h hq, heq, pointer_of_holding h hq']

theorem address_of_holding {T : Type} {p : Memory.Pool T B} {qs : List Ptr} (h : Holding p qs) (hq : q ∈ qs) :
    ∃ a, address B q = some a := by
  obtain ⟨b, i, rfl, -⟩ := h.slot_of_mem hq
  exact ⟨_, rfl⟩

namespace Cache

variable {K V : Type} {sizeK sizeV : Nat} {c : Cache K V sizeK sizeV} {adds : List (Add K V)} {ks vs : List Ptr}

/-! ## The entries of the calls -/

/-- The entries of calls that got the pointers `ks` and `vs`. -/
def stored (sizeK sizeV : Nat) (adds : List (Add K V)) (ks vs : List Ptr) : List GenericCache.Entry :=
  (adds.zip (ks.zip vs)).map fun x =>
    ⟨x.1.expire, address (defaultBlockSize sizeK) x.2.1, address (defaultBlockSize sizeV) x.2.2⟩

structure Filled (adds : List (Add K V)) (c : Cache K V sizeK sizeV) (ks vs : List Ptr) : Prop where
  keys : Filling (adds.map Add.key) c.keys ks
  values : Filling (adds.map Add.value) c.values vs
  entries : c.toGenericCache = GenericCache.run (stored sizeK sizeV adds ks vs)

theorem Filled.length_keys (h : Filled adds c ks vs) : ks.length = adds.length := by simpa using h.keys.length

theorem Filled.length_values (h : Filled adds c ks vs) : vs.length = adds.length := by simpa using h.values.length

/-- A stored entry has the pointers of its call. -/
theorem mem_stored {e : GenericCache.Entry} (he : e ∈ stored sizeK sizeV adds ks vs) :
    ∃ (j : Nat) (a : Add K V) (k v : Ptr), adds[j]? = some a ∧ ks[j]? = some k ∧ vs[j]? = some v ∧
      e = ⟨a.expire, address (defaultBlockSize sizeK) k, address (defaultBlockSize sizeV) v⟩ := by
  obtain ⟨x, hx, rfl⟩ := List.mem_map.mp he
  obtain ⟨j, hj⟩ := List.mem_iff_getElem?.mp hx
  obtain ⟨ha, hkv⟩ := List.getElem?_zip_eq_some.mp hj
  obtain ⟨hk, hv⟩ := List.getElem?_zip_eq_some.mp hkv
  exact ⟨j, x.1, x.2.1, x.2.2, ha, hk, hv, rfl⟩

/-- The keys of two calls have two addresses. -/
theorem Filled.entry_inj (h : Filled adds c ks vs) {e e' : GenericCache.Entry} (he : e ∈ stored sizeK sizeV adds ks vs)
    (he' : e' ∈ stored sizeK sizeV adds ks vs) (hkey : e.key = e'.key) : e = e' := by
  obtain ⟨j, a, k, v, ha, hk, hv, rfl⟩ := mem_stored he
  obtain ⟨j', a', k', v', ha', hk', hv', rfl⟩ := mem_stored he'
  have hholding := h.keys.holding
  obtain rfl := address_inj hholding (List.mem_of_getElem? hk) (List.mem_of_getElem? hk') hkey
  have hlt : j < ks.length := (List.getElem?_eq_some_iff.mp hk).1
  obtain rfl := (List.getElem?_inj hlt hholding.inv.nodup).mp (hk.trans hk'.symm)
  cases ha.symm.trans ha'
  cases hv.symm.trans hv'
  rfl

theorem Filled.mem_of_entries (h : Filled adds c ks vs) {e : GenericCache.Entry} (he : e ∈ c.entries) :
    e ∈ stored sizeK sizeV adds ks vs := by
  rw [h.entries] at he
  cases hes : stored sizeK sizeV adds ks vs with
  | nil =>
      rw [hes] at he
      cases he
  | cons first rest =>
      rw [hes, GenericCache.mem_entries_iff] at he
      rcases he with rfl | ⟨he, -⟩
      · exact List.mem_cons_self
      · exact List.mem_cons_of_mem _ he

theorem Filled.getEntry_stored (h : Filled adds c ks vs) (now : Int) {e : GenericCache.Entry}
    (he : e ∈ stored sizeK sizeV adds ks vs) :
    c.toGenericCache.getEntry now e.key = if now ≤ e.expire ∧ e ∈ c.entries then e.value else none := by
  rw [GenericCache.getEntry]
  cases hfind : c.entries.find? fun x => ¬ now > x.expire ∧ x.key = e.key with
  | none =>
      have hnone := List.find?_eq_none.mp hfind
      rw [if_neg]
      rintro ⟨hnow, hmem⟩
      have := hnone e hmem
      simp at this
      omega
  | some x =>
      have hx := List.mem_of_find?_eq_some hfind
      have hp := List.find?_some hfind
      simp only [gt_iff_lt, Int.not_lt, decide_eq_true_eq] at hp
      obtain rfl := h.entry_inj (h.mem_of_entries hx) he hp.2
      rw [if_pos ⟨hp.1, hx⟩]

/-- The entry of a call, by its position. -/
theorem getElem?_stored {j : Nat} {a : Add K V} {k v : Ptr} (ha : adds[j]? = some a) (hk : ks[j]? = some k)
    (hv : vs[j]? = some v) : (stored sizeK sizeV adds ks vs)[j]? =
      some ⟨a.expire, address (defaultBlockSize sizeK) k, address (defaultBlockSize sizeV) v⟩ := by
  have hzip : (adds.zip (ks.zip vs))[j]? = some (a, k, v) :=
    List.getElem?_zip_eq_some.mpr ⟨ha, List.getElem?_zip_eq_some.mpr ⟨hk, hv⟩⟩
  simp [stored, hzip]

/-! ## Lookups -/

theorem Filled.fetch (h : Filled adds c ks vs) (now : Int) {j : Nat} {a : Add K V} {k v : Ptr} (ha : adds[j]? = some a)
    (hk : ks[j]? = some k) (hv : vs[j]? = some v) :
    c.fetch now k =
      if now ≤ a.expire ∧
          ⟨a.expire, address (defaultBlockSize sizeK) k, address (defaultBlockSize sizeV) v⟩ ∈ c.entries then
        .ok a.value
      else .error (.outOfRange "key not found (probably expired)") := by
  have hget := h.getEntry_stored now (List.mem_of_getElem? (getElem?_stored ha hk hv))
  have hvalue : c.values.object? v = some a.value := by simp [h.values.objects j v hv, ha]
  obtain ⟨r, hr⟩ := address_of_holding h.values.holding (List.mem_of_getElem? hv)
  have hpointer := pointer_of_holding h.values.holding (List.mem_of_getElem? hv)
  simp only [hr] at hget hpointer ⊢
  rw [Cache.fetch, hget]
  by_cases hlisted : now ≤ a.expire ∧ ⟨a.expire, address (defaultBlockSize sizeK) k, some r⟩ ∈ c.entries
  · simp [hlisted, hpointer, hvalue]
  · simp [hlisted]

/-- The entries of the first call, and of those that expire before it, are in the list. -/
theorem Filled.mem_entries_iff {first : Add K V} {rest : List (Add K V)} (h : Filled (first :: rest) c ks vs) {j : Nat}
    {a : Add K V} {k v : Ptr} (ha : (first :: rest)[j]? = some a) (hk : ks[j]? = some k) (hv : vs[j]? = some v) :
    ⟨a.expire, address (defaultBlockSize sizeK) k, address (defaultBlockSize sizeV) v⟩ ∈ c.entries ↔
      j = 0 ∨ a.expire < first.expire := by
  obtain ⟨k₀, ks', rfl⟩ := List.exists_cons_of_length_eq_add_one h.length_keys
  obtain ⟨v₀, vs', rfl⟩ := List.exists_cons_of_length_eq_add_one h.length_values
  have hstored : stored sizeK sizeV (first :: rest) (k₀ :: ks') (v₀ :: vs') =
      ⟨first.expire, address (defaultBlockSize sizeK) k₀, address (defaultBlockSize sizeV) v₀⟩ ::
        stored sizeK sizeV rest ks' vs' := rfl
  rw [h.entries, hstored, GenericCache.mem_entries_iff]
  cases j with
  | zero =>
      cases ha
      cases hk
      cases hv
      simp
  | succ j =>
      have hmem : ⟨a.expire, address (defaultBlockSize sizeK) k, address (defaultBlockSize sizeV) v⟩ ∈
          stored sizeK sizeV rest ks' vs' := List.mem_of_getElem? (getElem?_stored ha hk hv)
      constructor
      · rintro (heq | ⟨-, hlt⟩)
        · have hkey := congrArg GenericCache.Entry.key heq
          obtain rfl := address_inj h.keys.holding (List.mem_of_getElem? hk) List.mem_cons_self hkey
          have hj := (List.getElem?_inj (i := j + 1) (j := 0) (List.getElem?_eq_some_iff.mp hk).1
            h.keys.holding.inv.nodup).mp (hk.trans rfl)
          cases hj
        · exact .inr hlt
      · rintro (h0 | hlt)
        · cases h0
        · exact .inr ⟨hmem, hlt⟩

/-- The value of a call whose key is in the first block. -/
theorem Filled.fetch_first {first : Add K V} {rest : List (Add K V)} (h : Filled (first :: rest) c ks vs) (now : Int)
    {j : Nat} {a : Add K V} (ha : (first :: rest)[j]? = some a) (hj : j < defaultBlockSize sizeK) :
    c.fetch now (.slot 0 j) =
      if now ≤ a.expire ∧ (j = 0 ∨ a.expire < first.expire) then .ok a.value
      else .error (.outOfRange "key not found (probably expired)") := by
  have hlt := (List.getElem?_eq_some_iff.mp ha).1
  have hk := h.keys.getElem?_first hj (h.length_keys ▸ hlt)
  have hv := List.getElem?_eq_getElem (h.length_values ▸ hlt)
  simp only [h.fetch now ha hk hv, h.mem_entries_iff ha hk hv]

/-! ## Runs of `addEntry` -/

variable [Inhabited K] [Inhabited V]

theorem new_filled : Filled [] (new : Cache K V sizeK sizeV) [] [] := by
  have hlt : ∀ sizeof, 16 * defaultBlockSize sizeof < 2 ^ 64 := by
    intro sizeof
    have := Pool.defaultBlockSize_le sizeof
    omega
  exact ⟨Pool.new_filling (Pool.one_le_defaultBlockSize _) (by decide) (hlt _),
    Pool.new_filling (Pool.one_le_defaultBlockSize _) (by decide) (hlt _), rfl⟩

theorem Filled.addEntry (h : Filled adds c ks vs) (a : Add K V) :
    ∃ k v, Filled (adds ++ [a]) (c.addEntry a.expire a.key a.value).2 (ks ++ [k]) (vs ++ [v]) := by
  obtain ⟨k, keys, hk, hkeys⟩ := h.keys.acquire (Pool.one_le_defaultBlockSize _) a.key
  obtain ⟨v, values, hv, hvalues⟩ := h.values.acquire (Pool.one_le_defaultBlockSize _) a.value
  refine ⟨k, v, ?_⟩
  simp only [Cache.addEntry, hk, hv]
  refine ⟨by simpa using hkeys, by simpa using hvalues, ?_⟩
  have hstored : stored sizeK sizeV (adds ++ [a]) (ks ++ [k]) (vs ++ [v]) =
      stored sizeK sizeV adds ks vs ++
        [⟨a.expire, address (defaultBlockSize sizeK) k, address (defaultBlockSize sizeV) v⟩] := by
    simp [stored, List.zip_append, h.length_keys, h.length_values]
  rw [hstored, GenericCache.run_concat, ← h.entries]

theorem run_filled (adds : List (Add K V)) : ∃ ks vs, Filled adds (run adds : Cache K V sizeK sizeV) ks vs := by
  induction adds using List.reverseRecOn with
  | nil => exact ⟨[], [], new_filled⟩
  | append_singleton adds a ih =>
      obtain ⟨ks, vs, h⟩ := ih
      obtain ⟨k, v, h'⟩ := h.addEntry a
      refine ⟨ks ++ [k], vs ++ [v], ?_⟩
      rwa [run, List.foldl_concat]

/-- After any calls of `addEntry`, a lookup comes to what `lookup` says; where that is nothing, no number of rounds is
enough for the search. -/
theorem getEntry_run [BEq K] (adds : List (Add K V)) (rounds : Nat) (now : Int) (key : K) :
    (run adds : Cache K V sizeK sizeV).getEntry (rounds + 1) now key = lookup sizeK now key adds := by
  obtain ⟨ks, vs, h⟩ : ∃ ks vs, Filled adds (run adds : Cache K V sizeK sizeV) ks vs := run_filled adds
  generalize (run adds : Cache K V sizeK sizeV) = c at h
  obtain ⟨B, hB⟩ := Nat.exists_eq_add_of_le' (Pool.one_le_defaultBlockSize sizeK)
  rw [getEntry, h.keys.find]
  cases adds with
  | nil => simp [lookup]
  | cons first rest =>
      rw [lookup, hB, List.map_cons, List.take_succ_cons, List.findIdx?_cons, Nat.add_sub_cancel]
      by_cases hfirst : first.key == key
      · have hfetch := h.fetch_first now (j := 0) rfl (by omega)
        simp [hfirst, hfetch]
      · rw [if_neg hfirst, if_neg hfirst, ← List.map_take, List.findIdx?_map, List.find?_eq_bind_findIdx?_getElem?]
        cases hidx : (rest.take B).findIdx? ((· == key) ∘ Add.key) with
        | none =>
            have hidx' : (rest.take B).findIdx? (fun a => a.key == key) = none := hidx
            simp [hidx']
        | some j =>
            have hidx' : (rest.take B).findIdx? (fun a => a.key == key) = some j := hidx
            obtain ⟨hlt, -, -⟩ := List.findIdx?_eq_some_iff_getElem.mp hidx
            have ha := List.getElem?_eq_getElem hlt
            have hjB : j < B := Nat.lt_of_lt_of_le hlt (List.length_take_le ..)
            have hfetch := h.fetch_first now (j := j + 1) ((List.getElem?_take_of_lt hjB).symm.trans ha) (by omega)
            simp [hidx', ha, hfetch]

end Cache

end Dwhbll.Collections
