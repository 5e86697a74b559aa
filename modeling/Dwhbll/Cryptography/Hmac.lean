import Dwhbll.Lib.Hashes
import Dwhbll.Sha1.Digest

/-!
# `hmac` of `cryptography/hmac.h`

The template over a hash class. `mem` is what the memory of an array holds before something is put there.
-/

namespace Dwhbll.Cryptography

open Hashes

structure Hmac (σ : Type) where
  h : σ
  okeydata : List UInt8

namespace Hmac

variable {σ : Type}

/-- `std::copy` of all bytes to the front of an array. -/
def copyTo (bytes array : List UInt8) : List UInt8 := bytes ++ array.drop bytes.length

section

variable (C : HashClass σ)

/-- `hmac<HASH>`, with `HLEN` and `BLEN` of the hash class. -/
def new (mem : Nat → UInt8) : Hmac σ where
  h := C.new
  okeydata := (List.range C.blockLen).map mem

/-- The first part of `init`, which prepares the key. There is no outcome where `finalize` of the
hash class has none. -/
def ikeydata (key : List UInt8) : Option (List UInt8) :=
  let ikeydata := List.replicate C.blockLen 0
  if key.length > C.blockLen then (C.finalize ikeydata (C.update key C.new)).map Prod.fst
  else some (copyTo key ikeydata)

def init (key : List UInt8) (x : Hmac σ) : Option (Hmac σ) := do
  let ikeydata ← ikeydata C key
  let okeydata := copyTo ikeydata x.okeydata
  let ikeydata := ikeydata.map (· ^^^ 0x36)
  let h := C.update ikeydata x.h
  return { h := h, okeydata := okeydata.map (· ^^^ 0x5C) }

def update (data : List UInt8) (x : Hmac σ) : Hmac σ := { x with h := C.update data x.h }

/-- What is in the output then, and the object. -/
def finalize (mem : Nat → UInt8) (output : List UInt8) (x : Hmac σ) : Option (List UInt8 × Hmac σ) := do
  let hash := (List.range C.hashLen).map mem
  let (hash, h) ← C.finalize hash x.h
  let out := C.update hash (C.update x.okeydata C.new)
  let (output, _) ← C.finalize output out
  return (output, { x with h := h })

/-! ## Sessions -/

/-- `init(key)`, some calls of `update`, and `finalize` into an output in which the hash fits. -/
structure Session where
  key : List UInt8
  datas : List (List UInt8)
  output : List UInt8
  room : C.hashLen ≤ output.length
  mem : Nat → UInt8

def session (s : Session C) (x : Hmac σ) : Option (List UInt8 × Hmac σ) := do
  let x ← init C s.key x
  finalize C s.mem s.output (s.datas.foldl (fun x data => update C data x) x)

/-- The outputs of sessions one after the other on one object. -/
def sessions : List (Session C) → Hmac σ → Option (List (List UInt8))
  | [], _ => some []
  | s :: ss, x => do
      let (output, x) ← session C s x
      let outputs ← sessions ss x
      return output :: outputs

end

/-! ## What a session leaves -/

/-- Between the sessions. -/
structure Ready (C : HashClass σ) (x : Hmac σ) : Prop where
  fresh : C.Fresh x.h
  okeydata : x.okeydata.length = C.blockLen

variable {C : HashClass σ} {H : List UInt8 → List UInt8} {x : Hmac σ} {output : List UInt8}

theorem copyTo_of_length {bytes array : List UInt8} (h : bytes.length = array.length) : copyTo bytes array = bytes := by
  rw [copyTo, List.drop_of_length_le (Nat.le_of_eq h.symm), List.append_nil]

theorem update_foldl (datas : List (List UInt8)) (x : Hmac σ) :
    datas.foldl (fun x data => update C data x) x = { x with h := C.updates datas x.h } := by
  induction datas generalizing x with
  | nil => rfl
  | cons data datas ih => exact ih (update C data x)

theorem new_ready (mem : Nat → UInt8) : Ready C (new C mem) :=
  ⟨.new, by rw [new, List.length_map, List.length_range]⟩

theorem ikeydata_eq (h : C.Computes H) (key : List UInt8) : ikeydata C key = some (blockKey H C.blockLen key) := by
  unfold ikeydata blockKey
  split
  · have hroom : C.hashLen ≤ (List.replicate C.blockLen (0 : UInt8)).length := by
      rw [List.length_replicate]
      exact C.le
    obtain ⟨s', heq⟩ := h.finalize .new [key] _ hroom
    rw [List.flatten_singleton, List.drop_replicate] at heq
    change (C.finalize _ (C.updates [key] C.new)).map Prod.fst = _
    rw [heq, ← h.length key]
    rfl
  · simp only [copyTo, List.drop_replicate]

theorem init_eq (h : C.Computes H) (hx : x.okeydata.length = C.blockLen) (key : List UInt8) :
    init C key x = some
      { h := C.update ((blockKey H C.blockLen key).map (· ^^^ 0x36)) x.h
        okeydata := (blockKey H C.blockLen key).map (· ^^^ 0x5C) } := by
  have hcopy : copyTo (blockKey H C.blockLen key) x.okeydata = blockKey H C.blockLen key :=
    copyTo_of_length ((blockKey_length h.length_le key).trans hx.symm)
  simp only [init, ikeydata_eq h, Option.bind_eq_bind, Option.bind_some, hcopy]
  rfl

theorem finalize_eq (h : C.Computes H) {s : σ} (hs : C.Fresh s) (datas : List (List UInt8)) (okeydata : List UInt8)
    (mem : Nat → UInt8) (hout : C.hashLen ≤ output.length) :
    ∃ s', finalize C mem output { h := C.updates datas s, okeydata := okeydata } =
      some (H (okeydata ++ H datas.flatten) ++ output.drop C.hashLen, { h := s', okeydata := okeydata }) ∧
        C.Fresh s' := by
  have hhash : ((List.range C.hashLen).map mem).length = C.hashLen := by rw [List.length_map, List.length_range]
  obtain ⟨s', hinner, hs'⟩ := h.finalize_fresh hs datas (Nat.le_of_eq hhash.symm)
  rw [List.drop_of_length_le (Nat.le_of_eq hhash), List.append_nil] at hinner
  obtain ⟨_, houter⟩ := h.finalize .new [okeydata, H datas.flatten] output hout
  have hflatten : [okeydata, H datas.flatten].flatten = okeydata ++ H datas.flatten := by simp
  rw [hflatten] at houter
  refine ⟨s', ?_, hs'⟩
  simp only [finalize, hinner, Option.bind_eq_bind, Option.bind_some]
  change (C.finalize output (C.updates [okeydata, H datas.flatten] C.new)).bind _ = _
  rw [houter]
  rfl

/-- A session puts the value of RFC 2104 at the front of its output, and leaves the object as it found it. -/
theorem session_eq (h : C.Computes H) (hx : Ready C x) (s : Session C) :
    ∃ x', session C s x =
      some (hmac H C.blockLen s.key s.datas.flatten ++ s.output.drop C.hashLen, x') ∧ Ready C x' := by
  obtain ⟨s', heq, hs'⟩ := finalize_eq h hx.fresh ((blockKey H C.blockLen s.key).map (· ^^^ 0x36) :: s.datas)
    ((blockKey H C.blockLen s.key).map (· ^^^ 0x5C)) s.mem s.room
  refine ⟨⟨s', (blockKey H C.blockLen s.key).map (· ^^^ 0x5C)⟩, ?_, hs', ?_⟩
  · simp only [session, init_eq h hx.okeydata, Option.bind_eq_bind, Option.bind_some, update_foldl]
    exact heq
  · rw [List.length_map]
    exact blockKey_length h.length_le s.key

/-- Whatever the sessions before were, each outputs the value of RFC 2104 for its key and its message. -/
theorem sessions_eq_hmac (h : C.Computes H) (mem : Nat → UInt8) (ss : List (Session C)) :
    sessions C ss (new C mem) =
      some (ss.map fun s => hmac H C.blockLen s.key s.datas.flatten ++ s.output.drop C.hashLen) := by
  have hrun : ∀ {x}, Ready C x → sessions C ss x =
      some (ss.map fun s => hmac H C.blockLen s.key s.datas.flatten ++ s.output.drop C.hashLen) := by
    induction ss with
    | nil =>
        intro x _
        rfl
    | cons s ss ih =>
        intro x hx
        obtain ⟨x', heq, hx'⟩ := session_eq h hx s
        simp only [sessions, heq, Option.bind_eq_bind, Option.bind_some, ih hx']
        rfl
  exact hrun (new_ready mem)

/-- With `SHA1`: a key that is longer than a block, and then a short one with a message in two pieces. -/
theorem sessions_eq_hmac_sha1 :
    sessions SHA1.hashClass
        [⟨List.replicate 80 0xAA, [[1]], List.replicate 20 0, by decide, fun _ => 0⟩,
          ⟨[0x0B], [[2], [3]], List.replicate 20 0, by decide, fun _ => 0⟩] (new SHA1.hashClass fun _ => 0) =
      some [hmac SHA1.digest 64 (List.replicate 80 0xAA) [1], hmac SHA1.digest 64 [0x0B] [2, 3]] := by
  have hdrop : (List.replicate 20 (0 : UInt8)).drop SHA1.hashClass.hashLen = [] := rfl
  rw [sessions_eq_hmac SHA1.hashClass_computes]
  simp only [List.map_cons, List.map_nil, hdrop, List.append_nil]
  rfl

end Hmac

end Dwhbll.Cryptography
