import Dwhbll.Lib.Hashes
import Dwhbll.Sha1.Lemmas

/-!
# `SHA1` as a hash class
-/

namespace Dwhbll.Cryptography.SHA1

open Blocks Hashes

def BLEN : Nat := 64

def hashClass : HashClass SHA1 where
  hashLen := HLEN
  blockLen := BLEN
  le := by decide
  new := new
  update := update
  finalize := finalize

/-- What a new object that is given the message at once puts into its output. -/
def digest (m : List UInt8) : List UInt8 :=
  match (new.update m).finalize (List.replicate HLEN 0) with
  | none => []
  | some (output, _) => output

variable {m rest output : List UInt8} {full : List (List UInt8)} {s : SHA1}

/-- The hash in terms of the blocks of the message. -/
theorem digest_eq (hs : Splits 64 m full rest) :
    digest m = digestBytes ((full ++ padBlocks (64 * full.length + rest.length) rest).foldl compress initialChain) := by
  obtain ⟨full', rest', hs', heq⟩ := update_new m
  obtain ⟨rfl, rfl⟩ := hs.unique hs'
  have hlen : (List.replicate HLEN (0 : UInt8)).length = HLEN := List.length_replicate
  rw [digest, heq, finalize_fed hs.rest (Nat.le_of_eq hlen.symm)]
  simp only [List.drop_of_length_le (Nat.le_of_eq hlen), List.append_nil]

theorem digest_length (m : List UInt8) : (digest m).length = HLEN := by
  obtain ⟨full, rest, hs, -⟩ := update_new m
  rw [digest_eq hs]
  rfl

/-- The object was given the bytes since it was made or its last `finalize`. -/
def Has (s : SHA1) (m : List UInt8) : Prop := ∃ log full rest, Splits 64 m full rest ∧ s = fed log full rest

theorem new_has : Has new [] := ⟨[], [], [], Splits.nil (by decide), rfl⟩

theorem Has.update (h : Has s m) (data : List UInt8) : Has (s.update data) (m ++ data) := by
  obtain ⟨log, full, rest, hs, rfl⟩ := h
  obtain ⟨full', rest', hs', heq⟩ := update_fed log hs data
  exact ⟨log, full', rest', hs', heq⟩

theorem Has.finalize (h : Has s m) (hout : HLEN ≤ output.length) :
    ∃ s', s.finalize output = some (digest m ++ output.drop HLEN, s') ∧ Has s' [] := by
  obtain ⟨log, full, rest, hs, rfl⟩ := h
  rw [digest_eq hs]
  exact ⟨_, finalize_fed hs.rest hout, ⟨_, [], [], Splits.nil (by decide), rfl⟩⟩

theorem hashClass_computes : hashClass.Computes digest :=
  HashClass.computes_of_invariant Has digest_length new_has (fun data h => h.update data) fun h hout =>
    h.finalize hout

end Dwhbll.Cryptography.SHA1
