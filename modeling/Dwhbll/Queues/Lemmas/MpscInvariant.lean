import Dwhbll.Lib.Circular
import Dwhbll.Lib.Lists
import Dwhbll.Queues.Mpsc

/-!
# The invariant of the multi-producer queue

`freed` cells have been released so far, so the cells serve the tickets of the lap that starts there:
the cell of a ticket `k` of that lap has `seq = k` until its put publishes it, and `seq = k + 1` from
then on. A put whose ticket is of a later lap finds a smaller `seq`. All of this is said with unbounded
numbers, and holds as long as fewer than `2^63` tickets were taken.
-/

namespace Dwhbll.Concurrency.Mpsc

open Circular

variable {P T : Type}

/-- The value and the ticket of a put that is under way. -/
def Put.pending : Put T → Option (T × Nat)
  | .idle => none
  | .load v pos | .construct v pos | .storeSeq v pos => some (v, pos)

/-- Past the check: the cell is the put's own. -/
def Put.owner : Put T → Option Nat
  | .construct _ pos | .storeSeq _ pos => some pos
  | _ => none

/-- The consumer has released the cell at `head` and not yet advanced. -/
def Get.released : Get T → Nat
  | .advance _ => 1
  | _ => 0

/-- The consumer has moved the value at `head` out and not yet released the cell. -/
def Get.taken : Get T → Bool
  | .storeSeq _ => true
  | _ => false

def State.freed (s : State P T) : Nat := s.received.length + s.get.released

def Get.Ok (s : State P T) : Get T → Prop
  | .idle | .load _ => True
  | .move => s.received.length ∈ s.accepted
  | .storeSeq v => s.received.length ∈ s.accepted ∧ s.tickets[s.received.length]? = some v
  | .advance v => s.tickets[s.received.length]? = some v

structure Inv (c : Capacity) (s : State P T) : Prop where
  head_eq : s.head = s.received.length
  tail_eq : s.tail = s.tickets.length
  isPrefix : s.received <+: s.tickets
  freed_accepted : ∀ k < s.freed, k ∈ s.accepted
  accepted_lt : ∀ k ∈ s.accepted, k < s.tickets.length ∧ k < s.freed + c.N
  accepted_nodup : s.accepted.Nodup
  rejected_lt : ∀ k ∈ s.rejected, k < s.tickets.length ∧ k ∉ s.accepted
  pending : ∀ p v k, (s.put p).pending = some (v, k) →
    s.tickets[k]? = some v ∧ k ∉ s.accepted ∧ k ∉ s.rejected
  unique : ∀ p q v w k, (s.put p).pending = some (v, k) → (s.put q).pending = some (w, k) → p = q
  settled : ∀ k < s.tickets.length,
    k ∈ s.accepted ∨ k ∈ s.rejected ∨ ∃ p v, (s.put p).pending = some (v, k)
  owner_lt : ∀ p k, (s.put p).owner = some k → k < s.freed + c.N
  built : ∀ p v k, s.put p = .storeSeq v k → s.data (k % c.N) = v
  seq_eq : ∀ k, s.freed ≤ k → k < s.freed + c.N →
    s.seq (k % c.N) = if k ∈ s.accepted then k + 1 else k
  cells : ∀ k ∈ s.accepted, s.freed ≤ k → s.tickets[k]? = some (s.data (k % c.N))
  live_iff : ∀ k, s.freed ≤ k → k < s.freed + c.N →
    (s.live (k % c.N) = true ↔
      (k ∈ s.accepted ∧ ¬ (k = s.freed ∧ s.get.taken = true)) ∨ ∃ p v, s.put p = .storeSeq v k)
  get_ok : s.get.Ok s

theorem Inv.init (c : Capacity) (data : Nat → T) : Inv c (.init data : State P T) where
  head_eq := rfl
  tail_eq := rfl
  isPrefix := List.prefix_refl _
  freed_accepted := by intro k hk; simp [State.init, State.freed, Get.released] at hk
  accepted_lt := by intro k hk; cases hk
  accepted_nodup := List.nodup_nil
  rejected_lt := by intro k hk; cases hk
  pending := by intro p v k h; cases h
  unique := by intro p q v w k h; cases h
  settled := by intro k hk; cases hk
  owner_lt := by intro p k h; cases h
  built := by intro p v k h; cases h
  seq_eq := by
    intro k _ hk
    simp only [State.init, State.freed, Get.released, List.length_nil, Nat.zero_add] at hk ⊢
    simp [Nat.mod_eq_of_lt hk]
  cells := by intro k hk; cases hk
  live_iff := by intro k _ _; simp [State.init]
  get_ok := trivial

variable {c : Capacity} {s s' : State P T}

/-- A ticket that is not published is not of an earlier lap. -/
theorem Inv.freed_le (h : Inv c s) {k : Nat} (hk : k ∉ s.accepted) : s.freed ≤ k :=
  Nat.le_of_not_lt fun hlt => hk (h.freed_accepted k hlt)

theorem Inv.received_le (h : Inv c s) : s.received.length ≤ s.tickets.length := h.isPrefix.length_le

theorem Get.Ok.mono {g : Get T} (h : g.Ok s) (hr : s'.received = s.received)
    (ha : ∀ k ∈ s.accepted, k ∈ s'.accepted) (ht : s.tickets <+: s'.tickets) : g.Ok s' := by
  cases g with
  | idle | load b => trivial
  | move => simp only [Get.Ok, hr] at h ⊢; exact ha _ h
  | storeSeq w => simp only [Get.Ok, hr] at h ⊢; exact ⟨ha _ h.1, Lists.getElem?_of_prefix ht h.2⟩
  | advance w => simp only [Get.Ok, hr] at h ⊢; exact Lists.getElem?_of_prefix ht h

/-- While the value at `head` is out of its cell, that ticket is a published one. -/
theorem Inv.taken_accepted (h : Inv c s) (ht : s.get.taken = true) : s.freed ∈ s.accepted := by
  have hg := h.get_ok
  cases hs : s.get with
  | storeSeq w =>
      rw [hs] at hg
      simpa [State.freed, hs, Get.released] using hg.1
  | _ => rw [hs] at ht; cases ht

/-! ## Signed differences -/

theorem diff_eq {a b : Nat} (ha : a < 2 ^ 63) (hb : b < 2 ^ 63) : diff a b = (a : Int) - b := by
  unfold diff
  exact Int.bmod_eq_of_le (by omega) (by omega)

/-- The consumer's difference is `-1` for a free cell and `0` for a published one. -/
theorem diff_succ {a : Nat} (ha : a < 2 ^ 63) (b : Bool) :
    diff (if b then a + 1 else a) ((a + 1) % 2 ^ 64) = if b then 0 else -1 := by
  rw [Nat.mod_eq_of_lt (by omega)]
  unfold diff
  cases b with
  | true => simp
  | false =>
      have hd : (a : Int) - ((a + 1 : Nat) : Int) = -1 := by omega
      simp only [Bool.false_eq_true, if_false, hd]
      decide

end Dwhbll.Concurrency.Mpsc
