import Dwhbll.Lib.Circular
import Dwhbll.Lib.Lists
import Dwhbll.Queues.Spsc

/-!
# The invariant of the single-producer queue

With `G` values received and `P` sent, the indices are `G` and `P` modulo `N`, and the slots of the
tickets from `G` to `P` hold the values in between. The two parties act on old copies of each other's
index; that is sound because the other index only ever moves in the direction that helps.
-/

namespace Dwhbll.Concurrency.Spsc

open Circular

variable {T : Type}

/-- The consumer has moved the next value out and not yet released its slot. -/
def Get.taken : Get T → Nat
  | .storeHead _ _ => 1
  | _ => 0

/-- The producer has constructed the next value and not yet published it. -/
def Put.built : Put T → Nat
  | .storeTail _ _ => 1
  | _ => 0

/-- What the producer's locals say: it holds the index `tail`, and past the check there is room. -/
def Put.Ok (c : Capacity) (s : State T) : Put T → Prop
  | .idle => True
  | .loadHead _ t => t = s.tail
  | .construct _ t => t = s.tail ∧ s.sent.length + 1 < s.received.length + c.N
  | .storeTail v t =>
      t = s.tail ∧ s.sent.length + 1 < s.received.length + c.N ∧ s.buffer t = v

/-- What the consumer's locals say: it holds the index `head`, and past the check there is a value. -/
def Get.Ok (s : State T) : Get T → Prop
  | .idle => True
  | .loadTail _ h => h = s.head
  | .move h => h = s.head ∧ s.received.length < s.sent.length
  | .storeHead h v => h = s.head ∧ s.sent[s.received.length]? = some v

structure Inv (c : Capacity) (s : State T) : Prop where
  head_eq : s.head = s.received.length % c.N
  tail_eq : s.tail = s.sent.length % c.N
  isPrefix : s.received <+: s.sent
  room : s.sent.length < s.received.length + c.N
  cells : ∀ k, s.received.length ≤ k → k < s.sent.length → s.sent[k]? = some (s.buffer (k % c.N))
  live_iff : ∀ k, s.received.length ≤ k → k < s.received.length + c.N →
    (s.live (k % c.N) = true ↔ s.received.length + s.get.taken ≤ k ∧ k < s.sent.length + s.put.built)
  put_ok : s.put.Ok c s
  get_ok : s.get.Ok s

theorem Inv.init (c : Capacity) (buffer : Nat → T) : Inv c (.init buffer) where
  head_eq := by simp [State.init]
  tail_eq := by simp [State.init]
  isPrefix := List.prefix_refl _
  room := by have := c.two_le_N; simp [State.init]; omega
  cells := by intro k _ hk; simp [State.init] at hk
  live_iff := by intro k _ _; simp [State.init, Put.built]
  put_ok := trivial
  get_ok := trivial

variable {c : Capacity} {s s' : State T}

theorem Inv.le (h : Inv c s) : s.received.length ≤ s.sent.length := h.isPrefix.length_le

/-- What the producer knows stays true while the consumer moves on. -/
theorem Put.Ok.mono {p : Put T} (h : p.Ok c s) (ht : s'.tail = s.tail) (hs : s'.sent = s.sent)
    (hb : s'.buffer = s.buffer) (hr : s.received.length ≤ s'.received.length) : p.Ok c s' := by
  cases p with
  | idle => trivial
  | loadHead v t => simp only [Put.Ok, ht] at h ⊢; exact h
  | construct v t =>
      simp only [Put.Ok, ht, hs] at h ⊢
      exact ⟨h.1, by omega⟩
  | storeTail v t =>
      simp only [Put.Ok, ht, hs, hb] at h ⊢
      exact ⟨h.1, by omega, h.2.2⟩

/-- What the consumer knows stays true while the producer moves on. -/
theorem Get.Ok.mono {g : Get T} (h : g.Ok s) (hh : s'.head = s.head) (hr : s'.received = s.received)
    (hs : s.sent <+: s'.sent) : g.Ok s' := by
  cases g with
  | idle => trivial
  | loadTail b x => simp only [Get.Ok, hh] at h ⊢; exact h
  | move x =>
      simp only [Get.Ok, hh, hr] at h ⊢
      exact ⟨h.1, Nat.lt_of_lt_of_le h.2 hs.length_le⟩
  | storeHead x v =>
      simp only [Get.Ok, hh, hr] at h ⊢
      exact ⟨h.1, Lists.getElem?_of_prefix hs h.2⟩

/-! ## Steps that only move a program counter -/

theorem Inv.withPut (h : Inv c s) {p : Put T} (hb : p.built = s.put.built) (hp : p.Ok c s) :
    Inv c { s with put := p } :=
  { h with
    live_iff := by rw [hb]; exact h.live_iff
    put_ok := hp.mono rfl rfl rfl (Nat.le_refl _)
    get_ok := h.get_ok.mono rfl rfl (List.prefix_refl _) }

theorem Inv.withGet (h : Inv c s) {g : Get T} (hb : g.taken = s.get.taken) (hg : g.Ok s) :
    Inv c { s with get := g } :=
  { h with
    live_iff := by rw [hb]; exact h.live_iff
    put_ok := h.put_ok.mono rfl rfl rfl (Nat.le_refl _)
    get_ok := hg.mono rfl rfl (List.prefix_refl _) }

/-! ## The checks -/

/-- `next == head` tells a full queue. -/
theorem Inv.full_iff (h : Inv c s) :
    (s.tail + 1) &&& c.MASK = s.head ↔ s.sent.length + 1 = s.received.length + c.N := by
  have h1 := h.le
  have h2 := h.room
  rw [c.and_MASK, h.tail_eq, h.head_eq, Nat.mod_add_mod]
  constructor
  · intro he
    rw [← Nat.add_mod_right s.received.length] at he
    exact mod_inj (g := s.received.length + 1) (by omega) (by omega)
      (by have := c.two_le_N; omega) (by omega) he
  · intro he
    rw [he, Nat.add_mod_right]

/-- `h == tail` tells an empty queue. -/
theorem Inv.empty_iff (h : Inv c s) : s.head = s.tail ↔ s.sent.length = s.received.length := by
  have h1 := h.le
  have h2 := h.room
  rw [h.tail_eq, h.head_eq]
  constructor
  · intro he
    exact (mod_inj (Nat.le_refl _) (by have := c.two_le_N; omega) h1 h2 he).symm
  · intro he
    rw [he]

/-! ## The slots -/

/-- The slot that the producer has next is that of the next ticket only. -/
theorem Inv.ne_tail (h : Inv c s) {k : Nat} (hk1 : s.received.length ≤ k) (hk2 : k < s.received.length + c.N)
    (hk : k ≠ s.sent.length) : k % c.N ≠ s.tail := by
  rw [h.tail_eq]
  exact fun he => hk (mod_inj hk1 hk2 h.le h.room he)

theorem Inv.ne_head (h : Inv c s) {k : Nat} (hk1 : s.received.length ≤ k) (hk2 : k < s.received.length + c.N)
    (hk : k ≠ s.received.length) : k % c.N ≠ s.head := by
  rw [h.head_eq]
  exact fun he => hk (mod_inj hk1 hk2 (Nat.le_refl _) (by have := c.two_le_N; omega) he)

/-- The consumer has taken only what was sent. -/
theorem Inv.taken_le (h : Inv c s) : s.received.length + s.get.taken ≤ s.sent.length := by
  have hg := h.get_ok
  have hle := h.le
  cases hs : s.get with
  | storeHead x v =>
      rw [hs] at hg
      exact (List.getElem?_eq_some_iff.mp hg.2).1
  | _ => exact hle

/-- With what it has built, the producer has not filled the slots. -/
theorem Inv.built_lt (h : Inv c s) : s.sent.length + s.put.built < s.received.length + c.N := by
  have hp := h.put_ok
  have hroom := h.room
  cases hs : s.put with
  | storeTail v t =>
      rw [hs] at hp
      exact hp.2.1
  | _ => exact hroom

theorem Inv.putConstruct (h : Inv c s) {v : T} {t : Nat} (hp : s.put = .construct v t) :
    Inv c { s with
      put := .storeTail v t
      buffer := Function.update s.buffer t v
      live := Function.update s.live t true } := by
  have hok := h.put_ok
  rw [hp] at hok
  obtain ⟨rfl, hroom⟩ := hok
  exact { h with
    cells := by
      intro k hk1 hk2
      dsimp only at hk2 ⊢
      rw [Function.update_of_ne (h.ne_tail hk1 (by have := h.room; omega) (Nat.ne_of_lt hk2))]
      exact h.cells k hk1 hk2
    live_iff := by
      intro k hk1 hk2
      dsimp only [Put.built]
      by_cases hk : k = s.sent.length
      · have htaken := h.taken_le
        rw [hk, ← h.tail_eq, Function.update_self]
        simp only [true_iff]
        omega
      · rw [Function.update_of_ne (h.ne_tail hk1 hk2 hk), h.live_iff k hk1 hk2, hp]
        simp only [Put.built]
        omega
    put_ok := ⟨rfl, hroom, Function.update_self ..⟩
    get_ok := h.get_ok.mono rfl rfl (List.prefix_refl _) }

theorem Inv.putStoreTail (h : Inv c s) {v : T} {t : Nat} (hp : s.put = .storeTail v t) :
    Inv c { s with put := .idle, tail := (t + 1) &&& c.MASK, sent := s.sent ++ [v] } := by
  have hok := h.put_ok
  rw [hp] at hok
  obtain ⟨rfl, hroom, hv⟩ := hok
  exact { h with
    tail_eq := by
      dsimp only
      rw [c.and_MASK, h.tail_eq, Nat.mod_add_mod, List.length_append, List.length_singleton]
    isPrefix := h.isPrefix.trans (List.prefix_append _ _)
    room := by
      dsimp only
      rw [List.length_append, List.length_singleton]
      exact hroom
    cells := by
      intro k hk1 hk2
      dsimp only at hk2 ⊢
      by_cases hk : k < s.sent.length
      · rw [List.getElem?_append_left hk]
        exact h.cells k hk1 hk
      · rw [List.length_append, List.length_singleton] at hk2
        obtain rfl : k = s.sent.length := by omega
        rw [← h.tail_eq, hv, List.getElem?_concat_length]
    live_iff := by
      intro k hk1 hk2
      have hl := h.live_iff k hk1 hk2
      rw [hp] at hl
      rw [hl]
      simp [Put.built]
    put_ok := trivial
    get_ok := h.get_ok.mono rfl rfl (List.prefix_append _ _) }

theorem Inv.getMove (h : Inv c s) {x : Nat} (hg : s.get = .move x) :
    Inv c { s with get := .storeHead x (s.buffer x), live := Function.update s.live x false } := by
  have hok := h.get_ok
  rw [hg] at hok
  obtain ⟨rfl, hlt⟩ := hok
  exact { h with
    live_iff := by
      intro k hk1 hk2
      dsimp only [Get.taken]
      by_cases hk : k = s.received.length
      · rw [hk, ← h.head_eq, Function.update_self]
        simp only [Bool.false_eq_true, false_iff]
        omega
      · rw [Function.update_of_ne (h.ne_head hk1 hk2 hk), h.live_iff k hk1 hk2, hg]
        dsimp only [Get.taken] at *
        omega
    put_ok := h.put_ok.mono rfl rfl rfl (Nat.le_refl _)
    get_ok := by
      refine ⟨rfl, ?_⟩
      rw [h.head_eq]
      exact h.cells _ (Nat.le_refl _) hlt }

theorem Inv.getStoreHead (h : Inv c s) {x : Nat} {v : T} (hg : s.get = .storeHead x v) :
    Inv c { s with get := .idle, head := (x + 1) &&& c.MASK, received := s.received ++ [v] } := by
  have hok := h.get_ok
  rw [hg] at hok
  obtain ⟨rfl, hv⟩ := hok
  have hlen : (s.received ++ [v]).length = s.received.length + 1 := by simp
  exact { h with
    head_eq := by
      dsimp only
      rw [c.and_MASK, h.head_eq, Nat.mod_add_mod, hlen]
    isPrefix := Lists.concat_prefix h.isPrefix hv
    room := by
      have := h.room
      dsimp only
      omega
    cells := by
      intro k hk1 hk2
      dsimp only at hk1
      exact h.cells k (by omega) hk2
    live_iff := by
      intro k hk1 hk2
      have hbuilt := h.built_lt
      dsimp only [Get.taken] at hk1 hk2 ⊢
      rw [hlen] at *
      by_cases hk : k = s.received.length + c.N
      · -- The slot just released, seen one lap later.
        have hold := h.live_iff s.received.length (Nat.le_refl _) (by have := c.two_le_N; omega)
        rw [hg] at hold
        rw [hk, Nat.add_mod_right, hold]
        simp only [Get.taken]
        omega
      · rw [h.live_iff k (by omega) (by omega), hg]
        rfl
    put_ok := h.put_ok.mono rfl rfl rfl (by simp)
    get_ok := trivial }

/-! ## Runs -/

theorem Inv.step {failOnFull : Bool} {a : Act T} {e : Option (Event T)} (h : Inv c s)
    (hst : Spsc.step c failOnFull s a = some (s', e)) : Inv c s' := by
  have hp := h.put_ok
  have hg := h.get_ok
  cases a with
  | putLoadTail v =>
      cases hs : s.put with
      | idle =>
          simp only [Spsc.step, hs, Option.some.injEq, Prod.mk.injEq] at hst
          obtain ⟨rfl, _⟩ := hst
          exact h.withPut (by rw [hs]; rfl) rfl
      | _ => simp [Spsc.step, hs] at hst
  | putLoadHead =>
      cases hs : s.put with
      | loadHead v t =>
          rw [hs] at hp
          obtain rfl := hp
          simp only [Spsc.step, hs] at hst
          split at hst
          · split at hst
            · cases hst; exact h.withPut (by rw [hs]; rfl) trivial
            · cases hst; exact h
          · cases hst
            have hne := mt h.full_iff.mpr ‹_›
            have := h.room
            exact h.withPut (by rw [hs]; rfl) ⟨rfl, by omega⟩
      | _ => simp [Spsc.step, hs] at hst
  | putConstruct =>
      cases hs : s.put with
      | construct v t => simp only [Spsc.step, hs] at hst; cases hst; exact h.putConstruct hs
      | _ => simp [Spsc.step, hs] at hst
  | putStoreTail =>
      cases hs : s.put with
      | storeTail v t => simp only [Spsc.step, hs] at hst; cases hst; exact h.putStoreTail hs
      | _ => simp [Spsc.step, hs] at hst
  | getLoadHead blocking =>
      cases hs : s.get with
      | idle =>
          simp only [Spsc.step, hs] at hst
          cases hst
          exact h.withGet (by rw [hs]; rfl) rfl
      | _ => simp [Spsc.step, hs] at hst
  | getLoadTail =>
      cases hs : s.get with
      | loadTail blocking x =>
          rw [hs] at hg
          obtain rfl := hg
          simp only [Spsc.step, hs] at hst
          split at hst
          · split at hst
            · cases hst; exact h
            · cases hst; exact h.withGet (by rw [hs]; rfl) trivial
          · cases hst
            have hne := mt h.empty_iff.mpr ‹_›
            have := h.le
            exact h.withGet (by rw [hs]; rfl) ⟨rfl, by omega⟩
      | _ => simp [Spsc.step, hs] at hst
  | getMove =>
      cases hs : s.get with
      | move x => simp only [Spsc.step, hs] at hst; cases hst; exact h.getMove hs
      | _ => simp [Spsc.step, hs] at hst
  | getStoreHead =>
      cases hs : s.get with
      | storeHead x v => simp only [Spsc.step, hs] at hst; cases hst; exact h.getStoreHead hs
      | _ => simp [Spsc.step, hs] at hst

theorem Inv.reachable {failOnFull : Bool} (h : (system c failOnFull).Reachable s) : Inv c s := by
  refine Transition.System.Invariant.reachable ⟨?_, ?_⟩ h
  · rintro s ⟨buffer, rfl⟩
    exact Inv.init c buffer
  · rintro s a s' hi ⟨e, hst⟩
    exact hi.step hst

end Dwhbll.Concurrency.Spsc
