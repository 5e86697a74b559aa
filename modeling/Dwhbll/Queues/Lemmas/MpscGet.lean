import Dwhbll.Queues.Lemmas.MpscPut

/-!
# The consumer's steps keep the invariant, and so do all runs
-/

namespace Dwhbll.Concurrency.Mpsc

open Circular

variable {P T : Type} {c : Capacity} {s s' : State P T} {p : P} {v : T} {pos : Nat}

/-- A step of the consumer that releases no cell changes nothing that the producers rely on. -/
theorem Inv.withConsumer (h : Inv c s) {head : Nat} {received : List T} {get : Get T} {live : Nat → Bool}
    (hhead : head = received.length) (hpre : received <+: s.tickets)
    (hfreed : received.length + get.released = s.freed)
    (hlive : ∀ k, s.freed ≤ k → k < s.freed + c.N → (live (k % c.N) = true ↔
      (k ∈ s.accepted ∧ ¬ (k = s.freed ∧ get.taken = true)) ∨ ∃ p v, s.put p = .storeSeq v k))
    (hok : get.Ok { s with head, received, get, live }) : Inv c { s with head, received, get, live } := by
  have hf : State.freed { s with head, received, get, live } = s.freed := hfreed
  exact { h with
    head_eq := hhead
    isPrefix := hpre
    freed_accepted := by rw [hf]; exact h.freed_accepted
    accepted_lt := by rw [hf]; exact h.accepted_lt
    owner_lt := by rw [hf]; exact h.owner_lt
    seq_eq := by rw [hf]; exact h.seq_eq
    cells := by rw [hf]; exact h.cells
    live_iff := by rw [hf]; exact hlive
    get_ok := hok }

/-- The consumer moves on without touching a cell. -/
theorem Inv.withGet (h : Inv c s) {g : Get T} (hr : g.released = s.get.released)
    (ht : g.taken = s.get.taken) (hg : g.Ok s) : Inv c { s with get := g } := by
  refine h.withConsumer h.head_eq h.isPrefix ?_ ?_ (hg.mono rfl (fun _ hk => hk) (List.prefix_refl _))
  · rw [hr]; rfl
  · rw [ht]; exact h.live_iff

theorem Inv.getMove (h : Inv c s) (hg : s.get = .move) :
    Inv c { s with
      get := .storeSeq (s.data (s.head % c.N))
      live := Function.update s.live (s.head % c.N) false } := by
  have hok := h.get_ok
  rw [hg] at hok
  have hf : s.freed = s.received.length := by simp [State.freed, hg, Get.released]
  have hN := c.two_le_N
  refine h.withConsumer h.head_eq h.isPrefix hf.symm ?_ ?_
  · intro k hk1 hk2
    rw [Function.update_apply, h.head_eq, ← hf]
    split
    · have hk := mod_inj hk1 hk2 (Nat.le_refl s.freed) (by omega) ‹_›
      subst k
      simp only [Bool.false_eq_true, false_iff, Get.taken, and_self, not_true_eq_false, and_false, false_or]
      rintro ⟨q, w, hq⟩
      rw [hf] at hq
      exact (h.pending q w _ (by rw [hq]; rfl)).2.1 hok
    · have hne : k ≠ s.freed := by rintro rfl; exact absurd rfl ‹_›
      rw [h.live_iff k hk1 hk2, hg]
      simp [Get.taken, hne]
  · rw [h.head_eq]
    exact ⟨hok, h.cells _ hok (Nat.le_of_eq hf)⟩

theorem Inv.getStoreSeq (h : Inv c s) (hK : s.tickets.length < 2 ^ 63) (hg : s.get = .storeSeq v) :
    Inv c { s with
      get := .advance v
      seq := Function.update s.seq (s.head % c.N) ((s.head + c.N) % 2 ^ 64) } := by
  have hok := h.get_ok
  rw [hg] at hok
  have hf : s.freed = s.received.length := by simp [State.freed, hg, Get.released]
  have hN := c.two_le_N
  have hN' := c.N_le
  have hle := h.received_le
  let seq := Function.update s.seq (s.head % c.N) ((s.head + c.N) % 2 ^ 64)
  have hrel : State.freed { s with get := .advance v, seq := seq } = s.freed + 1 := by
    rw [hf]; rfl
  -- The cell at `head` is released: as the cell of the next lap's ticket it is free.
  have hnext : s.freed + c.N ∉ s.accepted := by
    intro hm
    have := h.accepted_lt _ hm
    omega
  exact { h with
    freed_accepted := by
      rw [hrel]
      intro k hk
      by_cases hk' : k < s.freed
      · exact h.freed_accepted k hk'
      · rw [show k = s.received.length by omega]
        exact hok.1
    accepted_lt := by
      rw [hrel]
      intro k hk
      have := h.accepted_lt k hk
      dsimp only
      omega
    owner_lt := by
      rw [hrel]
      intro q k hq
      have := h.owner_lt q k hq
      omega
    seq_eq := by
      rw [hrel]
      intro k hk1 hk2
      dsimp only
      rw [Function.update_apply, h.head_eq]
      by_cases hk : k = s.freed + c.N
      · rw [if_pos (by rw [hk, hf, Nat.add_mod_right]), if_neg (by rw [hk]; exact hnext), hk, hf,
          Nat.mod_eq_of_lt (by omega)]
      · rw [if_neg, h.seq_eq k (by omega) (by omega)]
        intro he
        have := mod_inj (g := s.freed) (by omega) (by omega) (Nat.le_of_eq hf) (by omega) he
        omega
    cells := by
      rw [hrel]
      intro k hk hle'
      exact h.cells k hk (by omega)
    live_iff := by
      rw [hrel]
      intro k hk1 hk2
      dsimp only
      by_cases hk : k = s.freed + c.N
      · have hold := h.live_iff s.freed (Nat.le_refl _) (by omega)
        rw [hk, Nat.add_mod_right, hold, hg]
        simp only [Get.taken, and_self, not_true_eq_false, and_false, false_or, hnext, false_and]
        constructor
        · rintro ⟨q, w, hq⟩
          rw [hf] at hq
          exact absurd hok.1 (h.pending q w _ (by rw [hq]; rfl)).2.1
        · rintro ⟨q, w, hq⟩
          have := h.owner_lt q _ (by rw [hq]; rfl)
          omega
      · rw [h.live_iff k (by omega) (by omega), hg]
        have : k ≠ s.freed := by omega
        simp [Get.taken, this]
    get_ok := hok.2 }

theorem Inv.getAdvance (h : Inv c s) (hK : s.tickets.length < 2 ^ 63) (hg : s.get = .advance v) :
    Inv c { s with
      get := .idle, head := (s.head + 1) % 2 ^ 64, received := s.received ++ [v] } := by
  have hok := h.get_ok
  rw [hg] at hok
  have hlt := (List.getElem?_eq_some_iff.mp hok).1
  refine h.withConsumer ?_ (Lists.concat_prefix h.isPrefix hok) ?_ ?_ trivial
  · rw [h.head_eq, List.length_append, List.length_singleton, Nat.mod_eq_of_lt (by omega)]
  · simp [State.freed, hg, Get.released]
  · have hl := h.live_iff
    rw [hg] at hl
    exact hl

/-! ## Steps and runs -/

/-- A put's load finds its own ticket exactly when its lap has come, and less before that. -/
theorem Inv.diff_put (h : Inv c s) (hK : s.tickets.length < 2 ^ 63)
    (hp : (s.put p).pending = some (v, pos)) :
    if pos < s.freed + c.N then diff (s.seq (pos % c.N)) pos = 0 else diff (s.seq (pos % c.N)) pos < 0 := by
  obtain ⟨hv, hna, _⟩ := h.pending p v pos hp
  have hlt := (List.getElem?_eq_some_iff.mp hv).1
  have hlo := h.freed_le hna
  have hN := c.two_le_N
  split
  · rw [h.seq_eq pos hlo ‹_›, if_neg hna, diff_eq (by omega) (by omega)]
    omega
  · -- The ticket of the current lap with the same cell.
    let k := s.freed + (pos - s.freed) % c.N
    have hk : k % c.N = pos % c.N := by
      simp only [k, Nat.add_mod_mod]
      rw [show s.freed + (pos - s.freed) = pos by omega]
    have hk1 : (pos - s.freed) % c.N < c.N := c.mod_lt _
    have hk2 : k + c.N ≤ pos := by
      have hd := Nat.div_add_mod (pos - s.freed) c.N
      have : 1 ≤ (pos - s.freed) / c.N := Nat.div_pos (by omega) (by omega)
      have := Nat.mul_le_mul_left c.N this
      omega
    have hs : s.seq (pos % c.N) ≤ k + 1 := by
      rw [← hk, h.seq_eq k (by omega) (by omega)]
      split <;> omega
    rw [diff_eq (by omega) (by omega)]
    omega

/-- The consumer's load finds a published cell exactly when the put with ticket `head` has returned. -/
theorem Inv.diff_get (h : Inv c s) (hK : s.tickets.length < 2 ^ 63) (hf : s.get.released = 0) :
    diff (s.seq (s.head % c.N)) ((s.head + 1) % 2 ^ 64) < 0 ↔ s.received.length ∉ s.accepted := by
  have hle := h.received_le
  have hN := c.two_le_N
  have hfreed : s.freed = s.received.length := by simp [State.freed, hf]
  rw [h.head_eq, h.seq_eq _ (Nat.le_of_eq hfreed) (by omega)]
  have hd := diff_succ (a := s.received.length) (by omega) (decide (s.received.length ∈ s.accepted))
  simp only [decide_eq_true_eq] at hd
  rw [hd]
  split <;> simp_all

variable [DecidableEq P] {failOnFull : Bool} {a : Act P T} {e : Option (Event T)}

theorem tickets_mono (hst : Mpsc.step c failOnFull s a = some (s', e)) :
    s.tickets.length ≤ s'.tickets.length := by
  cases a <;> simp only [Mpsc.step] at hst <;> repeat' split at hst
  all_goals cases hst
  all_goals simp

theorem Inv.step (h : Inv c s) (hst : Mpsc.step c failOnFull s a = some (s', e))
    (hK : s'.tickets.length < 2 ^ 63) : Inv c s' := by
  have hK' : s.tickets.length < 2 ^ 63 := Nat.lt_of_le_of_lt (tickets_mono hst) hK
  cases a with
  | putFetchAdd p v =>
      cases hs : s.put p with
      | idle =>
          simp only [Mpsc.step, hs] at hst
          cases hst
          exact h.putFetchAdd (by omega) hs
      | _ => simp [Mpsc.step, hs] at hst
  | putLoad p =>
      cases hs : s.put p with
      | load v pos =>
          have hd := h.diff_put hK' (show (s.put p).pending = some (v, pos) by rw [hs]; rfl)
          simp only [Mpsc.step, hs, c.and_MASK] at hst
          split at hst
          · cases hst
            refine h.withPut (by rw [hs]; rfl) ?_ (by simp [hs]) (by simp)
            rintro k ⟨⟩
            by_contra hlt
            rw [if_neg hlt] at hd
            omega
          · split at hst
            · cases hst; exact h.putReject hs
            · cases hst; exact h
      | _ => simp [Mpsc.step, hs] at hst
  | putConstruct p =>
      cases hs : s.put p with
      | construct v pos =>
          simp only [Mpsc.step, hs, c.and_MASK] at hst
          cases hst
          exact h.putConstruct hs
      | _ => simp [Mpsc.step, hs] at hst
  | putStoreSeq p =>
      cases hs : s.put p with
      | storeSeq v pos =>
          simp only [Mpsc.step, hs, c.and_MASK] at hst
          cases hst
          exact h.putStoreSeq hK' hs
      | _ => simp [Mpsc.step, hs] at hst
  | getCall blocking =>
      cases hs : s.get with
      | idle =>
          simp only [Mpsc.step, hs] at hst
          cases hst
          exact h.withGet (by rw [hs]; rfl) (by rw [hs]; rfl) trivial
      | _ => simp [Mpsc.step, hs] at hst
  | getLoad =>
      cases hs : s.get with
      | load blocking =>
          have hd := h.diff_get hK' (by rw [hs]; rfl)
          simp only [Mpsc.step, hs, c.and_MASK] at hst
          split at hst
          · split at hst
            · cases hst; exact h
            · cases hst
              exact h.withGet (by rw [hs]; rfl) (by rw [hs]; rfl) trivial
          · cases hst
            have hacc : s.received.length ∈ s.accepted := by
              by_contra hn
              exact ‹¬ _› (hd.mpr hn)
            exact h.withGet (by rw [hs]; rfl) (by rw [hs]; rfl) hacc
      | _ => simp [Mpsc.step, hs] at hst
  | getMove =>
      cases hs : s.get with
      | move => simp only [Mpsc.step, hs, c.and_MASK] at hst; cases hst; exact h.getMove hs
      | _ => simp [Mpsc.step, hs] at hst
  | getStoreSeq =>
      cases hs : s.get with
      | storeSeq v =>
          simp only [Mpsc.step, hs, c.and_MASK] at hst
          cases hst
          exact h.getStoreSeq hK' hs
      | _ => simp [Mpsc.step, hs] at hst
  | getAdvance =>
      cases hs : s.get with
      | advance v => simp only [Mpsc.step, hs] at hst; cases hst; exact h.getAdvance hK' hs
      | _ => simp [Mpsc.step, hs] at hst

/-- The invariant holds in every state in which fewer than `2^63` tickets were taken. -/
theorem Inv.reachable (h : (system c failOnFull).Reachable s) (hK : s.tickets.length < 2 ^ 63) :
    Inv c s := by
  have hinv : (system c failOnFull).Invariant fun s : State P T => s.tickets.length < 2 ^ 63 → Inv c s :=
    { init := by rintro s ⟨data, rfl⟩ _; exact Inv.init c data
      step := by
        rintro s a s' hi ⟨e, hst⟩ hK
        exact (hi (Nat.lt_of_le_of_lt (tickets_mono hst) hK)).step hst hK }
  exact hinv.reachable h hK

end Dwhbll.Concurrency.Mpsc
