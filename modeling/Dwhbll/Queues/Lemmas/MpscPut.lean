import Dwhbll.Queues.Lemmas.MpscInvariant

/-!
# The producers' steps keep the invariant
-/

namespace Dwhbll.Concurrency.Mpsc

open Circular

variable {P T : Type} [DecidableEq P] {c : Capacity} {s : State P T} {p q : P} {v w : T} {pos k : Nat}

/-! ## One producer among the others -/

section Update

variable {f : P → Put T} {x : Put T}

/-- A put that goes on with its ticket leaves all tickets as they are. -/
theorem pending_update (hx : x.pending = (f p).pending) (q : P) :
    (Function.update f p x q).pending = (f q).pending := by
  rw [Function.update_apply]
  split
  · subst q; exact hx
  · rfl

theorem pending_idle (h : (Function.update f p .idle q).pending = some (w, k)) :
    q ≠ p ∧ (f q).pending = some (w, k) := by
  rw [Function.update_apply] at h
  split at h
  · cases h
  · exact ⟨‹_›, h⟩

theorem owner_update {n : Nat} (hx : ∀ k, x.owner = some k → k < n) (hf : ∀ q k, (f q).owner = some k → k < n) :
    ∀ q k, (Function.update f p x q).owner = some k → k < n := by
  intro q k h
  rw [Function.update_apply] at h
  split at h
  · exact hx k h
  · exact hf q k h

/-- A put before its store is another one than `p`, if `p` is not there. -/
theorem storeSeq_of_update (hx : ∀ w, x ≠ .storeSeq w k) (h : Function.update f p x q = .storeSeq w k) :
    q ≠ p ∧ f q = .storeSeq w k := by
  rw [Function.update_apply] at h
  split at h
  · exact absurd h (hx w)
  · exact ⟨‹_›, h⟩

/-- An update leaves alone whether a ticket is before its store, if it is the ticket of neither the old nor the new
put there. -/
theorem storeSeq_update (h1 : ∀ w, f p ≠ .storeSeq w k) (h2 : ∀ w, x ≠ .storeSeq w k) :
    (∃ q w, Function.update f p x q = .storeSeq w k) ↔ ∃ q w, f q = .storeSeq w k := by
  constructor
  · rintro ⟨q, w, hq⟩
    exact ⟨q, w, (storeSeq_of_update h2 hq).2⟩
  · rintro ⟨q, w, hq⟩
    refine ⟨q, w, ?_⟩
    rw [Function.update_of_ne ?_]
    · exact hq
    · rintro rfl
      exact h1 w hq

end Update

omit [DecidableEq P] in
/-- Within the lap, only the ticket itself has its cell. -/
theorem Inv.cell_inj (h : Inv c s) (hp : (s.put p).pending = some (v, pos)) (ho : (s.put p).owner = some pos)
    (hk1 : s.freed ≤ k) (hk2 : k < s.freed + c.N) (he : k % c.N = pos % c.N) : k = pos :=
  mod_inj hk1 hk2 (h.freed_le (h.pending p v pos hp).2.1) (h.owner_lt p pos ho) he

/-- When a put ends, its ticket is the only one that loses its put. -/
theorem Inv.settled_idle (h : Inv c s) (hp : (s.put p).pending = some (v, pos)) (hk : k < s.tickets.length) :
    k = pos ∨ k ∈ s.accepted ∨ k ∈ s.rejected ∨
      ∃ q w, (Function.update s.put p .idle q).pending = some (w, k) := by
  rcases h.settled k hk with ha | hr | ⟨q, w, hq⟩
  · exact .inr (.inl ha)
  · exact .inr (.inr (.inl hr))
  · by_cases hqp : q = p
    · subst q
      rw [hp] at hq
      cases hq
      exact .inl rfl
    · refine .inr (.inr (.inr ⟨q, w, ?_⟩))
      rw [Function.update_of_ne hqp]
      exact hq

/-! ## Steps -/

theorem Inv.putFetchAdd (h : Inv c s) (hK : s.tickets.length + 1 < 2 ^ 64) (hp : s.put p = .idle) :
    Inv c { s with
      put := Function.update s.put p (.load v s.tail)
      tail := (s.tail + 1) % 2 ^ 64
      tickets := s.tickets ++ [v] } := by
  have ht := h.tail_eq
  have hlt : ∀ q w k, (s.put q).pending = some (w, k) → k < s.tickets.length := fun q w k hq =>
    (List.getElem?_eq_some_iff.mp (h.pending q w k hq).1).1
  have hold : ∀ q w k, (s.put q).pending = some (w, k) →
      (Function.update s.put p (.load v s.tail) q).pending = some (w, k) := by
    intro q w k hq
    rw [Function.update_of_ne]
    · exact hq
    · rintro rfl
      rw [hp] at hq; cases hq
  have hnew : (Function.update s.put p (.load v s.tail) p).pending = some (v, s.tickets.length) := by
    rw [Function.update_self, Put.pending, ht]
  -- Besides these two kinds there is no put under way.
  have hcases : ∀ q w k, (Function.update s.put p (.load v s.tail) q).pending = some (w, k) →
      (q ≠ p ∧ (s.put q).pending = some (w, k)) ∨ (q = p ∧ w = v ∧ k = s.tickets.length) := by
    intro q w k hq
    rw [Function.update_apply] at hq
    split at hq
    · cases hq
      exact .inr ⟨‹_›, rfl, ht⟩
    · exact .inl ⟨‹_›, hq⟩
  exact { h with
    tail_eq := by simp [ht]; omega
    isPrefix := h.isPrefix.trans (List.prefix_append _ _)
    accepted_lt := by
      intro k hk
      have := h.accepted_lt k hk
      simp only [List.length_append, List.length_singleton]
      exact ⟨by omega, this.2⟩
    rejected_lt := by
      intro k hk
      have := h.rejected_lt k hk
      simp only [List.length_append, List.length_singleton]
      exact ⟨by omega, this.2⟩
    pending := by
      intro q w k hq
      rcases hcases q w k hq with ⟨-, hq⟩ | ⟨-, rfl, rfl⟩
      · obtain ⟨h1, h2⟩ := h.pending q w k hq
        exact ⟨Lists.getElem?_of_prefix (List.prefix_append _ _) h1, h2⟩
      · refine ⟨by simp, ?_, ?_⟩
        · intro hm; have := h.accepted_lt _ hm; omega
        · intro hm; have := h.rejected_lt _ hm; omega
    unique := by
      intro q r w w' k hq hr
      rcases hcases q w k hq with ⟨-, hq⟩ | ⟨rfl, -, rfl⟩
      · rcases hcases r w' k hr with ⟨-, hr⟩ | ⟨-, -, rfl⟩
        · exact h.unique q r w w' k hq hr
        · exact absurd (hlt q _ _ hq) (Nat.lt_irrefl _)
      · rcases hcases r w' _ hr with ⟨-, hr⟩ | ⟨rfl, -⟩
        · exact absurd (hlt r _ _ hr) (Nat.lt_irrefl _)
        · rfl
    settled := by
      intro k hk
      by_cases hk' : k < s.tickets.length
      · rcases h.settled k hk' with ha | hr | ⟨q, w, hq⟩
        · exact .inl ha
        · exact .inr (.inl hr)
        · exact .inr (.inr ⟨q, w, hold q w k hq⟩)
      · simp only [List.length_append, List.length_singleton] at hk
        obtain rfl : k = s.tickets.length := by omega
        exact .inr (.inr ⟨p, v, hnew⟩)
    owner_lt := owner_update (fun _ hk => by cases hk) h.owner_lt
    built := fun q w k hq => h.built q w k (storeSeq_of_update (by simp) hq).2
    cells := fun k hk hf => Lists.getElem?_of_prefix (List.prefix_append _ _) (h.cells k hk hf)
    live_iff := by
      intro k h1 h2
      rw [storeSeq_update (by simp [hp]) (by simp)]
      exact h.live_iff k h1 h2
    get_ok := h.get_ok.mono rfl (fun _ hk => hk) (List.prefix_append _ _) }

/-- A put that moves on with its ticket, short of constructing. -/
theorem Inv.withPut (h : Inv c s) {x : Put T} (hx : x.pending = (s.put p).pending)
    (ho : ∀ k, x.owner = some k → k < s.freed + c.N) (h1 : ∀ w k, s.put p ≠ .storeSeq w k)
    (h2 : ∀ w k, x ≠ .storeSeq w k) : Inv c { s with put := Function.update s.put p x } :=
  { h with
    pending := by simp only [pending_update hx]; exact h.pending
    unique := by simp only [pending_update hx]; exact h.unique
    settled := by simp only [pending_update hx]; exact h.settled
    owner_lt := owner_update ho h.owner_lt
    built := fun q w k hq => h.built q w k (storeSeq_of_update (h2 · k) hq).2
    live_iff := by
      intro k hk1 hk2
      rw [storeSeq_update (h1 · k) (h2 · k)]
      exact h.live_iff k hk1 hk2
    get_ok := h.get_ok.mono rfl (fun _ hk => hk) (List.prefix_refl _) }

/-- A put that gives its ticket up. -/
theorem Inv.putReject (h : Inv c s) (hp : s.put p = .load v pos) :
    Inv c { s with put := Function.update s.put p .idle, rejected := s.rejected ++ [pos] } := by
  have hpend : (s.put p).pending = some (v, pos) := by rw [hp]; rfl
  obtain ⟨hv, hna, hnr⟩ := h.pending p v pos hpend
  have hmem : ∀ k, k ∈ s.rejected ++ [pos] ↔ k ∈ s.rejected ∨ k = pos := by simp
  exact { h with
    rejected_lt := by
      intro k hk
      rcases (hmem k).mp hk with hk | rfl
      · exact h.rejected_lt k hk
      · exact ⟨(List.getElem?_eq_some_iff.mp hv).1, hna⟩
    pending := by
      intro q w k hq
      obtain ⟨hqp, hq'⟩ := pending_idle hq
      obtain ⟨h1, h2, h3⟩ := h.pending q w k hq'
      refine ⟨h1, h2, ?_⟩
      rw [hmem]
      rintro (hk | rfl)
      · exact h3 hk
      · exact hqp (h.unique q p w v k hq' hpend)
    unique := fun q r w w' k hq hr => h.unique q r w w' k (pending_idle hq).2 (pending_idle hr).2
    settled := by
      intro k hk
      rcases h.settled_idle hpend hk with rfl | ha | hr | hq
      · exact .inr (.inl ((hmem k).mpr (.inr rfl)))
      · exact .inl ha
      · exact .inr (.inl ((hmem k).mpr (.inl hr)))
      · exact .inr (.inr hq)
    owner_lt := owner_update (fun _ hk => by cases hk) h.owner_lt
    built := fun q w k hq => h.built q w k (storeSeq_of_update (by simp) hq).2
    live_iff := by
      intro k hk1 hk2
      rw [storeSeq_update (by simp [hp]) (by simp)]
      exact h.live_iff k hk1 hk2
    get_ok := h.get_ok.mono rfl (fun _ hk => hk) (List.prefix_refl _) }

theorem Inv.putConstruct (h : Inv c s) (hp : s.put p = .construct v pos) :
    Inv c { s with
      put := Function.update s.put p (.storeSeq v pos)
      data := Function.update s.data (pos % c.N) v
      live := Function.update s.live (pos % c.N) true } := by
  have hpend : (s.put p).pending = some (v, pos) := by rw [hp]; rfl
  have hown : (s.put p).owner = some pos := by rw [hp]; rfl
  have hna := (h.pending p v pos hpend).2.1
  have hupd := pending_update (f := s.put) (x := .storeSeq v pos) hpend.symm
  exact { h with
    pending := by simp only [hupd]; exact h.pending
    unique := by simp only [hupd]; exact h.unique
    settled := by simp only [hupd]; exact h.settled
    owner_lt := owner_update (fun k hk => h.owner_lt p k (hown.trans hk)) h.owner_lt
    built := by
      intro q w k hq
      dsimp only at hq ⊢
      by_cases hqp : q = p
      · subst q
        rw [Function.update_self] at hq
        cases hq
        exact Function.update_self ..
      · rw [Function.update_of_ne hqp] at hq
        have hq' : (s.put q).pending = some (w, k) := by rw [hq]; rfl
        have hk := h.freed_le (h.pending q w k hq').2.1
        have hk' := h.owner_lt q k (by rw [hq]; rfl)
        rw [Function.update_of_ne]
        · exact h.built q w k hq
        · intro he
          have := h.cell_inj hpend hown hk hk' he
          subst k
          exact hqp (h.unique q p w v pos hq' hpend)
    cells := by
      intro k hk hf
      dsimp only
      rw [Function.update_of_ne]
      · exact h.cells k hk hf
      · intro he
        have := h.cell_inj hpend hown hf (h.accepted_lt k hk).2 he
        subst k
        exact hna hk
    live_iff := by
      intro k hk1 hk2
      dsimp only
      rw [Function.update_apply]
      split
      · have := h.cell_inj hpend hown hk1 hk2 ‹_›
        subst k
        simp only [true_iff]
        exact .inr ⟨p, v, Function.update_self ..⟩
      · rw [h.live_iff k hk1 hk2]
        refine or_congr Iff.rfl (storeSeq_update (by simp [hp]) ?_).symm
        rintro w hw
        cases hw
        exact absurd rfl ‹_›
    get_ok := h.get_ok.mono rfl (fun _ hk => hk) (List.prefix_refl _) }

theorem Inv.putStoreSeq (h : Inv c s) (hK : s.tickets.length < 2 ^ 63)
    (hp : s.put p = .storeSeq v pos) :
    Inv c { s with
      put := Function.update s.put p .idle
      seq := Function.update s.seq (pos % c.N) ((pos + 1) % 2 ^ 64)
      accepted := s.accepted ++ [pos] } := by
  have hpend : (s.put p).pending = some (v, pos) := by rw [hp]; rfl
  have hown : (s.put p).owner = some pos := by rw [hp]; rfl
  obtain ⟨hv, hna, hnr⟩ := h.pending p v pos hpend
  have hlt := (List.getElem?_eq_some_iff.mp hv).1
  have hmem : ∀ k, k ∈ s.accepted ++ [pos] ↔ k ∈ s.accepted ∨ k = pos := by simp
  exact { h with
    freed_accepted := fun k hk => (hmem k).mpr (.inl (h.freed_accepted k hk))
    accepted_lt := by
      intro k hk
      rcases (hmem k).mp hk with hk | rfl
      · exact h.accepted_lt k hk
      · exact ⟨hlt, h.owner_lt p k hown⟩
    accepted_nodup := by
      rw [List.nodup_append]
      refine ⟨h.accepted_nodup, by simp, ?_⟩
      rintro a ha b hb rfl
      rw [List.mem_singleton.mp hb] at ha
      exact hna ha
    rejected_lt := by
      intro k hk
      have := h.rejected_lt k hk
      refine ⟨this.1, ?_⟩
      rw [hmem]
      rintro (hk' | rfl)
      · exact this.2 hk'
      · exact hnr hk
    pending := by
      intro q w k hq
      obtain ⟨hqp, hq'⟩ := pending_idle hq
      obtain ⟨h1, h2, h3⟩ := h.pending q w k hq'
      refine ⟨h1, ?_, h3⟩
      rw [hmem]
      rintro (hk | rfl)
      · exact h2 hk
      · exact hqp (h.unique q p w v k hq' hpend)
    unique := fun q r w w' k hq hr => h.unique q r w w' k (pending_idle hq).2 (pending_idle hr).2
    settled := by
      intro k hk
      rcases h.settled_idle hpend hk with rfl | ha | hr | hq
      · exact .inl ((hmem k).mpr (.inr rfl))
      · exact .inl ((hmem k).mpr (.inl ha))
      · exact .inr (.inl hr)
      · exact .inr (.inr hq)
    owner_lt := owner_update (fun _ hk => by cases hk) h.owner_lt
    built := fun q w k hq => h.built q w k (storeSeq_of_update (by simp) hq).2
    seq_eq := by
      intro k hk1 hk2
      dsimp only
      rw [Function.update_apply]
      split
      · have := h.cell_inj hpend hown hk1 hk2 ‹_›
        subst k
        rw [if_pos (by simp), Nat.mod_eq_of_lt (by omega)]
      · have hne : k ≠ pos := by rintro rfl; exact absurd rfl ‹_›
        rw [h.seq_eq k hk1 hk2]
        simp [hne]
    cells := by
      intro k hk hf
      rcases (hmem k).mp hk with hk | rfl
      · exact h.cells k hk hf
      · rw [h.built p v k hp]
        exact hv
    live_iff := by
      intro k hk1 hk2
      dsimp only
      rw [h.live_iff k hk1 hk2, hmem]
      have hpos : ¬ (pos = s.freed ∧ s.get.taken = true) := by
        rintro ⟨rfl, ht⟩
        exact hna (h.taken_accepted ht)
      constructor
      · rintro (⟨hk, hn⟩ | ⟨q, w, hq⟩)
        · exact .inl ⟨.inl hk, hn⟩
        · by_cases hqp : q = p
          · subst q
            rw [hp] at hq
            cases hq
            exact .inl ⟨.inr rfl, hpos⟩
          · refine .inr ⟨q, w, ?_⟩
            rw [Function.update_of_ne hqp]
            exact hq
      · rintro (⟨hk | rfl, hn⟩ | ⟨q, w, hq⟩)
        · exact .inl ⟨hk, hn⟩
        · exact .inr ⟨p, v, hp⟩
        · exact .inr ⟨q, w, (storeSeq_of_update (by simp) hq).2⟩
    get_ok := h.get_ok.mono rfl (fun _ hk => List.mem_append_left _ hk) (List.prefix_refl _) }

end Dwhbll.Concurrency.Mpsc
