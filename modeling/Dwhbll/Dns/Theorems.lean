import Dwhbll.Dns.Lemmas.Header
import Dwhbll.Dns.Lemmas.Name

/-!
# Theorems about DNS messages
-/

namespace Dwhbll.Network.Dns

open Collections

variable {fuel : Nat}

/-! ## Questions -/

namespace MessageQuestion

theorem ofInt_toNat {x : Int} (h : 0 ≤ x ∧ x < 2 ^ 16) : ((UInt16.ofInt x).toNat : Int) = x := by
  rw [Words.toNat_ofInt h.1 h.2, Int.toNat_of_nonneg h.1]

theorem unpack_yields {q : MessageQuestion} (hq : q.Fits) (hfuel : q.qname.labels.length ≤ fuel) :
    Yields (unpack fuel) q.format q := by
  have hy : Yields (unpack fuel) q.format
      ⟨q.qname, (UInt16.ofInt q.type).toNat, (UInt16.ofInt q.clazz).toNat⟩ := by
    rw [unpack, format]
    exact (Domain.unpack_yields hq.qname hfuel).bind
      ((Yields.getUint16 _).bind ((Yields.getUint16 _).bind (Yields.pure _)))
  rw [ofInt_toNat hq.type, ofInt_toNat hq.clazz] at hy
  exact hy

theorem unpack_consumes {q : MessageQuestion} {s s' : MemoryStream} (h : unpack fuel s = .done (q, s'))
    (hlen : ∀ b ∈ Domain.lengths s.data fuel s.currentHead, b ≤ 63) :
    q.Fits ∧ Holds s.data s.currentHead q.format ∧
      s' = { s with currentHead := s.currentHead + q.format.length } := by
  obtain ⟨d, t, h1, h2⟩ := Unpack.bind_eq_done h
  obtain ⟨hplain, hh, rfl⟩ := Domain.unpack_consumes h1 hlen
  have hc := Consumes.getUint16.bind fun type => Consumes.getUint16.bind fun clazz =>
    Consumes.pure (MessageQuestion.mk d type.toNat clazz.toNat)
  obtain ⟨bs, hbs, rfl, type, _, _, rfl, rfl, clazz, _, _, rfl, rfl, rfl, rfl⟩ := hc _ q s' h2
  have hword : ∀ v : UInt16, UInt16.ofInt v.toNat = v := by
    intro v
    rw [← UInt16.toNat_inj, Words.toNat_ofInt (by omega) (by have := v.toNat_lt; omega), Int.toNat_natCast]
  have hformat : format ⟨d, type.toNat, clazz.toNat⟩ =
      Domain.format d.labels ++ (Words.bytes type ++ (Words.bytes clazz ++ [])) := by
    simp only [format, hword]
    rfl
  refine ⟨⟨hplain, ?_, ?_⟩, ?_, ?_⟩
  · have := type.toNat_lt
    simp only
    omega
  · have := clazz.toNat_lt
    simp only
    omega
  · rw [hformat]
    exact holds_append.mpr ⟨hh, hbs⟩
  · rw [hformat]
    simp only [List.length_append, Nat.add_assoc]

theorem unpackAll_consumes {n : Nat} {qs : List MessageQuestion} {s s' : MemoryStream}
    (h : Message.unpackAll (unpack fuel) n s = .done (qs, s')) (hlen : ∀ b ∈ lengths fuel n s, b ≤ 63) :
    qs.length = n ∧ Holds s.data s.currentHead (qs.flatMap format) ∧
      s' = { s with currentHead := s.currentHead + (qs.flatMap format).length } := by
  induction n generalizing qs s with
  | zero =>
      cases h
      exact ⟨rfl, holds_nil, rfl⟩
  | succ n ih =>
      obtain ⟨q, t, h1, h2⟩ := Unpack.bind_eq_done h
      obtain ⟨qs', t', h3, h4⟩ := Unpack.bind_eq_done h2
      cases h4
      simp only [lengths, h1, List.mem_append] at hlen
      obtain ⟨-, hh, rfl⟩ := unpack_consumes h1 fun b hb => hlen b (.inl hb)
      obtain ⟨hl, hh', rfl⟩ := ih h3 fun b hb => hlen b (.inr hb)
      refine ⟨congrArg (· + 1) hl, ?_, ?_⟩
      · rw [List.flatMap_cons]
        exact holds_append.mpr ⟨hh, hh'⟩
      · simp only [List.flatMap_cons, List.length_append, Nat.add_assoc]

end MessageQuestion

/-! ## Messages -/

namespace Message

theorem unpackAll_yields {α : Type} {u : Unpack α} {f : α → List UInt8} {as : List α}
    (h : ∀ a ∈ as, Yields u (f a) a) : Yields (unpackAll u as.length) (as.flatMap f) as := by
  induction as with
  | nil => exact Yields.pure []
  | cons a as ih =>
      have hrest := ih fun b hb => h b (List.mem_cons_of_mem _ hb)
      exact (h a List.mem_cons_self).bind (hrest.bind_pure (a :: ·))

theorem unpack_yields {m : Message} (hm : m.Fits) (hfuel : ∀ q ∈ m.questions, q.qname.labels.length ≤ fuel) :
    Yields (unpack fuel) m.format m := by
  obtain ⟨header, questions, answers, authorities, additionals⟩ := m
  obtain ⟨⟨hqd, ⟨han, rfl⟩, ⟨hns, rfl⟩, ⟨har, rfl⟩⟩, hh, hq⟩ := hm
  have hqs := unpackAll_yields fun q hmem => MessageQuestion.unpack_yields (hq q hmem) (hfuel q hmem)
  simp only at hqd han hns har hh hqs
  rw [← hqd] at hqs
  have hnone : ∀ {n : UInt16}, n = 0 → Yields (unpackAll (ResourceRecord.unpack fuel) n.toNat) [] [] := by
    rintro n rfl
    exact Yields.pure []
  have hy : Yields (unpack fuel) _ _ := (MessageHeader.unpack_yields hh).bind (hqs.bind
    ((hnone han).bind ((hnone hns).bind ((hnone har).bind (Yields.pure _)))))
  simp only [List.append_nil] at hy
  exact hy

/-- The result of an `unpack` that meets no resource record, no pointer and no length above 63 has the
bytes that were read for its format. -/
theorem unpack_consumes {m : Message} {s s' : MemoryStream} (h : unpack fuel s = .done (m, s'))
    (han : m.header.ancount = 0) (hns : m.header.nscount = 0) (har : m.header.arcount = 0)
    (hlen : ∀ b ∈ lengths fuel s, b ≤ 63) :
    m.NoRecords ∧ Holds s.data s.currentHead m.format ∧
      s' = { s with currentHead := s.currentHead + m.format.length } := by
  obtain ⟨header, t, h1, h2⟩ := Unpack.bind_eq_done h
  obtain ⟨questions, t₁, h3, h4⟩ := Unpack.bind_eq_done h2
  obtain ⟨answers, t₂, h5, h6⟩ := Unpack.bind_eq_done h4
  obtain ⟨authorities, t₃, h7, h8⟩ := Unpack.bind_eq_done h6
  obtain ⟨additionals, t₄, h9, h10⟩ := Unpack.bind_eq_done h8
  cases h10
  simp only at han hns har
  rw [han] at h5
  rw [hns] at h7
  rw [har] at h9
  cases h5
  cases h7
  cases h9
  rw [lengths, h1] at hlen
  obtain ⟨bs, hh, rfl, rfl, -⟩ := MessageHeader.unpack_consumes s header t h1
  obtain ⟨hl, hq, rfl⟩ := MessageQuestion.unpackAll_consumes h3 hlen
  refine ⟨⟨hl.symm, ⟨han, rfl⟩, ⟨hns, rfl⟩, ⟨har, rfl⟩⟩, ?_, ?_⟩
  · exact holds_append.mpr ⟨hh, hq⟩
  · simp only [format, List.length_append, Nat.add_assoc]

/-- What is written to a new stream is all that it holds. -/
theorem writeBytes_fresh (mem : Nat → UInt8) (bs : List UInt8) :
    (MemoryStream.writeBytes mem bs {}).data.toList = bs ∧
      (MemoryStream.writeBytes mem bs {}).data.size = bs.length ∧
      (MemoryStream.writeBytes mem bs {}).currentHead = 0 ∧
      Holds (MemoryStream.writeBytes mem bs {}).data 0 bs := by
  obtain ⟨hf, hl, hh⟩ := MemoryStream.writeBytes_spec mem (s := {}) (Collections.Ring.new_flat (by decide)) bs
  have hl' : (MemoryStream.writeBytes mem bs {}).data.toList = bs := hl
  have hholds := holds_of_flat fun i b => hf.get? (i := i) (x := b)
  rw [hl'] at hholds
  have hlen := congrArg List.length hl'
  rw [Collections.Ring.toList_length] at hlen
  exact ⟨hl', hlen, hh, hholds⟩

/-- A message without resource records whose fields and labels fit comes back from the bytes that `pack`
writes to a new stream, with the head behind the last of them. Conversely, `pack` writes for the result of
an `unpack` that meets no resource record, no compression pointer and no length above 63 exactly the
bytes that it has read. -/
theorem pack_unpack (mem : Nat → UInt8) (fuel : Nat) :
    (∀ m : Message, m.Fits → (∀ q ∈ m.questions, q.qname.labels.length ≤ fuel) →
      ∃ t, m.pack mem {} = .done t ∧
        unpack fuel t = .done (m, { t with currentHead := t.data.size })) ∧
    ∀ (m : Message) (s s' : MemoryStream), unpack fuel s = .done (m, s') →
      m.header.ancount = 0 → m.header.nscount = 0 → m.header.arcount = 0 →
      (∀ b ∈ lengths fuel s, b ≤ 63) →
      ∃ t, m.pack mem {} = .done t ∧ s'.data = s.data ∧
        s'.currentHead = s.currentHead + t.data.size ∧
        ∀ i b, t.data.toList[i]? = some b → s.data.get? (s.currentHead + i) = some b := by
  constructor
  · intro m hm hfuel
    obtain ⟨-, hsize, hh, hholds⟩ := writeBytes_fresh mem m.format
    refine ⟨_, pack_eq mem hm.noRecords {}, ?_⟩
    rw [unpack_yields hm hfuel _ (hh.symm ▸ hholds), hh, hsize, Nat.zero_add]
  · intro m s s' h han hns har hlen
    obtain ⟨hrec, hholds, rfl⟩ := unpack_consumes h han hns har hlen
    obtain ⟨hl, hsize, -, -⟩ := writeBytes_fresh mem m.format
    refine ⟨_, pack_eq mem hrec {}, rfl, ?_, ?_⟩
    · rw [hsize]
    · rw [hl]
      exact hholds

/-- A query for the address of `a.b`. -/
def query : Message where
  header := ⟨7, false, 0, false, false, true, false, 0, 0, 1, 0, 0, 0⟩
  questions := [⟨⟨[[97], [98], []]⟩, QTYPE.A, 1⟩]
  answers := []
  authorities := []
  additionals := []

theorem pack_unpack_query :
    ∃ t, query.pack (fun _ => 0) {} = .done t ∧ unpack 3 t = .done (query, { t with currentHead := 21 }) := by
  have hfits : query.Fits := by
    refine ⟨⟨rfl, ⟨rfl, rfl⟩, ⟨rfl, rfl⟩, ⟨rfl, rfl⟩⟩, ⟨by decide, by decide, by decide⟩, ?_⟩
    intro q hq
    cases List.mem_singleton.mp hq
    exact ⟨⟨⟨[[97], [98]], rfl⟩, by decide⟩, by decide, by decide⟩
  obtain ⟨t, hp, hu⟩ := (pack_unpack (fun _ => 0) 3).1 query hfits (by decide)
  have hsize : t.data.size = query.format.length := by
    rw [← Outcome.done.inj ((pack_eq (fun _ => 0) hfits.noRecords {}).symm.trans hp)]
    exact (writeBytes_fresh _ _).2.1
  rw [hsize] at hu
  exact ⟨t, hp, hu⟩

end Message

end Dwhbll.Network.Dns
