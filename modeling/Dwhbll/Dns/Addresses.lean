import Dwhbll.Dns.Aliases
import Mathlib.Data.List.Find

/-!
# The address that `Resolver::get_from_msg` finds

It belongs to the last name of a chain of aliases, whatever the order of the answers is, if no name has two of them.
-/

namespace Dwhbll.Network.Dns.Resolver

variable {m : Message} {domain owner name : Domain} {calls : Nat}

/-! ## Aliases as answers -/

/-- An answer of the message gives the second name as an alias of the first. -/
def Follows (m : Message) (domain name : Domain) : Prop :=
  ∃ an ∈ m.answers, an.name = domain ∧ an.type = QTYPE.CNAME ∧ an.rdata = .domain name

/-- No name has two answers that are addresses or other names. -/
def Unambiguous (m : Message) : Prop :=
  ∀ an ∈ m.answers, ∀ an' ∈ m.answers, ∀ name, decides name an = true → decides name an' = true → an = an'

theorem follows_of_aliasOf (h : m.Answered) (halias : aliasOf m domain = some name) : Follows m domain name := by
  obtain ⟨an, hfind, hdata⟩ := Option.bind_eq_some_iff.mp halias
  have hmem := List.mem_of_find?_eq_some hfind
  obtain ⟨hname, ha | hcname⟩ := decides_iff.mp (List.find?_some hfind)
  · obtain ⟨address, ha'⟩ := (h.typed an hmem).a ha
    rw [ha'] at hdata
    cases hdata
  · obtain ⟨name', hdata'⟩ := (h.typed an hmem).cname hcname
    rw [hdata'] at hdata
    cases hdata
    exact ⟨an, hmem, hname, hcname, hdata'⟩

theorem mem_of_addressOf (h : m.Answered) {a : UInt32} (haddress : addressOf m domain = some a) :
    ∃ an ∈ m.answers, an.name = domain ∧ an.type = QTYPE.A ∧ an.rdata = .a a := by
  obtain ⟨an, hfind, hdata⟩ := Option.bind_eq_some_iff.mp haddress
  have hmem := List.mem_of_find?_eq_some hfind
  obtain ⟨hname, ha | hcname⟩ := decides_iff.mp (List.find?_some hfind)
  · obtain ⟨a', hdata'⟩ := (h.typed an hmem).a ha
    rw [hdata'] at hdata
    cases hdata
    exact ⟨an, hmem, hname, ha, hdata'⟩
  · obtain ⟨name, hdata'⟩ := (h.typed an hmem).cname hcname
    rw [hdata'] at hdata
    cases hdata

/-! ## The order of the answers -/

/-- The same message with its answers in another order. -/
def reorder (m : Message) (answers : List ResourceRecord) : Message := { m with answers := answers }

variable {answers : List ResourceRecord}

theorem answered_reorder (h : m.Answered) (hp : answers.Perm m.answers) : (reorder m answers).Answered where
  length_eq := hp.length_eq.trans h.length_eq
  typed := fun an han => h.typed an (hp.mem_iff.mp han)

theorem find?_reorder (hone : Unambiguous m) (hp : answers.Perm m.answers) (domain : Domain) :
    (reorder m answers).answers.find? (decides domain) = m.answers.find? (decides domain) := by
  refine (List.find?_eq_find?_of_perm hp.symm ?_).symm
  rintro an ⟨han, hdecides⟩ an' ⟨han', hdecides'⟩
  exact hone an han an' han' domain hdecides hdecides'

/-- Where no name has two answers, the order of the answers makes no difference to a call. -/
theorem getFromMsg_reorder (h : m.Answered) (hone : Unambiguous m) (hp : answers.Perm m.answers) :
    getFromMsg (reorder m answers) calls domain = getFromMsg m calls domain := by
  induction calls generalizing domain with
  | zero => rfl
  | succ calls ih =>
      have halias : aliasOf (reorder m answers) domain = aliasOf m domain := by
        rw [aliasOf, find?_reorder hone hp, aliasOf]
      have haddress : addressOf (reorder m answers) domain = addressOf m domain := by
        rw [addressOf, find?_reorder hone hp, addressOf]
      rw [getFromMsg_succ h, getFromMsg_succ (answered_reorder h hp), halias, haddress]
      cases aliasOf m domain with
      | none => rfl
      | some name => exact ih

/-- More nested calls than it takes change nothing. -/
theorem getFromMsg_mono (h : m.Answered) {more : Nat} {r : Option UInt32} (hr : getFromMsg m calls domain = .ok r)
    (hle : calls ≤ more) : getFromMsg m more domain = .ok r := by
  induction calls generalizing domain more with
  | zero => cases hr
  | succ calls ih =>
      obtain ⟨more, rfl⟩ := Nat.exists_eq_add_of_le' (Nat.le_trans (Nat.succ_le_succ (Nat.zero_le calls)) hle)
      rw [getFromMsg_succ h] at hr ⊢
      cases halias : aliasOf m domain with
      | none =>
          rw [halias] at hr
          exact hr
      | some name =>
          rw [halias] at hr
          exact ih hr (Nat.le_of_succ_le_succ hle)

/-! ## The address -/

/-- What a call returns is the address of an answer whose name the aliases lead to. Where no name has two answers and the
aliases do not lead in a circle the call returns, and the same for any order of the answers. -/
theorem getFromMsg_address {fuel : Nat} {s s' : MemoryStream} (h : Message.unpack fuel s = .done (m, s'))
    (domain : Domain) :
    (∀ calls r, getFromMsg m calls domain = .ok (some r) →
      ∃ owner address, Relation.ReflTransGen (Follows m) domain owner ∧
        (∃ an ∈ m.answers, an.name = owner ∧ an.type = QTYPE.A ∧ an.rdata = .a address) ∧
        Words.littleEndian 4 r.toNat = Words.bytes32 address) ∧
      (Unambiguous m → (∀ name, ¬ Relation.TransGen (Follows m) name name) →
        ∃ n r, ∀ answers, answers.Perm m.answers → ∀ calls ≥ n, getFromMsg (reorder m answers) calls domain = .ok r) := by
  have hm := Message.unpack_answered h
  have hfollows : Walks.Leads (aliasOf m) ≤ Follows m := fun _ _ hstep => follows_of_aliasOf hm hstep
  constructor
  · intro calls r hr
    obtain ⟨owner, hwalk, howner⟩ := getFromMsg_eq_ok hm hr
    obtain ⟨address, haddress, rfl⟩ := Option.map_eq_some_iff.mp howner.symm
    refine ⟨owner, address, ?_, mem_of_addressOf hm haddress, littleEndian_htonl address⟩
    exact Relation.ReflTransGen.mono hfollows domain owner hwalk
  · intro hone hacyclic
    have hcircles : ¬ Walks.Circles (aliasOf m) domain := by
      rintro ⟨name, -, hround⟩
      exact hacyclic name (Relation.TransGen.mono hfollows name name hround)
    obtain ⟨n, hn⟩ := (aliases_end_iff m domain).2.mpr hcircles
    have hne : getFromMsg m n domain ≠ .error .running := fun hrunning => (getFromMsg_running_iff hm).mp hrunning hn
    obtain ⟨r, hr⟩ := (exists_ok_iff hm).mpr hne
    refine ⟨n, r, fun answers hp calls hcalls => ?_⟩
    rw [getFromMsg_reorder hm hone hp]
    exact getFromMsg_mono hm hr hcalls

theorem follows_aliased (h : Follows aliased domain name) : domain = nameA ∧ name = nameB := by
  obtain ⟨an, han, rfl, htype, hdata⟩ := h
  rcases List.mem_cons.mp han with rfl | han
  · exact absurd htype (by decide)
  · cases List.mem_singleton.mp han
    cases hdata
    exact ⟨rfl, rfl⟩

theorem unambiguous_aliased : Unambiguous aliased := by
  intro an han an' han' name h h'
  have hname := (decides_iff.mp h).1.trans (decides_iff.mp h').1.symm
  rcases List.mem_cons.mp han with rfl | han
  · rcases List.mem_cons.mp han' with rfl | han'
    · rfl
    · cases List.mem_singleton.mp han'
      exact absurd hname (by decide)
  · cases List.mem_singleton.mp han
    rcases List.mem_cons.mp han' with rfl | han'
    · exact absurd hname (by decide)
    · exact (List.mem_singleton.mp han').symm

/-- The address of `b` is found for `a`, in any order of the two answers. -/
theorem getFromMsg_address_aliased :
    (∃ owner address, Relation.ReflTransGen (Follows aliased) nameA owner ∧
      (∃ an ∈ aliased.answers, an.name = owner ∧ an.type = QTYPE.A ∧ an.rdata = .a address) ∧
      Words.littleEndian 4 0x04030201 = Words.bytes32 address) ∧
      ∃ n r, ∀ answers, answers.Perm aliased.answers → ∀ calls ≥ n,
        getFromMsg (reorder aliased answers) calls nameA = .ok r := by
  have hspec := getFromMsg_address unpack_aliased nameA
  refine ⟨hspec.1 3 0x04030201 (by decide), hspec.2 unambiguous_aliased fun name hround => ?_⟩
  obtain ⟨other, hfirst, hrest⟩ := Relation.TransGen.head'_iff.mp hround
  obtain ⟨rfl, rfl⟩ := follows_aliased hfirst
  rcases Relation.ReflTransGen.cases_head hrest with heq | ⟨third, hsecond, -⟩
  · exact absurd heq (by decide)
  · exact absurd (follows_aliased hsecond).1 (by decide)

end Dwhbll.Network.Dns.Resolver
