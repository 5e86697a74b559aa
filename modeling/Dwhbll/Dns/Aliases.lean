import Dwhbll.Dns.Lemmas.Reading
import Dwhbll.Dns.Pointers

/-!
# The names that `Resolver::get_from_msg` follows

The call looks through the answers for the name and, at an alias, begins again for the other name. So it walks from name
to name along the first answers of each, and where it stops it has the address.
-/

namespace Dwhbll.Network.Dns

open Collections

namespace Resolver

/-! ## `get_from_msg` -/

inductive Fault where
  /-- It reads behind the last answer. -/
  | outside
  /-- `std::get` throws. -/
  | badVariantAccess
  /-- There are more nested calls than the given number. -/
  | running
  deriving DecidableEq, Repr

/-- `htonl` of a host whose words have their lowest byte first. -/
def htonl (x : UInt32) : UInt32 := UInt32.ofNat (Words.ofLittleEndian (Words.bytes32 x))

/-- The loop over the first `ancount` answers. -/
def findAnswer (recurse : Domain → Except Fault (Option UInt32)) (domain : Domain) :
    (ancount : Nat) → List ResourceRecord → Except Fault (Option UInt32)
  | 0, _ => .ok none
  | _ + 1, [] => .error .outside
  | n + 1, an :: answers =>
      if an.name = domain then
        if an.type = QTYPE.A then
          match an.rdata with
          | .a address => .ok (some (htonl address))
          | _ => .error .badVariantAccess
        else if an.type = QTYPE.CNAME then
          match an.rdata with
          | .domain name => recurse name
          | _ => .error .badVariantAccess
        else findAnswer recurse domain n answers
      else findAnswer recurse domain n answers

/-- `calls` bounds the number of nested calls, this one included. -/
def getFromMsg (msg : Message) : (calls : Nat) → Domain → Except Fault (Option UInt32)
  | 0, _ => .error .running
  | calls + 1, domain => findAnswer (getFromMsg msg calls) domain msg.header.ancount.toNat msg.answers

/-- In the memory of the host the result is in network byte order. -/
theorem littleEndian_htonl (x : UInt32) : Words.littleEndian 4 (htonl x).toNat = Words.bytes32 x := by
  have hlt : Words.ofLittleEndian (Words.bytes32 x) < 2 ^ 32 := Words.ofLittleEndian_lt (Words.bytes32 x)
  rw [htonl, UInt32.toNat_ofNat', Nat.mod_eq_of_lt hlt]
  exact Words.littleEndian_ofLittleEndian (Words.bytes32 x)

end Resolver

/-! ## Unpacked messages -/

/-- The data of the record are those of its type. -/
structure ResourceRecord.Typed (r : ResourceRecord) : Prop where
  a : r.type = QTYPE.A → ∃ address, r.rdata = .a address
  cname : r.type = QTYPE.CNAME → ∃ name, r.rdata = .domain name

theorem RData.unpack_a {fuel : Nat} {rdlength : UInt16} {s s' : MemoryStream} {d : RData}
    (h : unpack fuel QTYPE.A rdlength s = .done (d, s')) : ∃ address, d = .a address := by
  rw [unpack, if_neg (by decide), if_pos rfl] at h
  obtain ⟨address, t, -, h'⟩ := Unpack.bind_eq_done h
  cases h'
  exact ⟨address, rfl⟩

theorem RData.unpack_domain {fuel : Nat} {type : Int} {rdlength : UInt16} {s s' : MemoryStream} {d : RData}
    (htype : type ∈ QTYPE.ofDomain) (h : unpack fuel type rdlength s = .done (d, s')) :
    ∃ name, d = .domain name := by
  rw [unpack, if_pos htype] at h
  obtain ⟨name, t, -, h'⟩ := Unpack.bind_eq_done h
  cases h'
  exact ⟨name, rfl⟩

theorem ResourceRecord.unpack_typed {fuel : Nat} {s s' : MemoryStream} {r : ResourceRecord}
    (h : unpack fuel s = .done (r, s')) : r.Typed := by
  obtain ⟨name, t₁, -, h⟩ := Unpack.bind_eq_done h
  obtain ⟨type, t₂, -, h⟩ := Unpack.bind_eq_done h
  obtain ⟨clazz, t₃, -, h⟩ := Unpack.bind_eq_done h
  obtain ⟨ttl, t₄, -, h⟩ := Unpack.bind_eq_done h
  obtain ⟨rdlength, t₅, -, h⟩ := Unpack.bind_eq_done h
  obtain ⟨rdata, t₆, hdata, h⟩ := Unpack.bind_eq_done h
  cases h
  constructor
  · intro (htype : (type.toNat : Int) = QTYPE.A)
    rw [htype] at hdata
    exact RData.unpack_a hdata
  · intro (htype : (type.toNat : Int) = QTYPE.CNAME)
    rw [htype] at hdata
    exact RData.unpack_domain (by decide) hdata

namespace Message

theorem unpackAll_forall {α : Type} {u : Unpack α} {P : α → Prop} (hu : ∀ s a s', u s = .done (a, s') → P a)
    {n : Nat} {as : List α} {s s' : MemoryStream} (h : unpackAll u n s = .done (as, s')) :
    as.length = n ∧ ∀ a ∈ as, P a := by
  induction n generalizing as s with
  | zero =>
      cases h
      exact ⟨rfl, nofun⟩
  | succ n ih =>
      obtain ⟨a, t, ha, h⟩ := Unpack.bind_eq_done h
      obtain ⟨as', t', has, h⟩ := Unpack.bind_eq_done h
      cases h
      obtain ⟨hlen, hall⟩ := ih has
      exact ⟨congrArg (· + 1) hlen, List.forall_mem_cons.mpr ⟨hu s a t ha, hall⟩⟩

/-- There are as many answers as the header says, each with the data of its type. -/
structure Answered (m : Message) : Prop where
  length_eq : m.answers.length = m.header.ancount.toNat
  typed : ∀ an ∈ m.answers, an.Typed

theorem unpack_answered {fuel : Nat} {s s' : MemoryStream} {m : Message} (h : unpack fuel s = .done (m, s')) :
    m.Answered := by
  obtain ⟨header, t₁, -, h⟩ := Unpack.bind_eq_done h
  obtain ⟨questions, t₂, -, h⟩ := Unpack.bind_eq_done h
  obtain ⟨answers, t₃, hanswers, h⟩ := Unpack.bind_eq_done h
  obtain ⟨authorities, t₄, -, h⟩ := Unpack.bind_eq_done h
  obtain ⟨additionals, t₅, -, h⟩ := Unpack.bind_eq_done h
  cases h
  obtain ⟨hlen, htyped⟩ := unpackAll_forall (fun _ _ _ => ResourceRecord.unpack_typed) hanswers
  exact ⟨hlen, htyped⟩

end Message

/-! ## From name to name -/

namespace Resolver

variable {m : Message} {domain owner name : Domain} {calls : Nat}

/-- The answer decides what the call does for this name. -/
def decides (domain : Domain) (an : ResourceRecord) : Bool :=
  an.name = domain ∧ (an.type = QTYPE.A ∨ an.type = QTYPE.CNAME)

/-- The other name that the first answer for this one gives. -/
def aliasOf (m : Message) (domain : Domain) : Option Domain :=
  (m.answers.find? (decides domain)).bind fun an =>
    match an.rdata with
    | .domain name => some name
    | _ => none

/-- The address that the first answer for this name gives. -/
def addressOf (m : Message) (domain : Domain) : Option UInt32 :=
  (m.answers.find? (decides domain)).bind fun an =>
    match an.rdata with
    | .a address => some address
    | _ => none

theorem findAnswer_eq {recurse : Domain → Except Fault (Option UInt32)} {answers : List ResourceRecord}
    (htyped : ∀ an ∈ answers, an.Typed) :
    findAnswer recurse domain answers.length answers =
      match answers.find? (decides domain) with
      | none => .ok none
      | some an =>
          match an.rdata with
          | .a address => .ok (some (htonl address))
          | .domain name => recurse name
          | _ => .error .badVariantAccess := by
  induction answers with
  | nil => rfl
  | cons an answers ih =>
      have hrest := ih fun an' h => htyped an' (List.mem_cons_of_mem _ h)
      have han := htyped an List.mem_cons_self
      rw [List.length_cons, findAnswer]
      by_cases hname : an.name = domain
      · rw [if_pos hname]
        by_cases ha : an.type = QTYPE.A
        · obtain ⟨address, hdata⟩ := han.a ha
          have hdecides : decides domain an = true := decide_eq_true ⟨hname, .inl ha⟩
          rw [if_pos ha, List.find?_cons_of_pos hdecides]
          simp only [hdata]
        · rw [if_neg ha]
          by_cases hcname : an.type = QTYPE.CNAME
          · obtain ⟨name, hdata⟩ := han.cname hcname
            have hdecides : decides domain an = true := decide_eq_true ⟨hname, .inr hcname⟩
            rw [if_pos hcname, List.find?_cons_of_pos hdecides]
            simp only [hdata]
          · have hdecides : ¬ decides domain an = true := by simp [decides, ha, hcname]
            rw [if_neg hcname, List.find?_cons_of_neg hdecides, hrest]
      · have hdecides : ¬ decides domain an = true := by simp [decides, hname]
        rw [if_neg hname, List.find?_cons_of_neg hdecides, hrest]

theorem decides_iff {an : ResourceRecord} :
    decides domain an = true ↔ an.name = domain ∧ (an.type = QTYPE.A ∨ an.type = QTYPE.CNAME) := decide_eq_true_iff

/-- A call goes on with the other name, or it is at the end. -/
theorem getFromMsg_succ (h : m.Answered) :
    getFromMsg m (calls + 1) domain =
      match aliasOf m domain with
      | some name => getFromMsg m calls name
      | none => .ok ((addressOf m domain).map htonl) := by
  rw [getFromMsg, ← h.length_eq, findAnswer_eq h.typed, aliasOf, addressOf]
  cases hfind : m.answers.find? (decides domain) with
  | none => rfl
  | some an =>
      have htyped := h.typed an (List.mem_of_find?_eq_some hfind)
      rcases (decides_iff.mp (List.find?_some hfind)).2 with ha | hcname
      · obtain ⟨address, hdata⟩ := htyped.a ha
        simp only [Option.bind_some, hdata, Option.map_some]
      · obtain ⟨name, hdata⟩ := htyped.cname hcname
        simp only [Option.bind_some, hdata]

/-- The call walks along the aliases; it is over when it has come to the last of them. -/
theorem getFromMsg_running_iff (h : m.Answered) :
    getFromMsg m calls domain = .error .running ↔ Walks.after (aliasOf m) calls domain ≠ none := by
  induction calls generalizing domain with
  | zero => exact iff_of_true rfl (Option.some_ne_none domain)
  | succ calls ih =>
      rw [getFromMsg_succ h, Walks.after]
      cases aliasOf m domain with
      | none => exact iff_of_false (fun h => by cases h) fun h => h rfl
      | some name => exact ih

theorem getFromMsg_eq_ok (h : m.Answered) {r : Option UInt32} (hr : getFromMsg m calls domain = .ok r) :
    ∃ owner, Relation.ReflTransGen (Walks.Leads (aliasOf m)) domain owner ∧ r = (addressOf m owner).map htonl := by
  induction calls generalizing domain with
  | zero => cases hr
  | succ calls ih =>
      rw [getFromMsg_succ h] at hr
      cases halias : aliasOf m domain with
      | none =>
          rw [halias] at hr
          cases hr
          exact ⟨domain, .refl, rfl⟩
      | some name =>
          rw [halias] at hr
          obtain ⟨owner, hwalk, howner⟩ := ih hr
          exact ⟨owner, .head halias hwalk, howner⟩

/-- A call that does not run out of nested calls returns. -/
theorem exists_ok_iff (h : m.Answered) :
    (∃ r, getFromMsg m calls domain = .ok r) ↔ getFromMsg m calls domain ≠ .error .running := by
  constructor
  · rintro ⟨r, hr⟩ hrunning
    cases hr.symm.trans hrunning
  · intro hne
    induction calls generalizing domain with
    | zero => exact absurd rfl hne
    | succ calls ih =>
        rw [getFromMsg_succ h] at hne ⊢
        cases halias : aliasOf m domain with
        | none => exact ⟨_, rfl⟩
        | some name =>
            rw [halias] at hne
            exact ih hne

/-! ## The number of nested calls -/

theorem mem_of_aliasOf (halias : aliasOf m domain = some name) : domain ∈ m.answers.map ResourceRecord.name := by
  obtain ⟨an, hfind, -⟩ := Option.bind_eq_some_iff.mp halias
  have hname := (decides_iff.mp (List.find?_some hfind)).1
  exact List.mem_map.mpr ⟨an, List.mem_of_find?_eq_some hfind, hname⟩

theorem aliases_end_iff (m : Message) (domain : Domain) :
    (Walks.after (aliasOf m) (m.answers.length + 1) domain = none ↔ ¬ Walks.Circles (aliasOf m) domain) ∧
      ((∃ n, Walks.after (aliasOf m) n domain = none) ↔ ¬ Walks.Circles (aliasOf m) domain) := by
  have hlive : ∀ b c, aliasOf m b = some c → b ∈ m.answers.map ResourceRecord.name :=
    fun _ _ halias => mem_of_aliasOf halias
  have hends := Walks.ends_iff (a := domain) hlive
  rwa [List.length_map] at hends

/-- For a message that has come from bytes the call returns if and only if the aliases do not lead in a circle, and then
with no more nested calls than there are answers, and one. -/
theorem getFromMsg_returns_iff {fuel : Nat} {s s' : MemoryStream} (h : Message.unpack fuel s = .done (m, s'))
    (domain : Domain) :
    ((∃ r, getFromMsg m (m.header.ancount.toNat + 1) domain = .ok r) ↔ ¬ Walks.Circles (aliasOf m) domain) ∧
      ((∃ calls r, getFromMsg m calls domain = .ok r) ↔ ¬ Walks.Circles (aliasOf m) domain) := by
  have hm := Message.unpack_answered h
  have hends := aliases_end_iff m domain
  rw [hm.length_eq] at hends
  simp only [exists_ok_iff hm, ne_eq, getFromMsg_running_iff hm, not_not]
  exact hends

/-- The header of a reply with so many answers. -/
def replyHeader (ancount : UInt16) : MessageHeader :=
  ⟨7, true, 0, true, false, false, false, 0, 0, 0, ancount, 0, 0⟩

def replyBytes (ancount : UInt8) (answers : List UInt8) : List UInt8 :=
  [0, 7, 0x84, 0, 0, 0, 0, ancount, 0, 0, 0, 0] ++ answers

def nameA : Domain := ⟨[[97], []]⟩
def nameB : Domain := ⟨[[98], []]⟩

/-- `b A 1.2.3.4` and behind it `a CNAME b`. -/
def aliasedBytes : List UInt8 :=
  replyBytes 2 ([1, 98, 0, 0, 1, 0, 1, 0, 0, 0, 60, 0, 4, 1, 2, 3, 4] ++
    [1, 97, 0, 0, 5, 0, 1, 0, 0, 0, 60, 0, 3, 1, 98, 0])

def aliased : Message where
  header := replyHeader 2
  questions := []
  answers := [⟨nameB, QTYPE.A, 1, 60, 4, .a 0x01020304⟩, ⟨nameA, QTYPE.CNAME, 1, 60, 3, .domain nameB⟩]
  authorities := []
  additionals := []

theorem unpack_aliased :
    Message.unpack 2 ⟨Domain.received aliasedBytes, 0⟩ = .done (aliased, ⟨Domain.received aliasedBytes, 45⟩) := by
  decide +kernel

theorem getFromMsg_returns_iff_aliased :
    ¬ Walks.Circles (aliasOf aliased) nameA ∧ ∃ r, getFromMsg aliased 3 nameA = .ok r := by
  have hreturns := getFromMsg_returns_iff unpack_aliased nameA
  have hacyclic := hreturns.2.mp ⟨2, some 0x04030201, by decide⟩
  exact ⟨hacyclic, hreturns.1.mpr hacyclic⟩

/-- `a CNAME a`. -/
def loopedBytes : List UInt8 := replyBytes 1 [1, 97, 0, 0, 5, 0, 1, 0, 0, 0, 60, 0, 3, 1, 97, 0]

def looped : Message where
  header := replyHeader 1
  questions := []
  answers := [⟨nameA, QTYPE.CNAME, 1, 60, 3, .domain nameA⟩]
  authorities := []
  additionals := []

theorem looped_running :
    Message.unpack 2 ⟨Domain.received loopedBytes, 0⟩ = .done (looped, ⟨Domain.received loopedBytes, 28⟩) ∧
      ∀ calls, getFromMsg looped calls nameA = .error .running := by
  have hunpack : Message.unpack 2 ⟨Domain.received loopedBytes, 0⟩ =
      .done (looped, ⟨Domain.received loopedBytes, 28⟩) := by
    decide +kernel
  have hstep : aliasOf looped nameA = some nameA := by decide
  have hcircles : Walks.Circles (aliasOf looped) nameA := ⟨nameA, .refl, .single hstep⟩
  exact ⟨hunpack, fun calls => (getFromMsg_running_iff (Message.unpack_answered hunpack)).mpr (hcircles.goes_on calls)⟩

end Resolver

end Dwhbll.Network.Dns
