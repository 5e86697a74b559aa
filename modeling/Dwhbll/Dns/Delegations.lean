import Dwhbll.Dns.Resolving

/-!
# The servers that a resolution asks

Whatever the network does, a question only goes to one of the first servers or to one to which a reply before it has
referred, and an address is that of an authoritative reply.
-/

namespace Dwhbll.Network.Dns.Resolver

variable {w : World} {fuel : Nat} {domain : Domain} {roots : List UInt32} {addr : UInt32} {s : State} {m : Message}
  {sent final : List Sent}

/-- At the last of its aliases the name has this address in the reply, or none. -/
def Gives (m : Message) (domain : Domain) (address : Option UInt32) : Prop :=
  ∃ owner, Relation.ReflTransGen (Walks.Leads (aliasOf m)) domain owner ∧ aliasOf m owner = none ∧
    addressOf m owner = address

/-- At a point of the run the server is asked and replies so. -/
def Replied (w : World) (fuel : Nat) (domain : Domain) (sent : List Sent) (server : UInt32) (m : Message) : Prop :=
  ∃ s, (ask w fuel server domain s).1 = .ok m ∧ (ask w fuel server domain s).2.sent <+: sent

/-- The first servers, and those to which the replies so far have referred. -/
inductive Known (w : World) (fuel : Nat) (domain : Domain) (roots : List UInt32) (sent : List Sent) : UInt32 → Prop where
  | root {server : UInt32} : server ∈ roots → Known w fuel domain roots sent server
  | delegated {server next : UInt32} {m : Message} :
      Known w fuel domain roots sent server → Replied w fuel domain sent server m → m.header.aa = false →
      next ∈ delegations m → Known w fuel domain roots sent next

/-- It is one of the sends of a query for the name. -/
def AsksFor (domain : Domain) (send : Send) : Prop :=
  ∃ behind queryID buffer tc, queryBuffer behind queryID domain = .done buffer ∧ send ∈ sends buffer tc

/-- Everything has been sent for the name, and to a server that was known then. -/
def Justified (w : World) (fuel : Nat) (domain : Domain) (roots : List UInt32) (sent : List Sent) : Prop :=
  ∀ before x, before ++ [x] <+: sent → Known w fuel domain roots before x.1 ∧ AsksFor domain x.2

theorem Replied.mono (hle : sent <+: final) (h : Replied w fuel domain sent addr m) : Replied w fuel domain final addr m := by
  obtain ⟨s, hs, hsent⟩ := h
  exact ⟨s, hs, hsent.trans hle⟩

theorem Known.mono (hle : sent <+: final) (h : Known w fuel domain roots sent addr) :
    Known w fuel domain roots final addr := by
  induction h with
  | root hmem => exact .root hmem
  | delegated _ hreplied haa hnext ih => exact .delegated ih (hreplied.mono hle) haa hnext

theorem Justified.concat {send : Send} (h : Justified w fuel domain roots sent)
    (hknown : Known w fuel domain roots sent addr) (hasks : AsksFor domain send) :
    Justified w fuel domain roots (sent ++ [(addr, send)]) := by
  intro before x hle
  rcases List.prefix_concat_iff.mp hle with heq | hle
  · obtain ⟨rfl, hx⟩ := List.append_inj' heq rfl
    cases hx
    exact ⟨hknown, hasks⟩
  · exact h before x hle

/-! ## One question -/

theorem unpacked_of_unpackFrom {stream : MemoryStream} (h : unpackFrom fuel stream = .ok m) : m.Unpacked := by
  rw [unpackFrom] at h
  cases hunpack : Message.unpack fuel stream with
  | done r =>
      rw [hunpack] at h
      cases h
      exact Message.unpack_unpacked hunpack
  | outside | lengthError | terminated | running =>
      rw [hunpack] at h
      cases h

section

variable (w : World) (fuel : Nat) (addr : UInt32) (bytes : List UInt8) (s : State)

theorem askUdp_unpacked (h : (askUdp w fuel addr bytes s).1 = .ok m) : m.Unpacked := by
  simp only [askUdp] at h
  split at h
  · cases h
  · cases h
  · rename_i bs _
    generalize datagramStream w.resized bs = stream at h
    exact unpacked_of_unpackFrom h

theorem askTcp_unpacked (h : (askTcp w fuel addr bytes s).1 = .ok m) : m.Unpacked := by
  simp only [askTcp] at h
  split at h
  · cases h
  · exact unpacked_of_unpackFrom h

end

theorem ask_unpacked (h : (ask w fuel addr domain s).1 = .ok m) : m.Unpacked := by
  rw [ask, Query.run_bind] at h
  generalize nextBuffer w domain s = r at h
  obtain ⟨_ | buffer, s₁⟩ := r
  · cases h
  · simp only at h
    split at h
    · rw [Query.run_bind] at h
      have hudp := askUdp_unpacked (m := m) w fuel addr ((buffer.data.drop 2).take (buffer.size - 2)) s₁
      generalize askUdp w fuel addr _ s₁ = r at h hudp
      obtain ⟨_ | result, s₂⟩ := r
      · cases h
      · simp only at h
        split at h
        · exact askTcp_unpacked w fuel addr buffer.data s₂ h
        · exact hudp h
    · exact askTcp_unpacked w fuel addr buffer.data s₁ h

variable {α : Type} {Q : List Sent → α → Prop}

theorem gives_of_getFromMsg {calls : Nat} {r : Option UInt32} (hm : m.Answered)
    (h : getFromMsg m calls domain = .ok r) : ∃ address, Gives m domain address ∧ r = address.map htonl := by
  induction calls generalizing domain with
  | zero => cases h
  | succ calls ih =>
      rw [getFromMsg_succ hm] at h
      cases halias : aliasOf m domain with
      | none =>
          rw [halias] at h
          cases h
          exact ⟨_, ⟨domain, .refl, halias, rfl⟩, rfl⟩
      | some name =>
          rw [halias] at h
          obtain ⟨address, ⟨owner, hwalk, howner⟩, hr⟩ := ih h
          exact ⟨address, ⟨owner, .head halias hwalk, howner⟩, hr⟩

end Dwhbll.Network.Dns.Resolver
