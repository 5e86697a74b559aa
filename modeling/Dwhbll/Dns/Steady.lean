import Dwhbll.Dns.Delegations
import Dwhbll.Dns.Receiving

/-!
# Servers that always reply the same

Where every server always replies the same, the resolution is a search in depth from the root servers along the
delegations. Nothing keeps it from asking a server again, so that it does not come back from a circle of delegations.
-/

namespace Dwhbll.Network.Dns.Resolver

variable {w : World} {fuel calls : Nat} {domain : Domain} {replies : UInt32 → Message} {addr : UInt32} {s : State}
  {m : Message} {ct : Tokenizer.CType} {text : List UInt8}

/-- Where the resolution goes on from a server. -/
def nextServers (replies : UInt32 → Message) (server : UInt32) : List UInt32 :=
  if (replies server).header.aa then [] else delegations (replies server)

/-- The server is one of the root servers, or delegations lead to it from there. -/
abbrev FromRoot (replies : UInt32 → Message) (server : UInt32) : Prop :=
  Searching.From (nextServers replies) rootServers server

/-- Whenever one of these servers is asked it gives the same reply, and for its aliases there are enough nested calls. -/
structure Steady (w : World) (fuel : Nat) (domain : Domain) (replies : UInt32 → Message) : Prop where
  reply : ∀ server, FromRoot replies server → ∀ s, (ask w fuel server domain s).1 = .ok (replies server)
  answers : ∀ server, FromRoot replies server → (replies server).header.ancount.toNat < fuel

/-! ## Aliases -/

theorem gives_unique {address address' : Option UInt32} (h : Gives m domain address) (h' : Gives m domain address') :
    address = address' := by
  obtain ⟨owner, hwalk, hlast, rfl⟩ := h
  obtain ⟨owner', hwalk', hlast', rfl⟩ := h'
  induction hwalk using Relation.ReflTransGen.head_induction_on with
  | refl =>
      obtain rfl | ⟨name, hname, -⟩ := Relation.ReflTransGen.cases_head hwalk'
      · rfl
      · cases hlast.symm.trans hname
  | head hname _ ih =>
      obtain rfl | ⟨name, hname', hwalk'⟩ := Relation.ReflTransGen.cases_head hwalk'
      · cases hlast'.symm.trans hname
      · cases hname.symm.trans hname'
        exact ih hwalk'

/-- With enough nested calls the call gives what the reply has for the name. -/
theorem getFromMsg_eq_ok_iff (hm : m.Answered) (hfuel : m.header.ancount.toNat < fuel) {r : Option UInt32} :
    getFromMsg m fuel domain = .ok r ↔ ∃ address, Gives m domain address ∧ r = address.map htonl := by
  constructor
  · exact gives_of_getFromMsg hm
  · rintro ⟨address, ⟨owner, hwalk, hlast, rfl⟩, rfl⟩
    have hgives : Gives m domain (addressOf m owner) := ⟨owner, hwalk, hlast, rfl⟩
    have hends : ∃ n, Walks.after (aliasOf m) n domain = none := by
      obtain ⟨n, hn⟩ := Walks.reflTransGen_iff.mp hwalk
      refine ⟨n + 1, ?_⟩
      rw [Walks.after_add, hn, Option.bind_some, Walks.after, hlast]
      rfl
    have hshort := (aliases_end_iff m domain).1.mpr ((aliases_end_iff m domain).2.mp hends)
    have hreturns : ∃ r, getFromMsg m fuel domain = .ok r := (exists_ok_iff hm).mpr fun hrunning => by
      have hne := (getFromMsg_running_iff hm).mp hrunning
      obtain ⟨owner', howner'⟩ := Option.ne_none_iff_exists'.mp hne
      obtain ⟨b, hb, -⟩ := Walks.after_of_le (m := m.answers.length + 1) (by rw [hm.length_eq]; exact hfuel) howner'
      cases hshort.symm.trans hb
    obtain ⟨r, hr⟩ := hreturns
    obtain ⟨address, hgives', rfl⟩ := gives_of_getFromMsg hm hr
    rw [gives_unique hgives hgives']
    exact hr

/-- The aliases lead to an end if and only if they do not lead in a circle. -/
theorem exists_gives_iff (m : Message) (domain : Domain) :
    (∃ address, Gives m domain address) ↔ ¬ Walks.Circles (aliasOf m) domain := by
  rw [← (aliases_end_iff m domain).2]
  constructor
  · rintro ⟨_, owner, hwalk, hlast, -⟩
    obtain ⟨n, hn⟩ := Walks.reflTransGen_iff.mp hwalk
    refine ⟨n + 1, ?_⟩
    rw [Walks.after_add, hn, Option.bind_some, Walks.after, hlast]
    rfl
  · rintro ⟨n, hn⟩
    induction n generalizing domain with
    | zero => cases hn
    | succ n ih =>
        rw [Walks.after] at hn
        cases halias : aliasOf m domain with
        | none => exact ⟨_, domain, .refl, halias, rfl⟩
        | some name =>
            rw [halias] at hn
            obtain ⟨address, owner, hwalk, howner⟩ := ih name hn
            exact ⟨address, owner, .head halias hwalk, howner⟩

/-! ## The search -/

/-- What the resolution finds at a server; there is nothing where it does not come back from the aliases. -/
def lookAt (fuel : Nat) (domain : Domain) (replies : UInt32 → Message) (server : UInt32) : Option (Option UInt32) :=
  if (replies server).header.aa then (getFromMsg (replies server) fuel domain).toOption else some none

theorem tryEach_eq_ok {call : UInt32 → Query (Option UInt32)} {found : UInt32 → Option (Option UInt32)}
    {servers : List UInt32} (h : ∀ server ∈ servers, ∀ s r, (call server s).1 = .ok r ↔ found server = some r)
    {r : Option UInt32} : (tryEach call servers s).1 = .ok r ↔ Searching.first found servers = some r := by
  induction servers generalizing s with
  | nil =>
      rw [tryEach_nil, Searching.first]
      exact ⟨fun h => by cases h; rfl, fun h => by cases h; rfl⟩
  | cons server servers ih =>
      obtain ⟨hserver, hrest⟩ := List.forall_mem_cons.mp h
      have hcall := hserver s
      rw [tryEach_cons, Searching.first]
      generalize call server s = c at hcall
      obtain ⟨e | _ | x, s'⟩ := c
      · have hnone : found server = none := by
          by_contra hne
          obtain ⟨r, hr⟩ := Option.ne_none_iff_exists'.mp hne
          cases (hcall r).mpr hr
        rw [hnone]
        exact ⟨fun h => (by cases h), fun h => (by cases h)⟩
      · rw [(hcall none).mp rfl]
        exact ih hrest
      · rw [(hcall (some x)).mp rfl]
        exact ⟨fun h => by cases h; rfl, fun h => by cases h; rfl⟩

/-- From a server on, the resolution is the search. -/
theorem queryDns_eq_ok (h : Steady w fuel domain replies) (haddr : FromRoot replies addr) {r : Option UInt32} :
    (queryDns w fuel domain calls addr s).1 = .ok r ↔
      Searching.search (lookAt fuel domain replies) (nextServers replies) calls addr = some r := by
  induction calls generalizing addr s r with
  | zero => exact ⟨fun h => (by cases h), fun h => (by cases h)⟩
  | succ calls ih =>
      have hreply := h.reply addr haddr s
      have hunpacked := ask_unpacked hreply
      rw [queryDns, Query.run_bind, Searching.search, lookAt, nextServers]
      generalize ask w fuel addr domain s = c at hreply
      obtain ⟨_, s'⟩ := c
      cases hreply
      simp only
      by_cases haa : (replies addr).header.aa
      · rw [if_pos haa, if_pos haa]
        cases hget : getFromMsg (replies addr) fuel domain with
        | error e => exact ⟨fun h => (by cases h), fun h => (by cases h)⟩
        | ok r' =>
            cases r' with
            | none => simp only [if_pos haa, Except.toOption]; exact ⟨fun h => by cases h; rfl, fun h => by cases h; rfl⟩
            | some x => exact ⟨fun h => by cases h; rfl, fun h => by cases h; rfl⟩
      · have hrest : (tryEach (queryDns w fuel domain calls) (delegations (replies addr)) s').1 = .ok r ↔
            Searching.first (Searching.search (lookAt fuel domain replies) (nextServers replies) calls)
              (delegations (replies addr)) = some r := by
          refine tryEach_eq_ok fun next hnext s r => ?_
          have hmem : next ∈ nextServers replies addr := by rwa [nextServers, if_neg haa]
          exact ih (haddr.tail hmem)
        simp only [if_neg haa]
        split
        · rename_i hzero
          have hnone : (replies addr).authorities = [] := List.eq_nil_of_length_eq_zero (by rw [hunpacked.nscount, hzero]; rfl)
          have hdelegations : delegations (replies addr) = [] := by rw [delegations, hnone]; rfl
          rw [hdelegations] at hrest ⊢
          exact hrest
        · rw [followAuthorities_eq hunpacked.additionals hunpacked.authorities]
          exact hrest

theorem lookAt_eq_some_iff (h : Steady w fuel domain replies) (haddr : FromRoot replies addr) {r : Option UInt32} :
    lookAt fuel domain replies addr = some r ↔
      if (replies addr).header.aa then ∃ address, Gives (replies addr) domain address ∧ r = address.map htonl
      else r = none := by
  have hunpacked := ask_unpacked (h.reply addr haddr ⟨0, []⟩)
  rw [lookAt]
  split
  · rw [← getFromMsg_eq_ok_iff hunpacked.answered (h.answers addr haddr)]
    cases getFromMsg (replies addr) fuel domain with
    | error e => exact ⟨fun h => (by cases h), fun h => (by cases h)⟩
    | ok r' => exact ⟨fun h => by cases h; rfl, fun h => by cases h; rfl⟩
  · exact ⟨fun h => by cases h; rfl, fun h => by rw [h]⟩

theorem resolve_eq_ok (h : Steady w fuel (Domain.parse ct text) replies) {r : Option UInt32} :
    (resolve w fuel ct calls text s).1 = .ok r ↔
      Searching.first (Searching.search (lookAt fuel (Domain.parse ct text) replies) (nextServers replies) calls)
        rootServers = some r :=
  tryEach_eq_ok fun root hroot _ _ => queryDns_eq_ok h ⟨root, hroot, .refl⟩

/-- The resolution comes back without an address if and only if no delegations from the root servers go on for ever and
every authoritative reply that they lead to has no address at the end of its aliases. It comes back wherever the
delegations and the aliases end, and what it has then is from one of these replies. -/
theorem resolve_steady (h : Steady w fuel (Domain.parse ct text) replies) (s : State) :
    ((∃ calls, (resolve w fuel ct calls text s).1 = .ok none) ↔
        ∀ server, FromRoot replies server → Searching.Ends (nextServers replies) server ∧
          ((replies server).header.aa → Gives (replies server) (Domain.parse ct text) none)) ∧
      ((∀ server, FromRoot replies server → Searching.Ends (nextServers replies) server ∧
          ((replies server).header.aa → ¬ Walks.Circles (aliasOf (replies server)) (Domain.parse ct text))) →
        ∃ calls r, (resolve w fuel ct calls text s).1 = .ok r) ∧
      ∀ calls x, (resolve w fuel ct calls text s).1 = .ok (some x) →
        ∃ server address, FromRoot replies server ∧ (replies server).header.aa ∧
          Gives (replies server) (Domain.parse ct text) (some address) ∧ x = htonl address := by
  simp only [resolve_eq_ok h]
  refine ⟨?_, fun hall => ?_, fun calls x hx => ?_⟩
  · rw [Searching.first_search_eq_none_iff]
    refine forall₂_congr fun server hserver => and_congr_right fun _ => ?_
    rw [lookAt_eq_some_iff h hserver]
    split
    · constructor
      · rintro ⟨address, hgives, haddress⟩ _
        rwa [Option.map_eq_none_iff.mp haddress.symm] at hgives
      · exact fun hnone => ⟨none, hnone ‹_›, rfl⟩
    · exact iff_of_true rfl fun haa => absurd haa ‹_›
  · refine Searching.exists_first_search fun server hserver => ⟨(hall server hserver).1, Option.ne_none_iff_exists'.mpr ?_⟩
    simp only [lookAt_eq_some_iff h hserver]
    split
    · obtain ⟨address, hgives⟩ := (exists_gives_iff _ _).mpr ((hall server hserver).2 ‹_›)
      exact ⟨_, address, hgives, rfl⟩
    · exact ⟨none, rfl⟩
  · obtain ⟨server, hserver, hlook⟩ := Searching.exists_of_first_search hx
    have hserver' := (lookAt_eq_some_iff h hserver).mp hlook
    split at hserver'
    · obtain ⟨address, hgives, haddress⟩ := hserver'
      obtain ⟨address, rfl, rfl⟩ := Option.map_eq_some_iff.mp haddress.symm
      exact ⟨server, address, hserver, ‹_›, hgives, rfl⟩
    · cases hserver'

/-! ## One delegation -/

/-- `. NS b` and in the additional section `b A 1.2.3.4`. -/
def referralBytes : List UInt8 :=
  [0, 7, 0x80, 0, 0, 0, 0, 0, 0, 1, 0, 1] ++ ([0, 0, 2, 0, 1, 0, 0, 0, 60, 0, 3, 1, 98, 0] ++
    [1, 98, 0, 0, 1, 0, 1, 0, 0, 0, 60, 0, 4, 1, 2, 3, 4])

def referral : Message where
  header := ⟨7, true, 0, false, false, false, false, 0, 0, 0, 0, 1, 1⟩
  questions := []
  answers := []
  authorities := [⟨⟨[[]]⟩, QTYPE.NS, 1, 60, 3, .domain nameB⟩]
  additionals := [⟨nameB, QTYPE.A, 1, 60, 4, .a 0x01020304⟩]

/-- The root servers refer to 1.2.3.4, which has the aliased reply. -/
def delegating : World where
  behind _ := Behind.all 9
  resized _ := 9
  udp sent := .received (if sent.getLast?.map Prod.fst = some 0x04030201 then aliasedBytes else referralBytes)
  tcp _ := .unconnected

def delegatingReplies (server : UInt32) : Message := if server = 0x04030201 then aliased else referral

theorem messageAt_referral : MessageAt referralBytes referral where
  header := ⟨by decide, ⟨by decide, by decide, by decide⟩⟩
  counts := by decide
  sections := by
    have hroot : Domain.Expands referralBytes 12 [] 13 := .root rfl
    have hserver : Domain.Expands referralBytes 23 [[98]] 26 :=
      .label (n := 1) rfl (by decide) (by decide) (by decide) (.root rfl)
    have howner : Domain.Expands referralBytes 26 [[98]] 29 :=
      .label (n := 1) rfl (by decide) (by decide) (by decide) (.root rfl)
    have hdata : DataAt referralBytes 23 QTYPE.NS (.domain nameB) 26 := .domain (by decide) ⟨_, hserver, rfl⟩
    have hauthority : RecordAt referralBytes 12 ⟨⟨[[]]⟩, QTYPE.NS, 1, 60, 3, .domain nameB⟩ 26 :=
      @RecordAt.mk _ _ ⟨[[]]⟩ 2 1 3 60 _ _ ⟨_, hroot, rfl⟩ (by decide) hdata
    have haddress : DataAt referralBytes 39 QTYPE.A (.a 0x01020304) 43 := .a (by decide)
    have hadditional : RecordAt referralBytes 26 ⟨nameB, QTYPE.A, 1, 60, 4, .a 0x01020304⟩ 43 :=
      @RecordAt.mk _ _ nameB 1 1 4 60 _ _ ⟨_, howner, rfl⟩ (by decide) haddress
    exact ⟨12, 12, 26, 43, .nil, .nil, .cons hauthority .nil, .cons hadditional .nil⟩

theorem messageAt_aliased : MessageAt aliasedBytes aliased where
  header := ⟨by decide, ⟨by decide, by decide, by decide⟩⟩
  counts := by decide
  sections := by
    have howner : Domain.Expands aliasedBytes 12 [[98]] 15 :=
      .label (n := 1) rfl (by decide) (by decide) (by decide) (.root rfl)
    have halias : Domain.Expands aliasedBytes 29 [[97]] 32 :=
      .label (n := 1) rfl (by decide) (by decide) (by decide) (.root rfl)
    have hname : Domain.Expands aliasedBytes 42 [[98]] 45 :=
      .label (n := 1) rfl (by decide) (by decide) (by decide) (.root rfl)
    have haddress : DataAt aliasedBytes 25 QTYPE.A (.a 0x01020304) 29 := .a (by decide)
    have hdata : DataAt aliasedBytes 42 QTYPE.CNAME (.domain nameB) 45 := .domain (by decide) ⟨_, hname, rfl⟩
    have hfirst : RecordAt aliasedBytes 12 ⟨nameB, QTYPE.A, 1, 60, 4, .a 0x01020304⟩ 29 :=
      @RecordAt.mk _ _ nameB 1 1 4 60 _ _ ⟨_, howner, rfl⟩ (by decide) haddress
    have hsecond : RecordAt aliasedBytes 29 ⟨nameA, QTYPE.CNAME, 1, 60, 3, .domain nameB⟩ 45 :=
      @RecordAt.mk _ _ nameA 5 1 3 60 _ _ ⟨_, halias, rfl⟩ (by decide) hdata
    exact ⟨12, 45, 45, 45, .nil, .cons hfirst (.cons hsecond .nil), .nil, .nil⟩

theorem exists_steady_delegating : ∃ fuel, Steady delegating fuel nameA delegatingReplies := by
  obtain ⟨k, hk⟩ := ask_datagram delegating (by decide) messageAt_aliased rfl
  obtain ⟨n, hn⟩ := ask_datagram delegating (by decide) messageAt_referral rfl
  refine ⟨max k n + 3, fun server _ s => ?_, fun server _ => ?_⟩
  · rw [delegatingReplies]
    split
    · rename_i hserver
      refine hk _ (by omega) server nameA s (fun sent bytes => ?_) (by decide)
      simp [delegating, hserver]
    · rename_i hserver
      refine hn _ (by omega) server nameA s (fun sent bytes => ?_) (by decide)
      simp [delegating, hserver]
  · rw [delegatingReplies]
    split
    · exact Nat.lt_of_lt_of_le (by decide : aliased.header.ancount.toNat < 3) (Nat.le_add_left 3 _)
    · exact Nat.lt_of_lt_of_le (by decide : referral.header.ancount.toNat < 3) (Nat.le_add_left 3 _)

theorem ends_delegating (server : UInt32) : Searching.Ends (nextServers delegatingReplies) server := by
  have hlast : Searching.Ends (nextServers delegatingReplies) 0x04030201 := ⟨_, fun next hnext => by cases hnext⟩
  refine ⟨_, fun next (hnext : next ∈ nextServers delegatingReplies server) => ?_⟩
  rw [nextServers, delegatingReplies] at hnext
  split at hnext
  · cases hnext
  · rw [List.mem_singleton.mp hnext]
    exact hlast

theorem gives_aliased : Gives aliased nameA (some 0x01020304) :=
  ⟨nameB, .single (show aliasOf aliased nameA = some nameB by decide), by decide, by decide⟩

theorem resolve_steady_delegating : ∃ fuel,
    (∃ calls r, (resolve delegating fuel .c calls [97] ⟨7, []⟩).1 = .ok r) ∧
      ¬ ∃ calls, (resolve delegating fuel .c calls [97] ⟨7, []⟩).1 = .ok none := by
  have hlabels : ∀ l ∈ [[97]], Domain.IsLabel .c l := by
    intro l hl
    rw [List.mem_singleton.mp hl]
    exact ⟨by decide, by decide, by decide, List.all_eq_true.mp (by decide)⟩
  have hname : Domain.parse .c [97] = nameA := Domain.parse_intercalate (List.cons_ne_nil _ _) hlabels
  obtain ⟨fuel, hfuel⟩ := exists_steady_delegating
  have hsteady := resolve_steady (hname ▸ hfuel) ⟨7, []⟩
  rw [hname] at hsteady
  refine ⟨fuel, hsteady.2.1 fun server _ => ⟨ends_delegating server, fun haa => ?_⟩, fun hnone => ?_⟩
  · rw [delegatingReplies] at haa ⊢
    split at haa
    · rw [if_pos ‹_›]
      exact (exists_gives_iff _ _).mp ⟨_, gives_aliased⟩
    · cases haa
  · have hroot : (0x040029C6 : UInt32) ∈ rootServers := by decide
    have hlast := (hsteady.1.mp hnone 0x04030201 ⟨_, hroot, .single (List.mem_singleton.mpr rfl)⟩).2 rfl
    cases gives_unique hlast gives_aliased

end Dwhbll.Network.Dns.Resolver
