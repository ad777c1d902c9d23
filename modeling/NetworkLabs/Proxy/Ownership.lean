import NetworkLabs.Custody
import NetworkLabs.Proxy.Entitlement
import Mathlib.Algebra.BigOperators.Group.Finset.Basic

/-! Sockets and resolvers: who opens them, and who closes them. -/
namespace NetworkLabs.Proxy

open Transition

/-- What is opened outside and has to be closed. -/
inductive Resource
  | descriptor (fd : Int)
  | resolver (R : Nat)
deriving DecidableEq

/-- `openServerSocket` returns -1 where there is no socket. -/
def Event.use : Event → Option (Custody.Use Resource)
  | .connect fd _ _ _ => if fd = -1 then none else some (.acquire (.descriptor fd))
  | .stub R => R.map fun R => .acquire (.resolver R)
  | .dnsClose R => R.map fun R => .release (.resolver R)
  | .close fd => some (.release (.descriptor fd))
  | .read _ _ _ | .write _ _ _ _ | .reply _ _ | .submit _ _ => none

/-- An entry without an event is an `accept`. -/
def entryUse (entry : Int × Option Event) : Option (Custody.Use Resource) :=
  entry.2.elim (some (.acquire (.descriptor entry.1))) Event.use

/-- Every opening and closing since `openListenSocket`. -/
def uses (listenSocket : Int) (log : Log) : List (Custody.Use Resource) :=
  .acquire (.descriptor listenSocket) :: log.filterMap entryUse

/-- What a live record is to close. -/
def Connection.holds (c : Connection) : Multiset Resource :=
  .descriptor c.clientSocket ::ₘ
    match c.status with
    | .forwarding => {.descriptor c.serverSocket}
    | .resolving => c.R.elim 0 fun R => {.resolver R}
    | _ => 0

def Fate.holds : Fate → Multiset Resource
  | .stay c => c.holds
  | .drop _ _ => 0

def Table.owned (s : Table) (listenSocket : Int) : Multiset Resource :=
  .descriptor listenSocket ::ₘ
    ∑ i ∈ Finset.range s.connectionsCount.toNat, (s.connections i).holds

namespace Connection

variable {c : Connection} {rev : Peer → Revents} {ans : Answers} {r : Fate × List Event}

/-- A resolver that is created for the request gets its query. -/
def Submits (c : Connection) (ans : Answers) : Prop :=
  c.currBufClient ≥ 5 → char (c.clientBuf 3) = 3 → c.nameArrived = true →
    0 ≤ char (c.clientBuf 4) → ans.dnsStub ≠ none → ans.dnsSubmit = 0

/-- The handling of a record opens and closes what the record holds, and then holds. -/
structure Balances (c : Connection) (r : Fate × List Event) : Prop where
  uses : Custody.lts.MTr c.holds ((r.2 ++ r.1.closing).filterMap Event.use) r.1.holds
  unrelayed : ∀ c', r.1 = .stay c' → c'.status ≠ .forwarding → c'.Unrelayed

theorem holds_of_before (hs : c.status ≠ .forwarding) (hs' : c.status ≠ .resolving) :
    c.holds = {.descriptor c.clientSocket} := by
  unfold holds
  split
  · exact absurd ‹_› hs
  · exact absurd ‹_› hs'
  · rfl

theorem holds_of_forwarding (hs : c.status = .forwarding) :
    c.holds = {.descriptor c.clientSocket, .descriptor c.serverSocket} := by
  simp only [holds, hs]
  rfl

theorem holds_of_resolving (hs : c.status = .resolving) {R : Nat} (hR : c.R = some R) :
    c.holds = {.descriptor c.clientSocket, .resolver R} := by
  simp only [holds, hs, hR]
  rfl

theorem balances_idle (hu : c.status ≠ .forwarding → c.Unrelayed) {es : List Event}
    (he : es.filterMap Event.use = []) : c.Balances (.stay c, es) := by
  refine ⟨?_, ?_⟩
  · simp only [Fate.closing, List.append_nil, he]
    exact .refl
  · rintro _ ⟨⟩
    exact hu

/-- A record without a server or a resolver is dropped. -/
theorem balances_drop (hs : c.status ≠ .forwarding) (hs' : c.status ≠ .resolving)
    {c' : Connection} (hc : c'.clientSocket = c.clientSocket) {es : List Event}
    (he : es.filterMap Event.use = []) : c.Balances (.drop c' false, es) := by
  refine ⟨?_, nofun⟩
  simp only [List.filterMap_append, he, List.nil_append, holds_of_before hs hs', Fate.closing, hc]
  exact Custody.mTr_release _

/-- The record moves on to another status before the relay. -/
theorem balances_stay (hs : c.status ≠ .forwarding) (hs' : c.status ≠ .resolving)
    (c' : Connection) (hc : c'.clientSocket = c.clientSocket) (hn : c'.status ≠ .forwarding)
    (hn' : c'.status ≠ .resolving) (hu : c'.Unrelayed) {es : List Event}
    (he : es.filterMap Event.use = []) : c.Balances (.stay c', es) := by
  refine ⟨?_, ?_⟩
  · simp only [Fate.closing, List.append_nil, he, Fate.holds, holds_of_before hs hs',
      holds_of_before hn hn', hc]
    exact .refl
  · rintro _ ⟨⟩ _
    exact hu

/-- The server socket of a record is opened and what else it held given back: it is relayed, or
dropped where there is no socket. -/
theorem balances_opened {before : Multiset Resource} (es : List Event) {address port : List UInt8}
    (hc : c.holds = before + {.descriptor c.clientSocket})
    (hes : ∀ held, Custody.lts.MTr (before + held) (es.filterMap Event.use) held) :
    c.Balances ((c.opened ans).1,
      .connect ans.socket address port ans.connect :: es ++ (c.opened ans).2) := by
  by_cases hsocket : ans.socket = -1
  · rw [opened_of_failed hsocket]
    refine ⟨?_, nofun⟩
    have hend := (hes {.descriptor c.clientSocket}).append (Custody.mTr_release _)
    rw [hc]
    simpa [List.filterMap_cons, Event.use, hsocket, Fate.closing, Fate.holds] using hend
  · rw [opened_of_connected hsocket]
    refine ⟨?_, ?_⟩
    · have hopen : Custody.lts.MTr (before + {.descriptor c.clientSocket})
          [.acquire (.descriptor ans.socket)] _ := Custody.mTr_acquire _
      rw [← Multiset.add_cons] at hopen
      have hend := hopen.append (hes _)
      rw [hc, Fate.holds, holds_of_forwarding rfl, Multiset.pair_comm]
      simpa [List.filterMap_cons, Event.use, hsocket, Fate.closing] using hend
    · rintro _ ⟨⟩ hne
      exact absurd rfl hne

theorem use_lookupEvents (hstarted : lookupStarted ans = true) : ∃ R, ans.dnsStub = some R ∧
    (c.lookupEvents ans).filterMap Event.use = [.acquire (.resolver R)] := by
  cases hstub : ans.dnsStub with
  | none => simp [lookupStarted, hstub] at hstarted
  | some R => exact ⟨R, rfl, by simp [lookupEvents, hstub, List.filterMap_cons, Event.use]⟩

/-- The request of a record that holds nothing but its client's socket. -/
theorem balances_parse (hs : c.status ≠ .forwarding) (hs' : c.status ≠ .resolving)
    (hu : c.Unrelayed) (hsubmits : c.Submits ans) (h : c.parseRequest ans = .ok r) :
    c.Balances r := by
  have hholds := holds_of_before hs hs'
  cases parses_of_ok h with
  | waiting => exact balances_idle (fun _ => hu) rfl
  | address h1 h10 =>
    have hnone : c.holds = 0 + {.descriptor c.clientSocket} := by rw [hholds, zero_add]
    apply balances_opened [] hnone
    intro held
    rw [zero_add]
    exact .refl
  | sought h5 h3 harrived hlength hstarted =>
    obtain ⟨R, hstub, huse⟩ := use_lookupEvents (c := c) hstarted
    refine ⟨?_, ?_⟩
    · have hR : (c.resolvingName ans).R = some R := hstub
      rw [Fate.closing, List.append_nil, huse, hholds, Fate.holds, holds_of_resolving rfl hR]
      exact Multiset.pair_comm _ _ ▸ Custody.mTr_acquire _
    · rintro _ ⟨⟩ _
      exact ⟨hu.server, hu.client⟩
  | unsought h5 h3 harrived hlength hstarted =>
    have hstub : ans.dnsStub = none := by
      by_contra hne
      have hsubmit := hsubmits h5 h3 harrived hlength hne
      simp [lookupStarted, Option.isSome_iff_ne_none.mpr hne, hsubmit] at hstarted
    have hclient : (c.resolvingName ans).clientSocket = c.clientSocket := rfl
    apply balances_drop hs hs' hclient
    simp [lookupEvents, hstub, List.filterMap_cons, Event.use]
  | unknown => exact balances_drop hs hs' rfl rfl

/-- What a record in `CS_RESOLVING` holds besides its client's socket, which may be nothing. -/
def lookup (c : Connection) : Multiset Resource := c.R.elim 0 fun R => {.resolver R}

theorem holds_of_lookup (hs : c.status = .resolving) :
    c.holds = c.lookup + {.descriptor c.clientSocket} := by
  rw [add_comm, Multiset.singleton_add]
  simp only [holds, hs]
  rfl

theorem mTr_dnsClose (c : Connection) (held : Multiset Resource) :
    Custody.lts.MTr (c.lookup + held) ([Event.dnsClose c.R].filterMap Event.use) held := by
  unfold lookup
  cases c.R with
  | none =>
    rw [Option.elim_none, zero_add]
    exact .refl
  | some R => exact Custody.mTr_release _

theorem balances_resolving (hs : c.status = .resolving) (hu : c.Unrelayed) (hp : c.Polled rev) :
    c.Balances (c.resolving rev ans) := by
  have hidle : c.Balances (c.forwarding rev ans) := by
    rw [forwarding_of_quiet (hp.quiet hs) hu.server hu.client]
    exact balances_idle (fun _ => hu) rfl
  have hfailed : c.Balances (.drop c false, [.reply c.clientSocket (errorReply 4),
      .dnsClose c.R]) := by
    refine ⟨?_, nofun⟩
    rw [holds_of_lookup hs, List.filterMap_append]
    exact (c.mTr_dnsClose {.descriptor c.clientSocket}).append (Custody.mTr_release _)
  unfold resolving
  split
  · split
    · exact balances_opened _ (holds_of_lookup hs) c.mTr_dnsClose
    split
    · exact hfailed
    split
    · exact hfailed
    · exact hidle
  · exact hidle

theorem use_forwarding (c : Connection) (rev : Peer → Revents) (ans : Answers) :
    (c.forwarding rev ans).2.filterMap Event.use = [] := by
  rw [List.filterMap_eq_nil_iff]
  apply forwarding_events
  · intro d peer
    rfl
  · intro peer fd bytes accepted
    rfl

/-- The relay closes both of its ends. -/
theorem balances_forwarding (hs : c.status = .forwarding) : c.Balances (c.forwarding rev ans) := by
  have huse := use_forwarding c rev ans
  have hends := sameEnds_forwarding c rev ans
  have hboth := hends.socket
  have hserver : ∀ d server, (c.forwarding rev ans).1 = .drop d server → server = true := by
    intro d server hdrop
    simp only [forwarding] at hdrop
    split at hdrop <;> cases hdrop
    rfl
  generalize c.forwarding rev ans = r at huse hends hboth hserver
  rcases r with ⟨d | ⟨d, server⟩, es⟩
  · have hstatus : d.status = .forwarding := hends.status.trans hs
    refine ⟨?_, ?_⟩
    · rw [Fate.closing, List.append_nil, huse, Fate.holds, holds_of_forwarding hs,
        holds_of_forwarding hstatus]
      rw [show d.clientSocket = c.clientSocket from hboth .client,
        show d.serverSocket = c.serverSocket from hboth .server]
      exact .refl
    · rintro _ ⟨⟩ hne
      exact absurd hstatus hne
  · obtain rfl := hserver d server rfl
    refine ⟨?_, fun d' hd => absurd hd (by simp)⟩
    rw [List.filterMap_append, huse, holds_of_forwarding hs, List.nil_append, Fate.closing,
      show d.clientSocket = c.clientSocket from hboth .client,
      show d.serverSocket = c.serverSocket from hboth .server]
    exact (Custody.mTr_release _).append (Custody.mTr_release _)

theorem balances_greeting (hs : c.status = .incoming) (hu : c.Unrelayed) (hf : c.ReadFits ans) :
    c.Balances ((c.appended ans).greeting, [c.readEvent .client ans]) := by
  have hne : c.status ≠ .forwarding := by simp [hs]
  have hne' : c.status ≠ .resolving := by simp [hs]
  have hunrelayed : (c.appended ans).Unrelayed := ⟨hu.server, Int.add_nonneg hf.2.1 hf.1⟩
  have hclient : (c.appended ans).clientSocket = c.clientSocket := rfl
  unfold greeting
  split
  · split
    · exact balances_drop hne hne' hclient rfl
    split
    · refine balances_stay hne hne' { c.appended ans with
        status := if (c.appended ans).offersNoAuth then .authSuccess else .authFailure } rfl ?_ ?_
        ⟨hunrelayed.server, hunrelayed.client⟩ rfl
      · dsimp only
        split <;> simp
      · dsimp only
        split <;> simp
    · exact balances_stay hne hne' _ hclient hne hne' hunrelayed rfl
  · exact balances_stay hne hne' _ hclient hne hne' hunrelayed rfl

/-- The handling of a record by itself, unless a query is not submitted. -/
theorem balances_attended (hu : c.status ≠ .forwarding → c.Unrelayed) (hp : c.Polled rev)
    (hsubmits : c.status = .sockRequest → ((rev .client).pollin || (rev .client).pollout) = true →
      readCount (ans.read .client) ≠ 0 → (c.appended ans).rejected = false →
      (c.appended ans).Submits ans)
    (h : c.attended rev ans = .ok r) : c.Balances r := by
  by_cases hresolving : c.status = .resolving
  · have hattended : c.attended rev ans = .ok (c.resolving rev ans) := by
      simp [attended, handled, hresolving]
    rw [hattended] at h
    cases h
    exact balances_resolving hresolving (hu (by simp [hresolving])) hp
  cases attended_cases hu hp h with
  | idle hs => exact balances_idle hu rfl
  | gone hs he =>
    apply balances_drop hs hresolving rfl
    rw [List.filterMap_eq_nil_iff]
    intro e hmem
    rw [he e hmem]
    rfl
  | greeted hs hf => exact balances_greeting hs (hu (by simp [hs])) hf
  | unauthorised hs => exact balances_drop (by simp [hs]) hresolving rfl rfl
  | authorised hs =>
    have hunrelayed := hu (by simp [hs])
    exact balances_stay (by simp [hs]) hresolving
      { c with status := .sockRequest, currBufClient := 0 } rfl (by simp) (by simp)
      ⟨hunrelayed.server, Int.le_refl 0⟩ rfl
  | rejected hs hf hr =>
    have hclient : (c.appended ans).clientSocket = c.clientSocket := rfl
    exact balances_drop (by simp [hs]) hresolving hclient rfl
  | requested hs hf h0 hrev hr hp' =>
    have hunrelayed := hu (by simp [hs])
    have hne : (c.appended ans).status ≠ .forwarding := by simp [appended, hs]
    have hne' : (c.appended ans).status ≠ .resolving := by simp [appended, hs]
    have hparse := balances_parse hne hne'
      ⟨hunrelayed.server, Int.add_nonneg hf.2.1 hf.1⟩ (hsubmits hs hrev h0 hr) hp'
    have hholds : (c.appended ans).holds = c.holds := rfl
    exact ⟨hholds ▸ hparse.uses, hparse.unrelayed⟩
  | resolved hs => exact absurd hs hresolving
  | unresolved hs => exact absurd hs hresolving
  | relayed hs => exact balances_forwarding hs

end Connection

namespace Table

variable {s t : Table} {i : Nat} {rev : Peer → Revents} {ans : Answers} {es : List Event}
  {r : Fate × List Event} {c : Connection} {listenSocket : Int}

/-- What the records in the other slots are to close. -/
def others (s : Table) (listenSocket : Int) (i : Nat) : Multiset Resource :=
  .descriptor listenSocket ::ₘ
    ∑ j ∈ (Finset.range s.connectionsCount.toNat).erase i, (s.connections j).holds

theorem sum_holds_update {I : Finset Nat} (records : Nat → Connection) (c : Connection)
    (hi : i ∉ I) :
    ∑ j ∈ I, (Function.update records i c j).holds = ∑ j ∈ I, (records j).holds := by
  apply Finset.sum_congr rfl
  intro j hj
  rw [Function.update_of_ne (ne_of_mem_of_not_mem hj hi)]

theorem owned_eq (hi : (i : Int) < s.connectionsCount) :
    s.owned listenSocket = (s.connections i).holds + s.others listenSocket i := by
  have hmem : i ∈ Finset.range s.connectionsCount.toNat := Finset.mem_range.mpr (by omega)
  rw [owned, others, ← Finset.add_sum_erase _ _ hmem, Multiset.add_cons]

theorem owned_set (hi : (i : Int) < s.connectionsCount) :
    (s.set i c).owned listenSocket = c.holds + s.others listenSocket i := by
  rw [owned_eq (s := s.set i c) hi, set_connections, Function.update_self]
  rw [others, others, set_connections, set_connectionsCount,
    sum_holds_update _ _ (Finset.notMem_erase _ _)]

/-- A dead slot may hold anything. -/
theorem owned_set_dead (hi : s.connectionsCount ≤ i) :
    (s.set i c).owned listenSocket = s.owned listenSocket := by
  have hnot : i ∉ Finset.range s.connectionsCount.toNat := by
    rw [Finset.mem_range]
    omega
  rw [owned, owned, set_connections, set_connectionsCount, sum_holds_update _ _ hnot]

theorem owned_vacated (hi : (i : Int) < s.connectionsCount) :
    (s.vacated i c).owned listenSocket = s.others listenSocket i := by
  have hlast : s.connectionsCount.toNat = (s.connectionsCount - 1).toNat + 1 := by omega
  have hle : i ≤ (s.connectionsCount - 1).toNat := by omega
  unfold owned others vacated successor
  rw [hlast]
  generalize (s.connectionsCount - 1).toNat = last at hle
  dsimp only
  congr 1
  by_cases h : i = last
  · subst h
    have herase : (Finset.range (i + 1)).erase i = Finset.range i := by
      rw [Finset.range_add_one, Finset.erase_insert Finset.notMem_range_self]
    rw [herase, sum_holds_update _ _ Finset.notMem_range_self]
  · have hlt := Nat.lt_of_le_of_ne hle h
    have herase :
        (Finset.range (last + 1)).erase i = insert last ((Finset.range last).erase i) := by
      rw [Finset.range_add_one, Finset.erase_insert_of_ne (Ne.symm h)]
    have hnot : last ∉ (Finset.range last).erase i := by simp
    rw [herase, Finset.sum_insert hnot, ← Finset.add_sum_erase _ _ (Finset.mem_range.mpr hlt),
      Function.update_self, if_neg h, sum_holds_update _ _ (Finset.notMem_erase _ _)]

theorem owned_appended (hs : 0 ≤ s.connectionsCount) :
    Table.owned { s.set s.connectionsCount.toNat c with
        connectionsCount := s.connectionsCount + 1 } listenSocket =
      c.holds + s.owned listenSocket := by
  have hcount : (s.connectionsCount + 1).toNat = s.connectionsCount.toNat + 1 := by omega
  unfold owned
  dsimp only
  rw [hcount, Finset.sum_range_succ, set_connections, Function.update_self, add_comm,
    Multiset.add_cons, sum_holds_update _ _ Finset.notMem_range_self]

/-- What holds of the live records before the relay. -/
def Unrelayed (s : Table) : Prop := ∀ i : Nat, (i : Int) < s.connectionsCount →
  (s.connections i).status ≠ .forwarding → (s.connections i).Unrelayed

/-- What has been opened and not closed is what the live records are to close. -/
structure Accounts (s : Table) (listenSocket : Int) (us : List (Custody.Use Resource)) : Prop where
  uses : Custody.lts.MTr 0 us (s.owned listenSocket)
  unrelayed : s.Unrelayed

theorem unrelayed_commit (hs : s.Unrelayed)
    (hstay : ∀ c, r.1 = .stay c → c.status ≠ .forwarding → c.Unrelayed)
    (h : s.commit i r = .ok (t, es)) : t.Unrelayed := by
  rcases r with ⟨c | ⟨c, server⟩, es'⟩
  · cases h
    intro j hj
    by_cases hji : j = i
    · subst hji
      rw [set_connections, Function.update_self]
      exact hstay c rfl
    · rw [set_connections, Function.update_of_ne hji]
      exact hs j hj
  · by_cases hpos : 0 < s.connectionsCount
    · rw [commit_drop server hpos] at h
      cases h
      intro j hj
      simp only [vacated] at hj ⊢
      by_cases hji : j = i
      · subst hji
        rw [Function.update_self, successor]
        rw [if_neg (by omega)]
        exact hs _ (by omega)
      · rw [Function.update_of_ne hji]
        exact hs j (by omega)
    · rw [commit_drop_empty server (Int.not_lt.mp hpos)] at h
      cases h

theorem accounts_commit {us : List (Custody.Use Resource)} (hs : s.Accounts listenSocket us)
    (hi : (i : Int) < s.connectionsCount) (hb : (s.connections i).Balances r)
    (h : s.commit i r = .ok (t, es)) :
    t.Accounts listenSocket (us ++ es.filterMap Event.use) := by
  obtain ⟨huses, hunrelayed⟩ := hs
  rw [owned_eq hi] at huses
  have hes := commit_events h
  have hmoved := huses.append (Custody.mTr_add hb.uses (s.others listenSocket i))
  refine ⟨?_, unrelayed_commit hunrelayed hb.unrelayed h⟩
  rcases r with ⟨c | ⟨c, server⟩, es'⟩
  · cases h
    rw [owned_set hi]
    exact hes ▸ hmoved
  · rw [commit_drop server (by omega)] at h
    cases h
    rw [owned_vacated hi, ← zero_add (s.others listenSocket i), hes]
    exact hmoved

/-- The record in a dead slot waits for the rest of its request. -/
theorem accounts_commit_dead {us : List (Custody.Use Resource)} (hs : s.Accounts listenSocket us)
    (hi : s.connectionsCount ≤ i) (h : s.commit i (.stay c, []) = .ok (t, es)) :
    t.Accounts listenSocket (us ++ es.filterMap Event.use) := by
  cases h
  refine ⟨?_, ?_⟩
  · rw [owned_set_dead hi, List.filterMap_nil, List.append_nil]
    exact hs.uses
  · intro j hj
    simp only [set_connectionsCount] at hj
    rw [set_connections, Function.update_of_ne (by omega)]
    exact hs.unrelayed j hj

/-- A request that is parsed closes what it opens: its query is submitted, and behind a rejected
request there is nothing to parse but a whole request of a live record without a server and a
resolver. -/
def Careful (s : Table) (i : Nat) (rev : Peer → Revents) (ans : Answers) : Prop :=
  s.AtRequest i rev → readCount (ans.read .client) ≠ 0 →
    (s.parsed i ans).Submits ans ∧
      (((s.connections i).appended ans).rejected = true →
        (s.parsed i ans).Waiting ∨ (i ≠ (s.connectionsCount - 1).toNat ∧
          (s.parsed i ans).status ≠ .forwarding ∧ (s.parsed i ans).status ≠ .resolving))

theorem accounts_handle {us : List (Custody.Use Resource)} (hs : s.Accounts listenSocket us)
    (hi : (i : Int) < s.connectionsCount) (hp : (s.connections i).Polled rev)
    (hcareful : s.Careful i rev ans) (h : s.handle i rev ans = .ok (t, es)) :
    t.Accounts listenSocket (us ++ es.filterMap Event.use) := by
  have hu := hs.unrelayed i hi
  have hbalances : ∀ r, (s.connections i).attended rev ans = .ok r →
      (s.connections i).Balances r := by
    intro r hattended
    refine Connection.balances_attended hu hp ?_ hattended
    intro hstatus hrev h0 hr
    have hparsed : s.parsed i ans = (s.connections i).appended ans := if_neg (by simp [hr])
    exact hparsed ▸ (hcareful ⟨hstatus, hrev⟩ h0).1
  by_cases hr : s.Rejects i rev ans
  swap
  · obtain ⟨r, hattended, hc⟩ := attended_of_handle hr h
    exact accounts_commit hs hi (hbalances r hattended) hc
  obtain ⟨r, es', es'', hattended, hc, hparse, hc', -, rfl⟩ := attended_of_rejects hi hr h
  have hdropped := accounts_commit hs hi (hbalances _ hattended) hc
  obtain ⟨hsubmits, hstray⟩ := hcareful hr.1 hr.2.1
  have hparsed : s.parsed i ans = s.successor i ((s.connections i).appended ans) :=
    if_pos hr.2.2
  have hslot : (s.vacated i ((s.connections i).appended ans)).connections i = s.parsed i ans :=
    vacated_connections_self.trans hparsed.symm
  rw [List.filterMap_append, ← List.append_assoc]
  by_cases hlive : (i : Int) < (s.vacated i ((s.connections i).appended ans)).connectionsCount
  · refine accounts_commit hdropped hlive ?_ hc'
    rw [hslot]
    rcases hstray hr.2.2 with hwaiting | ⟨-, hne, hne'⟩
    · cases (Connection.parseRequest_of_waiting hwaiting).symm.trans hparse
      exact Connection.balances_idle (hslot ▸ hdropped.unrelayed i hlive) rfl
    · exact Connection.balances_parse hne hne' (hslot ▸ hdropped.unrelayed i hlive (hslot ▸ hne))
        hsubmits hparse
  · rcases hstray hr.2.2 with hwaiting | ⟨hlast, -⟩
    · cases (Connection.parseRequest_of_waiting hwaiting).symm.trans hparse
      exact accounts_commit_dead hdropped (by omega) hc'
    · simp only [vacated] at hlive
      omega

theorem unrelayed_accept {socket id : Int} (hs : s.Unrelayed)
    (h : s.accept socket id = .ok t) : t.Unrelayed := by
  unfold accept at h
  split at h
  case isFalse => cases h
  case isTrue hroom =>
  cases h
  intro j hj
  by_cases hji : j = s.connectionsCount.toNat
  · subst hji
    simp only [set_connections, Function.update_self]
    exact fun _ => ⟨rfl, Int.le_refl 0⟩
  · simp only [set_connections, Function.update_of_ne hji]
    have hlt : (j : Int) < s.connectionsCount + 1 := hj
    exact hs j (by omega)

theorem accounts_accept {us : List (Custody.Use Resource)} {socket id : Int}
    (hs : s.Accounts listenSocket us) (h : s.accept socket id = .ok t) :
    t.Accounts listenSocket (us ++ [.acquire (.descriptor socket)]) := by
  refine ⟨?_, unrelayed_accept hs.unrelayed h⟩
  unfold accept at h
  split at h
  case isFalse => cases h
  case isTrue hroom =>
  cases h
  rw [owned_appended hroom.1, Connection.holds_of_before (by simp) (by simp)]
  exact hs.uses.append (Custody.mTr_acquire _)

theorem mem_owned {resource : Resource} : resource ∈ s.owned listenSocket ↔
    resource = .descriptor listenSocket ∨
      ∃ j : Nat, (j : Int) < s.connectionsCount ∧ resource ∈ (s.connections j).holds := by
  rw [owned, Multiset.mem_cons, Multiset.mem_sum]
  refine or_congr_right (exists_congr fun j => and_congr_left fun _ => ?_)
  rw [Finset.mem_range]
  omega

end Table

theorem Connection.descriptor_mem_holds {c : Connection} {fd : Int} :
    .descriptor fd ∈ c.holds ↔
      fd = c.clientSocket ∨ (c.status = .forwarding ∧ fd = c.serverSocket) := by
  cases hs : c.status with
  | forwarding => simp [holds_of_forwarding hs]
  | resolving => cases hR : c.R <;> simp [holds, hs, hR]
  | incoming | authFailure | authSuccess | sockRequest => simp [holds, hs]

theorem Connection.resolver_mem_holds {c : Connection} {R : Nat} :
    .resolver R ∈ c.holds ↔ c.status = .resolving ∧ c.R = some R := by
  cases hs : c.status with
  | forwarding => simp [holds_of_forwarding hs]
  | resolving => cases hR : c.R <;> simp [holds, hs, hR, eq_comm]
  | incoming | authFailure | authSuccess | sockRequest => simp [holds, hs]

theorem entryUse_entries (fd : Int) (es : List Event) :
    (entries fd es).filterMap entryUse = es.filterMap Event.use := by
  unfold entries
  rw [List.filterMap_map]
  rfl

theorem entryUse_tableEntries {s : Table} {i : Nat} {rev : Peer → Revents} {ans : Answers}
    (es : List Event) :
    (s.entries i rev ans es).filterMap entryUse = es.filterMap Event.use := by
  unfold Table.entries
  split
  · rw [List.filterMap_append, entryUse_entries, entryUse_entries, ← List.filterMap_append,
      List.take_append_drop]
  · exact entryUse_entries _ es

theorem uses_append (listenSocket : Int) (log log' : Log) :
    uses listenSocket (log ++ log') = uses listenSocket log ++ log'.filterMap entryUse := by
  simp [uses]

namespace Logged

variable {s t : Logged} {a : Loop.Action} {xs : List Loop.Action} {listenSocket : Int}

/-- Every request that is parsed closes what it opens, and what is left in the array when `poll`
fails was asked for. -/
def Careful (s : Logged) : Loop.Action → Prop
  | .pollError fds => Loop.Reported s.loop.table fds
  | .handle ans =>
    match s.loop.phase with
    | .scanning i fds => (i : Int) < s.loop.table.connectionsCount →
        s.loop.table.Careful i (fun peer => fds (fdIndex i peer)) ans
    | _ => True
  | _ => True

/-- The invariant of the runs in which all requests do. -/
structure Owns (listenSocket : Int) (s : Logged) : Prop where
  bounds : s.loop.InBounds
  accounts : s.loop.table.Accounts listenSocket (uses listenSocket s.log)

theorem owns_initial : Owns listenSocket initial := by
  refine ⟨Loop.noCopyFault_initial.2 _ rfl, Custody.mTr_acquire _, ?_⟩
  intro i hi
  have hlt : (i : Int) < 0 := hi
  omega

theorem owns_trInv : (lts.guard Careful).TrInv (Owns listenSocket) := by
  rintro ⟨s, log⟩ a ⟨t, log'⟩ ⟨⟨hstep, hlog, -⟩, hcareful⟩ hs
  refine ⟨inBounds_step hstep hs.bounds (by rintro fds rfl; exact hcareful), ?_⟩
  have haccounts := hs.accounts
  simp only at hlog hstep haccounts ⊢
  subst hlog
  rw [uses_append]
  cases Loop.moved_of_tr hstep with
  | polled | unpolled => simpa [Loop.entries] using haccounts
  | @handled i fds ans t es hphase hi h =>
    simp only [Careful, hphase] at hcareful
    simp only [Loop.entries, hphase, List.drop_left, entryUse_tableEntries]
    exact Table.accounts_handle haccounts hi (hs.bounds.polled i fds hphase i (Nat.le_refl i) hi)
      (hcareful hi) h
  | scanned hphase =>
    simp only [Loop.entries, hphase, List.drop_length, entryUse_tableEntries, List.filterMap_nil,
      List.append_nil]
    exact haccounts
  | @accepted socket id t h =>
    simp only [Loop.entries, if_pos (Table.accept_count h)]
    exact Table.accounts_accept haccounts h
  | unaccepted => simpa [Loop.entries] using haccounts

/-- What is open belongs to the listening socket and the live records, and everything was closed
once between two openings. -/
structure Balanced (s : Logged) (listenSocket : Int) : Prop where
  descriptors : ∀ fd, Custody.Outstanding (uses listenSocket s.log) (.descriptor fd) ↔
    fd = listenSocket ∨ ∃ i : Nat, (i : Int) < s.loop.table.connectionsCount ∧
      (fd = (s.loop.table.connections i).clientSocket ∨
        ((s.loop.table.connections i).status = .forwarding ∧
          fd = (s.loop.table.connections i).serverSocket))
  resolvers : ∀ R, Custody.Outstanding (uses listenSocket s.log) (.resolver R) ↔
    ∃ i : Nat, (i : Int) < s.loop.table.connectionsCount ∧
      (s.loop.table.connections i).status = .resolving ∧ (s.loop.table.connections i).R = some R
  separate : (s.loop.table.owned listenSocket).Nodup
  once : ∀ r, ∃ n, (uses listenSocket s.log).filter (fun u => u.resource = r) =
    (List.replicate n [.acquire r, .release r]).flatten ++
      if r ∈ s.loop.table.owned listenSocket then [.acquire r] else []

/-- In every run whose requests close what they open, everything is closed in time. The system
hands out nothing that is still open. -/
theorem balanced_of_run (h : (lts.guard Careful).MTr initial xs s)
    (hfresh : Custody.Fresh (uses listenSocket s.log)) : s.Balanced listenSocket := by
  have howns : Owns listenSocket s := LTS.mTr_of_trInv owns_trInv h owns_initial
  have huses := howns.accounts.uses
  have hexclusive := Custody.exclusive_of_fresh huses hfresh
  have houtstanding : ∀ r, Custody.Outstanding (uses listenSocket s.log) r ↔
      r ∈ s.loop.table.owned listenSocket :=
    fun r => ⟨Custody.mem_of_outstanding huses, Custody.outstanding_of_mem hexclusive⟩
  refine ⟨fun fd => ?_, fun R => ?_, Custody.exclusive_nodup hexclusive Multiset.nodup_zero,
    Custody.alternating hexclusive⟩
  · rw [houtstanding, Table.mem_owned, Resource.descriptor.injEq]
    simp only [Connection.descriptor_mem_holds]
  · rw [houtstanding, Table.mem_owned, or_iff_right (by simp)]
    simp only [Connection.resolver_mem_holds]

/-- The negotiation parses no request. -/
theorem careful_negotiated : (lts.guard Careful).MTr initial negotiation negotiated := by
  have hrun : (guarded fun c _ => c.status ≠ .sockRequest).MTr initial negotiation negotiated :=
    negotiated_run fun c _ _ h => by rcases h with h | h <;> simp [h]
  apply hrun.guard_imp
  intro s a h
  cases a with
  | handle ans =>
    simp only [Careful]
    split
    · rename_i i fds hphase
      simp only [Each, hphase] at h
      exact fun hi hreq => absurd hreq.1 (h hi).1
    · trivial
  | poll fds => trivial
  | pollError fds => exact h
  | accept socket id => trivial

theorem balanced_connecting : ∃ s, (lts.guard Careful).MTr initial
    (negotiation ++ [.handle (connecting 1 true)]) s ∧ s.Balanced 3 ∧
      .descriptor 7 ∈ s.loop.table.owned 3 := by
  have hrun : (lts.guard Careful).MTr initial (negotiation ++ [.handle (connecting 1 true)])
      (negotiated.next (.handle (connecting 1 true))) := by
    refine careful_negotiated.append (.single ⟨tr_handle rfl, fun _ _ _ => ⟨fun _ h3 => ?_,
      fun hr => ?_⟩⟩)
    · exact absurd h3 (by decide +kernel)
    · exact absurd hr (by decide +kernel)
  refine ⟨_, hrun, balanced_of_run hrun (Custody.fresh_of_nodup (by decide +kernel)), ?_⟩
  exact Table.mem_owned.mpr (.inr ⟨0, by decide +kernel,
    Connection.descriptor_mem_holds.mpr (.inr (by decide +kernel))⟩)

/-- A request for the name a, whose resolver is created but does not take the query. -/
def unsubmitted : Answers :=
  { Answers.reading ⟨[5, 1, 0, 3, 1, 97, 0, 80], by simp [bufferSize]⟩ with
    dnsStub := some 7, dnsSubmit := 1 }

/-- The resolver is never closed. -/
theorem not_balanced_unsubmitted : ¬ ∀ xs s listenSocket, lts.MTr initial xs s →
    Custody.Fresh (uses listenSocket s.log) → s.Balanced listenSocket := by
  intro hall
  have hrun : lts.MTr initial (negotiation ++ [.handle unsubmitted])
      (negotiated.next (.handle unsubmitted)) :=
    negotiated_unguarded.append (.single (tr_handle rfl))
  have huses : uses 3 (negotiated.next (.handle unsubmitted)).log =
      [.acquire (.descriptor 3), .acquire (.descriptor 4)] ++ .acquire (.resolver 7) ::
        [.release (.descriptor 4)] := by decide +kernel
  have hbalanced := hall _ _ 3 hrun (Custody.fresh_of_nodup (huses ▸ by decide))
  obtain ⟨i, hi, -⟩ := (hbalanced.resolvers 7).mp ⟨_, _, huses, by decide⟩
  have hnone : (negotiated.next (.handle unsubmitted)).loop.table.connectionsCount = 0 := by
    decide +kernel
  omega

end Logged

end NetworkLabs.Proxy
