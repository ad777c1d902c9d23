import NetworkLabs.Proxy.TableFacts

/-! What the handling of one connection does to the others, and to whose sockets. -/
namespace NetworkLabs.Proxy.Table

open Connection

variable {s t : Table} {i : Nat} {rev : Peer → Revents} {ans : Answers} {es : List Event}

/-- Handling connection `i` changed no other connection but for the move into a dropped slot,
dropped one connection at most, and wrote to and closed sockets of connection `i` only. -/
structure Isolated (s : Table) (i : Nat) (t : Table) (es : List Event) : Prop where
  others : ∀ j : Nat, j ≠ i → (j : Int) < t.connectionsCount → t.connections j = s.connections j
  count : t.connectionsCount = s.connectionsCount ∨
    (t.connectionsCount = s.connectionsCount - 1 ∧
      ((i : Int) < t.connectionsCount →
        t.connections i = s.connections (s.connectionsCount - 1).toNat))
  events : ∀ e ∈ es, ∀ fd, e.touches = some fd → ∃ peer, fd = (s.connections i).socket peer

/-- `dns_res_stub` returns a resolver that no lookup in progress uses. -/
def StubFresh (s : Table) (ans : Answers) : Prop :=
  ∀ R, ans.dnsStub = some R → ∀ j : Nat, (j : Int) < s.connectionsCount →
    (s.connections j).status = .resolving → (s.connections j).R ≠ some R

/-- The reads fit, and after a rejected request nothing can be parsed out of the record that
comes into its slot; for the last slot, which stays as it is, at most a request that is served. -/
def Contained (s : Table) (i : Nat) (rev : Peer → Revents) (ans : Answers) : Prop :=
  s.Reads i rev ans → (s.connections i).ReadFits ans ∧
    ((s.connections i).status = .sockRequest →
      if ((s.connections i).appended ans).rejected then
        if i = (s.connectionsCount - 1).toNat then
          ((s.connections i).appended ans).Waiting ∨ ((s.connections i).appended ans).Served ans
        else (s.connections (s.connectionsCount - 1).toNat).Waiting
      else ((s.connections i).appended ans).NameFits)

/-- A fate that belongs to connection `i` alone. -/
theorem isolated_commit {r : Fate × List Event} (hi : (i : Int) < s.connectionsCount)
    (ho : (s.connections i).Owns r) : ∃ t es, s.commit i r = .ok (t, es) ∧ s.Isolated i t es := by
  rcases r with ⟨c | ⟨c, server⟩, es⟩
  · refine ⟨_, _, commit_stay, ?_, .inl rfl, ho.events⟩
    intro j hj _
    simp [hj]
  · refine ⟨_, _, commit_drop server (by omega), ?_, .inr ⟨rfl, ?_⟩, ?_⟩
    · intro j hj _
      simp [vacated, hj]
    · intro hlive
      simp only [vacated] at hlive
      rw [vacated_connections_self, successor, if_neg (by omega)]
    · intro e he fd hfd
      rcases List.mem_append.1 he with he | he
      · exact ho.events e he fd hfd
      rcases List.mem_cons.1 he with rfl | he
      · exact ⟨.client, (Option.some.inj hfd).symm.trans ho.client⟩
      · cases server with
        | false => simp at he
        | true =>
          simp only [if_true, List.mem_singleton] at he
          subst he
          exact ⟨.server, (Option.some.inj hfd).symm.trans (ho.server c rfl)⟩

/-- What is parsed out of the own record belongs to it. -/
theorem owns_parsed {c c₀ : Connection} {r : Fate × List Event} {e : Event}
    (hc : c.clientSocket = c₀.clientSocket) (he : e.touches = none)
    (hp : c.parseRequest ans = .ok r) : c₀.Owns (r.1, e :: r.2) := by
  have hparsed := parsed_parseRequest c ans
  rw [hp] at hparsed
  have hevents : ∀ es : List Event, (∀ e ∈ es, ∀ fd, e.touches = some fd → fd = c.clientSocket) →
      ∀ e' ∈ e :: es, ∀ fd, e'.touches = some fd → ∃ peer, fd = c₀.socket peer := by
    intro es hes e' he' fd hfd
    rcases List.mem_cons.1 he' with rfl | he'
    · simp [he] at hfd
    · exact ⟨.client, (hes e' he' fd hfd).trans hc⟩
  cases hparsed with
  | waiting => exact ⟨hevents [] (by simp), hc, by simp⟩
  | served _ ha hes => exact ⟨hevents _ hes, ha.clientSocket.trans hc, by simp⟩
  | refused _ _ _ hclient hes => exact ⟨hevents _ hes, hclient.trans hc, by simp⟩

/-- A served request changed its record. -/
theorem Advanced.ne {c c' : Connection} (ha : c.Advanced ans c')
    (hfresh : ∀ R, ans.dnsStub = some R → c.status = .resolving → c.R ≠ some R) : c' ≠ c := by
  rintro rfl
  rcases ha.changed with ⟨h10, h0⟩ | ⟨hstatus, hR, hsome⟩
  · omega
  · obtain ⟨R, hstub⟩ := Option.ne_none_iff_exists'.mp hsome
    exact hfresh R hstub hstatus (hR.trans hstub)

section Rejected

variable {c : Connection}

/-- The events of a rejected request, before the parsing goes on. -/
theorem touches_rejected {e₀ : Event} (h₀ : e₀.touches = none) {es' : List Event}
    (h : ∀ e ∈ es', ∀ fd, e.touches = some fd → fd = c.clientSocket) :
    ∀ e ∈ [e₀, .reply c.clientSocket (errorReply 7), .close c.clientSocket] ++ es',
      ∀ fd, e.touches = some fd → ∃ peer, fd = c.socket peer := by
  intro e he fd hfd
  rcases List.mem_append.1 he with he | he
  · simp only [List.mem_cons, List.not_mem_nil, or_false] at he
    rcases he with rfl | rfl | rfl
    · simp [h₀] at hfd
    · exact ⟨.client, (Option.some.inj hfd).symm⟩
    · exact ⟨.client, (Option.some.inj hfd).symm⟩
  · exact ⟨.client, h e he fd hfd⟩

/-- After a second drop the table has lost two connections. -/
theorem not_isolated_of_drop_twice {d : Connection} {es₀ es₁ : List Event} :
    ¬ ∃ t es, (((s.vacated i c).commit i (.drop d false, es₁)).map fun u => (u.1, es₀ ++ u.2)) =
      .ok (t, es) ∧ s.Isolated i t es := by
  rintro ⟨t, es, h, hiso⟩
  by_cases hs : 0 < (s.vacated i c).connectionsCount
  · rw [commit_drop false hs] at h
    cases h
    have hcount := hiso.count
    simp only [vacated] at hcount
    omega
  · rw [commit_drop_empty false (Int.not_lt.mp hs)] at h
    cases h

/-- For a request rejected in the last slot. -/
theorem isolated_rejected_last (hi : (i : Int) < s.connectionsCount)
    (hlast : i = (s.connectionsCount - 1).toNat) (h0 : readCount (ans.read .client) ≠ 0)
    (hf : (s.connections i).ReadFits ans)
    (hr : ((s.connections i).appended ans).rejected = true) :
    (∃ t es, s.request i ans = .ok (t, es) ∧ s.Isolated i t es) ↔
      ((s.connections i).appended ans).Waiting ∨ ((s.connections i).appended ans).Served ans := by
  have hstay : ∀ (c : Connection) (es : List Event),
      (∀ e ∈ es, ∀ fd, e.touches = some fd → ∃ peer, fd = (s.connections i).socket peer) →
      s.Isolated i ((s.vacated i ((s.connections i).appended ans)).set i c) es := by
    intro c es hes
    refine ⟨?_, .inr ⟨rfl, ?_⟩, hes⟩
    · intro j hj _
      simp [vacated, hj]
    · intro hlive
      simp only [set_connectionsCount, vacated] at hlive
      omega
  have hevent : ((s.connections i).readEvent .client ans).touches = none := rfl
  rw [request_of_rejected (by omega) h0 hf hr]
  have hsucc : s.successor i ((s.connections i).appended ans) = (s.connections i).appended ans :=
    if_pos hlast
  rw [hsucc]
  have hparsed := parsed_parseRequest ((s.connections i).appended ans) ans
  generalize ((s.connections i).appended ans).parseRequest ans = r at hparsed
  cases hparsed with
  | waiting hw =>
    refine iff_of_true ⟨_, _, rfl, hstay _ _ ?_⟩ (.inl hw)
    exact touches_rejected hevent (by simp)
  | served hs' _ hes =>
    refine iff_of_true ⟨_, _, rfl, hstay _ _ ?_⟩ (.inr hs')
    exact touches_rejected hevent hes
  | refused hw hs' => exact iff_of_false not_isolated_of_drop_twice (not_or.mpr ⟨hw, hs'⟩)
  | fault hn =>
    apply iff_of_false
    · rintro ⟨t, es, h, -⟩
      cases h
    · rintro (hw | hs')
      · exact hn (.of_waiting hw)
      · exact hn (.of_served hs')

/-- For a request rejected before the last slot: the last record was moved here. -/
theorem isolated_rejected_moved (hi : (i : Int) < s.connectionsCount) (hfresh : s.StubFresh ans)
    (hlast : i ≠ (s.connectionsCount - 1).toNat) (h0 : readCount (ans.read .client) ≠ 0)
    (hf : (s.connections i).ReadFits ans)
    (hr : ((s.connections i).appended ans).rejected = true) :
    (∃ t es, s.request i ans = .ok (t, es) ∧ s.Isolated i t es) ↔
      (s.connections (s.connectionsCount - 1).toNat).Waiting := by
  have hevent : ((s.connections i).readEvent .client ans).touches = none := rfl
  rw [request_of_rejected (by omega) h0 hf hr]
  have hsucc : s.successor i ((s.connections i).appended ans) =
      s.connections (s.connectionsCount - 1).toNat := if_neg hlast
  rw [hsucc]
  have hmoved : (i : Int) < s.connectionsCount - 1 := by omega
  have hparsed := parsed_parseRequest (s.connections (s.connectionsCount - 1).toNat) ans
  generalize (s.connections (s.connectionsCount - 1).toNat).parseRequest ans = r at hparsed
  cases hparsed with
  | waiting hw =>
    refine iff_of_true ⟨_, _, rfl, ?_, .inr ⟨rfl, fun _ => by simp⟩, ?_⟩ hw
    · intro j hj _
      simp [vacated, hj]
    · exact touches_rejected hevent (by simp)
  | @served c' es' hs' ha =>
    apply iff_of_false
    · rintro ⟨t, es, h, hiso⟩
      cases h
      have hkept := hiso.count
      simp only [set_connectionsCount, set_connections, vacated, Function.update_self] at hkept
      have hsame := (hkept.resolve_left (by omega)).2 hmoved
      refine Advanced.ne ha (fun R hR hstatus => ?_) hsame
      exact hfresh R hR _ (by omega) hstatus
    · exact fun hw => hw.not_served hs'
  | refused hw => exact iff_of_false not_isolated_of_drop_twice hw
  | fault hn =>
    refine iff_of_false ?_ fun hw => hn (.of_waiting hw)
    rintro ⟨t, es, h, -⟩
    cases h

end Rejected

/-- The handling of a connection is isolated exactly when it is contained. -/
theorem isolated_iff (hi : (i : Int) < s.connectionsCount) (hfresh : s.StubFresh ans) :
    (∃ t es, s.handle i rev ans = .ok (t, es) ∧ s.Isolated i t es) ↔ s.Contained i rev ans := by
  by_cases hreq : s.AtRequest i rev
  swap
  · have hreads : s.Contained i rev ans ↔
        ((s.connections i).Greets rev ans → (s.connections i).ReadFits ans) := by
      rw [Contained, reads_iff_greets hreq]
      refine ⟨fun hc hg => (hc hg).1, fun hf hg => ⟨hf hg, fun hs => ?_⟩⟩
      simp [Greets, hs] at hg
    rw [handle_of_not_atRequest hreq, hreads]
    rcases handled_ok_or (s.connections i) rev ans with ⟨hn, r, hr⟩ | ⟨hn, hr⟩
    · refine iff_of_true ?_ hn
      rw [hr]
      exact isolated_commit hi (owns_handled hr)
    · refine iff_of_false ?_ hn
      rw [hr]
      rintro ⟨t, es, h, -⟩
      cases h
  rw [handle_of_atRequest hreq]
  have hevent : ((s.connections i).readEvent .client ans).touches = none := rfl
  by_cases h0 : readCount (ans.read .client) = 0
  · refine iff_of_true ?_ fun hreads => absurd h0 hreads.1
    rw [request_eof h0]
    exact isolated_commit hi ⟨by simp [hevent], rfl, by simp⟩
  have hreads : s.Reads i rev ans := ⟨h0, .inr hreq⟩
  by_cases hf : (s.connections i).ReadFits ans
  swap
  · refine iff_of_false ?_ fun hc => hf (hc hreads).1
    rw [request_of_not_fits h0 hf]
    rintro ⟨t, es, h, -⟩
    cases h
  have hcontained : s.Contained i rev ans ↔
      if ((s.connections i).appended ans).rejected then
        if i = (s.connectionsCount - 1).toNat then
          ((s.connections i).appended ans).Waiting ∨ ((s.connections i).appended ans).Served ans
        else (s.connections (s.connectionsCount - 1).toNat).Waiting
      else ((s.connections i).appended ans).NameFits :=
    ⟨fun hc => (hc hreads).2 hreq.1, fun hc _ => ⟨hf, fun _ => hc⟩⟩
  rw [hcontained]
  cases hr : ((s.connections i).appended ans).rejected with
  | true =>
    by_cases hlast : i = (s.connectionsCount - 1).toNat
    · rw [if_pos rfl, if_pos hlast]
      exact isolated_rejected_last hi hlast h0 hf hr
    · rw [if_pos rfl, if_neg hlast]
      exact isolated_rejected_moved hi hfresh hlast h0 hf hr
  | false =>
    rw [if_neg (by simp), request_of_accepted h0 hf hr]
    rcases parseRequest_ok_or ((s.connections i).appended ans) ans with ⟨hn, r, hp⟩ | ⟨hn, hp⟩
    · refine iff_of_true ?_ hn
      rw [hp]
      exact isolated_commit hi (owns_parsed (c := (s.connections i).appended ans) rfl hevent hp)
    · refine iff_of_false ?_ hn
      rw [hp]
      rintro ⟨t, es, h, -⟩
      cases h

/-- A client about to send its request, and one whose bytes wait for a slow server. -/
def couple : Table where
  connections i :=
    if i = 0 then ⟨4, 0, .sockRequest, 0, 0, 1000, fun _ => 0, fun _ => 0, none⟩
    else ⟨5, 6, .forwarding, 0, 5, 1001, fun k => [71, 69, 84, 32, 47].getD k 0, fun _ => 0, none⟩
  connectionsCount := 2

def clientReadable : Peer → Revents
  | .client => ⟨true, true, false⟩
  | .server => ⟨false, false, false⟩

theorem isolated_iff_couple : ∃ t es,
    couple.handle 0 clientReadable (.reading ⟨[5, 1], by decide⟩) = .ok (t, es) ∧
      couple.Isolated 0 t es :=
  (isolated_iff (by decide) (fun _ hR => by cases hR)).mpr
    fun _ => ⟨by decide, fun _ => by decide⟩

/-- A wrong version byte of the first client drops the second one too, with an error reply. -/
theorem not_isolated_wrong_version : ∃ t es,
    couple.handle 0 clientReadable (.reading ⟨[4, 1], by decide⟩) = .ok (t, es) ∧
      t.connectionsCount = 0 ∧ .reply 5 (errorReply 8) ∈ es ∧ ¬ couple.Isolated 0 t es := by
  have hlost : ∀ t es, t.connectionsCount = 0 → ¬ couple.Isolated 0 t es := by
    intro t es h0 h
    rcases h.count with hcount | ⟨hcount, -⟩ <;> rw [h0] at hcount <;> cases hcount
  exact ⟨_, _, rfl, rfl, by decide, hlost _ _ rfl⟩

end NetworkLabs.Proxy.Table
