import NetworkLabs.Proxy.Entitlement

/-! The replies to a request, the connection it asks for, and the relay. -/
namespace NetworkLabs.Proxy

open Transition Connection

namespace Event

/-- A reply to a request has ten bytes, one to a greeting has two. -/
def answers : Event → Bool
  | .reply _ bytes => bytes.length = 10
  | _ => false

/-- A reply with `REP = 0`. -/
def grants : Event → Bool
  | .reply _ bytes => bytes.length = 10 && bytes[1]? = some 0
  | _ => false

def connects : Event → Bool
  | .connect _ _ _ _ => true
  | _ => false

end Event

def Granted (es : List Event) : Prop := ∃ e ∈ es, e.grants = true

/-- The request asks for a connection to this address and port, or to a name with the address. -/
def Asks (resolves : List UInt8 → List UInt8 → Prop) (bs ip port : List UInt8) : Prop :=
  (bs[3]? = some 1 ∧ ip = (bs.drop 4).take 4 ∧ port = (bs.drop 8).take 2) ∨
    ∃ name, NameAsked bs name port ∧ resolves name ip

/-- A connection was established to what the whole request of the client behind `fd` asks for. -/
def Established (resolves : List UInt8 → List UInt8 → Prop) (fd : Int) (es : List Event) : Prop :=
  ∃ pre sfd ip port post, es = pre ++ .connect sfd ip port true :: post ∧
    ∃ bs, Authorised fd pre bs ∧ Asked bs ∧ Asks resolves bs ip port

/-- One reply at most, which grants the request exactly if the connection was established. -/
structure Settled (resolves : List UInt8 → List UInt8 → Prop) (fd : Int)
    (es : List Event) : Prop where
  once : es.countP Event.answers ≤ 1
  granted : Granted es ↔ Established resolves fd es

/-- Whatever the proxy connects to is there, a name is looked up only with the whole request and
has the address that is found, and nothing comes of what is parsed because of a rejected request. -/
def SettlesDuly (resolves : List UInt8 → List UInt8 → Prop) (c : Connection) : Visit.Action → Prop
  | .attend rev ans =>
    (c.status = .sockRequest → ((rev .client).pollin || (rev .client).pollout) = true →
      readCount (ans.read .client) ≠ 0 → (c.appended ans).rejected = false →
        (c.appended ans).NameWhole ∧ (char ((c.appended ans).clientBuf 3) = 1 →
          (c.appended ans).currBufClient ≥ 10 → ans.socket ≠ -1 ∧ ans.connect = true)) ∧
    (c.status = .resolving → (rev .client).pollout = true → ans.dnsCheck = 0 →
      (ans.socket ≠ -1 ∧ ans.connect = true) ∧ resolves c.clientBuf.string ans.dnsFetch)
  | .stray _ => c.Waiting

section Events
variable {resolves : List UInt8 → List UInt8 → Prop} {fd : Int} {es es' : List Event}

theorem granted_append : Granted (es ++ es') ↔ Granted es ∨ Granted es' := by
  simp only [Granted, List.mem_append, or_and_right, exists_or]

theorem established_append (h : Established resolves fd es) (es' : List Event) :
    Established resolves fd (es ++ es') := by
  obtain ⟨pre, sfd, ip, port, post, rfl, hbs⟩ := h
  exact ⟨pre, sfd, ip, port, post ++ es', by simp, hbs⟩

theorem not_established (h : ∀ e ∈ es, e.connects = false) : ¬ Established resolves fd es := by
  rintro ⟨pre, sfd, ip, port, post, rfl, -⟩
  have hconnect := h (.connect sfd ip port true) (by simp)
  cases hconnect

theorem established_of_append (h : Established resolves fd (es ++ es'))
    (h' : ∀ e ∈ es', e.connects = false) : Established resolves fd es := by
  obtain ⟨pre, sfd, ip, port, post, hsplit, hbs⟩ := h
  have hnot : Event.connect sfd ip port true ∉ es' := fun hmem => by cases h' _ hmem
  rcases List.append_eq_append_iff.mp hsplit with ⟨mid, rfl, hmid⟩ | ⟨mid, rfl, hmid⟩
  · exact absurd (by simp [hmid]) hnot
  · cases mid with
    | nil =>
      have hmid : es' = .connect sfd ip port true :: post := by simpa using hmid.symm
      exact absurd (by simp [hmid]) hnot
    | cons e mid =>
      obtain ⟨rfl, rfl⟩ := List.cons.inj hmid
      exact ⟨pre, sfd, ip, port, mid, rfl, hbs⟩

/-- What an event that settles nothing is not. -/
theorem unsettled {e : Event} (h : e.settles = false) :
    e.answers = false ∧ e.grants = false ∧ e.connects = false := by
  cases e with
  | reply fd bytes =>
    have hshort : bytes.length ≠ 10 := by simpa [Event.settles] using h
    simp [Event.answers, Event.grants, Event.connects, hshort]
  | connect => cases h
  | _ => exact ⟨rfl, rfl, rfl⟩

theorem countP_unsettled (h : ∀ e ∈ es, e.settles = false) : es.countP Event.answers = 0 := by
  rw [List.countP_eq_zero]
  exact fun e he => by simp [(unsettled (h e he)).1]

theorem not_granted (h : ∀ e ∈ es, e.grants = false) : ¬ Granted es := by
  rintro ⟨e, he, hgrants⟩
  simp [h e he] at hgrants

/-- Events that settle nothing leave everything settled. -/
theorem Settled.append (h : Settled resolves fd es) (hidle : ∀ e ∈ es', e.settles = false) :
    Settled resolves fd (es ++ es') ∧ (Granted (es ++ es') ↔ Granted es) := by
  have hiff : Granted (es ++ es') ↔ Granted es := by
    rw [granted_append]
    exact or_iff_left (not_granted fun e he => (unsettled (hidle e he)).2.1)
  refine ⟨⟨?_, hiff.trans (h.granted.trans
    ⟨fun hest => established_append hest es', fun hest => ?_⟩)⟩, hiff⟩
  · rw [List.countP_append, countP_unsettled hidle]
    exact h.once
  · exact established_of_append hest fun e he => (unsettled (hidle e he)).2.2

end Events

/-- Events that refuse a request, or say nothing to it. -/
structure Refusing (es : List Event) : Prop where
  once : es.countP Event.answers ≤ 1
  refuses : ∀ e ∈ es, e.grants = false
  unconnected : ∀ e ∈ es, e.connects = false

theorem refusing_single (e : Event) (hgrants : e.grants = false) (hconnects : e.connects = false) :
    Refusing [e] :=
  ⟨List.countP_le_length, by simpa using hgrants, by simpa using hconnects⟩

theorem refusing_of_unsettled {es : List Event} (h : ∀ e ∈ es, e.settles = false) : Refusing es :=
  ⟨by rw [countP_unsettled h]; exact Nat.zero_le 1, fun e he => (unsettled (h e he)).2.1,
    fun e he => (unsettled (h e he)).2.2⟩

theorem Refusing.snoc {es es' : List Event} (h : ∀ e ∈ es, e.settles = false) (h' : Refusing es') :
    Refusing (es ++ es') := by
  have hnone := refusing_of_unsettled h
  refine ⟨?_, fun e he => ?_, fun e he => ?_⟩
  · rw [List.countP_append, countP_unsettled h, Nat.zero_add]
    exact h'.once
  · exact (List.mem_append.mp he).elim (hnone.refuses e) (h'.refuses e)
  · exact (List.mem_append.mp he).elim (hnone.unconnected e) (h'.unconnected e)

namespace Visit

variable {resolves : List UInt8 → List UInt8 → Prop} {v : Visit} {rev : Peer → Revents}
  {ans : Answers}
  {r : Fate × List Event}

/-- A visit whose request is settled as it should be; the relay goes on if it was granted. -/
structure Tidy (resolves : List UInt8 → List UInt8 → Prop) (v : Visit) : Prop where
  settled : Settled resolves v.connection.clientSocket v.events
  relays : v.connection.status = .forwarding ↔ Granted v.events

theorem settles_closing (fate : Fate) : ∀ e ∈ fate.closing, e.settles = false := by
  unfold Fate.closing
  split
  · exact nofun
  · split <;> simp [Event.settles]

/-- `after` leaves the closing of the sockets for the end. -/
theorem tidy_after (hs : Settled resolves r.1.record.clientSocket (v.events ++ r.2))
    (hg : r.1.record.status = .forwarding ↔ Granted (v.events ++ r.2)) :
    Tidy resolves (v.after r) := by
  have happend := hs.append (settles_closing r.1)
  simp only [List.append_assoc] at happend
  exact ⟨happend.1, hg.trans happend.2.symm⟩

/-- Nothing was settled before, and the request is refused or still open. -/
theorem tidy_refusing (hl : v.Live) (hs : v.connection.status ≠ .forwarding)
    (hr : r.1.record.status ≠ .forwarding) (hes : Refusing r.2) : Tidy resolves (v.after r) := by
  have hold := hl.unsettled hs
  have hgranted : ¬ Granted (v.events ++ r.2) := by
    rw [granted_append]
    exact not_or.mpr ⟨not_granted fun e he => (unsettled (hold e he)).2.1, not_granted hes.refuses⟩
  refine tidy_after ⟨?_, iff_of_false hgranted (not_established fun e he => ?_)⟩
    (iff_of_false hr hgranted)
  · rw [List.countP_append, countP_unsettled hold, Nat.zero_add]
    exact hes.once
  · rcases List.mem_append.mp he with he | he
    · exact (unsettled (hold e he)).2.2
    · exact hes.unconnected e he

/-- The connection that the request asks for is established, and the request is granted. -/
theorem tidy_opened (es : List Event) (hl : v.Live) (hs : v.connection.status ≠ .forwarding)
    {bs ip port : List UInt8} (hauth : Authorised v.connection.clientSocket v.events bs)
    (hasked : Asked bs) (hasks : Asks resolves bs ip port) (hsocket : ans.socket ≠ -1)
    (hes : ∀ e ∈ es, e.settles = false) :
    Tidy resolves (v.after ((v.connection.opened ans).1,
      .connect ans.socket ip port true :: (es ++ (v.connection.opened ans).2))) := by
  rw [opened_of_connected hsocket]
  have hgranted : Granted (v.events ++ .connect ans.socket ip port true :: (es ++
      [.reply v.connection.clientSocket
        ({ v.connection with serverSocket := ans.socket }.formResponse ans)])) := by
    refine ⟨.reply v.connection.clientSocket
      ({ v.connection with serverSocket := ans.socket }.formResponse ans),
      by simp, ?_⟩
    exact Bool.and_eq_true_iff.mpr
      ⟨decide_eq_true (length_formResponse _ ans), by simp [formResponse, hsocket]⟩
  refine tidy_after ⟨?_, iff_of_true hgranted ?_⟩ (iff_of_true rfl hgranted)
  · rw [List.countP_append, countP_unsettled (hl.unsettled hs),
      List.countP_cons_of_neg (by simp [Event.answers]),
      List.countP_append, countP_unsettled hes, Nat.zero_add, Nat.zero_add]
    exact List.countP_le_length
  · exact ⟨v.events, ans.socket, ip, port, _, rfl, bs, hauth, hasked, hasks⟩

/-- What has been read of the request is parsed. -/
theorem tidy_parsed (ht : Tidy resolves v) (hl : v.Live) (hs : v.connection.status = .sockRequest)
    (hr : v.connection.rejected = false)
    (hconnected : char (v.connection.clientBuf 3) = 1 → v.connection.currBufClient ≥ 10 →
      ans.socket ≠ -1 ∧ ans.connect = true)
    (hp : v.connection.parseRequest ans = .ok r) : Tidy resolves (v.after r) := by
  have hbefore : v.connection.status ≠ .forwarding := by simp [hs]
  have hstage := hl.stage
  simp only [Stage, hs] at hstage
  obtain ⟨bs, hauth, hholds⟩ := hstage
  have hcount := hholds.count
  have hlookup : ∀ e ∈ v.connection.lookupEvents ans, e.settles = false :=
    fun e he => (lookupEvents_unsettled 0 e he).2
  cases parses_of_ok hp with
  | waiting => rwa [after_idle]
  | address h1 h10 =>
    obtain ⟨hsocket, hconnect⟩ := hconnected h1 h10
    have hasked := hholds.asked_address hr h1 h10
    rw [hconnect]
    refine tidy_opened [] hl hbefore hauth hasked (.inl ⟨?_, ?_, ?_⟩) hsocket (by simp)
    · rw [hholds.buffer 3 (by omega), eq_of_char (n := 1) (by decide) h1]
      rfl
    · exact hholds.bytes_eq (by omega)
    · exact hholds.bytes_eq (by omega)
  | sought =>
    have hafter : (v.connection.resolvingName ans).status ≠ .forwarding := Status.noConfusion
    exact tidy_refusing hl hbefore hafter (refusing_of_unsettled hlookup)
  | unsought =>
    have hafter : (v.connection.resolvingName ans).status ≠ .forwarding := Status.noConfusion
    exact tidy_refusing hl hbefore hafter (.snoc hlookup (refusing_single _ rfl rfl))
  | unknown => exact tidy_refusing hl hbefore hbefore (refusing_single _ rfl rfl)

/-- A greeting does not begin a relay. -/
theorem greeting_status (hs : v.connection.status = .incoming) :
    (v.connection.appended ans).greeting.record.status ≠ .forwarding := by
  have hsame : (v.connection.appended ans).status ≠ .forwarding := by
    rw [show (v.connection.appended ans).status = .incoming from hs]
    simp
  unfold greeting
  split
  · split
    · exact hsame
    split
    · simp only [Fate.record]
      split <;> simp
    · exact hsame
  · exact hsame

/-- A record that is handled by itself. -/
theorem tidy_attend (ht : Tidy resolves v) (hl : v.Live) (hdropped : v.dropped = false)
    (hp : v.connection.Polled rev) (hcond : SettlesDuly resolves v.connection (.attend rev ans))
    (hattended : v.connection.attended rev ans = .ok r) : Tidy resolves (v.after r) := by
  have hstage := hl.stage
  have hread : ∀ e ∈ [v.connection.readEvent .client ans], e.settles = false := by
    simp [Event.settles, readEvent]
  cases attended_cases hl.unrelayed hp hattended with
  | idle => rwa [after_idle]
  | gone hs he =>
    exact tidy_refusing hl hs hs (refusing_of_unsettled fun e hmem => by rw [he e hmem]; rfl)
  | greeted hs hf =>
    exact tidy_refusing hl (by simp [hs]) (greeting_status hs) (refusing_of_unsettled hread)
  | unauthorised hs =>
    have hbefore : v.connection.status ≠ .forwarding := by simp [hs]
    exact tidy_refusing hl hbefore hbefore (refusing_single _ rfl rfl)
  | authorised hs =>
    exact tidy_refusing hl (by simp [hs]) (by simp [Fate.record]) (refusing_single _ rfl rfl)
  | rejected hs =>
    have hbefore : v.connection.status ≠ .forwarding := by simp [hs]
    exact tidy_refusing hl hbefore hbefore (.snoc hread (refusing_single _ rfl rfl))
  | requested hs hf h0 hrev hr hp =>
    have hconnected := (hcond.1 hs hrev h0 hr).2
    have hsettled := ht.settled.append hread
    have hnew : Tidy resolves
        ⟨v.connection.appended ans, false, v.events ++ [v.connection.readEvent .client ans]⟩ :=
      ⟨hsettled.1, ht.relays.trans hsettled.2.symm⟩
    rw [after_read hdropped]
    exact tidy_parsed hnew (live_read hl hs hf) hs hr hconnected hp
  | resolved hs hout hcheck =>
    have hbefore : v.connection.status ≠ .forwarding := by simp [hs]
    obtain ⟨⟨hsocket, hconnect⟩, hresolves⟩ := hcond.2 hs hout hcheck
    simp only [Stage, hs] at hstage
    obtain ⟨bs, hauth, hasked, hname⟩ := hstage
    rw [hconnect]
    exact tidy_opened [_] hl hbefore hauth hasked (.inr ⟨_, hname, hresolves⟩) hsocket
      (by simp [Event.settles])
  | unresolved hs =>
    have hbefore : v.connection.status ≠ .forwarding := by simp [hs]
    exact tidy_refusing hl hbefore hbefore
      ⟨by simp [Event.answers, errorReply], by simp [Event.grants, errorReply],
      by simp [Event.connects]⟩
  | relayed hs =>
    have hends := sameEnds_forwarding v.connection rev ans
    have hidle : ∀ e ∈ (v.connection.forwarding rev ans).2, e.settles = false :=
      fun e he => (idle_forwarding e he).settles
    have hsettled := ht.settled.append hidle
    have hclient : (v.connection.forwarding rev ans).1.record.clientSocket =
        v.connection.clientSocket :=
      hends.socket .client
    apply tidy_after
    · rw [hclient]
      exact hsettled.1
    · rw [hends.status]
      exact ht.relays.trans hsettled.2.symm

theorem opensDuly_of_settlesDuly {c : Connection} {a : Action} (h : SettlesDuly resolves c a) :
    OpensDuly c a := by
  cases a with
  | attend rev ans => exact fun hs hrev h0 hr => (h.1 hs hrev h0 hr).1
  | stray ans =>
    have hwaiting : c.Waiting := h
    rintro ⟨h5, ⟨h1, h10⟩ | ⟨h3, harrived, -⟩⟩
    · rcases hwaiting with hw | ⟨-, hw⟩ | ⟨hw, -⟩ <;> omega
    · rcases hwaiting with hw | ⟨hw, -⟩ | ⟨-, hw⟩
      · omega
      · omega
      · simp [harrived] at hw

theorem tidy_trInv :
    (guarded (SettlesDuly resolves)).TrInv fun v => v.Orderly ∧ Tidy resolves v := by
  rintro v a w ⟨htr, hcond⟩ ⟨ho, ht⟩
  have hopens := opensDuly_of_settlesDuly hcond
  cases htr with
  | attend hdropped hp hattended =>
    exact ⟨orderly_attend ho hdropped hp hopens hattended,
      tidy_attend ht (ho.live hdropped) hdropped hp hcond hattended⟩
  | stray hp =>
    have hwaiting : v.connection.Waiting := hcond
    cases (parseRequest_of_waiting hwaiting).symm.trans hp
    rw [after_idle]
    exact ⟨ho, ht⟩

theorem tidy_fresh {c : Connection} (h : c.Fresh) : Tidy resolves ⟨c, false, []⟩ := by
  have hgranted : ¬ Granted [] := by simp [Granted]
  refine ⟨⟨Nat.zero_le 1, iff_of_false hgranted (not_established nofun)⟩, iff_of_false ?_ hgranted⟩
  rw [h.1]
  exact nofun

theorem Reached.tidy (h : Reached (SettlesDuly resolves) v) : Tidy resolves v :=
  (h.inv tidy_trInv fun _ hc => ⟨orderly_fresh hc, tidy_fresh hc⟩).2

end Visit

namespace Logged

variable {resolves : List UInt8 → List UInt8 → Prop} {xs : List Loop.Action} {s : Logged}

/-- In every run in which what is connected to is there, names are looked up whole and found, and
nothing comes of what is parsed because of a rejected request, every client is sent one reply at
most, which grants its request exactly if the connection was established, and a connection is
relayed exactly if its request was granted. -/
theorem settled_sessions (h : (guarded (SettlesDuly resolves)).MTr initial xs s) :
    (∀ fd, Settled resolves fd (session fd s.log)) ∧
      ∀ i : Nat, (i : Int) < s.loop.table.connectionsCount →
        ((s.loop.table.connections i).status = .forwarding ↔
          Granted (session (s.loop.table.connections i).clientSocket s.log)) := by
  have hprojected := projected_of_run h
  refine ⟨fun fd => ?_, fun i hi => ?_⟩
  · obtain ⟨v, hv, hfd, hevents⟩ := hprojected.sessions fd
    rw [← hevents, ← hfd]
    exact hv.tidy.settled
  · obtain ⟨v, hv, hconn, -, hevents⟩ := hprojected.live i hi
    rw [← hevents, ← hconn]
    exact hv.tidy.relays

theorem settled_sessions_connecting : ∃ s,
    (guarded (SettlesDuly fun _ _ => False)).MTr initial
      (negotiation ++ [.handle (connecting 1 true)]) s ∧
      Settled (fun _ _ => False) 4 (session 4 s.log) ∧ Granted (session 4 s.log) ∧
        (s.loop.table.connections 0).status = .forwarding := by
  have hrun : (guarded (SettlesDuly fun _ _ => False)).MTr initial
      (negotiation ++ [.handle (connecting 1 true)])
      (negotiated.next (.handle (connecting 1 true))) := by
    refine (negotiated_run fun c rev ans hs => ?_).append
      (.single ⟨tr_handle rfl, fun _ => ⟨⟨?_, ?_⟩, fun hr => ?_⟩⟩)
    · exact ⟨fun h => by simp [h] at hs, fun h => by simp [h] at hs⟩
    · exact fun _ _ _ _ => ⟨fun _ h3 => absurd h3 (by decide +kernel), fun _ _ => ⟨by decide, rfl⟩⟩
    · exact nofun
    · exact absurd hr.2.2 (by decide +kernel)
  have hsettled := settled_sessions hrun
  have hgranted : Granted (session 4 (negotiated.next (.handle (connecting 1 true))).log) :=
    ⟨.reply 4 [5, 0, 0, 1, 0, 0, 0, 0, 0, 0], by decide +kernel, rfl⟩
  exact ⟨_, hrun, hsettled.1 4, hgranted, rfl⟩

/-- A connection that is refused is granted to the client all the same. -/
theorem not_settled_refused :
    ∃ s, lts.MTr initial (negotiation ++ [.handle (connecting 1 false)]) s ∧
    (s.loop.table.connections 0).status = .forwarding ∧
      ∀ resolves, ¬ Settled resolves 4 (session 4 s.log) := by
  refine ⟨_, negotiated_unguarded.append (.single (tr_handle rfl)), rfl, ?_⟩
  have hsession : session 4 (negotiated.next (.handle (connecting 1 false))).log =
      [.read .client 4 (some [5, 1, 0]), .reply 4 successAuth,
        .read .client 4 (some [5, 1, 0, 1, 127, 0, 0, 1, 0, 80]),
        .connect 7 [127, 0, 0, 1] [0, 80] false, .reply 4 [5, 0, 0, 1, 0, 0, 0, 0, 0, 0]] := by
    decide +kernel
  rw [hsession]
  intro resolves h
  obtain ⟨pre, sfd, ip, port, post, hsplit, -⟩ :=
    h.granted.mp ⟨.reply 4 [5, 0, 0, 1, 0, 0, 0, 0, 0, 0], by simp, rfl⟩
  have hmem : Event.connect sfd ip port true ∈ pre ++ .connect sfd ip port true :: post := by simp
  rw [← hsplit] at hmem
  simp at hmem

end Logged

end NetworkLabs.Proxy
