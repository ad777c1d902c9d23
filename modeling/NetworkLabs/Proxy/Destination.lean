import NetworkLabs.Proxy.Lookup
import NetworkLabs.Proxy.Request

/-! Where the proxy connects to for a request. -/
namespace NetworkLabs.Proxy

namespace Connection

variable {c : Connection} {ans : Answers}

section Lookup
variable {rev : Peer → Revents} {rounds : List Round}

/-- Nothing is reported to a connection whose name is looked up but that its client is writable. -/
def Quiet (rev : Peer → Revents) : Prop :=
  (rev .client).pollin = false ∧ (rev .server).pollin = false ∧ (rev .server).pollout = false

theorem Polled.quiet (h : c.Polled rev) (hs : c.status = .resolving) : Quiet rev := by
  have hclient := (h .client).1
  have hserver := h .server
  simp only [formPollFds, hs, Bool.false_eq_true, imp_false, Bool.not_eq_true] at hclient hserver
  exact ⟨hclient, hserver⟩

theorem forwarding_of_quiet (h : Quiet rev) (hs : c.currBufServer = 0) (hc : 0 ≤ c.currBufClient) :
    c.forwarding rev ans = (.stay c, []) := by
  obtain ⟨hin, hin', hout⟩ := h
  have hended : c.ended = false := by
    simp only [ended, hs, Bool.or_eq_false_iff, Bool.and_eq_false_iff, decide_eq_false_iff_not]
    omega
  simp [forwarding, readFrom, writeFrom, hin, hin', currBuf, hs, Peer.other, hout, hended]

/-- The event is neither a step towards the target nor a read from the client. -/
def Aside (e : Event) : Prop := e.acts = false ∧ received .client [e] = []

theorem aside_opened : ∀ e ∈ (c.opened ans).2, Aside e := by
  unfold opened
  dsimp only
  split <;> simp [Aside, Event.acts, received]

theorem opened_status (c : Connection) (ans : Answers) (c' : Connection)
    (h : (c.opened ans).1 = .stay c') :
    c'.status = .forwarding := by
  unfold opened at h
  dsimp only at h
  split at h
  · cases h
  · cases h
    rfl

/-- A round that ends the lookup is the last one. -/
theorem lookingUp_of_over (h : ∀ c', (c.resolving rev ans).1 = .stay c' → c'.status ≠ .resolving) :
    c.lookingUp ((rev, ans) :: rounds) = c.resolving rev ans := by
  simp only [lookingUp]
  split
  · rename_i c' hfate
    exact if_neg (h c' hfate)
  · rfl

/-- An answered lookup ends in one connection to the port that was kept, any other one in none. -/
theorem lookingUp_events (hstatus : c.status = .resolving) (hs : c.currBufServer = 0)
    (hc : 0 ≤ c.currBufClient) (hq : ∀ r ∈ rounds, Quiet r.1) :
    if answered rounds then ∃ r ∈ rounds, r.2.dnsCheck = 0 ∧ ∃ es, (c.lookingUp rounds).2 =
        .connect r.2.socket r.2.dnsFetch (c.serverBuf.bytes 0 2) r.2.connect :: es ∧
          ∀ e ∈ es, Aside e
    else ∀ e ∈ (c.lookingUp rounds).2, Aside e := by
  induction rounds with
  | nil => simp [answered, lookingUp]
  | cons round rounds ih =>
    obtain ⟨rev, ans⟩ := round
    have hrest := ih fun r hr => hq r (List.mem_cons_of_mem _ hr)
    have hwaits : c.resolving rev ans = c.forwarding rev ans →
        c.lookingUp ((rev, ans) :: rounds) = c.lookingUp rounds := by
      intro h
      have hidle : c.forwarding rev ans = (.stay c, []) :=
        forwarding_of_quiet (hq _ List.mem_cons_self) hs hc
      simp only [lookingUp, h, hidle, hstatus, if_true, List.nil_append]
    have hgoes : answered rounds = answered ((rev, ans) :: rounds) →
        c.resolving rev ans = c.forwarding rev ans →
        if answered ((rev, ans) :: rounds) then ∃ r ∈ (rev, ans) :: rounds, r.2.dnsCheck = 0 ∧ ∃ es,
          (c.lookingUp ((rev, ans) :: rounds)).2 = .connect r.2.socket r.2.dnsFetch
            (c.serverBuf.bytes 0 2) r.2.connect :: es ∧ ∀ e ∈ es, Aside e
        else ∀ e ∈ (c.lookingUp ((rev, ans) :: rounds)).2, Aside e := by
      intro hans hres
      rw [hwaits hres, ← hans]
      split at hrest
      · rename_i ha
        rw [if_pos ha]
        obtain ⟨r, hr, es, h⟩ := hrest
        exact ⟨r, List.mem_cons_of_mem _ hr, es, h⟩
      · rename_i ha
        rwa [if_neg ha]
    by_cases hout : (rev .client).pollout = true
    swap
    · exact hgoes (by simp [answered, hout]) (by simp only [resolving, if_neg hout])
    by_cases hanswer : ans.dnsCheck = 0
    · have hres : c.resolving rev ans = ((c.opened ans).1, .connect ans.socket ans.dnsFetch
          (c.serverBuf.bytes 0 2) ans.connect :: .dnsClose c.R :: (c.opened ans).2) := by
        simp only [resolving, if_pos hout, if_pos hanswer]
      rw [if_pos (by simp [answered, hout, hanswer])]
      refine ⟨_, List.mem_cons_self, hanswer, .dnsClose c.R :: (c.opened ans).2, ?_, ?_⟩
      · rw [lookingUp_of_over]
        · exact congrArg Prod.snd hres
        · rw [hres]
          intro c' h
          simp [opened_status c ans c' h]
      · intro e he
        rcases List.mem_cons.mp he with rfl | he
        · exact ⟨rfl, rfl⟩
        · exact aside_opened e he
    have hfails : (ans.dnsCheck ≠ eagain ∨ 30 < ans.dnsElapsed) →
        c.resolving rev ans =
          (.drop c false, [.reply c.clientSocket (errorReply 4), .dnsClose c.R]) := by
      intro h
      simp only [resolving, if_pos hout, if_neg hanswer]
      split
      · rfl
      · exact if_pos (h.resolve_left (by assumption))
    by_cases hover : ans.dnsCheck ≠ eagain ∨ 30 < ans.dnsElapsed
    · rw [if_neg (by simp [answered, hout, hanswer]; omega), lookingUp_of_over]
      · rw [hfails hover]
        simp [Aside, Event.acts, received]
      · rw [hfails hover]
        simp
    · obtain ⟨hagain, hsoon⟩ := not_or.mp hover
      have hagain' : ans.dnsCheck = eagain := not_not.mp hagain
      apply hgoes
      · simp [answered, hout, hagain', Int.not_lt.mp hsoon, eagain]
      · simp only [resolving, if_pos hout, if_neg hanswer, if_neg hagain, gt_iff_lt, if_neg hsoon]

end Lookup

theorem received_of_aside {es : List Event} (h : ∀ e ∈ es, received .client [e] = []) :
    received .client es = [] := by
  induction es with
  | nil => rfl
  | cons e es ih =>
    have happend : received .client ([e] ++ es) = received .client [e] ++ received .client es :=
      received_append
    rw [h e List.mem_cons_self, ih fun e' he' => h e' (List.mem_cons_of_mem _ he'),
      List.append_nil] at happend
    exact happend

theorem received_readEvents (c : Connection) (reads : List Answers) :
    received .client (reads.map (c.readEvent .client)) = reads.flatMap Answers.got := by
  induction reads with
  | nil => rfl
  | cons ans reads ih =>
    have hone : received .client [c.readEvent .client ans] = ans.got := by
      cases hread : ans.read .client <;> simp [received, readEvent, Answers.got, hread]
    have happend : received .client ([c.readEvent .client ans] ++ reads.map (c.readEvent .client)) =
        received .client [c.readEvent .client ans] ++
          received .client (reads.map (c.readEvent .client)) :=
      received_append
    rw [hone, ih] at happend
    exact happend

theorem acts_readEvents (c : Connection) (reads : List Answers) :
    ∀ e ∈ reads.map (c.readEvent .client), e.acts = false := by
  simp [readEvent, Event.acts]

end Connection

open Connection

variable {q : Target} {records : List (List UInt8)} {sought found : Prop}
  {rs ts : List Event}

/-- An exchange that acts after its reads, and does not read again. -/
theorem exact_of_acting (hrs : ∀ e ∈ rs, e.acts = false) (hrecv : received .client rs = q.request)
    (hts : ∀ e ∈ ts, received .client [e] = []) (hacts : ∃ e ∈ ts, e.acts = true)
    (hnamed : ∀ R name, Event.submit R name ∈ ts → q.Names name)
    (hlooked : sought → ∃ R name, Event.submit R name ∈ ts)
    (hadmitted : ∀ fd ip port ok, Event.connect fd ip port ok ∈ ts → q.Admits records ip port)
    (hconnected : found → ∃ fd ip port ok, Event.connect fd ip port ok ∈ ts) :
    Exact q records sought found (rs ++ ts) := by
  have hmem : ∀ e, e.acts = true → e ∈ rs ++ ts → e ∈ ts := fun e he h =>
    (List.mem_append.mp h).resolve_left fun hr => by simp [hrs e hr] at he
  refine ⟨?_, ?_, ?_, ?_, ?_, ?_⟩
  · intro pre e post hsplit hact
    rcases List.append_eq_append_iff.mp hsplit with ⟨as, rfl, rfl⟩ | ⟨bs, rfl, hbs⟩
    · rw [received_append, hrecv, received_of_aside fun e he => hts e (List.mem_append_left _ he),
        List.append_nil]
    · cases bs with
      | nil => simpa using hrecv
      | cons b bs =>
        obtain ⟨rfl, -⟩ := List.cons.inj hbs
        have hidle := hrs e (by simp)
        simp [hact] at hidle
  · intro _
    obtain ⟨e, he, hact⟩ := hacts
    exact ⟨e, List.mem_append_right _ he, hact⟩
  · exact fun R name h => hnamed R name (hmem _ rfl h)
  · intro hsought
    obtain ⟨R, name, h⟩ := hlooked hsought
    exact ⟨R, name, List.mem_append_right _ h⟩
  · exact fun fd ip port ok h => hadmitted fd ip port ok (hmem _ rfl h)
  · intro hfound
    obtain ⟨fd, ip, port, ok, h⟩ := hconnected hfound
    exact ⟨fd, ip, port, ok, List.mem_append_right _ h⟩

/-- An exchange that acts before the whole request was read. -/
theorem not_exact_of_early {e : Event} (hact : e.acts = true)
    (hrecv : received .client rs ≠ q.request) :
    ¬ Exact q records sought found (rs ++ e :: ts) := fun h => hrecv (h.whole rs e ts rfl hact)

section Exchange
variable {c : Connection} {reads : List Answers} {rounds : List Round} {ip port name : List UInt8}

theorem exchange_of_ended {r : Fate × List Event} (rounds : List Round)
    (h : c.reading reads = .ok r)
    (hr : ∀ c', r.1 = .stay c' → c'.status ≠ .resolving) : c.exchange reads rounds = .ok r := by
  obtain ⟨fate, es⟩ := r
  simp only [exchange, h, Except.map]
  cases fate with
  | stay c' => exact congrArg Except.ok (if_neg (hr c' rfl))
  | drop c' server => rfl

theorem exchange_of_resolving {c' : Connection} {es : List Event}
    (h : c.reading reads = .ok (.stay c', es)) (hs : c'.status = .resolving) :
    c.exchange reads rounds = .ok ((c'.lookingUp rounds).1, es ++ (c'.lookingUp rounds).2) := by
  simp only [exchange, h, Except.map, hs, if_true]

/-- The client sends the request in these pieces to a connection that waits for it. -/
structure Sends (c : Connection) (q : Target) (reads : List Answers) : Prop where
  status : c.status = .sockRequest
  client : c.currBufClient = 0
  server : c.currBufServer = 0
  pieces : ∀ ans ∈ reads, ans.got ≠ []
  bytes : reads.flatMap Answers.got = q.request

variable {q : Target} {pre post : List Answers} {last : Answers}

theorem Sends.holds (h : Sends c q (pre ++ post)) (hsize : q.request.length ≤ bufferSize) :
    (c.collected pre).Holds (pre.flatMap Answers.got) := by
  have hempty : c.Holds [] := ⟨h.client, nofun⟩
  have hbytes := congrArg List.length h.bytes
  rw [List.flatMap_append, List.length_append] at hbytes
  exact hempty.collected (fun a ha => h.pieces a (List.mem_append_left _ ha)) (by omega)

theorem Sends.initial (h : Sends c q (pre ++ post)) : pre.flatMap Answers.got <+: q.request :=
  ⟨post.flatMap Answers.got, by rw [← h.bytes, List.flatMap_append]⟩

/-- The request waits up to the read that is acted on. -/
theorem Sends.reading_eq (h : Sends c q (pre ++ last :: post))
    (hsize : q.request.length ≤ bufferSize)
    (hwait : ∀ (d : Connection) bs, d.Holds bs → bs <+: q.request →
      bs.length ≤ (pre.flatMap Answers.got).length → d.Waiting)
    (hr : ∀ c' es, (c.collected (pre ++ [last])).parseRequest last = .ok (.stay c', es) →
      c'.status ≠ .sockRequest) :
    c.reading (pre ++ last :: post) = ((c.collected (pre ++ [last])).parseRequest last).map fun r =>
      (r.1, (pre ++ [last]).map (c.readEvent .client) ++ r.2) := by
  have hne := h.pieces last (by simp)
  have hbytes := congrArg List.length h.bytes
  simp only [List.flatMap_append, List.flatMap_cons, List.length_append] at hbytes
  have hfits := (h.holds hsize).readFits hne (by omega)
  have hclient := (collected_fields c pre).1
  have hevent : (c.collected pre).readEvent .client last = c.readEvent .client last := by
    simp only [readEvent, socket, hclient]
  rw [reading_of_quiet _ h.status h.client
    (fun a ha => h.pieces a (List.mem_append_left _ ha)) h.initial
    hsize hwait]
  rw [collected_append] at hr ⊢
  rw [reading_of_acting hfits hr, hevent]
  change (Except.map _ (Except.map _ (((c.collected pre).appended last).parseRequest last))) =
    Except.map _ (((c.collected pre).appended last).parseRequest last)
  cases ((c.collected pre).appended last).parseRequest last with
  | error e => rfl
  | ok r => simp [Except.map]

/-- Pieces behind a whole request are none. -/
theorem Sends.no_rest (h : Sends c q (pre ++ post))
    (hge : q.request.length ≤ (pre.flatMap Answers.got).length) : post = [] := by
  have hbytes := congrArg List.length h.bytes
  rw [List.flatMap_append, List.length_append] at hbytes
  have hnil : post.flatMap Answers.got = [] := List.eq_nil_of_length_eq_zero (by omega)
  cases post with
  | nil => rfl
  | cons ans post =>
    rw [List.flatMap_cons, List.append_eq_nil_iff] at hnil
    exact absurd hnil.1 (h.pieces ans (by simp))

theorem exchange_address (rounds : List Round) (hq : (Target.address ip port).WellFormed)
    (h : Sends c (.address ip port) reads) : ∃ (fate : Fate) (last : Answers) (es : List Event),
      c.exchange reads rounds = .ok (fate, reads.map (c.readEvent .client) ++
        .connect last.socket ip port last.connect :: es) ∧ ∀ e ∈ es, Aside e := by
  have hlen : (Target.address ip port).request.length = 10 := by
    simp [Target.request, hq.1, hq.2]
  have hsize : (Target.address ip port).request.length ≤ bufferSize := by
    rw [hlen]
    decide
  have hbytes := congrArg List.length h.bytes
  obtain ⟨pre, last, post, rfl, hlt, hge⟩ := exists_crossing Answers.got 10 (by decide) reads
    (by omega)
  rw [List.append_cons] at h
  obtain rfl := h.no_rest (by omega)
  have hwhole : (c.collected (pre ++ [last])).Holds (Target.address ip port).request := by
    have hholds := h.holds hsize
    rwa [← h.bytes, List.append_nil]
  rw [List.append_nil] at h
  have hcount := hwhole.count
  have hbytes := hwhole.bytes_address hq
  have hparse : (c.collected (pre ++ [last])).parseRequest last = _ :=
    parseRequest_of_address (hwhole.type_address List.prefix_rfl (by omega)) (by omega)
  rw [hbytes.1, hbytes.2] at hparse
  have hreading := h.reading_eq hsize (fun d bs hd hp hle => hd.waiting_address hp (by omega)) (by
    intro c' es hstay
    rw [hparse] at hstay
    simp only [Except.ok.injEq, Prod.mk.injEq] at hstay
    simp [opened_status _ _ c' hstay.1])
  rw [hparse] at hreading
  refine ⟨_, last, _, exchange_of_ended _ hreading ?_, aside_opened⟩
  intro c' hstay
  simp [opened_status _ _ c' hstay]

/-- What follows the calls that start a lookup: one connection if it is answered, to the port that
was kept, and none otherwise. -/
def Followed (d : Connection) (last : Answers) (rounds : List Round) (ts : List Event) : Prop :=
  if lookupStarted last ∧ answered rounds then ∃ r ∈ rounds, r.2.dnsCheck = 0 ∧ ∃ es,
    ts = .connect r.2.socket r.2.dnsFetch ((d.queried last).serverBuf.bytes 0 2) r.2.connect :: es ∧
      ∀ e ∈ es, Aside e
  else ∀ e ∈ ts, Aside e

theorem exchange_domain (hq : (Target.domain name port).WellFormed) (hle : name.length ≤ 127)
    (h : Sends c (.domain name port) (pre ++ last :: post)) (hrounds : ∀ r ∈ rounds, Quiet r.1)
    (hlt : (pre.flatMap Answers.got).length < max 5 (name.length + 2))
    (hge : max 5 (name.length + 2) ≤ ((pre ++ [last]).flatMap Answers.got).length) :
    ∃ (fate : Fate) (ts : List Event), c.exchange (pre ++ last :: post) rounds =
      .ok (fate, (pre ++ [last]).map (c.readEvent .client) ++
        ((c.collected (pre ++ [last])).lookupEvents last ++ ts)) ∧
      Followed (c.collected (pre ++ [last])) last rounds ts := by
  have hlen := length_request_domain hq
  have hsize : (Target.domain name port).request.length ≤ bufferSize := by
    rw [hlen]
    unfold bufferSize
    omega
  have happ := h
  rw [List.append_cons] at happ
  have hholds := happ.holds hsize
  have hinit := happ.initial
  set d := c.collected (pre ++ [last])
  have hcount := hholds.count
  obtain ⟨h3, h4⟩ := hholds.bytes_domain hinit (by omega)
  have hchar : 0 ≤ char (d.clientBuf 4) := by
    rw [h4, char_ofNat _ (by omega), if_pos hle]
    omega
  have hparse : d.parseRequest last = _ := parseRequest_of_name (by omega) h3
    (hholds.arrived_domain hinit hq (by omega) (.inl ⟨hle, by omega⟩)) hchar
  have hreading := h.reading_eq hsize (fun e bs he hp hbs => he.waiting_domain hp hq (by omega)) (by
    intro c' es hstay
    rw [hparse] at hstay
    cases hstarted : lookupStarted last with
    | true =>
      simp only [hstarted, if_true, Except.ok.injEq, Prod.mk.injEq, Fate.stay.injEq] at hstay
      rw [← hstay.1]
      exact nofun
    | false => simp [hstarted] at hstay)
  rw [hparse] at hreading
  cases hstarted : lookupStarted last with
  | true =>
    simp only [hstarted, if_true, Except.map] at hreading
    have hserver : (d.resolvingName last).currBufServer = 0 :=
      (collected_fields c _).2.2.trans h.server
    have hclient : 0 ≤ (d.resolvingName last).currBufClient := by
      change 0 ≤ d.currBufClient
      omega
    refine ⟨((d.resolvingName last).lookingUp rounds).1,
      ((d.resolvingName last).lookingUp rounds).2, ?_, ?_⟩
    · rw [exchange_of_resolving hreading rfl, List.append_assoc]
    · have hevents := lookingUp_events (c := d.resolvingName last) rfl hserver hclient hrounds
      simp only [Followed, hstarted, true_and]
      exact hevents
  | false =>
    simp only [hstarted, Bool.false_eq_true, if_false, Except.map] at hreading
    refine ⟨.drop (d.resolvingName last) false, [.reply d.clientSocket (errorReply 4)],
      exchange_of_ended _ hreading nofun, ?_⟩
    simp [Followed, hstarted, Aside, Event.acts, received]

/-- What the event loop does with a read of the request. -/
theorem handle_of_sends {s : Table} {i : Nat} {rev : Peer → Revents} (hq : q.WellFormed)
    (h : Sends c q (pre ++ last :: post)) (hi : s.connections i = c.collected pre)
    (hrev : ((rev .client).pollin || (rev .client).pollout) = true) :
    s.handle i rev last = ((c.collected pre).requested last).bind (s.commit i) := by
  have hsize : q.request.length ≤ bufferSize := by
    cases q with
    | address ip port => simp [Target.request, hq.1, hq.2, bufferSize]
    | domain name port =>
      have h255 := hq.2.1
      rw [length_request_domain hq]
      unfold bufferSize
      omega
  have hne := h.pieces last (by simp)
  have hbytes := congrArg List.length h.bytes
  simp only [List.flatMap_append, List.flatMap_cons, List.length_append] at hbytes
  have hholds := h.holds hsize
  have hstatus := (collected_fields c pre).2.1.trans h.status
  have hread : readCount (last.read .client) ≠ 0 := by
    rw [readCount_of_ne hne]
    simpa using hne
  have hfits := hholds.readFits hne (by omega)
  rw [List.append_cons] at h
  have hrejected : ((c.collected pre).appended last).rejected = false := by
    have hwhole := (h.holds hsize).not_rejected h.initial
    rwa [collected_append] at hwhole
  simp only [Table.handle, hi, hstatus, hrev, if_true, Table.request, if_neg hread,
    append_of_fits hfits,
    bind, Except.bind, requested]
  rw [if_neg (by simp [hrejected])]
  change _ = Except.bind (Except.map _ (((c.collected pre).appended last).parseRequest last)) _
  cases ((c.collected pre).appended last).parseRequest last <;> rfl

theorem received_reads (h : Sends c q reads) :
    received .client (reads.map (c.readEvent .client)) = q.request :=
  (received_readEvents c reads).trans h.bytes

theorem exact_address (rounds : List Round) (records : List (List UInt8))
    (hq : (Target.address ip port).WellFormed) (h : Sends c (.address ip port) reads) :
    ∃ fate es, c.exchange reads rounds = .ok (fate, es) ∧
      Exact (.address ip port) records False True es := by
  obtain ⟨fate, last, es, hexchange, haside⟩ := exchange_address rounds hq h
  refine ⟨fate, _, hexchange,
    exact_of_acting (acts_readEvents c reads) (received_reads h) ?_ ?_ ?_ nofun
    ?_ ?_⟩
  · intro e he
    rcases List.mem_cons.mp he with rfl | he
    · rfl
    · exact (haside e he).2
  · exact ⟨_, List.mem_cons_self, rfl⟩
  · intro R name he
    rcases List.mem_cons.mp he with he | he
    · cases he
    · exact nomatch (haside _ he).1
  · intro fd ip' port' ok he
    rcases List.mem_cons.mp he with he | he
    · cases he
      exact ⟨rfl, rfl⟩
    · exact nomatch (haside _ he).1
  · exact fun _ => ⟨_, _, _, _, List.mem_cons_self⟩

/-- The first of the calls on the resolver. -/
theorem lookupEvents_eq (d : Connection) (last : Answers) :
    ∃ es, d.lookupEvents last = .stub last.dnsStub :: es := by
  unfold lookupEvents
  cases last.dnsStub with
  | none => exact ⟨[], rfl⟩
  | some R => exact ⟨_, rfl⟩

theorem received_lookupEvents {d : Connection} :
    ∀ e ∈ d.lookupEvents last, received .client [e] = [] := by
  unfold lookupEvents
  split <;> simp [received]

theorem eq_of_submit {d : Connection} {R : Nat} (h : Event.submit R name ∈ d.lookupEvents last) :
    name = (d.queried last).clientBuf.string := by
  unfold lookupEvents at h
  split at h
  · simp at h
  · simp only [List.mem_cons, List.not_mem_nil, or_false, reduceCtorEq, false_or,
      Event.submit.injEq] at h
    exact h.2

theorem exists_submit {d : Connection} (h : lookupStarted last = true) :
    ∃ R name, Event.submit R name ∈ d.lookupEvents last := by
  cases hstub : last.dnsStub with
  | none => simp [lookupStarted, hstub] at h
  | some R => exact ⟨R, (d.queried last).clientBuf.string, by simp [lookupEvents, hstub]⟩

theorem no_connect {d : Connection} {fd : Int} {ok : Bool} :
    Event.connect fd ip port ok ∉ d.lookupEvents last := by
  unfold lookupEvents
  split <;> simp

namespace Followed

variable {d : Connection} (h : Followed d last rounds ts)
include h

theorem received_nil : ∀ e ∈ ts, received .client [e] = [] := by
  intro e he
  unfold Followed at h
  split at h
  · obtain ⟨r, -, -, es, rfl, haside⟩ := h
    rcases List.mem_cons.mp he with rfl | he
    · rfl
    · exact (haside e he).2
  · exact (h e he).2

theorem of_acts {e : Event} (he : e ∈ ts) (hact : e.acts = true) :
    lookupStarted last ∧ answered rounds ∧ ∃ r ∈ rounds, r.2.dnsCheck = 0 ∧
      e = .connect r.2.socket r.2.dnsFetch ((d.queried last).serverBuf.bytes 0 2) r.2.connect := by
  unfold Followed at h
  split at h
  · rename_i hstarts
    obtain ⟨r, hr, hcheck, es, rfl, haside⟩ := h
    rcases List.mem_cons.mp he with he | he
    · exact ⟨hstarts.1, hstarts.2, r, hr, hcheck, he⟩
    · simp [(haside e he).1] at hact
  · simp [(h e he).1] at hact

theorem connects (hstarted : lookupStarted last) (hanswered : answered rounds) :
    ∃ r ∈ rounds, Event.connect r.2.socket r.2.dnsFetch ((d.queried last).serverBuf.bytes 0 2)
      r.2.connect ∈ ts := by
  rw [Followed, if_pos ⟨hstarted, hanswered⟩] at h
  obtain ⟨r, hr, -, es, rfl, -⟩ := h
  exact ⟨r, hr, List.mem_cons_self⟩

end Followed

/-- An exchange that looks its name up before the whole request was read. -/
theorem not_exact_domain_early (hq : (Target.domain name port).WellFormed) (hle : name.length ≤ 127)
    (h : Sends c (.domain name port) (pre ++ last :: post)) (hrounds : ∀ r ∈ rounds, Quiet r.1)
    (hlt : (pre.flatMap Answers.got).length < max 5 (name.length + 2))
    (hge : max 5 (name.length + 2) ≤ ((pre ++ [last]).flatMap Answers.got).length)
    (hpost : post ≠ []) :
    ¬ ∃ fate es, c.exchange (pre ++ last :: post) rounds = .ok (fate, es) ∧
      Exact (.domain name port) records sought found es := by
  rintro ⟨fate, es, hok, hexact⟩
  obtain ⟨fate', ts, hexchange, -⟩ := exchange_domain hq hle h hrounds hlt hge
  obtain ⟨es', hlookup⟩ := lookupEvents_eq (c.collected (pre ++ [last])) last
  obtain ⟨-, rfl⟩ := Prod.mk.inj (Except.ok.inj (hok.symm.trans hexchange))
  rw [hlookup] at hexact
  refine not_exact_of_early rfl ?_ hexact
  rw [received_readEvents]
  intro hwhole
  rw [List.append_cons] at h
  exact hpost (h.no_rest (by rw [hwhole]))

/-- An exchange that looks its name up once the whole request was read. -/
theorem exact_domain_iff (hq : (Target.domain name port).WellFormed) (hle : name.length ≤ 127)
    (h : Sends c (.domain name port) (pre ++ [last])) (hrounds : ∀ r ∈ rounds, Quiet r.1)
    (hfetch : records ≠ [] → ∀ r ∈ rounds, r.2.dnsCheck = 0 → r.2.dnsFetch ∈ records)
    (hlt : (pre.flatMap Answers.got).length < max 5 (name.length + 2)) :
    (∃ fate es, c.exchange (pre ++ [last]) rounds = .ok (fate, es) ∧
      Exact (.domain name port) records
      (lookupStarted last) (lookupStarted last ∧ answered rounds ∧ records ≠ []) es) ↔
      (lookupStarted last → answered rounds → records ≠ []) := by
  have hlen := length_request_domain hq
  have hge : max 5 (name.length + 2) ≤ ((pre ++ [last]).flatMap Answers.got).length := by
    rw [h.bytes, hlen]
    omega
  have hsize : (Target.domain name port).request.length ≤ bufferSize := by
    rw [hlen]
    unfold bufferSize
    omega
  obtain ⟨fate, ts, hexchange, hfollowed⟩ := exchange_domain hq hle h hrounds hlt hge
  have hholds : (c.collected (pre ++ [last])).Holds (Target.domain name port).request := by
    have happ : Sends c (.domain name port) ((pre ++ [last]) ++ []) := by rwa [List.append_nil]
    have hwhole := happ.holds hsize
    rwa [h.bytes] at hwhole
  obtain ⟨hport, hname⟩ := hholds.lookup_domain hq hle last
  set d := c.collected (pre ++ [last])
  constructor
  · rintro ⟨fate', es, hok, hexact⟩ hstarted hanswered hrecords
    obtain ⟨-, rfl⟩ := Prod.mk.inj (Except.ok.inj (hok.symm.trans hexchange))
    obtain ⟨r, -, hconnect⟩ := hfollowed.connects hstarted hanswered
    have hadmits := hexact.admitted _ _ _ _
      (List.mem_append_right _ (List.mem_append_right _ hconnect))
    rw [hrecords] at hadmits
    exact nomatch hadmits.1
  · intro hrecords
    refine ⟨fate, _, hexchange,
      exact_of_acting (acts_readEvents c _) (received_reads h) ?_ ?_ ?_ ?_ ?_ ?_⟩
    · intro e he
      rcases List.mem_append.mp he with he | he
      · exact received_lookupEvents e he
      · exact hfollowed.received_nil e he
    · obtain ⟨es, hlookup⟩ := lookupEvents_eq d last
      exact ⟨.stub last.dnsStub, by simp [hlookup], rfl⟩
    · intro R name' he
      rcases List.mem_append.mp he with he | he
      · exact (eq_of_submit he).trans hname
      · obtain ⟨-, -, r, -, -, heq⟩ := hfollowed.of_acts he rfl
        cases heq
    · intro hstarted
      obtain ⟨R, name', he⟩ := exists_submit (d := d) hstarted
      exact ⟨R, name', List.mem_append_left _ he⟩
    · intro fd ip port' ok he
      rcases List.mem_append.mp he with he | he
      · exact absurd he no_connect
      · obtain ⟨hstarted, hanswered, r, hr, hcheck, heq⟩ := hfollowed.of_acts he rfl
        cases heq
        exact ⟨hfetch (hrecords hstarted hanswered) r hr hcheck, hport⟩
    · rintro ⟨hstarted, hanswered, -⟩
      obtain ⟨r, -, hconnect⟩ := hfollowed.connects hstarted hanswered
      exact ⟨_, _, _, _, List.mem_append_right _ hconnect⟩

/-- A request for a long name is never acted on, or goes wrong. -/
theorem not_exact_domain_long (hq : (Target.domain name port).WellFormed)
    (hlong : 127 < name.length)
    (h : Sends c (.domain name port) reads) :
    ¬ ∃ fate es, c.exchange reads rounds = .ok (fate, es) ∧
      Exact (.domain name port) records sought found es := by
  have hlen := length_request_domain hq
  have h255 := hq.2.1
  have hsize : (Target.domain name port).request.length ≤ bufferSize := by
    rw [hlen]
    unfold bufferSize
    omega
  rintro ⟨fate, es, hok, hexact⟩
  by_cases h254 : name.length < 254
  · -- the length is negative and its size is above every count of bytes
    have hreading := reading_of_quiet [] h.status h.client h.pieces
      (h.bytes ▸ List.prefix_rfl) hsize
      (fun d bs hd hp _ => hd.waiting_domain hp hq (.inr ⟨h254, .inl hlong⟩))
    simp only [List.append_nil, reading, Except.map] at hreading
    have hexchange := exchange_of_ended rounds hreading (by
      intro c' hstay
      cases hstay
      rw [(collected_fields c reads).2.1, h.status]
      simp)
    obtain ⟨-, rfl⟩ := Prod.mk.inj (Except.ok.inj (hok.symm.trans hexchange))
    obtain ⟨e, he, hact⟩ := hexact.acted (received_reads h)
    simp [acts_readEvents c reads e he] at hact
  · -- the size wraps around to at most one byte, and the copy takes the huge one
    have hbytes := congrArg List.length h.bytes
    obtain ⟨pre, last, post, rfl, hlt, hge⟩ :=
      exists_crossing Answers.got 5 (by decide) reads (by omega)
    have happ := h
    rw [List.append_cons] at happ
    have hholds := happ.holds hsize
    have hinit := happ.initial
    have hcount := hholds.count
    obtain ⟨h3, h4⟩ := hholds.bytes_domain hinit hge
    have harrived := hholds.arrived_domain hinit hq hge (.inr (by omega))
    have hparse : (c.collected (pre ++ [last])).parseRequest last = .error .copy := by
      rcases parseRequest_ok_or (c.collected (pre ++ [last])) last with ⟨hfits, -⟩ | ⟨-, herror⟩
      · have hneg := hfits (by omega) h3 harrived
        rw [h4, char_ofNat _ (by omega)] at hneg
        split at hneg <;> omega
      · exact herror
    have hreading := h.reading_eq hsize (fun d bs hd hp hle => hd.waiting_domain hp hq (by omega))
      (by
      intro c' es hstay
      rw [hparse] at hstay
      cases hstay)
    rw [hparse] at hreading
    simp only [exchange, hreading, Except.map] at hok
    cases hok

theorem started_iff :
    (Target.domain name port).Started (pre ++ [last]) = (lookupStarted last = true) := by
  refine propext ⟨?_, fun h => ⟨pre, last, rfl, h⟩⟩
  rintro ⟨pre', last', hreads, h⟩
  obtain ⟨-, hlast⟩ := List.append_inj' hreads rfl
  rwa [List.singleton_inj.mp hlast]

/-- The request comes whole exactly if nothing is left of it after the read that is acted on. -/
theorem intact_iff (hle : name.length ≤ 127)
    (hlt : (pre.flatMap Answers.got).length < max 5 (name.length + 2))
    (hge : max 5 (name.length + 2) ≤ ((pre ++ [last]).flatMap Answers.got).length) :
    (Target.domain name port).Intact (pre ++ last :: post) ↔ post = [] := by
  constructor
  · rintro ⟨-, hintact⟩
    by_contra hpost
    have hearly := hintact (pre ++ [last]) post (by simp) hpost
    omega
  · rintro rfl
    refine ⟨hle, fun pre' post' hsplit hpost' => ?_⟩
    obtain ⟨mid, hmid⟩ : pre' <+: pre := by
      rw [← List.dropLast_append_getLast hpost', ← List.append_assoc] at hsplit
      obtain ⟨rfl, -⟩ := List.append_inj' hsplit rfl
      exact List.prefix_append ..
    rw [← hmid, List.flatMap_append, List.length_append] at hlt
    omega

/-- Where `parseDNS` takes the addresses of the rounds from an answer that has A records, they are
among these. -/
theorem fetched_of_parseDNS {P : Dns.Packet} (hsound : P.Sound) (hshort : P.data.length < 65536)
    (hfour : ∀ rr ∈ Dns.Iter.addresses.wanted 0 P, rr.rdLen = 4)
    (hparse : ∀ r ∈ rounds, r.2.dnsCheck = 0 → ∃ stale, r.2.dnsFetch = parseDNS P stale) :
    aRecords P ≠ [] → ∀ r ∈ rounds, r.2.dnsCheck = 0 → r.2.dnsFetch ∈ aRecords P := by
  intro hrecords r hr hanswered
  obtain ⟨stale, hfetch⟩ := hparse r hr hanswered
  rw [hfetch]
  exact parseDNS_mem hsound hshort hfour hrecords stale

/-- A well-formed request leads exactly to its target if it comes whole, its name is not too long,
and an answered lookup has found an address. -/
theorem exchange_exact_iff (hq : q.WellFormed) (h : Sends c q reads)
    (hrounds : ∀ r ∈ rounds, Polled { c with status := .resolving } r.1)
    (hfetch : records ≠ [] → ∀ r ∈ rounds, r.2.dnsCheck = 0 → r.2.dnsFetch ∈ records) :
    (∃ fate es, c.exchange reads rounds = .ok (fate, es) ∧
      Exact q records (q.Started reads) (q.Found reads rounds records) es) ↔
      q.Intact reads ∧ (q.Started reads → answered rounds → records ≠ []) := by
  cases q with
  | address ip port =>
    have hexact := exact_address rounds records hq h
    exact iff_of_true hexact ⟨trivial, nofun⟩
  | domain name port =>
    by_cases hle : name.length ≤ 127
    swap
    · exact iff_of_false (not_exact_domain_long hq (Nat.not_le.mp hle) h) fun hintact =>
        hle hintact.1.1
    have hquiet : ∀ r ∈ rounds, Quiet r.1 := fun r hr => (hrounds r hr).quiet rfl
    have hlen := congrArg List.length h.bytes
    rw [length_request_domain hq] at hlen
    obtain ⟨pre, last, post, rfl, hlt, hge⟩ :=
      exists_crossing Answers.got (max 5 (name.length + 2)) (by omega) reads (by omega)
    rw [intact_iff hle hlt hge]
    by_cases hpost : post = []
    · subst hpost
      have hiff := exact_domain_iff hq hle h hquiet hfetch hlt
      simp only [Target.Found, started_iff, true_and]
      exact hiff
    · exact iff_of_false (not_exact_domain_early hq hle h hquiet hlt hge hpost) fun hboth =>
        hpost hboth.1

end Exchange

/-- A read during which a lookup can be started. -/
def lookupRead (bytes : Chunk) : Answers := { Answers.reading bytes with dnsStub := some 0 }

/-- A lookup that is answered at once, with two addresses. -/
def answeredRound : Round :=
  (fun peer => ⟨false, peer = .client, false⟩,
    { Answers.reading ⟨[], Chunk.nil_fits⟩ with
      socket := 7, connect := true, dnsFetch := parseDNS Dns.Iter.twoAddresses [] })

/-- A connection that waits for its request. -/
def expectant : Connection := ⟨4, 0, .sockRequest, 0, 0, 0, fun _ => 0, fun _ => 0, none⟩

theorem expectant_sends {name port : List UInt8} {reads : List Answers}
    (hgot : ∀ ans ∈ reads, ans.got ≠ [])
    (hbytes : reads.flatMap Answers.got = (Target.domain name port).request) :
    Sends expectant (.domain name port) reads := ⟨rfl, rfl, rfl, hgot, hbytes⟩

/-- A request that is split before the length of its name. -/
theorem exchange_exact_iff_splitBeforeName : ∃ fate es,
    expectant.exchange
      [lookupRead ⟨[5, 1, 0, 3], by decide⟩, lookupRead ⟨[1, 97, 0, 80], by decide⟩]
      [answeredRound] = .ok (fate, es) ∧
    Exact (.domain [97] [0, 80]) (aRecords Dns.Iter.twoAddresses)
      ((Target.domain [97] [0, 80]).Started
        [lookupRead ⟨[5, 1, 0, 3], by decide⟩, lookupRead ⟨[1, 97, 0, 80], by decide⟩])
      ((Target.domain [97] [0, 80]).Found
        [lookupRead ⟨[5, 1, 0, 3], by decide⟩, lookupRead ⟨[1, 97, 0, 80], by decide⟩]
        [answeredRound] (aRecords Dns.Iter.twoAddresses)) es := by
  have hq : (Target.domain [97] [0, 80]).WellFormed := ⟨by decide, by decide, by decide, rfl⟩
  refine (exchange_exact_iff hq (expectant_sends (by decide +kernel) (by decide +kernel)) ?_ ?_).mpr
    ⟨⟨by decide, ?_⟩, ?_⟩
  · simp only [List.mem_singleton, forall_eq]
    exact fun peer => by cases peer <;> decide
  · apply fetched_of_parseDNS (Dns.Packet.sound_of_blank rfl) (by decide) (by decide)
    simp only [List.mem_singleton, forall_eq]
    exact fun _ => ⟨[], rfl⟩
  · intro pre post hsplit hpost
    match pre with
    | [] => decide
    | [ans] =>
      obtain ⟨rfl, -⟩ := List.cons.inj hsplit
      decide +kernel
    | ans :: ans' :: pre =>
      have hlen := congrArg List.length hsplit
      have hpos := List.length_pos_of_ne_nil hpost
      simp only [List.length_append, List.length_cons, List.length_nil] at hlen
      omega
  · exact fun _ _ => by decide

/-- A request that is split before its port is acted on without it. -/
theorem not_exact_splitBeforePort : (Target.domain [97] [0, 80]).WellFormed ∧
    Sends expectant (.domain [97] [0, 80])
      [lookupRead ⟨[5, 1, 0, 3, 1, 97], by decide⟩, lookupRead ⟨[0, 80], by decide⟩] ∧
    ¬ ∃ fate es, expectant.exchange
        [lookupRead ⟨[5, 1, 0, 3, 1, 97], by decide⟩, lookupRead ⟨[0, 80], by decide⟩]
        [answeredRound] =
        .ok (fate, es) ∧
      Exact (.domain [97] [0, 80]) (aRecords Dns.Iter.twoAddresses) True True es := by
  have hq : (Target.domain [97] [0, 80]).WellFormed := ⟨by decide, by decide, by decide, rfl⟩
  have hsends : Sends expectant (.domain [97] [0, 80])
      [lookupRead ⟨[5, 1, 0, 3, 1, 97], by decide⟩, lookupRead ⟨[0, 80], by decide⟩] :=
    expectant_sends (by decide +kernel) (by decide +kernel)
  refine ⟨hq, hsends, not_exact_domain_early hq (by decide)
    (show Sends expectant (.domain [97] [0, 80]) ([] ++ _ :: [_]) from hsends) ?_ (by decide)
    (by decide +kernel) (List.cons_ne_nil _ _)⟩
  simp only [List.mem_singleton, forall_eq]
  exact ⟨rfl, rfl, rfl⟩

end NetworkLabs.Proxy
