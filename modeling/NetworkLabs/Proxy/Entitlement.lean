import NetworkLabs.Proxy.Destination
import NetworkLabs.Proxy.Visit
import NetworkLabs.Proxy.Indices

/-! For whom the proxy opens connections and looks names up. -/
namespace NetworkLabs.Proxy

open Transition

/-- A whole greeting that offers the method 0. -/
def Greeted (bs : List UInt8) : Prop :=
  bs[0]? = some 5 ∧
    ∃ n, bs[1]? = some n ∧ 2 + n.toNat ≤ bs.length ∧ ∃ j < n.toNat, bs[2 + j]? = some 0

/-- A whole request of version 5 and command 1. -/
def Asked (bs : List UInt8) : Prop :=
  bs[0]? = some 5 ∧ bs[1]? = some 1 ∧ ((bs[3]? = some 1 ∧ 10 ≤ bs.length) ∨
    ∃ n, bs[3]? = some 3 ∧ bs[4]? = some n ∧ 7 + n.toNat ≤ bs.length)

/-- The client behind `fd` has sent its greeting, was answered that no authentication is needed,
and has sent `bs` since then. -/
def Authorised (fd : Int) (es : List Event) (bs : List UInt8) : Prop :=
  ∃ pre post, es = pre ++ .reply fd successAuth :: post ∧ Greeted (received .client pre) ∧
    received .client post = bs

/-- The client behind `fd` is still there, and may have something opened for it. -/
structure Entitled (fd : Int) (es : List Event) : Prop where
  asked : ∃ bs, Authorised fd es bs ∧ Asked bs
  here : ∀ e ∈ es, e ≠ .close fd

/-- Every step towards a target comes after the client was entitled to it. -/
def Entitling (fd : Int) (es : List Event) : Prop :=
  ∀ pre e post, es = pre ++ e :: post → e.acts = true → Entitled fd pre

/-- The event is a reply to a request, or an attempt to connect. -/
def Event.settles : Event → Bool
  | .reply _ bytes => bytes.length = 10
  | .connect _ _ _ _ => true
  | _ => false

section History
variable {fd : Int} {es es' : List Event} {bs : List UInt8}

theorem Asked.append (h : Asked bs) (bs' : List UInt8) : Asked (bs ++ bs') := by
  obtain ⟨h0, h1, h⟩ := h
  have hget : ∀ {k : Nat} {b : UInt8}, bs[k]? = some b → (bs ++ bs')[k]? = some b := fun hk => by
    rw [List.getElem?_append_left (List.getElem?_eq_some_iff.mp hk).1, hk]
  refine ⟨hget h0, hget h1, ?_⟩
  rw [List.length_append]
  rcases h with ⟨h3, hlen⟩ | ⟨n, h3, h4, hlen⟩
  · exact .inl ⟨hget h3, by omega⟩
  · exact .inr ⟨n, hget h3, hget h4, by omega⟩

theorem Authorised.append (h : Authorised fd es bs) (es' : List Event) :
    Authorised fd (es ++ es') (bs ++ received .client es') := by
  obtain ⟨pre, post, rfl, hgreeted, rfl⟩ := h
  exact ⟨pre, post ++ es', by simp, hgreeted, Connection.received_append⟩

theorem Entitled.append (h : Entitled fd es) (hhere : ∀ e ∈ es', e ≠ .close fd) :
    Entitled fd (es ++ es') := by
  obtain ⟨bs, hbs, hasked⟩ := h.asked
  refine ⟨⟨_, hbs.append es', hasked.append _⟩, fun e he => ?_⟩
  rcases List.mem_append.mp he with he | he
  · exact h.here e he
  · exact hhere e he

theorem Entitling.append (h : Entitling fd es)
    (h' : ∀ pre e post, es' = pre ++ e :: post → e.acts = true → Entitled fd (es ++ pre)) :
    Entitling fd (es ++ es') := by
  intro pre e post hsplit hact
  rcases List.append_eq_append_iff.mp hsplit with ⟨mid, rfl, hmid⟩ | ⟨mid, rfl, hmid⟩
  · exact h' mid e post hmid hact
  · cases mid with
    | nil => simpa using h' [] e post (by simpa using hmid.symm) hact
    | cons e' mid =>
      obtain ⟨rfl, rfl⟩ := List.cons.inj hmid
      exact h pre e mid rfl hact

/-- Nothing is opened. -/
theorem Entitling.append_idle (h : Entitling fd es) (hidle : ∀ e ∈ es', e.acts = false) :
    Entitling fd (es ++ es') :=
  h.append fun pre e post hsplit hact => by simp [hidle e (by simp [hsplit])] at hact

/-- Whatever is opened is opened for a client that is entitled to it. -/
theorem Entitling.append_entitled (h : Entitling fd es) (he : Entitled fd es)
    (hhere : ∀ e ∈ es', e ≠ .close fd) : Entitling fd (es ++ es') :=
  h.append fun pre e post hsplit _ => he.append fun e' he' => hhere e' (by simp [hsplit, he'])

theorem acts_closing (fate : Fate) : ∀ e ∈ fate.closing, e.acts = false := by
  unfold Fate.closing
  split
  · exact nofun
  · split <;> simp [Event.acts]

end History

namespace Connection

variable {c : Connection} {rev : Peer → Revents} {ans : Answers} {r : Fate × List Event}
  {bs : List UInt8}

theorem char_eq (b : UInt8) :
    char b = if b.toNat ≤ 127 then (b.toNat : Int) else b.toNat - 256 := by
  simpa using char_ofNat b.toNat b.toNat_lt

theorem eq_of_char {b : UInt8} {n : Nat} (hn : n < 128) (h : char b = n) : b = UInt8.ofNat n := by
  rw [char_eq] at h
  have hnat : b.toNat = n := by
    have := b.toNat_lt
    split at h <;> omega
  rw [← hnat, UInt8.ofNat_toNat]

theorem toNat_of_char {b : UInt8} (h : 0 ≤ char b) : (b.toNat : Int) = char b := by
  have := b.toNat_lt
  rw [char_eq] at h ⊢
  split at h
  · rw [if_pos (by assumption)]
  · omega

theorem Holds.greeted (h : c.Holds bs) (h2 : c.currBufClient ≥ 2) (h5 : char (c.clientBuf 0) = 5)
    (hlen : c.currBufClient ≥ 2 + char (c.clientBuf 1)) (hoffers : c.offersNoAuth = true) :
    Greeted bs := by
  have hcount := h.count
  simp only [offersNoAuth, List.any_eq_true, List.mem_range, decide_eq_true_iff] at hoffers
  obtain ⟨j, hj, hzero⟩ := hoffers
  have hn := toNat_of_char (b := c.clientBuf 1) (by omega)
  refine ⟨?_, c.clientBuf 1, h.buffer 1 (by omega), by omega, j, by omega, ?_⟩
  · rw [h.buffer 0 (by omega), eq_of_char (n := 5) (by decide) h5]
    rfl
  · rw [h.buffer (2 + j) (by omega), Nat.add_comm 2 j, hzero]

/-- A greeting that is not refused is waited for, or ends in success or failure. -/
theorem Holds.greeting_stay {c' : Connection} (h : c.Holds bs) (hc : c.greeting = .stay c') :
    c' = c ∨ (c' = { c with status := .authSuccess } ∧ Greeted bs) ∨
      c' = { c with status := .authFailure } := by
  unfold greeting at hc
  split at hc
  case isFalse =>
    cases hc
    exact .inl rfl
  case isTrue h2 =>
  split at hc
  case isTrue => cases hc
  case isFalse h5 =>
  split at hc
  case isFalse =>
    cases hc
    exact .inl rfl
  case isTrue hlen =>
  cases hc
  cases hoffers : c.offersNoAuth with
  | true => exact .inr (.inl ⟨rfl, h.greeted h2 (not_not.mp h5) hlen hoffers⟩)
  | false => exact .inr (.inr rfl)

/-- A request that is not rejected. -/
theorem Holds.accepted (h : c.Holds bs) (h2 : c.currBufClient ≥ 2) (hr : c.rejected = false) :
    bs[0]? = some 5 ∧ bs[1]? = some 1 := by
  have hcount := h.count
  simp only [rejected, Bool.and_eq_false_iff, decide_eq_false_iff_not, Bool.or_eq_false_iff] at hr
  obtain ⟨h0, h1⟩ := hr.resolve_left (by omega)
  rw [h.buffer 0 (by omega), h.buffer 1 (by omega), eq_of_char (n := 5) (by decide) (not_not.mp h0),
    eq_of_char (n := 1) (by decide) (not_not.mp h1)]
  exact ⟨rfl, rfl⟩

/-- Everything that the handling of a record by itself can come to. -/
inductive Attended (c : Connection) (rev : Peer → Revents) (ans : Answers) :
    Fate × List Event → Prop
  | idle (hs : c.status ≠ .forwarding) : Attended c rev ans (.stay c, [])
  | gone {es : List Event} (hs : c.status ≠ .forwarding)
      (he : ∀ e ∈ es, e = c.readEvent .client ans) :
      Attended c rev ans (.drop c false, es)
  | greeted (hs : c.status = .incoming) (hf : c.ReadFits ans) :
      Attended c rev ans ((c.appended ans).greeting, [c.readEvent .client ans])
  | unauthorised (hs : c.status = .authFailure) :
      Attended c rev ans (.drop c false, [.reply c.clientSocket failedAuth])
  | authorised (hs : c.status = .authSuccess) :
      Attended c rev ans (.stay { c with status := .sockRequest, currBufClient := 0 },
        [.reply c.clientSocket successAuth])
  | rejected (hs : c.status = .sockRequest) (hf : c.ReadFits ans)
      (hr : (c.appended ans).rejected = true) :
      Attended c rev ans (.drop (c.appended ans) false,
        [c.readEvent .client ans, .reply c.clientSocket (errorReply 7)])
  | requested (hs : c.status = .sockRequest) (hf : c.ReadFits ans)
    (h0 : readCount (ans.read .client) ≠ 0)
      (hrev : ((rev .client).pollin || (rev .client).pollout) = true)
      (hr : (c.appended ans).rejected = false) {r : Fate × List Event}
      (hp : (c.appended ans).parseRequest ans = .ok r) :
      Attended c rev ans (r.1, c.readEvent .client ans :: r.2)
  | resolved (hs : c.status = .resolving) (hout : (rev .client).pollout = true)
    (hcheck : ans.dnsCheck = 0) :
      Attended c rev ans ((c.opened ans).1, .connect ans.socket ans.dnsFetch (c.serverBuf.bytes 0 2)
        ans.connect :: .dnsClose c.R :: (c.opened ans).2)
  | unresolved (hs : c.status = .resolving) :
      Attended c rev ans (.drop c false, [.reply c.clientSocket (errorReply 4), .dnsClose c.R])
  | relayed (hs : c.status = .forwarding) : Attended c rev ans (c.forwarding rev ans)

/-- Before the relay starts there is nothing to be forwarded. -/
structure Unrelayed (c : Connection) : Prop where
  server : c.currBufServer = 0
  client : 0 ≤ c.currBufClient

theorem attended_resolving (hs : c.status = .resolving) (hu : c.Unrelayed) (hp : c.Polled rev) :
    Attended c rev ans (c.resolving rev ans) := by
  have hidle : c.forwarding rev ans = (.stay c, []) :=
    forwarding_of_quiet (hp.quiet hs) hu.server hu.client
  have hne : c.status ≠ .forwarding := by simp [hs]
  unfold resolving
  split
  · rename_i hout
    split
    · rename_i hcheck
      exact .resolved hs hout hcheck
    split
    · exact .unresolved hs
    split
    · exact .unresolved hs
    · rw [hidle]
      exact .idle hne
  · rw [hidle]
    exact .idle hne

theorem attended_request (hs : c.status = .sockRequest)
    (hrev : ((rev .client).pollin || (rev .client).pollout) = true)
    (h : c.attended rev ans = .ok r) :
    Attended c rev ans r := by
  simp only [attended, if_pos (And.intro hs hrev)] at h
  split at h
  · cases h
    exact .gone (by simp [hs]) (by simp)
  rename_i h0
  by_cases hf : c.ReadFits ans
  swap
  · simp [append_of_not_fits hf, Except.bind] at h
  simp only [append_of_fits hf, Except.bind] at h
  cases hr : (c.appended ans).rejected with
  | true =>
    simp only [hr, if_true, Except.ok.injEq] at h
    subst h
    exact .rejected hs hf hr
  | false =>
    simp only [hr, Bool.false_eq_true, if_false] at h
    obtain ⟨r', hp, rfl⟩ := map_eq_ok.mp h
    exact .requested hs hf h0 hrev hr hp

theorem attended_cases (hu : c.status ≠ .forwarding → c.Unrelayed) (hp : c.Polled rev)
    (h : c.attended rev ans = .ok r) : Attended c rev ans r := by
  by_cases hreq : c.status = .sockRequest ∧ ((rev .client).pollin || (rev .client).pollout) = true
  · exact attended_request hreq.1 hreq.2 h
  rw [attended, if_neg hreq] at h
  cases hs : c.status with
  | incoming =>
    have hne : c.status ≠ .forwarding := by simp [hs]
    by_cases hg : c.Greets rev ans
    · rcases handled_ok_or c rev ans with ⟨hfits, -⟩ | ⟨-, herr⟩
      · cases (handled_of_greets hg (hfits hg)).symm.trans h
        exact .greeted hs (hfits hg)
      · cases herr.symm.trans h
    · simp only [handled, hs, incoming] at h
      split at h
      · cases h
        exact .gone hne (by simp)
      split at h
      · rename_i hhup hin
        split at h
        · cases h
          exact .gone hne (by simp)
        · rename_i h0
          exact absurd ⟨h0, hs, by simpa using hhup, hin⟩ hg
      · cases h
        exact .idle hne
  | authFailure =>
    simp only [handled, hs, authFailure, Except.ok.injEq] at h
    subst h
    split
    · exact .unauthorised hs
    · exact .idle (by simp [hs])
  | authSuccess =>
    simp only [handled, hs, authSuccess, Except.ok.injEq] at h
    subst h
    split
    · exact .authorised hs
    · exact .idle (by simp [hs])
  | sockRequest =>
    -- nothing is reported to the client, and nothing is asked for the server
    obtain ⟨hin, hout⟩ : (rev .client).pollin = false ∧ (rev .client).pollout = false := by
      have hnone : ((rev .client).pollin || (rev .client).pollout) = false :=
        Bool.eq_false_iff.mpr fun hrev => hreq ⟨hs, hrev⟩
      simpa using hnone
    have hserver := hp .server
    simp only [formPollFds, hs, Bool.false_eq_true, imp_false, Bool.not_eq_true] at hserver
    have hunrelayed := hu (by simp [hs])
    have hidle : c.forwarding rev ans = (.stay c, []) :=
      forwarding_of_quiet ⟨hin, hserver⟩ hunrelayed.server hunrelayed.client
    simp only [handled, hs, resolving, hout, Bool.false_eq_true, if_false, hidle,
      Except.ok.injEq] at h
    subst h
    exact .idle (by simp [hs])
  | resolving =>
    simp only [handled, hs, Except.ok.injEq] at h
    subst h
    exact attended_resolving hs (hu (by simp [hs])) hp
  | forwarding =>
    simp only [handled, hs, Except.ok.injEq] at h
    subst h
    exact .relayed hs

/-- Everything that a request can come to when it goes right. -/
inductive Parses (c : Connection) (ans : Answers) : Fate × List Event → Prop
  | waiting : Parses c ans (.stay c, [])
  | address (h1 : char (c.clientBuf 3) = 1) (h10 : c.currBufClient ≥ 10) :
      Parses c ans ((c.opened ans).1,
        .connect ans.socket (c.clientBuf.bytes 4 4) (c.clientBuf.bytes 8 2)
        ans.connect :: (c.opened ans).2)
  | sought (h5 : c.currBufClient ≥ 5) (h3 : char (c.clientBuf 3) = 3)
    (harrived : c.nameArrived = true)
      (hlength : 0 ≤ char (c.clientBuf 4)) (hstarted : lookupStarted ans = true) :
      Parses c ans (.stay (c.resolvingName ans), c.lookupEvents ans)
  | unsought (h5 : c.currBufClient ≥ 5) (h3 : char (c.clientBuf 3) = 3)
    (harrived : c.nameArrived = true)
      (hlength : 0 ≤ char (c.clientBuf 4)) (hstarted : lookupStarted ans = false) :
      Parses c ans (.drop (c.resolvingName ans) false,
        c.lookupEvents ans ++ [.reply c.clientSocket (errorReply 4)])
  | unknown : Parses c ans (.drop c false, [.reply c.clientSocket (errorReply 8)])

theorem parses_of_ok (h : c.parseRequest ans = .ok r) : Parses c ans r := by
  by_cases hw : c.Waiting
  · cases (parseRequest_of_waiting hw).symm.trans h
    exact .waiting
  have h5 : c.currBufClient ≥ 5 := by
    by_contra hlt
    exact hw (.inl (by omega))
  by_cases h1 : char (c.clientBuf 3) = 1
  · have h10 : c.currBufClient ≥ 10 := by
      by_contra hlt
      exact hw (.inr (.inl ⟨h1, by omega⟩))
    cases (parseRequest_of_address h1 h10).symm.trans h
    exact .address h1 h10
  by_cases h3 : char (c.clientBuf 3) = 3
  · have harrived : c.nameArrived = true := by
      by_contra hnot
      exact hw (.inr (.inr ⟨h3, by simpa using hnot⟩))
    rcases parseRequest_ok_or c ans with ⟨hfits, -⟩ | ⟨-, herr⟩
    · have hlength := hfits h5 h3 harrived
      have heq := (parseRequest_of_name h5 h3 harrived hlength).symm.trans h
      cases hstarted : lookupStarted ans with
      | true =>
        simp only [hstarted, if_true, Except.ok.injEq] at heq
        subst heq
        exact .sought h5 h3 harrived hlength hstarted
      | false =>
        simp only [hstarted, Bool.false_eq_true, if_false, Except.ok.injEq] at heq
        subst heq
        exact .unsought h5 h3 harrived hlength hstarted
    · cases herr.symm.trans h
  · simp only [parseRequest, if_pos h5, if_neg h1, if_neg h3, Except.ok.injEq] at h
    subst h
    exact .unknown

/-- A name that is going to be looked up is there with its port. -/
def NameWhole (c : Connection) : Prop :=
  c.currBufClient ≥ 5 → char (c.clientBuf 3) = 3 → c.nameArrived = true → 0 ≤ char (c.clientBuf 4) →
    7 + char (c.clientBuf 4) ≤ c.currBufClient

/-- The parsing of the request comes to a connection or a lookup. -/
def Ready (c : Connection) : Prop :=
  c.currBufClient ≥ 5 ∧ ((char (c.clientBuf 3) = 1 ∧ c.currBufClient ≥ 10) ∨
    (char (c.clientBuf 3) = 3 ∧ c.nameArrived = true ∧ 0 ≤ char (c.clientBuf 4)))

/-- A name is looked up only with the whole request, and nothing is opened for a request that is
parsed because another one was rejected. -/
def OpensDuly (c : Connection) : Visit.Action → Prop
  | .attend rev ans =>
    c.status = .sockRequest → ((rev .client).pollin || (rev .client).pollout) = true →
      readCount (ans.read .client) ≠ 0 → (c.appended ans).rejected = false →
      (c.appended ans).NameWhole
  | .stray _ => ¬ c.Ready

/-- The name and the port that a request for a name contains. -/
def NameAsked (bs name port : List UInt8) : Prop :=
  ∃ n, bs[3]? = some 3 ∧ bs[4]? = some n ∧ name = ((bs.drop 5).take n.toNat).takeWhile (· ≠ 0) ∧
    port = (bs.drop (5 + n.toNat)).take 2

/-- What the client has done, as far as the record knows. -/
def Stage (c : Connection) (es : List Event) : Prop :=
  match c.status with
  | .incoming => c.Holds (received .client es)
  | .authFailure => True
  | .authSuccess => Greeted (received .client es)
  | .sockRequest => ∃ bs, Authorised c.clientSocket es bs ∧ c.Holds bs
  | .resolving => ∃ bs, Authorised c.clientSocket es bs ∧ Asked bs ∧
      NameAsked bs c.clientBuf.string (c.serverBuf.bytes 0 2)
  | .forwarding => Entitled c.clientSocket es

/-- The event neither opens nor settles nor closes anything. -/
structure Idle (e : Event) : Prop where
  acts : e.acts = false
  settles : e.settles = false
  here : ∀ fd, e ≠ .close fd

theorem idle_readEvent (peer : Peer) : Idle (c.readEvent peer ans) := ⟨rfl, rfl, nofun⟩

theorem idle_auth (fd : Int) : Idle (.reply fd failedAuth) ∧ Idle (.reply fd successAuth) :=
  ⟨⟨rfl, rfl, nofun⟩, ⟨rfl, rfl, nofun⟩⟩

theorem idle_forwarding : ∀ e ∈ (c.forwarding rev ans).2, Idle e := by
  apply forwarding_events
  · intro d peer
    exact idle_readEvent peer
  · intro peer fd bytes accepted
    exact ⟨rfl, rfl, nofun⟩

theorem here_opened (fd : Int) : ∀ e ∈ (c.opened ans).2, e ≠ .close fd := by
  unfold opened
  dsimp only
  split <;> simp

theorem lookupEvents_unsettled (fd : Int) :
    ∀ e ∈ c.lookupEvents ans, e ≠ .close fd ∧ e.settles = false := by
  unfold lookupEvents
  split <;> simp [Event.settles]

theorem received_readEvent : received .client [c.readEvent .client ans] = ans.got := by
  simpa using received_readEvents c [ans]

theorem Holds.appended_of_fits (h : c.Holds bs) (hf : c.ReadFits ans) :
    (c.appended ans).Holds (bs ++ ans.got) := by
  have hcount := h.count
  obtain ⟨hn, -, hle⟩ := hf
  by_cases hgot : ans.got = []
  · have hzero : readCount (ans.read .client) = 0 := by
      cases hread : ans.read .client with
      | none => simp [readCount, hread] at hn
      | some chunk => simpa [readCount, Answers.got, hread] using hgot
    rw [hgot, List.append_nil]
    refine ⟨by simp [Connection.appended, hzero, hcount], fun k hk => ?_⟩
    simp only [Connection.appended, hzero, Buffer.copied, sizeT]
    rw [if_neg (by simp)]
    exact h.buffer k hk
  · apply h.appended hgot
    rw [readCount_of_ne hgot] at hle
    omega

theorem received_append_readEvent (c : Connection) (ans : Answers) (es : List Event) :
    received .client (es ++ [c.readEvent .client ans]) = received .client es ++ ans.got := by
  rw [received_append, received_readEvent]

theorem Holds.asked_address (h : c.Holds bs) (hr : c.rejected = false)
    (h1 : char (c.clientBuf 3) = 1)
    (h10 : c.currBufClient ≥ 10) : Asked bs := by
  have hcount := h.count
  obtain ⟨hversion, hcommand⟩ := h.accepted (by omega) hr
  refine ⟨hversion, hcommand, .inl ⟨?_, by omega⟩⟩
  rw [h.buffer 3 (by omega), eq_of_char (n := 1) (by decide) h1]
  rfl

theorem Holds.asked_name (h : c.Holds bs) (hr : c.rejected = false) (hwhole : c.NameWhole)
    (h5 : c.currBufClient ≥ 5) (h3 : char (c.clientBuf 3) = 3) (harrived : c.nameArrived = true)
    (hlength : 0 ≤ char (c.clientBuf 4)) :
    Asked bs ∧ ∃ n, bs[3]? = some 3 ∧ bs[4]? = some n ∧ (n.toNat : Int) = char (c.clientBuf 4) ∧
      7 + n.toNat ≤ bs.length := by
  have hcount := h.count
  obtain ⟨hversion, hcommand⟩ := h.accepted (by omega) hr
  have htype : bs[3]? = some 3 := by
    rw [h.buffer 3 (by omega), eq_of_char (n := 3) (by decide) h3]
    rfl
  have hn := toNat_of_char hlength
  have hfits := hwhole h5 h3 harrived hlength
  have hlen : 7 + (c.clientBuf 4).toNat ≤ bs.length := by omega
  have h4 := h.buffer 4 (by omega)
  exact ⟨⟨hversion, hcommand, .inr ⟨_, htype, h4, hlen⟩⟩, _, htype, h4, hn, hlen⟩

/-- A whole request for a name leaves its name and its port in the record. -/
theorem Holds.nameAsked (h : c.Holds bs) {n : UInt8} (h3 : bs[3]? = some 3) (h4 : bs[4]? = some n)
    (hn : (n.toNat : Int) = char (c.clientBuf 4)) (hlen : 7 + n.toNat ≤ bs.length) (ans : Answers) :
    NameAsked bs (c.queried ans).clientBuf.string ((c.queried ans).serverBuf.bytes 0 2) := by
  have hsplit : bs = bs.take 5 ++ ((bs.drop 5).take n.toNat ++ ((bs.drop (5 + n.toNat)).take 2 ++
      bs.drop (5 + n.toNat + 2))) := by
    simp [← List.drop_drop]
  have hname : ((bs.drop 5).take n.toNat).length = n.toNat := by
    rw [List.length_take, List.length_drop]
    omega
  rw [hsplit] at h
  obtain ⟨hport, hstring⟩ := h.lookup (by rw [List.length_take]; omega) (by rw [hname, hn])
    (by rw [List.length_take, List.length_drop]; omega) ans
  exact ⟨n, h3, h4, hstring, hport⟩

end Connection

namespace Visit

open Connection

variable {v w : Visit} {a : Action} {rev : Peer → Revents} {ans : Answers} {r : Fate × List Event}

/-- A visit that goes on: its client is still there, and nothing was settled for it before the
relay started. -/
structure Live (v : Visit) : Prop where
  here : ∀ e ∈ v.events, e ≠ .close v.connection.clientSocket
  unrelayed : v.connection.status ≠ .forwarding → v.connection.Unrelayed
  unsettled : v.connection.status ≠ .forwarding → ∀ e ∈ v.events, e.settles = false
  stage : v.connection.Stage v.events

/-- What holds of every visit. -/
structure Orderly (v : Visit) : Prop where
  live : v.dropped = false → v.Live
  entitling : Entitling v.connection.clientSocket v.events

theorem orderly_fresh {c : Connection} (h : c.Fresh) : Orderly ⟨c, false, []⟩ := by
  obtain ⟨hstatus, hclient, hserver⟩ := h
  refine ⟨fun _ => ⟨nofun, fun _ => ⟨hserver, Int.le_of_eq hclient.symm⟩, fun _ => nofun, ?_⟩,
    by simp [Entitling]⟩
  simp only [Stage, hstatus]
  exact ⟨hclient, nofun⟩

theorem orderly_drop {c : Connection} {server : Bool} {es : List Event}
    (hclient : c.clientSocket = v.connection.clientSocket)
    (h : Entitling v.connection.clientSocket (v.events ++ es)) :
    (v.after (.drop c server, es)).Orderly := by
  refine ⟨fun hlive => by simp [after, Fate.dropped] at hlive, ?_⟩
  simp only [after, Fate.record, hclient, ← List.append_assoc]
  exact h.append_idle (acts_closing _)

theorem orderly_stay {c : Connection} {es : List Event}
    (hlive : v.dropped = false → Live ⟨c, false, v.events ++ es⟩)
    (h : Entitling c.clientSocket (v.events ++ es)) : (v.after (.stay c, es)).Orderly := by
  refine ⟨fun hdropped => ?_, by simpa [after, Fate.record, Fate.closing] using h⟩
  have hv : v.dropped = false := by simpa [after, Fate.dropped] using hdropped
  simpa [after, Fate.record, Fate.closing, Fate.dropped, hv] using hlive hv

theorem Live.next {c : Connection} {es : List Event} (h : v.Live)
    (hclient : c.clientSocket = v.connection.clientSocket)
    (hes : ∀ e ∈ es, e ≠ .close v.connection.clientSocket)
    (hbefore : c.status ≠ .forwarding → v.connection.status ≠ .forwarding ∧ c.Unrelayed ∧
      ∀ e ∈ es, e.settles = false)
    (hstage : c.Stage (v.events ++ es)) : Live ⟨c, false, v.events ++ es⟩ := by
  refine ⟨fun e he => ?_, fun hne => (hbefore hne).2.1, fun hne e he => ?_, hstage⟩
  · rw [hclient]
    rcases List.mem_append.mp he with he | he
    · exact h.here e he
    · exact hes e he
  · rcases List.mem_append.mp he with he | he
    · exact h.unsettled (hbefore hne).1 e he
    · exact (hbefore hne).2.2 e he

/-- The greeting is read, or more of it. -/
theorem live_greeting (h : v.Live) (hs : v.connection.status = .incoming)
    (hf : v.connection.ReadFits ans) {c : Connection}
    (hc : (v.connection.appended ans).greeting = .stay c) :
    Live ⟨c, false, v.events ++ [v.connection.readEvent .client ans]⟩ := by
  have hstage := h.stage
  simp only [Stage, hs] at hstage
  have hholds := hstage.appended_of_fits hf
  rw [← received_append_readEvent v.connection ans] at hholds
  have hcount := hholds.count
  have hunrelayed : (v.connection.appended ans).Unrelayed :=
    ⟨(h.unrelayed (by simp [hs])).server, by omega⟩
  have hidle : Idle (v.connection.readEvent .client ans) := idle_readEvent .client
  have hbefore : v.connection.status ≠ .forwarding := by simp [hs]
  rcases hholds.greeting_stay hc with rfl | ⟨rfl, hgreeted⟩ | rfl
  · refine h.next rfl (by simpa using hidle.here _)
      (fun _ => ⟨hbefore, hunrelayed, by simpa using hidle.settles⟩) ?_
    simp only [Stage, show (v.connection.appended ans).status = .incoming from hs]
    exact hholds
  · exact h.next rfl (by simpa using hidle.here _)
      (fun _ => ⟨hbefore, ⟨hunrelayed.server, hunrelayed.client⟩,
        by simpa using hidle.settles⟩) hgreeted
  · exact h.next rfl (by simpa using hidle.here _)
      (fun _ => ⟨hbefore, ⟨hunrelayed.server, hunrelayed.client⟩,
        by simpa using hidle.settles⟩) trivial

/-- What `openServerSocket` leads to for a client that is entitled to it. -/
theorem orderly_opened (es : List Event) (h : v.Orderly) (hl : v.Live)
    (he : Entitled v.connection.clientSocket v.events)
    (hes : ∀ e ∈ es, e ≠ .close v.connection.clientSocket) :
    (v.after ((v.connection.opened ans).1, es ++ (v.connection.opened ans).2)).Orderly := by
  have hhere : ∀ e ∈ es ++ (v.connection.opened ans).2, e ≠ .close v.connection.clientSocket := by
    intro e hmem
    rcases List.mem_append.mp hmem with hmem | hmem
    · exact hes e hmem
    · exact here_opened _ e hmem
  have hentitling := h.entitling.append_entitled he hhere
  by_cases hsocket : ans.socket = -1
  · rw [opened_of_failed hsocket] at hhere hentitling ⊢
    exact orderly_drop rfl hentitling
  · have hentitled := he.append hhere
    rw [opened_of_connected hsocket] at hhere hentitling hentitled ⊢
    exact orderly_stay (fun _ => hl.next rfl hhere (fun hne => absurd rfl hne) hentitled) hentitling

theorem after_idle : v.after (.stay v.connection, []) = v := by
  simp [after, Fate.record, Fate.dropped, Fate.closing]

/-- What has been read of the request is parsed. -/
theorem orderly_parsed (h : v.Orderly) (hl : v.Live) (hs : v.connection.status = .sockRequest)
    (hr : v.connection.rejected = false) (hwhole : v.connection.NameWhole)
    (hp : v.connection.parseRequest ans = .ok r) : (v.after r).Orderly := by
  have hstage := hl.stage
  simp only [Stage, hs] at hstage
  obtain ⟨bs, hauth, hholds⟩ := hstage
  have hbefore : v.connection.status ≠ .forwarding := by simp [hs]
  have hlookup : ∀ e ∈ v.connection.lookupEvents ans, e ≠ .close v.connection.clientSocket :=
    fun e he => (lookupEvents_unsettled _ e he).1
  have hparses := parses_of_ok hp
  cases hparses with
  | waiting => rwa [after_idle]
  | address h1 h10 =>
    have hasked := hholds.asked_address hr h1 h10
    exact orderly_opened [_] h hl ⟨⟨bs, hauth, hasked⟩, hl.here⟩ (by simp)
  | sought h5 h3 harrived hlength hstarted =>
    obtain ⟨hasked, n, hbs3, hbs4, hn, hlen⟩ := hholds.asked_name hr hwhole h5 h3 harrived hlength
    have hauth' := hauth.append (v.connection.lookupEvents ans)
    rw [received_of_aside received_lookupEvents, List.append_nil] at hauth'
    have hunrelayed := hl.unrelayed hbefore
    refine orderly_stay (fun _ => hl.next rfl hlookup
      (fun _ => ⟨hbefore, ⟨hunrelayed.server, hunrelayed.client⟩,
      fun e he => (lookupEvents_unsettled 0 e he).2⟩) ?_) ?_
    · exact ⟨bs, hauth', hasked, hholds.nameAsked hbs3 hbs4 hn hlen ans⟩
    · exact h.entitling.append_entitled ⟨⟨bs, hauth, hasked⟩, hl.here⟩ hlookup
  | unsought h5 h3 harrived hlength hstarted =>
    have hasked := (hholds.asked_name hr hwhole h5 h3 harrived hlength).1
    refine orderly_drop rfl
      (h.entitling.append_entitled ⟨⟨bs, hauth, hasked⟩, hl.here⟩ fun e he => ?_)
    rcases List.mem_append.mp he with he | he
    · exact hlookup e he
    · rw [List.mem_singleton.mp he]
      exact nofun
  | unknown => exact orderly_drop rfl (h.entitling.append_idle (by simp [Event.acts]))

/-- The request is read, or more of it. -/
theorem live_read (hl : v.Live) (hs : v.connection.status = .sockRequest)
    (hf : v.connection.ReadFits ans) :
    Live ⟨v.connection.appended ans, false, v.events ++ [v.connection.readEvent .client ans]⟩ := by
  have hstage := hl.stage
  simp only [Stage, hs] at hstage
  obtain ⟨bs, hauth, hholds⟩ := hstage
  have hauth := hauth.append [v.connection.readEvent .client ans]
  rw [received_readEvent] at hauth
  have hholds := hholds.appended_of_fits hf
  have hcount := hholds.count
  have hidle : Idle (v.connection.readEvent .client ans) := idle_readEvent .client
  have hunrelayed : (v.connection.appended ans).Unrelayed :=
    ⟨(hl.unrelayed (by simp [hs])).server, by omega⟩
  refine hl.next rfl (by simpa using hidle.here _)
    (fun _ => ⟨by simp [hs], hunrelayed, by simpa using hidle.settles⟩) ?_
  simp only [Stage, show (v.connection.appended ans).status = .sockRequest from hs]
  exact ⟨_, hauth, hholds⟩

/-- The parsing goes on from the record that has what was read. -/
theorem after_read (hdropped : v.dropped = false) (r : Fate × List Event) :
    v.after (r.1, v.connection.readEvent .client ans :: r.2) =
      after
        ⟨v.connection.appended ans, false, v.events ++ [v.connection.readEvent .client ans]⟩ r := by
  simp [after, hdropped]

theorem orderly_requested (h : v.Orderly) (hl : v.Live) (hdropped : v.dropped = false)
    (hs : v.connection.status = .sockRequest)
    (hf : v.connection.ReadFits ans) (hr : (v.connection.appended ans).rejected = false)
    (hwhole : (v.connection.appended ans).NameWhole)
    (hp : (v.connection.appended ans).parseRequest ans = .ok r) :
    (v.after (r.1, v.connection.readEvent .client ans :: r.2)).Orderly := by
  have hread := live_read hl hs hf
  have horderly : Orderly
      ⟨v.connection.appended ans, false, v.events ++ [v.connection.readEvent .client ans]⟩ :=
    ⟨fun _ => hread, h.entitling.append_idle (by simp [Event.acts, readEvent])⟩
  rw [after_read hdropped]
  exact orderly_parsed horderly hread hs hr hwhole hp

/-- A record that is handled by itself. -/
theorem orderly_attend (h : v.Orderly) (hdropped : v.dropped = false) (hp : v.connection.Polled rev)
    (hcond : v.connection.OpensDuly (.attend rev ans))
    (hattended : v.connection.attended rev ans = .ok r) :
    (v.after r).Orderly := by
  have hl := h.live hdropped
  have hstage := hl.stage
  cases attended_cases hl.unrelayed hp hattended with
  | idle => rwa [after_idle]
  | gone hs he =>
    exact orderly_drop rfl (h.entitling.append_idle fun e hmem => by rw [he e hmem]; rfl)
  | greeted hs hf =>
    have hentitling : Entitling v.connection.clientSocket
        (v.events ++ [v.connection.readEvent .client ans]) :=
      h.entitling.append_idle (by simp [Event.acts, readEvent])
    have hclient : (v.connection.appended ans).greeting.record.clientSocket =
        v.connection.clientSocket :=
      client_of_attended hattended
    cases hgreeting : (v.connection.appended ans).greeting with
    | stay c =>
      rw [hgreeting] at hclient
      refine orderly_stay (fun _ => live_greeting hl hs hf hgreeting) ?_
      exact (show c.clientSocket = v.connection.clientSocket from hclient) ▸ hentitling
    | drop c server =>
      rw [hgreeting] at hclient
      exact orderly_drop hclient hentitling
  | unauthorised hs => exact orderly_drop rfl (h.entitling.append_idle (by simp [Event.acts]))
  | authorised hs =>
    simp only [Stage, hs] at hstage
    have hbefore : v.connection.status ≠ .forwarding := by simp [hs]
    refine orderly_stay (fun _ => hl.next rfl (by simp)
      (fun _ => ⟨hbefore, ⟨(hl.unrelayed hbefore).server, Int.le_refl 0⟩,
        by simpa using (idle_auth _).2.settles⟩) ?_)
      (h.entitling.append_idle (by simp [Event.acts]))
    exact ⟨[], ⟨v.events, [], rfl, hstage, rfl⟩, rfl, by simp⟩
  | rejected hs hf hr =>
    exact orderly_drop rfl (h.entitling.append_idle (by simp [Event.acts, readEvent]))
  | requested hs hf h0 hrev hr hp =>
    exact orderly_requested h hl hdropped hs hf hr (hcond hs hrev h0 hr) hp
  | resolved hs hout hcheck =>
    simp only [Stage, hs] at hstage
    obtain ⟨bs, hauth, hasked, -⟩ := hstage
    exact orderly_opened [_, _] h hl ⟨⟨bs, hauth, hasked⟩, hl.here⟩ (by simp)
  | unresolved hs => exact orderly_drop rfl (h.entitling.append_idle (by simp [Event.acts]))
  | relayed hs =>
    simp only [Stage, hs] at hstage
    have hends := sameEnds_forwarding v.connection rev ans
    have hclient := hends.socket .client
    have hentitling : Entitling v.connection.clientSocket
        (v.events ++ (v.connection.forwarding rev ans).2) :=
      h.entitling.append_idle fun e he => (idle_forwarding e he).acts
    have hhere : ∀ e ∈ (v.connection.forwarding rev ans).2, e ≠ .close v.connection.clientSocket :=
      fun e he => (idle_forwarding e he).here _
    generalize v.connection.forwarding rev ans = r at hends hclient hentitling hhere
    rcases r with ⟨c | ⟨c, server⟩, es⟩
    · have hstatus : c.status = .forwarding := hends.status.trans hs
      have hsocket : c.clientSocket = v.connection.clientSocket := hclient
      refine orderly_stay (fun _ => hl.next hsocket hhere (fun hne => absurd hstatus hne) ?_)
        (hsocket ▸ hentitling)
      simp only [Stage, hstatus, hsocket]
      exact hstage.append hhere
    · exact orderly_drop hclient hentitling

/-- A record whose request is parsed because another one was rejected. -/
theorem orderly_stray (h : v.Orderly) (hcond : v.connection.OpensDuly (.stray ans))
    (hp : v.connection.parseRequest ans = .ok r) : (v.after r).Orderly := by
  have hready : ¬ v.connection.Ready := hcond
  cases parses_of_ok hp with
  | waiting => rwa [after_idle]
  | address h1 h10 => exact absurd ⟨by omega, .inl ⟨h1, h10⟩⟩ hready
  | sought h5 h3 harrived hlength => exact absurd ⟨h5, .inr ⟨h3, harrived, hlength⟩⟩ hready
  | unsought h5 h3 harrived hlength => exact absurd ⟨h5, .inr ⟨h3, harrived, hlength⟩⟩ hready
  | unknown => exact orderly_drop rfl (h.entitling.append_idle (by simp [Event.acts]))

theorem orderly_trInv : (guarded OpensDuly).TrInv Orderly := by
  rintro v a w ⟨htr, hcond⟩ h
  cases htr with
  | attend hlive hp hattended => exact orderly_attend h hlive hp hcond hattended
  | stray hp => exact orderly_stray h hcond hp

theorem Reached.orderly (h : Reached OpensDuly v) : v.Orderly :=
  h.inv orderly_trInv fun _ hc => orderly_fresh hc

end Visit

namespace Logged

open Connection

/-- In every run in which no name is looked up before the whole request is there, and nothing is
opened for what comes into the slot of a rejected request, connections and lookups are made only
for clients that are entitled to them. -/
theorem entitling_sessions {xs : List Loop.Action} {s : Logged}
    (h : (guarded OpensDuly).MTr initial xs s) (fd : Int) : Entitling fd (session fd s.log) := by
  obtain ⟨v, hv, hfd, hevents⟩ := (projected_of_run h).sessions fd
  rw [← hevents, ← hfd]
  exact hv.orderly.entitling

/-- A client is accepted and agrees with the proxy on no authentication; then it has something
to read again. -/
def negotiation : List Loop.Action :=
  [.poll Loop.firstReadable, .handle (.reading ⟨[], Chunk.nil_fits⟩), .accept 4 1000,
    .poll Loop.firstReadable, .handle (.reading ⟨[5, 1, 0], Chunk.greeting_fits⟩),
    .handle (.reading ⟨[], Chunk.nil_fits⟩), .accept (-1) 0,
    .poll Loop.firstWritable, .handle (.reading ⟨[], Chunk.nil_fits⟩),
    .handle (.reading ⟨[], Chunk.nil_fits⟩),
    .accept (-1) 0, .poll Loop.firstReadable]

def negotiated : Logged := negotiation.foldl next initial

theorem each_of_greeting {cond : Connection → Visit.Action → Prop} {s : Logged} {ans : Answers}
    (hcond : ∀ c rev ans, c.status = .incoming ∨ c.status = .authSuccess → cond c (.attend rev ans))
    (h : ∀ i fds, s.loop.phase = .scanning i fds → (s.loop.table.connections i).status = .incoming ∨
      (s.loop.table.connections i).status = .authSuccess) : Each cond s (.handle ans) := by
  simp only [Each]
  split
  · rename_i i fds hphase
    have hstatus := h i fds hphase
    exact fun _ => ⟨hcond _ _ _ hstatus, fun hr => by simp [hr.1.1] at hstatus⟩
  · trivial

/-- The negotiation meets every condition on requests. -/
theorem negotiated_run {cond : Connection → Visit.Action → Prop}
    (hcond : ∀ c rev ans, c.status = .incoming ∨ c.status = .authSuccess →
      cond c (.attend rev ans)) :
    (guarded cond).MTr initial negotiation negotiated := by
  have hfirst : ∀ {s : Logged}, s.loop.table.connectionsCount = 1 →
      (s.loop.table.connections 0).clientSocket = 4 →
      ∀ i : Nat, (i : Int) < s.loop.table.connectionsCount →
        (s.loop.table.connections i).clientSocket ≠ -1 := by
    intro s hcount hclient i hi
    obtain rfl : i = 0 := by omega
    rw [hclient]
    decide
  refine .stepL ⟨tr_poll (Loop.reported_firstReadable (by decide) rfl) rfl, trivial⟩
    (.stepL ⟨tr_handle rfl, each_of_greeting hcond ?_⟩ (.stepL ⟨tr_accept rfl ?_, trivial⟩
    (.stepL ⟨tr_poll (Loop.reported_firstReadable (by decide) rfl) rfl, trivial⟩
    (.stepL ⟨tr_handle rfl, each_of_greeting hcond ?_⟩
    (.stepL ⟨tr_handle rfl, each_of_greeting hcond ?_⟩
    (.stepL ⟨tr_accept rfl (hfirst rfl rfl), trivial⟩
    (.stepL ⟨tr_poll (Loop.reported_first (by decide) ?_) rfl, trivial⟩
    (.stepL ⟨tr_handle rfl, each_of_greeting hcond ?_⟩
    (.stepL ⟨tr_handle rfl, each_of_greeting hcond ?_⟩
    (.stepL ⟨tr_accept rfl (hfirst rfl rfl), trivial⟩
    (.stepL ⟨tr_poll (Loop.reported_first (by decide) ?_) rfl, trivial⟩ .refl)))))))))))
  case refine_2 => exact fun i hi => absurd hi (Int.not_lt.mpr (Int.natCast_nonneg i))
  case refine_5 | refine_8 => exact fun peer => by cases peer <;> decide
  all_goals
    rintro i fds ⟨⟩
    exact (by decide)

theorem negotiated_unguarded : lts.MTr initial negotiation negotiated :=
  LTS.MTr.of_guard
    (show (guarded fun _ _ => True).MTr _ _ _ from negotiated_run fun _ _ _ _ => trivial)

/-- A request with this command for a connection to 127.0.0.1, port 80, and what comes of the
attempt to connect. -/
def connecting (command : UInt8) (connect : Bool) : Answers :=
  { Answers.reading ⟨[5, command, 0, 1, 127, 0, 0, 1, 0, 80], by simp [bufferSize]⟩ with
    socket := 7, connect := connect }

theorem connecting_run (connect : Bool) : (guarded OpensDuly).MTr initial
    (negotiation ++ [.handle (connecting 1 connect)])
    (negotiated.next (.handle (connecting 1 connect))) := by
  refine (negotiated_run fun c rev ans hs h => ?_).append
    (.single ⟨tr_handle rfl, fun _ => ⟨fun _ _ _ _ _ h3 => ?_, fun hr => ?_⟩⟩)
  · simp [h] at hs
  · cases connect <;> exact absurd h3 (by decide +kernel)
  · cases connect <;> exact absurd hr.2.2 (by decide +kernel)

theorem entitling_sessions_connecting : ∃ s, (guarded OpensDuly).MTr initial
    (negotiation ++ [.handle (connecting 1 true)]) s ∧ (∃ e ∈ session 4 s.log, e.acts = true) ∧
      Entitling 4 (session 4 s.log) :=
  ⟨_, connecting_run true, ⟨.connect 7 [127, 0, 0, 1] [0, 80] true, by decide +kernel, rfl⟩,
    entitling_sessions (connecting_run true) 4⟩

/-- A client that sends the command 2 is sent an error and closed, and then connected after all. -/
theorem not_entitling_commandTwo : ∃ s, lts.MTr initial
    (negotiation ++ [.handle (connecting 2 true)]) s ∧ ¬ Entitling 4 (session 4 s.log) := by
  refine ⟨_, negotiated_unguarded.append (.single (tr_handle rfl)), fun h => ?_⟩
  have hentitled := h [.read .client 4 (some [5, 1, 0]), .reply 4 successAuth,
    .read .client 4 (some [5, 2, 0, 1, 127, 0, 0, 1, 0, 80]), .reply 4 (errorReply 7), .close 4]
    (.connect 7 [127, 0, 0, 1] [0, 80] true) [.reply 4 [5, 0, 0, 1, 0, 0, 0, 0, 0, 0]]
    (by decide +kernel) rfl
  exact hentitled.here (.close 4) (by simp) rfl

end Logged

end NetworkLabs.Proxy
