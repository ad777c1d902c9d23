import NetworkLabs.Proxy.Connection
import Mathlib.Order.Basic
import Mathlib.Tactic.Common

/-! What the pieces of the handshake do to a record, and when their copies leave a buffer. -/
namespace NetworkLabs.Proxy

/-- The socket that an event writes to or closes. -/
def Event.touches : Event → Option Int
  | .write _ fd _ _ | .reply fd _ | .close fd => some fd
  | _ => none

theorem char_bounds (b : UInt8) : -128 ≤ char b ∧ char b ≤ 127 := by
  have hlo := Int8.le_toInt b.toInt8
  have hhi := Int8.toInt_lt b.toInt8
  unfold char
  omega

theorem sizeT_of_nonneg {n : Int} (h : 0 ≤ n) (h' : n ≤ bufferSize) : (sizeT n : Int) = n := by
  unfold bufferSize at h'
  unfold sizeT
  omega

/-- A negative number is a huge size. -/
theorem sizeT_of_neg {n : Int} (h : n < 0) (h' : -128 ≤ n) : (bufferSize : Int) < sizeT n := by
  unfold sizeT bufferSize
  omega

theorem readCount_le (got : Option Chunk) : -1 ≤ readCount got ∧ readCount got ≤ bufferSize := by
  cases got with
  | none => simp [readCount, bufferSize]
  | some bs =>
    have := bs.property
    simp only [readCount]
    omega

namespace Connection

variable {c : Connection} {ans : Answers} {rev : Peer → Revents}

/-- The bytes read fit behind the ones collected before. -/
def ReadFits (c : Connection) (ans : Answers) : Prop :=
  0 ≤ readCount (ans.read .client) ∧ 0 ≤ c.currBufClient ∧
    c.currBufClient + readCount (ans.read .client) ≤ bufferSize

instance : Decidable (c.ReadFits ans) := inferInstanceAs (Decidable (_ ∧ _ ∧ _))

theorem append_of_fits (h : c.ReadFits ans) : c.append ans = .ok (c.appended ans) := by
  obtain ⟨hn, hc, hle⟩ := h
  have hsize := sizeT_of_nonneg hn (readCount_le _).2
  simp only [append, Buffer.memcpy, hsize, hc, hle, and_self, if_true]
  rfl

theorem append_of_not_fits (h : ¬ c.ReadFits ans) : c.append ans = .error .copy := by
  have hbounds := readCount_le (ans.read .client)
  have hnot : ¬ (0 ≤ c.currBufClient ∧
      c.currBufClient + (sizeT (readCount (ans.read .client)) : Int) ≤ bufferSize) := by
    rintro ⟨hc, hle⟩
    by_cases hn : 0 ≤ readCount (ans.read .client)
    · rw [sizeT_of_nonneg hn hbounds.2] at hle
      exact h ⟨hn, hc, hle⟩
    · have := sizeT_of_neg (Int.not_le.mp hn) (by omega)
      omega
  simp only [append, Buffer.memcpy, hnot, if_false]
  rfl

/-- The record whose lookup was started. -/
def queried (c : Connection) (ans : Answers) : Connection :=
  let length := sizeT (char (c.clientBuf 4))
  { c with
    clientBuf :=
      (c.clientBuf.copied 0 length fun k => c.clientBuf (5 + k)).copied length 1 fun _ => 0
    serverBuf := c.serverBuf.copied 0 2 fun k => c.clientBuf ((5 + length) % 2 ^ 64 + k)
    R := ans.dnsStub }

/-- `sendDNS` succeeds. -/
def lookupStarted (ans : Answers) : Bool := ans.dnsStub.isSome && ans.dnsSubmit = 0

/-- The calls on the resolver that `sendDNS` makes. -/
def lookupEvents (c : Connection) (ans : Answers) : List Event :=
  match ans.dnsStub with
  | none => [.stub none]
  | some R => [.stub (some R), .submit R (c.queried ans).clientBuf.string]

theorem touches_lookupEvents : ∀ e ∈ c.lookupEvents ans, e.touches = none := by
  unfold lookupEvents
  split <;> simp [Event.touches]

theorem sendDNS_of_nonneg (ans : Answers) (h : 0 ≤ char (c.clientBuf 4)) :
    c.sendDNS ans = .ok (c.queried ans, !lookupStarted ans, c.lookupEvents ans) := by
  have hb := char_bounds (c.clientBuf 4)
  have hsize := sizeT_of_nonneg h (by unfold bufferSize; omega)
  have hport : 0 ≤ (0 : Int) ∧ (0 : Int) + (2 : Nat) ≤ bufferSize := by decide
  have hname : 0 ≤ (0 : Int) ∧ (0 : Int) + sizeT (char (c.clientBuf 4)) ≤ bufferSize := by
    rw [hsize]
    unfold bufferSize
    omega
  have hend : 0 ≤ (sizeT (char (c.clientBuf 4)) : Int) ∧
      (sizeT (char (c.clientBuf 4)) : Int) + (1 : Nat) ≤ bufferSize := by
    rw [hsize]
    unfold bufferSize
    omega
  simp only [sendDNS, Buffer.memcpy, if_pos hport, if_pos hname, if_pos hend]
  cases hstub : ans.dnsStub with
  | none => simp [bind, Except.bind, queried, lookupStarted, lookupEvents, hstub]
  | some R => simp [bind, Except.bind, queried, lookupStarted, lookupEvents, hstub]

theorem sendDNS_of_neg (h : char (c.clientBuf 4) < 0) : c.sendDNS ans = .error .copy := by
  have hsize := sizeT_of_neg h (char_bounds _).1
  have hport : 0 ≤ (0 : Int) ∧ (0 : Int) + (2 : Nat) ≤ bufferSize := by decide
  have hname : ¬ (0 ≤ (0 : Int) ∧ (0 : Int) + sizeT (char (c.clientBuf 4)) ≤ bufferSize) := by
    omega
  simp only [sendDNS, Buffer.memcpy, if_pos hport, if_neg hname]
  rfl

/-- The request is not there yet as far as it was parsed. -/
def Waiting (c : Connection) : Prop :=
  c.currBufClient < 5 ∨ (char (c.clientBuf 3) = 1 ∧ c.currBufClient < 10) ∨
    (char (c.clientBuf 3) = 3 ∧ c.nameArrived = false)

instance : Decidable c.Waiting := inferInstanceAs (Decidable (_ ∨ _ ∨ _))

/-- The request is there, and the server is connected to or looked up. -/
def Served (c : Connection) (ans : Answers) : Prop :=
  c.currBufClient ≥ 5 ∧
    ((char (c.clientBuf 3) = 1 ∧ c.currBufClient ≥ 10 ∧ ans.socket ≠ -1) ∨
      (char (c.clientBuf 3) = 3 ∧ c.nameArrived = true ∧ 0 ≤ char (c.clientBuf 4) ∧
        lookupStarted ans = true))

instance : Decidable (c.Served ans) := inferInstanceAs (Decidable (_ ∧ (_ ∨ _)))

/-- A name that is going to be looked up has a length that is no negative `char`. -/
def NameFits (c : Connection) : Prop :=
  c.currBufClient ≥ 5 → char (c.clientBuf 3) = 3 → c.nameArrived = true → 0 ≤ char (c.clientBuf 4)

instance : Decidable c.NameFits := inferInstanceAs (Decidable (_ → _ → _ → _))

/-- What a request that was served makes of its record. -/
structure Advanced (c : Connection) (ans : Answers) (c' : Connection) : Prop where
  clientSocket : c'.clientSocket = c.clientSocket
  count : c'.currBufClient = 0 ∨ c'.currBufClient = c.currBufClient
  changed : (c.currBufClient ≥ 10 ∧ c'.currBufClient = 0) ∨
    (c'.status = .resolving ∧ c'.R = ans.dnsStub ∧ ans.dnsStub ≠ none)

/-- Everything that `parseRequest` can come to. -/
inductive Parsed (c : Connection) (ans : Answers) : Handled → Prop
  | waiting (hw : c.Waiting) : Parsed c ans (.ok (.stay c, []))
  | served {c' : Connection} {es : List Event} (hs : c.Served ans) (ha : c.Advanced ans c')
      (he : ∀ e ∈ es, ∀ fd, e.touches = some fd → fd = c.clientSocket) :
      Parsed c ans (.ok (.stay c', es))
  | refused {c' : Connection} {es : List Event} (hw : ¬ c.Waiting) (hs : ¬ c.Served ans)
      (hn : c.NameFits) (hc : c'.clientSocket = c.clientSocket)
      (he : ∀ e ∈ es, ∀ fd, e.touches = some fd → fd = c.clientSocket) :
      Parsed c ans (.ok (.drop c' false, es))
  | fault (hn : ¬ c.NameFits) : Parsed c ans (.error .copy)

theorem parseRequest_of_waiting (h : c.Waiting) : c.parseRequest ans = .ok (.stay c, []) := by
  rcases h with h | ⟨h1, h⟩ | ⟨h3, h⟩
  · simp only [parseRequest, if_neg (Int.not_le.mpr h)]
  · simp only [parseRequest, if_pos h1, if_neg (Int.not_le.mpr h), ite_self]
  · have h1 : char (c.clientBuf 3) ≠ 1 := by omega
    simp only [parseRequest, if_neg h1, if_pos h3, h, Bool.false_eq_true, if_false, ite_self]

theorem parseRequest_of_address (h1 : char (c.clientBuf 3) = 1) (h10 : c.currBufClient ≥ 10) :
    c.parseRequest ans = .ok ((c.opened ans).1,
      .connect ans.socket (c.clientBuf.bytes 4 4) (c.clientBuf.bytes 8 2) ans.connect ::
        (c.opened ans).2) := by
  have h5 : c.currBufClient ≥ 5 := by omega
  simp only [parseRequest, if_pos h5, if_pos h1, if_pos h10]

/-- The record while its name is looked up. -/
def resolvingName (c : Connection) (ans : Answers) : Connection :=
  { c with status := .resolving }.queried ans

theorem parseRequest_of_name (h5 : c.currBufClient ≥ 5) (h3 : char (c.clientBuf 3) = 3)
    (harrived : c.nameArrived = true) (hlength : 0 ≤ char (c.clientBuf 4)) :
    c.parseRequest ans = .ok
      (if lookupStarted ans then (.stay (c.resolvingName ans), c.lookupEvents ans)
      else (.drop (c.resolvingName ans) false,
        c.lookupEvents ans ++ [.reply c.clientSocket (errorReply 4)])) := by
  have h1 : char (c.clientBuf 3) ≠ 1 := by omega
  have hsend := sendDNS_of_nonneg (c := { c with status := .resolving }) ans hlength
  simp only [parseRequest, if_pos h5, if_neg h1, if_pos h3, harrived, if_true, hsend, Except.map]
  cases lookupStarted ans <;> rfl

theorem parsed_address (h5 : c.currBufClient ≥ 5) (h1 : char (c.clientBuf 3) = 1) :
    c.Parsed ans (c.parseRequest ans) := by
  by_cases h10 : c.currBufClient ≥ 10
  · rw [parseRequest_of_address h1 h10]
    by_cases hsocket : ans.socket = -1
    · simp only [opened, hsocket, if_true]
      refine .refused ?_ ?_ ?_ rfl ?_
      · simp only [Waiting, h1]
        omega
      · simp [Served, h1, hsocket]
      · simp [NameFits, h1]
      · simp [Event.touches]
    · simp only [opened, if_neg hsocket]
      exact .served ⟨h5, .inl ⟨h1, h10, hsocket⟩⟩ ⟨rfl, .inl rfl, .inl ⟨h10, rfl⟩⟩
        (by simp [Event.touches])
  · have hw : c.Waiting := .inr (.inl ⟨h1, by omega⟩)
    rw [parseRequest_of_waiting hw]
    exact .waiting hw

theorem parsed_name (h5 : c.currBufClient ≥ 5) (h3 : char (c.clientBuf 3) = 3) :
    c.Parsed ans (c.parseRequest ans) := by
  have h1 : char (c.clientBuf 3) ≠ 1 := by omega
  cases harrived : c.nameArrived with
  | false =>
    have hw : c.Waiting := .inr (.inr ⟨h3, harrived⟩)
    rw [parseRequest_of_waiting hw]
    exact .waiting hw
  | true =>
    by_cases hlength : 0 ≤ char (c.clientBuf 4)
    · rw [parseRequest_of_name h5 h3 harrived hlength]
      cases hstarted : lookupStarted ans with
      | true =>
        refine .served ⟨h5, .inr ⟨h3, harrived, hlength, hstarted⟩⟩
          ⟨rfl, .inr rfl, .inr ⟨rfl, rfl, ?_⟩⟩ ?_
        · intro hnone
          simp [lookupStarted, hnone] at hstarted
        · intro e he fd hfd
          simp [touches_lookupEvents e he] at hfd
      | false =>
        refine .refused ?_ ?_ (fun _ _ _ => hlength) rfl ?_
        · rintro (hw | ⟨hw, -⟩ | ⟨-, hw⟩)
          · omega
          · exact h1 hw
          · simp [harrived] at hw
        · simp [Served, h3, hstarted]
        · intro e he fd hfd
          rcases List.mem_append.1 he with he | he
          · simp [touches_lookupEvents e he] at hfd
          · simp only [List.mem_singleton.1 he, Event.touches, Option.some.injEq] at hfd
            exact hfd.symm
    · simp only [parseRequest, if_pos h5, if_neg h1, if_pos h3, harrived, if_true]
      rw [sendDNS_of_neg (c := { c with status := .resolving }) (by simpa using hlength)]
      exact .fault fun hn => hlength (hn h5 h3 harrived)

/-- The cases are those of the address type. -/
theorem parsed_parseRequest (c : Connection) (ans : Answers) :
    c.Parsed ans (c.parseRequest ans) := by
  by_cases h5 : c.currBufClient ≥ 5
  · by_cases h1 : char (c.clientBuf 3) = 1
    · exact parsed_address h5 h1
    · by_cases h3 : char (c.clientBuf 3) = 3
      · exact parsed_name h5 h3
      · simp only [parseRequest, if_pos h5, if_neg h1, if_neg h3]
        refine .refused ?_ ?_ ?_ rfl (by simp [Event.touches])
        · rintro (hw | ⟨hw, -⟩ | ⟨hw, -⟩)
          · omega
          · exact h1 hw
          · exact h3 hw
        · simp [Served, h1, h3]
        · simp [NameFits, h3]
  · simp only [parseRequest, if_neg h5]
    exact .waiting (.inl (by omega))

theorem Waiting.not_served (h : c.Waiting) : ¬ c.Served ans := by
  rintro ⟨h5, ⟨k1, k10, -⟩ | ⟨k3, karrived, -⟩⟩ <;> rcases h with h | ⟨h1, h⟩ | ⟨h3, h⟩
  · omega
  · omega
  · omega
  · omega
  · omega
  · simp [karrived] at h

theorem NameFits.of_waiting (h : c.Waiting) : c.NameFits := by
  intro h5 h3 harrived
  rcases h with h | ⟨h, -⟩ | ⟨-, h⟩
  · omega
  · omega
  · simp [harrived] at h

theorem NameFits.of_served (h : c.Served ans) : c.NameFits := by
  intro h5 h3 harrived
  rcases h with ⟨-, ⟨h, -⟩ | ⟨-, -, h, -⟩⟩
  · omega
  · exact h

/-- A request goes wrong exactly for a name whose length is a negative `char`. -/
theorem parseRequest_ok_or (c : Connection) (ans : Answers) :
    (c.NameFits ∧ ∃ r, c.parseRequest ans = .ok r) ∨
      (¬ c.NameFits ∧ c.parseRequest ans = .error .copy) := by
  have hp := parsed_parseRequest c ans
  generalize c.parseRequest ans = r at hp
  cases hp with
  | waiting hw => exact .inl ⟨.of_waiting hw, _, rfl⟩
  | served hs => exact .inl ⟨.of_served hs, _, rfl⟩
  | refused _ _ hn => exact .inl ⟨hn, _, rfl⟩
  | fault hn => exact .inr ⟨hn, rfl⟩

/-- All handlers but the one of a request that is read. -/
def handled (c : Connection) (rev : Peer → Revents) (ans : Answers) : Handled :=
  match c.status with
  | .incoming => c.incoming (rev .client) ans
  | .authFailure => .ok (c.authFailure (rev .client))
  | .authSuccess => .ok (c.authSuccess (rev .client))
  | .sockRequest | .resolving => .ok (c.resolving rev ans)
  | .forwarding => .ok (c.forwarding rev ans)

/-- A part of the greeting is read. -/
def Greets (c : Connection) (rev : Peer → Revents) (ans : Answers) : Prop :=
  readCount (ans.read .client) ≠ 0 ∧ c.status = .incoming ∧ (rev .client).pollhup = false ∧
    (rev .client).pollin = true

theorem handled_of_greets (hg : c.Greets rev ans) (hf : c.ReadFits ans) :
    c.handled rev ans = .ok ((c.appended ans).greeting, [c.readEvent .client ans]) := by
  obtain ⟨h0, hs, hhup, hin⟩ := hg
  simp only [handled, hs, incoming, hhup, hin, if_neg h0, append_of_fits hf]
  rfl

theorem handled_of_not_greets (hg : ¬ c.Greets rev ans) (hs : c.status = .incoming) :
    ∃ r, c.handled rev ans = .ok r ∧ (r.1 = .stay c ∨ r.1 = .drop c false) ∧
      ∀ e ∈ r.2, e.touches = none := by
  simp only [handled, hs, incoming]
  split
  · exact ⟨_, rfl, .inr rfl, by simp⟩
  rename_i hhup
  split
  · rename_i hin
    split
    · exact ⟨_, rfl, .inr rfl, by simp [readEvent, Event.touches]⟩
    · rename_i h0
      exact absurd ⟨h0, hs, by simpa using hhup, hin⟩ hg
  · exact ⟨_, rfl, .inl rfl, by simp⟩

theorem handled_ok_or (c : Connection) (rev : Peer → Revents) (ans : Answers) :
    ((c.Greets rev ans → c.ReadFits ans) ∧ ∃ r, c.handled rev ans = .ok r) ∨
      (¬ (c.Greets rev ans → c.ReadFits ans) ∧ c.handled rev ans = .error .copy) := by
  by_cases hg : c.Greets rev ans
  · by_cases hf : c.ReadFits ans
    · exact .inl ⟨fun _ => hf, _, handled_of_greets hg hf⟩
    · refine .inr ⟨fun h => hf (h hg), ?_⟩
      obtain ⟨h0, hs, hhup, hin⟩ := hg
      simp only [handled, hs, incoming, hhup, hin, if_neg h0, append_of_not_fits hf]
      rfl
  · refine .inl ⟨fun h => absurd h hg, ?_⟩
    cases hs : c.status with
    | incoming =>
      obtain ⟨r, hr, -⟩ := handled_of_not_greets hg hs
      exact ⟨r, hr⟩
    | _ => simp only [handled, hs, Except.ok.injEq, exists_eq']

/-- Status and sockets are the same. -/
structure SameEnds (c c' : Connection) : Prop where
  status : c'.status = c.status
  socket : ∀ peer, c'.socket peer = c.socket peer

theorem SameEnds.trans {c c' c'' : Connection} (h : SameEnds c c') (h' : SameEnds c' c'') :
    SameEnds c c'' :=
  ⟨h'.status.trans h.status, fun peer => (h'.socket peer).trans (h.socket peer)⟩

theorem sameEnds_setBuf (c : Connection) (peer : Peer) (b : Buffer) (n : Int) :
    SameEnds c (c.setBuf peer b n) := by
  cases peer <;> exact ⟨rfl, fun q => by cases q <;> rfl⟩

theorem sameEnds_readFrom (c : Connection) (peer : Peer) (rev : Peer → Revents) (ans : Answers) :
    SameEnds c (c.readFrom peer rev ans).1 := by
  unfold readFrom
  split
  · exact sameEnds_setBuf ..
  · exact ⟨rfl, fun _ => rfl⟩

theorem sameEnds_writeFrom (c : Connection) (peer : Peer) (rev : Peer → Revents) (ans : Answers) :
    SameEnds c (c.writeFrom peer rev ans).1 := by
  unfold writeFrom
  split
  · exact sameEnds_setBuf ..
  · exact ⟨rfl, fun _ => rfl⟩

/-- The record that the four steps of forwarding come to. -/
theorem record_forwarding (c : Connection) (rev : Peer → Revents) (ans : Answers) :
    (c.forwarding rev ans).1.record =
      (((((c.readFrom .client rev ans).1.readFrom .server rev ans).1.writeFrom .server rev
        ans).1).writeFrom .client rev ans).1 := by
  simp only [forwarding]
  split <;> rfl

theorem sameEnds_forwarding (c : Connection) (rev : Peer → Revents) (ans : Answers) :
    SameEnds c (c.forwarding rev ans).1.record := by
  rw [record_forwarding]
  exact (((sameEnds_readFrom ..).trans (sameEnds_readFrom ..)).trans (sameEnds_writeFrom ..)).trans
    (sameEnds_writeFrom ..)

/-- The handling of `c` acts on the sockets of `c`, and leaves them to what becomes of it. -/
structure Owns (c : Connection) (r : Fate × List Event) : Prop where
  events : ∀ e ∈ r.2, ∀ fd, e.touches = some fd → ∃ peer, fd = c.socket peer
  client : r.1.record.clientSocket = c.clientSocket
  server : ∀ c', r.1 = .drop c' true → c'.serverSocket = c.serverSocket

theorem touches_readFrom (c : Connection) (peer : Peer) (rev : Peer → Revents) (ans : Answers) :
    ∀ e ∈ (c.readFrom peer rev ans).2, e.touches = none := by
  unfold readFrom
  split <;> simp [readEvent, Event.touches]

theorem touches_writeFrom (c : Connection) (peer : Peer) (rev : Peer → Revents) (ans : Answers) :
    ∀ e ∈ (c.writeFrom peer rev ans).2, ∀ fd, e.touches = some fd → fd = c.socket peer.other := by
  unfold writeFrom
  split <;> simp [Event.touches]

/-- The relay does nothing but read and write. -/
theorem forwarding_events {p : Event → Prop}
    (hread : ∀ (d : Connection) (peer : Peer), p (d.readEvent peer ans))
    (hwrite : ∀ peer fd bytes accepted, p (.write peer fd bytes accepted)) :
    ∀ e ∈ (c.forwarding rev ans).2, p e := by
  have hreadFrom : ∀ (d : Connection) (peer : Peer), ∀ e ∈ (d.readFrom peer rev ans).2, p e := by
    intro d peer e he
    unfold readFrom at he
    split at he
    · rw [List.mem_singleton.mp he]
      exact hread d peer
    · cases he
  have hwriteFrom : ∀ (d : Connection) (peer : Peer), ∀ e ∈ (d.writeFrom peer rev ans).2, p e := by
    intro d peer e he
    unfold writeFrom at he
    split at he
    · rw [List.mem_singleton.mp he]
      apply hwrite
    · cases he
  intro e he
  simp only [forwarding, List.mem_append] at he
  rcases he with ((he | he) | he) | he
  · exact hreadFrom _ _ e he
  · exact hreadFrom _ _ e he
  · exact hwriteFrom _ _ e he
  · exact hwriteFrom _ _ e he

theorem owns_forwarding (c : Connection) (rev : Peer → Revents) (ans : Answers) :
    c.Owns (c.forwarding rev ans) := by
  have hends := sameEnds_forwarding c rev ans
  have h₁ := sameEnds_readFrom c .client rev ans
  have h₂ := h₁.trans (sameEnds_readFrom _ .server rev ans)
  have h₃ := h₂.trans (sameEnds_writeFrom _ .server rev ans)
  refine ⟨?_, hends.socket .client, ?_⟩
  · intro e he fd hfd
    simp only [forwarding, List.mem_append] at he
    rcases he with ((he | he) | he) | he
    · simp [touches_readFrom _ _ _ _ e he] at hfd
    · simp [touches_readFrom _ _ _ _ e he] at hfd
    · exact ⟨_, (touches_writeFrom _ _ _ _ e he fd hfd).trans (h₂.socket _)⟩
    · exact ⟨_, (touches_writeFrom _ _ _ _ e he fd hfd).trans (h₃.socket _)⟩
  · intro c' hdrop
    have hserver := hends.socket .server
    rwa [hdrop] at hserver

theorem opened_of_failed (h : ans.socket = -1) :
    c.opened ans = (.drop { c with serverSocket := ans.socket } false,
      [.reply c.clientSocket ({ c with serverSocket := ans.socket }.formResponse ans),
        .reply c.clientSocket (errorReply 3)]) := by
  simp only [opened, if_pos h]

theorem opened_of_connected (h : ans.socket ≠ -1) :
    c.opened ans = (.stay { c with serverSocket := ans.socket, currBufServer := 0
                                   currBufClient := 0, status := .forwarding },
      [.reply c.clientSocket ({ c with serverSocket := ans.socket }.formResponse ans)]) := by
  simp only [opened, if_neg h]

theorem owns_opened (c : Connection) (ans : Answers) {e : Event} (he : e.touches = none)
    (es : List Event) (hes : ∀ e ∈ es, e.touches = none) :
    c.Owns ((c.opened ans).1, e :: (es ++ (c.opened ans).2)) := by
  have hevents : ∀ e' ∈ e :: (es ++ (c.opened ans).2), ∀ fd, e'.touches = some fd →
      e' ∈ (c.opened ans).2 := by
    intro e' he' fd hfd
    rcases List.mem_cons.1 he' with rfl | he'
    · simp [he] at hfd
    rcases List.mem_append.1 he' with he' | he'
    · simp [hes e' he'] at hfd
    · exact he'
  by_cases hsocket : ans.socket = -1
  · rw [opened_of_failed hsocket] at hevents ⊢
    refine ⟨fun e' he' fd hfd => ⟨.client, ?_⟩, rfl, by simp⟩
    have hmem := hevents e' he' fd hfd
    simp only [List.mem_cons, List.not_mem_nil, or_false] at hmem
    rcases hmem with rfl | rfl <;> exact (Option.some.inj hfd).symm
  · rw [opened_of_connected hsocket] at hevents ⊢
    refine ⟨fun e' he' fd hfd => ⟨.client, ?_⟩, rfl, by simp⟩
    have hmem := hevents e' he' fd hfd
    simp only [List.mem_singleton] at hmem
    subst hmem
    exact (Option.some.inj hfd).symm

theorem owns_resolving (c : Connection) (rev : Peer → Revents) (ans : Answers) :
    c.Owns (c.resolving rev ans) := by
  have hfail : c.Owns (.drop c false, [.reply c.clientSocket (errorReply 4), .dnsClose c.R]) := by
    refine ⟨?_, rfl, by simp⟩
    intro e he fd hfd
    simp only [List.mem_cons, List.not_mem_nil, or_false] at he
    rcases he with rfl | rfl
    · exact ⟨.client, by simpa [Event.touches, eq_comm, socket] using hfd⟩
    · simp [Event.touches] at hfd
  unfold resolving
  split
  · split
    · exact owns_opened c ans rfl [.dnsClose c.R] (by simp [Event.touches])
    split
    · exact hfail
    split
    · exact hfail
    · exact owns_forwarding c rev ans
  · exact owns_forwarding c rev ans

theorem owns_handled {r : Fate × List Event} (h : c.handled rev ans = .ok r) : c.Owns r := by
  have hreply : ∀ (fate : Fate) (bytes : List UInt8), fate.record.clientSocket = c.clientSocket →
      (∀ c', fate ≠ .drop c' true) → c.Owns (fate, [.reply c.clientSocket bytes]) := by
    intro fate bytes hclient hserver
    refine ⟨?_, hclient, fun c' hc' => absurd hc' (hserver c')⟩
    intro e he fd hfd
    simp only [List.mem_singleton] at he
    subst he
    exact ⟨.client, by simpa [Event.touches, eq_comm, socket] using hfd⟩
  have hidle : c.Owns (.stay c, []) := ⟨by simp, rfl, by simp⟩
  cases hs : c.status with
  | incoming =>
    by_cases hg : c.Greets rev ans
    · by_cases hf : c.ReadFits ans
      · rw [handled_of_greets hg hf] at h
        cases h
        have hsocket : (c.appended ans).greeting.record.clientSocket = c.clientSocket := by
          unfold greeting
          repeat' split
          all_goals rfl
        refine ⟨by simp [readEvent, Event.touches], hsocket, ?_⟩
        unfold greeting
        repeat' split
        all_goals simp
      · simp only [handled, hs, incoming, hg.2.2.1, hg.2.2.2, if_neg hg.1,
          append_of_not_fits hf] at h
        cases h
    · obtain ⟨r', hr', hfate, hes⟩ := handled_of_not_greets hg hs
      cases hr'.symm.trans h
      refine ⟨fun e he fd hfd => by simp [hes e he] at hfd, ?_, ?_⟩
      · rcases hfate with hfate | hfate <;> rw [hfate] <;> rfl
      · rcases hfate with hfate | hfate <;> simp [hfate]
  | authFailure =>
    simp only [handled, hs, authFailure, Except.ok.injEq] at h
    subst h
    split
    · exact hreply _ _ rfl (by simp)
    · exact hidle
  | authSuccess =>
    simp only [handled, hs, authSuccess, Except.ok.injEq] at h
    subst h
    split
    · exact hreply _ _ rfl (by simp)
    · exact hidle
  | sockRequest | resolving =>
    simp only [handled, hs, Except.ok.injEq] at h
    subst h
    exact owns_resolving c rev ans
  | forwarding =>
    simp only [handled, hs, Except.ok.injEq] at h
    subst h
    exact owns_forwarding c rev ans

end Connection

end NetworkLabs.Proxy
