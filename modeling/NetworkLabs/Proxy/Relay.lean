import NetworkLabs.Proxy.Connection
import NetworkLabs.Pipe
import NetworkLabs.Transition

/-! The relay of a connection in `CS_FORWARDING`: two pipes, as long as no write is short. -/
namespace NetworkLabs.Proxy

open Transition Pipe

/-- The bytes that `read` returned for one peer. -/
def received (peer : Peer) (es : List Event) : List UInt8 :=
  es.flatMap fun
    | .read p _ (some bytes) => if p = peer then bytes else []
    | _ => []

/-- The bytes that `write` accepted for one peer. -/
def sent (peer : Peer) (es : List Event) : List UInt8 :=
  es.flatMap fun
    | .write p _ bytes (some n) => if p = peer then bytes.take n else []
    | _ => []

/-- What was sent to either end is an initial part of what was received from the other. -/
def InOrder (es : List Event) : Prop := ∀ peer : Peer, sent peer.other es <+: received peer es

/-- A connection in `CS_FORWARDING` with what it did since then. -/
structure Relay where
  connection : Connection
  dropped : Bool
  trace : List Event

/-- One round of the loop for this connection. -/
def Relay.step (s : Relay) (round : (Peer → Revents) × Answers) : Option Relay :=
  if s.dropped then none
  else
    match s.connection.forwarding round.1 round.2 with
    | (.stay c, es) => some ⟨c, false, s.trace ++ es⟩
    | (.drop c _, es) => some ⟨c, true, s.trace ++ es⟩

def Relay.lts : LTS Relay ((Peer → Revents) × Answers) := .ofStep Relay.step

/-- Both buffers are empty when forwarding begins. -/
def Relay.Started (s : Relay) : Prop :=
  s.connection.currBufClient = 0 ∧ s.connection.currBufServer = 0 ∧ s.trace = []

namespace Connection

/-- How much the buffer of `peer` holds when the writes of the round come. -/
def offered (c : Connection) (peer : Peer) (rev : Peer → Revents) (ans : Answers) : Int :=
  if c.currBuf peer = 0 && (rev peer).pollin then readCount (ans.read peer) else c.currBuf peer

/-- Every write of the round accepts all it is offered, or fails. -/
def WritesWhole (c : Connection) (rev : Peer → Revents) (ans : Answers) : Prop :=
  ∀ peer, 0 < c.offered peer rev ans → (rev peer.other).pollout = true →
    ans.write peer.other (c.offered peer rev ans).toNat = none ∨
      ans.write peer.other (c.offered peer rev ans).toNat = some (c.offered peer rev ans).toNat

/-- What the buffer of `peer` holds. -/
def kept (c : Connection) (peer : Peer) : Option (List UInt8) :=
  if c.currBuf peer < 0 then none else some ((c.buf peer).bytes 0 (c.currBuf peer).toNat)

/-- The pipe from `peer` to the other end. -/
def pipe (c : Connection) (peer : Peer) (es : List Event) : Pipe.State UInt8 :=
  ⟨received peer es, sent peer.other es, c.kept peer⟩

section Pipes
variable {c : Connection} {peer : Peer} {rev : Peer → Revents} {ans : Answers} {es es' : List Event}

theorem setBuf_other (c : Connection) (peer : Peer) (b : Buffer) (n : Int) :
    (c.setBuf peer b n).buf peer.other = c.buf peer.other ∧
      (c.setBuf peer b n).currBuf peer.other = c.currBuf peer.other := by
  cases peer <;> exact ⟨rfl, rfl⟩

@[simp] theorem buf_setBuf (c : Connection) (peer : Peer) (b : Buffer) (n : Int) :
    (c.setBuf peer b n).buf peer = b := by
  cases peer <;> rfl

@[simp] theorem currBuf_setBuf (c : Connection) (peer : Peer) (b : Buffer) (n : Int) :
    (c.setBuf peer b n).currBuf peer = n := by
  cases peer <;> rfl

theorem kept_setBuf_other (c : Connection) (peer : Peer) (b : Buffer) (n : Int) :
    (c.setBuf peer b n).kept peer.other = c.kept peer.other := by
  simp only [kept, setBuf_other]

theorem bytes_readByte (bs : Chunk) (b : Buffer) :
    Buffer.bytes (fun k => if k < bs.val.length then readByte (some bs) k else b k) 0
      bs.val.length = bs.val := by
  apply List.ext_getElem (by simp [Buffer.bytes])
  intro k hk hk'
  simp [Buffer.bytes, readByte, hk']

@[simp] theorem received_append :
    received peer (es ++ es') = received peer es ++ received peer es' :=
  List.flatMap_append

@[simp] theorem sent_append : sent peer (es ++ es') = sent peer es ++ sent peer es' :=
  List.flatMap_append

@[simp] theorem other_ne : peer.other ≠ peer := by cases peer <;> simp [Peer.other]

@[simp] theorem ne_other : peer ≠ peer.other := by cases peer <;> simp [Peer.other]

@[simp] theorem sent_readEvent (q : Peer) : sent q [c.readEvent peer ans] = [] := by
  simp [sent, readEvent]

@[simp] theorem received_readEvent_other : received peer.other [c.readEvent peer ans] = [] := by
  cases h : ans.read peer <;> simp [received, readEvent, h]

@[simp] theorem received_write (q : Peer) (fd : Int) (bytes : List UInt8) (res : Option Nat) :
    received q [.write peer fd bytes res] = [] := by
  simp [received]

@[simp] theorem sent_write_other (fd : Int) (bytes : List UInt8) (res : Option Nat) :
    sent peer [.write peer.other fd bytes res] = [] := by
  cases res <;> simp [sent]

/-- Reading from a peer fills or closes its pipe and leaves the other one alone. -/
theorem readFrom_pipe (c : Connection) (peer : Peer) (rev : Peer → Revents) (ans : Answers)
    (es : List Event) :
    Pipe.Step (c.pipe peer es)
      ((c.readFrom peer rev ans).1.pipe peer (es ++ (c.readFrom peer rev ans).2)) ∧
      (c.readFrom peer rev ans).1.pipe peer.other (es ++ (c.readFrom peer rev ans).2) =
        c.pipe peer.other es := by
  unfold readFrom
  split
  · rename_i h
    simp only [Bool.and_eq_true, decide_eq_true_eq] at h
    constructor
    · cases hgot : ans.read peer with
      | none =>
        have hrecv : received peer [c.readEvent peer ans] = [] := by
          simp [received, readEvent, hgot]
        simpa [pipe, kept, hrecv, readCount] using Pipe.Step.close (c.pipe peer es)
      | some bs =>
        have hrecv : received peer [c.readEvent peer ans] = bs.val := by
          simp [received, readEvent, hgot]
        by_cases hz : bs.val = []
        · simpa [pipe, kept, hrecv, readCount, hz] using Pipe.Step.close (c.pipe peer es)
        · have hempty : (c.pipe peer es).kept = some [] := by
            simp [pipe, kept, h.1, Buffer.bytes]
          have hpos : ¬ (bs.val.length : Int) < 0 := by omega
          simpa [pipe, kept, hrecv, readCount, hz, hpos, bytes_readByte] using
            Pipe.Step.fill (c.pipe peer es) bs.val hempty
    · simp [pipe, kept_setBuf_other]
  · exact ⟨by simpa using Pipe.Step.stay _, by simp⟩

/-- A whole or failed write empties or closes its pipe and leaves the other one alone. -/
theorem writeFrom_pipe (c : Connection) (peer : Peer) (rev : Peer → Revents) (ans : Answers)
    (es : List Event)
    (hw : 0 < c.currBuf peer → (rev peer.other).pollout = true →
      ans.write peer.other (c.currBuf peer).toNat = none ∨
        ans.write peer.other (c.currBuf peer).toNat = some (c.currBuf peer).toNat) :
    Pipe.Step (c.pipe peer es)
      ((c.writeFrom peer rev ans).1.pipe peer (es ++ (c.writeFrom peer rev ans).2)) ∧
      (c.writeFrom peer rev ans).1.pipe peer.other (es ++ (c.writeFrom peer rev ans).2) =
        c.pipe peer.other es := by
  have hlen : ((c.buf peer).bytes 0 (c.currBuf peer).toNat).length = (c.currBuf peer).toNat := by
    simp [Buffer.bytes]
  unfold writeFrom
  split
  · rename_i h
    simp only [Bool.and_eq_true, decide_eq_true_eq] at h
    have hkept : (c.pipe peer es).kept = some ((c.buf peer).bytes 0 (c.currBuf peer).toNat) := by
      have : ¬ c.currBuf peer < 0 := by omega
      simp [pipe, kept, this]
    constructor
    · rcases hw h.1 h.2 with hres | hres
      · simpa [pipe, kept, hlen, hres, sent] using Pipe.Step.close (c.pipe peer es)
      · have htake : ((c.buf peer).bytes 0 (c.currBuf peer).toNat).take (c.currBuf peer).toNat =
            (c.buf peer).bytes 0 (c.currBuf peer).toNat := by
          rw [List.take_of_length_le hlen.le]
        have hzero : (c.buf peer).bytes 0 0 = [] := rfl
        simpa [pipe, kept, hlen, hres, sent, htake, hzero] using
          Pipe.Step.drain (c.pipe peer es) _ hkept
    · have hback : peer.other.other = peer := by cases peer <;> rfl
      simp [pipe, kept_setBuf_other, hback]
  · exact ⟨by simpa using Pipe.Step.stay _, by simp⟩

theorem currBuf_readFrom (c : Connection) (peer : Peer) (rev : Peer → Revents) (ans : Answers) :
    (c.readFrom peer rev ans).1.currBuf peer.other = c.currBuf peer.other ∧
      (0 < (c.readFrom peer rev ans).1.currBuf peer →
        (c.readFrom peer rev ans).1.currBuf peer = c.offered peer rev ans) := by
  unfold readFrom offered
  split
  · refine ⟨(setBuf_other ..).2, ?_⟩
    simp only [currBuf_setBuf]
    split
    · simp
    · exact fun _ => rfl
  · exact ⟨rfl, fun _ => rfl⟩

theorem currBuf_writeFrom_other (c : Connection) (peer : Peer) (rev : Peer → Revents)
    (ans : Answers) :
    (c.writeFrom peer rev ans).1.currBuf peer.other = c.currBuf peer.other := by
  unfold writeFrom
  split
  · exact (setBuf_other ..).2
  · rfl

/-- Both pipes are in order, and so they were at every moment before. -/
structure Relaying (c : Connection) (es : List Event) : Prop where
  inOrder : ∀ peer, Pipe.InOrder (c.pipe peer es)
  always : Always Proxy.InOrder es

/-- An action on the pipe of one peer that makes one event at most. -/
theorem Relaying.step {c' : Connection} (h : Relaying c es)
    (hp : Pipe.Step (c.pipe peer es) (c'.pipe peer (es ++ es')) ∧
      c'.pipe peer.other (es ++ es') = c.pipe peer.other es)
    (hlen : es' = [] ∨ ∃ e, es' = [e]) : Relaying c' (es ++ es') := by
  have hord : ∀ q, Pipe.InOrder (c'.pipe q (es ++ es')) := by
    intro q
    have hq : q = peer ∨ q = peer.other := by cases q <;> cases peer <;> simp [Peer.other]
    rcases hq with rfl | rfl
    · exact Pipe.inOrder_step hp.1 (h.inOrder q)
    · rw [hp.2]
      exact h.inOrder _
  refine ⟨hord, ?_⟩
  rcases hlen with rfl | ⟨e, rfl⟩
  · simpa using h.always
  · exact always_snoc.mpr ⟨h.always, fun q => (hord q).sent_initial⟩

theorem relaying_readFrom (peer : Peer) (rev : Peer → Revents) (ans : Answers) (h : Relaying c es) :
    Relaying (c.readFrom peer rev ans).1 (es ++ (c.readFrom peer rev ans).2) := by
  apply h.step (readFrom_pipe c peer rev ans es)
  unfold readFrom
  split
  · exact Or.inr ⟨_, rfl⟩
  · exact Or.inl rfl

theorem relaying_writeFrom (peer : Peer) (rev : Peer → Revents) (ans : Answers) (h : Relaying c es)
    (hw : 0 < c.currBuf peer → (rev peer.other).pollout = true →
      ans.write peer.other (c.currBuf peer).toNat = none ∨
        ans.write peer.other (c.currBuf peer).toNat = some (c.currBuf peer).toNat) :
    Relaying (c.writeFrom peer rev ans).1 (es ++ (c.writeFrom peer rev ans).2) := by
  apply h.step (writeFrom_pipe c peer rev ans es hw)
  unfold writeFrom
  split
  · exact Or.inr ⟨_, rfl⟩
  · exact Or.inl rfl

/-- What the reads and the writes of a round keep, the round keeps. A buffer is read into as the
round found it, and written with what it had to offer. -/
theorem forwarding_rule {p : Connection → List Event → Prop}
    (hread : ∀ c' es peer, c'.currBuf peer = c.currBuf peer → p c' es →
      p (c'.readFrom peer rev ans).1 (es ++ (c'.readFrom peer rev ans).2))
    (hwrite : ∀ c' es peer, (0 < c'.currBuf peer → c'.currBuf peer = c.offered peer rev ans) →
      p c' es → p (c'.writeFrom peer rev ans).1 (es ++ (c'.writeFrom peer rev ans).2))
    (h : p c es) : p (c.forwarding rev ans).1.record (es ++ (c.forwarding rev ans).2) := by
  set c₁ := (c.readFrom .client rev ans).1 with hc₁
  set c₂ := (c₁.readFrom .server rev ans).1 with hc₂
  set c₃ := (c₂.writeFrom .server rev ans).1 with hc₃
  have hclient : c₂.currBuf .client = c₁.currBuf .client := (currBuf_readFrom c₁ .server rev ans).1
  have hserver : c₁.currBuf .server = c.currBuf .server := (currBuf_readFrom c .client rev ans).1
  have hclient' : c₃.currBuf .client = c₂.currBuf .client :=
    currBuf_writeFrom_other c₂ .server rev ans
  have h₁ := hread c es .client rfl h
  have h₂ := hread c₁ _ .server hserver h₁
  have h₃ := hwrite c₂ _ .server ?_ h₂
  have h₄ := hwrite c₃ _ .client ?_ h₃
  · have hfate : (c.forwarding rev ans).1.record = (c₃.writeFrom .client rev ans).1 := by
      simp only [forwarding, Fate.record, ← hc₁, ← hc₂, ← hc₃]
      split <;> rename_i heq <;> split at heq <;> cases heq <;> rfl
    rw [hfate]
    simpa [forwarding, List.append_assoc] using h₄
  · intro hpos
    rw [hclient', hclient] at hpos ⊢
    exact (currBuf_readFrom c .client rev ans).2 hpos
  · intro hpos
    have hoff : c₁.offered .server rev ans = c.offered .server rev ans := by
      simp only [offered, hserver]
    exact hoff ▸ (currBuf_readFrom c₁ .server rev ans).2 hpos

/-- A round of reads and whole writes keeps both directions in order at every moment. -/
theorem relaying_forwarding (h : Relaying c es) (hw : c.WritesWhole rev ans) :
    Relaying (c.forwarding rev ans).1.record (es ++ (c.forwarding rev ans).2) := by
  refine forwarding_rule (p := Relaying) (fun _ _ peer _ h => relaying_readFrom peer rev ans h) ?_ h
  intro c' es peer hoff h
  apply relaying_writeFrom peer rev ans h
  intro hpos hout
  have heq := hoff hpos
  rw [heq] at hpos ⊢
  exact hw peer hpos hout

end Pipes

end Connection

namespace Relay

variable {s t : Relay} {xs : List ((Peer → Revents) × Answers)}

/-- The runs in which every write accepts all it is offered, or fails. -/
def wholeLts : LTS Relay ((Peer → Revents) × Answers) :=
  lts.guard fun s r => s.connection.WritesWhole r.1 r.2

theorem relaying_trInv : wholeLts.TrInv fun s => s.connection.Relaying s.trace := by
  rintro s ⟨rev, ans⟩ t ⟨h, hw⟩ hs
  have ht := Connection.relaying_forwarding hs hw
  simp only [lts, LTS.ofStep_tr, step] at h
  split at h
  · cases h
  · split at h <;> rename_i heq <;> cases h <;> rw [heq] at ht <;> exact ht

theorem Started.relaying (hs : s.Started) : s.connection.Relaying s.trace := by
  obtain ⟨hclient, hserver, htrace⟩ := hs
  have hzero : ∀ peer, s.connection.currBuf peer = 0 := by
    intro peer
    cases peer <;> assumption
  refine ⟨fun peer => ?_, ?_⟩
  · simp [Pipe.InOrder, Connection.pipe, Connection.kept, hzero, htrace, received, sent,
      Buffer.bytes]
  · intro es hes
    rw [htrace, List.prefix_nil] at hes
    subst hes
    exact fun peer => List.prefix_rfl

/-- As long as every write is whole or fails, what one end gets is at every moment an initial
part of what the other end sent. -/
theorem inOrder_of_writesWhole (hs : s.Started) (h : wholeLts.MTr s xs t) :
    Always InOrder t.trace :=
  (LTS.mTr_of_trInv relaying_trInv h hs.relaying).always

/-- The client sends `bytes`; a write accepts at most `room` bytes. -/
def clientSends (bytes : List UInt8) (h : bytes.length ≤ bufferSize) (room : Nat) : Answers where
  read _ := some ⟨bytes, h⟩
  write _ n := some (min n room)
  socket := -1
  connect := false
  peername := .zero
  dnsStub := none
  dnsSubmit := 0
  dnsCheck := 0
  dnsFetch := []
  dnsElapsed := 0

def clientReady : Peer → Revents
  | .client => ⟨true, false, false⟩
  | .server => ⟨false, true, false⟩

def fresh : Relay where
  connection := ⟨4, 5, .forwarding, 0, 0, 1000, fun _ => 0, fun _ => 0, none⟩
  dropped := false
  trace := []

def oneRound (room : Nat) : (Peer → Revents) × Answers :=
  (clientReady, clientSends [97, 98] (by decide) room)

theorem inOrder_of_writesWhole_fresh :
    sent .server (LTS.after step fresh [oneRound 2]).trace = [97, 98] ∧
      Always InOrder (LTS.after step fresh [oneRound 2]).trace := by
  refine ⟨by decide, ?_⟩
  have hwhole : fresh.connection.WritesWhole clientReady (oneRound 2).2 := by
    intro peer
    cases peer <;> decide
  have htr : wholeLts.Tr fresh (oneRound 2) (LTS.after step fresh [oneRound 2]) := ⟨rfl, hwhole⟩
  exact inOrder_of_writesWhole ⟨rfl, rfl, rfl⟩ (.stepL htr .refl)

/-- Writes that accept one of two bytes lose the other. -/
theorem not_inOrder_short_write :
    fresh.Started ∧
      lts.MTr fresh [oneRound 1, oneRound 1] (LTS.after step fresh [oneRound 1, oneRound 1]) ∧
      ¬ InOrder (LTS.after step fresh [oneRound 1, oneRound 1]).trace := by
  refine ⟨⟨rfl, rfl, rfl⟩, LTS.mTr_after (by decide), ?_⟩
  intro h
  have hclient := h .client
  revert hclient
  decide

end Relay

end NetworkLabs.Proxy
