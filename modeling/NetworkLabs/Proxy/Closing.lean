import NetworkLabs.Proxy.Relay

/-! When the relay of a connection ends, and what was delivered by then. -/
namespace NetworkLabs.Proxy

open Transition

/-- A read from `peer` found the end of its stream. -/
def EndSeen (peer : Peer) (es : List Event) : Prop := ∃ fd, Event.read peer fd (some []) ∈ es

namespace Connection

variable {c : Connection} {peer : Peer} {rev : Peer → Revents} {ans : Answers} {es es' : List Event}

/-- What was read from `peer` and not written yet. -/
def pending (c : Connection) (peer : Peer) : List UInt8 :=
  (c.buf peer).bytes 0 (c.currBuf peer).toNat

/-- No read or write of the round fails, and every write accepts all its bytes. -/
structure Healthy (c : Connection) (rev : Peer → Revents) (ans : Answers) : Prop where
  reads : ∀ peer, c.currBuf peer = 0 → (rev peer).pollin = true → (ans.read peer).isSome
  writes : ∀ peer, 0 < c.offered peer rev ans → (rev peer.other).pollout = true →
    ans.write peer.other (c.offered peer rev ans).toNat = some (c.offered peer rev ans).toNat

/-- The account of what comes from `peer`: all of it is delivered or pending, and the counter is
negative once its end was seen. -/
structure Settled (c : Connection) (peer : Peer) (es : List Event) : Prop where
  delivered : received peer es = sent peer.other es ++ c.pending peer
  ended : c.currBuf peer < 0 ↔ EndSeen peer es

theorem pending_eq_nil_iff (c : Connection) (peer : Peer) : c.pending peer = [] ↔
    c.currBuf peer ≤ 0 := by
  simp [pending, Buffer.bytes]

theorem endSeen_append : EndSeen peer (es ++ es') ↔ EndSeen peer es ∨ EndSeen peer es' := by
  simp [EndSeen, exists_or]

theorem endSeen_readEvent (q : Peer) :
    EndSeen q [c.readEvent peer ans] ↔ q = peer ∧ (ans.read peer).map Subtype.val = some [] := by
  simp [EndSeen, readEvent, eq_comm]

theorem not_endSeen_write (q : Peer) (fd : Int) (bytes : List UInt8) (res : Option Nat) :
    ¬ EndSeen q [.write peer fd bytes res] := by
  simp [EndSeen]

/-- What happens to the other end's buffer is none of this account's business. -/
theorem Settled.frame {c' : Connection} {q : Peer} (h : c.Settled q es)
    (hbuf : c'.buf q = c.buf q ∧ c'.currBuf q = c.currBuf q) (hrecv : received q es' = [])
    (hsent : sent q.other es' = []) (hend : ¬ EndSeen q es') : c'.Settled q (es ++ es') := by
  constructor
  · rw [received_append, sent_append, hrecv, hsent, List.append_nil, List.append_nil, pending,
      hbuf.1,
      hbuf.2]
    exact h.delivered
  · rw [hbuf.2, endSeen_append, h.ended]
    simp [hend]

theorem settled_readFrom (h : c.Settled peer es)
    (hr : c.currBuf peer = 0 → (rev peer).pollin = true → (ans.read peer).isSome) :
    (c.readFrom peer rev ans).1.Settled peer (es ++ (c.readFrom peer rev ans).2) := by
  unfold readFrom
  split
  · rename_i hcond
    simp only [Bool.and_eq_true, decide_eq_true_eq] at hcond
    obtain ⟨bs, hgot⟩ := Option.isSome_iff_exists.mp (hr hcond.1 hcond.2)
    have hrecv : received peer [c.readEvent peer ans] = bs.val := by
      simp [received, readEvent, hgot]
    have hempty : c.pending peer = [] := (pending_eq_nil_iff c peer).mpr (Int.le_of_eq hcond.1)
    have hopen : ¬ EndSeen peer es := by
      rw [← h.ended]
      omega
    constructor
    · have hdelivered := h.delivered
      rw [hempty, List.append_nil] at hdelivered
      by_cases hz : bs.val = []
      · simp [hrecv, hdelivered, pending, readCount, hgot, hz, Buffer.bytes]
      · simp [hrecv, hdelivered, pending, readCount, hgot, hz, bytes_readByte]
    · rw [endSeen_append, endSeen_readEvent]
      simp only [currBuf_setBuf, readCount, hgot, hopen, Option.map_some, Option.some.injEq,
        true_and,
        false_or]
      by_cases hz : bs.val = []
      · simp [hz]
      · simp [hz]
  · simpa using h

theorem writeFrom_of_idle (h : ¬ (0 < c.currBuf peer ∧ (rev peer.other).pollout = true)) :
    c.writeFrom peer rev ans = (c, []) := by
  unfold writeFrom
  rw [if_neg (by simpa using h)]

theorem writeFrom_of_whole (h : 0 < c.currBuf peer ∧ (rev peer.other).pollout = true)
    (hres : ans.write peer.other (c.currBuf peer).toNat = some (c.currBuf peer).toNat) :
    c.writeFrom peer rev ans = (c.setBuf peer (c.buf peer) 0,
      [.write peer.other (c.socket peer.other) (c.pending peer)
      (some (c.currBuf peer).toNat)]) := by
  have hlen : ((c.buf peer).bytes 0 (c.currBuf peer).toNat).length = (c.currBuf peer).toNat := by
    simp [Buffer.bytes]
  unfold writeFrom
  rw [if_pos (by simpa using h)]
  simp only [hlen, hres, reduceCtorEq, if_false, pending]

theorem settled_writeFrom (h : c.Settled peer es)
    (hw : 0 < c.currBuf peer → (rev peer.other).pollout = true →
      ans.write peer.other (c.currBuf peer).toNat = some (c.currBuf peer).toNat) :
    (c.writeFrom peer rev ans).1.Settled peer (es ++ (c.writeFrom peer rev ans).2) := by
  by_cases hcond : 0 < c.currBuf peer ∧ (rev peer.other).pollout = true
  swap
  · rw [writeFrom_of_idle hcond]
    simpa using h
  rw [writeFrom_of_whole hcond (hw hcond.1 hcond.2)]
  have hopen : ¬ EndSeen peer es := by
    rw [← h.ended]
    omega
  constructor
  · have hall : (c.pending peer).take (c.currBuf peer).toNat = c.pending peer :=
      List.take_of_length_le (by simp [pending, Buffer.bytes])
    have hsent : sent peer.other [.write peer.other (c.socket peer.other) (c.pending peer)
        (some (c.currBuf peer).toNat)] = c.pending peer := by
      simp [sent, hall]
    have hafter : (c.setBuf peer (c.buf peer) 0).pending peer = [] := by
      simp [pending_eq_nil_iff]
    rw [received_append, received_write, sent_append, hsent, hafter, List.append_nil,
      List.append_nil]
    exact h.delivered
  · rw [endSeen_append]
    simp [hopen, not_endSeen_write]

/-- Both accounts are settled. -/
def AllSettled (c : Connection) (es : List Event) : Prop := ∀ peer, c.Settled peer es

theorem AllSettled.readFrom (h : c.AllSettled es) (peer : Peer)
    (hr : c.currBuf peer = 0 → (rev peer).pollin = true → (ans.read peer).isSome) :
    (c.readFrom peer rev ans).1.AllSettled (es ++ (c.readFrom peer rev ans).2) := by
  intro q
  have hq : q = peer ∨ q = peer.other := by cases q <;> cases peer <;> simp [Peer.other]
  rcases hq with rfl | rfl
  · exact settled_readFrom (h q) hr
  · unfold Connection.readFrom
    split
    · apply (h peer.other).frame (setBuf_other ..) received_readEvent_other (sent_readEvent _)
      simp [endSeen_readEvent]
    · simpa using h peer.other

theorem AllSettled.writeFrom (h : c.AllSettled es) (peer : Peer)
    (hw : 0 < c.currBuf peer → (rev peer.other).pollout = true →
      ans.write peer.other (c.currBuf peer).toNat = some (c.currBuf peer).toNat) :
    (c.writeFrom peer rev ans).1.AllSettled (es ++ (c.writeFrom peer rev ans).2) := by
  intro q
  have hq : q = peer ∨ q = peer.other := by cases q <;> cases peer <;> simp [Peer.other]
  rcases hq with rfl | rfl
  · exact settled_writeFrom (h q) hw
  · by_cases hcond : 0 < c.currBuf peer ∧ (rev peer.other).pollout = true
    swap
    · rw [writeFrom_of_idle hcond]
      simpa using h peer.other
    rw [writeFrom_of_whole hcond (hw hcond.1 hcond.2)]
    have hback : peer.other.other = peer := by cases peer <;> rfl
    refine (h peer.other).frame (setBuf_other ..) (received_write _ _ _ _) ?_
      (not_endSeen_write _ _ _ _)
    simp [sent, hback]

/-- A round in which nothing fails leaves both accounts settled. -/
theorem AllSettled.forwarding (h : c.AllSettled es) (hh : c.Healthy rev ans) :
    (c.forwarding rev ans).1.record.AllSettled (es ++ (c.forwarding rev ans).2) := by
  refine forwarding_rule (p := AllSettled) ?_ ?_ h
  · intro c' es peer hcurr h
    exact h.readFrom peer (hcurr ▸ hh.reads peer)
  · intro c' es peer hoff h
    apply h.writeFrom peer
    intro hpos hout
    have heq := hoff hpos
    rw [heq] at hpos ⊢
    exact hh.writes peer hpos hout

theorem forwarding_fate (c : Connection) (rev : Peer → Revents) (ans : Answers) :
    (c.forwarding rev ans).1 = if (c.forwarding rev ans).1.record.ended then
      .drop (c.forwarding rev ans).1.record true else .stay (c.forwarding rev ans).1.record := by
  simp only [Connection.forwarding]
  split <;> simp_all [Fate.record]

/-- The proxy drops a connection exactly if one end was seen and nothing is left to deliver. -/
theorem AllSettled.ended_iff (h : c.AllSettled es) :
    c.ended = true ↔ (∃ peer, EndSeen peer es) ∧ ∀ peer, received peer es = sent peer.other es := by
  have hdone : ∀ peer, received peer es = sent peer.other es ↔ c.currBuf peer ≤ 0 := by
    intro peer
    rw [(h peer).delivered, List.append_right_eq_self, pending_eq_nil_iff]
  have hall : (∀ peer, c.currBuf peer ≤ 0) ↔ c.currBufClient ≤ 0 ∧ c.currBufServer ≤ 0 :=
    ⟨fun hq => ⟨hq .client, hq .server⟩, fun hq peer => by cases peer <;> [exact hq.1; exact hq.2]⟩
  have hend : (∃ peer, EndSeen peer es) ↔ c.currBufClient < 0 ∨ c.currBufServer < 0 := by
    constructor
    · rintro ⟨peer, hpeer⟩
      rw [← (h peer).ended] at hpeer
      cases peer
      · exact .inl hpeer
      · exact .inr hpeer
    · rintro (hneg | hneg)
      · exact ⟨.client, (h .client).ended.mp hneg⟩
      · exact ⟨.server, (h .server).ended.mp hneg⟩
  simp only [hdone, hend, hall, ended, Bool.or_eq_true, Bool.and_eq_true, decide_eq_true_eq]
  omega

end Connection

namespace Relay

variable {s t : Relay} {xs : List ((Peer → Revents) × Answers)}

/-- The runs in which nothing fails. -/
def healthyLts : LTS Relay ((Peer → Revents) × Answers) :=
  lts.guard fun s r => s.connection.Healthy r.1 r.2

/-- The accounts are settled, and the connection is dropped once the loop finds it ended. -/
structure Kept (s : Relay) : Prop where
  settled : s.connection.AllSettled s.trace
  dropped : s.dropped = s.connection.ended

theorem kept_trInv : healthyLts.TrInv Kept := by
  rintro s ⟨rev, ans⟩ t ⟨h, hh⟩ hs
  have ht := hs.settled.forwarding hh
  have hfate := s.connection.forwarding_fate rev ans
  simp only [lts, LTS.ofStep_tr, step] at h
  split at h
  · cases h
  split at h <;> rename_i hround <;> rw [hround] at ht hfate <;> cases h
  · refine ⟨ht, ?_⟩
    split at hfate <;> simp_all [Fate.record]
  · refine ⟨ht, ?_⟩
    split at hfate <;> simp_all [Fate.record]

theorem Started.kept (hs : s.Started) (hd : s.dropped = false) : s.Kept := by
  obtain ⟨hclient, hserver, htrace⟩ := hs
  constructor
  · intro peer
    cases peer <;> constructor <;> simp [htrace, received, sent, Connection.pending,
      Connection.currBuf,
      hclient, hserver, Buffer.bytes, EndSeen]
  · simp [hd, Connection.ended, hclient, hserver]

/-- When nothing fails, a connection is dropped exactly when the end of one of the streams was
seen and everything that was read from either side is delivered. -/
theorem dropped_iff (hs : s.Started) (hd : s.dropped = false) (h : healthyLts.MTr s xs t) :
    t.dropped = true ↔ (∃ peer, EndSeen peer t.trace) ∧
      ∀ peer, received peer t.trace = sent peer.other t.trace := by
  have ht := LTS.mTr_of_trInv kept_trInv h (hs.kept hd)
  rw [ht.dropped, ht.settled.ended_iff]

/-- The client sends two bytes and the end of its stream; the server never says anything. -/
def halfClose : List ((Peer → Revents) × Answers) :=
  [oneRound 2, (clientReady, clientSends [] (by decide) 0)]

def halfClosed : Relay := LTS.after step fresh halfClose

theorem healthy_halfClose : healthyLts.MTr fresh halfClose halfClosed := by
  refine .stepL ⟨rfl, ?_⟩ (.stepL ⟨rfl, ?_⟩ .refl)
  · constructor <;> intro peer <;> cases peer <;> decide
  · constructor <;> intro peer <;> cases peer <;> decide

theorem dropped_iff_halfClose :
    (halfClosed.dropped = true ∧ sent .server halfClosed.trace = [97, 98]) ∧
    (halfClosed.dropped = true ↔ (∃ peer, EndSeen peer halfClosed.trace) ∧
      ∀ peer, received peer halfClosed.trace = sent peer.other halfClosed.trace) :=
  ⟨by decide, dropped_iff ⟨rfl, rfl, rfl⟩ rfl healthy_halfClose⟩

/-- The connection is dropped although the server has not ended its stream. -/
theorem dropped_before_serverEnd : fresh.Started ∧ fresh.dropped = false ∧
    healthyLts.MTr fresh halfClose halfClosed ∧ halfClosed.dropped = true ∧
      ¬ EndSeen .server halfClosed.trace := by
  refine ⟨⟨rfl, rfl, rfl⟩, rfl, healthy_halfClose, by decide, ?_⟩
  have htrace : halfClosed.trace =
    [.read .client 4 (some [97, 98]), .write .server 5 [97, 98] (some 2),
      .read .client 4 (some [])] := by decide
  simp [EndSeen, htrace]

end Relay

end NetworkLabs.Proxy
