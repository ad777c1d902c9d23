import NetworkLabs.Proxy.Entitlement

/-! Which reads of the loop could wait: those on a descriptor that `poll` did not report. -/
namespace NetworkLabs.Proxy

open Transition

def Event.isRead : Event → Bool
  | .read _ _ _ => true
  | _ => false

namespace Connection

variable {c : Connection} {peer : Peer} {rev : Peer → Revents} {ans : Answers} {fd : Int}
  {got : Option (List UInt8)} {e : Event}

theorem read_of_readFrom {q : Peer} (h : Event.read peer fd got ∈ (c.readFrom q rev ans).2) :
    fd = c.socket peer ∧ (rev peer).pollin = true := by
  unfold readFrom at h
  split at h
  · rename_i hready
    cases List.mem_singleton.mp h
    exact ⟨rfl, (Bool.and_eq_true_iff.mp hready).2⟩
  · cases h

theorem read_not_mem_writeFrom {q : Peer} : Event.read peer fd got ∉ (c.writeFrom q rev ans).2 := by
  unfold writeFrom
  split <;> simp

/-- The relay reads what was reported readable. -/
theorem read_of_forwarding (h : Event.read peer fd got ∈ (c.forwarding rev ans).2) :
    fd = c.socket peer ∧ (rev peer).pollin = true := by
  have hends := sameEnds_readFrom c .client rev ans
  simp only [forwarding, List.mem_append] at h
  rcases h with ((h | h) | h) | h
  · exact read_of_readFrom h
  · obtain ⟨hfd, hready⟩ := read_of_readFrom h
    exact ⟨hfd.trans (hends.socket peer), hready⟩
  · exact absurd h read_not_mem_writeFrom
  · exact absurd h read_not_mem_writeFrom

theorem isRead_opened (h : e ∈ (c.opened ans).2) : e.isRead = false := by
  by_cases hsocket : ans.socket = -1
  · rw [opened_of_failed hsocket] at h
    simp only [List.mem_cons, List.not_mem_nil, or_false] at h
    rcases h with rfl | rfl <;> rfl
  · rw [opened_of_connected hsocket] at h
    rw [List.mem_singleton.mp h]
    rfl

theorem isRead_lookupEvents (h : e ∈ c.lookupEvents ans) : e.isRead = false := by
  unfold lookupEvents at h
  split at h
  · rw [List.mem_singleton.mp h]
    rfl
  · simp only [List.mem_cons, List.not_mem_nil, or_false] at h
    rcases h with rfl | rfl <;> rfl

theorem read_of_resolving (h : Event.read peer fd got ∈ (c.resolving rev ans).2) :
    fd = c.socket peer ∧ (rev peer).pollin = true := by
  unfold resolving at h
  split at h
  · split at h
    · simp only [List.mem_cons, reduceCtorEq, false_or] at h
      cases isRead_opened h
    split at h
    · simp at h
    split at h
    · simp at h
    · exact read_of_forwarding h
  · exact read_of_forwarding h

/-- The relay has room for what an end is said to have sent. -/
def RelayDue (c : Connection) (rev : Peer → Revents) : Prop :=
  ∃ peer, c.currBuf peer = 0 ∧ (rev peer).pollin = true

/-- A connection is read from, by its status, what the array holds and how its lookup goes. -/
def ReadDue (c : Connection) (rev : Peer → Revents) (ans : Answers) : Prop :=
  match c.status with
  | .incoming => (rev .client).pollhup = false ∧ (rev .client).pollin = true
  | .authFailure | .authSuccess => False
  | .sockRequest => (rev .client).pollin = true ∨ (rev .client).pollout = true ∨ c.RelayDue rev
  | .resolving => ((rev .client).pollout = true → ans.dnsCheck = eagain ∧ ans.dnsElapsed ≤ 30) ∧
      c.RelayDue rev
  | .forwarding => c.RelayDue rev

theorem any_isRead_readFrom (q : Peer) : (c.readFrom q rev ans).2.any Event.isRead = true ↔
    c.currBuf q = 0 ∧ (rev q).pollin = true := by
  unfold readFrom
  split
  · rename_i hready
    have hdue := Bool.and_eq_true_iff.mp hready
    exact iff_of_true rfl (hdue.imp_left of_decide_eq_true)
  · rename_i hready
    refine iff_of_false Bool.false_ne_true fun hdue => hready ?_
    exact Bool.and_eq_true_iff.mpr (hdue.imp_left decide_eq_true)

theorem any_isRead_writeFrom (q : Peer) : (c.writeFrom q rev ans).2.any Event.isRead = false := by
  unfold writeFrom
  split <;> rfl

theorem any_isRead_forwarding :
    (c.forwarding rev ans).2.any Event.isRead = true ↔ c.RelayDue rev := by
  have hserver : (c.readFrom .client rev ans).1.currBuf .server = c.currBuf .server :=
    (currBuf_readFrom c .client rev ans).1
  simp only [forwarding, List.any_append, Bool.or_eq_true, any_isRead_readFrom,
    any_isRead_writeFrom, Bool.false_eq_true, or_false, hserver]
  constructor
  · rintro (h | h) <;> exact ⟨_, h⟩
  · rintro ⟨_ | _, h⟩
    · exact .inl h
    · exact .inr h

theorem any_isRead_resolving : (c.resolving rev ans).2.any Event.isRead = true ↔
    ((rev .client).pollout = true → ans.dnsCheck = eagain ∧ ans.dnsElapsed ≤ 30) ∧
      c.RelayDue rev := by
  unfold resolving
  split
  · rename_i hout
    simp only [hout, forall_const]
    split
    · rename_i hfound
      have hnone : (c.opened ans).2.any Event.isRead = false :=
        List.any_eq_false.mpr fun e he => by simp [isRead_opened he]
      simp [Event.isRead, hnone, hfound, eagain]
    split
    · rename_i hfailed
      simp [Event.isRead, hfailed]
    split
    · rename_i hlate
      simp [Event.isRead, Int.not_le.mpr hlate]
    · rename_i hgoes hlate
      rw [any_isRead_forwarding]
      exact ⟨fun h => ⟨⟨not_not.mp hgoes, Int.not_lt.mp hlate⟩, h⟩, And.right⟩
  · rename_i hout
    rw [any_isRead_forwarding]
    exact ⟨fun h => ⟨fun h' => absurd h' hout, h⟩, And.right⟩

/-- Nothing is read after the request. -/
theorem isRead_parse {r : Fate × List Event} (h : c.parseRequest ans = .ok r) (he : e ∈ r.2) :
    e.isRead = false := by
  by_cases hw : c.Waiting
  · rw [parseRequest_of_waiting hw] at h
    cases h
    cases he
  by_cases h5 : c.currBufClient ≥ 5
  swap
  · exact absurd (.inl (Int.not_le.mp h5)) hw
  by_cases h1 : char (c.clientBuf 3) = 1
  · have h10 : c.currBufClient ≥ 10 := by
      by_contra hlt
      exact hw (.inr (.inl ⟨h1, Int.not_le.mp hlt⟩))
    rw [parseRequest_of_address h1 h10] at h
    cases h
    rcases List.mem_cons.mp he with rfl | he
    · rfl
    · exact isRead_opened he
  by_cases h3 : char (c.clientBuf 3) = 3
  · have harrived : c.nameArrived = true := by
      by_contra hno
      exact hw (.inr (.inr ⟨h3, by simpa using hno⟩))
    by_cases hlength : 0 ≤ char (c.clientBuf 4)
    · rw [parseRequest_of_name h5 h3 harrived hlength] at h
      cases h
      split at he
      · exact isRead_lookupEvents he
      · rcases List.mem_append.mp he with he | he
        · exact isRead_lookupEvents he
        · rw [List.mem_singleton.mp he]
          rfl
    · simp only [parseRequest, if_pos h5, if_neg h1, if_pos h3, harrived, if_true] at h
      rw [sendDNS_of_neg (c := { c with status := .resolving }) (by simpa using hlength)] at h
      cases h
  · simp only [parseRequest, if_pos h5, if_neg h1, if_neg h3] at h
    cases h
    rw [List.mem_singleton.mp he]
    rfl

end Connection

namespace Table

variable {s t : Table} {i : Nat} {rev : Peer → Revents} {ans : Answers} {es : List Event}
  {r : Fate × List Event}

/-- The reads in the body of the loop, also where it goes wrong after them. -/
def reads (s : Table) (i : Nat) (rev : Peer → Revents) (ans : Answers) : List Event :=
  let c := s.connections i
  match c.status with
  | .incoming =>
    if (rev .client).pollhup then []
    else if (rev .client).pollin then [c.readEvent .client ans] else []
  | .authFailure | .authSuccess => []
  | .sockRequest =>
    if (rev .client).pollin || (rev .client).pollout then [c.readEvent .client ans]
    else (c.resolving rev ans).2.filter Event.isRead
  | .resolving => (c.resolving rev ans).2.filter Event.isRead
  | .forwarding => (c.forwarding rev ans).2.filter Event.isRead

theorem commit_reads (h : s.commit i r = .ok (t, es)) :
    es.filter Event.isRead = r.2.filter Event.isRead := by
  rcases r with ⟨_ | ⟨c, server⟩, es'⟩
  · cases h
    rfl
  · by_cases hs : 0 < s.connectionsCount
    · rw [commit_drop server hs] at h
      cases h
      rw [List.filter_append]
      cases server <;> simp [Event.isRead]
    · rw [commit_drop_empty server (Int.not_lt.mp hs)] at h
      cases h

theorem filter_parse {c : Connection} (h : c.parseRequest ans = .ok r) :
    r.2.filter Event.isRead = [] := by
  rw [List.filter_eq_nil_iff]
  intro e he
  simp [Connection.isRead_parse h he]

theorem request_reads (hs : 0 < s.connectionsCount) (h : s.request i ans = .ok (t, es)) :
    es.filter Event.isRead = [(s.connections i).readEvent .client ans] := by
  cases requested_of_ok hs h with
  | eof _ h => exact commit_reads h
  | accepted _ _ hp h =>
    rw [commit_reads h, List.filter_cons_of_pos rfl, filter_parse hp]
  | rejected _ _ hp h he =>
    rw [he, List.filter_append, commit_reads h, filter_parse hp]
    rfl

theorem incoming_reads {c : Connection} {rev : Revents} (h : c.incoming rev ans = .ok r) :
    r.2.filter Event.isRead = if rev.pollhup then []
      else if rev.pollin then [c.readEvent .client ans] else [] := by
  unfold Connection.incoming at h
  split at h
  · rename_i hhup
    cases h
    rw [if_pos hhup]
    rfl
  rename_i hhup
  rw [if_neg hhup]
  split at h
  · rename_i hin
    rw [if_pos hin]
    split at h
    · cases h
      rfl
    · obtain ⟨c', -, rfl⟩ := map_eq_ok.mp h
      rfl
  · rename_i hin
    cases h
    rw [if_neg hin]
    rfl

theorem handled_reads (hreq : ¬ s.AtRequest i rev)
    (h : (s.connections i).handled rev ans = .ok r) :
    r.2.filter Event.isRead = s.reads i rev ans := by
  cases hstatus : (s.connections i).status with
  | incoming =>
    simp only [Connection.handled, hstatus] at h
    simp only [reads, hstatus]
    exact incoming_reads h
  | authFailure =>
    simp only [Connection.handled, hstatus, Connection.authFailure, Except.ok.injEq] at h
    simp only [reads, hstatus]
    rw [← h]
    split <;> rfl
  | authSuccess =>
    simp only [Connection.handled, hstatus, Connection.authSuccess, Except.ok.injEq] at h
    simp only [reads, hstatus]
    rw [← h]
    split <;> rfl
  | sockRequest =>
    have hrev : ((rev .client).pollin || (rev .client).pollout) ≠ true :=
      fun hr => hreq ⟨hstatus, hr⟩
    simp only [Connection.handled, hstatus, Except.ok.injEq] at h
    simp only [reads, hstatus, if_neg hrev, h]
  | resolving | forwarding =>
    simp only [Connection.handled, hstatus, Except.ok.injEq] at h
    simp only [reads, hstatus, h]

/-- The reads among the events of a round are the ones of the source. -/
theorem handle_reads (hi : (i : Int) < s.connectionsCount) (h : s.handle i rev ans = .ok (t, es)) :
    es.filter Event.isRead = s.reads i rev ans := by
  by_cases hreq : s.AtRequest i rev
  · rw [handle_of_atRequest hreq] at h
    rw [request_reads (by omega) h]
    simp only [reads, hreq.1, hreq.2, if_true]
  · obtain ⟨r, hr, hc⟩ := handled_of_handle hreq h
    rw [commit_reads hc, handled_reads hreq hr]

/-- Only a request may be read from a client that has sent nothing. -/
theorem mem_reads {peer : Peer} {fd : Int} {got : Option (List UInt8)}
    (h : .read peer fd got ∈ s.reads i rev ans) :
    fd = (s.connections i).socket peer ∧ ((rev peer).pollin = true ∨ (peer = .client ∧
      (s.connections i).status = .sockRequest ∧ (rev .client).pollout = true)) := by
  have fallen {c : Connection}
      (h : Event.read peer fd got ∈ (c.resolving rev ans).2.filter Event.isRead) :
      fd = c.socket peer ∧ (rev peer).pollin = true :=
    Connection.read_of_resolving (List.mem_of_mem_filter h)
  unfold reads at h
  cases hstatus : (s.connections i).status with
  | incoming =>
    simp only [hstatus] at h
    split at h
    · cases h
    split at h
    · rename_i hin
      cases List.mem_singleton.mp h
      exact ⟨rfl, .inl hin⟩
    · cases h
  | authFailure | authSuccess =>
    simp only [hstatus] at h
    cases h
  | sockRequest =>
    simp only [hstatus] at h
    split at h
    · rename_i hready
      cases List.mem_singleton.mp h
      rcases Bool.or_eq_true_iff.mp hready with hin | hout
      · exact ⟨rfl, .inl hin⟩
      · exact ⟨rfl, .inr ⟨rfl, rfl, hout⟩⟩
    · exact (fallen h).imp_right .inl
  | resolving =>
    simp only [hstatus] at h
    exact (fallen h).imp_right .inl
  | forwarding =>
    simp only [hstatus] at h
    exact (Connection.read_of_forwarding (List.mem_of_mem_filter h)).imp_right .inl

/-- A step reads from connection `i` exactly if its status has it so. -/
theorem any_isRead_reads :
    (s.reads i rev ans).any Event.isRead = true ↔ (s.connections i).ReadDue rev ans := by
  unfold reads Connection.ReadDue
  cases hstatus : (s.connections i).status <;> simp only [hstatus]
  case incoming =>
    cases (rev .client).pollhup <;> cases (rev .client).pollin <;>
      simp [Connection.readEvent, Event.isRead]
  case authFailure | authSuccess => simp
  case sockRequest =>
    cases hready : (rev .client).pollin || (rev .client).pollout with
    | true =>
      simp only [if_true, List.any_cons, Connection.readEvent, Event.isRead, Bool.true_or, true_iff]
      exact (Bool.or_eq_true_iff.mp hready).imp_right .inl
    | false =>
      obtain ⟨hin, hout⟩ := Bool.or_eq_false_iff.mp hready
      rw [if_neg Bool.false_ne_true, List.any_filter]
      simp only [Bool.and_self, Connection.any_isRead_resolving, hin, hout, Bool.false_eq_true,
        false_or, false_implies, true_and]
  case resolving =>
    simp only [List.any_filter, Bool.and_self, Connection.any_isRead_resolving]
  case forwarding =>
    simp only [List.any_filter, Bool.and_self, Connection.any_isRead_forwarding]

theorem reads_of_atRequest (h : s.AtRequest i rev) :
    s.reads i rev ans = [(s.connections i).readEvent .client ans] := by
  simp only [reads, h.1, h.2, if_true]

end Table

/-- The loop with what `poll` was last called for, the errors that it reported, and whether it
failed. -/
structure Watched where
  loop : Loop
  polled : Table
  pollerr : Nat → Bool
  failed : Bool

namespace Watched

/-- A step of the loop; `poll` also reports errors. -/
structure Tr (s : Watched) (a : Loop.Action × (Nat → Bool)) (t : Watched) : Prop where
  step : Loop.lts.Tr (.ok s.loop) a.1 (.ok t.loop)
  polled : t.polled = match a.1 with
    | .poll _ | .pollError _ => s.loop.table
    | _ => s.polled
  pollerr : t.pollerr = match a.1 with
    | .poll _ => a.2
    | _ => s.pollerr
  failed : t.failed = match a.1 with
    | .poll _ => false
    | .pollError _ => true
    | _ => s.failed

def lts : LTS Watched (Loop.Action × (Nat → Bool)) := ⟨Tr⟩

def initial : Watched := ⟨Loop.initial, Loop.initial.table, fun _ => false, false⟩

/-- The entry for an end of connection `i` held this descriptor, and `poll` reported in this round
what keeps a read from waiting. -/
def Ready (s : Watched) (fds : Nat → Revents) (i : Nat) (peer : Peer) (fd : Int) : Prop :=
  s.failed = false ∧ (i : Int) < s.polled.connectionsCount ∧
    (s.polled.connections i).socket peer = fd ∧
      ((fds (fdIndex i peer)).pollin = true ∨ (fds (fdIndex i peer)).pollhup = true ∨
        s.pollerr (fdIndex i peer) = true)

/-- No read of the step can wait. -/
def NeverWaits (s : Watched) : Loop.Action → Prop
  | .handle ans =>
    match s.loop.phase with
    | .scanning i fds => (i : Int) < s.loop.table.connectionsCount →
        ∀ peer fd got,
          .read peer fd got ∈ s.loop.table.reads i (fun peer => fds (fdIndex i peer)) ans →
            s.Ready fds i peer fd
    | _ => True
  | _ => True

/-- In a round whose `poll` did not fail, a client whose request is due has sent something if it
can be written to. In one whose `poll` failed, what the array holds makes nothing due to be read. -/
def Prompt (s : Watched) : Loop.Action → Prop
  | .handle ans =>
    match s.loop.phase with
    | .scanning i fds => (i : Int) < s.loop.table.connectionsCount →
        if s.failed then
          ¬ (s.loop.table.connections i).ReadDue (fun peer => fds (fdIndex i peer)) ans
        else (s.loop.table.connections i).status = .sockRequest →
          (fds (fdIndex i .client)).pollout = true →
            (fds (fdIndex i .client)).pollin = true ∨ (fds (fdIndex i .client)).pollhup = true ∨
              s.pollerr (fdIndex i .client) = true
    | _ => True
  | _ => True

/-- The slots that are still to be handled hold what `poll` was called for. -/
def Unmoved (s : Watched) : Prop :=
  ∀ i fds, s.loop.phase = .scanning i fds →
    s.loop.table.connectionsCount ≤ s.polled.connectionsCount ∧
      ∀ j, i ≤ j → s.loop.table.connections j = s.polled.connections j

variable {s t : Watched} {a : Loop.Action × (Nat → Bool)} {xs : List (Loop.Action × (Nat → Bool))}

theorem unmoved_initial : initial.Unmoved := by
  intro i fds h
  cases h

theorem unmoved_step (h : Tr s a t) (hs : s.Unmoved) : t.Unmoved := by
  obtain ⟨a, err⟩ := a
  obtain ⟨loop, polled, pollerr, failed⟩ := t
  obtain ⟨hstep, hpolled, -, -⟩ := h
  intro i fds hphase
  cases Loop.moved_of_tr hstep with
  | polled | unpolled =>
    obtain rfl : polled = s.loop.table := hpolled
    exact ⟨Int.le_refl _, fun _ _ => rfl⟩
  | @handled k fds' _ u es hscan hk hhandle =>
    obtain rfl : polled = s.polled := hpolled
    obtain ⟨hle, hslots⟩ := hs k fds' hscan
    obtain ⟨hframe, hcount⟩ := Table.handle_frame hk hhandle
    cases hphase
    refine ⟨Int.le_trans hcount hle, ?_⟩
    intro j hj
    rw [hframe j (by omega)]
    exact hslots j (by omega)
  | scanned => cases hphase
  | accepted => cases hphase
  | unaccepted => cases hphase

theorem unmoved_of_run (h : lts.MTr initial xs s) : s.Unmoved :=
  LTS.mTr_of_trInv (fun _ _ _ htr hs => unmoved_step htr hs) h unmoved_initial

/-- What a failed `poll` left in the array keeps no read from waiting. -/
theorem forall_ready_iff_of_failed {i : Nat} {fds : Nat → Revents} {ans : Answers}
    (hf : s.failed = true) : (∀ peer fd got,
      .read peer fd got ∈ s.loop.table.reads i (fun peer => fds (fdIndex i peer)) ans →
        s.Ready fds i peer fd) ↔
      ¬ (s.loop.table.connections i).ReadDue (fun peer => fds (fdIndex i peer)) ans := by
  rw [← Table.any_isRead_reads]
  constructor
  · intro hnever hany
    obtain ⟨e, he, hread⟩ := List.any_eq_true.mp hany
    cases e <;> try cases hread
    exact Bool.false_ne_true ((hnever _ _ _ he).1.symm.trans hf)
  · intro hnone peer fd got hmem
    exact absurd (List.any_eq_true.mpr ⟨_, hmem, rfl⟩) hnone

/-- In every state of every run, a step keeps from waiting exactly if no request is due from a
client that can be written to and has sent nothing, and nothing is read after `poll` failed. -/
theorem neverWaits_iff (h : lts.MTr initial xs s) (a : Loop.Action) :
    s.NeverWaits a ↔ s.Prompt a := by
  have hunmoved := unmoved_of_run h
  cases a with
  | poll fds | pollError fds => exact Iff.rfl
  | accept socket id => exact Iff.rfl
  | handle ans =>
    simp only [NeverWaits, Prompt]
    split
    · rename_i i fds hphase
      obtain ⟨hle, hslots⟩ := hunmoved i fds hphase
      have hslot := hslots i (Nat.le_refl i)
      split
      · rename_i hfailed
        exact imp_congr_right fun _ => forall_ready_iff_of_failed hfailed
      rename_i hfailed
      constructor
      · intro hnever hi hstatus hout
        have hreads : s.loop.table.reads i (fun peer => fds (fdIndex i peer)) ans =
            [(s.loop.table.connections i).readEvent .client ans] :=
          Table.reads_of_atRequest ⟨hstatus, by simp [hout]⟩
        obtain ⟨-, -, -, hready⟩ := hnever hi .client _ _ (hreads ▸ List.mem_singleton_self _)
        exact hready
      · intro hprompt hi peer fd got hmem
        obtain ⟨hfd, hready⟩ := Table.mem_reads hmem
        refine ⟨by simpa using hfailed, Int.lt_of_lt_of_le hi hle, by rw [← hslot, hfd], ?_⟩
        rcases hready with hin | ⟨rfl, hstatus, hout⟩
        · exact .inl hin
        · exact hprompt hi hstatus hout
    · exact Iff.rfl

/-- A run of the loop in which `poll` never fails is one that can be watched. -/
theorem watched_of_logged {l l' : Logged} {as : List Loop.Action} (h : Logged.lts.MTr l as l')
    (hfine : ∀ fds, .pollError fds ∉ as) (polled : Table) (pollerr : Nat → Bool) :
    ∃ ys polled' pollerr', lts.MTr ⟨l.loop, polled, pollerr, false⟩ ys
      ⟨l'.loop, polled', pollerr', false⟩ := by
  induction h generalizing polled pollerr with
  | refl => exact ⟨[], polled, pollerr, .refl⟩
  | @stepL l u l' a as hstep _ ih =>
    obtain ⟨ys, polled', pollerr', hrun⟩ :=
      ih (fun fds hm => hfine fds (List.mem_cons_of_mem a hm)) _ _
    refine ⟨(a, fun _ => false) :: ys, polled', pollerr', .stepL ⟨hstep.step, rfl, rfl, ?_⟩ hrun⟩
    cases a with
    | pollError fds => exact absurd List.mem_cons_self (hfine fds)
    | _ => rfl

/-- A client that has agreed with the proxy on no authentication sends its request. -/
theorem neverWaits_negotiated : ∃ ys s, lts.MTr initial ys s ∧
    s.loop.phase = .scanning 0 Loop.firstReadable ∧
      s.NeverWaits (.handle (Logged.connecting 1 true)) := by
  obtain ⟨ys, polled, pollerr, h⟩ :=
    watched_of_logged Logged.negotiated_unguarded (by simp [Logged.negotiation])
      Loop.initial.table fun _ => false
  exact ⟨ys, _, h, rfl, (neverWaits_iff h (.handle (Logged.connecting 1 true))).mpr
    fun _ _ hout => by cases hout⟩

/-- The client then sends the first byte of its request and no more. -/
def hesitation : List Loop.Action :=
  Logged.negotiation ++ [.handle (.reading ⟨[5], Chunk.version_fits⟩),
    .handle (.reading ⟨[], Chunk.nil_fits⟩), .accept (-1) 0]

def hesitated : Logged := hesitation.foldl Logged.next Logged.initial

theorem hesitation_run : Logged.lts.MTr Logged.initial hesitation hesitated := by
  refine Logged.negotiated_unguarded.append
    (.stepL (Logged.tr_handle rfl) (.stepL (Logged.tr_handle rfl)
      (.stepL (Logged.tr_accept rfl ?_) .refl)))
  intro i hi
  have hone : (i : Int) < 1 := hi
  obtain rfl : i = 0 := by omega
  decide

/-- The socket of the client is writable when the loop reads from it next. -/
theorem not_neverWaits_hesitation :
    ¬ ∀ ys s a, lts.MTr initial ys s → s.NeverWaits a := by
  intro hall
  obtain ⟨ys, polled, pollerr, h⟩ :=
    watched_of_logged hesitation_run (by simp [hesitation, Logged.negotiation])
      Loop.initial.table fun _ => false
  have hreported : Loop.Reported hesitated.loop.table Loop.firstWritable :=
    Loop.reported_first (by decide) fun peer => by cases peer <;> decide
  have hpoll : Tr ⟨hesitated.loop, polled, pollerr, false⟩
      (.poll Loop.firstWritable, fun _ => false)
      ⟨{ hesitated.loop with phase := .scanning 0 Loop.firstWritable }, hesitated.loop.table,
        fun _ => false, false⟩ := ⟨.poll hreported rfl, rfl, rfl, rfl⟩
  have hnever := hall _ _ (.handle (.reading ⟨[], Chunk.nil_fits⟩)) (h.append (.single hpoll))
  have hread : Event.read .client 4 (some []) ∈ hesitated.loop.table.reads 0
      (fun peer => Loop.firstWritable (fdIndex 0 peer)) (.reading ⟨[], Chunk.nil_fits⟩) := by
    decide +kernel
  rcases hnever (by decide) _ _ _ hread with ⟨-, -, -, hin | hhup | herr⟩
  · cases hin
  · cases hhup
  · cases herr

end Watched

end NetworkLabs.Proxy
