import NetworkLabs.Proxy.Bounds
import NetworkLabs.Proxy.Isolation

/-! One client's stay at the proxy, taken out of the runs of the event loop. -/
namespace NetworkLabs.Proxy

open Transition

namespace Fate

/-- What `dropConnection` does outside. -/
def closing : Fate → List Event
  | .stay _ => []
  | .drop c server => .close c.clientSocket :: if server then [.close c.serverSocket] else []

def dropped : Fate → Bool
  | .stay _ => false
  | .drop _ _ => true

end Fate

namespace Connection

/-- What the loop does for a record by itself: all of its handling, but for what goes on after
it was rejected. -/
def attended (c : Connection) (rev : Peer → Revents) (ans : Answers) : Handled :=
  if c.status = .sockRequest ∧ ((rev .client).pollin || (rev .client).pollout) = true then
    if readCount (ans.read .client) = 0 then .ok (.drop c false, [c.readEvent .client ans])
    else (c.append ans).bind fun c' =>
      if c'.rejected then
        .ok (.drop c' false, [c.readEvent .client ans, .reply c.clientSocket (errorReply 7)])
      else (c'.parseRequest ans).map fun r => (r.1, c.readEvent .client ans :: r.2)
  else c.handled rev ans

/-- The record of a client that was just accepted. -/
def Fresh (c : Connection) : Prop :=
  c.status = .incoming ∧ c.currBufClient = 0 ∧ c.currBufServer = 0

end Connection

/-- A record with everything that the proxy did for its client. -/
structure Visit where
  connection : Connection
  dropped : Bool
  events : List Event

namespace Visit

/-- The record is handled, or its request is parsed after another one was rejected. -/
inductive Action
  | attend (rev : Peer → Revents) (ans : Answers)
  | stray (ans : Answers)

def after (v : Visit) (r : Fate × List Event) : Visit :=
  ⟨r.1.record, v.dropped || r.1.dropped, v.events ++ (r.2 ++ r.1.closing)⟩

inductive Tr : Visit → Action → Visit → Prop
  | attend {v : Visit} {r : Fate × List Event} {rev : Peer → Revents} {ans : Answers}
      (hlive : v.dropped = false) (hp : v.connection.Polled rev)
      (h : v.connection.attended rev ans = .ok r) : Tr v (.attend rev ans) (v.after r)
  | stray {v : Visit} {r : Fate × List Event} {ans : Answers}
      (h : v.connection.parseRequest ans = .ok r) : Tr v (.stray ans) (v.after r)

def lts : LTS Visit Action := ⟨Tr⟩

/-- The visits whose every step meets a condition. -/
def guarded (cond : Connection → Action → Prop) : LTS Visit Action :=
  lts.guard fun v a => cond v.connection a

def Reached (cond : Connection → Action → Prop) (v : Visit) : Prop :=
  ∃ c xs, c.Fresh ∧ (guarded cond).MTr ⟨c, false, []⟩ xs v

variable {cond : Connection → Action → Prop} {v w : Visit} {a : Action}

theorem Reached.step (h : Reached cond v) (htr : Tr v a w) (hcond : cond v.connection a) :
    Reached cond w := by
  obtain ⟨c, xs, hc, hxs⟩ := h
  exact ⟨c, xs ++ [a], hc, hxs.append (.single ⟨htr, hcond⟩)⟩

theorem Reached.inv {p : Visit → Prop} (h : Reached cond v) (hp : (guarded cond).TrInv p)
    (hfresh : ∀ c : Connection, c.Fresh → p ⟨c, false, []⟩) : p v := by
  obtain ⟨c, xs, hc, hxs⟩ := h
  exact LTS.mTr_of_trInv hp hxs (hfresh c hc)

end Visit

/-- What happened to whom: the client's socket with an event, or without one when it was
accepted. -/
abbrev Log := List (Int × Option Event)

/-- What the proxy did for the client behind `fd` since it was accepted. -/
def session (fd : Int) (log : Log) : List Event :=
  log.foldl (fun es entry =>
    if entry.1 = fd then entry.2.elim [] fun e => es ++ [e] else es) []

def entries (fd : Int) (es : List Event) : Log := es.map fun e => (fd, some e)

theorem session_entries (fd fd' : Int) (log : Log) (es : List Event) :
    session fd (log ++ entries fd' es) =
      if fd' = fd then session fd log ++ es else session fd log := by
  induction es using List.reverseRecOn with
  | nil => simp [entries]
  | append_singleton es e ih =>
    have hsplit : session fd (log ++ entries fd' (es ++ [e])) =
        if fd' = fd then session fd (log ++ entries fd' es) ++ [e]
        else session fd (log ++ entries fd' es) := by
      simp [session, entries, ← List.append_assoc]
    rw [hsplit, ih]
    split <;> simp

theorem session_accepted (fd fd' : Int) (log : Log) :
    session fd (log ++ [(fd', none)]) = if fd' = fd then [] else session fd log := by
  simp [session]

namespace Table

variable {s t : Table} {i : Nat} {rev : Peer → Revents} {ans : Answers} {es : List Event}

instance : Decidable (s.AtRequest i rev) := inferInstanceAs (Decidable (_ ∧ _))

/-- The request that is read is rejected. -/
def Rejects (s : Table) (i : Nat) (rev : Peer → Revents) (ans : Answers) : Prop :=
  s.AtRequest i rev ∧ readCount (ans.read .client) ≠ 0 ∧
    ((s.connections i).appended ans).rejected = true

instance : Decidable (s.Rejects i rev ans) := inferInstanceAs (Decidable (_ ∧ _ ∧ _))

/-- What the handling of slot `i` did for whom. Behind the read, the reply and the close of a
rejected request come the events of the record that is in its slot then. -/
def entries (s : Table) (i : Nat) (rev : Peer → Revents) (ans : Answers) (es : List Event) : Log :=
  if s.Rejects i rev ans then
    Proxy.entries (s.connections i).clientSocket (es.take 3) ++
      Proxy.entries (s.parsed i ans).clientSocket (es.drop 3)
  else Proxy.entries (s.connections i).clientSocket es

end Table

/-- The loop with its log. -/
structure Logged where
  loop : Loop
  log : Log

/-- What a step adds to the log. -/
def Loop.entries (s t : Loop) : Loop.Action → Log
  | .poll _ | .pollError _ => []
  | .handle ans =>
    match s.phase with
    | .scanning i fds =>
      s.table.entries i (fun peer => fds (fdIndex i peer)) ans (t.trace.drop s.trace.length)
    | _ => []
  | .accept socket _ =>
    if s.table.connectionsCount < t.table.connectionsCount then [(socket, none)] else []

namespace Logged

/-- A step of the loop; `accept` returns no socket of a live client. -/
structure Tr (s : Logged) (a : Loop.Action) (t : Logged) : Prop where
  step : Loop.lts.Tr (.ok s.loop) a (.ok t.loop)
  log : t.log = s.log ++ s.loop.entries t.loop a
  unused : ∀ fd, (fd, none) ∈ s.loop.entries t.loop a →
    ∀ i : Nat, (i : Int) < s.loop.table.connectionsCount →
    (s.loop.table.connections i).clientSocket ≠ fd

def lts : LTS Logged Loop.Action := ⟨Tr⟩

def initial : Logged := ⟨Loop.initial, []⟩

/-- The condition holds of the record that is handled, and of the one whose request is parsed
after it was rejected. What is left in the array when `poll` fails was asked for. -/
def Each (cond : Connection → Visit.Action → Prop) (s : Logged) : Loop.Action → Prop
  | .pollError fds => Loop.Reported s.loop.table fds
  | .handle ans =>
    match s.loop.phase with
    | .scanning i fds => (i : Int) < s.loop.table.connectionsCount →
        cond (s.loop.table.connections i) (.attend (fun peer => fds (fdIndex i peer)) ans) ∧
          (s.loop.table.Rejects i (fun peer => fds (fdIndex i peer)) ans →
            cond (s.loop.table.parsed i ans) (.stray ans))
    | _ => True
  | _ => True

/-- The runs whose every step meets a condition. -/
def guarded (cond : Connection → Visit.Action → Prop) : LTS Logged Loop.Action :=
  lts.guard (Each cond)

end Logged

theorem Connection.client_of_parse {c : Connection} {ans : Answers} {r : Fate × List Event}
    (h : c.parseRequest ans = .ok r) : r.1.record.clientSocket = c.clientSocket := by
  have hparsed := parsed_parseRequest c ans
  rw [h] at hparsed
  cases hparsed with
  | waiting => rfl
  | served _ ha => exact ha.clientSocket
  | refused _ _ _ hc => exact hc

theorem Connection.client_of_attended {c : Connection} {rev : Peer → Revents} {ans : Answers}
    {r : Fate × List Event} (h : c.attended rev ans = .ok r) :
    r.1.record.clientSocket = c.clientSocket := by
  unfold attended at h
  split at h
  swap
  · exact (owns_handled h).client
  split at h
  · cases h
    rfl
  by_cases hf : c.ReadFits ans
  swap
  · simp [append_of_not_fits hf, Except.bind] at h
  simp only [append_of_fits hf, Except.bind] at h
  split at h
  · cases h
    rfl
  · obtain ⟨r', hp, rfl⟩ := map_eq_ok.mp h
    have hclient := client_of_parse hp
    exact hclient

/-- Every session is that of a visit, and the live records are in the visits of their clients. -/
structure Projected (cond : Connection → Visit.Action → Prop) (s : Table) (log : Log) : Prop where
  sessions : ∀ fd, ∃ v, Visit.Reached cond v ∧ v.connection.clientSocket = fd ∧
    v.events = session fd log
  live : ∀ i : Nat, (i : Int) < s.connectionsCount → ∃ v, Visit.Reached cond v ∧
    v.connection = s.connections i ∧ v.dropped = false ∧
      v.events = session (s.connections i).clientSocket log
  distinct : ∀ i j : Nat, (i : Int) < s.connectionsCount → (j : Int) < s.connectionsCount →
    (s.connections i).clientSocket = (s.connections j).clientSocket → i = j

namespace Table

open Connection

variable {s t : Table} {i : Nat} {rev : Peer → Revents} {ans : Answers} {es : List Event}
  {cond : Connection → Visit.Action → Prop} {log : Log} {v : Visit} {r : Fate × List Event}
  {fd : Int}

theorem commit_events (h : s.commit i r = .ok (t, es)) : es = r.2 ++ r.1.closing := by
  rcases r with ⟨c | ⟨c, server⟩, es'⟩
  · cases h
    simp [Fate.closing]
  · by_cases hs : 0 < s.connectionsCount
    · rw [commit_drop server hs] at h
      cases h
      rfl
    · rw [commit_drop_empty server (Int.not_lt.mp hs)] at h
      cases h

theorem projected_vacated {c : Connection} {log' : Log} (h : Projected cond s log)
    (hsessions : ∀ fd, ∃ v, Visit.Reached cond v ∧ v.connection.clientSocket = fd ∧
      v.events = session fd log')
    (hother : ∀ j : Nat, (j : Int) < s.connectionsCount → j ≠ i →
      session (s.connections j).clientSocket log' = session (s.connections j).clientSocket log) :
    Projected cond (s.vacated i c) log' := by
  -- a live slot of the new table holds a live record of the old one
  have hsource : ∀ j : Nat, (j : Int) < (s.vacated i c).connectionsCount → ∃ k : Nat,
      (k : Int) < s.connectionsCount ∧ k ≠ i ∧ (s.vacated i c).connections j = s.connections k ∧
        (j ≠ i → k = j) ∧ (j = i → k = (s.connectionsCount - 1).toNat) := by
    intro j hj
    simp only [vacated] at hj
    by_cases hji : j = i
    · subst hji
      have hlast : j ≠ (s.connectionsCount - 1).toNat := by omega
      refine ⟨(s.connectionsCount - 1).toNat, by omega, hlast.symm, ?_,
        fun hne => absurd rfl hne, fun _ => rfl⟩
      rw [vacated_connections_self, successor, if_neg hlast]
    · exact ⟨j, by omega, hji, by simp [vacated, hji], fun _ => rfl, fun he => absurd he hji⟩
  refine ⟨hsessions, fun j hj => ?_, fun j j' hj hj' hsame => ?_⟩
  · obtain ⟨k, hk, hki, heq, -⟩ := hsource j hj
    obtain ⟨v, hv, hconn, hlive, hevents⟩ := h.live k hk
    rw [heq]
    exact ⟨v, hv, hconn, hlive, hevents.trans (hother k hk hki).symm⟩
  · obtain ⟨k, hk, hki, heq, hne, he⟩ := hsource j hj
    obtain ⟨k', hk', hki', heq', hne', he'⟩ := hsource j' hj'
    rw [heq, heq'] at hsame
    have hkk := h.distinct k k' hk hk' hsame
    simp only [vacated] at hj hj'
    by_cases hji : j = i <;> by_cases hji' : j' = i
    · omega
    · have := he hji
      have := hne' hji'
      omega
    · have := hne hji
      have := he' hji'
      omega
    · have := hne hji
      have := hne' hji'
      omega

/-- One fate of a visit, given to the slot of its record. -/
theorem projected_commit (h : Projected cond s log) (hv : Visit.Reached cond (v.after r))
    (hclient : r.1.record.clientSocket = fd) (hevents : v.events = session fd log)
    (hlive : (i : Int) < s.connectionsCount → v.dropped = false)
    (hother : ∀ j : Nat, (j : Int) < s.connectionsCount → j ≠ i →
      (s.connections j).clientSocket ≠ fd)
    (hc : s.commit i r = .ok (t, es)) : Projected cond t (log ++ Proxy.entries fd es) := by
  have hes := commit_events hc
  have hnew : (v.after r).events = session fd (log ++ Proxy.entries fd es) := by
    simp [Visit.after, session_entries, hevents, hes]
  have hsessions : ∀ fd', ∃ v, Visit.Reached cond v ∧ v.connection.clientSocket = fd' ∧
      v.events = session fd' (log ++ Proxy.entries fd es) := by
    intro fd'
    by_cases hfd : fd = fd'
    · subst hfd
      exact ⟨v.after r, hv, hclient, hnew⟩
    · rw [session_entries, if_neg hfd]
      exact h.sessions fd'
  have hkept : ∀ j : Nat, (j : Int) < s.connectionsCount → j ≠ i →
      session (s.connections j).clientSocket (log ++ Proxy.entries fd es) =
        session (s.connections j).clientSocket log := by
    intro j hj hji
    rw [session_entries, if_neg (hother j hj hji).symm]
  rcases r with ⟨c | ⟨c, server⟩, es'⟩
  · cases hc
    refine ⟨hsessions, fun j hj => ?_, fun j j' hj hj' hsame => ?_⟩
    · by_cases hji : j = i
      · subst hji
        refine ⟨_, hv, by simp [Visit.after, Fate.record], ?_, ?_⟩
        · simpa [Visit.after, Fate.dropped] using hlive hj
        · rw [hnew]
          congr 1
          rw [set_connections, Function.update_self]
          exact hclient.symm
      · simp only [set_connections, Function.update_of_ne hji]
        obtain ⟨w, hw, hconn, hdropped, hw'⟩ := h.live j hj
        exact ⟨w, hw, hconn, hdropped, hw'.trans (hkept j hj hji).symm⟩
    · by_cases hji : j = i <;> by_cases hji' : j' = i
      · omega
      · subst hji
        rw [set_connections, Function.update_self, Function.update_of_ne hji'] at hsame
        exact absurd (hsame.symm.trans hclient) (hother j' hj' hji')
      · subst hji'
        rw [set_connections, Function.update_self, Function.update_of_ne hji] at hsame
        exact absurd (hsame.trans hclient) (hother j hj hji)
      · rw [set_connections, Function.update_of_ne hji, Function.update_of_ne hji'] at hsame
        exact h.distinct j j' hj hj' hsame
  · by_cases hs : 0 < s.connectionsCount
    · rw [commit_drop server hs] at hc
      cases hc
      exact projected_vacated h hsessions hkept
    · rw [commit_drop_empty server (Int.not_lt.mp hs)] at hc
      cases hc

/-- Unless a request is rejected, the handling of a slot is that of its record. -/
theorem attended_of_handle (hr : ¬ s.Rejects i rev ans)
    (h : s.handle i rev ans = .ok (t, es)) :
    ∃ r, (s.connections i).attended rev ans = .ok r ∧ s.commit i r = .ok (t, es) := by
  by_cases hreq : s.AtRequest i rev
  swap
  · have hattended : (s.connections i).attended rev ans = (s.connections i).handled rev ans :=
      if_neg hreq
    rw [hattended]
    exact handled_of_handle hreq h
  have hcond : (s.connections i).status = .sockRequest ∧
      ((rev .client).pollin || (rev .client).pollout) = true := hreq
  rw [handle_of_atRequest hreq] at h
  by_cases h0 : readCount (ans.read .client) = 0
  · rw [request_eof h0] at h
    exact ⟨_, by simp only [attended, if_pos hcond, if_pos h0], h⟩
  by_cases hf : (s.connections i).ReadFits ans
  swap
  · rw [request_of_not_fits h0 hf] at h
    cases h
  have hr' : ((s.connections i).appended ans).rejected = false :=
    Bool.eq_false_iff.mpr fun hrejected => hr ⟨hreq, h0, hrejected⟩
  rw [request_of_accepted h0 hf hr'] at h
  simp only [attended, if_pos hcond, if_neg h0, append_of_fits hf, Except.bind, hr',
    Bool.false_eq_true,
    if_false]
  obtain ⟨r, hp, hc⟩ := bind_eq_ok.mp h
  exact ⟨_, by rw [hp]; rfl, hc⟩

/-- The two parts of the handling of a slot whose request is rejected. -/
theorem attended_of_rejects (hi : (i : Int) < s.connectionsCount) (hr : s.Rejects i rev ans)
    (h : s.handle i rev ans = .ok (t, es)) : ∃ r es' es'',
      (s.connections i).attended rev ans =
        .ok (.drop ((s.connections i).appended ans) false, [(s.connections i).readEvent .client ans,
          .reply (s.connections i).clientSocket (errorReply 7)]) ∧
      s.commit i (.drop ((s.connections i).appended ans) false,
      [(s.connections i).readEvent .client ans,
          .reply (s.connections i).clientSocket (errorReply 7)]) =
        .ok (s.vacated i ((s.connections i).appended ans), es') ∧
      (s.parsed i ans).parseRequest ans = .ok r ∧
      (s.vacated i ((s.connections i).appended ans)).commit i r = .ok (t, es'') ∧
      es'.length = 3 ∧ es = es' ++ es'' := by
  obtain ⟨hreq, h0, hrejected⟩ := hr
  have hcond : (s.connections i).status = .sockRequest ∧
      ((rev .client).pollin || (rev .client).pollout) = true := hreq
  rw [handle_of_atRequest hreq] at h
  by_cases hf : (s.connections i).ReadFits ans
  swap
  · rw [request_of_not_fits h0 hf] at h
    cases h
  have hparsed : s.parsed i ans = s.successor i ((s.connections i).appended ans) := if_pos hrejected
  rw [request_of_rejected (by omega) h0 hf hrejected, ← hparsed] at h
  obtain ⟨r, hp, h⟩ := bind_eq_ok.mp h
  obtain ⟨u, hc, hu⟩ := map_eq_ok.mp h
  obtain ⟨rfl, rfl⟩ := Prod.mk.inj hu
  refine ⟨r, _, u.2, ?_, commit_drop false (by omega), hp, hc, ?_, rfl⟩
  · simp only [attended, if_pos hcond, if_neg h0, append_of_fits hf, Except.bind, hrejected,
      if_true]
  · rfl

theorem projected_handle (h : Projected cond s log) (hi : (i : Int) < s.connectionsCount)
    (hp : (s.connections i).Polled rev) (hattend : cond (s.connections i) (.attend rev ans))
    (hstray : s.Rejects i rev ans → cond (s.parsed i ans) (.stray ans))
    (ht : s.handle i rev ans = .ok (t, es)) :
    Projected cond t (log ++ s.entries i rev ans es) := by
  obtain ⟨⟨c, dropped, events⟩, hv, rfl, hlive, hevents⟩ := h.live i hi
  have hother : ∀ j : Nat, (j : Int) < s.connectionsCount → j ≠ i →
      (s.connections j).clientSocket ≠ (s.connections i).clientSocket :=
    fun j hj hji hsame => hji (h.distinct j i hj hi hsame)
  by_cases hr : s.Rejects i rev ans
  swap
  · obtain ⟨r, hattended, hc⟩ := attended_of_handle hr ht
    rw [entries, if_neg hr]
    exact projected_commit h (hv.step (.attend hlive hp hattended) hattend)
      (client_of_attended hattended)
      hevents (fun _ => hlive) hother hc
  obtain ⟨r, es', es'', hattended, hc, hparse, hc', hlen, rfl⟩ := attended_of_rejects hi hr ht
  rw [entries, if_pos hr, ← hlen, List.take_left, List.drop_left, ← List.append_assoc]
  have hdropped := hv.step (.attend hlive hp hattended) hattend
  have hclient : (s.connections i).clientSocket = ((s.connections i).appended ans).clientSocket :=
    rfl
  have hfirst := projected_commit h hdropped hclient.symm hevents (fun _ => hlive) hother hc
  have hparsed : s.parsed i ans = s.successor i ((s.connections i).appended ans) := if_pos hr.2.2
  by_cases hlast : i = (s.connectionsCount - 1).toNat
  · -- the rejected record itself, which is not a live one any more
    have hself : s.parsed i ans = (s.connections i).appended ans := hparsed.trans (if_pos hlast)
    have hnew := hdropped.step (.stray (hself ▸ hparse)) (hself ▸ hstray hr)
    refine projected_commit hfirst hnew (client_of_parse hparse) ?_ ?_ ?_ hc'
    · rw [hself, session_entries, if_pos hclient, commit_events hc, ← hclient, ← hevents]
      rfl
    · intro hi'
      simp only [vacated] at hi'
      omega
    · intro j hj hji
      simp only [vacated] at hj
      have hne := hother j (by omega) hji
      rw [hclient] at hne
      simpa [hself, vacated, hji] using hne
  · -- the last record, which was moved into the slot
    have hmoved : (i : Int) < (s.vacated i ((s.connections i).appended ans)).connectionsCount := by
      simp only [vacated]
      omega
    have hslot : (s.vacated i ((s.connections i).appended ans)).connections i = s.parsed i ans :=
      vacated_connections_self.trans hparsed.symm
    obtain ⟨⟨c', dropped', events'⟩, hv', hconn', hlive', hevents'⟩ := hfirst.live i hmoved
    obtain rfl : c' = s.parsed i ans := hconn'.trans hslot
    rw [hslot] at hevents'
    refine projected_commit hfirst (hv'.step (.stray hparse) (hstray hr))
      (client_of_parse hparse) hevents'
      (fun _ => hlive') ?_ hc'
    intro j hj hji hsame
    exact hji (hfirst.distinct j i hj hmoved (hsame.trans (congrArg _ hslot.symm)))

/-- A client that is accepted begins a new visit. -/
theorem projected_accept {socket id : Int} (h : Projected cond s log)
    (ht : s.accept socket id = .ok t)
    (hunused : ∀ i : Nat, (i : Int) < s.connectionsCount →
      (s.connections i).clientSocket ≠ socket) :
    Projected cond t (log ++ [(socket, none)]) := by
  unfold accept at ht
  split at ht
  swap
  · cases ht
  cases ht
  have hfresh : ∀ c : Connection, c.Fresh → Visit.Reached cond ⟨c, false, []⟩ :=
    fun c hc => ⟨c, [], hc, .refl⟩
  have hnew : ∀ j : Nat, (j : Int) < s.connectionsCount + 1 → j ≠ s.connectionsCount.toNat →
      (j : Int) < s.connectionsCount := by
    intro j hj hji
    omega
  refine ⟨fun fd => ?_, fun j hj => ?_, fun j j' hj hj' hsame => ?_⟩
  · rw [session_accepted]
    split
    · exact ⟨_, hfresh ⟨fd, 0, .incoming, 0, 0, 0, fun _ => 0, fun _ => 0, none⟩ ⟨rfl, rfl, rfl⟩,
        rfl, rfl⟩
    · exact h.sessions fd
  · by_cases hji : j = s.connectionsCount.toNat
    · subst hji
      simp only [set_connections, Function.update_self, session_accepted, if_true]
      exact ⟨_, hfresh _ ⟨rfl, rfl, rfl⟩, rfl, rfl, rfl⟩
    · have hlive := hnew j hj hji
      simp only [set_connections, Function.update_of_ne hji, session_accepted,
        if_neg (hunused j hlive).symm]
      exact h.live j hlive
  · simp only [set_connections] at hsame
    by_cases hji : j = s.connectionsCount.toNat <;> by_cases hji' : j' = s.connectionsCount.toNat
    · omega
    · subst hji
      rw [Function.update_self, Function.update_of_ne hji'] at hsame
      exact absurd hsame.symm (hunused j' (hnew j' hj' hji'))
    · subst hji'
      rw [Function.update_self, Function.update_of_ne hji] at hsame
      exact absurd hsame (hunused j (hnew j hj hji))
    · rw [Function.update_of_ne hji, Function.update_of_ne hji'] at hsame
      exact h.distinct j j' (hnew j hj hji) (hnew j' hj' hji') hsame

end Table

namespace Loop

/-- Everything that a step of the loop can do when it goes right. -/
inductive Moved (s : Loop) : Action → Loop → Prop
  | polled {fds : Nat → Revents} (hr : Reported s.table fds) :
      Moved s (.poll fds) { s with phase := .scanning 0 fds }
  | unpolled {fds : Nat → Revents} :
      Moved s (.pollError fds) { s with phase := .scanning 0 fds }
  | handled {i : Nat} {fds : Nat → Revents} {ans : Answers} {t : Table} {es : List Event}
      (hphase : s.phase = .scanning i fds) (hi : (i : Int) < s.table.connectionsCount)
      (h : s.table.handle i (fun peer => fds (fdIndex i peer)) ans = .ok (t, es)) :
      Moved s (.handle ans) ⟨t, .scanning (i + 1) fds, s.trace ++ es⟩
  | scanned {i : Nat} {fds : Nat → Revents} {ans : Answers} (hphase : s.phase = .scanning i fds) :
      Moved s (.handle ans) { s with phase := .accepting fds }
  | accepted {socket id : Int} {t : Table} (h : s.table.accept socket id = .ok t) :
      Moved s (.accept socket id) { s with table := t, phase := .polling }
  | unaccepted {socket id : Int} : Moved s (.accept socket id) { s with phase := .polling }

theorem moved_of_tr {s t : Loop} {a : Action} (h : lts.Tr (.ok s) a (.ok t)) : s.Moved a t := by
  cases h with
  | poll hr h =>
    simp only [step] at h
    split at h <;> cases h
    exact .polled hr
  | pollError h =>
    simp only [step] at h
    split at h <;> cases h
    exact .unpolled
  | @handle _ _ ans h =>
    simp only [step] at h
    split at h
    case h_2 => cases h
    case h_1 i fds hphase =>
    split at h
    case isFalse =>
      cases h
      exact .scanned hphase
    case isTrue hi =>
    obtain ⟨u, hhandle, rfl⟩ := map_eq_ok.mp (Option.some.inj h)
    exact .handled hphase hi hhandle
  | @accept _ _ socket id h =>
    simp only [step] at h
    split at h
    case h_2 => cases h
    split at h
    case isFalse =>
      cases h
      exact .unaccepted
    case isTrue =>
    obtain ⟨p, haccept, rfl⟩ := map_eq_ok.mp (Option.some.inj h)
    exact .accepted haccept

end Loop

theorem Table.accept_count {s t : Table} {socket id : Int} (h : s.accept socket id = .ok t) :
    s.connectionsCount < t.connectionsCount := by
  unfold accept at h
  split at h
  · cases h
    simp only
    omega
  · cases h

namespace Logged

variable {cond : Connection → Visit.Action → Prop} {s t : Logged} {a : Loop.Action}
  {xs : List Loop.Action}

/-- A step that goes right has met the conditions on its reads. -/
theorem inBounds_step (h : Loop.lts.Tr (.ok s.loop) a (.ok t.loop)) (hs : s.loop.InBounds)
    (hleft : ∀ fds, a = .pollError fds → Loop.Reported s.loop.table fds) : t.loop.InBounds := by
  cases h with
  | poll hr h => exact (Loop.inBounds_poll hr hs (.inl h)).2 _ rfl
  | pollError h => exact (Loop.inBounds_poll (hleft _ rfl) hs (.inr h)).2 _ rfl
  | accept h => exact (Loop.inBounds_accept hs h).2 _ rfl
  | @handle _ _ ans h =>
    refine (Loop.inBounds_handle ?_ hs h).2 _ rfl
    simp only [Loop.Fitting]
    split
    · rename_i i fds hphase
      intro hi
      by_contra hfits
      simp only [Loop.step, hphase, if_pos hi, (Table.handle_copy_iff hi).mpr hfits, Except.map,
        Option.some.injEq, reduceCtorEq] at h
    · trivial

/-- What holds of the table and its log after every step. -/
structure Inv (cond : Connection → Visit.Action → Prop) (s : Logged) : Prop where
  bounds : s.loop.InBounds
  projected : Projected cond s.loop.table s.log

theorem inv_initial : Inv cond initial := by
  refine ⟨(Loop.noCopyFault_initial).2 _ rfl, ⟨fun fd => ?_, fun i hi => ?_, fun i j hi => ?_⟩⟩
  · exact ⟨⟨⟨fd, 0, .incoming, 0, 0, 0, fun _ => 0, fun _ => 0, none⟩, false, []⟩,
      ⟨_, [], ⟨rfl, rfl, rfl⟩, .refl⟩, rfl, rfl⟩
  · simp only [initial, Loop.initial] at hi
    omega
  · simp only [initial, Loop.initial] at hi
    omega

theorem inv_trInv : (guarded cond).TrInv (Inv cond) := by
  rintro ⟨s, log⟩ a ⟨t, log'⟩ ⟨⟨hstep, hlog, hunused⟩, hcond⟩ hs
  refine ⟨inBounds_step hstep hs.bounds (by rintro fds rfl; exact hcond), ?_⟩
  have hprojected := hs.projected
  simp only at hlog hstep hunused hprojected ⊢
  subst hlog
  cases Loop.moved_of_tr hstep with
  | polled | unpolled => simpa [Loop.entries] using hprojected
  | @handled i fds ans t es hphase hi h =>
    simp only [Each, hphase] at hcond
    simp only [Loop.entries, hphase, List.drop_left]
    exact Table.projected_handle hprojected hi (hs.bounds.polled i fds hphase i (Nat.le_refl i) hi)
      (hcond hi).1 (hcond hi).2 h
  | scanned hphase =>
    simp only [Loop.entries, hphase, List.drop_length, Table.entries]
    split <;> simpa [entries] using hprojected
  | @accepted socket id t h =>
    simp only [Loop.entries, if_pos (Table.accept_count h)] at hunused ⊢
    exact Table.projected_accept hprojected h (hunused socket (List.mem_singleton_self _))
  | unaccepted => simpa [Loop.entries] using hprojected

theorem events_entries (fd : Int) (es : List Event) : (entries fd es).filterMap Prod.snd = es := by
  simp [entries, List.filterMap_map]

theorem events_tableEntries {s : Table} {i : Nat} {rev : Peer → Revents} {ans : Answers}
    (es : List Event) :
    (s.entries i rev ans es).filterMap Prod.snd = es := by
  unfold Table.entries
  split
  · rw [List.filterMap_append, events_entries, events_entries, List.take_append_drop]
  · exact events_entries _ es

/-- The log has every event of the run, in its order. -/
theorem trace_of_run (h : lts.MTr initial xs s) : s.log.filterMap Prod.snd = s.loop.trace := by
  refine LTS.mTr_of_trInv (p := fun s => s.log.filterMap Prod.snd = s.loop.trace) ?_ h rfl
  rintro ⟨s, log⟩ a ⟨t, log'⟩ ⟨hstep, hlog, -⟩ hs
  simp only at hs hlog hstep ⊢
  rw [hlog, List.filterMap_append, hs]
  cases Loop.moved_of_tr hstep with
  | polled | unpolled => simp [Loop.entries]
  | handled hphase => simp only [Loop.entries, hphase, List.drop_left, events_tableEntries]
  | scanned hphase => simp [Loop.entries, hphase, events_tableEntries]
  | accepted h => simp [Loop.entries, Table.accept_count h]
  | unaccepted => simp [Loop.entries]

/-- In every run whose steps meet the condition, the sessions are those of visits that meet it. -/
theorem projected_of_run (h : (guarded cond).MTr initial xs s) :
    Projected cond s.loop.table s.log :=
  (LTS.mTr_of_trInv inv_trInv h inv_initial).projected

/-- The state after an action, where it goes right. -/
def next (s : Logged) (a : Loop.Action) : Logged :=
  match s.loop.step a with
  | some (.ok t) => ⟨t, s.log ++ s.loop.entries t a⟩
  | _ => s

section Next
variable {l : Loop}

theorem next_of_step (h : s.loop.step a = some (.ok l)) :
    s.next a = ⟨l, s.log ++ s.loop.entries l a⟩ := by
  simp only [next, h]

theorem tr_poll {fds : Nat → Revents} (hr : Loop.Reported s.loop.table fds)
    (h : s.loop.step (.poll fds) = some (.ok l)) : Tr s (.poll fds) (s.next (.poll fds)) := by
  rw [next_of_step h]
  exact ⟨.poll hr h, rfl, nofun⟩

theorem tr_handle {ans : Answers} (h : s.loop.step (.handle ans) = some (.ok l)) :
    Tr s (.handle ans) (s.next (.handle ans)) := by
  rw [next_of_step h]
  refine ⟨.handle h, rfl, fun fd hmem => ?_⟩
  have hnone : ∀ (fd' : Int) (es : List Event), (fd, none) ∉ entries fd' es := by
    intro fd' es
    simp [entries]
  simp only [Loop.entries, Table.entries] at hmem
  split at hmem
  · split at hmem
    · exact ((List.mem_append.mp hmem).elim (hnone _ _) (hnone _ _)).elim
    · exact (hnone _ _ hmem).elim
  · cases hmem

theorem tr_accept {socket id : Int} (h : s.loop.step (.accept socket id) = some (.ok l))
    (hunused : ∀ i : Nat, (i : Int) < s.loop.table.connectionsCount →
      (s.loop.table.connections i).clientSocket ≠ socket) :
    Tr s (.accept socket id) (s.next (.accept socket id)) := by
  rw [next_of_step h]
  refine ⟨.accept h, rfl, fun fd hmem => ?_⟩
  simp only [Loop.entries] at hmem
  split at hmem
  · cases List.mem_singleton.mp hmem
    exact hunused
  · cases hmem

end Next

end Logged

end NetworkLabs.Proxy
