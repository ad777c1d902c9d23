import NetworkLabs.Proxy.ConnectionFacts
import NetworkLabs.Proxy.Loop

/-! How the handling of one connection acts on the table, and when it leaves a buffer. -/
namespace NetworkLabs.Proxy.Table

open Connection Transition

variable {s t : Table} {i : Nat} {c : Connection} {rev : Peer → Revents} {ans : Answers}
  {es : List Event}

@[simp] theorem set_connections : (s.set i c).connections = Function.update s.connections i c := rfl

@[simp] theorem set_connectionsCount : (s.set i c).connectionsCount = s.connectionsCount := rfl

/-- The record that is in slot `i` once `c` was dropped from it. -/
def successor (s : Table) (i : Nat) (c : Connection) : Connection :=
  if i = (s.connectionsCount - 1).toNat then c else s.connections (s.connectionsCount - 1).toNat

def vacated (s : Table) (i : Nat) (c : Connection) : Table where
  connections := Function.update s.connections i (s.successor i c)
  connectionsCount := s.connectionsCount - 1

@[simp] theorem vacated_connections_self : (s.vacated i c).connections i = s.successor i c := by
  simp [vacated]

theorem commit_stay : s.commit i (.stay c, es) = .ok (s.set i c, es) := rfl

theorem commit_drop (server : Bool) (hs : 0 < s.connectionsCount) :
    s.commit i (.drop c server, es) = .ok (s.vacated i c,
      es ++ .close c.clientSocket :: if server then [.close c.serverSocket] else []) := by
  have hlast : 0 ≤ (s.set i c).connectionsCount - 1 := by
    simp only [set_connectionsCount]
    omega
  simp only [commit, dropConnection, if_pos hlast, Except.map]
  simp only [set_connectionsCount, set_connections, Function.update_self, Function.update_idem,
    vacated, successor, Function.update_apply, eq_comm]

theorem commit_drop_empty (server : Bool) (hs : s.connectionsCount ≤ 0) :
    s.commit i (.drop c server, es) = .error .index := by
  have hlast : ¬ 0 ≤ (s.set i c).connectionsCount - 1 := by
    simp only [set_connectionsCount]
    omega
  simp only [commit, dropConnection, if_neg hlast]
  rfl

theorem commit_ne_copy (r : Fate × List Event) : s.commit i r ≠ .error .copy := by
  rcases r with ⟨_ | ⟨c, server⟩, es⟩
  · simp [commit_stay]
  · by_cases hs : 0 < s.connectionsCount
    · simp [commit_drop server hs]
    · simp [commit_drop_empty server (Int.not_lt.mp hs)]

/-- Only slot `i` is written, and the count does not grow. -/
theorem commit_frame {r : Fate × List Event} (h : s.commit i r = .ok (t, es)) :
    (∀ j, j ≠ i → t.connections j = s.connections j) ∧ t.connectionsCount ≤ s.connectionsCount := by
  rcases r with ⟨_ | ⟨c, server⟩, es'⟩
  · cases h
    exact ⟨fun j hj => by simp [hj], Int.le_refl _⟩
  · by_cases hs : 0 < s.connectionsCount
    · rw [commit_drop server hs] at h
      cases h
      refine ⟨fun j hj => by simp [vacated, hj], ?_⟩
      simp only [vacated]
      omega
    · rw [commit_drop_empty server (Int.not_lt.mp hs)] at h
      cases h

/-- The record whose request is parsed after `ans` was read for slot `i`: the drop of a
rejected one has put another in its place. -/
def parsed (s : Table) (i : Nat) (ans : Answers) : Connection :=
  let c := (s.connections i).appended ans
  if c.rejected then s.successor i c else c

/-- The event makes the proxy read for the handshake of connection `i`, and it is not the
end of the stream. -/
def Reads (s : Table) (i : Nat) (rev : Peer → Revents) (ans : Answers) : Prop :=
  readCount (ans.read .client) ≠ 0 ∧
    (((s.connections i).status = .incoming ∧ (rev .client).pollhup = false ∧
        (rev .client).pollin = true) ∨
      ((s.connections i).status = .sockRequest ∧
        ((rev .client).pollin || (rev .client).pollout) = true))

/-- The read succeeded and fits, and a name that is looked up has a length that is no
negative `char`. -/
def CopiesFit (s : Table) (i : Nat) (rev : Peer → Revents) (ans : Answers) : Prop :=
  s.Reads i rev ans → (s.connections i).ReadFits ans ∧
    ((s.connections i).status = .sockRequest → (s.parsed i ans).NameFits)

section Request

theorem request_eof (h0 : readCount (ans.read .client) = 0) :
    s.request i ans = s.commit i (.drop (s.connections i) false,
      [(s.connections i).readEvent .client ans]) := by
  simp only [request, if_pos h0]

theorem request_of_not_fits (h0 : readCount (ans.read .client) ≠ 0)
    (hf : ¬ (s.connections i).ReadFits ans) : s.request i ans = .error .copy := by
  simp only [request, if_neg h0, append_of_not_fits hf]
  rfl

theorem request_of_accepted (h0 : readCount (ans.read .client) ≠ 0)
    (hf : (s.connections i).ReadFits ans)
    (hr : ((s.connections i).appended ans).rejected = false) :
    s.request i ans = (((s.connections i).appended ans).parseRequest ans).bind fun r =>
      s.commit i (r.1, (s.connections i).readEvent .client ans :: r.2) := by
  simp only [request, if_neg h0, append_of_fits hf, bind, Except.bind, hr, Bool.false_eq_true,
    if_false]

/-- The request of the record that came into slot `i` is parsed as if it was the rejected one. -/
theorem request_of_rejected (hs : 0 < s.connectionsCount)
    (h0 : readCount (ans.read .client) ≠ 0) (hf : (s.connections i).ReadFits ans)
    (hr : ((s.connections i).appended ans).rejected = true) :
    s.request i ans =
      ((s.successor i ((s.connections i).appended ans)).parseRequest ans).bind fun r =>
        ((s.vacated i ((s.connections i).appended ans)).commit i r).map fun u =>
          (u.1, [(s.connections i).readEvent .client ans,
            .reply (s.connections i).clientSocket (errorReply 7),
            .close (s.connections i).clientSocket] ++ u.2) := by
  simp only [request, if_neg h0, append_of_fits hf, bind, Except.bind, hr, if_true,
    commit_drop false hs, vacated_connections_self]
  cases (s.successor i ((s.connections i).appended ans)).parseRequest ans with
  | error e => rfl
  | ok r => cases (s.vacated i ((s.connections i).appended ans)).commit i r <;> rfl

theorem request_copy_iff (hs : 0 < s.connectionsCount) :
    s.request i ans = .error .copy ↔ ¬ (readCount (ans.read .client) ≠ 0 →
      (s.connections i).ReadFits ans ∧ (s.parsed i ans).NameFits) := by
  by_cases h0 : readCount (ans.read .client) = 0
  · simp [request_eof h0, commit_ne_copy, h0]
  by_cases hf : (s.connections i).ReadFits ans
  swap
  · simp [request_of_not_fits h0 hf, h0, hf]
  simp only [h0, hf, ne_eq, not_false_eq_true, true_and, forall_const]
  cases hr : ((s.connections i).appended ans).rejected with
  | false =>
    simp only [request_of_accepted h0 hf hr, parsed, hr, Bool.false_eq_true, if_false]
    rcases parseRequest_ok_or ((s.connections i).appended ans) ans with ⟨hn, r, hp⟩ | ⟨hn, hp⟩
    · simp [hp, hn, Except.bind, commit_ne_copy]
    · simp [hp, hn, Except.bind]
  | true =>
    simp only [request_of_rejected hs h0 hf hr, parsed, hr, if_true]
    rcases parseRequest_ok_or (s.successor i ((s.connections i).appended ans)) ans with
      ⟨hn, r, hp⟩ | ⟨hn, hp⟩
    · have hc := commit_ne_copy (s := s.vacated i ((s.connections i).appended ans)) (i := i) r
      simp only [hp, hn, Except.bind, not_true_eq_false, iff_false]
      cases h : (s.vacated i ((s.connections i).appended ans)).commit i r with
      | ok u => simp [Except.map]
      | error e => simpa [Except.map, h] using hc
    · simp [hp, hn, Except.bind]

end Request

/-- A request is read. -/
def AtRequest (s : Table) (i : Nat) (rev : Peer → Revents) : Prop :=
  (s.connections i).status = .sockRequest ∧ ((rev .client).pollin || (rev .client).pollout) = true

theorem handle_of_atRequest (h : s.AtRequest i rev) : s.handle i rev ans = s.request i ans := by
  simp only [handle, h.1, h.2, if_true]

theorem handle_of_not_atRequest (h : ¬ s.AtRequest i rev) :
    s.handle i rev ans = ((s.connections i).handled rev ans).bind (s.commit i) := by
  cases hstatus : (s.connections i).status with
  | sockRequest =>
    have hrev : ((rev .client).pollin || (rev .client).pollout) ≠ true := fun hr => h ⟨hstatus, hr⟩
    simp only [handle, handled, hstatus, if_neg hrev, Except.bind]
  | _ => simp only [handle, handled, hstatus, Except.bind, bind]

/-- Apart from requests, what goes right is what the record comes to, given to its slot. -/
theorem handled_of_handle (hreq : ¬ s.AtRequest i rev) (h : s.handle i rev ans = .ok (t, es)) :
    ∃ r, (s.connections i).handled rev ans = .ok r ∧ s.commit i r = .ok (t, es) := by
  rw [handle_of_not_atRequest hreq] at h
  exact bind_eq_ok.mp h

theorem reads_iff_greets (h : ¬ s.AtRequest i rev) :
    s.Reads i rev ans ↔ (s.connections i).Greets rev ans := by
  have hno : ¬ ((s.connections i).status = .sockRequest ∧
      ((rev .client).pollin || (rev .client).pollout) = true) := h
  simp only [Reads, Greets, hno, or_false]

/-- A copy leaves its buffer exactly where the condition on the read fails. -/
theorem handle_copy_iff (hi : (i : Int) < s.connectionsCount) :
    s.handle i rev ans = .error .copy ↔ ¬ s.CopiesFit i rev ans := by
  by_cases hreq : s.AtRequest i rev
  · rw [handle_of_atRequest hreq, request_copy_iff (by omega)]
    simp [CopiesFit, Reads, hreq.1, hreq.2]
  · rw [handle_of_not_atRequest hreq]
    rcases handled_ok_or (s.connections i) rev ans with ⟨hn, r, hr⟩ | ⟨hn, hr⟩
    · simp only [hr, Except.bind, commit_ne_copy, CopiesFit, reads_iff_greets hreq, false_iff,
        not_not]
      exact fun hg => ⟨hn hg, fun hs => by simp [Greets, hs] at hg⟩
    · simp only [hr, Except.bind, CopiesFit, reads_iff_greets hreq, true_iff]
      exact fun hc => hn fun hg => (hc hg).1

/-- The ways in which a request that is read goes right. -/
inductive Requested (s : Table) (i : Nat) (ans : Answers) (t : Table) (es : List Event) : Prop
  | eof (h0 : readCount (ans.read .client) = 0)
      (h : s.commit i (.drop (s.connections i) false, [(s.connections i).readEvent .client ans]) =
        .ok (t, es))
  | accepted {r : Fate × List Event} (hf : (s.connections i).ReadFits ans)
      (hr : ((s.connections i).appended ans).rejected = false)
      (hp : ((s.connections i).appended ans).parseRequest ans = .ok r)
      (h : s.commit i (r.1, (s.connections i).readEvent .client ans :: r.2) = .ok (t, es))
  | rejected {r : Fate × List Event} {es' : List Event} (hf : (s.connections i).ReadFits ans)
      (hr : ((s.connections i).appended ans).rejected = true)
      (hp : (s.successor i ((s.connections i).appended ans)).parseRequest ans = .ok r)
      (h : (s.vacated i ((s.connections i).appended ans)).commit i r = .ok (t, es'))
      (he : es = [(s.connections i).readEvent .client ans,
        .reply (s.connections i).clientSocket (errorReply 7),
        .close (s.connections i).clientSocket] ++ es')

theorem requested_of_ok (hs : 0 < s.connectionsCount) (h : s.request i ans = .ok (t, es)) :
    s.Requested i ans t es := by
  by_cases h0 : readCount (ans.read .client) = 0
  · rw [request_eof h0] at h
    exact .eof h0 h
  by_cases hf : (s.connections i).ReadFits ans
  swap
  · rw [request_of_not_fits h0 hf] at h
    cases h
  cases hr : ((s.connections i).appended ans).rejected with
  | false =>
    rw [request_of_accepted h0 hf hr] at h
    obtain ⟨r, hp, hc⟩ := bind_eq_ok.mp h
    exact .accepted hf hr hp hc
  | true =>
    rw [request_of_rejected hs h0 hf hr] at h
    obtain ⟨r, hp, h⟩ := bind_eq_ok.mp h
    obtain ⟨u, hc, hu⟩ := map_eq_ok.mp h
    obtain ⟨rfl, rfl⟩ := Prod.mk.inj hu
    exact .rejected hf hr hp hc rfl

theorem request_frame (hs : 0 < s.connectionsCount) (h : s.request i ans = .ok (t, es)) :
    (∀ j, j ≠ i → t.connections j = s.connections j) ∧ t.connectionsCount ≤ s.connectionsCount := by
  cases requested_of_ok hs h with
  | eof _ h => exact commit_frame h
  | accepted _ _ _ h => exact commit_frame h
  | rejected _ _ _ h _ =>
    have hframe := commit_frame h
    simp only [vacated] at hframe
    refine ⟨fun j hj => ?_, by omega⟩
    rw [hframe.1 j hj, Function.update_of_ne hj]

/-- Only slot `i` is written, and the count does not grow. -/
theorem handle_frame (hi : (i : Int) < s.connectionsCount) (h : s.handle i rev ans = .ok (t, es)) :
    (∀ j, j ≠ i → t.connections j = s.connections j) ∧ t.connectionsCount ≤ s.connectionsCount := by
  by_cases hreq : s.AtRequest i rev
  · rw [handle_of_atRequest hreq] at h
    exact request_frame (by omega) h
  · obtain ⟨r, -, hc⟩ := handled_of_handle hreq h
    exact commit_frame hc

end NetworkLabs.Proxy.Table
