import NetworkLabs.Proxy.Ownership

/-! Where control falls from one `case` of the event loop into the next one. -/
namespace NetworkLabs.Proxy

open Transition

/-- The calls on the resolver in the code of `CS_RESOLVING`. -/
inductive ResolverCall
  | check
  | fetch
  | elapsed
  | close
deriving DecidableEq

def resolverCalls (rev : Peer → Revents) (ans : Answers) : List ResolverCall :=
  if (rev .client).pollout then
    .check ::
      if ans.dnsCheck = 0 then [.fetch, .close]
      else if ans.dnsCheck ≠ Connection.eagain then [.close]
      else .elapsed :: if ans.dnsElapsed > 30 then [.close] else []
  else []

/-- The codes that control goes through from `CS_RESOLVING` on. -/
def fromResolving (rev : Peer → Revents) (ans : Answers) : List Status :=
  if (rev .client).pollout then
    if ans.dnsCheck = 0 then [.resolving]
    else if ans.dnsCheck ≠ Connection.eagain then [.resolving]
    else if ans.dnsElapsed > 30 then [.resolving]
    else [.resolving, .forwarding]
  else [.resolving, .forwarding]

namespace Connection

variable {c c' : Connection} {rev : Peer → Revents} {ans : Answers} {r : Fate × List Event}

/-- The codes that control goes through when the connection is handled. -/
def codes (c : Connection) (rev : Peer → Revents) (ans : Answers) : List Status :=
  match c.status with
  | .sockRequest =>
    if (rev .client).pollin || (rev .client).pollout then [.sockRequest]
    else .sockRequest :: fromResolving rev ans
  | .resolving => fromResolving rev ans
  | .incoming | .authFailure | .authSuccess | .forwarding => [c.status]

/-- Control falls from one code into the next. -/
def Falls (c : Connection) (rev : Peer → Revents) (ans : Answers) (code next : Status) : Prop :=
  [code, next] <:+: c.codes rev ans

/-- Control falls only from a request that is not read and from a lookup. -/
theorem falls_cases {code next : Status} (h : c.Falls rev ans code next) :
    (c.status = .sockRequest ∧ ((rev .client).pollin || (rev .client).pollout) = false ∧
        [code, next] <:+: .sockRequest :: fromResolving rev ans) ∨
      (c.status = .resolving ∧ [code, next] <:+: fromResolving rev ans) := by
  have hone : ∀ code' : Status, ¬ [code, next] <:+: [code'] := by
    intro code' hsub
    exact absurd hsub.length_le (by simp)
  unfold Falls codes at h
  cases hs : c.status with
  | sockRequest =>
    simp only [hs] at h
    split at h
    · exact absurd h (hone _)
    · rename_i hnone
      exact .inl ⟨rfl, Bool.eq_false_of_not_eq_true hnone, h⟩
  | resolving =>
    simp only [hs] at h
    exact .inr ⟨rfl, h⟩
  | incoming | authFailure | authSuccess | forwarding =>
    simp only [hs] at h
    exact absurd h (hone _)

theorem sockRequest_not_mem : .sockRequest ∉ fromResolving rev ans := by
  unfold fromResolving
  repeat' split
  all_goals decide

theorem not_requested_of_falls (h : c.Falls rev ans .sockRequest .resolving) :
    (rev .client).pollout = false := by
  rcases falls_cases h with ⟨-, hnone, -⟩ | ⟨-, hsub⟩
  · exact (Bool.or_eq_false_iff.mp hnone).2
  · exact absurd (hsub.subset List.mem_cons_self) sockRequest_not_mem

/-- While the lookup goes on, the code of `CS_RESOLVING` does no more than that of
`CS_FORWARDING`. -/
theorem resolving_of_forwarding_mem (c : Connection)
    (h : .forwarding ∈ fromResolving rev ans) : c.resolving rev ans = c.forwarding rev ans := by
  unfold fromResolving at h
  unfold resolving
  split at h
  · rename_i hout
    rw [if_pos hout]
    split at h
    · cases List.mem_singleton.mp h
    rename_i hcheck
    rw [if_neg hcheck]
    split at h
    · cases List.mem_singleton.mp h
    rename_i hagain
    rw [if_neg hagain]
    split at h
    · cases List.mem_singleton.mp h
    rename_i helapsed
    rw [if_neg helapsed]
  · rename_i hout
    rw [if_neg hout]

/-- The lookup is closed where the code of `CS_RESOLVING` closes it. -/
theorem close_mem_resolverCalls (c : Connection) :
    .close ∈ resolverCalls rev ans ↔ .dnsClose c.R ∈ (c.resolving rev ans).2 := by
  have hforwarding : .dnsClose c.R ∉ (c.forwarding rev ans).2 := by
    intro h
    refine forwarding_events (p := (· ≠ .dnsClose c.R)) ?_ ?_ _ h rfl
    · simp [readEvent]
    · simp
  unfold resolverCalls resolving
  repeat' split
  all_goals simp [hforwarding]

theorem fromResolving_of_not_pollout (h : (rev .client).pollout = false) :
    fromResolving rev ans = [.resolving, .forwarding] := by
  simp only [fromResolving, h, Bool.false_eq_true, if_false]

/-- Control falls into `CS_FORWARDING` from a request that is not read, or from a lookup that goes
on. -/
theorem falls_forwarding (h : c.Falls rev ans .resolving .forwarding) :
    (c.status = .sockRequest ∧ ((rev .client).pollin || (rev .client).pollout) = false ∨
      c.status = .resolving) ∧ .forwarding ∈ fromResolving rev ans := by
  rcases falls_cases h with ⟨hs, hnone, -⟩ | ⟨hs, hsub⟩
  · refine ⟨.inl ⟨hs, hnone⟩, ?_⟩
    rw [fromResolving_of_not_pollout (Bool.or_eq_false_iff.mp hnone).2]
    decide
  · exact ⟨.inr hs, hsub.subset (by decide)⟩

/-- There is nothing to forward where control falls into the forwarding code. -/
theorem forwarding_of_falls (h : c.Falls rev ans .resolving .forwarding) (hp : c.Polled rev)
    (hu : c.status ≠ .forwarding → c.Unrelayed) : c.forwarding rev ans = (.stay c, []) := by
  have hquiet : Quiet rev := by
    rcases (falls_forwarding h).1 with ⟨hs, hrev⟩ | hs
    · have hserver := hp .server
      simp only [formPollFds, hs, Bool.false_eq_true, imp_false, Bool.not_eq_true] at hserver
      exact ⟨(Bool.or_eq_false_iff.mp hrev).1, hserver⟩
    · exact hp.quiet hs
  have hstatus : c.status ≠ .forwarding := by
    rcases (falls_forwarding h).1 with ⟨hs, -⟩ | hs <;> simp [hs]
  exact forwarding_of_quiet hquiet (hu hstatus).server (hu hstatus).client

theorem greeting_counts (h : c.greeting = .stay c') :
    c'.currBufServer = c.currBufServer ∧ c'.currBufClient = c.currBufClient := by
  unfold greeting at h
  repeat' split at h
  all_goals cases h
  all_goals exact ⟨rfl, rfl⟩

/-- A record that stays is not relayed before its status says so. -/
theorem Attended.unrelayed (h : Attended c rev ans r) (hu : c.status ≠ .forwarding → c.Unrelayed)
    (c' : Connection) (hr : r.1 = .stay c') (hs' : c'.status ≠ .forwarding) : c'.Unrelayed := by
  have happended : c.status ≠ .forwarding → c.ReadFits ans → (c.appended ans).Unrelayed :=
    fun hs hf => ⟨(hu hs).server, Int.add_nonneg hf.2.1 hf.1⟩
  cases h with
  | idle hs =>
    cases hr
    exact hu hs
  | gone => cases hr
  | greeted hs hf =>
    have hcounts := greeting_counts hr
    have hbefore := happended (by simp [hs]) hf
    exact ⟨hcounts.1.trans hbefore.server, hcounts.2 ▸ hbefore.client⟩
  | unauthorised => cases hr
  | authorised hs =>
    cases hr
    exact ⟨(hu (by simp [hs])).server, Int.le_refl 0⟩
  | rejected => cases hr
  | requested hs hf _ _ _ hp =>
    have hbefore := happended (by simp [hs]) hf
    cases parses_of_ok hp with
    | waiting =>
      cases hr
      exact hbefore
    | address => exact absurd (opened_status _ ans c' hr) hs'
    | sought =>
      cases hr
      exact ⟨hbefore.server, hbefore.client⟩
    | unsought => cases hr
    | unknown => cases hr
  | resolved => exact absurd (opened_status c ans c' hr) hs'
  | unresolved => cases hr
  | relayed hs =>
    have hstatus := (sameEnds_forwarding c rev ans).status
    rw [hr] at hstatus
    exact absurd (hstatus.trans hs) hs'

end Connection

namespace Table

variable {s t : Table} {i : Nat} {rev : Peer → Revents} {ans : Answers} {es : List Event}

/-- What control falls into does no harm: after a request that is not read no resolver is called,
and the forwarding code leaves the connection as it is and does nothing, so that the whole handling
leaves the table as it is. -/
structure Harmless (s : Table) (i : Nat) (rev : Peer → Revents) (ans : Answers) : Prop where
  resolving : (s.connections i).Falls rev ans .sockRequest .resolving → resolverCalls rev ans = []
  forwarding : (s.connections i).Falls rev ans .resolving .forwarding →
    (s.connections i).forwarding rev ans = (.stay (s.connections i), [])
  handle : (s.connections i).Falls rev ans .resolving .forwarding →
    s.handle i rev ans = .ok (s, [])

theorem handle_of_falls (h : (s.connections i).Falls rev ans .resolving .forwarding) :
    s.handle i rev ans = s.commit i ((s.connections i).forwarding rev ans) := by
  obtain ⟨hs, hmem⟩ := Connection.falls_forwarding h
  have hresolving := Connection.resolving_of_forwarding_mem (s.connections i) hmem
  rcases hs with ⟨hs, hrev⟩ | hs
  · simp only [handle, hs, hrev, Bool.false_eq_true, if_false, hresolving]
  · simp only [handle, hs, hresolving]

theorem harmless_of_unrelayed (hp : (s.connections i).Polled rev)
    (hu : (s.connections i).status ≠ .forwarding → (s.connections i).Unrelayed) :
    s.Harmless i rev ans := by
  refine ⟨fun hfalls => ?_, fun hfalls => Connection.forwarding_of_falls hfalls hp hu,
    fun hfalls => ?_⟩
  · simp [resolverCalls, Connection.not_requested_of_falls hfalls]
  · rw [handle_of_falls hfalls, Connection.forwarding_of_falls hfalls hp hu, commit_stay, set,
      Function.update_eq_self]

theorem unrelayed_handle (hs : s.Unrelayed) (hi : (i : Int) < s.connectionsCount)
    (hp : (s.connections i).Polled rev) (hr : ¬ s.Rejects i rev ans)
    (h : s.handle i rev ans = .ok (t, es)) : t.Unrelayed := by
  obtain ⟨r, hattended, hc⟩ := attended_of_handle hr h
  have hcases := Connection.attended_cases (hs i hi) hp hattended
  exact unrelayed_commit hs (hcases.unrelayed (hs i hi)) hc

end Table

namespace Loop

variable {s t : Loop} {a : Action} {r : Except Fault Loop} {xs : List Action} {i : Nat}
  {fds : Nat → Revents}

/-- No request that is read is rejected, and what is left in the array when `poll` fails was asked
for. -/
def Unrejected : Except Fault Loop → Action → Prop
  | .ok s, .pollError fds => Reported s.table fds
  | .ok s, .handle ans =>
    match s.phase with
    | .scanning i fds => (i : Int) < s.table.connectionsCount →
        ¬ s.table.Rejects i (fun peer => fds (fdIndex i peer)) ans
    | _ => True
  | _, _ => True

/-- The invariant of the runs in which no request is. -/
structure Waits (s : Loop) : Prop where
  bounds : s.InBounds
  unrelayed : s.table.Unrelayed

theorem waits_initial : initial.Waits := by
  refine ⟨noCopyFault_initial.2 _ rfl, fun i hi => ?_⟩
  have hlt : (i : Int) < 0 := hi
  omega

theorem waits_step (h : lts.Tr (.ok s) a (.ok t)) (hr : Unrejected (.ok s) a) (hs : s.Waits) :
    t.Waits := by
  refine ⟨Logged.inBounds_step (s := ⟨s, []⟩) (t := ⟨t, []⟩) h hs.bounds
    (by rintro fds rfl; exact hr), ?_⟩
  have hunrelayed := hs.unrelayed
  cases moved_of_tr h with
  | polled | unpolled => exact hunrelayed
  | @handled i fds ans t es hphase hi hhandle =>
    simp only [Unrejected, hphase] at hr
    have hpolled := hs.bounds.polled i fds hphase i (Nat.le_refl i) hi
    exact Table.unrelayed_handle hunrelayed hi hpolled (hr hi) hhandle
  | scanned => exact hunrelayed
  | accepted haccept => exact Table.unrelayed_accept hunrelayed haccept
  | unaccepted => exact hunrelayed

theorem waits_of_run (h : (lts.guard Unrejected).MTr (.ok initial) xs (.ok s)) : s.Waits := by
  have hinv : (lts.guard Unrejected).TrInv fun r => ∀ s, r = .ok s → s.Waits := by
    rintro r a _ ⟨htr, hr⟩ hs t rfl
    cases htr with
    | poll hrep hstep => exact waits_step (.poll hrep hstep) hr (hs _ rfl)
    | pollError hstep => exact waits_step (.pollError hstep) hr (hs _ rfl)
    | handle hstep => exact waits_step (.handle hstep) hr (hs _ rfl)
    | accept hstep => exact waits_step (.accept hstep) hr (hs _ rfl)
  apply LTS.mTr_of_trInv hinv h
  · rintro _ ⟨⟩
    exact waits_initial
  · rfl

/-- In every state of every run in which no request is rejected, whatever `poll` reported and
whatever the system answers, falling through does no harm. -/
theorem harmless_of_run (h : (lts.guard Unrejected).MTr (.ok initial) xs (.ok s))
    (hphase : s.phase = .scanning i fds) (hi : (i : Int) < s.table.connectionsCount)
    (ans : Answers) : s.table.Harmless i (fun peer => fds (fdIndex i peer)) ans := by
  have hwaits := waits_of_run h
  have hpolled := hwaits.bounds.polled i fds hphase i (Nat.le_refl i) hi
  exact Table.harmless_of_unrelayed hpolled (hwaits.unrelayed i hi)

/-- A client is accepted and agrees with the proxy on no authentication; then it hangs up. -/
def hangingUp : List Action :=
  [.poll firstReadable, .handle (.reading ⟨[], Chunk.nil_fits⟩), .accept 4 1000,
    .poll firstReadable, .handle (.reading ⟨[5, 1, 0], Chunk.greeting_fits⟩),
    .handle (.reading ⟨[], Chunk.nil_fits⟩), .accept (-1) 0,
    .poll firstWritable, .handle (.reading ⟨[], Chunk.nil_fits⟩),
    .handle (.reading ⟨[], Chunk.nil_fits⟩),
    .accept (-1) 0, .poll fun _ => ⟨false, false, true⟩]

theorem unrejected_hangingUp : ∃ s, (lts.guard Unrejected).MTr (.ok initial) hangingUp (.ok s) ∧
    s.phase = .scanning 0 (fun _ => ⟨false, false, true⟩) ∧ s.table.connectionsCount = 1 ∧
      (s.table.connections 0).status = .sockRequest := by
  have hfew : ∀ {s : Table} {i : Nat} {rev : Peer → Revents} {ans : Answers},
      ¬ s.AtRequest i rev → ¬ s.Rejects i rev ans := fun h h' => h h'.1
  refine ⟨_, .stepL ⟨.poll (reported_firstReadable (by decide) rfl) rfl, trivial⟩
    (.stepL ⟨.handle rfl, fun _ => hfew ?_⟩ (.stepL ⟨.accept rfl, trivial⟩
      (.stepL ⟨.poll (reported_firstReadable (by decide) rfl) rfl, trivial⟩
        (.stepL ⟨.handle rfl, fun _ => hfew ?_⟩ (.stepL ⟨.handle rfl, fun _ => hfew ?_⟩
          (.stepL ⟨.accept rfl, trivial⟩
            (.stepL ⟨.poll (reported_first (by decide) ?_) rfl, trivial⟩
              (.stepL ⟨.handle rfl, fun _ => hfew ?_⟩ (.stepL ⟨.handle rfl, fun _ => hfew ?_⟩
                (.stepL ⟨.accept rfl, trivial⟩
                  (.stepL ⟨.poll (reported_first (by decide) ?_) rfl, trivial⟩
                    .refl))))))))))), rfl, rfl, rfl⟩
  case refine_4 | refine_7 => exact fun peer => by cases peer <;> decide
  all_goals
    intro h
    cases h.1

/-- Control falls through to the forwarding code, and nothing happens. -/
theorem harmless_hangingUp : ∃ s, (lts.guard Unrejected).MTr (.ok initial) hangingUp (.ok s) ∧
    (∀ ans, (s.table.connections 0).codes (fun _ => ⟨false, false, true⟩) ans =
      [.sockRequest, .resolving, .forwarding]) ∧
    ∀ ans, s.table.Harmless 0 (fun _ => ⟨false, false, true⟩) ans := by
  obtain ⟨s, h, hphase, hcount, hstatus⟩ := unrejected_hangingUp
  refine ⟨s, h, fun ans => ?_, harmless_of_run h hphase ?_⟩
  · simp [Connection.codes, hstatus, fromResolving]
  · rw [hcount]
    decide

end Loop

end NetworkLabs.Proxy
