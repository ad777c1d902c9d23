import NetworkLabs.Proxy.TableFacts

/-! The byte counts of the handshake stay in their buffers, as long as the reads fit. -/
namespace NetworkLabs.Proxy

open Transition

namespace Connection

variable {c c' : Connection} {rev : Peer → Revents} {ans : Answers} {r : Fate × List Event}

/-- The count of client bytes is negative only for a relay that is closed on that side. -/
structure Bounded (c : Connection) : Prop where
  lower : -1 ≤ c.currBufClient
  upper : c.currBufClient ≤ bufferSize
  nonneg : c.status ≠ .forwarding → 0 ≤ c.currBufClient

/-- Nothing is reported that was not asked for. -/
def Polled (c : Connection) (rev : Peer → Revents) : Prop :=
  ∀ peer, ((rev peer).pollin = true → (formPollFds c peer).1 = true) ∧
    ((rev peer).pollout = true → (formPollFds c peer).2 = true)

theorem Bounded.of_nonneg (h : 0 ≤ c.currBufClient) (h' : c.currBufClient ≤ bufferSize) :
    c.Bounded :=
  ⟨by omega, h', fun _ => h⟩

theorem Bounded.of_count (hc : c'.currBufClient = c.currBufClient) (hs : c'.status = c.status)
    (h : c.Bounded) : c'.Bounded :=
  ⟨hc ▸ h.lower, hc ▸ h.upper, fun hne => hc ▸ h.nonneg (hs ▸ hne)⟩

theorem readFrom_count (h : -1 ≤ c.currBufClient ∧ c.currBufClient ≤ bufferSize) (peer : Peer) :
    -1 ≤ (c.readFrom peer rev ans).1.currBufClient ∧
      (c.readFrom peer rev ans).1.currBufClient ≤ bufferSize := by
  have hread := readCount_le (ans.read .client)
  unfold readFrom
  split
  · cases peer with
    | client =>
      simp only [setBuf]
      split <;> omega
    | server => exact h
  · exact h

theorem writeFrom_count (h : -1 ≤ c.currBufClient ∧ c.currBufClient ≤ bufferSize) (peer : Peer) :
    -1 ≤ (c.writeFrom peer rev ans).1.currBufClient ∧
      (c.writeFrom peer rev ans).1.currBufClient ≤ bufferSize := by
  unfold writeFrom
  split
  · cases peer with
    | client =>
      simp only [setBuf]
      split <;> unfold bufferSize <;> omega
    | server => exact h
  · exact h

theorem forwarding_count (rev : Peer → Revents) (ans : Answers)
    (h : -1 ≤ c.currBufClient ∧ c.currBufClient ≤ bufferSize) :
    -1 ≤ (c.forwarding rev ans).1.record.currBufClient ∧
      (c.forwarding rev ans).1.record.currBufClient ≤ bufferSize := by
  rw [record_forwarding]
  exact writeFrom_count (writeFrom_count (readFrom_count (readFrom_count h _) _) _) _

/-- The server side of the relay leaves the client's bytes alone. -/
theorem server_count (c : Connection) (rev : Peer → Revents) (ans : Answers) :
    (c.readFrom .server rev ans).1.currBufClient = c.currBufClient ∧
      (c.writeFrom .server rev ans).1.currBufClient = c.currBufClient := by
  constructor
  · unfold readFrom
    split <;> rfl
  · unfold writeFrom
    split <;> rfl

/-- Without a client to read from and a server to write to, the count stays. -/
theorem forwarding_count_quiet (hin : (rev .client).pollin = false)
    (hout : (rev .server).pollout = false) :
    (c.forwarding rev ans).1.record.currBufClient = c.currBufClient := by
  have hread : (c.readFrom .client rev ans).1 = c := by simp [readFrom, hin]
  have hwrite : ∀ d : Connection, (d.writeFrom .client rev ans).1 = d := by
    intro d
    simp [writeFrom, Peer.other, hout]
  rw [record_forwarding, hread, hwrite, (server_count ..).2, (server_count ..).1]

theorem bounded_opened (h : c.Bounded) (hs : c.status ≠ .forwarding) :
    (c.opened ans).1.record.Bounded := by
  have hsize : (0 : Int) ≤ bufferSize := by decide
  by_cases hsocket : ans.socket = -1
  · rw [opened_of_failed hsocket]
    exact .of_nonneg (h.nonneg hs) h.upper
  · rw [opened_of_connected hsocket]
    exact .of_nonneg (Int.le_refl 0) hsize

theorem bounded_resolving (h : c.Bounded) (hs : c.status ≠ .forwarding)
    (hin : (rev .client).pollin = false) (hout : (rev .server).pollout = false) :
    (c.resolving rev ans).1.record.Bounded := by
  have hforward : (c.forwarding rev ans).1.record.Bounded :=
    h.of_count (forwarding_count_quiet hin hout) (sameEnds_forwarding c rev ans).status
  unfold resolving
  split
  · split
    · exact bounded_opened h hs
    split
    · exact h
    split
    · exact h
    · exact hforward
  · exact hforward

theorem bounded_greeting (h : c.Bounded) (hs : c.status ≠ .forwarding) :
    c.greeting.record.Bounded := by
  have hsame := Bounded.of_nonneg (h.nonneg hs) h.upper
  unfold greeting
  repeat' split
  all_goals first | exact h | exact .of_nonneg (h.nonneg hs) h.upper

theorem bounded_appended (hf : c.ReadFits ans) : (c.appended ans).Bounded := by
  obtain ⟨hn, hc, hle⟩ := hf
  refine .of_nonneg ?_ ?_ <;> simp only [appended]
  · omega
  · exact hle

/-- A connection that is handled by itself stays in bounds. -/
theorem bounded_handled (h : c.Bounded) (hp : c.Polled rev)
    (hreq : ¬ (c.status = .sockRequest ∧ ((rev .client).pollin || (rev .client).pollout) = true))
    (hr : c.handled rev ans = .ok r) : r.1.record.Bounded := by
  have hsize : (0 : Int) ≤ bufferSize := by decide
  cases hs : c.status with
  | incoming =>
    by_cases hg : c.Greets rev ans
    · by_cases hf : c.ReadFits ans
      · cases (handled_of_greets hg hf).symm.trans hr
        exact bounded_greeting (bounded_appended hf) (by simp [appended, hs])
      · rcases handled_ok_or c rev ans with ⟨hn, -⟩ | ⟨-, herr⟩
        · exact absurd (hn hg) hf
        · cases herr.symm.trans hr
    · obtain ⟨r', hr', hfate, -⟩ := handled_of_not_greets hg hs
      cases hr'.symm.trans hr
      rcases hfate with hfate | hfate <;> rw [hfate] <;> exact h
  | authFailure =>
    simp only [handled, hs, authFailure, Except.ok.injEq] at hr
    subst hr
    split <;> exact h
  | authSuccess =>
    simp only [handled, hs, authSuccess, Except.ok.injEq] at hr
    subst hr
    split
    · exact .of_nonneg (Int.le_refl 0) hsize
    · exact h
  | sockRequest =>
    simp only [handled, hs, Except.ok.injEq] at hr
    subst hr
    have hin : (rev .client).pollin = false := by
      cases hpollin : (rev .client).pollin with
      | false => rfl
      | true => exact absurd ⟨hs, by simp [hpollin]⟩ hreq
    have hout : (rev .server).pollout = false := by
      simpa [formPollFds, hs] using (hp .server).2
    exact bounded_resolving h (by simp [hs]) hin hout
  | resolving =>
    simp only [handled, hs, Except.ok.injEq] at hr
    subst hr
    have hin : (rev .client).pollin = false := by
      simpa [formPollFds, hs] using (hp .client).1
    have hout : (rev .server).pollout = false := by
      simpa [formPollFds, hs] using (hp .server).2
    exact bounded_resolving h (by simp [hs]) hin hout
  | forwarding =>
    simp only [handled, hs, Except.ok.injEq] at hr
    subst hr
    have hcount := forwarding_count rev ans ⟨h.lower, h.upper⟩
    have hstatus := (sameEnds_forwarding c rev ans).status.trans hs
    exact ⟨hcount.1, hcount.2, fun hne => absurd hstatus hne⟩

/-- A request that is served leaves its record in bounds. -/
theorem Advanced.bounded (ha : c.Advanced ans c') (hs : c.Served ans) (h : c.Bounded) :
    c'.Bounded := by
  have h5 := hs.1
  have hupper := h.upper
  rcases ha.count with hc | hc
  · exact .of_nonneg (by omega) (by omega)
  · exact .of_nonneg (by omega) (by omega)

end Connection

namespace Table

open Connection

variable {s t : Table} {i : Nat} {rev : Peer → Revents} {ans : Answers} {es : List Event}

/-- All live records are in bounds. -/
def Bounded (s : Table) : Prop :=
  ∀ j : Nat, (j : Int) < s.connectionsCount → (s.connections j).Bounded

theorem bounded_vacated {c : Connection} (h : s.Bounded) : (s.vacated i c).Bounded := by
  intro j hj
  simp only [vacated] at hj ⊢
  by_cases hji : j = i
  · subst hji
    have hlast : j ≠ (s.connectionsCount - 1).toNat := by omega
    simp only [Function.update_self, successor, if_neg hlast]
    exact h _ (by omega)
  · rw [Function.update_of_ne hji]
    exact h j (by omega)

theorem bounded_commit {r : Fate × List Event} (h : s.Bounded)
    (hr : ∀ c, r.1 = .stay c → (i : Int) < s.connectionsCount → c.Bounded)
    (ht : s.commit i r = .ok (t, es)) : t.Bounded := by
  rcases r with ⟨c | ⟨c, server⟩, es'⟩
  · cases ht
    intro j hj
    by_cases hji : j = i
    · subst hji
      simpa using hr c rfl hj
    · simpa [hji] using h j hj
  · by_cases hs : 0 < s.connectionsCount
    · rw [commit_drop server hs] at ht
      cases ht
      exact bounded_vacated h
    · rw [commit_drop_empty server (Int.not_lt.mp hs)] at ht
      cases ht

theorem bounded_parse {c : Connection} {r : Fate × List Event} (h : s.Bounded)
    (hc : (i : Int) < s.connectionsCount → c.Bounded) (hp : c.parseRequest ans = .ok r)
    (ht : s.commit i (r.1, es) = .ok (t, es')) : t.Bounded := by
  refine bounded_commit h ?_ ht
  intro c' hstay hi
  have hparsed := parsed_parseRequest c ans
  rw [hp] at hparsed
  cases hparsed with
  | waiting hw =>
    cases hstay
    exact hc hi
  | served hserved ha =>
    cases hstay
    exact ha.bounded hserved (hc hi)
  | refused => cases hstay

theorem bounded_request (hi : (i : Int) < s.connectionsCount) (h : s.Bounded)
    (ht : s.request i ans = .ok (t, es)) : t.Bounded := by
  cases requested_of_ok (by omega) ht with
  | eof _ hc => exact bounded_commit h (by simp) hc
  | accepted hf _ hp hc => exact bounded_parse h (fun _ => bounded_appended hf) hp hc
  | rejected _ _ hp hc _ =>
    -- the record moved into the slot is a live one, unless the last one was dropped
    have hv := bounded_vacated (i := i) (c := (s.connections i).appended ans) h
    exact bounded_parse hv (fun hlive => by simpa using hv i hlive) hp hc

theorem bounded_handle (hi : (i : Int) < s.connectionsCount) (h : s.Bounded)
    (hp : (s.connections i).Polled rev) (ht : s.handle i rev ans = .ok (t, es)) : t.Bounded := by
  by_cases hreq : s.AtRequest i rev
  · rw [handle_of_atRequest hreq] at ht
    exact bounded_request hi h ht
  · obtain ⟨r, hr, hc⟩ := handled_of_handle hreq ht
    refine bounded_commit h (fun c hstay _ => ?_) hc
    have hb := bounded_handled (h i hi) hp hreq hr
    rwa [hstay] at hb

theorem bounded_accept {socket id : Int} (h : s.Bounded) (ht : s.accept socket id = .ok t) :
    t.Bounded := by
  unfold accept at ht
  split at ht
  · cases ht
    intro j hj
    simp only at hj
    by_cases hji : j = s.connectionsCount.toNat
    · subst hji
      simp only [set_connections, Function.update_self]
      exact .of_nonneg (Int.le_refl 0) (show (0 : Int) ≤ bufferSize by decide)
    · simp only [set_connections, Function.update_of_ne hji]
      exact h j (by omega)
  · cases ht

end Table

namespace Loop

variable {s t : Loop} {a : Action} {r : Except Fault Loop} {xs : List Action}

/-- A connection that is handled meets the condition on its read, and what is left in the array
when `poll` fails was asked for. -/
def Fitting : Except Fault Loop → Action → Prop
  | .ok s, .pollError fds => Reported s.table fds
  | .ok s, .handle ans =>
    match s.phase with
    | .scanning i fds => (i : Int) < s.table.connectionsCount →
        s.table.CopiesFit i (fun peer => fds (fdIndex i peer)) ans
    | _ => True
  | _, _ => True

/-- All live records are in bounds, and the array keeps to what was asked for by those that are
still to be handled. -/
structure InBounds (s : Loop) : Prop where
  table : s.table.Bounded
  polled : ∀ i fds, s.phase = .scanning i fds → ∀ j : Nat, i ≤ j →
    (j : Int) < s.table.connectionsCount →
      (s.table.connections j).Polled fun peer => fds (fdIndex j peer)

def NoCopyFault (r : Except Fault Loop) : Prop :=
  r ≠ .error .copy ∧ ∀ s, r = .ok s → s.InBounds

theorem inBounds_poll {fds : Nat → Revents} (hr : Reported s.table fds) (hs : s.InBounds)
    (h : s.step (.poll fds) = some r ∨ s.step (.pollError fds) = some r) : NoCopyFault r := by
  simp only [step, or_self] at h
  split at h
  · cases h
    refine ⟨by simp, ?_⟩
    rintro t ⟨⟩
    refine ⟨hs.table, ?_⟩
    rintro i fds' ⟨⟩ j - hj peer
    exact hr j peer hj
  · cases h

theorem inBounds_handle {ans : Answers} (hf : Fitting (.ok s) (.handle ans)) (hs : s.InBounds)
    (h : s.step (.handle ans) = some r) : NoCopyFault r := by
  simp only [step] at h
  split at h
  case h_2 => cases h
  case h_1 i fds hphase =>
  split at h
  case isFalse =>
    cases h
    refine ⟨by simp, ?_⟩
    rintro t ⟨⟩
    exact ⟨hs.table, by simp⟩
  case isTrue hi =>
  simp only [Fitting, hphase] at hf
  cases h
  cases hhandle : s.table.handle i (fun peer => fds (fdIndex i peer)) ans with
  | error e =>
    refine ⟨?_, by simp [Except.map]⟩
    rintro ⟨⟩
    exact (Table.handle_copy_iff hi).mp hhandle (hf hi)
  | ok u =>
    refine ⟨by simp [Except.map], ?_⟩
    rintro t ⟨⟩
    refine ⟨Table.bounded_handle hi hs.table (hs.polled i fds hphase i (Nat.le_refl i) hi) hhandle,
      ?_⟩
    rintro i' fds' hphase' j hij hj
    cases hphase'
    have hframe := Table.handle_frame hi hhandle
    rw [hframe.1 j (by omega)]
    exact hs.polled i fds hphase j (by omega) (Int.lt_of_lt_of_le hj hframe.2)

theorem inBounds_accept {socket id : Int} (hs : s.InBounds)
    (h : s.step (.accept socket id) = some r) : NoCopyFault r := by
  simp only [step] at h
  split at h
  case h_2 => cases h
  split at h
  · cases h
    cases haccept : s.table.accept socket id with
    | error e =>
      refine ⟨?_, by simp [Except.map]⟩
      rintro ⟨⟩
      unfold Table.accept at haccept
      split at haccept <;> cases haccept
    | ok p =>
      refine ⟨by simp [Except.map], ?_⟩
      rintro t ⟨⟩
      exact ⟨Table.bounded_accept hs.table haccept, by simp⟩
  · cases h
    refine ⟨by simp, ?_⟩
    rintro t ⟨⟩
    exact ⟨hs.table, by simp⟩

/-- The runs in which every read of the handshake fits. -/
def fittingLts : LTS (Except Fault Loop) Action := lts.guard Fitting

theorem noCopyFault_trInv : fittingLts.TrInv NoCopyFault := by
  rintro s a t ⟨htr, hf⟩ hs
  cases htr with
  | poll hr h => exact inBounds_poll hr (hs.2 _ rfl) (.inl h)
  | pollError h => exact inBounds_poll hf (hs.2 _ rfl) (.inr h)
  | handle h => exact inBounds_handle hf (hs.2 _ rfl) h
  | accept h => exact inBounds_accept (hs.2 _ rfl) h

theorem noCopyFault_initial : NoCopyFault (.ok initial) := by
  refine ⟨by simp, ?_⟩
  rintro s ⟨⟩
  refine ⟨?_, by simp [initial]⟩
  intro j hj
  simp only [initial] at hj
  omega

/-- As long as the reads of the handshake fit, no copy leaves its buffer, and the count of a
connection that is not forwarding yet is between zero and the size of the buffer. -/
theorem copies_in_bounds (h : fittingLts.MTr (.ok initial) xs r) :
    r ≠ .error .copy ∧ ∀ s, r = .ok s → ∀ i : Nat, (i : Int) < s.table.connectionsCount →
      (s.table.connections i).status ≠ .forwarding →
        0 ≤ (s.table.connections i).currBufClient ∧
          (s.table.connections i).currBufClient ≤ bufferSize := by
  have hsafe := LTS.mTr_of_trInv noCopyFault_trInv h noCopyFault_initial
  refine ⟨hsafe.1, fun s hs i hi hstatus => ?_⟩
  have hb := (hsafe.2 s hs).table i hi
  exact ⟨hb.nonneg hstatus, hb.upper⟩

/-- Only the first descriptor is readable: the listening socket of an empty table, or the
first client. -/
def firstReadable (k : Nat) : Revents := ⟨k = 0, false, false⟩

/-- A client is accepted and one byte of its greeting is read. -/
def opening : List Action :=
  [.poll firstReadable, .handle (.reading ⟨[], Chunk.nil_fits⟩), .accept 4 1000,
    .poll firstReadable, .handle (.reading ⟨[5], by decide⟩),
    .handle (.reading ⟨[], Chunk.nil_fits⟩),
    .accept (-1) 0, .poll firstReadable]

theorem reported_firstReadable {s : Table} (hs : s.connectionsCount ≤ 1)
    (h0 : (s.connections 0).status = .incoming) : Reported s firstReadable := by
  intro i peer hi
  have hi0 : i = 0 := by omega
  subst hi0
  cases peer <;> simp [firstReadable, fdIndex, formPollFds, h0]

theorem fitting_opening : ∃ s, fittingLts.MTr (.ok initial) opening (.ok s) ∧
    s.phase = .scanning 0 firstReadable ∧ s.table.connectionsCount = 1 ∧
      (s.table.connections 0).status = .incoming ∧ (s.table.connections 0).currBufClient = 1 := by
  refine ⟨_, .stepL ⟨.poll (reported_firstReadable (by decide) rfl) rfl, trivial⟩
    (.stepL ⟨.handle rfl, ?_⟩ (.stepL ⟨.accept rfl, trivial⟩
      (.stepL ⟨.poll (reported_firstReadable (by decide) rfl) rfl, trivial⟩
        (.stepL ⟨.handle rfl, ?_⟩ (.stepL ⟨.handle rfl, ?_⟩ (.stepL ⟨.accept rfl, trivial⟩
          (.stepL ⟨.poll (reported_firstReadable (by decide) rfl) rfl, trivial⟩ .refl))))))),
    rfl, rfl, rfl, rfl⟩
  · intro hi
    exact absurd hi (by decide)
  · intro _ _
    exact ⟨⟨by decide, by decide, by decide⟩, fun hs => by cases hs⟩
  · intro hi
    exact absurd hi (by decide)

theorem copies_in_bounds_opening : ∃ s, fittingLts.MTr (.ok initial) opening (.ok s) ∧
    0 ≤ (s.table.connections 0).currBufClient ∧
      (s.table.connections 0).currBufClient ≤ bufferSize := by
  obtain ⟨s, h, -, hcount, hstatus, -⟩ := fitting_opening
  exact ⟨s, h, (copies_in_bounds h).2 s rfl 0 (by omega) (by simp [hstatus])⟩

/-- A read that fills the whole local buffer. -/
def fullRead : Chunk := ⟨List.replicate bufferSize 5, Nat.le_of_eq List.length_replicate⟩

theorem readCount_fullRead : readCount (some fullRead) = bufferSize := by
  simp only [readCount, fullRead, List.length_replicate]

/-- A greeting that goes on with a full buffer after its first byte overruns `clientBuf`. -/
theorem copy_fault_long_greeting :
    lts.MTr (.ok initial) (opening ++ [.handle (.reading fullRead)]) (.error .copy) := by
  obtain ⟨s, h, hphase, hcount, hstatus, hread⟩ := fitting_opening
  refine h.of_guard.append (.single (.handle ?_))
  have hlive : ((0 : Nat) : Int) < s.table.connectionsCount := by omega
  have hunfit : ¬ s.table.CopiesFit 0 (fun peer => firstReadable (fdIndex 0 peer))
      (.reading fullRead) := by
    intro hfit
    have hreads : readCount ((Answers.reading fullRead).read .client) ≠ 0 := by
      simp [Answers.reading, readCount_fullRead, bufferSize]
    have hle := (hfit ⟨hreads, .inl ⟨hstatus, rfl, rfl⟩⟩).1.2.2
    simp only [hread, Answers.reading, readCount_fullRead] at hle
    omega
  simp only [step, hphase, if_pos hlive, (Table.handle_copy_iff hlive).mpr hunfit]
  rfl

end Loop

end NetworkLabs.Proxy
