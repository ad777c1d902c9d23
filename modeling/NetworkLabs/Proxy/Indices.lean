import NetworkLabs.Proxy.Bounds

/-! The number of connections, and the indices that the loop makes of it. -/
namespace NetworkLabs.Proxy

open Transition

namespace Table

open Connection

variable {s t : Table} {i : Nat} {rev : Peer → Revents} {ans : Answers} {es : List Event}
  {r : Fate × List Event}

/-- The only connection is dropped for its version or command, and then once more for what the
rest of its request comes to. -/
def DropsTwice (s : Table) (i : Nat) (rev : Peer → Revents) (ans : Answers) : Prop :=
  s.connectionsCount = 1 ∧ s.AtRequest i rev ∧ readCount (ans.read .client) ≠ 0 ∧
    (s.connections i).ReadFits ans ∧ ((s.connections i).appended ans).rejected = true ∧
      ¬ ((s.connections i).appended ans).Waiting ∧ ¬ ((s.connections i).appended ans).Served ans ∧
        ((s.connections i).appended ans).NameFits

theorem commit_count (hs : 0 ≤ s.connectionsCount) (h : s.commit i r = .ok (t, es)) :
    0 ≤ t.connectionsCount ∧ t.connectionsCount ≤ s.connectionsCount := by
  refine ⟨?_, (commit_frame h).2⟩
  rcases r with ⟨_ | ⟨c, server⟩, es'⟩
  · cases h
    exact hs
  · by_cases hpos : 0 < s.connectionsCount
    · rw [commit_drop server hpos] at h
      cases h
      simp only [vacated]
      omega
    · rw [commit_drop_empty server (Int.not_lt.mp hpos)] at h
      cases h

theorem commit_ne_index (hs : 0 < s.connectionsCount) : s.commit i r ≠ .error .index := by
  rcases r with ⟨_ | ⟨c, server⟩, es'⟩
  · simp [commit_stay]
  · simp [commit_drop server hs]

/-- After the drop of a rejected request, a second one leaves the table if it was the last. -/
theorem commit_vacated_index_iff {c : Connection} (hs : 0 < s.connectionsCount) :
    (s.vacated i c).commit i r = .error .index ↔
      s.connectionsCount = 1 ∧ ∃ d server, r.1 = .drop d server := by
  rcases r with ⟨d | ⟨d, server⟩, es'⟩
  · simp [commit_stay]
  · by_cases hpos : 0 < (s.vacated i c).connectionsCount
    · rw [commit_drop server hpos]
      simp only [vacated] at hpos
      simp
      omega
    · rw [commit_drop_empty server (Int.not_lt.mp hpos)]
      simp only [vacated] at hpos
      simp
      omega

theorem parse_drop_iff {c : Connection} (h : c.parseRequest ans = .ok r) :
    (∃ d server, r.1 = .drop d server) ↔ ¬ c.Waiting ∧ ¬ c.Served ans ∧ c.NameFits := by
  have hparsed := parsed_parseRequest c ans
  rw [h] at hparsed
  cases hparsed with
  | waiting hw => simp [hw]
  | served hs => simp [hs]
  | refused hw hs hn => simp [hw, hs, hn]

theorem request_index_iff (hi : (i : Int) < s.connectionsCount) :
    s.request i ans = .error .index ↔ s.connectionsCount = 1 ∧ readCount (ans.read .client) ≠ 0 ∧
      (s.connections i).ReadFits ans ∧ ((s.connections i).appended ans).rejected = true ∧
        ¬ ((s.connections i).appended ans).Waiting ∧ ¬ ((s.connections i).appended ans).Served ans ∧
          ((s.connections i).appended ans).NameFits := by
  have hs : 0 < s.connectionsCount := by omega
  by_cases h0 : readCount (ans.read .client) = 0
  · simp [request_eof h0, commit_ne_index hs, h0]
  by_cases hf : (s.connections i).ReadFits ans
  swap
  · simp [request_of_not_fits h0 hf, hf]
  cases hr : ((s.connections i).appended ans).rejected with
  | false =>
    rw [request_of_accepted h0 hf hr]
    cases ((s.connections i).appended ans).parseRequest_ok_or ans with
    | inl h =>
      obtain ⟨-, r, hp⟩ := h
      simp [hp, Except.bind, commit_ne_index hs]
    | inr h => simp [h.2, Except.bind]
  | true =>
    rw [request_of_rejected hs h0 hf hr]
    have hsucc : s.connectionsCount = 1 →
        s.successor i ((s.connections i).appended ans) = (s.connections i).appended ans :=
      fun h1 => if_pos (by omega)
    rcases (s.successor i ((s.connections i).appended ans)).parseRequest_ok_or ans with
      ⟨-, r, hp⟩ | ⟨hn, hp⟩
    · have hmap : ∀ x : Stepped, (x.map fun u => (u.1, [(s.connections i).readEvent .client ans,
          .reply (s.connections i).clientSocket (errorReply 7),
          .close (s.connections i).clientSocket] ++ u.2)) = .error .index ↔ x = .error .index := by
        intro x
        cases x <;> simp [Except.map]
      simp only [hp, Except.bind, hmap, commit_vacated_index_iff hs, parse_drop_iff hp]
      constructor
      · rintro ⟨h1, h⟩
        exact ⟨h1, h0, hf, trivial, hsucc h1 ▸ h⟩
      · rintro ⟨h1, -, -, -, h⟩
        exact ⟨h1, (hsucc h1).symm ▸ h⟩
    · simp only [hp, Except.bind, Except.error.injEq, reduceCtorEq, false_iff]
      rintro ⟨h1, -, -, -, -, -, hfits⟩
      exact hn ((hsucc h1).symm ▸ hfits)

/-- The table is left at its lower end exactly where its only connection is dropped twice. -/
theorem handle_index_iff (hi : (i : Int) < s.connectionsCount) :
    s.handle i rev ans = .error .index ↔ s.DropsTwice i rev ans := by
  by_cases hreq : s.AtRequest i rev
  · rw [handle_of_atRequest hreq, request_index_iff hi]
    simp [DropsTwice, hreq]
  · rw [handle_of_not_atRequest hreq]
    refine iff_of_false ?_ fun h => hreq h.2.1
    rcases (s.connections i).handled_ok_or rev ans with ⟨-, r, hr⟩ | ⟨-, hr⟩
    · simp [hr, Except.bind, commit_ne_index (s := s) (i := i) (r := r) (by omega)]
    · simp [hr, Except.bind]

theorem handle_count (hi : (i : Int) < s.connectionsCount) (h : s.handle i rev ans = .ok (t, es)) :
    0 ≤ t.connectionsCount := by
  by_cases hreq : s.AtRequest i rev
  · rw [handle_of_atRequest hreq] at h
    cases requested_of_ok (by omega) h with
    | eof _ hc => exact (commit_count (by omega) hc).1
    | accepted _ _ _ hc => exact (commit_count (by omega) hc).1
    | rejected _ _ _ hc _ =>
      refine (commit_count ?_ hc).1
      simp only [vacated]
      omega
  · obtain ⟨r, -, hc⟩ := handled_of_handle hreq h
    exact (commit_count (by omega) hc).1

end Table

namespace Loop

variable {s t : Loop} {a : Action} {r : Except Fault Loop} {xs : List Action}

/-- No connection is accepted into a full table, and the only one is not dropped twice. -/
def Roomy : Except Fault Loop → Action → Prop
  | .ok s, .handle ans =>
    match s.phase with
    | .scanning i fds => (i : Int) < s.table.connectionsCount →
        ¬ s.table.DropsTwice i (fun peer => fds (fdIndex i peer)) ans
    | _ => True
  | .ok s, .accept socket _ =>
    match s.phase with
    | .accepting fds => (fds (2 * s.table.connectionsCount.toNat)).pollin &&
        !(fds (2 * s.table.connectionsCount.toNat)).pollhup && socket ≠ -1 →
        s.table.connectionsCount < maxConnections
    | _ => True
  | _, _ => True

def Counted (s : Loop) : Prop :=
  0 ≤ s.table.connectionsCount ∧ s.table.connectionsCount ≤ maxConnections

/-- The count is in its range, and with it every index into `connections` and into the array
for `poll`: those of the connections, and the two behind them. -/
structure InRange (s : Loop) : Prop where
  count : s.Counted
  connections : ∀ i : Nat, (i : Int) < s.table.connectionsCount → (i : Int) < maxConnections
  fds : ∀ (i : Nat) (peer : Peer), (i : Int) < s.table.connectionsCount →
    (fdIndex i peer : Int) < 2 * maxConnections + 2
  behind : 2 * s.table.connectionsCount + 1 < 2 * maxConnections + 2

/-- No index has left the table, and the count is in its range. -/
def NoIndexFault (r : Except Fault Loop) : Prop := r ≠ .error .index ∧ ∀ s, r = .ok s → s.Counted

theorem counted_handle {ans : Answers} (hc : Roomy (.ok s) (.handle ans)) (hs : s.Counted)
    (h : s.step (.handle ans) = some r) : NoIndexFault r := by
  simp only [step] at h
  split at h
  case h_2 => cases h
  case h_1 i fds hphase =>
  split at h
  case isFalse =>
    cases h
    exact ⟨by simp, by rintro t ⟨⟩; exact hs⟩
  case isTrue hi =>
  simp only [Roomy, hphase] at hc
  cases h
  cases hhandle : s.table.handle i (fun peer => fds (fdIndex i peer)) ans with
  | error e =>
    refine ⟨?_, by simp [Except.map]⟩
    rintro ⟨⟩
    exact hc hi ((Table.handle_index_iff hi).mp hhandle)
  | ok u =>
    refine ⟨by simp [Except.map], ?_⟩
    rintro t ⟨⟩
    have hcount := (Table.handle_frame hi hhandle).2
    exact ⟨Table.handle_count hi hhandle, Int.le_trans hcount hs.2⟩

theorem counted_accept {socket id : Int} (hc : Roomy (.ok s) (.accept socket id)) (hs : s.Counted)
    (h : s.step (.accept socket id) = some r) : NoIndexFault r := by
  simp only [step] at h
  split at h
  case h_2 => cases h
  case h_1 fds hphase =>
  simp only [Roomy, hphase] at hc
  split at h
  case isFalse =>
    cases h
    exact ⟨by simp, by rintro t ⟨⟩; exact hs⟩
  case isTrue hready =>
  have hroom : 0 ≤ s.table.connectionsCount ∧ s.table.connectionsCount < maxConnections :=
    ⟨hs.1, hc hready⟩
  simp only [Table.accept, if_pos hroom, Except.map, Option.some.injEq] at h
  subst h
  refine ⟨by simp, ?_⟩
  rintro t ⟨⟩
  simp only [Counted]
  omega

theorem noIndexFault_trInv : (lts.guard Roomy).TrInv NoIndexFault := by
  rintro s a t ⟨htr, hc⟩ hs
  cases htr with
  | poll _ h | pollError h =>
    have hcount := hs.2 _ rfl
    simp only [step] at h
    split at h <;> cases h
    exact ⟨by simp, by rintro t ⟨⟩; exact hcount⟩
  | handle h => exact counted_handle hc (hs.2 _ rfl) h
  | accept h => exact counted_accept hc (hs.2 _ rfl) h

theorem Counted.inRange (h : s.Counted) : s.InRange := by
  obtain ⟨hlower, hupper⟩ := h
  unfold maxConnections at hupper
  refine ⟨⟨hlower, hupper⟩, ?_, ?_, ?_⟩
  · intro i hi
    unfold maxConnections
    omega
  · intro i peer hi
    unfold maxConnections
    cases peer <;> simp only [fdIndex] <;> omega
  · unfold maxConnections
    omega

/-- As long as the table has room for every accepted connection and its only one is not dropped
twice, the count and all indices stay in their ranges. -/
theorem indices_in_range (h : (lts.guard Roomy).MTr (.ok initial) xs r) :
    r ≠ .error .index ∧ ∀ s, r = .ok s → s.InRange := by
  have hinitial : NoIndexFault (.ok initial) := by
    refine ⟨by simp, ?_⟩
    rintro s ⟨⟩
    exact ⟨by decide, by decide⟩
  have hsafe := LTS.mTr_of_trInv noIndexFault_trInv h hinitial
  exact ⟨hsafe.1, fun s hs => (hsafe.2 s hs).inRange⟩

theorem roomy_opening : ∃ s, (lts.guard Roomy).MTr (.ok initial) opening (.ok s) ∧
    s.table.connectionsCount = 1 := by
  have hfew : ∀ {s : Table} {i : Nat} {rev : Peer → Revents} {ans : Answers},
      ¬ s.AtRequest i rev → ¬ s.DropsTwice i rev ans := fun h h' => h h'.2.1
  refine ⟨_, .stepL ⟨.poll (reported_firstReadable (by decide) rfl) rfl, trivial⟩
    (.stepL ⟨.handle rfl, fun _ => hfew ?_⟩ (.stepL ⟨.accept rfl, fun _ => by decide⟩
      (.stepL ⟨.poll (reported_firstReadable (by decide) rfl) rfl, trivial⟩
        (.stepL ⟨.handle rfl, fun _ => hfew ?_⟩ (.stepL ⟨.handle rfl, fun _ => hfew ?_⟩
          (.stepL ⟨.accept rfl, fun _ => by decide⟩
            (.stepL ⟨.poll (reported_firstReadable (by decide) rfl) rfl, trivial⟩ .refl))))))), rfl⟩
  all_goals
    intro h
    cases h.1

theorem indices_in_range_opening : ∃ s, (lts.guard Roomy).MTr (.ok initial) opening (.ok s) ∧
    s.table.connectionsCount = 1 ∧ s.InRange := by
  obtain ⟨s, h, hcount⟩ := roomy_opening
  exact ⟨s, h, hcount, (indices_in_range h).2 s rfl⟩

/-- Only the first client is writable. -/
def firstWritable (k : Nat) : Revents := ⟨false, k = 0, false⟩

theorem reported_first {s : Table} {fds : Nat → Revents} (hs : s.connectionsCount ≤ 1)
    (h : (s.connections 0).Polled fun peer => fds (fdIndex 0 peer)) : Reported s fds := by
  intro i peer hi
  obtain rfl : i = 0 := by omega
  exact h peer

/-- A client is accepted, sends its greeting and then a request of version 4. -/
def versionFour : List Action :=
  [.poll firstReadable, .handle (.reading ⟨[], Chunk.nil_fits⟩), .accept 4 1000,
    .poll firstReadable, .handle (.reading ⟨[5, 1, 0], Chunk.greeting_fits⟩),
    .handle (.reading ⟨[], Chunk.nil_fits⟩), .accept (-1) 0,
    .poll firstWritable, .handle (.reading ⟨[], Chunk.nil_fits⟩),
    .handle (.reading ⟨[], Chunk.nil_fits⟩),
    .accept (-1) 0, .poll firstReadable, .handle (.reading ⟨[4, 1, 0, 0, 0], by decide⟩)]

/-- It is dropped for its version and again for its address type, the second time out of an
empty table. -/
theorem index_fault_versionFour : lts.MTr (.ok initial) versionFour (.error .index) := by
  refine .stepL (.poll (reported_firstReadable (by decide) rfl) rfl) (.stepL (.handle rfl)
    (.stepL (.accept rfl) (.stepL (.poll (reported_firstReadable (by decide) rfl) rfl)
      (.stepL (.handle rfl) (.stepL (.handle rfl) (.stepL (.accept rfl)
        (.stepL (.poll (reported_first (by decide) ?_) rfl)
        (.stepL (.handle rfl) (.stepL (.handle rfl)
          (.stepL (.accept rfl) (.stepL (.poll (reported_first (by decide) ?_) rfl)
            (.stepL (.handle rfl) .refl))))))))))))
  · intro peer
    cases peer <;> decide
  · intro peer
    cases peer <;> decide

end Loop

end NetworkLabs.Proxy
