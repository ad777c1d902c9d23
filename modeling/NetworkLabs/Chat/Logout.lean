import NetworkLabs.Chat.Activity

/-! What becomes of the status of a user who has logged out, over any history of the store. -/
namespace NetworkLabs.Chat

open Transition UserStorage

variable {gen : String → String} {s t : UserStorage} {i : Nat} {u : User}

namespace UserStorage

/-- The calls of `User.check` of an operation. -/
def Operation.checks (s : UserStorage) : Operation → List Check
  | .get id now => checksUntil id now s.userList
  | .listUsers now => checksAll now s.userList
  | .create _ _ | .logout _ | .update _ _ => []

/-- The readings of the clock in an operation lie between two times, in their order. -/
def Operation.Within (start stop : Int) : Operation → Prop
  | .create _ now | .update _ now => start ≤ now ∧ now ≤ stop
  | .logout _ => start ≤ stop
  | .get _ now | .listUsers now => ∀ j k, j ≤ k → start ≤ now j ∧ now j ≤ now k ∧ now k ≤ stop

/-- The clock does not go back. -/
inductive Clocked : Int → List Operation → Prop
  | nil {start : Int} : Clocked start []
  | cons {start stop : Int} {op : Operation} {ops : List Operation} (h : op.Within start stop)
      (hops : Clocked stop ops) : Clocked start (op :: ops)

/-- `isOnline` of the user with this id. -/
def status (s : UserStorage) (i : Nat) : Option (Option Bool) := s.userList[i]?.map User.online

theorem users_checksUntil (id : Nat) (now : Nat → Int) (us : List User) :
    (checksUntil id now us).map Check.user = us.take (checksUntil id now us).length := by
  induction us generalizing now with
  | nil => rfl
  | cons u us ih =>
    unfold checksUntil
    split
    · simp
    · simp [ih]

theorem users_checksAll (now : Nat → Int) (us : List User) :
    (checksAll now us).map Check.user = us.take (checksAll now us).length := by
  apply List.ext_getElem?
  intro k
  simp [checksAll, Function.comp_def]

/-- A listing changes nothing but the users that it checks. -/
theorem listUsers_eq (s : UserStorage) (now : Nat → Int) : (s.listUsers now).userList =
    ((checksAll now s.userList).map fun c => c.user.check c.now) ++
      s.userList.drop (checksAll now s.userList).length := by
  have hlength : (checksAll now s.userList).length = s.userList.length := by simp [checksAll]
  rw [hlength, List.drop_length, List.append_nil]
  exact mapIdx_check_eq now s.userList

/-- A check at a position is one of the user there. -/
theorem getElem?_of_check {us : List User} {cs : List Check} {c : Check}
    (hcs : cs.map Check.user = us.take cs.length) (hc : cs[i]? = some c) :
    us[i]? = some c.user := by
  have hlt := (List.getElem?_eq_some_iff.mp hc).1
  rw [← List.getElem?_take_of_lt hlt, ← hcs, List.getElem?_map, hc]
  rfl

/-- In a store with these users, the one with id `i` is checked and found to have timed out, or
keeps the status. -/
theorem Represented.status_checked (hs : s.Represented gen) {cs : List Check} {b : Option Bool}
    (hcs : cs.map Check.user = s.userList.take cs.length)
    (ht : t.userList = (cs.map fun c => c.user.check c.now) ++ s.userList.drop cs.length)
    (h : s.status i = some b) :
    ((∃ c ∈ cs, c.user.id = i ∧ c.Expired) ∧ t.status i = some none) ∨
      ((∀ c ∈ cs, c.user.id = i → ¬ c.Expired) ∧ t.status i = some b) := by
  have hplace : ∀ c ∈ cs, c.user.id = i → cs[i]? = some c := by
    intro c hc hid
    obtain ⟨j, hj⟩ := List.mem_iff_getElem?.mp hc
    have hij : j = i := (hs.ids j c.user (getElem?_of_check hcs hj)).symm.trans hid
    exact hij ▸ hj
  obtain ⟨u, hu, rfl⟩ := Option.map_eq_some_iff.mp h
  cases hci : cs[i]? with
  | none =>
    have hlen : cs.length ≤ i := List.getElem?_eq_none_iff.mp hci
    refine .inr ⟨fun c hc hid => ?_, ?_⟩
    · rw [hplace c hc hid] at hci
      cases hci
    · have hrest : i - cs.length + cs.length = i := by omega
      rw [status, ht, List.getElem?_append_right (by simpa using hlen), List.length_map,
        List.getElem?_drop, Nat.add_comm, hrest, hu]
      rfl
  | some c =>
    have huser := getElem?_of_check hcs hci
    have hlt := (List.getElem?_eq_some_iff.mp hci).1
    obtain rfl : u = c.user := Option.some.inj (hu.symm.trans huser)
    have hstatus : t.status i = some (c.user.check c.now).online := by
      rw [status, ht, List.getElem?_append_left (by simpa using hlt), List.getElem?_map, hci]
      rfl
    by_cases hexpired : c.Expired
    · refine .inl ⟨⟨c, List.mem_of_getElem? hci, hs.ids i _ huser, hexpired⟩, ?_⟩
      rw [hstatus, Check.check_of_expired hexpired]
    · refine .inr ⟨fun c' hc' hid => ?_, ?_⟩
      · rw [hplace c' hc' hid] at hci
        cases hci
        exact hexpired
      · rw [hstatus, Check.check_of_not_expired hexpired]

/-- A user who is offline is found to have timed out, or stays offline. -/
theorem Represented.offline_step (hs : s.Represented gen) (op : Operation)
    (h : s.status i = some (some false)) :
    ((∃ c ∈ op.checks s, c.user.id = i ∧ c.Expired) ∧
        (s.step gen op).1.status i = some none) ∨
      ((∀ c ∈ op.checks s, c.user.id = i → ¬ c.Expired) ∧
        (s.step gen op).1.status i = some (some false)) := by
  obtain ⟨u, hu, honline⟩ := Option.map_eq_some_iff.mp h
  have hmodify : ∀ (f : User → User) (j : Nat), (f u).online = some false →
      ((s.userList.modify j f)[i]?).map User.online = some (some false) := by
    intro f j hf
    rw [List.getElem?_modify, hu]
    by_cases hji : j = i
    · simpa [hji] using hf
    · simpa [hji] using honline
  cases op with
  | create username now =>
    refine .inr ⟨by simp [Operation.checks], ?_⟩
    cases hrefuses : s.refuses username with
    | true =>
      simp only [UserStorage.step, create_refused hrefuses]
      exact h
    | false =>
      obtain ⟨t, ht, hcreate⟩ := create_accepted now hs hrefuses
      have hlt := (List.getElem?_eq_some_iff.mp hu).1
      simp only [UserStorage.step, hcreate, status]
      rw [ht.userList, List.getElem?_append_left hlt, hu]
      exact congrArg some honline
  | logout token =>
    refine .inr ⟨by simp [Operation.checks], ?_⟩
    simp only [UserStorage.step, UserStorage.logout]
    split
    · exact hmodify User.setOffline _ rfl
    · exact h
  | get id now =>
    exact hs.status_checked (users_checksUntil id now s.userList)
      (checkUntil_eq id now s.userList) h
  | listUsers now =>
    exact hs.status_checked (users_checksAll now s.userList) (listUsers_eq s now) h
  | update token now =>
    refine .inr ⟨by simp [Operation.checks], ?_⟩
    simp only [UserStorage.step, UserStorage.update]
    split
    · exact hmodify (fun u => u.update now) _ honline
    · exact h

/-- The accounts stay where they are, and none of them comes online again. -/
def Later (s t : UserStorage) : Prop :=
  ∀ (i : Nat) (u : User), s.userList[i]? = some u → ∃ v, t.userList[i]? = some v ∧ u.Renewed v

theorem later_refl (s : UserStorage) : s.Later s := by
  intro i u hu
  exact ⟨u, hu, u.renewed_refl⟩

theorem Later.trans {t' : UserStorage} (h : s.Later t) (h' : t.Later t') : s.Later t' := by
  intro i u hu
  obtain ⟨v, hv, huv⟩ := h i u hu
  obtain ⟨w, hw, hvw⟩ := h' i v hv
  exact ⟨w, hw, hvw.id.trans huv.id, hvw.username.trans huv.username,
    fun honline => huv.online (hvw.online honline)⟩

theorem Represented.later_step (hs : s.Represented gen) (op : Operation) :
    s.Later (s.step gen op).1 := by
  intro i u hu
  rcases step_cases hs op with ⟨username, now, t, -, -, ht, hstep⟩ | ⟨-, t, ht, hstep⟩
  · have hlt := (List.getElem?_eq_some_iff.mp hu).1
    rw [hstep, ht.userList, List.getElem?_append_left hlt]
    exact ⟨u, hu, u.renewed_refl⟩
  · rw [hstep]
    exact User.exists_right ht.users hu

end UserStorage

namespace History

/-- `delete` was called for the user with id `i`. -/
def LoggedOut (gen : String → String) (ops : List Operation) (i : Nat) : Prop :=
  ∃ xs token, xs ++ [.logout token] <+: ops ∧ (after gen xs).users.checkToken token = some i

/-- Everybody who has logged out is offline. -/
def Offline (gen : String → String) (ops : List Operation) : Prop :=
  ∀ i, LoggedOut gen ops i → (after gen ops).users.status i = some (some false)

variable {ops : List Operation} {op : Operation}

theorem loggedOut_concat : LoggedOut gen (ops ++ [op]) i ↔ LoggedOut gen ops i ∨
    ∃ token, op = .logout token ∧ (after gen ops).users.checkToken token = some i := by
  constructor
  · rintro ⟨xs, token, hpre, hcheck⟩
    rcases List.prefix_concat_iff.mp hpre with heq | hpre
    · obtain ⟨rfl, hop⟩ := List.append_inj' heq rfl
      exact .inr ⟨token, (List.singleton_inj.mp hop).symm, hcheck⟩
    · exact .inl ⟨xs, token, hpre, hcheck⟩
  · rintro (⟨xs, token, hpre, hcheck⟩ | ⟨token, rfl, hcheck⟩)
    · exact ⟨xs, token, hpre.trans (List.prefix_append ops [op]), hcheck⟩
    · exact ⟨ops, token, List.prefix_rfl, hcheck⟩

/-- `delete` marks the user. -/
theorem status_logout (hs : s.Represented gen) {token : String}
    (h : s.checkToken token = some i) : (s.logout token).status i = some (some false) := by
  obtain ⟨-, u, hu, -⟩ := checkToken_spec hs h
  simp only [UserStorage.logout, h, UserStorage.delete, status]
  rw [List.getElem?_modify_eq, hu]
  rfl

theorem later_after (gen : String → String) (ops ops' : List Operation) :
    (after gen ops).users.Later (after gen (ops ++ ops')).users := by
  induction ops' using List.reverseRecOn with
  | nil =>
    rw [List.append_nil]
    exact later_refl _
  | append_singleton ops' op ih =>
    rw [← List.append_assoc, after_append_singleton]
    exact ih.trans ((represented_after gen (ops ++ ops')).later_step op)

/-- Whoever has logged out never comes online again. -/
theorem not_online_of_loggedOut (h : LoggedOut gen ops i) :
    (after gen ops).users.status i ≠ some (some true) := by
  obtain ⟨xs, token, ⟨ops', rfl⟩, hcheck⟩ := h
  have hout : (after gen (xs ++ [.logout token])).users.status i = some (some false) := by
    rw [after_append_singleton]
    exact status_logout (represented_after gen xs) hcheck
  obtain ⟨u, hu, honline⟩ := Option.map_eq_some_iff.mp hout
  obtain ⟨v, hv, huv⟩ := later_after gen (xs ++ [.logout token]) ops' i u hu
  intro hback
  have hv' : v.online = some true := by
    rw [status, hv] at hback
    exact Option.some.inj hback
  rw [huv.online hv'] at honline
  cases honline

theorem offline_step_iff (h : Offline gen ops) : Offline gen (ops ++ [op]) ↔
    ∀ c ∈ op.checks (after gen ops).users, LoggedOut gen ops c.user.id → ¬ c.Expired := by
  have hs := represented_after gen ops
  unfold Offline
  rw [after_append_singleton]
  constructor
  · intro hoffline c hc hout hexpired
    have hstay := hoffline c.user.id (loggedOut_concat.mpr (.inl hout))
    rcases hs.offline_step op (h c.user.id hout) with ⟨-, hnull⟩ | ⟨hnone, -⟩
    · have hsame : some none = some (some false) := hnull.symm.trans hstay
      cases hsame
    · exact hnone c hc rfl hexpired
  · intro hnone i hout
    rcases loggedOut_concat.mp hout with hout | ⟨token, rfl, hcheck⟩
    · rcases hs.offline_step op (h i hout) with ⟨⟨c, hc, rfl, hexpired⟩, -⟩ | ⟨-, hstay⟩
      · exact absurd hexpired (hnone c hc hout)
      · exact hstay
    · exact status_logout hs hcheck

/-- Through a history everybody who has logged out stays offline, if and only if no operation
checks one of them more than the timeout after the last time that was taken for the account. -/
theorem offline_iff (gen : String → String) (ops : List Operation) :
    Always (Offline gen) ops ↔ ∀ ys op, ys ++ [op] <+: ops →
      ∀ c ∈ op.checks (after gen ys).users, LoggedOut gen ys c.user.id → ¬ c.Expired := by
  apply always_iff_of_step
  · rintro i ⟨xs, token, hpre, -⟩
    simp at hpre
  · intro ys op hys
    exact offline_step_iff hys

/-- A user logs in and out, and a minute later another one logs in and lists the users. -/
def listAfterLogout : List Operation :=
  [.create "a" 0, .logout (tokenOfA "a"), .create "b" 60001, .listUsers fun _ => 60001]

theorem clocked_listAfterLogout : Clocked 0 listAfterLogout := by
  have hlist : Clocked 60001 [.listUsers fun _ => 60001] :=
    .cons (fun _ _ _ => ⟨Int.le_refl _, Int.le_refl _, Int.le_refl 60001⟩) .nil
  have hlogin : Clocked 0 [.create "b" 60001, .listUsers fun _ => 60001] :=
    .cons ⟨by decide, Int.le_refl 60001⟩ hlist
  have hlogout : Clocked 0 (.logout (tokenOfA "a") :: [.create "b" 60001,
      .listUsers fun _ => 60001]) := .cons (Int.le_refl 0) hlogin
  exact .cons ⟨Int.le_refl 0, Int.le_refl 0⟩ hlogout

/-- The listing reports the first user as timed out. -/
theorem not_offline_listAfterLogout : ¬ ∀ gen ops start, Clocked start ops →
    Always (Offline gen) ops := by
  intro h
  have hoffline := h tokenOfA listAfterLogout 0 clocked_listAfterLogout _ List.prefix_rfl 0
    ⟨[.create "a" 0], tokenOfA "a", ⟨_, rfl⟩, by decide⟩
  exact absurd hoffline (by decide)

end History

end NetworkLabs.Chat
