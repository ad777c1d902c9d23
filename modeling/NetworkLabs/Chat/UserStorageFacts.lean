import NetworkLabs.Chat.UserStorage

/-! What holds of the store after any operations, and what one operation does. -/
namespace NetworkLabs.Chat

/-- The same account, and it did not come online. -/
structure User.Renewed (u v : User) : Prop where
  id : v.id = u.id
  username : v.username = u.username
  online : v.online = some true → u.online = some true

namespace User

theorem renewed_refl (u : User) : u.Renewed u := ⟨rfl, rfl, fun h => h⟩

theorem renewed_check (u : User) (now : Int) : u.Renewed (u.check now) := by
  unfold check
  split
  · exact ⟨rfl, rfl, nofun⟩
  · exact renewed_refl u

theorem renewed_update (u : User) (now : Int) : u.Renewed (u.update now) := ⟨rfl, rfl, fun h => h⟩

theorem renewed_setOffline (u : User) : u.Renewed u.setOffline := ⟨rfl, rfl, nofun⟩

theorem forall₂_refl (us : List User) : List.Forall₂ Renewed us us := by
  induction us with
  | nil => exact .nil
  | cons u us ih => exact .cons (renewed_refl u) ih

theorem exists_left {us vs : List User} (h : List.Forall₂ Renewed us vs) {i : Nat} {v : User}
    (hv : vs[i]? = some v) : ∃ u, us[i]? = some u ∧ u.Renewed v := by
  induction h generalizing i with
  | nil => simp at hv
  | @cons u v' us vs huv _ ih =>
    cases i with
    | zero =>
      cases hv
      exact ⟨u, rfl, huv⟩
    | succ i => exact ih hv

theorem exists_right {us vs : List User} (h : List.Forall₂ Renewed us vs) {i : Nat} {u : User}
    (hu : us[i]? = some u) : ∃ v, vs[i]? = some v ∧ u.Renewed v := by
  induction h generalizing i with
  | nil => simp at hu
  | @cons u' v us vs huv _ ih =>
    cases i with
    | zero =>
      cases hu
      exact ⟨v, rfl, huv⟩
    | succ i => exact ih hu

theorem forall₂_modify {f : User → User} (hf : ∀ u : User, u.Renewed (f u)) (us : List User)
    (i : Nat) :
    List.Forall₂ Renewed us (us.modify i f) := by
  induction us generalizing i with
  | nil => simp
  | cons u us ih =>
    cases i with
    | zero => exact .cons (hf u) (forall₂_refl us)
    | succ i => exact .cons (renewed_refl u) (ih i)

theorem forall₂_checkUntil (id : Nat) (now : Nat → Int) (us : List User) :
    List.Forall₂ Renewed us (UserStorage.checkUntil id now us) := by
  induction us generalizing now with
  | nil => exact .nil
  | cons u us ih =>
    unfold UserStorage.checkUntil
    split
    · exact .cons (renewed_check u _) (forall₂_refl us)
    · exact .cons (renewed_check u _) (ih _)

theorem forall₂_mapIdx_check (now : Nat → Int) (us : List User) :
    List.Forall₂ Renewed us (us.mapIdx fun k u => u.check (now k)) := by
  induction us generalizing now with
  | nil => exact .nil
  | cons u us ih =>
    rw [List.mapIdx_cons]
    exact .cons (renewed_check u _) (ih _)

end User

namespace UserStorage

variable {gen : String → String} {s t : UserStorage}

/-- The user at position `i` has id `i`, and every token belongs to a user whose name
generates it. -/
structure Represented (gen : String → String) (s : UserStorage) : Prop where
  currID : s.currID = s.userList.length
  ids : ∀ (i : Nat) (u : User), s.userList[i]? = some u → u.id = i
  tokens : ∀ token id, s.tokenMap.lookup token = some id →
    ∃ u : User, s.userList[id]? = some u ∧ gen u.username = token

theorem lookup_of_find? {p : (Sigma fun _ : String => Nat) → Bool}
    {entry : Sigma fun _ : String => Nat}
    (h : s.tokenMap.entries.find? p = some entry) : s.tokenMap.lookup entry.1 = some entry.2 :=
  AList.mem_lookup_iff.mpr (List.mem_of_find?_eq_some h)

theorem lookup_of_removeToken {user : User} {token : String} {id : Nat}
    (h : (s.removeToken user).tokenMap.lookup token = some id) :
    s.tokenMap.lookup token = some id := by
  unfold removeToken at h
  split at h
  · rename_i entry _
    by_cases hk : token = entry.1
    · subst hk
      simp at h
    · rwa [AList.lookup_erase_ne hk] at h
  · exact h

/-- Tokens of other users are not removed. -/
theorem lookup_removeToken {user : User} {token : String} {id : Nat} (hid : id ≠ user.id)
    (h : s.tokenMap.lookup token = some id) :
    (s.removeToken user).tokenMap.lookup token = some id := by
  unfold removeToken
  split
  · rename_i entry hentry
    have hvalue : user.id = entry.2 := by simpa using List.find?_some hentry
    have hk : token ≠ entry.1 := by
      rintro rfl
      rw [lookup_of_find? hentry] at h
      exact hid ((Option.some.inj h).symm.trans hvalue.symm)
    rwa [AList.lookup_erase_ne hk]
  · exact h

/-- The first account of the name is online. -/
def refuses (s : UserStorage) (username : String) : Bool :=
  match s.userList.find? fun user => user.username = username with
  | some user => user.online = some true
  | none => false

/-- What a login that is not refused does. -/
structure Accepted (gen : String → String) (s : UserStorage) (username : String) (now : Int)
    (t : UserStorage) : Prop where
  userList : t.userList = s.userList ++ [User.create s.currID username now]
  currID : t.currID = s.currID + 1
  new : t.tokenMap.lookup (gen username) = some s.currID
  old : ∀ token id, token ≠ gen username → t.tokenMap.lookup token = some id →
    s.tokenMap.lookup token = some id
  kept : ∀ token, ∀ u ∈ s.userList, token ≠ gen username → u.online = some true →
    s.tokenMap.lookup token = some u.id → t.tokenMap.lookup token = some u.id

theorem create_refused {username : String} {now : Int} (h : s.refuses username = true) :
    s.create gen username now = (s, none) := by
  unfold refuses at h
  unfold create
  cases hfind : s.userList.find? fun user => user.username = username with
  | none => simp [hfind] at h
  | some user =>
    simp only [hfind, decide_eq_true_eq] at h
    simp only [h]

/-- The accounts with one id are one account. -/
theorem Represented.eq_of_id (hs : s.Represented gen) {u v : User} (hu : u ∈ s.userList)
    (hv : v ∈ s.userList) (h : u.id = v.id) : u = v := by
  obtain ⟨i, hi⟩ := List.mem_iff_getElem?.mp hu
  obtain ⟨j, hj⟩ := List.mem_iff_getElem?.mp hv
  have hij : i = j := (hs.ids i u hi).symm.trans (h.trans (hs.ids j v hj))
  subst hij
  exact Option.some.inj (hi.symm.trans hj)

theorem accepted_add {username : String} {now : Int} {s' : UserStorage}
    (hlist : s'.userList = s.userList) (hcurr : s'.currID = s.currID)
    (hold : ∀ token id, s'.tokenMap.lookup token = some id → s.tokenMap.lookup token = some id)
    (hkept : ∀ token, ∀ u ∈ s.userList, u.online = some true →
      s.tokenMap.lookup token = some u.id → s'.tokenMap.lookup token = some u.id) :
    Accepted gen s username now (s'.add gen username now).1 := by
  refine ⟨?_, ?_, ?_, ?_, ?_⟩
  · simp only [add, hlist, hcurr]
  · simp only [add, hcurr]
  · simp only [add, AList.lookup_insert, hcurr]
  · intro token id hne h
    simp only [add, AList.lookup_insert_ne hne] at h
    exact hold token id h
  · intro token u hu hne honline h
    simp only [add, AList.lookup_insert_ne hne]
    exact hkept token u hu honline h

theorem create_accepted {username : String} (now : Int) (hs : s.Represented gen)
    (h : s.refuses username = false) : ∃ t, Accepted gen s username now t ∧
      s.create gen username now = (t, some ⟨s.currID, username, some true, gen username⟩) := by
  unfold refuses at h
  unfold create
  cases hfind : s.userList.find? fun user => user.username = username with
  | none => exact ⟨_, accepted_add rfl rfl (fun _ _ h => h) (fun _ _ _ _ h => h), rfl⟩
  | some user =>
    simp only [hfind, decide_eq_false_iff_not] at h
    have hlist : (s.removeToken user).userList = s.userList := by
      unfold removeToken
      split <;> rfl
    have hcurr : (s.removeToken user).currID = s.currID := by
      unfold removeToken
      split <;> rfl
    have haccepted : Accepted gen s username now ((s.removeToken user).add gen username now).1 := by
      refine accepted_add hlist hcurr (fun _ _ => lookup_of_removeToken) ?_
      intro token u hu honline
      refine lookup_removeToken fun hid => h ?_
      rw [← hs.eq_of_id hu (List.mem_of_find?_eq_some hfind) hid, honline]
    refine ⟨_, haccepted, ?_⟩
    cases honline : user.online with
    | none => simp only [honline, add, User.create, hcurr]
    | some b =>
      cases b with
      | true => exact absurd honline h
      | false => simp only [honline, add, User.create, hcurr]

/-- What every other operation does: accounts stay where they are and none comes online, and
no token is lost but by a user who is not online afterwards. -/
structure Kept (s t : UserStorage) : Prop where
  users : List.Forall₂ User.Renewed s.userList t.userList
  currID : t.currID = s.currID
  old : ∀ token id, t.tokenMap.lookup token = some id → s.tokenMap.lookup token = some id
  kept : ∀ token, ∀ v ∈ t.userList, v.online = some true →
    s.tokenMap.lookup token = some v.id → t.tokenMap.lookup token = some v.id

theorem kept_of_users {us : List User} (h : List.Forall₂ User.Renewed s.userList us) :
    Kept s { s with userList := us } :=
  ⟨h, rfl, fun _ _ h => h, fun _ _ _ _ h => h⟩

theorem kept_update (token : String) (now : Int) : Kept s (s.update token now) := by
  unfold update
  split
  · exact kept_of_users (User.forall₂_modify (fun u => u.renewed_update now) _ _)
  · exact kept_of_users (User.forall₂_refl _)

theorem checkToken_spec (hs : s.Represented gen) {token : String} {i : Nat}
    (h : s.checkToken token = some i) : s.tokenMap.lookup token = some i ∧
      ∃ u : User, s.userList[i]? = some u ∧ u.id = i ∧ gen u.username = token := by
  obtain ⟨id, hid, hfind⟩ := Option.bind_eq_some_iff.mp h
  obtain ⟨u, hu, htoken⟩ := hs.tokens token id hid
  obtain ⟨hlt, hmatch, -⟩ := List.findIdx?_eq_some_iff_getElem.mp hfind
  have hi : s.userList[i]? = some s.userList[i] := List.getElem?_eq_getElem hlt
  have hids : id = i := (of_decide_eq_true hmatch).symm.trans (hs.ids i _ hi)
  subst hids
  exact ⟨hid, u, hu, hs.ids _ u hu, htoken⟩

theorem kept_logout (hs : s.Represented gen) (token : String) : Kept s (s.logout token) := by
  unfold logout
  cases hcheck : s.checkToken token with
  | none => exact kept_of_users (User.forall₂_refl _)
  | some i =>
    obtain ⟨hlookup, -⟩ := checkToken_spec hs hcheck
    refine ⟨User.forall₂_modify User.renewed_setOffline _ _, rfl, ?_, ?_⟩
    · intro token' id h
      by_cases hne : token' = token
      · subst hne
        simp [delete] at h
      · simp only [delete, AList.lookup_erase_ne hne] at h
        exact h
    · intro token' v hv honline h
      have hne : token' ≠ token := by
        rintro rfl
        have hid : v.id = i := Option.some.inj (h.symm.trans hlookup)
        obtain ⟨j, hj⟩ := List.mem_iff_getElem?.mp hv
        simp only [delete, List.getElem?_modify] at hj
        obtain ⟨u, hu, rfl⟩ := Option.map_eq_some_iff.mp hj
        have hij := hs.ids j u hu
        by_cases hji : i = j
        · simp [hji, User.setOffline] at honline
        · simp only [hji, if_false] at hid
          exact hji (hid.symm.trans hij)
      simp only [delete, AList.lookup_erase_ne hne]
      exact h

/-- An operation is a login that is accepted, or keeps the store as it is but for who is online. -/
theorem step_cases (hs : s.Represented gen) (op : Operation) :
    (∃ username now t, op = .create username now ∧ s.refuses username = false ∧
      Accepted gen s username now t ∧
        s.step gen op = (t, some ⟨s.currID, username, some true, gen username⟩)) ∨
    ((∀ username now, op = .create username now → s.refuses username = true) ∧
      ∃ t, Kept s t ∧ s.step gen op = (t, none)) := by
  cases op with
  | create username now =>
    cases hrefuses : s.refuses username with
    | false =>
      obtain ⟨t, ht, hstep⟩ := create_accepted now hs hrefuses
      exact .inl ⟨username, now, t, rfl, hrefuses, ht, hstep⟩
    | true =>
      refine .inr ⟨?_, s, kept_of_users (User.forall₂_refl _), create_refused hrefuses⟩
      rintro _ _ ⟨⟩
      exact hrefuses
  | logout token => exact .inr ⟨nofun, _, kept_logout hs token, rfl⟩
  | get id now => exact .inr ⟨nofun, _, kept_of_users (User.forall₂_checkUntil id now _), rfl⟩
  | listUsers now => exact .inr ⟨nofun, _, kept_of_users (User.forall₂_mapIdx_check now _), rfl⟩
  | update token now => exact .inr ⟨nofun, _, kept_update token now, rfl⟩

theorem represented_empty : Represented gen empty := ⟨rfl, by simp [empty], by simp [empty]⟩

theorem Accepted.represented {username : String} {now : Int} (h : Accepted gen s username now t)
    (hs : s.Represented gen) : t.Represented gen := by
  refine ⟨?_, ?_, ?_⟩
  · simp only [h.currID, h.userList, List.length_append, List.length_singleton, hs.currID]
  · intro i u hu
    rw [h.userList, List.getElem?_append] at hu
    split at hu
    · exact hs.ids i u hu
    · rename_i hlt
      have hi : i = s.userList.length := by
        have := List.getElem?_eq_some_iff.mp hu
        simp at this
        omega
      simp only [hi, Nat.sub_self, List.getElem?_cons_zero, Option.some.injEq] at hu
      rw [← hu, hi, ← hs.currID]
      rfl
  · intro token id hid
    by_cases hne : token = gen username
    · subst hne
      have hcurr : s.currID = id := Option.some.inj (h.new.symm.trans hid)
      refine ⟨User.create s.currID username now, ?_, rfl⟩
      rw [h.userList, ← hcurr, hs.currID, List.getElem?_concat_length]
    · obtain ⟨u, hu, htoken⟩ := hs.tokens token id (h.old token id hne hid)
      refine ⟨u, ?_, htoken⟩
      rw [h.userList]
      exact List.getElem?_append_left (List.getElem?_eq_some_iff.mp hu).1 ▸ hu

theorem Kept.represented (h : Kept s t) (hs : s.Represented gen) : t.Represented gen := by
  refine ⟨?_, ?_, ?_⟩
  · rw [h.currID, hs.currID, h.users.length_eq]
  · intro i v hv
    obtain ⟨u, hu, huv⟩ := User.exists_left h.users hv
    exact huv.id.trans (hs.ids i u hu)
  · intro token id hid
    obtain ⟨u, hu, htoken⟩ := hs.tokens token id (h.old token id hid)
    obtain ⟨v, hv, huv⟩ := User.exists_right h.users hu
    exact ⟨v, hv, by rw [huv.username, htoken]⟩

theorem represented_step (hs : s.Represented gen) (op : Operation) :
    (s.step gen op).1.Represented gen := by
  rcases step_cases hs op with ⟨username, now, t, -, -, ht, hstep⟩ | ⟨-, t, ht, hstep⟩
  · rw [hstep]
    exact ht.represented hs
  · rw [hstep]
    exact ht.represented hs

end UserStorage

end NetworkLabs.Chat
