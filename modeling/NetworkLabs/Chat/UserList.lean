import NetworkLabs.Chat.UserStorage

/-! The user list of the two HTTP chat clients, and what they print about a new one. -/
namespace NetworkLabs.Chat

/-- A user as a client has it. -/
structure ListedUser where
  id : Nat
  username : String
  online : Option Bool
deriving DecidableEq

def ListedUser.isAlive (u : ListedUser) : Option Bool := u.online

/-- What the server sends of a user: `lastseen` is transient. -/
def User.listed (u : User) : ListedUser := ⟨u.id, u.username, u.online⟩

namespace UserList

/-- An unboxed null, or an index behind the end of the new list. -/
inductive Thrown
  | nullPointer
  | indexOutOfBounds
deriving DecidableEq

/-- A line that is printed: `"User "`, the name and the word. -/
inductive Notice
  | timeouted (username : String)
  | connected (username : String)
  | quited (username : String)
deriving DecidableEq

def unbox : Option Bool → Except Thrown Bool
  | some b => .ok b
  | none => .error .nullPointer

/-- The loops of `updateList`, the first over the users that are known and the second over the
rest of the new list. -/
def loops (compare : ListedUser → ListedUser → Except Thrown (List Notice))
    (greet : ListedUser → Except Thrown (List Notice)) :
    List ListedUser → List ListedUser → Except Thrown (List Notice)
  | [], [] => .ok []
  | [], v :: newUsers =>
    (greet v).bind fun a => (loops compare greet [] newUsers).map fun b => a ++ b
  | _ :: _, [] => .error .indexOutOfBounds
  | u :: users, v :: newUsers =>
    (compare u v).bind fun a => (loops compare greet users newUsers).map fun b => a ++ b

namespace Fourth

/-- The body of the first loop. -/
def compare (u v : ListedUser) : Except Thrown (List Notice) :=
  if v.isAlive = none then .ok (if u.isAlive ≠ none then [.timeouted u.username] else [])
  else if u.isAlive = none then .ok (if v.isAlive ≠ none then [.connected u.username] else [])
  else .ok []

/-- The body of the second loop. -/
def greet (v : ListedUser) : Except Thrown (List Notice) :=
  (unbox v.isAlive).map fun alive => if alive then [.connected v.username] else []

def updateList (users newUsers : List ListedUser) : Except Thrown (List Notice) :=
  loops compare greet users newUsers

end Fourth

namespace Fifth

def compare (u v : ListedUser) : Except Thrown (List Notice) :=
  if v.isAlive = none then .ok (if u.isAlive ≠ none then [.timeouted u.username] else [])
  else if u.isAlive = none then .ok (if v.isAlive ≠ none then [.connected u.username] else [])
  else (unbox u.isAlive).bind fun old =>
    if old then (unbox v.isAlive).map fun new => if new then [] else [.quited u.username]
    else .ok []

def greet (v : ListedUser) : Except Thrown (List Notice) :=
  if v.isAlive ≠ none then
    (unbox v.isAlive).map fun alive => if alive then [.connected v.username] else []
  else .ok []

def updateList (users newUsers : List ListedUser) : Except Thrown (List Notice) :=
  loops compare greet users newUsers

end Fifth

/-- The two clients. -/
inductive Version
  | fourth
  | fifth
deriving DecidableEq

namespace Version

def compare : Version → ListedUser → ListedUser → Except Thrown (List Notice)
  | .fourth => Fourth.compare
  | .fifth => Fifth.compare

def greet : Version → ListedUser → Except Thrown (List Notice)
  | .fourth => Fourth.greet
  | .fifth => Fifth.greet

def updateList : Version → List ListedUser → List ListedUser → Except Thrown (List Notice)
  | .fourth => Fourth.updateList
  | .fifth => Fifth.updateList

theorem updateList_eq (version : Version) (users newUsers : List ListedUser) :
    version.updateList users newUsers = loops version.compare version.greet users newUsers := by
  cases version <;> rfl

end Version

/-- The user of a line that says connected. -/
def Notice.connectedUser : Notice → Option String
  | .connected username => some username
  | .timeouted _ | .quited _ => none

/-- The user of a line that says timeouted. -/
def Notice.timeoutedUser : Notice → Option String
  | .timeouted username => some username
  | .connected _ | .quited _ => none

/-- A user of the new list is online, and was absent from the previous one or not online there. -/
def Connects (users : List ListedUser) (v : ListedUser) : Prop :=
  v.online = some true ∧ ∀ u ∈ users, u.id = v.id → u.online = none

/-- A user of the new list is not online, and was otherwise in the previous one. -/
def TimesOut (users : List ListedUser) (v : ListedUser) : Prop :=
  v.online = none ∧ ∃ u ∈ users, u.id = v.id ∧ u.online ≠ none

/-- A user of the new list has quit, who was not online in the previous one. -/
def QuitsSilently (users : List ListedUser) (v : ListedUser) : Prop :=
  v.online = some false ∧ ∃ u ∈ users, u.id = v.id ∧ u.online = none

/-- A user is in the new list for the first time and not online. -/
def ArrivesLate (users : List ListedUser) (v : ListedUser) : Prop :=
  v.online = none ∧ ∀ u ∈ users, u.id ≠ v.id

section
variable (users : List ListedUser) (v : ListedUser)

instance : Decidable (Connects users v) := inferInstanceAs (Decidable (_ ∧ _))

instance : Decidable (TimesOut users v) := inferInstanceAs (Decidable (_ ∧ _))

instance : Decidable (QuitsSilently users v) := inferInstanceAs (Decidable (_ ∧ _))

end

/-- The lines announce exactly those who connect and those who time out, in the order of the
list. -/
structure Announced (users newUsers : List ListedUser) (notices : List Notice) : Prop where
  connected : notices.filterMap Notice.connectedUser =
    (newUsers.filter fun v => Connects users v).map ListedUser.username
  timeouted : notices.filterMap Notice.timeoutedUser =
    (newUsers.filter fun v => TimesOut users v).map ListedUser.username

/-- `updateList` goes through and announces whom it should. -/
def Version.Right (version : Version) (users newUsers : List ListedUser) : Prop :=
  ∃ notices, version.updateList users newUsers = .ok notices ∧ Announced users newUsers notices

/-- Somebody quits who was not online before, or the fourth client meets somebody who is not. -/
def Version.Misled (version : Version) (users newUsers : List ListedUser) : Prop :=
  (∃ v ∈ newUsers, QuitsSilently users v) ∨
    (version = .fourth ∧ ∃ v ∈ newUsers, ArrivesLate users v)

/-- The new list has the users of the previous one at the same places, from id `k` on. -/
inductive Follows : Nat → List ListedUser → List ListedUser → Prop
  | nil {k : Nat} : Follows k [] []
  | arrived {k : Nat} {v : ListedUser} {newUsers : List ListedUser} (hv : v.id = k)
      (h : Follows (k + 1) [] newUsers) : Follows k [] (v :: newUsers)
  | known {k : Nat} {u v : ListedUser} {users newUsers : List ListedUser} (hu : u.id = k)
      (hv : v.id = k) (hname : v.username = u.username)
      (h : Follows (k + 1) users newUsers) : Follows k (u :: users) (v :: newUsers)

variable {version : Version} {k : Nat} {u v : ListedUser} {users newUsers : List ListedUser}
  {notices : List Notice}

/-- The lines say who was not online before and is now null no more, and who became null. -/
structure Printed (users newUsers : List ListedUser) (notices : List Notice) : Prop where
  connected : notices.filterMap Notice.connectedUser =
    (newUsers.filter fun v => Connects users v ∨ QuitsSilently users v).map ListedUser.username
  timeouted : notices.filterMap Notice.timeoutedUser =
    (newUsers.filter fun v => TimesOut users v).map ListedUser.username

theorem compare_spec (version : Version) (u v : ListedUser) :
    ∃ notices, version.compare u v = .ok notices ∧
      notices.filterMap Notice.connectedUser =
        (if u.online = none ∧ v.online ≠ none then [u.username] else []) ∧
      notices.filterMap Notice.timeoutedUser =
        (if u.online ≠ none ∧ v.online = none then [u.username] else []) := by
  obtain ⟨_, _, online⟩ := u
  obtain ⟨_, _, online'⟩ := v
  cases version <;> rcases online with _ | _ | _ <;> rcases online' with _ | _ | _ <;>
    exact ⟨_, rfl, rfl, rfl⟩

theorem greet_spec (h : version = .fourth → v.online ≠ none) :
    ∃ notices, version.greet v = .ok notices ∧
      notices.filterMap Notice.connectedUser =
        (if v.online = some true then [v.username] else []) ∧
      notices.filterMap Notice.timeoutedUser = [] := by
  obtain ⟨_, _, online⟩ := v
  rcases online with _ | _ | _
  · cases version with
    | fourth => exact absurd rfl (h rfl)
    | fifth => exact ⟨_, rfl, rfl, rfl⟩
  · cases version <;> exact ⟨_, rfl, rfl, rfl⟩
  · cases version <;> exact ⟨_, rfl, rfl, rfl⟩

theorem greet_of_none (h : v.online = none) : Fourth.greet v = .error .nullPointer := by
  simp only [Fourth.greet, ListedUser.isAlive, h, unbox, Except.map]

/-- The ids of what follows are not smaller. -/
theorem Follows.le_id (h : Follows k users newUsers) :
    (∀ u ∈ users, k ≤ u.id) ∧ ∀ v ∈ newUsers, k ≤ v.id := by
  induction h with
  | nil => simp
  | arrived hv _ ih =>
    refine ⟨by simp, List.forall_mem_cons.mpr ⟨by omega, fun v hmem => ?_⟩⟩
    have hle := ih.2 v hmem
    omega
  | known hu hv _ _ ih =>
    refine ⟨List.forall_mem_cons.mpr ⟨by omega, fun u hmem => ?_⟩,
      List.forall_mem_cons.mpr ⟨by omega, fun v hmem => ?_⟩⟩
    · have hle := ih.1 u hmem
      omega
    · have hle := ih.2 v hmem
      omega

/-- Only the user with the same id matters. -/
theorem connects_cons_of_ne (h : u.id ≠ v.id) : Connects (u :: users) v ↔ Connects users v := by
  simp [Connects, h]

theorem timesOut_cons_of_ne (h : u.id ≠ v.id) : TimesOut (u :: users) v ↔ TimesOut users v := by
  simp [TimesOut, h]

theorem quitsSilently_cons_of_ne (h : u.id ≠ v.id) :
    QuitsSilently (u :: users) v ↔ QuitsSilently users v := by
  simp [QuitsSilently, h]

theorem arrivesLate_cons_of_ne (h : u.id ≠ v.id) :
    ArrivesLate (u :: users) v ↔ ArrivesLate users v := by
  simp [ArrivesLate, h]

/-- The user at the head of both lists. -/
theorem head_iff (hid : u.id = v.id) (hnone : ∀ w ∈ users, w.id ≠ v.id) :
    (Connects (u :: users) v ∨ QuitsSilently (u :: users) v ↔ u.online = none ∧ v.online ≠ none) ∧
      (TimesOut (u :: users) v ↔ u.online ≠ none ∧ v.online = none) := by
  have hothers : ∀ w ∈ users, w.id = v.id → w.online = none := fun w hw heq =>
    absurd heq (hnone w hw)
  have hconnects : Connects (u :: users) v ↔ v.online = some true ∧ u.online = none := by
    rw [Connects, List.forall_mem_cons]
    exact and_congr_right fun _ => ⟨fun h => h.1 hid, fun h => ⟨fun _ => h, hothers⟩⟩
  have hquits : QuitsSilently (u :: users) v ↔ v.online = some false ∧ u.online = none := by
    simp only [QuitsSilently, List.exists_mem_cons_iff]
    refine and_congr_right fun _ => ⟨?_, fun h => .inl ⟨hid, h⟩⟩
    rintro (h | ⟨w, hw, heq, -⟩)
    · exact h.2
    · exact absurd heq (hnone w hw)
  have htimesOut : TimesOut (u :: users) v ↔ v.online = none ∧ u.online ≠ none := by
    simp only [TimesOut, List.exists_mem_cons_iff]
    refine and_congr_right fun _ => ⟨?_, fun h => .inl ⟨hid, h⟩⟩
    rintro (h | ⟨w, hw, heq, -⟩)
    · exact h.2
    · exact absurd heq (hnone w hw)
  refine ⟨?_, htimesOut.trans And.comm⟩
  rw [hconnects, hquits]
  rcases v.online with _ | _ | _ <;> simp

/-- The lines for the first user of the new list, and those for the others. -/
theorem printed_cons {a b : List Notice} {tail : List ListedUser}
    (ha : a.filterMap Notice.connectedUser =
      if Connects users v ∨ QuitsSilently users v then [v.username] else [])
    (ha' : a.filterMap Notice.timeoutedUser = if TimesOut users v then [v.username] else [])
    (hsame : ∀ w ∈ newUsers, (Connects users w ↔ Connects tail w) ∧
      (QuitsSilently users w ↔ QuitsSilently tail w) ∧ (TimesOut users w ↔ TimesOut tail w))
    (hb : Printed tail newUsers b) : Printed users (v :: newUsers) (a ++ b) := by
  have hconnected : newUsers.filter (fun w => Connects users w ∨ QuitsSilently users w) =
      newUsers.filter fun w => Connects tail w ∨ QuitsSilently tail w :=
    List.filter_congr fun w hw => by simp [(hsame w hw).1, (hsame w hw).2.1]
  have htimeouted : newUsers.filter (fun w => TimesOut users w) =
      newUsers.filter fun w => TimesOut tail w :=
    List.filter_congr fun w hw => by simp [(hsame w hw).2.2]
  apply Printed.mk
  · rw [List.filterMap_append, ha, hb.connected, List.filter_cons, hconnected]
    split <;> simp_all
  · rw [List.filterMap_append, ha', hb.timeouted, List.filter_cons, htimeouted]
    split <;> simp_all

/-- Where nobody arrives late, both clients print what they see. -/
theorem printed_of_follows (h : Follows k users newUsers)
    (harrives : version = .fourth → ∀ v ∈ newUsers, ¬ ArrivesLate users v) :
    ∃ notices, loops version.compare version.greet users newUsers = .ok notices ∧
      Printed users newUsers notices := by
  induction h with
  | nil => exact ⟨[], rfl, rfl, rfl⟩
  | @arrived k v newUsers hv h ih =>
    obtain ⟨b, hb, hprinted⟩ := ih fun hversion w hw =>
      harrives hversion w (List.mem_cons_of_mem v hw)
    have honline : version = .fourth → v.online ≠ none := by
      intro hversion hnone
      exact harrives hversion v List.mem_cons_self ⟨hnone, by simp⟩
    obtain ⟨a, ha, hconnected, htimeouted⟩ := greet_spec honline
    refine ⟨a ++ b, ?_, printed_cons ?_ ?_ (fun w _ => ⟨Iff.rfl, Iff.rfl, Iff.rfl⟩) hprinted⟩
    · simp only [loops, ha, hb, Except.bind, Except.map]
    · simp [hconnected, Connects, QuitsSilently]
    · simp [htimeouted, TimesOut]
  | @known k u v users newUsers hu hv hname h ih =>
    have hne : ∀ w ∈ newUsers, u.id ≠ w.id := by
      intro w hw
      have hle := h.le_id.2 w hw
      omega
    have hnone : ∀ w ∈ users, w.id ≠ v.id := by
      intro w hw
      have hle := h.le_id.1 w hw
      omega
    obtain ⟨b, hb, hprinted⟩ := ih fun hversion w hw hlate =>
      harrives hversion w (List.mem_cons_of_mem v hw)
        ((arrivesLate_cons_of_ne (hne w hw)).mpr hlate)
    obtain ⟨a, ha, hconnected, htimeouted⟩ := compare_spec version u v
    refine ⟨a ++ b, ?_, printed_cons ?_ ?_ (fun w hw => ⟨connects_cons_of_ne (hne w hw),
      quitsSilently_cons_of_ne (hne w hw), timesOut_cons_of_ne (hne w hw)⟩) hprinted⟩
    · simp only [loops, ha, hb, Except.bind, Except.map]
    · rw [hconnected, if_congr (head_iff (hu.trans hv.symm) hnone).1 rfl rfl, hname]
    · rw [htimeouted, if_congr (head_iff (hu.trans hv.symm) hnone).2 rfl rfl, hname]

/-- Where somebody arrives late, the fourth client unboxes null. -/
theorem loops_of_late (h : Follows k users newUsers) (hv : v ∈ newUsers)
    (hlate : ArrivesLate users v) :
    loops Fourth.compare Fourth.greet users newUsers = .error .nullPointer := by
  induction h with
  | nil => cases hv
  | @arrived k w newUsers hw h ih =>
    by_cases hnull : w.online = none
    · simp only [loops, greet_of_none hnull, Except.bind]
    · rcases List.mem_cons.mp hv with rfl | hv
      · exact absurd hlate.1 hnull
      · obtain ⟨a, ha, -⟩ := @greet_spec .fourth w fun _ => hnull
        have hgreet : Fourth.greet w = .ok a := ha
        simp only [loops, hgreet, Except.bind, ih hv hlate, Except.map]
  | @known k u w users newUsers hu hw hname h ih =>
    rcases List.mem_cons.mp hv with rfl | hv
    · exact absurd (hu.trans hw.symm) (hlate.2 u List.mem_cons_self)
    · have hne : u.id ≠ v.id := hlate.2 u List.mem_cons_self
      obtain ⟨a, ha, -⟩ := compare_spec .fourth u w
      have hcompare : Fourth.compare u w = .ok a := ha
      simp only [loops, hcompare, Except.bind, ih hv ((arrivesLate_cons_of_ne hne).mp hlate),
        Except.map]

/-- The lines are the right ones unless somebody quits silently. -/
theorem Printed.announced_iff (h : Printed users newUsers notices) :
    Announced users newUsers notices ↔ ∀ v ∈ newUsers, ¬ QuitsSilently users v := by
  constructor
  · intro hright v hv hquits
    have hlength := congrArg List.length (h.connected.symm.trans hright.connected)
    rw [List.length_map, List.length_map] at hlength
    have hsublist : (newUsers.filter fun v => Connects users v).Sublist
        (newUsers.filter fun v => Connects users v ∨ QuitsSilently users v) := by
      apply List.monotone_filter_right
      intro w hw
      simp only [decide_eq_true_eq] at hw ⊢
      exact .inl hw
    have hmem : v ∈ newUsers.filter fun v => Connects users v := by
      rw [hsublist.eq_of_length hlength.symm, List.mem_filter]
      exact ⟨hv, by simpa using .inr hquits⟩
    have hconnects : Connects users v := by simpa using (List.mem_filter.mp hmem).2
    have hboth := hconnects.1.symm.trans hquits.1
    cases hboth
  · intro hnone
    refine ⟨h.connected.trans ?_, h.timeouted⟩
    congr 1
    apply List.filter_congr
    intro v hv
    simp [hnone v hv]

/-- An update is right exactly where the client is not misled. -/
theorem Follows.right_iff (h : Follows k users newUsers) :
    version.Right users newUsers ↔ ¬ version.Misled users newUsers := by
  unfold Version.Right Version.Misled
  rw [version.updateList_eq]
  constructor
  · rintro ⟨notices, hnotices, hannounced⟩ hmisled
    have harrives : version = .fourth → ∀ v ∈ newUsers, ¬ ArrivesLate users v := by
      rintro rfl w hw hlate
      cases hnotices.symm.trans (loops_of_late h hw hlate)
    rcases hmisled with ⟨v, hv, hquits⟩ | ⟨hversion, v, hv, hlate⟩
    · obtain ⟨notices', hnotices', hprinted⟩ := printed_of_follows h harrives
      obtain rfl := Except.ok.inj (hnotices.symm.trans hnotices')
      exact hprinted.announced_iff.mp hannounced v hv hquits
    · exact harrives hversion v hv hlate
  · intro hnot
    have harrives : version = .fourth → ∀ v ∈ newUsers, ¬ ArrivesLate users v :=
      fun hversion v hv hlate => hnot (.inr ⟨hversion, v, hv, hlate⟩)
    obtain ⟨notices, hnotices, hprinted⟩ := printed_of_follows h harrives
    refine ⟨notices, hnotices, hprinted.announced_iff.mpr fun v hv hquits => ?_⟩
    exact hnot (.inl ⟨v, hv, hquits⟩)

end UserList

end NetworkLabs.Chat
