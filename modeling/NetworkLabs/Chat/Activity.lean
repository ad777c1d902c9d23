import NetworkLabs.Chat.Tokens

/-! When users are found to have timed out, over any requests at any times. -/
namespace NetworkLabs.Chat

open Transition UserStorage

variable {gen : String → String} {i : Nat} {u : User}

/-- The requests, as far as they matter to the accounts. A user info request may have no `id`
that can be read. -/
inductive Request
  | login (username : String)
  | logout (token : String)
  | listUsers (token : String)
  | userInfo (token : String) (id : Option Nat)
  | newMessage (token : String)
  | listMessages (token : String)

/-- What is remembered of a login, and of each request after it that was authenticated. -/
inductive Kind
  | login
  | listUsers
  | userInfo
  | newMessage
  | listMessages
deriving DecidableEq

namespace Kind

/-- The handlers that take the time. -/
def Refreshes (k : Kind) : Prop := k = .login ∨ k = .userInfo ∨ k = .listMessages

/-- The handlers that do not call `User.update`. -/
def Silent (k : Kind) : Prop := k = .listUsers ∨ k = .newMessage

theorem refreshes_or_silent (k : Kind) : k.Refreshes ∨ k.Silent := by
  cases k <;> simp [Refreshes, Silent]

end Kind

structure Event where
  id : Nat
  kind : Kind
  time : Int
deriving DecidableEq

/-- One call of `User.check`. -/
structure Check where
  user : User
  now : Int
deriving DecidableEq

namespace Check

/-- The user is marked. -/
def Expired (c : Check) : Prop := c.now - c.user.lastseen > timeout

instance (c : Check) : Decidable c.Expired := inferInstanceAs (Decidable (_ > _))

/-- Something of the user of the check happened within the timeout before it. -/
def Recent (c : Check) (e : Event) : Prop := e.id = c.user.id ∧ c.now - e.time ≤ timeout

theorem check_of_expired {c : Check} (h : c.Expired) :
    c.user.check c.now = { c.user with online := none } := if_pos h

theorem check_of_not_expired {c : Check} (h : ¬ c.Expired) : c.user.check c.now = c.user := if_neg h

end Check

namespace UserStorage

/-- The calls of `User.check` in `get`. -/
def checksUntil (id : Nat) (now : Nat → Int) : List User → List Check
  | [] => []
  | user :: users =>
    if user.id = id then [⟨user, now 0⟩]
    else ⟨user, now 0⟩ :: checksUntil id (fun k => now (k + 1)) users

/-- The calls of `User.check` in `listUsers`. -/
def checksAll (now : Nat → Int) (users : List User) : List Check :=
  users.mapIdx fun k user => ⟨user, now k⟩

theorem checkUntil_eq (id : Nat) (now : Nat → Int) (us : List User) :
    checkUntil id now us = ((checksUntil id now us).map fun c => c.user.check c.now) ++
      us.drop (checksUntil id now us).length := by
  induction us generalizing now with
  | nil => rfl
  | cons u us ih =>
    unfold checkUntil checksUntil
    split
    · simp
    · rw [ih]
      simp

theorem mapIdx_check_eq (now : Nat → Int) (us : List User) :
    (us.mapIdx fun k user => user.check (now k)) =
      (checksAll now us).map fun c => c.user.check c.now := by
  apply List.ext_getElem?
  intro k
  simp [checksAll, Function.comp_def]

theorem mem_of_checksUntil {id : Nat} {now : Nat → Int} {us : List User} {c : Check}
    (h : c ∈ checksUntil id now us) : c.user ∈ us := by
  induction us generalizing now with
  | nil => cases h
  | cons u us ih =>
    unfold checksUntil at h
    split at h
    · rw [List.mem_singleton.mp h]
      exact List.mem_cons_self
    · rcases List.mem_cons.mp h with rfl | h
      · exact List.mem_cons_self
      · exact List.mem_cons_of_mem _ (ih h)

theorem mem_of_checksAll {now : Nat → Int} {us : List User} {c : Check}
    (h : c ∈ checksAll now us) : c.user ∈ us := by
  obtain ⟨k, hk, rfl⟩ := List.mem_mapIdx.mp h
  exact List.getElem_mem hk

end UserStorage

/-- The accounts, when the clock was last read, and what happened so far. -/
structure Activity where
  users : UserStorage
  clock : Int
  events : List Event

namespace Activity

/-- Readings of a clock that never goes back: `ticks k` pass before reading `k`. -/
def reading (clock : Int) (ticks : Nat → Nat) : Nat → Int
  | 0 => clock + ticks 0
  | k + 1 => reading clock ticks k + ticks (k + 1)

def initial (clock : Int) : Activity := ⟨.empty, clock, []⟩

/-- What a request is remembered as, and for whom. -/
def event (gen : String → String) (s : UserStorage) (now : Int) : Request → List Event
  | .login username => (s.create gen username now).2.toList.map fun info => ⟨info.id, .login, now⟩
  | .logout _ => []
  | .listUsers token => (s.checkToken token).toList.map fun i => ⟨i, .listUsers, now⟩
  | .userInfo token _ => (s.checkToken token).toList.map fun i => ⟨i, .userInfo, now⟩
  | .newMessage token => (s.checkToken token).toList.map fun i => ⟨i, .newMessage, now⟩
  | .listMessages token => (s.checkToken token).toList.map fun i => ⟨i, .listMessages, now⟩

/-- What a handler does to the accounts before it calls `get` or `listUsers`, if it does. -/
def updated (gen : String → String) (s : UserStorage) (now : Int) : Request → UserStorage
  | .login username => (s.create gen username now).1
  | .logout token => s.logout token
  | .listUsers _ | .newMessage _ => s
  | .userInfo token _ | .listMessages token => s.update token now

/-- The calls of `User.check` of a request. -/
def checks (gen : String → String) (s : UserStorage) (now : Nat → Int) (r : Request) : List Check :=
  match r with
  | .listUsers token =>
    if (s.checkToken token).isSome then
      checksAll (fun k => now (k + 1)) (updated gen s (now 0) r).userList
    else []
  | .userInfo token (some id) =>
    if (s.checkToken token).isSome then
      checksUntil id (fun k => now (k + 1)) (updated gen s (now 0) r).userList
    else []
  | _ => []

/-- A request to the end. -/
def handled (gen : String → String) (s : UserStorage) (now : Nat → Int) (r : Request) :
    UserStorage :=
  match r with
  | .listUsers token =>
    if (s.checkToken token).isSome then
      (updated gen s (now 0) r).listUsers fun k => now (k + 1)
    else updated gen s (now 0) r
  | .userInfo token (some id) =>
    if (s.checkToken token).isSome then
      ((updated gen s (now 0) r).get id fun k => now (k + 1)).1
    else updated gen s (now 0) r
  | r => updated gen s (now 0) r

def handle (gen : String → String) (a : Activity) (r : Request × (Nat → Nat)) : Activity :=
  let now := reading a.clock r.2
  ⟨handled gen a.users now r.1, now (a.users.userList.length + 1),
    a.events ++ event gen a.users (now 0) r.1⟩

/-- After some requests from the time `clock` on. -/
def after (gen : String → String) (clock : Int) (rs : List (Request × (Nat → Nat))) : Activity :=
  rs.foldl (handle gen) (initial clock)

/-- Whoever is marked by a request made none within the timeout before. -/
def Justified (gen : String → String) (a : Activity) (r : Request × (Nat → Nat)) : Prop :=
  ∀ c ∈ checks gen a.users (reading a.clock r.2) r.1, c.Expired →
    ∀ e ∈ (a.handle gen r).events, e.kind ≠ .login → ¬ c.Recent e

/-- Whoever is checked by a request and listed the users or posted within the timeout before
has, within it, also logged in, asked for a user or listed messages. -/
def Refreshed (gen : String → String) (a : Activity) (r : Request × (Nat → Nat)) : Prop :=
  ∀ c ∈ checks gen a.users (reading a.clock r.2) r.1,
    (∃ e ∈ (a.handle gen r).events, e.kind.Silent ∧ c.Recent e) →
      ∃ e ∈ (a.handle gen r).events, e.kind.Refreshes ∧ c.Recent e

/-- The time of an account is that of the last event that took it. -/
structure Timed (gen : String → String) (s : UserStorage) (events : List Event) (now : Int) :
    Prop where
  users : s.Represented gen
  past : ∀ e ∈ events, e.id < s.userList.length ∧ e.time ≤ now
  taken : ∀ (i : Nat) (u : User), s.userList[i]? = some u →
    ∃ e ∈ events, e.id = i ∧ e.kind.Refreshes ∧ e.time = u.lastseen
  last : ∀ (i : Nat) (u : User), s.userList[i]? = some u →
    ∀ e ∈ events, e.id = i → e.kind.Refreshes → e.time ≤ u.lastseen

variable {s t : UserStorage} {events : List Event} {now now' : Int}

theorem timed_empty (gen : String → String) (clock : Int) : Timed gen .empty [] clock :=
  ⟨represented_empty, by simp, by simp [UserStorage.empty], by simp⟩

theorem Timed.later (h : Timed gen s events now) (hnow : now ≤ now') : Timed gen s events now' :=
  ⟨h.users, fun e he => ⟨(h.past e he).1, Int.le_trans (h.past e he).2 hnow⟩, h.taken, h.last⟩

/-- Only the times matter. -/
theorem Timed.of_lastseen (h : Timed gen s events now) (ht : t.Represented gen)
    (hseen : t.userList.map User.lastseen = s.userList.map User.lastseen) :
    Timed gen t events now := by
  have hsame : ∀ (i : Nat) (v : User), t.userList[i]? = some v →
      ∃ u, s.userList[i]? = some u ∧ u.lastseen = v.lastseen := by
    intro i v hv
    have hi : (s.userList.map User.lastseen)[i]? = some v.lastseen := by
      rw [← hseen, List.getElem?_map, hv]
      rfl
    rw [List.getElem?_map] at hi
    exact Option.map_eq_some_iff.mp hi
  have hlength : t.userList.length = s.userList.length := by simpa using congrArg List.length hseen
  refine ⟨ht, ?_, ?_, ?_⟩
  · intro e he
    rw [hlength]
    exact h.past e he
  · intro i v hv
    obtain ⟨u, hu, heq⟩ := hsame i v hv
    rw [← heq]
    exact h.taken i u hu
  · intro i v hv
    obtain ⟨u, hu, heq⟩ := hsame i v hv
    rw [← heq]
    exact h.last i u hu

theorem lastseen_modify_setOffline (us : List User) (i : Nat) :
    (us.modify i User.setOffline).map User.lastseen = us.map User.lastseen := by
  induction us generalizing i with
  | nil => simp
  | cons u us ih =>
    cases i with
    | zero => rfl
    | succ i => simp [ih]

@[simp] theorem lastseen_check (u : User) (now : Int) : (u.check now).lastseen = u.lastseen := by
  unfold User.check
  split <;> rfl

theorem lastseen_checkUntil (id : Nat) (now : Nat → Int) (us : List User) :
    (checkUntil id now us).map User.lastseen = us.map User.lastseen := by
  induction us generalizing now with
  | nil => rfl
  | cons u us ih =>
    unfold checkUntil
    split
    · simp
    · simp [ih]

/-- An event that takes no time. -/
theorem Timed.silent (h : Timed gen s events now) {e : Event} (he : e.kind.Silent)
    (hid : e.id < s.userList.length) (hnow : now ≤ e.time) :
    Timed gen s (events ++ [e]) e.time := by
  have hne : ¬ e.kind.Refreshes := by
    rintro (hk | hk | hk) <;> rcases he with he | he <;> rw [hk] at he <;> cases he
  refine ⟨h.users, ?_, ?_, ?_⟩
  · intro e' he'
    rcases List.mem_append.mp he' with he' | he'
    · exact (h.later hnow).past e' he'
    · rw [List.mem_singleton.mp he']
      exact ⟨hid, Int.le_refl _⟩
  · intro i u hu
    obtain ⟨e', he', heq⟩ := h.taken i u hu
    exact ⟨e', List.mem_append_left _ he', heq⟩
  · intro i u hu e' he' hi hk
    rcases List.mem_append.mp he' with he' | he'
    · exact h.last i u hu e' he' hi hk
    · rw [List.mem_singleton.mp he'] at hk
      exact absurd hk hne

/-- `User.update`, with the event that it is part of. -/
theorem Timed.modify (h : Timed gen s events now) {e : Event} (he : e.kind.Refreshes)
    (hid : e.id < s.userList.length) (hnow : now ≤ e.time)
    (ht : t.Represented gen)
    (hlist : t.userList = s.userList.modify e.id fun u => u.update e.time) :
    Timed gen t (events ++ [e]) e.time := by
  have hlength : t.userList.length = s.userList.length := by rw [hlist, List.length_modify]
  have hcase : ∀ (i : Nat) (v : User), t.userList[i]? = some v →
      (i = e.id ∧ v.lastseen = e.time) ∨ (i ≠ e.id ∧ s.userList[i]? = some v) := by
    intro i v hv
    rw [hlist, List.getElem?_modify] at hv
    obtain ⟨u, hu, rfl⟩ := Option.map_eq_some_iff.mp hv
    by_cases hi : e.id = i
    · simp only [if_pos hi]
      exact .inl ⟨hi.symm, rfl⟩
    · simp only [if_neg hi]
      exact .inr ⟨fun heq => hi heq.symm, hu⟩
  refine ⟨ht, ?_, ?_, ?_⟩
  · intro e' he'
    rw [hlength]
    rcases List.mem_append.mp he' with he' | he'
    · exact (h.later hnow).past e' he'
    · rw [List.mem_singleton.mp he']
      exact ⟨hid, Int.le_refl _⟩
  · intro i v hv
    rcases hcase i v hv with ⟨hi, hseen⟩ | ⟨-, hu⟩
    · exact ⟨e, by simp, hi.symm, he, hseen.symm⟩
    · obtain ⟨e', he', heq⟩ := h.taken i v hu
      exact ⟨e', List.mem_append_left _ he', heq⟩
  · intro i v hv e' he' hi hk
    rcases hcase i v hv with ⟨-, hseen⟩ | ⟨hne, hu⟩
    · rw [hseen]
      rcases List.mem_append.mp he' with he' | he'
      · exact Int.le_trans (h.past e' he').2 hnow
      · exact Int.le_of_eq (congrArg Event.time (List.mem_singleton.mp he'))
    · rcases List.mem_append.mp he' with he' | he'
      · exact h.last i v hu e' he' hi hk
      · rw [List.mem_singleton.mp he'] at hi
        exact absurd hi.symm hne

/-- A login that is not refused. -/
theorem Timed.accepted (h : Timed gen s events now) {username : String} (hnow : now ≤ now')
    (ht : Accepted gen s username now' t) :
    Timed gen t (events ++ [⟨s.currID, .login, now'⟩]) now' := by
  have hcurr := h.users.currID
  have hcase : ∀ (i : Nat) (v : User), t.userList[i]? = some v →
      s.userList[i]? = some v ∧ i < s.userList.length ∨
        i = s.currID ∧ v = User.create s.currID username now' := by
    intro i v hv
    rw [ht.userList, List.getElem?_append] at hv
    split at hv
    · rename_i hlt
      exact .inl ⟨hv, hlt⟩
    · obtain ⟨hlt, heq⟩ := List.getElem?_eq_some_iff.mp hv
      simp only [List.length_singleton, Nat.lt_one_iff] at hlt
      refine .inr ⟨by omega, ?_⟩
      simpa [hlt] using heq.symm
  refine ⟨ht.represented h.users, ?_, ?_, ?_⟩
  · intro e he
    rw [ht.userList, List.length_append, List.length_singleton]
    rcases List.mem_append.mp he with he | he
    · have := (h.later hnow).past e he
      exact ⟨by omega, this.2⟩
    · rw [List.mem_singleton.mp he]
      exact ⟨by simp [hcurr], Int.le_refl _⟩
  · intro i v hv
    rcases hcase i v hv with ⟨hu, -⟩ | ⟨hi, rfl⟩
    · obtain ⟨e, he, heq⟩ := h.taken i v hu
      exact ⟨e, List.mem_append_left _ he, heq⟩
    · exact ⟨_, List.mem_append_right _ (List.mem_singleton_self _), hi.symm, .inl rfl, rfl⟩
  · intro i v hv e he hid hk
    rcases List.mem_append.mp he with he | he
    · rcases hcase i v hv with ⟨hu, -⟩ | ⟨hi, -⟩
      · exact h.last i v hu e he hid hk
      · have := (h.past e he).1
        omega
    · rw [List.mem_singleton.mp he] at hid ⊢
      rcases hcase i v hv with ⟨-, hlt⟩ | ⟨-, rfl⟩
      · simp only at hid
        omega
      · exact Int.le_refl _

/-- A request of a user who is known by the token, up to the first check. -/
theorem Timed.update (h : Timed gen s events now) {k : Kind} (hk : k.Refreshes) (token : String)
    (hnow : now ≤ now') :
    Timed gen (s.update token now')
      (events ++ (s.checkToken token).toList.map fun i => ⟨i, k, now'⟩) now' := by
  have ht : (s.update token now').Represented gen := represented_step h.users (.update token now')
  cases hcheck : s.checkToken token with
  | none =>
    have hsame : s.update token now' = s := by simp only [UserStorage.update, hcheck]
    rw [hsame, Option.toList_none, List.map_nil, List.append_nil]
    exact h.later hnow
  | some i =>
    obtain ⟨-, u, hu, -⟩ := checkToken_spec h.users hcheck
    have hlt := (List.getElem?_eq_some_iff.mp hu).1
    exact Timed.modify (e := ⟨i, k, now'⟩) h hk hlt hnow ht
      (by simp only [UserStorage.update, hcheck])

theorem Timed.authenticated (h : Timed gen s events now) {k : Kind} (hk : k.Silent) (token : String)
    (hnow : now ≤ now') :
    Timed gen s (events ++ (s.checkToken token).toList.map fun i => ⟨i, k, now'⟩) now' := by
  cases hcheck : s.checkToken token with
  | none =>
    rw [Option.toList_none, List.map_nil, List.append_nil]
    exact h.later hnow
  | some i =>
    obtain ⟨-, u, hu, -⟩ := checkToken_spec h.users hcheck
    exact Timed.silent (e := ⟨i, k, now'⟩) h hk (List.getElem?_eq_some_iff.mp hu).1 hnow

/-- Before a request calls `User.check`. -/
theorem Timed.updated (h : Timed gen s events now) (hnow : now ≤ now') (r : Request) :
    Timed gen (updated gen s now' r) (events ++ event gen s now' r) now' := by
  cases r with
  | login username =>
    simp only [Activity.updated, event]
    cases hrefuses : s.refuses username with
    | true =>
      rw [create_refused hrefuses, Option.toList_none, List.map_nil, List.append_nil]
      exact h.later hnow
    | false =>
      obtain ⟨t, ht, hcreate⟩ := create_accepted now' h.users hrefuses
      rw [hcreate]
      exact h.accepted hnow ht
  | logout token =>
    have ht := (h.later hnow).of_lastseen (represented_step h.users (.logout token))
    rw [event, List.append_nil]
    apply ht
    simp only [UserStorage.step, UserStorage.logout]
    split
    · exact lastseen_modify_setOffline _ _
    · rfl
  | listUsers token => exact h.authenticated (.inl rfl) token hnow
  | userInfo token id => exact h.update (.inr (.inl rfl)) token hnow
  | newMessage token => exact h.authenticated (.inr rfl) token hnow
  | listMessages token => exact h.update (.inr (.inr rfl)) token hnow

/-- `User.check` takes no time. -/
theorem Timed.handled {now : Nat → Int} {r : Request}
    (h : Timed gen (Activity.updated gen s (now 0) r) events (now 0)) :
    Timed gen (Activity.handled gen s now r) events (now 0) := by
  unfold Activity.handled
  split
  · split
    · refine h.of_lastseen (represented_step h.users (.listUsers _)) ?_
      simp only [UserStorage.listUsers, mapIdx_check_eq, checksAll]
      exact List.ext_getElem? fun k => by simp [Function.comp_def]
    · exact h
  · split
    · apply h.of_lastseen (represented_step h.users (.get _ _))
      exact lastseen_checkUntil _ _ _
    · exact h
  · exact h

theorem reading_zero_le (clock : Int) (ticks : Nat → Nat) (k : Nat) :
    reading clock ticks 0 ≤ reading clock ticks k := by
  induction k with
  | zero => exact Int.le_refl _
  | succ k ih =>
    simp only [reading] at ih ⊢
    omega

theorem le_reading_zero (clock : Int) (ticks : Nat → Nat) : clock ≤ reading clock ticks 0 := by
  simp only [reading]
  omega

variable {a : Activity} {r : Request × (Nat → Nat)}

theorem timed_handle (h : Timed gen a.users a.events a.clock) (r : Request × (Nat → Nat)) :
    Timed gen (a.handle gen r).users (a.handle gen r).events (a.handle gen r).clock :=
  (h.updated (le_reading_zero _ _) r.1).handled.later (reading_zero_le _ _ _)

theorem timed_after (gen : String → String) (clock : Int) (rs : List (Request × (Nat → Nat))) :
    Timed gen (after gen clock rs).users (after gen clock rs).events
      (after gen clock rs).clock := by
  induction rs using List.reverseRecOn with
  | nil => exact timed_empty gen clock
  | append_singleton rs r ih =>
    rw [after, List.foldl_append]
    exact timed_handle ih r

theorem mem_of_checks {now : Nat → Int} {r : Request} {c : Check} (h : c ∈ checks gen s now r) :
    c.user ∈ (Activity.updated gen s (now 0) r).userList := by
  unfold checks at h
  split at h
  · split at h
    · exact mem_of_checksAll h
    · cases h
  · split at h
    · exact mem_of_checksUntil h
    · cases h
  · cases h

/-- A user is marked exactly if nothing took the time within the timeout. -/
theorem Timed.expired_iff (h : Timed gen s events now) {c : Check} (hc : c.user ∈ s.userList) :
    c.Expired ↔ ∀ e ∈ events, e.kind.Refreshes → ¬ c.Recent e := by
  obtain ⟨i, hi⟩ := List.mem_iff_getElem?.mp hc
  have hid := h.users.ids i c.user hi
  constructor
  · rintro hexpired e he hk ⟨heid, hrecent⟩
    have hle := h.last i c.user hi e he (heid.trans hid) hk
    unfold Check.Expired at hexpired
    omega
  · intro hnone
    obtain ⟨e, he, heid, hk, htime⟩ := h.taken i c.user hi
    have hnot : ¬ c.Recent e := hnone e he hk
    simp only [Check.Recent, heid, hid, htime, true_and] at hnot
    unfold Check.Expired
    omega

theorem justified_iff (h : Timed gen a.users a.events a.clock) :
    Justified gen a r ↔ Refreshed gen a r := by
  have hupdated := h.updated (le_reading_zero a.clock r.2) r.1
  constructor
  · rintro hj c hc ⟨e, he, hsilent, hrecent⟩
    by_contra hnone
    have hexpired : c.Expired := by
      apply (hupdated.expired_iff (mem_of_checks hc)).mpr
      intro e' he' hk hrecent'
      exact hnone ⟨e', he', hk, hrecent'⟩
    refine hj c hc hexpired e he ?_ hrecent
    rintro hlogin
    rcases hsilent with hk | hk <;> rw [hk] at hlogin <;> cases hlogin
  · intro hr c hc hexpired e he hlogin hrecent
    have hnone := (hupdated.expired_iff (mem_of_checks hc)).mp hexpired
    rcases e.kind.refreshes_or_silent with hk | hk
    · exact hnone e he hk hrecent
    · obtain ⟨e', he', hk', hrecent'⟩ := hr c hc ⟨e, he, hk, hrecent⟩
      exact hnone e' he' hk' hrecent'

/-- Through any requests nobody is marked who made one within the timeout before, exactly if
everybody checked after listing the users or posting did something that takes the time too. -/
theorem justified_run_iff (gen : String → String) (clock : Int)
    (rs : List (Request × (Nat → Nat))) :
    (∀ rs' r, rs' ++ [r] <+: rs → Justified gen (after gen clock rs') r) ↔
      ∀ rs' r, rs' ++ [r] <+: rs → Refreshed gen (after gen clock rs') r := by
  constructor
  · intro h rs' r hprefix
    exact (justified_iff (timed_after gen clock rs')).mp (h rs' r hprefix)
  · intro h rs' r hprefix
    exact (justified_iff (timed_after gen clock rs')).mpr (h rs' r hprefix)

/-- A login, and a minute later the same user lists the users. -/
def listAfterMinute : List (Request × (Nat → Nat)) :=
  [(.login "a", fun _ => 0),
    (.listUsers (History.tokenOfA "a"), fun k => if k = 0 then 60001 else 0)]

/-- The request marks its own author. -/
theorem not_justified_listAfterMinute :
    ¬ ∀ rs' r, rs' ++ [r] <+: listAfterMinute →
      Justified History.tokenOfA (after History.tokenOfA 0 rs') r := by
  intro h
  have hlast := h [(.login "a", fun _ => 0)]
    (.listUsers (History.tokenOfA "a"), fun k => if k = 0 then 60001 else 0) (List.prefix_refl _)
  refine hlast ⟨⟨0, "a", some true, 0⟩, 60001⟩ ?_ (by decide) ⟨0, .listUsers, 60001⟩ ?_
    (by decide) ⟨rfl, by decide⟩
  · decide
  · decide

end Activity

end NetworkLabs.Chat
