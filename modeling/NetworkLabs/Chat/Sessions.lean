import NetworkLabs.Chat.UserStorageFacts
import NetworkLabs.Transition

/-! Who is online, and what a token stands for, over any history of the store. -/
namespace NetworkLabs.Chat

open Transition UserStorage

variable {gen : String → String} {s t : UserStorage}

namespace UserStorage

/-- No name is online twice, and every user online has a token. -/
structure Consistent (s : UserStorage) : Prop where
  unique : ∀ (i j : Nat) (u v : User), s.userList[i]? = some u → s.userList[j]? = some v →
    u.online = some true → v.online = some true → u.username = v.username → i = j
  bound : ∀ u ∈ s.userList, u.online = some true →
    ∃ token, s.tokenMap.lookup token = some u.id

/-- A login is refused, or nobody is online under a name that generates its token. -/
def Admits (gen : String → String) (s : UserStorage) : Operation → Prop
  | .create username _ => s.refuses username = true ∨
      ∀ u ∈ s.userList, u.online = some true → gen u.username ≠ gen username
  | _ => True

/-- The token of a user who is online is the one that the name generates. -/
theorem Represented.lookup_gen (hs : s.Represented gen) {u : User} {token : String}
    (hu : u ∈ s.userList) (h : s.tokenMap.lookup token = some u.id) : token = gen u.username := by
  obtain ⟨v, hv, htoken⟩ := hs.tokens token u.id h
  have huv : v = u := hs.eq_of_id (List.mem_of_getElem? hv) hu (hs.ids u.id v hv)
  rw [← htoken, huv]

theorem Kept.consistent (h : Kept s t) (hc : s.Consistent) : t.Consistent := by
  refine ⟨?_, ?_⟩
  · intro i j u v hu hv hou hov hname
    obtain ⟨u', hu', hru⟩ := User.exists_left h.users hu
    obtain ⟨v', hv', hrv⟩ := User.exists_left h.users hv
    exact hc.unique i j u' v' hu' hv' (hru.online hou) (hrv.online hov)
      (by rw [← hru.username, ← hrv.username, hname])
  · intro v hv honline
    obtain ⟨i, hi⟩ := List.mem_iff_getElem?.mp hv
    obtain ⟨u, hu, hr⟩ := User.exists_left h.users hi
    obtain ⟨token, htoken⟩ := hc.bound u (List.mem_of_getElem? hu) (hr.online honline)
    rw [← hr.id] at htoken
    exact ⟨token, h.kept token v hv honline htoken⟩

theorem Accepted.consistent_iff_distinct {username : String} {now : Int}
    (h : Accepted gen s username now t)
    (hs : s.Represented gen) (hc : s.Consistent) :
    t.Consistent ↔ ∀ u ∈ s.userList, u.online = some true → gen u.username ≠ gen username := by
  constructor
  · intro ht u hu honline hgen
    have hu' : u ∈ t.userList := by
      rw [h.userList]
      exact List.mem_append_left _ hu
    obtain ⟨token, htoken⟩ := ht.bound u hu' honline
    have heq := (h.represented hs).lookup_gen hu' htoken
    rw [hgen] at heq
    rw [heq, h.new] at htoken
    obtain ⟨i, hi⟩ := List.mem_iff_getElem?.mp hu
    have hlt := (List.getElem?_eq_some_iff.mp hi).1
    have hid := hs.ids i u hi
    have hcurr := hs.currID
    have := Option.some.inj htoken
    omega
  · intro hnew
    have hname : ∀ (i : Nat) (u : User), s.userList[i]? = some u → u.online = some true →
        u.username ≠ username := fun i u hu honline heq =>
      hnew u (List.mem_of_getElem? hu) honline (by rw [heq])
    have hcase : ∀ (i : Nat) (u : User), t.userList[i]? = some u →
        s.userList[i]? = some u ∨
        (i = s.userList.length ∧ u = User.create s.currID username now) := by
      intro i u hu
      rw [h.userList, List.getElem?_append] at hu
      split at hu
      · exact .inl hu
      · have hi := List.getElem?_eq_some_iff.mp hu
        simp only [List.length_singleton] at hi
        obtain ⟨hlt, heq⟩ := hi
        refine .inr ⟨by omega, ?_⟩
        simp only [Nat.lt_one_iff] at hlt
        simpa [hlt] using heq.symm
    refine ⟨?_, ?_⟩
    · intro i j u v hu hv hou hov heq
      rcases hcase i u hu with hu | ⟨hi, rfl⟩ <;> rcases hcase j v hv with hv | ⟨hj, rfl⟩
      · exact hc.unique i j u v hu hv hou hov heq
      · exact absurd heq (hname i u hu hou)
      · exact absurd heq.symm (hname j v hv hov)
      · rw [hi, hj]
    · intro u hu honline
      obtain ⟨i, hi⟩ := List.mem_iff_getElem?.mp hu
      rcases hcase i u hi with hi | ⟨-, rfl⟩
      · have hmem := List.mem_of_getElem? hi
        obtain ⟨token, htoken⟩ := hc.bound u hmem honline
        refine ⟨token, h.kept token u hmem ?_ honline htoken⟩
        rw [hs.lookup_gen hmem htoken]
        exact hnew u hmem honline
      · exact ⟨gen username, h.new⟩

theorem consistent_step_iff (hs : s.Represented gen) (hc : s.Consistent) (op : Operation) :
    (s.step gen op).1.Consistent ↔ s.Admits gen op := by
  rcases step_cases hs op with ⟨username, now, t, rfl, hrefuses, ht, hstep⟩ |
    ⟨hrefuses, t, ht, hstep⟩
  · rw [hstep, ht.consistent_iff_distinct hs hc]
    simp [Admits, hrefuses]
  · rw [hstep]
    apply iff_of_true (ht.consistent hc)
    cases op with
    | create username now => exact .inl (hrefuses username now rfl)
    | _ => trivial

theorem consistent_empty : empty.Consistent := ⟨by simp [empty], by simp [empty]⟩

end UserStorage

namespace History

/-- Through a history nobody is online twice or without a token exactly if each login is
admitted. -/
theorem consistent_iff (gen : String → String) (ops : List Operation) :
    Always (fun ops => (after gen ops).users.Consistent) ops ↔
      ∀ ops' op, ops' ++ [op] <+: ops → (after gen ops').users.Admits gen op :=
  always_foldl_iff (step gen) (fun h => h.users.Represented gen) (fun h => h.users.Consistent)
    (fun h op => h.users.Admits gen op) (fun _ op hs => represented_step hs op) represented_empty
    consistent_empty (fun _ op hs hc => consistent_step_iff hs hc op) ops

/-- What `nameUUIDFromBytes` makes of the name `a`. -/
def tokenOfA (name : String) : String :=
  if name = "a" then "0cc175b9-c0f1-36a8-b1c3-99e269772661" else name

/-- Login and logout, and two more logins under the same name. -/
def loginAgain : List Operation :=
  [.create "a" 0, .logout (tokenOfA "a"), .create "a" 0, .create "a" 0]

/-- The first account stays offline, so the name is online twice in the end. -/
theorem not_consistent_loginAgain : ¬ (after tokenOfA loginAgain).users.Consistent := by
  intro h
  have := h.unique 1 2 ⟨1, "a", some true, 0⟩ ⟨2, "a", some true, 0⟩ (by decide)
    (by decide) rfl rfl rfl
  omega

/-- The tokens of successful logins differ, and none is accepted for the user of another login. -/
structure Identified (h : History) : Prop where
  nodup : (h.logins.map LoginInfo.token).Nodup
  own : ∀ info ∈ h.logins, ∀ (i : Nat) (u : User), h.users.checkToken info.token = some i →
    h.users.userList[i]? = some u → u.id = info.id

/-- A login is refused, or no account has a name that generates its token. -/
def Fresh (gen : String → String) (h : History) : Operation → Prop
  | .create username _ => h.users.refuses username = true ∨
      ∀ u ∈ h.users.userList, gen u.username ≠ gen username
  | _ => True

/-- Every account comes from one successful login. -/
structure Recorded (gen : String → String) (h : History) : Prop where
  users : h.users.Represented gen
  logins : h.logins.map (fun info => (info.id, info.token)) =
    h.users.userList.map fun u => (u.id, gen u.username)

theorem map_renewed {β : Type} {us vs : List User} {f : User → β}
    (hf : ∀ u v : User, u.Renewed v → f v = f u) (h : List.Forall₂ User.Renewed us vs) :
    vs.map f = us.map f := by
  induction h with
  | nil => rfl
  | cons huv _ ih => rw [List.map_cons, List.map_cons, hf _ _ huv, ih]

theorem recorded_step {h : History} (hr : h.Recorded gen) (op : Operation) :
    (h.step gen op).Recorded gen := by
  refine ⟨represented_step hr.users op, ?_⟩
  rcases step_cases hr.users op with ⟨username, now, t, -, -, ht, hstep⟩ | ⟨-, t, ht, hstep⟩
  · simp only [step, hstep, Option.toList_some, List.map_append, hr.logins, ht.userList]
    rfl
  · simp only [step, hstep, Option.toList_none, List.append_nil, hr.logins]
    exact (map_renewed (fun u v huv => by rw [huv.id, huv.username]) ht.users).symm

theorem Recorded.tokens {h : History} (hr : h.Recorded gen) :
    h.logins.map LoginInfo.token = h.users.userList.map fun u => gen u.username := by
  have heq := congrArg (List.map Prod.snd) hr.logins
  rw [List.map_map, List.map_map] at heq
  exact heq

/-- Tokens identify logins exactly if the names of the accounts generate different tokens. -/
theorem Recorded.identified_iff_nodup {h : History} (hr : h.Recorded gen) :
    h.Identified ↔ (h.users.userList.map fun u => gen u.username).Nodup := by
  rw [← hr.tokens]
  refine ⟨fun hi => hi.nodup, fun hnodup => ⟨hnodup, ?_⟩⟩
  intro info hinfo i u hcheck hu
  obtain ⟨-, u', hu', hid, htoken⟩ := checkToken_spec hr.users hcheck
  obtain rfl := Option.some.inj (hu.symm.trans hu')
  have hmem : (info.id, info.token) ∈ h.users.userList.map fun u => (u.id, gen u.username) := by
    rw [← hr.logins]
    exact List.mem_map_of_mem hinfo
  obtain ⟨v, hv, heq⟩ := List.mem_map.mp hmem
  simp only [Prod.mk.injEq] at heq
  rw [hr.tokens] at hnodup
  rw [← heq.1, List.inj_on_of_nodup_map hnodup (List.mem_of_getElem? hu) hv
    (htoken.trans heq.2.symm)]

theorem identified_step_iff {h : History} (hr : h.Recorded gen) (hi : h.Identified)
    (op : Operation) :
    (h.step gen op).Identified ↔ h.Fresh gen op := by
  have hnodup := hr.identified_iff_nodup.mp hi
  rw [(recorded_step hr op).identified_iff_nodup]
  rcases step_cases hr.users op with ⟨username, now, t, rfl, hrefuses, ht, hstep⟩ |
    ⟨hrefuses, t, ht, hstep⟩
  · simp only [step, hstep, ht.userList, List.map_append, List.map_cons, List.map_nil, Fresh,
      hrefuses,
      Bool.false_eq_true, false_or, List.nodup_append, hnodup, List.nodup_singleton, true_and,
      List.mem_singleton, List.forall_mem_map, forall_eq]
    rfl
  · have hnames : t.userList.map (fun u => gen u.username) =
        h.users.userList.map fun u => gen u.username :=
      map_renewed (fun u v huv => by rw [huv.username]) ht.users
    simp only [step, hstep, hnames]
    apply iff_of_true hnodup
    cases op with
    | create username now => exact .inl (hrefuses username now rfl)
    | _ => trivial

theorem identified_empty : Identified ⟨.empty, []⟩ := ⟨List.nodup_nil, nofun⟩

/-- Through a history tokens identify logins exactly if no name generates a token twice. -/
theorem identified_iff (gen : String → String) (ops : List Operation) :
    Always (fun ops => (after gen ops).Identified) ops ↔
      ∀ ops' op, ops' ++ [op] <+: ops → (after gen ops').Fresh gen op :=
  always_foldl_iff (step gen) (fun h => h.Recorded gen) Identified (fun h op => h.Fresh gen op)
    (fun _ op hr => recorded_step hr op) ⟨represented_empty, rfl⟩
    identified_empty
    (fun _ op hr hi => identified_step_iff hr hi op) ops

/-- Two logins under one name with a logout in between get the same token. -/
theorem not_identified_login_twice :
    (after tokenOfA [.create "a" 0, .logout (tokenOfA "a"), .create "a" 0]).logins.map
      LoginInfo.token = [tokenOfA "a", tokenOfA "a"] ∧
    ¬ (after tokenOfA [.create "a" 0, .logout (tokenOfA "a"), .create "a" 0]).Identified := by
  refine ⟨by decide, fun h => ?_⟩
  exact absurd h.nodup (by decide)

end History

end NetworkLabs.Chat
