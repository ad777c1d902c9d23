import NetworkLabs.Chat.Logout
import NetworkLabs.Chat.UserList

/-! A client that follows the users of its server, over any operations in between. -/
namespace NetworkLabs.Chat

open Transition UserStorage UserList

/-- The users on the server and the list of the client, which is gone after an exception. -/
structure Watch where
  server : UserStorage
  users : Option (List ListedUser)

namespace Watch

/-- Somebody calls the server, or the client fetches the list. -/
inductive Action
  | serve (op : Operation)
  | fetch (now : Nat → Int)

/-- What the action is on the server. -/
def Action.operation : Action → Operation
  | .serve op => op
  | .fetch now => .listUsers now

/-- The list that is fetched. -/
def fetched (w : Watch) (now : Nat → Int) : List ListedUser :=
  (w.server.listUsers now).userList.map User.listed

def step (version : Version) (gen : String → String) (w : Watch) : Action → Watch
  | .serve op => { w with server := (w.server.step gen op).1 }
  | .fetch now =>
    { server := w.server.listUsers now
      users := w.users.bind fun users =>
        (version.updateList users (w.fetched now)).toOption.map fun _ => w.fetched now }

def initial : Watch := ⟨.empty, some []⟩

def after (version : Version) (gen : String → String) (as : List Action) : Watch :=
  as.foldl (step version gen) initial

/-- The call of `updateList` goes through and announces whom it should. -/
def Right (version : Version) (w : Watch) : Action → Prop
  | .serve _ => True
  | .fetch now => ∀ users, w.users = some users → version.Right users (w.fetched now)

/-- Since the list that the client has, a user who was null there has logged out and has not timed
out again, or the fourth client fetches a new user who has timed out already. -/
def Misled (version : Version) (w : Watch) : Action → Prop
  | .serve _ => False
  | .fetch now => ∃ users, w.users = some users ∧ version.Misled users (w.fetched now)

variable {version : Version} {gen : String → String} {w : Watch} {a : Action} {s t : UserStorage}

/-- The client has the list as it once was. -/
structure Watching (gen : String → String) (w : Watch) : Prop where
  server : w.server.Represented gen
  users : ∀ users, w.users = some users → ∃ s : UserStorage, s.Represented gen ∧
    users = s.userList.map User.listed ∧ s.Extends w.server

theorem follows_listed {us vs : List User} {k : Nat}
    (hus : ∀ (i : Nat) (u : User), us[i]? = some u → u.id = k + i)
    (hvs : ∀ (i : Nat) (v : User), vs[i]? = some v → v.id = k + i)
    (h : (us.map fun u => (u.id, u.username)) <+: vs.map fun v => (v.id, v.username)) :
    Follows k (us.map User.listed) (vs.map User.listed) := by
  induction vs generalizing us k with
  | nil =>
    have hnil : us = [] := by simpa using h
    rw [hnil]
    exact .nil
  | cons v vs ih =>
    have hrest : ∀ (i : Nat) (w : User), vs[i]? = some w → w.id = k + 1 + i := by
      intro i w hw
      have hid := hvs (i + 1) w hw
      omega
    cases us with
    | nil =>
      have hnone : ∀ (i : Nat) (u : User), ([] : List User)[i]? = some u → u.id = k + 1 + i := by
        intro i u hu
        cases hu
      exact .arrived (hvs 0 v rfl) (ih hnone hrest List.nil_prefix)
    | cons u us =>
      obtain ⟨heq, hpre⟩ := List.cons_prefix_cons.mp h
      refine .known (hus 0 u rfl) (hvs 0 v rfl) (Prod.mk.inj heq).2.symm (ih ?_ hrest hpre)
      intro i w hw
      have hid := hus (i + 1) w hw
      omega

theorem follows_of_extends (hs : s.Represented gen) (ht : t.Represented gen)
    (h : s.Extends t) : Follows 0 (s.userList.map User.listed) (t.userList.map User.listed) := by
  apply follows_listed
  · intro i u hu
    rw [Nat.zero_add]
    exact hs.ids i u hu
  · intro i v hv
    rw [Nat.zero_add]
    exact ht.ids i v hv
  · exact h

theorem watching_initial (gen : String → String) : initial.Watching gen := by
  refine ⟨represented_empty, ?_⟩
  rintro _ ⟨⟩
  exact ⟨.empty, represented_empty, rfl, List.prefix_refl _⟩

theorem watching_step (h : w.Watching gen) (a : Action) : (w.step version gen a).Watching gen := by
  cases a with
  | serve op =>
    refine ⟨represented_step h.server op, fun users husers => ?_⟩
    obtain ⟨s, hs, hlisted, hextends⟩ := h.users users husers
    exact ⟨s, hs, hlisted, hextends.trans (h.server.extends_step op)⟩
  | fetch now =>
    have hlisted := represented_step h.server (.listUsers now)
    refine ⟨hlisted, fun users husers => ⟨w.server.listUsers now, hlisted, ?_, List.prefix_rfl⟩⟩
    obtain ⟨users', -, hnew⟩ := Option.bind_eq_some_iff.mp husers
    obtain ⟨_, -, rfl⟩ := Option.map_eq_some_iff.mp hnew
    rfl

theorem watching_after (version : Version) (gen : String → String) (as : List Action) :
    (after version gen as).Watching gen := by
  induction as using List.reverseRecOn with
  | nil => exact watching_initial gen
  | append_singleton as a ih =>
    rw [after, List.foldl_append]
    exact watching_step ih a

theorem Watching.right_iff (h : w.Watching gen) (a : Action) :
    w.Right version a ↔ ¬ w.Misled version a := by
  cases a with
  | serve op => simp [Right, Misled]
  | fetch now =>
    have hright : ∀ users, w.users = some users →
        (version.Right users (w.fetched now) ↔ ¬ version.Misled users (w.fetched now)) := by
      intro users husers
      obtain ⟨s, hs, rfl, hextends⟩ := h.users users husers
      have hlisted := represented_step h.server (.listUsers now)
      have hlater := hextends.trans (h.server.extends_step (.listUsers now))
      exact (follows_of_extends hs hlisted hlater).right_iff
    constructor
    · rintro hall ⟨users, husers, hmisled⟩
      exact (hright users husers).mp (hall users husers) hmisled
    · intro hnot users husers
      exact (hright users husers).mpr fun hmisled => hnot ⟨users, husers, hmisled⟩

/-- Through any operations and fetches every update of the list is right, if and only if the client
is never misled. -/
theorem right_run_iff (version : Version) (gen : String → String) (as : List Action) :
    (∀ as' a, as' ++ [a] <+: as → (after version gen as').Right version a) ↔
      ∀ as' a, as' ++ [a] <+: as → ¬ (after version gen as').Misled version a := by
  constructor
  · intro h as' a hpre
    exact ((watching_after version gen as').right_iff a).mp (h as' a hpre)
  · intro h as' a hpre
    exact ((watching_after version gen as').right_iff a).mpr (h as' a hpre)

/-- Two users log in. A minute later one fetches the list, and then the other one is active again
and logs out. -/
def quitAfterTimeout : List Action :=
  [.serve (.create "b" 0), .serve (.create "a" 0), .fetch fun _ => 0, .fetch fun _ => 60001,
    .serve (.update (History.tokenOfA "a") 60001), .serve (.logout (History.tokenOfA "a"))]

theorem clocked_quitAfterTimeout :
    Clocked 0 ((quitAfterTimeout ++ [Action.fetch fun _ => 60002]).map Action.operation) := by
  have hconst : ∀ time start : Int, start ≤ time →
      (Operation.listUsers fun _ => time).Within start time :=
    fun time start h _ _ _ => ⟨h, Int.le_refl time, Int.le_refl time⟩
  have hquit : Clocked 60001 [.update (History.tokenOfA "a") 60001,
      .logout (History.tokenOfA "a"), .listUsers fun _ => 60002] :=
    .cons ⟨Int.le_refl 60001, Int.le_refl 60001⟩
      (.cons (Int.le_refl 60001) (.cons (hconst 60002 60001 (by decide)) .nil))
  exact .cons ⟨Int.le_refl 0, Int.le_refl 0⟩ (.cons ⟨Int.le_refl 0, Int.le_refl 0⟩
    (.cons (hconst 0 0 (Int.le_refl 0)) (.cons (hconst 60001 0 (by decide)) hquit)))

/-- Both clients announce that a user who has just quit is connected. -/
theorem not_right_quitAfterTimeout : ¬ ∃ version, ∀ gen as start,
    Clocked start (as.map Action.operation) →
      ∀ as' a, as' ++ [a] <+: as → (after version gen as').Right version a := by
  rintro ⟨version, h⟩
  have hright := h History.tokenOfA _ 0 clocked_quitAfterTimeout quitAfterTimeout
    (.fetch fun _ => 60002) List.prefix_rfl
  apply ((watching_after version History.tokenOfA quitAfterTimeout).right_iff _).mp hright
  refine ⟨[⟨0, "b", none⟩, ⟨1, "a", none⟩], ?_, .inl ⟨⟨1, "a", some false⟩, ?_, ?_⟩⟩
  · cases version <;> decide
  · cases version <;> decide
  · decide

end Watch

end NetworkLabs.Chat
