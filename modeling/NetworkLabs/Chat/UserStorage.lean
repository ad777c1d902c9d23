import Mathlib.Data.List.AList

/-! The accounts and tokens of the HTTP chat servers. -/
namespace NetworkLabs.Chat

/-- `User.TIMEOUT`, in milliseconds. -/
def timeout : Int := 1 * 60 * 1000

/-- An account. `online` is `none` where it is null: the user timed out. -/
structure User where
  id : Nat
  username : String
  online : Option Bool
  lastseen : Int
deriving DecidableEq

namespace User

def create (id : Nat) (name : String) (now : Int) : User := ⟨id, name, some true, now⟩

def update (u : User) (now : Int) : User := { u with lastseen := now }

def check (u : User) (now : Int) : User :=
  if now - u.lastseen > timeout then { u with online := none } else u

def setOffline (u : User) : User := { u with online := some false }

end User

structure LoginInfo where
  id : Nat
  username : String
  online : Option Bool
  token : String
deriving DecidableEq

/-- `UserStorage`. The users are objects: an operation changes them where they are in the list. -/
structure UserStorage where
  userList : List User
  tokenMap : AList fun _ : String => Nat
  currID : Nat

namespace UserStorage

def empty : UserStorage := ⟨[], ∅, 0⟩

/-- The first token found for the user is removed. -/
def removeToken (s : UserStorage) (user : User) : UserStorage :=
  match s.tokenMap.entries.find? fun entry => user.id = entry.2 with
  | some entry => { s with tokenMap := s.tokenMap.erase entry.1 }
  | none => s

/-- The account and the token that `create` makes in the end. -/
def add (generateToken : String → String) (s : UserStorage) (username : String) (now : Int) :
    UserStorage × LoginInfo :=
  let newUser := User.create s.currID username now
  let token := generateToken username
  ({ userList := s.userList ++ [newUser]
     tokenMap := s.tokenMap.insert token s.currID
     currID := s.currID + 1 }, ⟨newUser.id, newUser.username, newUser.online, token⟩)

/-- Only the first account of the name decides. -/
def create (generateToken : String → String) (s : UserStorage) (username : String) (now : Int) :
    UserStorage × Option LoginInfo :=
  match s.userList.find? fun user => user.username = username with
  | some user =>
    match user.online with
    | some true => (s, none)
    | none | some false =>
      let (s', info) := (s.removeToken user).add generateToken username now
      (s', some info)
  | none =>
    let (s', info) := s.add generateToken username now
    (s', some info)

/-- Where the user of a token is in the list. -/
def checkToken (s : UserStorage) (token : String) : Option Nat :=
  (s.tokenMap.lookup token).bind fun id => s.userList.findIdx? fun user => user.id = id

def delete (s : UserStorage) (i : Nat) (token : String) : UserStorage :=
  { s with userList := s.userList.modify i User.setOffline, tokenMap := s.tokenMap.erase token }

/-- The users that `get` looks at are checked, each with a reading of the clock of its own. -/
def checkUntil (id : Nat) (now : Nat → Int) : List User → List User
  | [] => []
  | user :: users =>
    if user.id = id then user.check (now 0) :: users
    else user.check (now 0) :: checkUntil id (fun k => now (k + 1)) users

def get (s : UserStorage) (id : Nat) (now : Nat → Int) : UserStorage × Option User :=
  let users := checkUntil id now s.userList
  ({ s with userList := users }, users.find? fun user => user.id = id)

def listUsers (s : UserStorage) (now : Nat → Int) : UserStorage :=
  { s with userList := s.userList.mapIdx fun k user => user.check (now k) }

/-- `LogoutHandler`: `checkToken`, then `delete`. -/
def logout (s : UserStorage) (token : String) : UserStorage :=
  match s.checkToken token with
  | some i => s.delete i token
  | none => s

/-- What the handlers of authenticated requests do: `checkToken`, then `User.update`. -/
def update (s : UserStorage) (token : String) (now : Int) : UserStorage :=
  match s.checkToken token with
  | some i => { s with userList := s.userList.modify i fun user => user.update now }
  | none => s

/-- The calls on the store, with the readings of the clock during them. -/
inductive Operation
  | create (username : String) (now : Int)
  | logout (token : String)
  | get (id : Nat) (now : Nat → Int)
  | listUsers (now : Nat → Int)
  | update (token : String) (now : Int)

def step (generateToken : String → String) (s : UserStorage) :
    Operation → UserStorage × Option LoginInfo
  | .create username now => s.create generateToken username now
  | .logout token => (s.logout token, none)
  | .get id now => ((s.get id now).1, none)
  | .listUsers now => (s.listUsers now, none)
  | .update token now => (s.update token now, none)

end UserStorage

/-- The store after some operations, and what the successful logins returned. -/
structure History where
  users : UserStorage
  logins : List LoginInfo

namespace History

def step (generateToken : String → String) (h : History) (op : UserStorage.Operation) : History :=
  let (users, info) := h.users.step generateToken op
  ⟨users, h.logins ++ info.toList⟩

def after (generateToken : String → String) (ops : List UserStorage.Operation) : History :=
  ops.foldl (step generateToken) ⟨.empty, []⟩

end History

end NetworkLabs.Chat
