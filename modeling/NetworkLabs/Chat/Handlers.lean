import NetworkLabs.Chat.MessageStorage
import NetworkLabs.Chat.UserStorage
import Mathlib.Logic.Function.Basic

/-! The handlers of the authenticated requests: every write to the exchange in its order. -/
namespace NetworkLabs.Chat

/-- The header names that the handlers use. -/
inductive HeaderName
  | contentType
  | wwwAuthenticate
  | authorization
deriving DecidableEq

/-- What a response begins with. -/
structure Exchange where
  statusCode : Nat
  responseHeaders : HeaderName → Option String

namespace Exchange

/-- Nothing is set yet. -/
def fresh : Exchange := ⟨200, fun _ => none⟩

def setStatusCode (e : Exchange) (code : Nat) : Exchange := { e with statusCode := code }

def put (e : Exchange) (name : HeaderName) (value : String) : Exchange :=
  { e with responseHeaders := Function.update e.responseHeaders name (some value) }

def remove (e : Exchange) (name : HeaderName) : Exchange :=
  { e with responseHeaders := Function.update e.responseHeaders name none }

/-- An uncaught exception: the headers set so far stay. -/
def thrown (e : Exchange) : Exchange := e.setStatusCode 500

/-- How the handlers set up a response that asks for no token. -/
def answered (e : Exchange) (code : Nat) : Exchange :=
  ((e.setStatusCode code).put .contentType "application/json").remove .wwwAuthenticate

variable {e : Exchange} {code : Nat} {name : HeaderName} {value : String}

@[simp] theorem setStatusCode_statusCode : (e.setStatusCode code).statusCode = code := rfl

@[simp] theorem setStatusCode_responseHeaders :
    (e.setStatusCode code).responseHeaders = e.responseHeaders := rfl

@[simp] theorem put_statusCode : (e.put name value).statusCode = e.statusCode := rfl

@[simp] theorem thrown_statusCode : e.thrown.statusCode = 500 := rfl

@[simp] theorem thrown_responseHeaders : e.thrown.responseHeaders = e.responseHeaders := rfl

@[simp] theorem answered_statusCode : (e.answered code).statusCode = code := rfl

@[simp] theorem answered_wwwAuthenticate :
    (e.answered code).responseHeaders .wwwAuthenticate = none := by
  simp [answered, remove]

end Exchange

/-- A query parameter, as `Integer.valueOf` or `Long.valueOf` reads the first value. -/
inductive Parameter
  | absent
  | malformed
  | number (n : Int)
deriving DecidableEq

/-- The body of a new message: no JSON object, one without the text, one whose text is of another
type, or the text. -/
inductive Body
  | malformed
  | missing
  | mistyped
  | message (text : String)
deriving DecidableEq

structure HttpRequest where
  method : String
  authorization : Option String
  id : Parameter
  offset : Parameter
  count : Parameter
  body : Body

/-- The stores that the handlers share. -/
structure Stores where
  users : UserStorage
  messages : MessageStorage

/-- `UserStorage.get` of a `long`: no user has a negative id, so all are checked. -/
def UserStorage.getLong (s : UserStorage) (id : Int) (now : Nat → Int) :
    UserStorage × Option User :=
  match id with
  | .ofNat id => s.get id now
  | .negSucc _ => (s.listUsers now, none)

namespace CommonHandlers

def wrongFormatHandler (e : Exchange) : Exchange := e.answered 400

def authErrorHandler (e : Exchange) : Exchange :=
  ((e.setStatusCode 401).put .contentType "application/json").put .wwwAuthenticate
    "Token realm='Username is already in use'"

def notFoundHandler (e : Exchange) : Exchange := e.answered 404

def wrongMethodHandler (e : Exchange) : Exchange := e.answered 405

/-- `substring(6)` of the header. An absent or shorter one is an exception. -/
def token (r : HttpRequest) : Option String :=
  r.authorization.bind fun header =>
    if 6 ≤ header.length then some (String.ofList (header.toList.drop 6)) else none

/-- The test looks at the headers of the response. -/
def getToken (r : HttpRequest) (e : Exchange) : Exchange × Option String :=
  (if (e.responseHeaders .authorization).isSome then e else authErrorHandler e, token r)

/-- How each handler begins: the user of the token, or an error. `handle` is the rest of it. -/
def authenticated (r : HttpRequest) (s : Stores) (e : Exchange)
    (handle : Exchange → String → Nat → Exchange × Stores) : Exchange × Stores :=
  let (e, token) := getToken r e
  match token with
  | none => (e.thrown, s)
  | some token =>
    match s.users.checkToken token with
    | none => (authErrorHandler e, s)
    | some user => handle e token user

end CommonHandlers

open CommonHandlers

/-- The body is sent as text, so the header of `getToken` stays. -/
def LogoutHandler.handleRequest (r : HttpRequest) (s : Stores) : Exchange × Stores :=
  if r.method ≠ "POST" then (wrongMethodHandler .fresh, s)
  else authenticated r s .fresh fun e token user =>
    ((e.setStatusCode 200).put .contentType "application/json",
      { s with users := s.users.delete user token })

def UserListHandler.handleRequest (r : HttpRequest) (now : Nat → Int) (s : Stores) :
    Exchange × Stores :=
  if r.method ≠ "GET" then (wrongMethodHandler .fresh, s)
  else authenticated r s .fresh fun e _ _ =>
    (e.answered 200, { s with users := s.users.listUsers now })

def UserInfoHandler.handleRequest (r : HttpRequest) (now : Nat → Int) (s : Stores) :
    Exchange × Stores :=
  if r.method ≠ "GET" then (wrongMethodHandler .fresh, s)
  else authenticated r s .fresh fun e token _ =>
    let users := s.users.update token (now 0)
    match r.id with
    | .number id =>
      let (users, target) := users.getLong id fun k => now (k + 1)
      (if target.isSome then e.answered 200 else notFoundHandler e, { s with users := users })
    | .absent | .malformed => (e.thrown, { s with users := users })

namespace MessageHandler

/-- The body is read before the token. -/
def newMessage (r : HttpRequest) (s : Stores) : Exchange × Stores :=
  match r.body with
  | .malformed => (Exchange.fresh.thrown, s)
  | body => authenticated r s .fresh fun e _ user =>
    match body with
    | .message text =>
      let authorID := (s.users.userList[user]?.map User.id).getD user
      (e.answered 200, { s with messages := s.messages.create text authorID })
    | .missing => (wrongFormatHandler e, s)
    | .malformed | .mistyped => (e.thrown, s)

/-- The defaults of `offset` and `count` are never used: what is absent is null. -/
def listMessage (r : HttpRequest) (now : Nat → Int) (s : Stores) : Exchange × Stores :=
  authenticated r s .fresh fun e token _ =>
    let s := { s with users := s.users.update token (now 0) }
    match r.offset, r.count with
    | .number offset, .number count =>
      match s.messages.getAll (max offset 0) (max count 0) with
      | some _ => (e.answered 200, s)
      | none => ((e.answered 200).thrown, s)
    | _, _ => (e.thrown, s)

def handleRequest (r : HttpRequest) (now : Nat → Int) (s : Stores) : Exchange × Stores :=
  if r.method = "POST" then newMessage r s
  else if r.method = "GET" then listMessage r now s
  else (wrongMethodHandler .fresh, s)

end MessageHandler

/-- The paths that need a token. -/
inductive Endpoint
  | logout
  | users
  | user
  | messages
deriving DecidableEq

/-- A request, with the readings of the clock during it. -/
def Endpoint.handle (endpoint : Endpoint) (r : HttpRequest) (now : Nat → Int) (s : Stores) :
    Exchange × Stores :=
  match endpoint with
  | .logout => LogoutHandler.handleRequest r s
  | .users => UserListHandler.handleRequest r now s
  | .user => UserInfoHandler.handleRequest r now s
  | .messages => MessageHandler.handleRequest r now s

end NetworkLabs.Chat
