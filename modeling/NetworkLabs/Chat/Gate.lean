import NetworkLabs.Chat.Handlers
import NetworkLabs.Chat.Tokens

/-! Which requests are turned away for their token, and how. -/
namespace NetworkLabs.Chat

open UserStorage CommonHandlers

variable {gen : String → String} {r : HttpRequest} {s : Stores} {e : Exchange}
  {handle : Exchange → String → Nat → Exchange × Stores} {endpoint : Endpoint} {now : Nat → Int}

namespace Exchange

/-- The client is asked for another token. -/
def Refused (e : Exchange) : Prop :=
  e.statusCode = 401 ∧ (e.responseHeaders .wwwAuthenticate).isSome

/-- The response does not speak of the token. -/
def Admitted (e : Exchange) : Prop :=
  e.statusCode ≠ 401 ∧ e.responseHeaders .wwwAuthenticate = none

theorem admitted_answered {code : Nat} (hcode : code ≠ 401) : (e.answered code).Admitted :=
  ⟨hcode, answered_wwwAuthenticate⟩

end Exchange

/-- The method is the endpoint's, and what a handler reads of the request can be read. The range
of a message list may be left out. -/
def HttpRequest.WellFormed (r : HttpRequest) : Endpoint → Prop
  | .logout => r.method = "POST"
  | .users => r.method = "GET"
  | .user => r.method = "GET" ∧ ∃ id, r.id = .number id
  | .messages => (r.method = "POST" ∧ ∃ text, r.body = .message text) ∨
      (r.method = "GET" ∧ r.offset ≠ .malformed ∧ r.count ≠ .malformed)

/-- The header holds a token that some user has. -/
def UserStorage.Accepts (s : UserStorage) (r : HttpRequest) : Prop :=
  ∃ header token id, r.authorization = some header ∧ 6 ≤ header.length ∧
    token = String.ofList (header.toList.drop 6) ∧ s.tokenMap.lookup token = some id

/-- What the endpoint owes a request and its token. -/
def Guarded (endpoint : Endpoint) (r : HttpRequest) (now : Nat → Int) (s : Stores) : Prop :=
  (¬ s.users.Accepts r → (endpoint.handle r now s).1.Refused ∧ (endpoint.handle r now s).2 = s) ∧
    (s.users.Accepts r → (endpoint.handle r now s).1.Admitted)

/-- The header is long enough to be cut, and a user neither logs out nor leaves the range of a
message list to its defaults. -/
def Unaffected (endpoint : Endpoint) (r : HttpRequest) (s : Stores) : Prop :=
  (∃ header, r.authorization = some header ∧ 6 ≤ header.length) ∧
    (s.users.Accepts r → endpoint ≠ .logout ∧
      (endpoint = .messages → r.method = "GET" → r.offset ≠ .absent ∧ r.count ≠ .absent))

theorem token_eq_none_iff : token r = none ↔
    ¬ ∃ header, r.authorization = some header ∧ 6 ≤ header.length := by
  cases h : r.authorization with
  | none => simp [token, h]
  | some header => simp [token, h]

theorem accepts_iff {t : String} (ht : token r = some t) :
    s.users.Accepts r ↔ ∃ id, s.users.tokenMap.lookup t = some id := by
  obtain ⟨header, hheader, ht⟩ := Option.bind_eq_some_iff.mp ht
  split at ht <;> cases ht
  rename_i hlen
  constructor
  · rintro ⟨header', _, id, hheader', -, rfl, hid⟩
    cases hheader.symm.trans hheader'
    exact ⟨id, hid⟩
  · rintro ⟨id, hid⟩
    exact ⟨header, _, id, hheader, hlen, rfl, hid⟩

/-- The header of a refusal is set before the token is looked at, whatever it is. -/
theorem authenticated_cases (r : HttpRequest)
    (handle : Exchange → String → Nat → Exchange × Stores) (hs : s.users.Represented gen) :
    ((¬ ∃ header, r.authorization = some header ∧ 6 ≤ header.length) ∧
        authenticated r s .fresh handle = ((authErrorHandler .fresh).thrown, s)) ∨
    (¬ s.users.Accepts r ∧ (∃ header, r.authorization = some header ∧ 6 ≤ header.length) ∧
        authenticated r s .fresh handle = (authErrorHandler (authErrorHandler .fresh), s)) ∨
    (s.users.Accepts r ∧ (∃ header, r.authorization = some header ∧ 6 ≤ header.length) ∧
        ∃ t id, authenticated r s .fresh handle = handle (authErrorHandler .fresh) t id) := by
  cases ht : token r with
  | none =>
    refine .inl ⟨token_eq_none_iff.mp ht, ?_⟩
    simp only [authenticated, getToken, ht]
    rfl
  | some t =>
    have hheader : ∃ header, r.authorization = some header ∧ 6 ≤ header.length := by
      by_contra hno
      cases ht.symm.trans (token_eq_none_iff.mpr hno)
    right
    cases hid : s.users.tokenMap.lookup t with
    | none =>
      have hcheck : s.users.checkToken t = none := by simp [checkToken, hid]
      refine .inl ⟨by simp [accepts_iff ht, hid], hheader, ?_⟩
      simp only [authenticated, getToken, ht, hcheck]
      rfl
    | some id =>
      have hcheck := hs.checkToken_of_lookup hid
      refine .inr ⟨(accepts_iff ht).mpr ⟨id, hid⟩, hheader, t, id, ?_⟩
      simp only [authenticated, getToken, ht, hcheck]
      rfl

theorem refused_authErrorHandler : (authErrorHandler e).Refused :=
  ⟨rfl, by simp [authErrorHandler, Exchange.put]⟩

theorem not_admitted_of_header (h : (e.responseHeaders .wwwAuthenticate).isSome) :
    ¬ e.Admitted := by
  intro ha
  rw [ha.2] at h
  cases h

/-- An endpoint that begins with the token keeps its guard if the rest of it does. -/
theorem guarded_iff_of_rest {ok : Prop} (hs : s.users.Represented gen)
    (heq : endpoint.handle r now s = authenticated r s .fresh handle)
    (hok : ∀ t id, (handle (authErrorHandler .fresh) t id).1.Admitted ↔ ok) :
    Guarded endpoint r now s ↔
      (∃ header, r.authorization = some header ∧ 6 ≤ header.length) ∧ (s.users.Accepts r → ok) := by
  rw [Guarded, heq]
  rcases authenticated_cases r handle hs with
    ⟨hno, hend⟩ | ⟨hno, hheader, hend⟩ | ⟨hyes, hheader, t, id, hend⟩
  · rw [hend]
    have hrefused : ¬ (authErrorHandler .fresh).thrown.Refused := by
      rintro ⟨hcode, -⟩
      cases hcode
    have hno' : ¬ s.users.Accepts r := by
      rintro ⟨header, -, -, hheader, hlen, -⟩
      exact hno ⟨header, hheader, hlen⟩
    simp [hno, hno', hrefused]
  · rw [hend]
    simp [hno, hheader, refused_authErrorHandler]
  · rw [hend]
    simp [hyes, hheader, hok]

/-- Only a logout answers a user and leaves the header that asks for a token. -/
theorem guarded_logout (hs : s.users.Represented gen) (hr : r.method = "POST") :
    Guarded .logout r now s ↔
      (∃ header, r.authorization = some header ∧ 6 ≤ header.length) ∧
        (s.users.Accepts r → False) := by
  refine guarded_iff_of_rest hs (if_neg (by simp [hr])) ?_
  intro t id
  simp only [iff_false]
  exact not_admitted_of_header (by simp [Exchange.put, authErrorHandler])

theorem guarded_users (hs : s.users.Represented gen) (hr : r.method = "GET") :
    Guarded .users r now s ↔
      (∃ header, r.authorization = some header ∧ 6 ≤ header.length) ∧
        (s.users.Accepts r → True) := by
  refine guarded_iff_of_rest hs (if_neg (by simp [hr])) ?_
  intro t id
  simp only [iff_true]
  exact Exchange.admitted_answered (by decide)

theorem guarded_user (hs : s.users.Represented gen) (hr : r.method = "GET") {userID : Int}
    (hid : r.id = .number userID) :
    Guarded .user r now s ↔
      (∃ header, r.authorization = some header ∧ 6 ≤ header.length) ∧
        (s.users.Accepts r → True) := by
  refine guarded_iff_of_rest hs (if_neg (by simp [hr])) ?_
  intro t id
  simp only [iff_true, hid]
  split
  · exact Exchange.admitted_answered (by decide)
  · exact Exchange.admitted_answered (by decide)

theorem guarded_newMessage (hs : s.users.Represented gen) (hr : r.method = "POST")
    {text : String} (hbody : r.body = .message text) :
    Guarded .messages r now s ↔
      (∃ header, r.authorization = some header ∧ 6 ≤ header.length) ∧
        (s.users.Accepts r → True) := by
  have heq : Endpoint.messages.handle r now s = MessageHandler.newMessage r s := if_pos hr
  simp only [MessageHandler.newMessage, hbody] at heq
  apply guarded_iff_of_rest hs heq
  intro t id
  simp only [iff_true]
  exact Exchange.admitted_answered (by decide)

/-- What is left out is looked up all the same, before the header is removed. -/
theorem guarded_listMessage (hs : s.users.Represented gen) (hr : r.method = "GET")
    (hoffset : r.offset ≠ .malformed) (hcount : r.count ≠ .malformed) :
    Guarded .messages r now s ↔
      (∃ header, r.authorization = some header ∧ 6 ≤ header.length) ∧
        (s.users.Accepts r → r.offset ≠ .absent ∧ r.count ≠ .absent) := by
  have hpost : r.method ≠ "POST" := by simp [hr]
  have heq : Endpoint.messages.handle r now s = MessageHandler.listMessage r now s :=
    (if_neg hpost).trans (if_pos hr)
  apply guarded_iff_of_rest hs heq
  intro t id
  have habsent : ¬ (authErrorHandler .fresh).thrown.Admitted :=
    not_admitted_of_header (by simp [Exchange.put, authErrorHandler])
  cases ho : r.offset with
  | malformed => exact absurd ho hoffset
  | absent => simpa using habsent
  | number offset =>
    cases hc : r.count with
    | malformed => exact absurd hc hcount
    | absent => simpa using habsent
    | number count =>
      simp only [ne_eq, reduceCtorEq, not_false_eq_true, and_self, iff_true]
      split
      · exact Exchange.admitted_answered (by decide)
      · exact ⟨by simp, Exchange.answered_wwwAuthenticate⟩

/-- After any operations on the users, an endpoint guards a request exactly if its header can be
cut and no user logs out or leaves the range of a message list out. -/
theorem guarded_iff (gen : String → String) (ops : List Operation) (messages : MessageStorage)
    (endpoint : Endpoint) (r : HttpRequest) (now : Nat → Int) (hr : r.WellFormed endpoint) :
    Guarded endpoint r now ⟨(History.after gen ops).users, messages⟩ ↔
      Unaffected endpoint r ⟨(History.after gen ops).users, messages⟩ := by
  have hs := History.represented_after gen ops
  generalize hstores : Stores.mk (History.after gen ops).users messages = s
  have hs : s.users.Represented gen := hstores ▸ hs
  cases endpoint with
  | logout => simp [guarded_logout hs hr, Unaffected]
  | users => simp [guarded_users hs hr, Unaffected]
  | user =>
    obtain ⟨hget, userID, hid⟩ := hr
    simp [guarded_user hs hget hid, Unaffected]
  | messages =>
    rcases hr with ⟨hpost, text, hbody⟩ | ⟨hget, hoffset, hcount⟩
    · simp [guarded_newMessage hs hpost hbody, Unaffected, hpost]
    · simp [guarded_listMessage hs hget hoffset hcount, Unaffected, hget]

/-- A request for the list of users. -/
def listing (header : Option String) : HttpRequest :=
  ⟨"GET", header, .absent, .absent, .absent, .missing⟩

theorem guarded_listing :
    Guarded .users (listing (some "Token a")) (fun _ => 0)
      ⟨(History.after id [.create "a" 0]).users, .empty⟩ ↔
    Unaffected .users (listing (some "Token a"))
      ⟨(History.after id [.create "a" 0]).users, .empty⟩ :=
  guarded_iff id [.create "a" 0] .empty .users (listing (some "Token a")) (fun _ => 0) rfl

/-- Without a header the response is an error of the server. -/
theorem not_guarded_headerless :
    ¬ ∀ (gen : String → String) (ops : List Operation) (messages : MessageStorage)
      (endpoint : Endpoint) (r : HttpRequest) (now : Nat → Int), r.WellFormed endpoint →
        Guarded endpoint r now ⟨(History.after gen ops).users, messages⟩ := by
  intro hall
  have hguarded := hall id [] .empty .users (listing none) (fun _ => 0) rfl
  have hno : ¬ (History.after id []).users.Accepts (listing none) := by
    rintro ⟨header, -, -, hheader, -⟩
    cases hheader
  have hcode := (hguarded.1 hno).1.1
  exact absurd hcode (by decide)

end NetworkLabs.Chat
