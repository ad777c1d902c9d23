import NetworkLabs.Json

/-! What a typed line is after the JSON of the HTTP chats, both ways. -/
namespace NetworkLabs.Chat

open Json

/-- The body of `Client.sendMessage`. -/
def Client.messageBody (line : Text) : Text :=
  text "\x7b\"message\":\"" ++ line ++ text "\"\x7d"

/-- The body of `Client.login`. -/
def Client.loginBody (username : Text) : Text :=
  text "\x7b\"username\":\"" ++ username ++ text "\"\x7d"

/-- The name that `LoginHandler` gets from a body. An exception is `none`. -/
def LoginHandler.username (body : Text) : Option Text := member (text "username") body

/-- The text that a request stores, and the body of its response. -/
structure Posted where
  message : Text
  body : Text

/-- The response of `MessageHandler`. -/
def MessageHandler.response (id : Int) (message : Text) : Text :=
  text "\x7b\"id\":" ++ integer id ++ text ",\"message\":\"" ++ message ++ text "\"\x7d"

/-- What `MessageHandler` does to a body under the next id. An exception is `none`. -/
def MessageHandler.posted (id : Int) (body : Text) : Option Posted :=
  (member (text "message") body).map fun message => ⟨message, response id message⟩

/-- The server stores the line and sends it back. -/
def Carried (id : Int) (line : Text) : Prop :=
  ∃ posted, MessageHandler.posted id (Client.messageBody line) = some posted ∧
    posted.message = line ∧ member (text "message") posted.body = some line

/-- What `Client` reads as a message: one line that is no command. -/
def Client.Typed (line : Text) : Prop :=
  (∀ c ∈ line, c ≠ 10 ∧ c ≠ 13) ∧ line ≠ text "/list" ∧ line ≠ text "/quit"

instance (line : Text) : Decidable (Client.Typed line) :=
  @instDecidableAnd _ _ (List.decidableBAll _ line) inferInstance

theorem plain_message : Plain (text "message") := by decide

theorem plain_username : Plain (text "username") := by decide

theorem Client.messageBody_eq (line : Text) : messageBody line = raw (text "message") line := rfl

theorem Client.loginBody_eq (name : Text) : loginBody name = raw (text "username") name := rfl

theorem MessageHandler.response_eq (id : Int) (message : Text) :
    response id message = rawAfter (text "id") id (text "message") message := by
  simp only [response, List.append_assoc]
  rfl

theorem carried_of_plain {line : Text} (h : Plain line) (id : Int) : Carried id line := by
  refine ⟨⟨line, MessageHandler.response id line⟩, ?_, rfl, ?_⟩
  · rw [MessageHandler.posted, Client.messageBody_eq, member_raw plain_message h]
    rfl
  · rw [MessageHandler.response_eq]
    exact member_rawAfter (by decide) id plain_message h

theorem plain_of_carried {line : Text} {id : Int} (h : Carried id line) : Plain line := by
  obtain ⟨posted, hposted, hmessage, -⟩ := h
  obtain ⟨message, hmember, rfl⟩ := Option.map_eq_some_iff.mp hposted
  obtain rfl : message = line := hmessage
  exact plain_of_member plain_message (Client.messageBody_eq message ▸ hmember)

/-- A line and a name arrive as they were typed exactly if no character of them has a meaning
of its own in a JSON string. -/
theorem carried_iff (id : Int) (line username : Text) :
    (Carried id line ↔ Plain line) ∧
      (LoginHandler.username (Client.loginBody username) = some username ↔ Plain username) := by
  refine ⟨⟨plain_of_carried, fun h => carried_of_plain h id⟩, ?_⟩
  rw [LoginHandler.username, Client.loginBody_eq]
  exact member_raw_iff plain_username

/-- A word in quotation marks ends the string. -/
theorem not_carried_quoted :
    ¬ ∀ (id : Int) (line : Text), Client.Typed line → Carried id line := by
  intro hall
  have hplain := plain_of_carried (hall 0 (text "say \"hi\"") (by decide))
  revert hplain
  decide

/-- A backslash before a letter is read as an escape. -/
example : (MessageHandler.posted 0 (Client.messageBody (text "C:\\new"))).map
    Posted.message = some (text "C:\new") := by decide +kernel

end NetworkLabs.Chat
