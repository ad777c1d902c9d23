import NetworkLabs.Charset
import NetworkLabs.ParseInt
import NetworkLabs.UdpChat.Node

/-! The datagrams of the chat as bytes: what `Sender.run` writes and what `Reciever.run` reads. -/
namespace NetworkLabs.UdpChat

variable {Addr : Type} {cs : Charset} {dd : DecimalDigits} {c : Char} {s t message : List Char}
  {payload : List UInt8} {id : Nat}

def Message.typeMessage : Char := 'M'

def Message.typeConfirm : Char := 'C'

def Message.typeRegister : Char := 'R'

/-- `String.valueOf(message.getType())+Long.toString(uid)+":"+message.getMessage()`. -/
def Sender.text (uid : Nat) (message : List Char) : List Char :=
  Message.typeMessage :: (Nat.toDigits 10 uid ++ ':' :: message)

def Sender.datagram (cs : Charset) (uid : Nat) (message : List Char) : List UInt8 :=
  cs.encode (Sender.text uid message)

/-- The exceptions that nothing in `Reciever.run` catches. -/
inductive Thrown
  | stringIndexOutOfBounds
  | numberFormat
deriving DecidableEq

/-- `text.substring(0,text.indexOf(c))`. -/
def before (text : List Char) (c : Char) : Except Thrown (List Char) :=
  if c ∈ text then .ok (text.takeWhile (· ≠ c)) else .error .stringIndexOutOfBounds

/-- `text.substring(text.indexOf(c) + 1)`. -/
def behind (text : List Char) (c : Char) : List Char :=
  if c ∈ text then (text.dropWhile (· ≠ c)).tail else text

/-- `text.charAt(0)`. -/
def charAtZero : List Char → Except Thrown Char
  | [] => .error .stringIndexOutOfBounds
  | c :: _ => .ok c

/-- `Integer.parseInt(s)`. -/
def parseInt (dd : DecimalDigits) (s : List Char) : Except Thrown Int :=
  match dd.parseInt s with
  | none => .error .numberFormat
  | some i => .ok i

namespace Reciever

def bufferSize : Nat := 256

/-- The data of the packet: a new array that `receive` has filled as far as it goes. -/
def buffer (payload : List UInt8) : List UInt8 :=
  payload.take bufferSize ++ List.replicate (bufferSize - payload.length) 0

/-- The text up to the first NUL. -/
def text (cs : Charset) (payload : List UInt8) : Except Thrown (List Char) :=
  before (cs.decode (buffer payload)) '\x00'

/-- `Integer.parseInt(text.substring(0, text.indexOf(":")))`. -/
def uid (dd : DecimalDigits) (text : List Char) : Except Thrown Int :=
  (before text ':').bind (parseInt dd)

/-- The type, the uid and the text of a message. -/
def decode (cs : Charset) (dd : DecimalDigits) (payload : List UInt8) :
    Except Thrown (Char × Int × List Char) := do
  let text ← Reciever.text cs payload
  let type ← charAtZero text
  let uid ← Reciever.uid dd (text.drop 1)
  .ok (type, uid, behind (text.drop 1) ':')

/-- The switch on the first character; `text` is what stands behind it. -/
def switch [DecidableEq Addr] (dd : DecimalDigits) (n : Node Addr (List Char))
    (source : Endpoint Addr) (env : Env) (type : Char) (text : List Char) :
    Except Thrown (Node Addr (List Char)) :=
  if type = Message.typeMessage then
    match n.findNode source with
    | none => .ok { n with reciever := .check }
    | some client =>
      if env.draw > n.failPercent then
        (uid dd text).map fun uid =>
          if ((n.heap client).expectedID : Int) = uid then
            accept n client source uid.toNat (behind text ':')
          else { n with reciever := .check }
      else .ok { n with reciever := .check }
  else if type = Message.typeConfirm then
    match n.findNode source with
    | none => .ok { n with reciever := .check }
    | some client => .ok { n.modify client (·.updateLastDelivered) with reciever := .check }
  else if type = Message.typeRegister then
    .ok { n.alloc (.new source (some (String.ofList text))) with
      nodes := n.nodes ++ [n.allocated]
      reciever := .reply n.allocated }
  else .ok { n with reciever := .check }

/-- `Reciever.run` from `socket.receive` to the end of the switch or to its first shared action. -/
def receiveDatagram [DecidableEq Addr] (cs : Charset) (dd : DecimalDigits)
    (n : Node Addr (List Char)) (source : Endpoint Addr) (payload : List UInt8) (env : Env) :
    Except Thrown (Node Addr (List Char)) := do
  let text ← Reciever.text cs payload
  let type ← charAtZero text
  switch dd n source env type (text.drop 1)

end Reciever

theorem of_bind {ε α β : Type} {x : Except ε α} {f : α → Except ε β} {b : β}
    (h : x.bind f = .ok b) : ∃ a, x = .ok a ∧ f a = .ok b := by
  cases x with
  | error e => cases h
  | ok a => exact ⟨a, rfl, h⟩

theorem takeWhile_of_notMem (h : c ∉ s) : (s ++ c :: t).takeWhile (· ≠ c) = s := by
  rw [List.takeWhile_append_of_pos]
  · simp
  · intro a ha
    simpa using fun heq : a = c => h (heq ▸ ha)

theorem dropWhile_of_notMem (h : c ∉ s) : (s ++ c :: t).dropWhile (· ≠ c) = c :: t := by
  rw [List.dropWhile_append_of_pos]
  · simp
  · intro a ha
    simpa using fun heq : a = c => h (heq ▸ ha)

theorem before_append (h : c ∉ s) : before (s ++ c :: t) c = .ok s := by
  rw [before, if_pos (by simp), takeWhile_of_notMem h]

theorem behind_append (h : c ∉ s) : behind (s ++ c :: t) c = t := by
  rw [behind, if_pos (by simp), dropWhile_of_notMem h, List.tail_cons]

/-- The first `c` stands behind `s`. -/
theorem of_before {u : List Char} (h : before u c = .ok s) : u = s ++ c :: behind u c ∧ c ∉ s := by
  unfold before at h
  split at h
  · rename_i hmem
    obtain ⟨s', t, rfl, hs'⟩ := List.eq_append_cons_of_mem hmem
    rw [takeWhile_of_notMem hs'] at h
    cases h
    rw [behind_append hs']
    exact ⟨rfl, hs'⟩
  · cases h

theorem of_charAtZero (h : charAtZero s = .ok c) : s = c :: s.drop 1 := by
  cases s with
  | nil => cases h
  | cons a s =>
    cases h
    rfl

namespace Sender

theorem isAscii_toDigits : ∀ c ∈ Nat.toDigits 10 id, c.toNat < 128 := by
  intro c hc
  have hdigit := DecimalDigits.isDigit_toDigits c hc
  simp only [Char.isDigit, Bool.and_eq_true, decide_eq_true_eq] at hdigit
  have hle : c.toNat ≤ 57 := hdigit.2
  omega

theorem notMem_toDigits (h : c.isDigit = false) : c ∉ Nat.toDigits 10 id := by
  intro hc
  rw [DecimalDigits.isDigit_toDigits c hc] at h
  cases h

/-- The digits of the uid, the type and the colon take a byte each. -/
theorem length_datagram : (datagram cs id message).length =
    (Nat.toDigits 10 id).length + (cs.encode message).length + 2 := by
  have hhead : ∀ c ∈ Message.typeMessage :: Nat.toDigits 10 id ++ [':'], c.toNat < 128 := by
    intro c hc
    simp only [List.mem_append, List.mem_cons] at hc
    rcases hc with (rfl | hc) | hc
    · decide
    · exact isAscii_toDigits c hc
    · rcases hc with rfl | hc
      · decide
      · cases hc
  have htext : text id message =
    (Message.typeMessage :: Nat.toDigits 10 id ++ [':']) ++ message := by
    simp [text]
  rw [datagram, htext, cs.encode_append, List.length_append, Charset.length_encode_ascii hhead]
  simp only [List.length_append, List.length_cons, List.length_nil]
  omega

theorem nul_mem_text : '\x00' ∈ text id message ↔ '\x00' ∈ message := by
  have hdigits : '\x00' ∉ Nat.toDigits 10 id := notMem_toDigits rfl
  simp [text, Message.typeMessage, hdigits]

end Sender

namespace Reciever

/-- A payload that leaves room in the buffer is read to its end or its first NUL. -/
theorem text_encode (h : (cs.encode s).length < bufferSize) (hs : '\x00' ∉ s) :
    text cs (cs.encode s) = .ok s := by
  obtain ⟨k, hk⟩ : ∃ k, bufferSize - (cs.encode s).length = k + 1 :=
    ⟨bufferSize - (cs.encode s).length - 1, by omega⟩
  have htake : (cs.encode s).take bufferSize = cs.encode s := List.take_of_length_le (by omega)
  rw [text, buffer, htake, Charset.decode_encode_append_zeros, hk, List.replicate_succ,
    before_append hs]

/-- A payload that fills the buffer has to end with a NUL of its own. -/
theorem nul_mem_of_text (h : text cs (cs.encode s) = .ok t)
    (hlength : bufferSize ≤ (cs.encode s).length) : '\x00' ∈ s := by
  obtain ⟨htext, -⟩ := of_before h
  have hroom : bufferSize - (cs.encode s).length = 0 := by omega
  have hnul : '\x00' ∈ cs.decode (buffer (cs.encode s)) := by
    rw [htext]
    simp
  have hzero := cs.zero_mem _ hnul
  rw [buffer, hroom, List.replicate_zero, List.append_nil] at hzero
  exact cs.nul_mem s (List.mem_of_mem_take hzero)

theorem uid_toDigits : uid dd (Nat.toDigits 10 id ++ ':' :: message) =
    if id ≤ DecimalDigits.intMax then .ok (id : Int) else .error .numberFormat := by
  have hcolon : ':' ∉ Nat.toDigits 10 id := Sender.notMem_toDigits rfl
  rw [uid, before_append hcolon]
  change parseInt dd (Nat.toDigits 10 id) = _
  rw [parseInt, DecimalDigits.parseInt_toDigits]
  by_cases h : id ≤ DecimalDigits.intMax
  · rw [if_pos h, if_pos h]
  · rw [if_neg h, if_neg h]

/-- What `decode` has read, piece by piece. -/
theorem of_decode {type : Char} {i : Int} (h : decode cs dd payload = .ok (type, i, message)) :
    ∃ number, text cs payload = .ok (type :: (number ++ ':' :: message)) ∧
      parseInt dd number = .ok i := by
  obtain ⟨u, htext, h⟩ := of_bind h
  obtain ⟨c, htype, h⟩ := of_bind h
  obtain ⟨i', huid, h⟩ := of_bind h
  obtain ⟨number, hnumber, hparse⟩ := of_bind huid
  cases h
  obtain ⟨hdrop, -⟩ := of_before hnumber
  refine ⟨number, ?_, hparse⟩
  rw [← hdrop, ← of_charAtZero htype, htext]

/-- The message fits into the buffer with a NUL behind it. -/
def Fits (cs : Charset) (id : Nat) (message : List Char) : Prop :=
  (Nat.toDigits 10 id).length + (cs.encode message).length ≤ 253

theorem fits_iff : Fits cs id message ↔ (Sender.datagram cs id message).length < bufferSize := by
  rw [Sender.length_datagram, Fits, bufferSize]
  omega

theorem nul_notMem_of_decode {type : Char} {i : Int}
    (h : decode cs dd payload = .ok (type, i, message)) : '\x00' ∉ message := by
  obtain ⟨number, htext, -⟩ := of_decode h
  obtain ⟨-, hnul⟩ := of_before htext
  exact fun hmem => hnul (by simp [hmem])

theorem fits_of_decode {i : Int}
    (h : decode cs dd (Sender.datagram cs id message) = .ok (Message.typeMessage, i, message)) :
    Fits cs id message := by
  obtain ⟨number, htext, -⟩ := of_decode h
  rw [fits_iff]
  by_contra hlength
  have hnul := nul_mem_of_text htext (Nat.le_of_not_lt hlength)
  exact nul_notMem_of_decode h (Sender.nul_mem_text.mp hnul)

/-- The decoding of a message that fits and holds no NUL. -/
theorem decode_datagram (hfits : Fits cs id message) (hnul : '\x00' ∉ message) :
    decode cs dd (Sender.datagram cs id message) =
      if id ≤ DecimalDigits.intMax then .ok (Message.typeMessage, (id : Int), message)
      else .error .numberFormat := by
  have hcolon : ':' ∉ Nat.toDigits 10 id := Sender.notMem_toDigits rfl
  have htext : text cs (Sender.datagram cs id message) = .ok (Sender.text id message) :=
    text_encode (fits_iff.mp hfits) (mt Sender.nul_mem_text.mp hnul)
  have hdrop : (Sender.text id message).drop 1 = Nat.toDigits 10 id ++ ':' :: message := rfl
  rw [decode, htext]
  simp only [bind, Except.bind, Sender.text, charAtZero, List.drop_one, List.tail_cons,
    uid_toDigits, behind_append hcolon]
  by_cases h : id ≤ DecimalDigits.intMax
  · rw [if_pos h, if_pos h]
  · rw [if_neg h, if_neg h]

/-- A message is decoded to itself exactly if its uid is an `int`, it fits, and it holds no NUL. -/
theorem decode_datagram_iff (cs : Charset) (dd : DecimalDigits) (id : Nat) (message : List Char) :
    decode cs dd (Sender.datagram cs id message) =
      .ok (Message.typeMessage, (id : Int), message) ↔
      id ≤ DecimalDigits.intMax ∧ Fits cs id message ∧ '\x00' ∉ message := by
  constructor
  · intro h
    have hfits := fits_of_decode h
    have hnul := nul_notMem_of_decode h
    refine ⟨?_, hfits, hnul⟩
    by_contra hlarge
    rw [decode_datagram hfits hnul, if_neg hlarge] at h
    cases h
  · rintro ⟨hid, hfits, hnul⟩
    rw [decode_datagram hfits hnul, if_pos hid]

/-- A line of 300 characters does not fit. -/
theorem not_decode_long : ¬ ∀ (cs : Charset) (dd : DecimalDigits) (id : Nat) (message : List Char),
    1 ≤ id → id < 2 ^ 63 → decode cs dd (Sender.datagram cs id message) =
      .ok (Message.typeMessage, (id : Int), message) := by
  intro hall
  have hfits := fits_of_decode
    (hall .utf8 .ascii 1 (List.replicate 300 'a') (by decide) (by decide))
  have hascii : ∀ c ∈ List.replicate 300 'a', c.toNat < 128 := fun c hc =>
    List.eq_of_mem_replicate hc ▸ by decide
  rw [Fits, Charset.length_encode_ascii hascii, List.length_replicate] at hfits
  omega

end Reciever

end NetworkLabs.UdpChat
