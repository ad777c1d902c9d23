import Mathlib.Algebra.Group.Nat.Defs
import Mathlib.Algebra.Ring.Int.Defs
import Mathlib.Data.List.Basic

/-! One connection of the SOCKS proxy: its record, and what the event loop does with it in
each of its states. -/
namespace NetworkLabs.Proxy

/-- `BUFFER_SIZE`. -/
def bufferSize : Nat := 4096

/-- The value of a `char`, which is signed on the target. -/
def char (b : UInt8) : Int := b.toInt8.toInt

/-- Conversion to the 64-bit `size_t`. -/
def sizeT (n : Int) : Nat := (n % 2 ^ 64).toNat

/-- How the program goes wrong: a copy that leaves its buffer, or an index that leaves the
table of connections. -/
inductive Fault
  | copy
  | index
deriving DecidableEq

/-- The contents of a `char[BUFFER_SIZE]`. -/
abbrev Buffer := Nat → UInt8

namespace Buffer

/-- The buffer after `n` bytes of `src` were put at offset `dest`. -/
def copied (b : Buffer) (dest : Int) (n : Nat) (src : Nat → UInt8) : Buffer :=
  fun k => if dest ≤ k ∧ (k : Int) < dest + n then src (k - dest.toNat) else b k

/-- `memcpy` and `memmove` of `n` bytes to offset `dest`; the source is read first. -/
def memcpy (b : Buffer) (dest : Int) (n : Nat) (src : Nat → UInt8) : Except Fault Buffer :=
  if 0 ≤ dest ∧ dest + n ≤ bufferSize then .ok (b.copied dest n src) else .error .copy

def bytes (b : Buffer) (start n : Nat) : List UInt8 := (List.range n).map fun k => b (start + k)

/-- The C string at the start of a buffer. -/
def string (b : Buffer) : List UInt8 := (b.bytes 0 bufferSize).takeWhile (· ≠ 0)

end Buffer

inductive Status
  | incoming
  | authSuccess
  | authFailure
  | sockRequest
  | resolving
  | forwarding
deriving DecidableEq

/-- The two ends a connection relays between. -/
inductive Peer
  | client
  | server
deriving DecidableEq

def Peer.other : Peer → Peer
  | .client => .server
  | .server => .client

/-- `struct connection`. A null `R` is `none`. -/
structure Connection where
  clientSocket : Int
  serverSocket : Int
  status : Status
  currBufServer : Int
  currBufClient : Int
  id : Int
  clientBuf : Buffer
  serverBuf : Buffer
  R : Option Nat

/-- The events that `poll` reported for one descriptor. -/
structure Revents where
  pollin : Bool
  pollout : Bool
  pollhup : Bool
deriving DecidableEq

/-- What one successful `read` into a buffer returns. -/
abbrev Chunk := {bs : List UInt8 // bs.length ≤ bufferSize}

theorem Chunk.nil_fits : ([] : List UInt8).length ≤ bufferSize := Nat.zero_le _

theorem Chunk.version_fits : ([5] : List UInt8).length ≤ bufferSize := by decide

theorem Chunk.greeting_fits : ([5, 1, 0] : List UInt8).length ≤ bufferSize := by decide

/-- The address and the port that `getpeername` returns. -/
abbrev Peername := {bs : List UInt8 // bs.length = 6}

def Peername.zero : Peername := ⟨List.replicate 6 0, List.length_replicate⟩

/-- What the system and the resolver answer while one connection is handled. A failed
`read`, `write` or `dns_res_stub` is `none` (`SIGPIPE` does not end the program: a `write` to a
closed socket fails); `dnsFetch` is what `parseDNS` returns. -/
structure Answers where
  read : Peer → Option Chunk
  write : Peer → Nat → Option Nat
  socket : Int
  connect : Bool
  peername : Peername
  dnsStub : Option Nat
  dnsSubmit : Int
  dnsCheck : Int
  dnsFetch : List UInt8
  dnsElapsed : Int

/-- What the handling of a connection does outside the proxy. A `reply` is a `write` to the
client whose result the code ignores. -/
inductive Event
  | read (peer : Peer) (fd : Int) (got : Option (List UInt8))
  | write (peer : Peer) (fd : Int) (bytes : List UInt8) (accepted : Option Nat)
  | reply (fd : Int) (bytes : List UInt8)
  | connect (fd : Int) (address port : List UInt8) (established : Bool)
  | stub (R : Option Nat)
  | submit (R : Nat) (name : List UInt8)
  | dnsClose (R : Option Nat)
  | close (fd : Int)
deriving DecidableEq

/-- What becomes of the record in its slot: it stays, or `dropConnection` is called on it,
with the flag that closes the server socket too. -/
inductive Fate
  | stay (c : Connection)
  | drop (c : Connection) (server : Bool)

def Fate.record : Fate → Connection
  | .stay c | .drop c _ => c

abbrev Handled := Except Fault (Fate × List Event)

def readCount : Option Chunk → Int
  | none => -1
  | some bs => bs.val.length

/-- The local `buf` after a `read`; only the bytes read are used. -/
def readByte (got : Option Chunk) (k : Nat) : UInt8 :=
  match got with
  | none => 0
  | some bs => bs.val.getD k 0

def failedAuth : List UInt8 := [5, 0xFF]

def successAuth : List UInt8 := [5, 0]

def errorReply (code : UInt8) : List UInt8 := [5, code, 0, 1, 0, 0, 0, 0, 0, 0]

namespace Connection

def socket (c : Connection) : Peer → Int
  | .client => c.clientSocket
  | .server => c.serverSocket

def formResponse (c : Connection) (ans : Answers) : List UInt8 :=
  if c.serverSocket = -1 then errorReply 4 else [5, 0, 0, 1] ++ ans.peername.val

/-- Every response has ten bytes. -/
theorem length_formResponse (c : Connection) (ans : Answers) :
    (c.formResponse ans).length = 10 := by
  unfold formResponse
  split
  · rfl
  · rw [List.length_append, ans.peername.2]
    rfl

def readEvent (c : Connection) (peer : Peer) (ans : Answers) : Event :=
  .read peer (c.socket peer) ((ans.read peer).map Subtype.val)

/-- The record with what was read put behind what was collected before. -/
def appended (c : Connection) (ans : Answers) : Connection :=
  let n := readCount (ans.read .client)
  { c with
    currBufClient := c.currBufClient + n
    clientBuf := c.clientBuf.copied c.currBufClient (sizeT n) (readByte (ans.read .client)) }

/-- `currBufClient += readCount` and the copy of `readCount` bytes to where it pointed. -/
def append (c : Connection) (ans : Answers) : Except Fault Connection :=
  let n := readCount (ans.read .client)
  (c.clientBuf.memcpy c.currBufClient (sizeT n) (readByte (ans.read .client))).map fun buf =>
    { c with currBufClient := c.currBufClient + n, clientBuf := buf }

/-- The greeting offers the method "no authentication". -/
def offersNoAuth (c : Connection) : Bool :=
  (List.range (char (c.clientBuf 1)).toNat).any fun j => c.clientBuf (j + 2) = 0

/-- The greeting once it was read. -/
def greeting (c : Connection) : Fate :=
  if c.currBufClient ≥ 2 then
    if char (c.clientBuf 0) ≠ 5 then .drop c false
    else if c.currBufClient ≥ 2 + char (c.clientBuf 1) then
      .stay { c with status := if c.offersNoAuth then .authSuccess else .authFailure }
    else .stay c
  else .stay c

def incoming (c : Connection) (rev : Revents) (ans : Answers) : Handled :=
  if rev.pollhup then .ok (.drop c false, [])
  else if rev.pollin then
    if readCount (ans.read .client) = 0 then .ok (.drop c false, [c.readEvent .client ans])
    else (c.append ans).map fun c' => (c'.greeting, [c.readEvent .client ans])
  else .ok (.stay c, [])

def authFailure (c : Connection) (rev : Revents) : Fate × List Event :=
  if rev.pollout then (.drop c false, [.reply c.clientSocket failedAuth]) else (.stay c, [])

def authSuccess (c : Connection) (rev : Revents) : Fate × List Event :=
  if rev.pollout then
    (.stay { c with status := .sockRequest, currBufClient := 0 },
      [.reply c.clientSocket successAuth])
  else (.stay c, [])

/-- The version or the command of the request is not supported. -/
def rejected (c : Connection) : Bool :=
  c.currBufClient ≥ 2 && (char (c.clientBuf 0) ≠ 5 || char (c.clientBuf 1) ≠ 1)

/-- `sendDNS`; the flag is its result, true for an error. -/
def sendDNS (c : Connection) (ans : Answers) : Except Fault (Connection × Bool × List Event) := do
  let length := sizeT (char (c.clientBuf 4))
  let serverBuf ← c.serverBuf.memcpy 0 2 fun k => c.clientBuf ((5 + length) % 2 ^ 64 + k)
  let moved ← c.clientBuf.memcpy 0 length fun k => c.clientBuf (5 + k)
  let clientBuf ← moved.memcpy length 1 fun _ => 0
  let c' := { c with clientBuf := clientBuf, serverBuf := serverBuf, R := ans.dnsStub }
  match ans.dnsStub with
  | none => .ok (c', true, [.stub none])
  | some R => .ok (c', decide (ans.dnsSubmit ≠ 0), [.stub (some R), .submit R clientBuf.string])

/-- After `openServerSocket`: the response, and on failure an error reply as well. -/
def opened (c : Connection) (ans : Answers) : Fate × List Event :=
  let c' := { c with serverSocket := ans.socket }
  let response := Event.reply c.clientSocket (c'.formResponse ans)
  if c'.serverSocket = -1 then (.drop c' false, [response, .reply c.clientSocket (errorReply 3)])
  else (.stay { c' with currBufServer := 0, currBufClient := 0, status := .forwarding }, [response])

/-- The comparison is made in `size_t`. -/
def nameArrived (c : Connection) : Bool :=
  sizeT c.currBufClient ≥ (sizeT (char (c.clientBuf 4)) + 2) % 2 ^ 64

/-- The request from its address type on, for whatever record is in the slot. -/
def parseRequest (c : Connection) (ans : Answers) : Handled :=
  if c.currBufClient ≥ 5 then
    if char (c.clientBuf 3) = 1 then
      if c.currBufClient ≥ 10 then
        let (fate, events) := c.opened ans
        .ok (fate,
          .connect ans.socket (c.clientBuf.bytes 4 4) (c.clientBuf.bytes 8 2) ans.connect ::
          events)
      else .ok (.stay c, [])
    else if char (c.clientBuf 3) = 3 then
      if c.nameArrived then
        (sendDNS { c with status := .resolving } ans).map fun (c', failed, events) =>
          if failed then (.drop c' false, events ++ [.reply c.clientSocket (errorReply 4)])
          else (.stay c', events)
      else .ok (.stay c, [])
    else .ok (.drop c false, [.reply c.clientSocket (errorReply 8)])
  else .ok (.stay c, [])

/-- The buffer that what `peer` sent is kept in, and how much of it is filled. -/
def buf (c : Connection) : Peer → Buffer
  | .client => c.clientBuf
  | .server => c.serverBuf

def currBuf (c : Connection) : Peer → Int
  | .client => c.currBufClient
  | .server => c.currBufServer

def setBuf (c : Connection) (peer : Peer) (b : Buffer) (n : Int) : Connection :=
  match peer with
  | .client => { c with clientBuf := b, currBufClient := n }
  | .server => { c with serverBuf := b, currBufServer := n }

/-- `read` straight into the buffer of `peer`, once it is empty. -/
def readFrom (c : Connection) (peer : Peer) (rev : Peer → Revents) (ans : Answers) :
    Connection × List Event :=
  if c.currBuf peer = 0 && (rev peer).pollin then
    let n := readCount (ans.read peer)
    (c.setBuf peer (fun k => if (k : Int) < n then readByte (ans.read peer) k else c.buf peer k)
      (if n = 0 then -1 else n), [c.readEvent peer ans])
  else (c, [])

/-- One `write` of all that `peer` sent to the other end. Whatever it accepts, the buffer
counts as empty afterwards. -/
def writeFrom (c : Connection) (peer : Peer) (rev : Peer → Revents) (ans : Answers) :
    Connection × List Event :=
  if c.currBuf peer > 0 && (rev peer.other).pollout then
    let bytes := (c.buf peer).bytes 0 (c.currBuf peer).toNat
    let res := ans.write peer.other bytes.length
    (c.setBuf peer (c.buf peer) (if res = none then -1 else 0),
      [.write peer.other (c.socket peer.other) bytes res])
  else (c, [])

def ended (c : Connection) : Bool :=
  (c.currBufClient < 0 && c.currBufServer ≤ 0) || (c.currBufServer < 0 && c.currBufClient ≤ 0)

def forwarding (c : Connection) (rev : Peer → Revents) (ans : Answers) : Fate × List Event :=
  let (c₁, e₁) := c.readFrom .client rev ans
  let (c₂, e₂) := c₁.readFrom .server rev ans
  let (c₃, e₃) := c₂.writeFrom .server rev ans
  let (c₄, e₄) := c₃.writeFrom .client rev ans
  (if c₄.ended then .drop c₄ true else .stay c₄, e₁ ++ e₂ ++ e₃ ++ e₄)

def eagain : Int := 11

/-- While the lookup goes on, control falls through to the forwarding code. -/
def resolving (c : Connection) (rev : Peer → Revents) (ans : Answers) : Fate × List Event :=
  if (rev .client).pollout then
    if ans.dnsCheck = 0 then
      let (fate, events) := c.opened ans
      (fate, .connect ans.socket ans.dnsFetch (c.serverBuf.bytes 0 2) ans.connect ::
        .dnsClose c.R :: events)
    else if ans.dnsCheck ≠ eagain then
      (.drop c false, [.reply c.clientSocket (errorReply 4), .dnsClose c.R])
    else if ans.dnsElapsed > 30 then
      (.drop c false, [.reply c.clientSocket (errorReply 4), .dnsClose c.R])
    else c.forwarding rev ans
  else c.forwarding rev ans

end Connection

end NetworkLabs.Proxy
