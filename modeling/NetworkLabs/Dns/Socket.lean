import NetworkLabs.Dns.Permutor
import NetworkLabs.Dns.Records

/-! A query and its answer on the sockets of the resolver: `dns_so_submit` and `dns_so_check`. -/
namespace NetworkLabs.Dns

/-- What the calls of the system and of the resolver fail with. -/
inductive SoError
  | again
  | intr
  | inProgress
  | already
  | isConn
  | illegal
  | unknown
  | other (code : Nat)
deriving DecidableEq

/-- The last switch of `dns_so_check`. -/
def SoError.settled : SoError → SoError
  | .inProgress => .again
  | .already => .again
  | e => e

/-- What a call comes to: an error, or so many bytes, or a datagram with these. -/
structure Reply where
  error : Option SoError
  count : Nat
  bytes : List UInt8

/-- The replies to the next calls, the bytes that the TCP connection still brings, and those that it
was given; a byte from behind the buffer of the packet is `none`. -/
structure Kernel where
  replies : List Reply
  inbound : List UInt8
  wire : List (Option UInt8)

/-- Without a reply the call would block. -/
def Kernel.call (k : Kernel) : Reply × Kernel :=
  match k.replies with
  | [] => (⟨some .again, 0, []⟩, k)
  | r :: rs => (r, { k with replies := rs })

/-- `SOCK_STREAM`, `SOCK_DGRAM` or neither. -/
inductive SoType
  | any
  | stream
  | dgram
deriving DecidableEq

/-- The states of `dns_so_check`; `idle` is 0. -/
inductive SoState
  | idle
  | udpInit
  | udpConn
  | udpSend
  | udpRecv
  | udpDone
  | tcpInit
  | tcpConn
  | tcpSend
  | tcpRecv
  | tcpDone
deriving DecidableEq

/-- `dns_socket`. `answer` is what was received of the answer, `room` its `size`, `front` the two
bytes before its data, and `tcp` says that there is a TCP socket. -/
structure Socket where
  type : SoType
  tcp : Bool
  qids : Permutor
  state : SoState
  qid : List UInt8
  qname : List UInt8
  qlen : Nat
  qtype : Nat
  qclass : Nat
  query : Packet
  qout : Nat
  front : List UInt8
  answer : List UInt8
  room : Nat
  alen : Nat
  apos : Nat

namespace Socket

/-- `DNS_SO_MINBUF`. -/
def minBuf : Nat := 768

/-- `dns_so_newanswer`. -/
def newAnswer (so : Socket) (len : Nat) : Socket :=
  { so with answer := [], room := max len minBuf }

/-- `dns_so_reset`. -/
def reset (so : Socket) : Socket :=
  { so with
    state := .idle, qid := [], qname := [], qlen := 0, qtype := 0, qclass := 0, qout := 0
    front := [], answer := [], room := 0, alen := 0, apos := 0 }

/-- The number in the bytes of the header, the low one first. -/
def idBytes (n : UInt32) : List UInt8 := [n.toUInt8, (n >>> 8).toUInt8]

/-- The id of a packet, as its header has it. -/
def header (data : List UInt8) : List UInt8 := data.take 2

/-- A query without an id gets the next one. -/
def identify (fuel : Nat) (so : Socket) (Q : Packet) : Option (Packet × Permutor) :=
  if header Q.data = [0, 0] then
    (so.qids.step fuel).map fun (n, qids) =>
      ({ Q with
        data := idBytes n ++ Q.data.drop 2
        header := by have := Q.header; simp [idBytes]; omega }, qids)
  else some (Q, so.qids)

/-- `dns_so_submit`, which does not fail for want of memory. -/
def submit (fuel : Nat) (so : Socket) (Q : Packet) : Option (Option SoError × Socket) :=
  match Record.parse Q.data 12 with
  | .error _ => some (some .illegal, so.reset)
  | .ok rr =>
    (Domain.expand fuel Q.data rr.dn).bind fun
      | .error _ => some (some .illegal, so.reset)
      | .ok name =>
        (so.identify fuel Q).map fun (Q, qids) =>
          let so := so.reset.newAnswer (if Q.memo.opt.maxudp = 0 then minBuf else Q.memo.opt.maxudp)
          (none, { so with
            qids := qids, qid := header Q.data, qname := name.take maxName, qlen := name.length
            qtype := rr.type, qclass := rr.cls, query := Q
            state := if so.type = .stream then .tcpInit else .udpInit })

/-- `dns_so_verify`; `none` if the name in the packet has no end. -/
def verify (fuel : Nat) (so : Socket) (data : List UInt8) : Option (Option SoError) :=
  if so.qid ≠ header data then some (some .unknown)
  else if count data qd = 0 then some (some .unknown)
  else
    match Record.parse data 12 with
    | .error _ => some (some .unknown)
    | .ok rr =>
      if rr.type ≠ so.qtype ∨ rr.cls ≠ so.qclass then some (some .unknown)
      else
        (Domain.expand fuel data rr.dn).map fun
          | .error _ => some .illegal
          | .ok name =>
            if maxName < name.length ∨ name.length ≠ so.qlen then some .unknown
            else if sameText so.qname name then none else some .unknown

/-- What `dns_so_tcp_send` has in memory from the length of the query on. -/
def memory (so : Socket) : List UInt8 :=
  BigEndian.encode 2 so.query.data.length ++ (so.query.data ++ so.query.spare)

/-- Where the query ends in it. -/
def qend (so : Socket) : Nat := so.query.data.length + 2

/-- The loop of `dns_so_tcp_send`, which has got `base` as `so->qout` when it was called. -/
def sendLoop (base : Nat) (so : Socket) (inbound : List UInt8) (wire : List (Option UInt8)) :
    List Reply → Option SoError × Socket × Kernel
  | [] =>
    (if so.qout < so.qend then some .again else none, so, ⟨[], inbound, wire⟩)
  | r :: rs =>
    if so.qout < so.qend then
      match r.error with
      | some e => (some e, so, ⟨rs, inbound, wire⟩)
      | none =>
        let n := min r.count (so.qend - so.qout)
        let bytes := (List.range n).map fun i => so.memory[base + so.qout + i]?
        sendLoop base { so with qout := so.qout + n } inbound (wire ++ bytes) rs
    else (none, so, ⟨r :: rs, inbound, wire⟩)

/-- `dns_so_tcp_send`. -/
def tcpSend (so : Socket) (k : Kernel) : Option SoError × Socket × Kernel :=
  sendLoop so.qout so k.inbound k.wire k.replies

/-- Bytes of the answer are stored where they are received; with the second one there is the length
of the answer. -/
def receive (so : Socket) (bs : List UInt8) : Socket :=
  let so := { so with
    front := so.front ++ bs.take (2 - so.apos), answer := so.answer ++ bs.drop (2 - so.apos)
    apos := so.apos + bs.length }
  if so.alen = 0 ∧ 2 ≤ so.apos then
    { so.newAnswer (BigEndian.decode so.front) with alen := BigEndian.decode so.front }
  else so

/-- The loop of `dns_so_tcp_recv`. -/
def recvLoop (so : Socket) (inbound : List UInt8) (wire : List (Option UInt8)) :
    List Reply → Option SoError × Socket × Kernel
  | [] => (if so.apos < so.alen + 2 then some .again else none, so, ⟨[], inbound, wire⟩)
  | r :: rs =>
    if so.apos < so.alen + 2 then
      match r.error with
      | some e => (some e, so, ⟨rs, inbound, wire⟩)
      | none =>
        let bs := inbound.take (min r.count (so.alen + 2 - so.apos))
        if bs = [] then (some .unknown, so, ⟨rs, inbound, wire⟩)
        else recvLoop (so.receive bs) (inbound.drop bs.length) wire rs
    else (none, so, ⟨r :: rs, inbound, wire⟩)

/-- `dns_so_tcp_recv`. -/
def tcpRecv (so : Socket) (k : Kernel) : Option SoError × Socket × Kernel :=
  recvLoop so k.inbound k.wire k.replies

/-- Whether the header has the truncation bit. -/
def truncated (data : List UInt8) : Bool := (data[2]?.getD 0).toNat / 2 % 2 = 1

/-- What `dns_so_check` returns, and what it leaves. -/
abbrev Result := Option SoError × Socket × Kernel

/-- The rest of `dns_so_check`, after a state that falls through to the next one or a retry. -/
abbrev Rest := Socket → Kernel → Option Result

/-- What `dns_so_check` does about an error. -/
def fail (rest : Rest) (e : SoError) (so : Socket) (k : Kernel) : Option Result :=
  if e = .intr then rest so k else some (some e.settled, so, k)

/-- A call without which the next state is not reached. -/
def step (rest : Rest) (so : Socket) (k : Kernel) (next : SoState) : Option Result :=
  match k.call.1.error with
  | some e => fail rest e so k.call.2
  | none => rest { so with state := next } k.call.2

/-- `DNS_SO_UDP_RECV`. -/
def udpRecv (fuel : Nat) (rest : Rest) (so : Socket) (k : Kernel) : Option Result :=
  match k.call.1.error with
  | some e => fail rest e so k.call.2
  | none =>
    let so := { so with answer := k.call.1.bytes.take so.room }
    if so.answer.length < 12 then rest so k.call.2
    else
      (so.verify fuel so.answer).bind fun
        | some _ => rest so k.call.2
        | none => rest { so with state := .udpDone } k.call.2

/-- `DNS_SO_UDP_DONE`. -/
def udpDone (rest : Rest) (so : Socket) (k : Kernel) : Option Result :=
  if truncated so.answer = false ∨ so.type = .dgram then some (none, so, k)
  else rest { so with state := .tcpInit } k

/-- `DNS_SO_TCP_INIT`; `dns_so_tcp_keep` asks where the socket is connected to, if there is one. -/
def tcpInit (rest : Rest) (so : Socket) (k : Kernel) : Option Result :=
  if so.tcp ∧ k.call.1.error = none then rest { so with state := .tcpSend } k.call.2
  else
    let k := if so.tcp then k.call.2 else k
    match k.call.1.error with
    | some e => fail rest e { so with tcp := false } k.call.2
    | none => rest { so with tcp := true, state := .tcpConn } k.call.2

/-- `DNS_SO_TCP_CONN`. -/
def tcpConn (rest : Rest) (so : Socket) (k : Kernel) : Option Result :=
  if k.call.1.error = some .isConn then rest { so with state := .tcpSend } k.call.2
  else step rest so k .tcpSend

/-- `DNS_SO_TCP_DONE`. -/
def tcpDone (fuel : Nat) (rest : Rest) (so : Socket) (k : Kernel) : Option Result :=
  let so := if so.type = .stream then so else { so with tcp := false }
  if so.answer.length < 12 then some (some .illegal, so, k)
  else
    (so.verify fuel so.answer).bind fun
      | some e => fail rest e so k
      | none => some (none, so, k)

/-- One turn of `dns_so_check`, and then the rest of it; a state that falls through to the next one
is a turn as a retry is. -/
def turn (fuel : Nat) (rest : Rest) (so : Socket) (k : Kernel) : Option Result :=
  match so.state with
  | .udpInit => rest { so with state := .udpConn } k
  | .udpConn => step rest so k .udpSend
  | .udpSend => step rest so k .udpRecv
  | .udpRecv => udpRecv fuel rest so k
  | .udpDone => udpDone rest so k
  | .tcpInit => tcpInit rest so k
  | .tcpConn => tcpConn rest so k
  | .tcpSend =>
    match so.tcpSend k with
    | (some e, so, k) => fail rest e so k
    | (none, so, k) => rest { so with state := .tcpRecv } k
  | .tcpRecv =>
    match so.tcpRecv k with
    | (some e, so, k) => fail rest e so k
    | (none, so, k) => rest { so with state := .tcpDone } k
  | .tcpDone => tcpDone fuel rest so k
  | .idle => fail rest .unknown so k

/-- `dns_so_check`, with at most `n` turns. -/
def check (fuel : Nat) : Nat → Rest
  | 0, _, _ => none
  | n + 1, so, k => turn fuel (check fuel n) so k

end Socket

end NetworkLabs.Dns
