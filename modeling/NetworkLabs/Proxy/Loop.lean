import NetworkLabs.Proxy.Connection
import NetworkLabs.Transition

/-! The table of connections and the event loop of the SOCKS proxy. -/
namespace NetworkLabs.Proxy

open Transition

/-- `MAX_CONNECTIONS`. -/
def maxConnections : Int := 2048

/-- The table; only the first `connectionsCount` records are live. -/
structure Table where
  connections : Nat → Connection
  connectionsCount : Int

abbrev Stepped := Except Fault (Table × List Event)

namespace Table

def set (s : Table) (i : Nat) (c : Connection) : Table :=
  { s with connections := Function.update s.connections i c }

/-- The last record takes the slot of the dropped one. -/
def dropConnection (s : Table) (i : Nat) (server : Bool) : Stepped :=
  let c := s.connections i
  let last := s.connectionsCount - 1
  if 0 ≤ last then
    .ok ({ connections := Function.update s.connections i (s.connections last.toNat)
           connectionsCount := last },
      .close c.clientSocket :: if server then [.close c.serverSocket] else [])
  else .error .index

/-- Give slot `i` its fate. -/
def commit (s : Table) (i : Nat) (r : Fate × List Event) : Stepped :=
  match r.1 with
  | .stay c => .ok (s.set i c, r.2)
  | .drop c server => (dropConnection (s.set i c) i server).map fun t => (t.1, r.2 ++ t.2)

/-- `CS_SOCK_REQUEST` with something to read. After a wrong version or command there is no
`break`: the code goes on with the record that is in slot `i` now. -/
def request (s : Table) (i : Nat) (ans : Answers) : Stepped :=
  let c := s.connections i
  let event := c.readEvent .client ans
  if readCount (ans.read .client) = 0 then s.commit i (.drop c false, [event])
  else do
    let c' ← c.append ans
    if c'.rejected then
      let t ← s.commit i (.drop c' false, [event, .reply c.clientSocket (errorReply 7)])
      let r ← (t.1.connections i).parseRequest ans
      let u ← t.1.commit i r
      .ok (u.1, t.2 ++ u.2)
    else
      let r ← c'.parseRequest ans
      s.commit i (r.1, event :: r.2)

/-- The body of the `for` loop: the `switch` on the status of connection `i`. -/
def handle (s : Table) (i : Nat) (rev : Peer → Revents) (ans : Answers) : Stepped :=
  let c := s.connections i
  match c.status with
  | .incoming => c.incoming (rev .client) ans >>= s.commit i
  | .authFailure => s.commit i (c.authFailure (rev .client))
  | .authSuccess => s.commit i (c.authSuccess (rev .client))
  | .sockRequest =>
    if (rev .client).pollin || (rev .client).pollout then s.request i ans
    else s.commit i (c.resolving rev ans)
  | .resolving => s.commit i (c.resolving rev ans)
  | .forwarding => s.commit i (c.forwarding rev ans)

/-- A record for a socket that `accept` returned, written over what the slot held. -/
def accept (s : Table) (socket id : Int) : Except Fault Table :=
  if 0 ≤ s.connectionsCount ∧ s.connectionsCount < maxConnections then
    let i := s.connectionsCount.toNat
    .ok { s.set i { s.connections i with
            clientSocket := socket, serverSocket := 0, currBufServer := 0, currBufClient := 0
            status := .incoming, id := id } with
          connectionsCount := s.connectionsCount + 1 }
  else .error .index

end Table

/-- The events that `form_poll_fds` asks for, reading first. -/
def formPollFds (c : Connection) : Peer → Bool × Bool
  | .client =>
    match c.status with
    | .incoming => (true, false)
    | .authFailure | .authSuccess | .resolving => (false, true)
    | .sockRequest | .forwarding => (true, true)
  | .server =>
    match c.status with
    | .forwarding => (true, true)
    | _ => (false, false)

/-- Where the descriptor of a connection stands in the array given to `poll`. -/
def fdIndex (i : Nat) : Peer → Nat
  | .client => 2 * i
  | .server => 2 * i + 1

/-- Where the loop is. The array that `poll` filled stays the same through a round. -/
inductive Phase
  | polling
  | scanning (i : Nat) (fds : Nat → Revents)
  | accepting (fds : Nat → Revents)

structure Loop where
  table : Table
  phase : Phase
  trace : List Event

namespace Loop

/-- `poll` found something; `poll` failed, and the array holds what it held before the call; a
connection is handled; `accept` is called and succeeds or not. -/
inductive Action
  | poll (fds : Nat → Revents)
  | pollError (fds : Nat → Revents)
  | handle (ans : Answers)
  | accept (socket id : Int)

/-- The array holds no reading or writing that was not asked for. -/
def Reported (s : Table) (fds : Nat → Revents) : Prop :=
  ∀ (i : Nat) (peer : Peer), (i : Int) < s.connectionsCount →
    ((fds (fdIndex i peer)).pollin = true → (formPollFds (s.connections i) peer).1 = true) ∧
    ((fds (fdIndex i peer)).pollout = true → (formPollFds (s.connections i) peer).2 = true)

/-- One round. After `poll` failed, the error is printed and the connections are handled all the
same. The listening socket is looked up at the index it would have for the present number of
connections. -/
def step (s : Loop) : Action → Option (Except Fault Loop)
  | .poll fds | .pollError fds =>
    match s.phase with
    | .polling => some (.ok { s with phase := .scanning 0 fds })
    | _ => none
  | .handle ans =>
    match s.phase with
    | .scanning i fds =>
      if (i : Int) < s.table.connectionsCount then
        some ((s.table.handle i (fun peer => fds (fdIndex i peer)) ans).map fun t =>
          ⟨t.1, .scanning (i + 1) fds, s.trace ++ t.2⟩)
      else some (.ok { s with phase := .accepting fds })
    | _ => none
  | .accept socket id =>
    match s.phase with
    | .accepting fds =>
      let listening := fds (2 * s.table.connectionsCount.toNat)
      if listening.pollin && !listening.pollhup && socket ≠ -1 then
        some ((s.table.accept socket id).map fun p => { s with table := p, phase := .polling })
      else some (.ok { s with phase := .polling })
    | _ => none

/-- The runs of the program: it stops where it goes wrong, and a `poll` that does not fail keeps to
what it was asked for. -/
inductive Tr : Except Fault Loop → Action → Except Fault Loop → Prop
  | poll {s : Loop} {t : Except Fault Loop} {fds : Nat → Revents} (hr : Reported s.table fds)
      (h : s.step (.poll fds) = some t) : Tr (.ok s) (.poll fds) t
  | pollError {s : Loop} {t : Except Fault Loop} {fds : Nat → Revents}
      (h : s.step (.pollError fds) = some t) : Tr (.ok s) (.pollError fds) t
  | handle {s : Loop} {t : Except Fault Loop} {ans : Answers}
      (h : s.step (.handle ans) = some t) : Tr (.ok s) (.handle ans) t
  | accept {s : Loop} {t : Except Fault Loop} {socket id : Int}
      (h : s.step (.accept socket id) = some t) : Tr (.ok s) (.accept socket id) t

def lts : LTS (Except Fault Loop) Action := ⟨Tr⟩

/-- The static storage when `main` starts. -/
def initial : Loop where
  table :=
    { connections := fun _ => ⟨0, 0, .incoming, 0, 0, 0, fun _ => 0, fun _ => 0, none⟩
      connectionsCount := 0 }
  phase := .polling
  trace := []

end Loop

/-- The system when a read returns these bytes and nothing else is asked of it. -/
def Answers.reading (bytes : Chunk) : Answers where
  read _ := some bytes
  write _ _ := none
  socket := -1
  connect := false
  peername := .zero
  dnsStub := none
  dnsSubmit := 0
  dnsCheck := 0
  dnsFetch := []
  dnsElapsed := 0

end NetworkLabs.Proxy
