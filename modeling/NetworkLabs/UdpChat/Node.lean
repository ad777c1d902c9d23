import Mathlib.Algebra.Group.Nat.Defs
import NetworkLabs.UdpChat.Containers

/-! One chat node: the shared state of its threads and what each thread does next. -/
namespace NetworkLabs.UdpChat

variable {Addr τ : Type}

/-- A datagram's text as `Reciever.run` reads it. `badMessage` has no readable uid,
`unreadable` is empty or holds no NUL, `other` starts with an unknown type. -/
inductive Payload (τ : Type)
  | message (uid : Nat) (text : τ)
  | badMessage
  | confirm
  | register (name : String)
  | other
  | unreadable
deriving DecidableEq

/-- What a thread hands to `socket.send`: a typed datagram or the bare name reply. -/
inductive Packet (τ : Type)
  | datagram (p : Payload τ)
  | name (s : String)

structure Send (Addr τ : Type) where
  target : Endpoint Addr
  packet : Packet τ

inductive MainPc
  | reading
  | stopSender
  | stopReciever
  | wakeup
  | joinSender
  | joinReciever
  | closed
deriving DecidableEq

inductive SenderPc (Addr τ : Type)
  | get
  | loop (message : Message Addr τ) (clients : List Ref)
  | send (message : Message Addr τ) (clients : List Ref) (client : Ref) (uid : Nat)
  | put (message : Message Addr τ) (clients : List Ref) (client : Ref) (uid : Nat)
  | check
  | stopChecker
  | wakeChecker
  | join
  | finished

inductive CheckerPc (τ : Type)
  | get
  | sleep (task : CheckTask τ)
  | send (task : CheckTask τ)
  | put (task : CheckTask τ)
  | check
  | finished

/-- `crashed` is an uncaught exception: the thread is gone. -/
inductive RecieverPc (Addr τ : Type)
  | receive
  | put (client : Ref) (source : Endpoint Addr) (uid : Nat) (text : τ)
  | confirm (client : Ref) (source : Endpoint Addr)
  | update (client : Ref)
  | reply (newNode : Ref)
  | check
  | finished
  | crashed

/-- A running node. `heap` and `allocated` are the NodeInfo objects made so far; `issued`
and `accepted` record the calls of `getSendID` and the messages put by the Reciever. -/
structure Node (Addr τ : Type) where
  name : String
  failPercent : Nat
  heap : Ref → NodeInfo Addr
  allocated : Nat
  nodes : List Ref
  messageQueue : Storage (Message Addr τ)
  checkQueue : Storage (CheckTask τ)
  main : MainPc
  sender : SenderPc Addr τ
  checker : CheckerPc τ
  reciever : RecieverPc Addr τ
  senderStopping : Bool
  checkerStopping : Bool
  recieverStopping : Bool
  issued : List (Ref × Nat × τ)
  accepted : List (Ref × Nat × τ)

/-- What the runtime decides for one step: the clock, whether `socket.send` throws, and
the draw of `ThreadLocalRandom`. -/
structure Env where
  now : Int
  sendFails : Bool
  draw : Nat

/-- Nothing fails, and no datagram is ignored unless all are. -/
def Env.calm (now : Int) : Env := ⟨now, false, 100⟩

namespace Node

/-- Replace one NodeInfo object. -/
def modify (n : Node Addr τ) (r : Ref) (f : NodeInfo Addr → NodeInfo Addr) : Node Addr τ :=
  { n with heap := Function.update n.heap r (f (n.heap r)) }

/-- `new NodeInfo(..)`, at a reference not used before. -/
def alloc (n : Node Addr τ) (info : NodeInfo Addr) : Node Addr τ :=
  { n with heap := Function.update n.heap n.allocated info, allocated := n.allocated + 1 }

section Fields
variable (n : Node Addr τ) (r : Ref) (f : NodeInfo Addr → NodeInfo Addr) (info : NodeInfo Addr)

@[simp] theorem modify_allocated : (n.modify r f).allocated = n.allocated := rfl
@[simp] theorem modify_nodes : (n.modify r f).nodes = n.nodes := rfl
@[simp] theorem modify_messageQueue : (n.modify r f).messageQueue = n.messageQueue := rfl
@[simp] theorem modify_checkQueue : (n.modify r f).checkQueue = n.checkQueue := rfl
@[simp] theorem modify_sender : (n.modify r f).sender = n.sender := rfl
@[simp] theorem modify_checker : (n.modify r f).checker = n.checker := rfl
@[simp] theorem modify_reciever : (n.modify r f).reciever = n.reciever := rfl
@[simp] theorem modify_issued : (n.modify r f).issued = n.issued := rfl
@[simp] theorem modify_accepted : (n.modify r f).accepted = n.accepted := rfl
@[simp] theorem modify_heap_self : (n.modify r f).heap r = f (n.heap r) := by simp [modify]

theorem modify_heap_of_ne {r' : Ref} (h : r' ≠ r) : (n.modify r f).heap r' = n.heap r' := by
  simp [modify, h]

@[simp] theorem alloc_allocated : (n.alloc info).allocated = n.allocated + 1 := rfl
@[simp] theorem alloc_checkQueue : (n.alloc info).checkQueue = n.checkQueue := rfl
@[simp] theorem alloc_sender : (n.alloc info).sender = n.sender := rfl
@[simp] theorem alloc_checker : (n.alloc info).checker = n.checker := rfl
@[simp] theorem alloc_issued : (n.alloc info).issued = n.issued := rfl
@[simp] theorem alloc_accepted : (n.alloc info).accepted = n.accepted := rfl
@[simp] theorem alloc_heap_self : (n.alloc info).heap n.allocated = info := by simp [alloc]

theorem alloc_heap_of_lt {r : Ref} (h : r < n.allocated) : (n.alloc info).heap r = n.heap r := by
  simp [alloc, Nat.ne_of_lt h]

end Fields

def findNode [DecidableEq Addr] (n : Node Addr τ) (e : Endpoint Addr) : Option Ref :=
  n.nodes.find? fun r => decide ((n.heap r).endpoint = e)

/-- What the other threads see of a node whose `socket.send` succeeded. -/
abbrev Outcome (Addr τ : Type) := Node Addr τ × Option (Send Addr τ)

def quiet (n : Node Addr τ) : Option (Outcome Addr τ) := some (n, none)

end Node

/-- A line read by `Server.work`. -/
def Main.readLine (n : Node Addr τ) (line : τ) : Option (Node Addr τ) :=
  match n.main with
  | .reading => some { n with messageQueue := n.messageQueue.put ⟨none, 0, line⟩ }
  | _ => none

/-- End of input and `Server.cleanup`. -/
def Main.step (n : Node Addr τ) : Option (Node.Outcome Addr τ) :=
  match n.main with
  | .reading => Node.quiet { n with main := .stopSender }
  | .stopSender => Node.quiet { n with senderStopping := true, main := .stopReciever }
  | .stopReciever => Node.quiet { n with recieverStopping := true, main := .wakeup }
  | .wakeup => Node.quiet { n with messageQueue := n.messageQueue.wakeup, main := .joinSender }
  | .joinSender =>
    match n.sender with
    | .finished => Node.quiet { n with main := .joinReciever }
    | _ => none
  | .joinReciever =>
    match n.reciever with
    | .finished | .crashed => Node.quiet { n with main := .closed }
    | _ => none
  | .closed => none

/-- `Sender.run`, one shared action at a time. The loop runs over the snapshot of `nodes`
taken when it starts; an IOException leaves it. -/
def Sender.step [DecidableEq Addr] (n : Node Addr τ) (env : Env) : Option (Node.Outcome Addr τ) :=
  match n.sender with
  | .get =>
    match n.messageQueue.get with
    | none => none
    | some (none, _) => Node.quiet { n with sender := .stopChecker }
    | some (some message, queue) =>
      Node.quiet { n with messageQueue := queue, sender := .loop message n.nodes }
  | .loop _ [] => Node.quiet { n with sender := .check }
  | .loop message (client :: clients) =>
    if message.goesTo (n.heap client) then
      let uid := (n.heap client).getSendID.1
      Node.quiet { n.modify client (·.getSendID.2) with
        issued := n.issued ++ [(client, uid, message.message)]
        sender := .send message clients client uid }
    else Node.quiet { n with sender := .loop message clients }
  | .send message clients client uid =>
    if env.sendFails then Node.quiet { n with sender := .check }
    else some ({ n with sender := .put message clients client uid },
      some ⟨(n.heap client).endpoint, .datagram (.message uid message.message)⟩)
  | .put message clients client uid =>
    Node.quiet { n with
      checkQueue := n.checkQueue.put (.new uid client message.message env.now)
      sender := .loop message clients }
  | .check => Node.quiet { n with sender := if n.senderStopping then .stopChecker else .get }
  | .stopChecker => Node.quiet { n with checkerStopping := true, sender := .wakeChecker }
  | .wakeChecker => Node.quiet { n with checkQueue := n.checkQueue.wakeup, sender := .join }
  | .join =>
    match n.checker with
    | .finished => Node.quiet { n with sender := .finished }
    | _ => none
  | .finished => none

def Checker.maxFailed : Nat := 3

/-- `Checker.run`. It wakes from its sleep once the clock has reached the check time. -/
def Checker.step (n : Node Addr τ) (env : Env) : Option (Node.Outcome Addr τ) :=
  match n.checker with
  | .get =>
    match n.checkQueue.get with
    | none => none
    | some (none, _) => Node.quiet { n with checker := .finished }
    | some (some task, queue) => Node.quiet { n with checkQueue := queue, checker := .sleep task }
  | .sleep task =>
    if env.now < task.checkTime then none
    else if task.numFailed > Checker.maxFailed then
      Node.quiet { n with nodes := n.nodes.erase task.node, checker := .check }
    else if task.uid > (n.heap task.node).lastDelivered then
      Node.quiet { n with checker := .send task }
    else Node.quiet { n with checker := .check }
  | .send task =>
    if env.sendFails then Node.quiet { n with checker := .put task }
    else some ({ n with checker := .put task },
      some ⟨(n.heap task.node).endpoint, .datagram (.message task.uid task.message)⟩)
  | .put task =>
    Node.quiet
      { n with checkQueue := n.checkQueue.put (task.updateTask env.now), checker := .check }
  | .check => Node.quiet { n with checker := if n.checkerStopping then .finished else .get }
  | .finished => none

/-- `Integer.parseInt` accepts no more than this. -/
def maxInt : Nat := 2 ^ 31 - 1

/-- The body of the acceptance test: the text is printed and goes to the queue next. -/
def Reciever.accept (n : Node Addr τ) (client : Ref) (source : Endpoint Addr) (uid : Nat)
    (text : τ) : Node Addr τ :=
  { n with reciever := .put client source uid text }

/-- `Reciever.run` from `socket.receive` to the end of the switch or to its first shared
action. A uid that `parseInt` rejects, like a text that cannot be cut, kills the thread. -/
def Reciever.receive [DecidableEq Addr] (n : Node Addr τ) (source : Endpoint Addr) (p : Payload τ)
    (env : Env) : Option (Node Addr τ) :=
  match n.reciever with
  | .receive =>
    match p with
    | .unreadable => some { n with reciever := .crashed }
    | .other => some { n with reciever := .check }
    | .message uid text =>
      match n.findNode source with
      | none => some { n with reciever := .check }
      | some client =>
        if env.draw > n.failPercent then
          if maxInt < uid then some { n with reciever := .crashed }
          else if (n.heap client).expectedID = uid then
            some (Reciever.accept n client source uid text)
          else some { n with reciever := .check }
        else some { n with reciever := .check }
    | .badMessage =>
      match n.findNode source with
      | none => some { n with reciever := .check }
      | some _ =>
        if env.draw > n.failPercent then some { n with reciever := .crashed }
        else some { n with reciever := .check }
    | .confirm =>
      match n.findNode source with
      | none => some { n with reciever := .check }
      | some client => some { n.modify client (·.updateLastDelivered) with reciever := .check }
    | .register name =>
      some { n.alloc (.new source (some name)) with
        nodes := n.nodes ++ [n.allocated]
        reciever := .reply n.allocated }
  | _ => none

/-- The rest of `Reciever.run`; at `socket.receive` this is the timeout. -/
def Reciever.step (n : Node Addr τ) (env : Env) : Option (Node.Outcome Addr τ) :=
  match n.reciever with
  | .receive => Node.quiet { n with reciever := .check }
  | .put client source uid text =>
    Node.quiet { n with
      messageQueue := n.messageQueue.put ⟨some source.address, source.port, text⟩
      accepted := n.accepted ++ [(client, uid, text)]
      reciever := .confirm client source }
  | .confirm client source =>
    if env.sendFails then Node.quiet { n with reciever := .check }
    else some ({ n with reciever := .update client }, some ⟨source, .datagram .confirm⟩)
  | .update client => Node.quiet { n.modify client (·.updateRecv) with reciever := .check }
  | .reply newNode =>
    if env.sendFails then Node.quiet { n with reciever := .check }
    else some ({ n with reciever := .check }, some ⟨(n.heap newNode).endpoint, .name n.name⟩)
  | .check =>
    Node.quiet { n with reciever := if n.recieverStopping then .finished else .receive }
  | .finished | .crashed => none

inductive Thread
  | main
  | sender
  | checker
  | reciever
deriving DecidableEq

/-- The next action of one thread that needs nothing from the network. -/
def Node.step [DecidableEq Addr] (n : Node Addr τ) (thread : Thread) (env : Env) :
    Option (Node.Outcome Addr τ) :=
  match thread with
  | .main => Main.step n
  | .sender => Sender.step n env
  | .checker => Checker.step n env
  | .reciever => Reciever.step n env

end NetworkLabs.UdpChat
