import Mathlib.Logic.Function.Basic
import Mathlib.Data.List.Basic

/-! The containers of the UDP chat: links to neighbours, messages, retry tasks, queues. -/
namespace NetworkLabs.UdpChat

variable {Addr τ E : Type}

/-- The (address, port) pair that a datagram comes from or goes to. -/
structure Endpoint (Addr : Type) where
  address : Addr
  port : Nat
deriving DecidableEq

/-- One neighbour. The three counters are Java longs; no run reaches their wrap. -/
structure NodeInfo (Addr : Type) where
  address : Addr
  port : Nat
  nodeName : Option String
  sent : Nat
  recieved : Nat
  lastDelivered : Nat
deriving DecidableEq

namespace NodeInfo

def new (e : Endpoint Addr) (nodeName : Option String) : NodeInfo Addr :=
  ⟨e.address, e.port, nodeName, 0, 1, 0⟩

def endpoint (n : NodeInfo Addr) : Endpoint Addr := ⟨n.address, n.port⟩

/-- `sent++`; the new value is the uid. -/
def getSendID (n : NodeInfo Addr) : Nat × NodeInfo Addr :=
  (n.sent + 1, { n with sent := n.sent + 1 })

def expectedID (n : NodeInfo Addr) : Nat := n.recieved

def updateRecv (n : NodeInfo Addr) : NodeInfo Addr := { n with recieved := n.recieved + 1 }

def updateLastDelivered (n : NodeInfo Addr) : NodeInfo Addr :=
  { n with lastDelivered := n.lastDelivered + 1 }

def setNodeName (n : NodeInfo Addr) (name : String) : NodeInfo Addr :=
  { n with nodeName := some name }

@[simp] theorem endpoint_new (e : Endpoint Addr) (name : Option String) :
    (new e name).endpoint = e := rfl

@[simp] theorem endpoint_getSendID (n : NodeInfo Addr) : n.getSendID.2.endpoint = n.endpoint := rfl

@[simp] theorem endpoint_updateRecv (n : NodeInfo Addr) : n.updateRecv.endpoint = n.endpoint := rfl

@[simp] theorem endpoint_updateLastDelivered (n : NodeInfo Addr) :
    n.updateLastDelivered.endpoint = n.endpoint := rfl

end NodeInfo

/-- A NodeInfo object, by its place in the heap of the node that made it. -/
abbrev Ref := Nat

/-- A line to broadcast. `source` is the `from` field, null for a line typed at the node
itself; the type is TYPE_MESSAGE wherever a message is made. -/
structure Message (Addr τ : Type) where
  source : Option Addr
  port : Nat
  message : τ
deriving DecidableEq

/-- The test of `Sender.run`: not the neighbour the message came from. -/
def Message.goesTo [DecidableEq Addr] (m : Message Addr τ) (client : NodeInfo Addr) : Bool :=
  decide (some client.address ≠ m.source) || decide (client.port ≠ m.port)

/-- A message waiting for its confirmation. The datagram text is kept as uid and text. -/
structure CheckTask (τ : Type) where
  uid : Nat
  node : Ref
  message : τ
  numFailed : Nat
  checkTime : Int
deriving DecidableEq

namespace CheckTask

def comfirmTimeout : Int := 5000

def new (uid : Nat) (node : Ref) (message : τ) (now : Int) : CheckTask τ :=
  ⟨uid, node, message, 1, now + comfirmTimeout⟩

def updateTask (t : CheckTask τ) (now : Int) : CheckTask τ :=
  { t with numFailed := t.numFailed + 1, checkTime := now + comfirmTimeout }

end CheckTask

/-- A blocking queue with a wakeup flag. Every operation holds the lock throughout. -/
structure Storage (E : Type) where
  container : List E
  wakeupState : Bool
deriving DecidableEq

namespace Storage

def empty : Storage E := ⟨[], false⟩

def put (s : Storage E) (object : E) : Storage E := { s with container := s.container ++ [object] }

/-- `none` while the caller waits; the inner `none` is the null of a woken queue. -/
def get (s : Storage E) : Option (Option E × Storage E) :=
  if s.wakeupState then some (none, s)
  else match s.container with
    | [] => none
    | tmp :: rest => some (some tmp, { s with container := rest })

def wakeup (s : Storage E) : Storage E := { s with wakeupState := true }

theorem get_some {s t : Storage E} {e : E} (h : s.get = some (some e, t)) :
    s.container = e :: t.container := by
  unfold get at h
  split at h
  · cases h
  · split at h
    · cases h
    · rename_i hc
      cases h
      exact hc

/-- Only a woken queue gives its null. -/
theorem wakeupState_of_get {s t : Storage E} (h : s.get = some (none, t)) :
    s.wakeupState = true := by
  unfold get at h
  split at h
  · assumption
  · split at h <;> cases h

theorem wakeupState_of_waits {s : Storage E} (h : s.get = none) : s.wakeupState = false := by
  unfold get at h
  split at h
  · cases h
  · simpa using ‹¬ s.wakeupState = true›

theorem wakeupState_of_get_some {s t : Storage E} {e : E} (h : s.get = some (some e, t)) :
    t.wakeupState = s.wakeupState := by
  unfold get at h
  split at h
  · cases h
  · split at h <;> cases h
    rfl

end Storage

end NetworkLabs.UdpChat
