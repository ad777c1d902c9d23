import NetworkLabs.UdpChat.NodeFacts
import NetworkLabs.CountAck

/-! Two neighbouring nodes, the datagrams between them, and everybody else as environment. -/
namespace NetworkLabs.UdpChat

open Transition

inductive Side
  | a
  | b
deriving DecidableEq

def Side.other : Side → Side
  | .a => .b
  | .b => .a

@[simp] theorem Side.other_other (i : Side) : i.other.other = i := by cases i <;> rfl
@[simp] theorem Side.other_ne (i : Side) : i.other ≠ i := by cases i <;> simp [other]
@[simp] theorem Side.ne_other (i : Side) : i ≠ i.other := (Side.other_ne i).symm

theorem Side.eq_or_eq_other (i j : Side) : j = i ∨ j = i.other := by
  cases i <;> cases j <;> simp [other]

variable {Addr τ : Type}

/-- `net` holds the datagrams in flight between the two nodes, each with the side it
travels to. -/
structure Link (Addr τ : Type) where
  node : Side → Node Addr τ
  net : List (Side × Payload τ)

namespace Link

inductive Action (Addr τ : Type)
  | readLine (i : Side) (line : τ)
  | thread (i : Side) (thread : Thread) (env : Env)
  | receive (i : Side) (k : Nat) (env : Env)
  | outside (i : Side) (source : Endpoint Addr) (p : Payload τ) (env : Env)
  | lose (k : Nat)
  | duplicate (k : Nat)

/-- One node acted, and the datagrams in flight are now `net`. -/
def commit (s : Link Addr τ) (i : Side) (n : Node Addr τ) (net : List (Side × Payload τ)) :
    Link Addr τ :=
  ⟨Function.update s.node i n, net⟩

section Commit
variable (s : Link Addr τ) (i : Side) (n : Node Addr τ) (net : List (Side × Payload τ))

@[simp] theorem commit_self : (s.commit i n net).node i = n := by simp [commit]
@[simp] theorem commit_other : (s.commit i n net).node i.other = s.node i.other := by simp [commit]
@[simp] theorem commit_other' : (s.commit i.other n net).node i = s.node i := by simp [commit]
@[simp] theorem commit_net : (s.commit i n net).net = net := rfl

end Commit

section Step
variable [DecidableEq Addr] (addr : Side → Endpoint Addr)

/-- What a successful send puts in flight: only datagrams to the other node matter. -/
def carried (i : Side) : Option (Send Addr τ) → List (Side × Payload τ)
  | some ⟨target, .datagram p⟩ => if target = addr i.other then [(i.other, p)] else []
  | _ => []

/-- The threads interleave freely. Datagrams in flight are delivered in any order, lost or
repeated; any other address may send anything at any time. No `socket.send` throws. -/
def step (s : Link Addr τ) : Action Addr τ → Option (Link Addr τ)
  | .readLine i line => (Main.readLine (s.node i) line).map fun n => s.commit i n s.net
  | .thread i thread env =>
    if env.sendFails then none
    else ((s.node i).step thread env).map fun out =>
      s.commit i out.1 (s.net ++ carried addr i out.2)
  | .receive i k env =>
    match s.net[k]? with
    | some (j, p) =>
      if j = i then
        (Reciever.receive (s.node i) (addr i.other) p env).map fun n =>
          s.commit i n (s.net.eraseIdx k)
      else none
    | none => none
  | .outside i source p env =>
    if source = addr i.other then none
    else (Reciever.receive (s.node i) source p env).map fun n => s.commit i n s.net
  | .lose k => some { s with net := s.net.eraseIdx k }
  | .duplicate k => s.net[k]?.map fun d => { s with net := s.net ++ [d] }

def lts : LTS (Link Addr τ) (Action Addr τ) := .ofStep (step addr)

/-- What each action needs and does. -/
inductive Act (s : Link Addr τ) : Action Addr τ → Link Addr τ → Prop
  | readLine {i : Side} {line : τ} {n : Node Addr τ}
      (hn : Main.readLine (s.node i) line = some n) : Act s (.readLine i line) (s.commit i n s.net)
  | thread {i : Side} {thread : Thread} {env : Env} {n : Node Addr τ} {out : Option (Send Addr τ)}
      (calm : env.sendFails = false) (hn : (s.node i).step thread env = some (n, out)) :
      Act s (.thread i thread env) (s.commit i n (s.net ++ carried addr i out))
  | receive {i : Side} {k : Nat} {env : Env} {p : Payload τ} {n : Node Addr τ}
      (hk : s.net[k]? = some (i, p))
      (hn : Reciever.receive (s.node i) (addr i.other) p env = some n) :
      Act s (.receive i k env) (s.commit i n (s.net.eraseIdx k))
  | outside {i : Side} {source : Endpoint Addr} {p : Payload τ} {env : Env} {n : Node Addr τ}
      (hj : source ≠ addr i.other) (hn : Reciever.receive (s.node i) source p env = some n) :
      Act s (.outside i source p env) (s.commit i n s.net)
  | lose {k : Nat} : Act s (.lose k) { s with net := s.net.eraseIdx k }
  | duplicate {k : Nat} {d : Side × Payload τ} (hd : s.net[k]? = some d) :
      Act s (.duplicate k) { s with net := s.net ++ [d] }

variable {addr} {s t : Link Addr τ} {a : Action Addr τ}

theorem act_of_step (h : step addr s a = some t) : Act addr s a t := by
  cases a with
  | readLine i line =>
    obtain ⟨n, hn, rfl⟩ := Option.map_eq_some_iff.mp h
    exact .readLine hn
  | thread i thread env =>
    simp only [step] at h
    split at h
    · cases h
    · obtain ⟨⟨n, out⟩, hn, rfl⟩ := Option.map_eq_some_iff.mp h
      exact .thread (by simpa using ‹¬ env.sendFails = true›) hn
  | receive i k env =>
    simp only [step] at h
    split at h <;> try contradiction
    rename_i j p hk
    split at h <;> try contradiction
    rename_i hj
    subst hj
    obtain ⟨n, hn, rfl⟩ := Option.map_eq_some_iff.mp h
    exact .receive hk hn
  | outside i source p env =>
    simp only [step] at h
    split at h <;> try contradiction
    rename_i hj
    obtain ⟨n, hn, rfl⟩ := Option.map_eq_some_iff.mp h
    exact .outside hj hn
  | lose k =>
    cases h
    exact .lose
  | duplicate k =>
    obtain ⟨d, hd, rfl⟩ := Option.map_eq_some_iff.mp h
    exact .duplicate hd

theorem thread_of_step {i : Side} {thread : Thread} {env : Env}
    (h : step addr s (.thread i thread env) = some t) : ∃ n out, env.sendFails = false ∧
      (s.node i).step thread env = some (n, out) ∧
      t = s.commit i n (s.net ++ carried addr i out) := by
  cases act_of_step h with
  | thread calm hn => exact ⟨_, _, calm, hn, rfl⟩

end Step

end Link

/-- The (uid, text) pairs issued on one NodeInfo, in the order of `getSendID`. -/
def Node.issuedTo (n : Node Addr τ) (r : Ref) : List (Nat × τ) :=
  n.issued.filterMap fun x => if x.1 = r then some x.2 else none

/-- The (uid, text) pairs accepted on one NodeInfo, in the order they were queued. -/
def Node.acceptedFrom (n : Node Addr τ) (q : Ref) : List (Nat × τ) :=
  n.accepted.filterMap fun x => if x.1 = q then some x.2 else none

/-- The message between `getSendID` and `checkQueue.put`. -/
def SenderPc.inHand : SenderPc Addr τ → Option (Ref × Nat × τ)
  | .send message _ client uid | .put message _ client uid => some (client, uid, message.message)
  | _ => none

/-- The copies of issued messages that the Sender and the Checker still have for a link. -/
def Node.held (n : Node Addr τ) (r : Ref) : Set (Nat × τ) :=
  {x | (∃ t ∈ n.tasks, t.node = r ∧ (t.uid, t.message) = x) ∨ n.sender.inHand = some (r, x)}

def RecieverPc.phase (q : Ref) : RecieverPc Addr τ → CountAck.Phase τ
  | .put client _ uid text => if client = q then .taken (uid, text) else .idle
  | .confirm client _ => if client = q then .unacked else .idle
  | .update client => if client = q then .uncounted else .idle
  | _ => .idle

def Node.tx (n : Node Addr τ) (r : Ref) : CountAck.Tx τ :=
  ⟨n.issuedTo r, (n.heap r).lastDelivered, n.held r, r ∈ n.nodes⟩

def Node.rx (n : Node Addr τ) (q : Ref) : CountAck.Rx τ :=
  ⟨n.acceptedFrom q, (n.heap q).recieved, n.reciever.phase q⟩

def Payload.isConfirm : Payload τ → Bool
  | .confirm => true
  | _ => false

/-- The link from side `i`, where it is NodeInfo `r`, to the other side, where it is `q`. -/
def Link.view (s : Link Addr τ) (i : Side) (r q : Ref) : CountAck.State τ :=
  ⟨(s.node i).tx r, (s.node i.other).rx q,
    {x | (i.other, Payload.message x.1 x.2) ∈ s.net},
    s.net.countP fun d => decide (d.1 = i) && d.2.isConfirm⟩

end NetworkLabs.UdpChat
