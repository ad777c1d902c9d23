import NetworkLabs.UdpChat.Served
import NetworkLabs.UdpChat.Delivery

/-! One node, whatever datagrams come in from anywhere and whichever of its sends throw. -/
namespace NetworkLabs.UdpChat

open Transition CountAck

variable {Addr τ : Type} {n n' : Node Addr τ} {env : Env} {thread : Thread}
  {out : Option (Send Addr τ)} {source : Endpoint Addr} {p : Payload τ} {r q : Ref}

namespace Node

inductive Action (Addr τ : Type)
  | readLine (line : τ)
  | thread (thread : Thread) (env : Env)
  | receive (source : Endpoint Addr) (p : Payload τ) (env : Env)

/-- A node after its start, alone or with the parent that it registered with. -/
inductive Started : Node Addr τ → Prop
  | alone (self : Endpoint Addr) (name : String) (failPercent : Nat) :
      Started (Server.start self name failPercent)
  | connected (self e : Endpoint Addr) (name reply : String) (failPercent : Nat) :
      Started (Server.connect (Server.start self name failPercent) e reply)

/-- The references are valid, and the counter of each NodeInfo counts what was issued on it. -/
structure Sound (n : Node Addr τ) : Prop where
  wf : n.Wf
  recorded : n.Recorded
  sent : ∀ r < n.allocated, (n.heap r).sent = (n.issuedTo r).length

theorem wf_start (self : Endpoint Addr) (name : String) (failPercent : Nat) :
    (Server.start self name failPercent : Node Addr τ).Wf := by
  refine ⟨?_, List.nodup_nil, ?_, ?_, ?_⟩ <;>
    simp [Server.start, SenderPc.refs, Node.tasks, Storage.empty, CheckerPc.hand,
      RecieverPc.handling]

theorem issuedTo_eq_nil (h : n.issued = []) : n.issuedTo r = [] := by
  rw [issuedTo, h]
  rfl

theorem acceptedFrom_eq_nil (h : n.accepted = []) : n.acceptedFrom q = [] := by
  rw [acceptedFrom, h]
  rfl

theorem Started.sound (h : n.Started) : n.Sound := by
  cases h with
  | alone self name failPercent =>
    refine ⟨wf_start self name failPercent, ⟨?_, ?_⟩, ?_⟩ <;> simp [Server.start]
  | connected self e name reply failPercent =>
    have hf := Server.fresh_connect (τ := τ) self e name reply failPercent
    refine ⟨hf.wf, ⟨by simp [hf.issued], by simp [hf.accepted]⟩, ?_⟩
    intro r hr
    have hzero : r = 0 := by simpa [Server.connect, Server.start] using hr
    rw [issuedTo_eq_nil hf.issued, hzero, hf.sent]
    rfl

section Steps
variable [DecidableEq Addr]

/-- The threads interleave freely, lines are typed and datagrams come in at any time. -/
def next (n : Node Addr τ) : Action Addr τ → Option (Node Addr τ)
  | .readLine line => Main.readLine n line
  | .thread thread env => (n.step thread env).map Prod.fst
  | .receive source p env => Reciever.receive n source p env

def lts : LTS (Node Addr τ) (Action Addr τ) := .ofStep next

theorem step_of_next (h : n.next (.thread thread env) = some n') :
    ∃ out, n.step thread env = some (n', out) := by
  obtain ⟨⟨n'', out⟩, hstep, rfl⟩ := Option.map_eq_some_iff.mp h
  exact ⟨out, hstep⟩

/-- A datagram makes at most one NodeInfo, and then it is a registration. -/
theorem receive_new (h : Reciever.receive n source p env = some n') (hr : r < n'.allocated)
    (hnew : n.allocated ≤ r) : r = n.allocated ∧ ∃ name,
    n' = { n.alloc (.new source (some name)) with
      nodes := n.nodes ++ [n.allocated], reciever := .reply n.allocated } := by
  cases Reciever.took_of_receive h with
  | passed | accepted | delivered => exact absurd hr (Nat.not_lt_of_le hnew)
  | @registered name => exact ⟨Nat.le_antisymm (Nat.lt_succ_iff.mp hr) hnew, name, rfl⟩

theorem sound_step (h : n.step thread env = some (n', out)) (hn : n.Sound) : n'.Sound := by
  refine ⟨wf_step h hn.wf, step_recorded h hn.wf hn.recorded, ?_⟩
  intro r hr
  rw [(step_heap h).1] at hr
  exact step_sent h (hn.sent r hr)

theorem sound_receive (h : Reciever.receive n source p env = some n') (hn : n.Sound) :
    n'.Sound := by
  refine ⟨Reciever.wf_receive h hn.wf, Reciever.recorded_receive h hn.recorded, ?_⟩
  intro r hr
  rcases Nat.lt_or_ge r n.allocated with hlt | hle
  · exact Reciever.receive_sent h hlt (hn.sent r hlt)
  · obtain ⟨rfl, name, rfl⟩ := receive_new h hr hle
    have hissued : Node.issuedTo { n.alloc (.new source (some name)) with
        nodes := n.nodes ++ [n.allocated], reciever := .reply n.allocated } n.allocated = [] :=
      issuedTo_of_le (n := n) hn.recorded (Nat.le_refl _)
    rw [hissued]
    simp [NodeInfo.new]

/-- No address of a NodeInfo ever changes. -/
theorem endpoint_next {a : Action Addr τ} (h : n.next a = some n') (hr : r < n.allocated) :
    (n'.heap r).endpoint = (n.heap r).endpoint := by
  cases a with
  | readLine line =>
    obtain rfl := Main.eq_of_readLine h
    rfl
  | thread thread env =>
    obtain ⟨out, hstep⟩ := step_of_next h
    exact (step_heap hstep).2.1 r
  | receive source p env =>
    cases Reciever.took_of_receive h with
    | passed | accepted => rfl
    | @delivered client => exact endpoint_modify_delivered n client r
    | registered => exact congrArg NodeInfo.endpoint (alloc_heap_of_lt n _ hr)

theorem sound_next {a : Action Addr τ} (h : n.next a = some n') (hn : n.Sound) : n'.Sound := by
  cases a with
  | readLine line =>
    have hw := Main.wf_readLine h hn.wf
    obtain rfl := Main.eq_of_readLine h
    exact ⟨hw, ⟨hn.recorded.issued_lt, hn.recorded.accepted_lt⟩, hn.sent⟩
  | thread thread env =>
    obtain ⟨out, hstep⟩ := step_of_next h
    exact sound_step hstep hn
  | receive source p env => exact sound_receive h hn

end Steps

end Node

end NetworkLabs.UdpChat
