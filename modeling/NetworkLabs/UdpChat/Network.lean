import NetworkLabs.UdpChat.LinkRefinement
import NetworkLabs.Flood

/-! Any number of chat nodes over reliable first-in first-out links. -/
namespace NetworkLabs.UdpChat

open Transition

variable {Addr Text : Type}

/-- A typed line with the node and the position it was typed at. No node looks into it. -/
structure Line (Addr Text : Type) where
  origin : Endpoint Addr
  position : Nat
  text : Text

def Line.id (l : Line Addr Text) : Endpoint Addr × Nat := (l.origin, l.position)

/-- The nodes by their address and port, the messages in flight on each link, oldest first,
and what was typed at each node. -/
structure Net (Addr Text : Type) where
  node : Endpoint Addr → Node Addr (Line Addr Text)
  link : Endpoint Addr → Endpoint Addr → List (Nat × Line Addr Text)
  typed : Endpoint Addr → List (Line Addr Text)

namespace Net

inductive Action (Addr Text : Type)
  | readLine (v : Endpoint Addr) (text : Text)
  | sender (v : Endpoint Addr) (env : Env)
  | reciever (v : Endpoint Addr) (env : Env)
  | deliver (u v : Endpoint Addr) (env : Env)
  | confirm (u v : Endpoint Addr) (env : Env)

section Step
variable [DecidableEq Addr]

/-- Node `v` acted, and what it sent to a node goes on the link to that node. -/
def commit (s : Net Addr Text) (v : Endpoint Addr) (out : Node.Outcome Addr (Line Addr Text)) :
    Net Addr Text :=
  { s with
    node := Function.update s.node v out.1
    link := fun u w => if u = v then s.link u w ++ (emitted w out.2).toList else s.link u w }

/-- No `socket.send` throws and no message that arrives is ignored: the links are reliable.
Confirmations may come at any time. -/
def step (s : Net Addr Text) : Action Addr Text → Option (Net Addr Text)
  | .readLine v text =>
    let line : Line Addr Text := ⟨v, (s.typed v).length, text⟩
    (Main.readLine (s.node v) line).map fun n =>
      { s.commit v (n, none) with typed := Function.update s.typed v (s.typed v ++ [line]) }
  | .sender v env =>
    if env.sendFails then none else (Sender.step (s.node v) env).map (s.commit v)
  | .reciever v env =>
    if env.sendFails then none else (Reciever.step (s.node v) env).map (s.commit v)
  | .deliver u v env =>
    match s.link u v with
    | [] => none
    | (uid, line) :: rest =>
      if env.draw > (s.node v).failPercent then
        (Reciever.receive (s.node v) u (.message uid line) env).map fun n =>
          { s.commit v (n, none) with
            link := Function.update s.link u (Function.update (s.link u) v rest) }
      else none
  | .confirm u v env =>
    (Reciever.receive (s.node v) u .confirm env).map fun n => s.commit v (n, none)

def lts : LTS (Net Addr Text) (Action Addr Text) := .ofStep step

end Step

end Net

/-- Where a message came from: the (address, port) pair that it is not sent back to. -/
def Message.sender {τ : Type} (m : Message Addr τ) : Option (Endpoint Addr) :=
  m.source.map fun address => ⟨address, m.port⟩

theorem Message.sender_mk {τ : Type} (e : Endpoint Addr) (message : τ) :
    (⟨some e.address, e.port, message⟩ : Message Addr τ).sender = some e := rfl

/-- The message a Sender is passing on, with the NodeInfo objects still ahead of it. -/
def SenderPc.passing {τ : Type} : SenderPc Addr τ → Option (Message Addr τ × List Ref)
  | .loop message clients | .send message clients _ _ | .put message clients _ _ =>
    some (message, clients)
  | _ => none

section Views
variable [DecidableEq Addr] (n : Node Addr (Line Addr Text)) (e : Endpoint Addr)

/-- Lines the node has still to take a uid for on the link to `e`. -/
def Node.owed : Multiset (Endpoint Addr × Nat) :=
  (n.messageQueue.container.filter fun m => m.sender ≠ some e).map (·.message.id) +
  match n.sender.passing with
  | some (m, clients) =>
    (clients.filter fun r => decide ((n.heap r).endpoint = e) && m.goesTo (n.heap r)).map
      fun _ => m.message.id
  | none => (0 : Multiset _)

/-- The message on its way from `getSendID` to `socket.send`. -/
def Node.leaving : List (Nat × Line Addr Text) :=
  match n.sender with
  | .send m _ client uid => if (n.heap client).endpoint = e then [(uid, m.message)] else []
  | _ => []

/-- The line on its way from `socket.receive` to `messageQueue.put`. -/
def Node.entering : Multiset (Endpoint Addr × Nat) :=
  match n.reciever with
  | .put _ source _ line => if source = e then {line.id} else 0
  | _ => 0

omit [DecidableEq Addr] in
def Node.arrived : Multiset (Option (Endpoint Addr) × (Endpoint Addr × Nat)) :=
  n.accepted.map fun a => (some (n.heap a.1).endpoint, a.2.2.id)

/-- The uid of the next message to take from the neighbour `q`. -/
def Node.awaited (q : Ref) : Nat :=
  (n.heap q).recieved +
  match n.reciever with
  | .put client _ _ _ | .confirm client _ | .update client => if client = q then 1 else 0
  | _ => 0

end Views

/-- The node keeps exactly the neighbours `S`, with one NodeInfo for each, and its threads
use no other. -/
structure Node.Static {τ : Type} (S : Set (Endpoint Addr)) (n : Node Addr τ) : Prop where
  mem : ∀ r ∈ n.nodes, (n.heap r).endpoint ∈ S
  ref : ∀ e ∈ S, ∃ r ∈ n.nodes, (n.heap r).endpoint = e
  inj : ∀ r ∈ n.nodes, ∀ r' ∈ n.nodes, (n.heap r).endpoint = (n.heap r').endpoint → r = r'
  nodup : n.nodes.Nodup
  refs : ∀ r ∈ n.sender.refs, r ∈ n.nodes
  handling : ∀ c e, n.reciever.handling = some (c, e) → c ∈ n.nodes ∧ (n.heap c).endpoint = e

variable {n n' : Node Addr (Line Addr Text)} {S : Set (Endpoint Addr)} {env : Env}
  {out : Option (Send Addr (Line Addr Text))}

/-- The neighbours and where they are did not change. -/
structure Node.SameNodes {τ : Type} (n n' : Node Addr τ) : Prop where
  nodes : n'.nodes = n.nodes
  endpoint : ∀ r, (n'.heap r).endpoint = (n.heap r).endpoint

theorem Node.Static.congr (hs : n.Static S) (h : n.SameNodes n')
    (hrefs : ∀ r ∈ n'.sender.refs, r ∈ n.nodes)
    (hhand : ∀ c e, n'.reciever.handling = some (c, e) → c ∈ n.nodes ∧ (n.heap c).endpoint = e) :
    n'.Static S := by
  obtain ⟨hn, he⟩ := h
  refine ⟨?_, ?_, ?_, hn ▸ hs.nodup, fun r hr => hn ▸ hrefs r hr, ?_⟩
  · intro r hr
    rw [he]
    exact hs.mem r (hn ▸ hr)
  · intro e hmem
    obtain ⟨r, hr, heq⟩ := hs.ref e hmem
    exact ⟨r, hn ▸ hr, (he r).trans heq⟩
  · intro r hr r' hr' heq
    rw [he, he] at heq
    exact hs.inj r (hn ▸ hr) r' (hn ▸ hr') heq
  · intro c e hc
    obtain ⟨hmem, heq⟩ := hhand c e hc
    exact ⟨hn ▸ hmem, (he c).trans heq⟩

section Moves
variable [DecidableEq Addr]

/-- What one action of a Sender does to the lines of its node. -/
inductive Sender.Move (S : Set (Endpoint Addr)) (n n' : Node Addr (Line Addr Text))
    (out : Option (Send Addr (Line Addr Text))) : Prop
  | pass (howed : ∀ e ∈ S, n'.owed e = n.owed e)
      (hleaving : ∀ e, (emitted e out).toList ++ n'.leaving e = n.leaving e)
      (hsent : ∀ r, (n'.heap r).sent = (n.heap r).sent)
  | issue (c : Ref) (line : Line Addr Text) (hc : c ∈ n.nodes) (hout : out = none)
      (howed : ∀ e, n.owed e = n'.owed e + if e = (n.heap c).endpoint then {line.id} else 0)
      (hleaving : ∀ e, n'.leaving e =
        n.leaving e ++ if e = (n.heap c).endpoint then [((n.heap c).sent + 1, line)] else [])
      (hsent : ∀ r, (n'.heap r).sent = (n.heap r).sent + if r = c then 1 else 0)

theorem Sender.step_static (h : Sender.step n env = some (n', out)) (hs : n.Static S) :
    n'.Static S ∧ n.SameNodes n' ∧ n'.reciever = n.reciever ∧ n'.arrived = n.arrived ∧
      ∀ q, n'.awaited q = n.awaited q := by
  have hact := Sender.act_of_step h
  have hrefs : ∀ r ∈ n'.sender.refs, r ∈ n.nodes := fun r hr =>
    (Sender.act_refs hact r hr).elim id (hs.refs r)
  cases hact with
  | @issue message client clients pc =>
    have hsame : n.SameNodes { n.modify client (·.getSendID.2) with
        issued := n.issued ++ [(client, (n.heap client).getSendID.1, message.message)]
        sender := .send message clients client (n.heap client).getSendID.1 } := ⟨rfl, by simp⟩
    refine ⟨hs.congr hsame hrefs hs.handling, hsame, rfl, ?_, ?_⟩
    · simp [Node.arrived]
    · intro q
      by_cases hq : q = client
      · subst hq
        simp [Node.awaited, NodeInfo.getSendID]
      · simp [Node.awaited, Node.modify_heap_of_ne _ _ _ hq]
  | _ =>
    exact ⟨hs.congr ⟨rfl, fun _ => rfl⟩ hrefs hs.handling, ⟨rfl, fun _ => rfl⟩, rfl, rfl,
      fun _ => rfl⟩

theorem Message.goesTo_iff {τ : Type} {m : Message Addr τ} {client : NodeInfo Addr} :
    m.goesTo client = true ↔ m.sender ≠ some client.endpoint := by
  obtain ⟨source, port, text⟩ := m
  cases source with
  | none => simp [goesTo, sender]
  | some address =>
    simp only [goesTo, sender, NodeInfo.endpoint, Option.map_some, ne_eq, Option.some.injEq,
      Endpoint.mk.injEq, Bool.or_eq_true, decide_eq_true_eq]
    grind

/-- The loop over `nodes` starts with one NodeInfo ahead for each neighbour. -/
theorem Node.Static.filter_nodes (hs : n.Static S) {e : Endpoint Addr} (he : e ∈ S)
    (m : Message Addr (Line Addr Text)) :
    ((n.nodes.filter fun r => decide ((n.heap r).endpoint = e) && m.goesTo (n.heap r)).map
      fun _ => m.message.id) = if m.sender ≠ some e then [m.message.id] else [] := by
  by_cases hm : m.sender = some e
  · rw [if_neg (not_not.mpr hm), List.map_eq_nil_iff, List.filter_eq_nil_iff]
    intro r _ hp
    simp only [Bool.and_eq_true, decide_eq_true_eq, Message.goesTo_iff] at hp
    exact hp.2 (hp.1 ▸ hm)
  · obtain ⟨r, hr, rfl⟩ := hs.ref e he
    have honly : (n.nodes.filter fun c => decide ((n.heap c).endpoint = (n.heap r).endpoint) &&
        m.goesTo (n.heap c)) = n.nodes.filter (· = r) := by
      apply List.filter_congr
      intro c hc
      rw [Bool.eq_iff_iff]
      simp only [Bool.and_eq_true, decide_eq_true_eq, Message.goesTo_iff]
      constructor
      · exact fun h => hs.inj c hc r hr h.1
      · rintro rfl
        exact ⟨rfl, hm⟩
    rw [honly, List.filter_eq, List.count_eq_one_of_mem hs.nodup hr, if_pos hm]
    rfl

/-- Lines keep their place while a Sender goes on to its next action. -/
theorem Sender.Move.same (hq : n'.messageQueue.container = n.messageQueue.container)
    (hp : n'.sender.passing = n.sender.passing) (hh : n'.heap = n.heap)
    (hleaving : ∀ e, (emitted e out).toList ++ n'.leaving e = n.leaving e) :
    Sender.Move S n n' out :=
  .pass (fun e _ => by simp [Node.owed, hq, hp, hh]) hleaving (fun r => by rw [hh])

@[simp] theorem Message.goesTo_modify_sent {τ : Type} (n : Node Addr τ) (m : Message Addr τ)
    (c r : Ref) : m.goesTo ((n.modify c (·.getSendID.2)).heap r) = m.goesTo (n.heap r) := by
  rw [Bool.eq_iff_iff, goesTo_iff, goesTo_iff, Node.endpoint_modify_sent]

theorem Sender.issue_move {m : Message Addr (Line Addr Text)} {clients : List Ref} {client : Ref}
    (hpc : n.sender = .loop m (client :: clients)) (hc : client ∈ n.nodes)
    (hgo : m.goesTo (n.heap client) = true) :
    Sender.Move S n { n.modify client (·.getSendID.2) with
      issued := n.issued ++ [(client, (n.heap client).getSendID.1, m.message)]
      sender := .send m clients client (n.heap client).getSendID.1 } none := by
  refine .issue client m.message hc rfl ?_ ?_ ?_
  · intro e
    by_cases he : (n.heap client).endpoint = e
    · subst he
      simp [Node.owed, hpc, SenderPc.passing, hgo, add_comm]
    · simp [Node.owed, hpc, SenderPc.passing, he, Ne.symm he]
  · intro e
    have huid : (n.heap client).getSendID.1 = (n.heap client).sent + 1 := rfl
    simp [Node.leaving, hpc, huid, eq_comm]
  · intro r
    by_cases hr : r = client
    · subst hr
      simp [NodeInfo.getSendID]
    · simp [hr, Node.modify_heap_of_ne]

theorem Sender.step_move (h : Sender.step n env = some (n', out)) (hf : env.sendFails = false)
    (hs : n.Static S) : Sender.Move S n n' out := by
  cases Sender.act_of_step h with
  | woken pc | put pc | stopChecker pc | wakeChecker pc | join pc =>
    exact .same rfl (by simp [pc, SenderPc.passing]) rfl (by simp [Node.leaving, pc, emitted])
  | @take m queue pc got =>
    refine .pass ?_ (by simp [Node.leaving, pc, emitted]) (fun _ => rfl)
    intro e he
    simp only [Node.owed, pc, SenderPc.passing, Storage.get_some got, List.filter_cons,
      hs.filter_nodes he]
    by_cases hm : m.sender = some e <;> simp [hm, add_comm]
  | done pc =>
    refine .pass ?_ (by simp [Node.leaving, pc, emitted]) (fun _ => rfl)
    simp [Node.owed, pc, SenderPc.passing]
  | @issue m client clients pc goes =>
    exact Sender.issue_move pc (hs.refs client (by simp [pc, SenderPc.refs])) goes
  | skip pc stays =>
    refine .pass ?_ (by simp [Node.leaving, pc, emitted]) (fun _ => rfl)
    simp [Node.owed, pc, SenderPc.passing, stays]
  | sent pc =>
    refine .same rfl (by simp [pc, SenderPc.passing]) rfl ?_
    intro e
    simp only [Node.leaving, pc, emitted]
    split <;> simp
  | unsent pc fails => simp [hf] at fails
  | check pc goesOn =>
    rcases goesOn with ⟨rfl, -⟩ | ⟨rfl, -⟩ <;>
      exact .same rfl (by simp [pc, SenderPc.passing]) rfl (by simp [Node.leaving, pc, emitted])

/-- What one action of a Reciever does to the lines of its node. -/
inductive Reciever.Move (S : Set (Endpoint Addr)) (n n' : Node Addr (Line Addr Text)) : Prop
  | pass (howed : ∀ e, n'.owed e = n.owed e) (hentering : ∀ e, n'.entering e = n.entering e)
      (harrived : n'.arrived = n.arrived)
  | take (source : Endpoint Addr) (line : Line Addr Text) (hs : source ∈ S)
      (howed : ∀ e, n'.owed e = n.owed e + if e ≠ source then {line.id} else 0)
      (hentering : ∀ e, n.entering e = n'.entering e + if e = source then {line.id} else 0)
      (harrived : n'.arrived = n.arrived + {(some source, line.id)})

/-- What neither a Reciever nor a confirmation touches. -/
structure Node.SameTx (n n' : Node Addr (Line Addr Text)) : Prop where
  leaving : ∀ e, n'.leaving e = n.leaving e
  sent : ∀ r, (n'.heap r).sent = (n.heap r).sent

theorem Node.owed_congr (hq : n'.messageQueue = n.messageQueue) (hs : n'.sender = n.sender)
    (he : ∀ r, (n'.heap r).endpoint = (n.heap r).endpoint) (e : Endpoint Addr) :
    n'.owed e = n.owed e := by
  have hgo : ∀ (m : Message Addr (Line Addr Text)) r,
      m.goesTo (n'.heap r) = m.goesTo (n.heap r) := by
    intro m r
    rw [Bool.eq_iff_iff, Message.goesTo_iff, Message.goesTo_iff, he]
  simp [owed, hq, hs, he, hgo]

theorem Node.owed_put (n : Node Addr (Line Addr Text)) (m : Message Addr (Line Addr Text))
    (accepted : List (Ref × Nat × Line Addr Text)) (pc : RecieverPc Addr (Line Addr Text))
    (e : Endpoint Addr) :
    Node.owed { n with
      messageQueue := n.messageQueue.put m, accepted := accepted, reciever := pc } e =
      n.owed e + if m.sender ≠ some e then {m.message.id} else 0 := by
  have hlast : (([m].filter fun m => m.sender ≠ some e).map (·.message.id) : List _) =
      if m.sender ≠ some e then [m.message.id] else [] := by
    by_cases hm : m.sender = some e <;> simp [hm]
  simp only [owed, Storage.put, List.filter_append, List.map_append, hlast, ← Multiset.coe_add]
  rw [add_right_comm]
  by_cases hm : m.sender = some e <;> simp [hm]

theorem Node.sameTx_of_heap (hs : n'.sender = n.sender)
    (he : ∀ r, (n'.heap r).endpoint = (n.heap r).endpoint)
    (hsent : ∀ r, (n'.heap r).sent = (n.heap r).sent) : Node.SameTx n n' :=
  ⟨fun e => by simp [leaving, hs, he], hsent⟩

omit [DecidableEq Addr] in
theorem Node.arrived_congr (ha : n'.accepted = n.accepted)
    (he : ∀ r, (n'.heap r).endpoint = (n.heap r).endpoint) : n'.arrived = n.arrived := by
  simp [arrived, ha, he]

/-- The message a Reciever has put is to go on to every neighbour but the one it is from. -/
theorem Reciever.put_move {client : Ref} {source : Endpoint Addr} {uid : Nat}
    {line : Line Addr Text} (hpc : n.reciever = .put client source uid line)
    (hend : (n.heap client).endpoint = source) (hs : source ∈ S) :
    Reciever.Move S n { n with
      messageQueue := n.messageQueue.put ⟨some source.address, source.port, line⟩
      accepted := n.accepted ++ [(client, uid, line)]
      reciever := .confirm client source } := by
  refine .take source line hs ?_ ?_ ?_
  · intro e
    rw [Node.owed_put]
    simp only [Message.sender_mk, ne_eq, Option.some.injEq, eq_comm]
  · intro e
    simp [Node.entering, hpc, eq_comm]
  · simp [Node.arrived, hend, ← Multiset.coe_add]

/-- A typed line is to go to every neighbour. -/
theorem Main.readLine_lines {line : Line Addr Text} (h : Main.readLine n line = some n') :
    n'.sender = n.sender ∧ n'.reciever = n.reciever ∧ n'.heap = n.heap ∧ n'.nodes = n.nodes ∧
      n'.accepted = n.accepted ∧ ∀ e, n'.owed e = n.owed e + {line.id} := by
  cases Main.eq_of_readLine h
  exact ⟨rfl, rfl, rfl, rfl, rfl, fun e => by rw [Node.owed_put]; rfl⟩

/-- What a living Reciever does to its node between two receipts of a message. -/
structure Reciever.Effect (S : Set (Endpoint Addr)) (n n' : Node Addr (Line Addr Text)) : Prop where
  move : Reciever.Move S n n'
  static : n'.Static S
  nodes : n.SameNodes n'
  tx : n.SameTx n'
  awaited : ∀ q, n'.awaited q = n.awaited q
  alive : n.reciever ≠ .crashed
  alive' : n'.reciever ≠ .crashed

/-- Going on in the loop with nothing in hand leaves the lines where they are. -/
theorem Reciever.goOn_effect {pc : RecieverPc Addr (Line Addr Text)} (hs : n.Static S)
    (hn : n.reciever ≠ .crashed) (hpc : pc ≠ .crashed) (hno : pc.handling = none)
    (hent : ∀ e, Node.entering { n with reciever := pc } e = n.entering e)
    (hawait : ∀ q, Node.awaited { n with reciever := pc } q = n.awaited q) :
    Reciever.Effect S n { n with reciever := pc } where
  move := .pass (Node.owed_congr rfl rfl (fun _ => rfl)) hent
    (Node.arrived_congr rfl (fun _ => rfl))
  static := hs.congr ⟨rfl, fun _ => rfl⟩ hs.refs (by simp [hno])
  nodes := ⟨rfl, fun _ => rfl⟩
  tx := Node.sameTx_of_heap rfl (fun _ => rfl) (fun _ => rfl)
  awaited := hawait
  alive := hn
  alive' := hpc

theorem Reciever.step_effect (h : Reciever.step n env = some (n', out)) (hf : env.sendFails = false)
    (hs : n.Static S) : Reciever.Effect S n n' ∧ ∀ e, emitted e out = none := by
  cases Reciever.act_of_step h with
  | @put client source uid line pc =>
    obtain ⟨hc, hend⟩ := hs.handling client source (by simp [pc, RecieverPc.handling])
    refine ⟨⟨?_, hs.congr ⟨rfl, fun _ => rfl⟩ hs.refs ?_, ⟨rfl, fun _ => rfl⟩,
      Node.sameTx_of_heap rfl (fun _ => rfl) (fun _ => rfl), ?_, by simp [pc], by simp⟩,
      fun _ => rfl⟩
    · exact Reciever.put_move pc hend (hend ▸ hs.mem client hc)
    · rintro c e ⟨⟩
      exact ⟨hc, hend⟩
    · intro q
      simp [Node.awaited, pc]
  | @update client pc =>
    have hmove : Reciever.Move S n { n.modify client (·.updateRecv) with reciever := .check } :=
      .pass (Node.owed_congr rfl rfl (by simp)) (by simp [Node.entering, pc])
        (Node.arrived_congr rfl (by simp))
    refine ⟨⟨hmove, hs.congr ⟨rfl, by simp⟩ hs.refs (by simp [RecieverPc.handling]), ⟨rfl, by simp⟩,
      Node.sameTx_of_heap rfl (by simp) ?_, ?_, by simp [pc], by simp⟩, fun _ => rfl⟩
    · intro r
      by_cases hr : r = client
      · subst hr
        simp [NodeInfo.updateRecv]
      · simp [Node.modify_heap_of_ne _ _ _ hr]
    · intro q
      by_cases hq : q = client
      · subst hq
        simp [Node.awaited, pc, NodeInfo.updateRecv]
      · simp [Node.awaited, pc, Node.modify_heap_of_ne _ _ _ hq, Ne.symm hq]
  | timeout pc | confirmed pc | replied pc =>
    exact ⟨Reciever.goOn_effect hs (by simp [pc]) (by simp) (by simp [RecieverPc.handling])
      (by simp [Node.entering, pc]) (by simp [Node.awaited, pc]), fun _ => rfl⟩
  | check pc goesOn =>
    refine ⟨?_, fun _ => rfl⟩
    rcases goesOn with ⟨rfl, -⟩ | ⟨rfl, -⟩ <;>
      exact Reciever.goOn_effect hs (by simp [pc]) (by simp) (by simp [RecieverPc.handling])
        (by simp [Node.entering, pc]) (by simp [Node.awaited, pc])
  | unconfirmed pc fails | unreplied pc fails => simp [hf] at fails

theorem Reciever.confirm_effect {source : Endpoint Addr}
    (h : Reciever.receive n source .confirm env = some n') (hs : n.Static S) :
    Reciever.Effect S n n' := by
  unfold Reciever.receive at h
  split at h <;> try contradiction
  rename_i hpc
  cases hfind : n.findNode source with
  | none =>
    simp only [hfind] at h
    cases h
    exact Reciever.goOn_effect hs (by simp [hpc]) (by simp) (by simp [RecieverPc.handling])
      (by simp [Node.entering, hpc]) (by simp [Node.awaited, hpc])
  | some client =>
    simp only [hfind] at h
    cases h
    refine ⟨.pass (Node.owed_congr rfl rfl (by simp)) (fun e => by simp [Node.entering, hpc])
      (Node.arrived_congr rfl (by simp)), hs.congr ⟨rfl, by simp⟩ hs.refs
      (by simp [RecieverPc.handling]), ⟨rfl, by simp⟩, Node.sameTx_of_heap rfl (by simp) ?_, ?_,
      by simp [hpc], by simp⟩
    all_goals
      intro r
      by_cases hr : r = client
      · subst hr
        simp [Node.awaited, hpc, NodeInfo.updateLastDelivered]
      · simp [Node.awaited, hpc, Node.modify_heap_of_ne _ _ _ hr]

/-- What becomes of a message from a neighbour or from anybody else. -/
theorem Reciever.receive_message {source : Endpoint Addr} {uid : Nat} {line : Line Addr Text}
    (h : Reciever.receive n source (.message uid line) env = some n')
    (hd : n.failPercent < env.draw) (hs : n.Static S) :
    n.reciever = .receive ∧
    (source ∉ S ∧ n' = { n with reciever := .check } ∨
      ∃ q ∈ n.nodes, (n.heap q).endpoint = source ∧
        (n' = { n with reciever := .crashed } ∨
          (n.heap q).recieved = uid ∧ n' = Reciever.accept n q source uid line ∨
          (n.heap q).recieved ≠ uid ∧ n' = { n with reciever := .check })) := by
  unfold Reciever.receive at h
  split at h <;> try contradiction
  rename_i hpc
  refine ⟨hpc, ?_⟩
  simp only [gt_iff_lt, hd, if_true] at h
  cases hfind : n.findNode source with
  | none =>
    simp only [hfind] at h
    cases h
    refine Or.inl ⟨?_, rfl⟩
    intro hmem
    obtain ⟨r, hr, he⟩ := hs.ref source hmem
    have := List.find?_eq_none.mp hfind r hr
    simp [he] at this
  | some q =>
    obtain ⟨hq, he⟩ := Node.findNode_some hfind
    simp only [hfind] at h
    refine Or.inr ⟨q, hq, he, ?_⟩
    split at h
    · cases h
      exact Or.inl rfl
    · split at h <;> cases h
      · rename_i hid
        exact Or.inr (Or.inl ⟨hid, rfl⟩)
      · rename_i hid
        exact Or.inr (Or.inr ⟨hid, rfl⟩)

end Moves

end NetworkLabs.UdpChat
