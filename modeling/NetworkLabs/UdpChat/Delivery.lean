import NetworkLabs.UdpChat.Session

/-! Delivery over one session of a link: in order always, and without loss of a message the
Checker lets go, as long as the network repeats nothing. -/
namespace NetworkLabs.UdpChat

open Transition CountAck

variable {Addr τ : Type}

/-- The loop condition of `Reciever.run` is next, or `socket.receive`. -/
def RecieverPc.betweenIterations : RecieverPc Addr τ → Bool
  | .receive | .check | .finished => true
  | _ => false

/-- The Sender has taken a message and not come to the end of its loop over `nodes`. -/
def SenderPc.broadcasting : SenderPc Addr τ → Bool
  | .loop _ _ | .send _ _ _ _ | .put _ _ _ _ => true
  | _ => false

theorem RecieverPc.phase_of_between {pc : RecieverPc Addr τ} (h : pc.betweenIterations = true)
    (q : Ref) : pc.phase q = .idle := by
  cases pc <;> simp_all [betweenIterations, phase]

theorem SenderPc.inHand_of_not_broadcasting {pc : SenderPc Addr τ} (h : pc.broadcasting = false) :
    pc.inHand = none := by
  cases pc <;> simp_all [broadcasting, inHand]

/-- A freshly constructed `Server`, its threads started. -/
def Server.start (self : Endpoint Addr) (name : String) (failPercent : Nat) : Node Addr τ where
  name := name
  failPercent := failPercent
  heap := fun _ => .new self none
  allocated := 0
  nodes := []
  messageQueue := .empty
  checkQueue := .empty
  main := .reading
  sender := .get
  checker := .get
  reciever := .receive
  senderStopping := false
  checkerStopping := false
  recieverStopping := false
  issued := []
  accepted := []

/-- `Server.connect` after a reply: the parent is a neighbour under the name it sent. -/
def Server.connect (n : Node Addr τ) (e : Endpoint Addr) (reply : String) : Node Addr τ :=
  { n.alloc ((NodeInfo.new e none).setNodeName reply) with nodes := n.nodes ++ [n.allocated] }

/-- All that the node ever did is to make one NodeInfo `r` for its neighbour at `e`. -/
structure Node.Fresh (n : Node Addr τ) (e : Endpoint Addr) (r : Ref) : Prop where
  wf : n.Wf
  peer : n.Peer e r
  sent : (n.heap r).sent = 0
  recieved : (n.heap r).recieved = 1
  lastDelivered : (n.heap r).lastDelivered = 0
  sender : n.sender = .get
  tasks : n.tasks = []
  idle : ∀ q, n.reciever.phase q = .idle
  issued : n.issued = []
  accepted : n.accepted = []

theorem Server.fresh_alloc {info : NodeInfo Addr} (pc : RecieverPc Addr τ) (self : Endpoint Addr)
    (name : String) (failPercent : Nat) (hpc : pc.handling = none) (hidle : ∀ q, pc.phase q = .idle)
    (hs : info.sent = 0) (hr : info.recieved = 1) (hl : info.lastDelivered = 0) :
    Node.Fresh { (Server.start self name failPercent : Node Addr τ).alloc info with
      nodes := [0], reciever := pc } info.endpoint 0 := by
  have hinfo : ((Server.start self name failPercent : Node Addr τ).alloc info).heap 0 = info :=
    Node.alloc_heap_self _ _
  have hzero : ∀ r, r < ((Server.start self name failPercent : Node Addr τ).alloc info).allocated →
      r = 0 := fun r hr => by simpa [Server.start] using hr
  refine ⟨⟨?_, by simp, ?_, ?_, by simp [hpc]⟩, ⟨?_, by rw [hinfo], fun r hr _ => hzero r hr⟩,
    by rw [hinfo, hs], by rw [hinfo, hr], by rw [hinfo, hl], rfl, rfl, hidle, rfl, rfl⟩
  · simp [Server.start]
  · simp [Server.start, SenderPc.refs]
  · simp [Server.start, Node.tasks, Storage.empty, CheckerPc.hand]
  · simp [Server.start]

theorem Server.fresh_connect (self e : Endpoint Addr) (name reply : String) (failPercent : Nat) :
    (Server.connect (Server.start self name failPercent) e reply : Node Addr τ).Fresh e 0 :=
  Server.fresh_alloc .receive self name failPercent rfl (fun _ => rfl) rfl rfl rfl

theorem Reciever.fresh_register [DecidableEq Addr] {self e : Endpoint Addr} {name reply : String}
    {failPercent : Nat} {env : Env} {n : Node Addr τ}
    (h : Reciever.receive (Server.start self reply failPercent) e (.register name) env = some n) :
    n.Fresh e 0 := by
  cases h
  exact Server.fresh_alloc (.reply 0) self reply failPercent rfl (fun _ => rfl) rfl rfl rfl

namespace Link

variable {addr : Side → Endpoint Addr} {s t u : Link Addr τ} {i : Side} {r q : Ref}

/-- The receiving side of the link has accepted nothing yet; whatever is already on its way
was issued by the sending side. -/
structure Opened (addr : Side → Endpoint Addr) (i : Side) (r q : Ref) (s : Link Addr τ) : Prop
    extends Session addr i r q s where
  numbered : Numbered ((s.node i).issuedTo r)
  held_issued : (s.node i).held r ⊆ {x | x ∈ (s.node i).issuedTo r}
  net_issued : ∀ uid text, (i.other, Payload.message uid text) ∈ s.net →
    (uid, text) ∈ (s.node i).issuedTo r
  none_accepted : (s.node i.other).acceptedFrom q = []
  recieved : ((s.node i.other).heap q).recieved = 1
  idle : (s.node i.other).reciever.phase q = .idle

/-- Besides, no confirmation was sent or counted, and every issued message is still kept. -/
structure Unconfirmed (i : Side) (r : Ref) (s : Link Addr τ) : Prop where
  lastDelivered : ((s.node i).heap r).lastDelivered = 0
  no_confirm : (i, Payload.confirm) ∉ s.net
  kept : ∀ x ∈ (s.node i).issuedTo r, x ∈ (s.node i).held r

theorem Opened.inOrder (h : Opened addr i r q s) : InOrder (s.view i r q) := by
  refine ⟨h.numbered, h.held_issued, fun x hx => h.net_issued x.1 x.2 hx, ?_, ?_, ?_⟩
  · simp [view, Node.rx, h.none_accepted]
  · simp [view, Node.rx, h.none_accepted, h.recieved, h.idle, Phase.pending]
  · simp [view, Node.rx, h.idle]

theorem Unconfirmed.counted (h : Unconfirmed i r s) (ho : Opened addr i r q s) :
    Counted (s.view i r q) := by
  refine ⟨?_, fun _ x hx => Or.inr (h.kept x hx)⟩
  have hnone := confirms_eq_zero h.no_confirm
  simp [view, Node.tx, Node.rx, h.lastDelivered, hnone, ho.idle, ho.none_accepted, Phase.owed]

theorem opened_of_fresh (hi : (s.node i).Fresh (addr i.other) r)
    (ho : (s.node i.other).Fresh (addr i) q) (hnet : s.net = []) :
    Opened addr i r q s ∧ Unconfirmed i r s := by
  have hissued : (s.node i).issuedTo r = [] := by simp [Node.issuedTo, hi.issued]
  have hheld : (s.node i).held r = ∅ := by
    simp [Node.held, hi.tasks, hi.sender, SenderPc.inHand]
  have hwf : ∀ j, (s.node j).Wf := by
    intro j
    rcases Side.eq_or_eq_other i j with rfl | rfl
    · exact hi.wf
    · exact ho.wf
  refine ⟨⟨⟨hwf, hi.peer, ho.peer, ?_, by simp [hnet]⟩, ?_, ?_, by simp [hnet], ?_, ho.recieved,
    ho.idle q⟩, hi.lastDelivered, by simp [hnet], by simp [hissued]⟩
  · simp [hi.sent, hissued]
  · simp [hissued, Numbered]
  · simp [hheld]
  · simp [Node.acceptedFrom, ho.accepted]

/-- Side `a` has just connected to the fresh server at side `b`, whose state is now `n`. -/
def registered (addr : Side → Endpoint Addr) (name reply : String) (failPercent : Nat)
    (n : Node Addr τ) : Link Addr τ where
  node
    | .a => Server.connect (Server.start (addr .a) name failPercent) (addr .b) reply
    | .b => n
  net := []

variable [DecidableEq Addr] {xs : List (Action Addr τ)}

/-- Registration opens a session in both directions. -/
theorem opened_registered {name reply : String} {fail failPercent : Nat} (env : Env)
    {n : Node Addr τ}
    (h : Reciever.receive (Server.start (addr .b) reply failPercent) (addr .a)
      (.register name) env =
      some n) (i : Side) :
    Opened addr i 0 0 (registered addr name reply fail n) ∧
      Unconfirmed i 0 (registered addr name reply fail n) := by
  have ha := Server.fresh_connect (τ := τ) (addr .a) (addr .b) name reply fail
  have hb := Reciever.fresh_register h
  cases i
  · exact opened_of_fresh ha hb rfl
  · exact opened_of_fresh hb ha rfl

theorem inOrder_reachable (hs : Opened addr i r q s) (h : (lts addr).MTr s xs t) :
    InOrder (t.view i r q) :=
  refines.mTr_inv session_trInv (fun _ _ _ _ _ _ ht hp => inOrder_step ht hp) h hs.toSession
    hs.inOrder

theorem counted_reachable (hs : Opened addr i r q s) (hu : Unconfirmed i r s)
    (h : (lts addr).MTr s xs t) (hx : ∀ k, .duplicate k ∉ xs) : Counted (t.view i r q) := by
  refine refines.mTr_inv session_trInv ?_ h hs.toSession (hu.counted hs)
  intro a ha b hb v w hvw hp
  refine counted_step hvw ?_ hp
  cases a with
  | duplicate k => exact (hx k ha).elim
  | _ => exact hb

/-- Over one session of a link, what the receiving side accepted is an initial part of what
was issued to it, and its counter tells how long a part. -/
theorem accepted_prefix_issued (hs : Opened addr i r q s) (h : (lts addr).MTr s xs t)
    (hb : (t.node i.other).reciever.betweenIterations = true) :
    Numbered ((t.node i).issuedTo r) ∧
      (t.node i.other).acceptedFrom q <+: (t.node i).issuedTo r ∧
      ((t.node i.other).acceptedFrom q).map Prod.snd <+: ((t.node i).issuedTo r).map Prod.snd ∧
      ((t.node i.other).heap q).recieved - 1 = ((t.node i.other).acceptedFrom q).length := by
  have hi := inOrder_reachable hs h
  have hexp := hi.expected
  simp only [view, Node.rx, RecieverPc.phase_of_between hb, Phase.pending] at hexp
  exact ⟨hi.numbered, hi.accepted_prefix, hi.accepted_prefix.map Prod.snd, by omega⟩

/-- Two nodes on distinct addresses. -/
def pairAddr : Side → Endpoint Nat
  | .a => ⟨1, 5000⟩
  | .b => ⟨2, 5000⟩

/-- Side `a` has registered with side `b`, whose reply is still to be sent. -/
def pair : Link Nat String :=
  registered pairAddr "a" "b" 0 ((Reciever.receive (Server.start (pairAddr .b) "b" 0) (pairAddr .a)
    (.register "a") (.calm 0)).get rfl)

theorem opened_pair (i : Side) : Opened pairAddr i 0 0 pair ∧ Unconfirmed i 0 pair :=
  opened_registered (.calm 0) rfl i

/-- One line from `a` to `b`, up to the end of the iteration that accepts it. -/
def pairRun : List (Action Nat String) :=
  [.thread .b .reciever (.calm 0), .thread .b .reciever (.calm 0), .readLine .a "hi",
    .thread .a .sender (.calm 0), .thread .a .sender (.calm 0), .thread .a .sender (.calm 0),
    .thread .a .sender (.calm 0), .thread .a .sender (.calm 0), .receive .b 0 (.calm 0),
    .thread .b .reciever (.calm 0), .thread .b .reciever (.calm 0), .thread .b .reciever (.calm 0)]

/-- The confirmation comes back and the Checker takes the task. -/
def pairConfirmed : List (Action Nat String) :=
  pairRun ++ [.receive .a 0 (.calm 0), .thread .a .checker (.calm 0)]

/-- The Checker wakes up and lets the task go. -/
def pairSettled : List (Action Nat String) := pairConfirmed ++ [.thread .a .checker (.calm 5000)]

def pairAfter (xs : List (Action Nat String)) : Link Nat String := LTS.after (step pairAddr) pair xs

theorem mTr_pairAfter (xs : List (Action Nat String))
    (h : (LTS.run (step pairAddr) pair xs).isSome) : (lts pairAddr).MTr pair xs (pairAfter xs) :=
  LTS.mTr_after h

theorem accepted_prefix_issued_pair :
    ((pairAfter pairRun).node .b).acceptedFrom 0 = [(1, "hi")] ∧
      (((pairAfter pairRun).node .b).acceptedFrom 0).map Prod.snd <+:
        (((pairAfter pairRun).node .a).issuedTo 0).map Prod.snd := by
  have h := mTr_pairAfter pairRun (by decide)
  exact ⟨rfl, (accepted_prefix_issued (i := .a) (q := 0) (opened_pair .a).1 h rfl).2.2.1⟩

omit [DecidableEq Addr] in
/-- A task that the Checker neither puts back nor charges to a dead neighbour counts as
delivered. -/
theorem discarded_le_delivered {n n' : Node Addr τ} {env : Env} {task : CheckTask τ}
    {out : Option (Send Addr τ)} (hw : n.Wf) (h : Checker.step n env = some (n', out))
    (hpc : n.checker = .sleep task) (hdrop : n'.checker = .check)
    (hlive : task.numFailed ≤ Checker.maxFailed ∨ task.node ∈ n'.nodes) :
    task.uid ≤ (n.heap task.node).lastDelivered := by
  cases Checker.act_of_step h with
  | @remove task' pc failed =>
    obtain rfl : task' = task := by simpa [hpc, eq_comm] using pc
    rcases hlive with hle | hmem
    · omega
    · exact (hw.nodup.not_mem_erase hmem).elim
  | @drop task' pc few delivered =>
    obtain rfl : task' = task := by simpa [hpc, eq_comm] using pc
    exact delivered
  | late => cases hdrop
  | woken pc | take pc | sent pc | unsent pc | put pc | check pc => simp [hpc] at pc

/-- While the network repeats no datagram, the Checker discards only what was accepted, and
a link with nothing left to check has delivered everything. -/
theorem no_message_lost (hs : Opened addr i r q s) (hu : Unconfirmed i r s)
    (h : (lts addr).MTr s xs t) (hx : ∀ k, .duplicate k ∉ xs) :
    (∀ env task, (lts addr).Tr t (.thread i .checker env) u → (t.node i).checker = .sleep task →
      task.node = r → (u.node i).checker = .check →
      (task.numFailed ≤ Checker.maxFailed ∨ r ∈ (u.node i).nodes) →
      (task.uid, task.message) ∈ (t.node i.other).acceptedFrom q) ∧
    (r ∈ (t.node i).nodes → (t.node i).sender.broadcasting = false →
      (t.node i.other).reciever.betweenIterations = true →
      (∀ task ∈ (t.node i).tasks, task.node ≠ r) →
      ((t.node i).heap r).sent = ((t.node i).heap r).lastDelivered ∧
        ((t.node i).heap r).sent = ((t.node i.other).heap q).recieved - 1) := by
  have hi := inOrder_reachable hs h
  have hc := counted_reachable hs hu h hx
  have hsess := LTS.mTr_of_trInv session_trInv h hs.toSession
  constructor
  · rintro env task hstep hpc rfl hdrop hlive
    obtain ⟨n, out, -, hn, rfl⟩ := thread_of_step hstep
    simp only [commit_self] at hdrop hlive
    have hle := discarded_le_delivered (hsess.wf i) hn hpc hdrop hlive
    have hmem : task ∈ (t.node i).tasks := by simp [Node.tasks, hpc, CheckerPc.hand]
    exact accepted_of_acked hi hc (hi.held_issued _ (Node.held_task hmem)) hle
  · intro hl hsend hb htasks
    have hempty : (t.view i r q).tx.held = ∅ := by
      ext x
      have hhand := SenderPc.inHand_of_not_broadcasting hsend
      simp only [view, Node.tx, Node.held, hhand, Set.mem_ofPred_eq, Set.mem_empty_iff_false,
        iff_false]
      rintro (⟨task, hmem, hr, -⟩ | hh)
      · exact htasks task hmem hr
      · cases hh
    obtain ⟨hack, hacc⟩ := settled hi hc hl hempty
    have hexp := hi.expected
    have hsent := hsess.sent
    simp only [view, Node.tx, Node.rx, RecieverPc.phase_of_between hb, Phase.pending]
      at hack hacc hexp
    omega

theorem no_message_lost_pair :
    (1, "hi") ∈ ((pairAfter pairConfirmed).node .b).acceptedFrom 0 ∧
      (((pairAfter pairSettled).node .a).heap 0).sent =
        (((pairAfter pairSettled).node .a).heap 0).lastDelivered := by
  have h := mTr_pairAfter pairConfirmed (by decide)
  have h' := mTr_pairAfter pairSettled (by decide)
  have htr : (lts pairAddr).Tr (pairAfter pairConfirmed) (.thread .a .checker (.calm 5000))
      (pairAfter pairSettled) := rfl
  obtain ⟨ho, hu⟩ := opened_pair .a
  refine ⟨?_, ?_⟩
  · exact (no_message_lost ho hu h (by simp [pairConfirmed, pairRun])).1 (.calm 5000)
      ⟨1, 0, "hi", 1, 5000⟩ htr rfl rfl rfl (Or.inl (by decide))
  · refine ((no_message_lost (u := pair) ho hu h' (by simp [pairSettled, pairConfirmed, pairRun])).2
      (by decide) rfl rfl ?_).1
    intro task ht
    exact (List.not_mem_nil ht).elim

end Link

end NetworkLabs.UdpChat
