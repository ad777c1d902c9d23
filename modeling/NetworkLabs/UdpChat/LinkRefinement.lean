import NetworkLabs.UdpChat.Link

/-! Each link between two nodes is a count-acknowledged transfer: the refinement. -/
namespace NetworkLabs.UdpChat

open CountAck

variable {Addr τ : Type} {n n' : Node Addr τ} {env : Env} {thread : Thread}
  {out : Option (Send Addr τ)} {source e : Endpoint Addr} {p : Payload τ} {r q : Ref}

theorem Node.tx_of_held (hi : n'.issued = n.issued) (hh : n'.heap = n.heap)
    (ht : n'.held r = n.held r) (hn : n'.nodes = n.nodes) : n'.tx r = n.tx r := by
  simp [tx, issuedTo, hi, hh, ht, hn]

theorem Node.tx_congr (hi : n'.issued = n.issued) (hh : n'.heap = n.heap)
    (ht : ∀ t, t ∈ n'.tasks ↔ t ∈ n.tasks) (hs : n'.sender.inHand = n.sender.inHand)
    (hn : n'.nodes = n.nodes) : n'.tx r = n.tx r := by
  simp [tx, issuedTo, held, hi, hh, ht, hs, hn]

theorem Node.tx_stay (h : n'.tx r = n.tx r) : TxMove (n.tx r) none (n'.tx r) := h ▸ .stay _

theorem Node.held_hand {x : Nat × τ} (h : n.sender.inHand = some (r, x)) : x ∈ (n.tx r).held :=
  Or.inr h

theorem Node.held_task {t : CheckTask τ} (h : t ∈ n.tasks) :
    (t.uid, t.message) ∈ (n.tx t.node).held :=
  Or.inl ⟨t, h, rfl, rfl⟩

/-- Taking a uid for `client` issues a message on that link and on no other. -/
theorem Sender.issue_tx {message : Message Addr τ} {clients clients' : List Ref} {client : Ref}
    (hpc : n.sender = .loop message clients)
    (hs : (n.heap r).sent = (n.issuedTo r).length)
    (h : n' = { n.modify client (·.getSendID.2) with
        issued := n.issued ++ [(client, (n.heap client).getSendID.1, message.message)]
        sender := .send message clients' client (n.heap client).getSendID.1 }) :
    TxMove (n.tx r) none (n'.tx r) := by
  subst h
  by_cases hc : client = r
  · subst hc
    have hissued : n.issuedTo client ++ [((n.heap client).getSendID.1, message.message)] =
        n.issuedTo client ++ [((n.issuedTo client).length + 1, message.message)] := by
      simp [NodeInfo.getSendID, hs]
    convert TxMove.issue (n.tx client) message.message using 1
    simp only [Node.tx, Tx.mk.injEq]
    refine ⟨?_, ?_, ?_, rfl⟩
    · simpa [Node.issuedTo] using hissued
    · simp [NodeInfo.getSendID]
    · ext x
      simp [Node.held, Node.tasks, SenderPc.inHand, hpc, NodeInfo.getSendID, hs, eq_comm, or_comm]
  · apply Node.tx_stay
    simp only [Node.tx, Tx.mk.injEq]
    refine ⟨?_, ?_, ?_, rfl⟩
    · simp [Node.issuedTo, hc]
    · simp [Node.modify_heap_of_ne n client _ (Ne.symm hc)]
    · ext x
      simp [Node.held, Node.tasks, SenderPc.inHand, hpc, hc]

/-- A task taken out of the queue is in the Checker's hand. -/
theorem Checker.get_tasks {task : CheckTask τ} {queue : Storage (CheckTask τ)}
    (hpc : n.checker = .get) (hq : n.checkQueue.get = some (some task, queue)) (t : CheckTask τ) :
    t ∈ Node.tasks { n with checkQueue := queue, checker := .sleep task } ↔ t ∈ n.tasks := by
  simp [Node.tasks, CheckerPc.hand, hpc, Storage.get_some hq, or_comm]

/-- Dropping the task in hand keeps every other copy of a link. -/
theorem Checker.held_drop {m : Node Addr τ} {task : CheckTask τ} (hpc : n.checker = .sleep task)
    (ht : m.checkQueue = n.checkQueue) (hc : m.checker = .check) (hs : m.sender = n.sender) :
    m.held r ⊆ n.held r ∧
      ∀ x ∈ n.held r, x ∈ m.held r ∨ task.node = r ∧ (task.uid, task.message) = x := by
  constructor
  · intro x hx
    simp only [Node.held, Node.tasks, ht, hc, hs, hpc, CheckerPc.hand] at hx ⊢
    grind
  · intro x hx
    simp only [Node.held, Node.tasks, ht, hc, hs, hpc, CheckerPc.hand] at hx ⊢
    grind

theorem Checker.remove_tx {task : CheckTask τ} (hpc : n.checker = .sleep task) (hw : n.Wf)
    (h : n' = { n with nodes := n.nodes.erase task.node, checker := .check }) :
    TxMove (n.tx r) none (n'.tx r) := by
  subst h
  obtain ⟨hsub, hkeep⟩ := Checker.held_drop (m := { n with
    nodes := n.nodes.erase task.node, checker := .check }) (r := r) hpc rfl rfl rfl
  by_cases hc : task.node = r
  · subst hc
    convert TxMove.unlist (n.tx task.node) _ hsub using 1
    simp [Node.tx, Node.issuedTo, hw.nodup.mem_erase_iff]
  · apply Node.tx_stay
    simp only [Node.tx, Tx.mk.injEq]
    refine ⟨rfl, trivial, hsub.antisymm ?_, ?_⟩
    · exact fun x hx => (hkeep x hx).resolve_right (fun hr => hc hr.1)
    · simp [hw.nodup.mem_erase_iff, Ne.symm hc]

/-- A task is discarded only when its uid counts as delivered. -/
theorem Checker.discard_tx {task : CheckTask τ} (hpc : n.checker = .sleep task)
    (hle : task.uid ≤ (n.heap task.node).lastDelivered) (h : n' = { n with checker := .check }) :
    TxMove (n.tx r) none (n'.tx r) := by
  subst h
  obtain ⟨hsub, hkeep⟩ := Checker.held_drop (m := { n with checker := .check }) (r := r)
    hpc rfl rfl rfl
  apply TxMove.forget (n.tx r) _ hsub
  intro x hx
  apply (hkeep x hx).imp_right
  rintro ⟨rfl, rfl⟩
  exact hle

section Steps
variable [DecidableEq Addr]

/-- The message a send puts on the way to `e`. -/
def emitted (e : Endpoint Addr) : Option (Send Addr τ) → Option (Item τ)
  | some ⟨target, .datagram (.message uid text)⟩ => if target = e then some (uid, text) else none
  | _ => none

/-- The number of confirmations a send puts on the way to `e`. -/
def confirms (e : Endpoint Addr) : Option (Send Addr τ) → Nat
  | some ⟨target, .datagram .confirm⟩ => if target = e then 1 else 0
  | _ => 0

/-- The Sender issues the next message of a link, or keeps what there is of it, as long as no
send of its own throws. -/
theorem Sender.step_txMove (h : Sender.step n env = some (n', out))
    (hf : ∀ message clients client uid, n.sender = .send message clients client uid →
      env.sendFails = false)
    (hs : (n.heap r).sent = (n.issuedTo r).length) : TxMove (n.tx r) none (n'.tx r) := by
  have still {queue : Storage (Message Addr τ)} {stopping : Bool} {pc : SenderPc Addr τ}
      (hh : pc.inHand = n.sender.inHand) : TxMove (n.tx r) none (Node.tx { n with
        messageQueue := queue, checkerStopping := stopping, sender := pc } r) :=
    Node.tx_stay (Node.tx_congr rfl rfl (fun _ => Iff.rfl) hh rfl)
  cases Sender.act_of_step h with
  | woken pc | take pc | done pc | skip pc | stopChecker pc | join pc | sent pc =>
    exact still (by simp [pc, SenderPc.inHand])
  | issue pc => exact Sender.issue_tx pc hs rfl
  | unsent pc fails => simp [hf _ _ _ _ pc] at fails
  | put pc =>
    refine Node.tx_stay (Node.tx_of_held rfl rfl ?_ rfl)
    ext x
    simp [Node.held, Node.tasks, SenderPc.inHand, pc, Storage.put, CheckTask.new, or_and_right,
      exists_or]
    grind
  | check pc goesOn =>
    rcases goesOn with ⟨rfl, -⟩ | ⟨rfl, -⟩ <;>
      exact still (by simp [pc, SenderPc.inHand])
  | wakeChecker pc =>
    exact Node.tx_stay
      (Node.tx_congr rfl rfl (fun _ => Iff.rfl) (by simp [pc, SenderPc.inHand]) rfl)

omit [DecidableEq Addr] in
/-- The Checker catches what its sends throw. -/
theorem Checker.step_txMove (h : Checker.step n env = some (n', out)) (hw : n.Wf) :
    TxMove (n.tx r) none (n'.tx r) := by
  have still {pc : CheckerPc τ} (hh : pc.hand = n.checker.hand) :
      Node.tx { n with checker := pc } r = n.tx r :=
    Node.tx_congr rfl rfl (by simp [Node.tasks, hh]) rfl rfl
  cases Checker.act_of_step h with
  | woken pc | late pc | sent pc | unsent pc =>
    exact Node.tx_stay (still (by simp [pc, CheckerPc.hand]))
  | take pc got => exact Node.tx_stay (Node.tx_congr rfl rfl (get_tasks pc got) rfl rfl)
  | remove pc => exact Checker.remove_tx pc hw rfl
  | drop pc _ delivered => exact Checker.discard_tx pc delivered rfl
  | put pc =>
    refine Node.tx_stay (Node.tx_of_held rfl rfl ?_ rfl)
    ext x
    simp [Node.held, Node.tasks, CheckerPc.hand, pc, Storage.put, CheckTask.updateTask,
      or_and_right, exists_or]
  | check pc goesOn =>
    rcases goesOn with ⟨rfl, -⟩ | ⟨rfl, -⟩ <;>
      exact Node.tx_stay (still (by simp [pc, CheckerPc.hand]))

theorem Reciever.step_tx (h : Reciever.step n env = some (n', out)) :
    emitted e out = none ∧ n'.tx r = n.tx r := by
  cases Reciever.act_of_step h with
  | @update client pc =>
    refine ⟨rfl, ?_⟩
    simp only [Node.tx, Tx.mk.injEq]
    refine ⟨rfl, ?_, rfl, rfl⟩
    by_cases hc : r = client
    · simp [hc, NodeInfo.updateRecv]
    · simp [Node.modify_heap_of_ne n client _ hc]
  | _ => exact ⟨rfl, rfl⟩

theorem Node.step_txMove (h : n.step thread env = some (n', out))
    (hf : thread = .sender → ∀ message clients client uid,
      n.sender = .send message clients client uid → env.sendFails = false)
    (hw : n.Wf) (hs : (n.heap r).sent = (n.issuedTo r).length) :
    TxMove (n.tx r) none (n'.tx r) := by
  cases thread with
  | main =>
    obtain ⟨queue, pc, stopping, stopping', rfl, rfl⟩ := Main.act_of_step h
    exact .stay _
  | sender => exact Sender.step_txMove h (hf rfl) hs
  | checker => exact Checker.step_txMove h hw
  | reciever => exact Node.tx_stay (Reciever.step_tx (e := (n.heap r).endpoint) h).2

/-- A message is sent from a copy that is kept of it. -/
theorem Node.step_transmits {x : Item τ} (h : n.step thread env = some (n', out)) (hw : n.Wf)
    (hx : emitted e out = some x) : (∀ r, n'.tx r = n.tx r) ∧
      ∃ c < n.allocated, (n.heap c).endpoint = e ∧ x ∈ (n.tx c).held := by
  cases thread with
  | main =>
    obtain ⟨queue, pc, stopping, stopping', rfl, rfl⟩ := Main.act_of_step h
    simp [emitted] at hx
  | sender =>
    cases Sender.act_of_step h with
    | @sent message clients client uid pc =>
      simp only [emitted, Option.ite_none_right_eq_some, Option.some.injEq] at hx
      obtain ⟨he, rfl⟩ := hx
      refine ⟨fun r => Node.tx_congr rfl rfl (fun _ => Iff.rfl) ?_ rfl, client, ?_, he, ?_⟩
      · simp [pc, SenderPc.inHand]
      · exact hw.sender_lt client (by simp [pc, SenderPc.refs])
      · exact Node.held_hand (by simp [pc, SenderPc.inHand])
    | _ => simp [emitted] at hx
  | checker =>
    cases Checker.act_of_step h with
    | @sent task pc =>
      have hmem : task ∈ n.tasks := by simp [Node.tasks, CheckerPc.hand, pc]
      simp only [emitted, Option.ite_none_right_eq_some, Option.some.injEq] at hx
      obtain ⟨he, rfl⟩ := hx
      refine ⟨fun r => Node.tx_congr rfl rfl ?_ rfl rfl, task.node, hw.tasks_lt task hmem, he,
        Node.held_task hmem⟩
      simp [Node.tasks, CheckerPc.hand, pc]
    | _ => simp [emitted] at hx
  | reciever => cases Reciever.act_of_step h <;> simp [emitted] at hx

/-- What a thread does is one move of the sending side of each of its links. -/
theorem Node.step_tx (h : n.step thread env = some (n', out)) (hf : env.sendFails = false)
    (hw : n.Wf) (hp : n.Peer e r) (hs : (n.heap r).sent = (n.issuedTo r).length) :
    TxMove (n.tx r) (emitted e out) (n'.tx r) := by
  cases hx : emitted e out with
  | none => exact Node.step_txMove h (fun _ _ _ _ _ _ => hf) hw hs
  | some x =>
    obtain ⟨hsame, c, hlt, he, hheld⟩ := Node.step_transmits h hw hx
    rw [hsame r, ← hp.unique c hlt he]
    exact .transmit _ x hheld

omit [DecidableEq Addr] in
theorem rx_stay {k : Nat} (hk : k = 0) (h : n'.rx q = n.rx q) :
    RxMove (n.rx q) none k (n'.rx q) := by
  subst hk
  rw [h]
  exact .stay _

omit [DecidableEq Addr] in
/-- The Reciever acknowledges exactly what it owes, unless that send throws. -/
theorem Reciever.step_owed (h : Reciever.step n env = some (n', out))
    (hf : ∀ source, n.reciever = .confirm q source → env.sendFails = false) :
    RxMove (n.rx q) none (n.rx q).phase.owed (n'.rx q) := by
  cases Reciever.act_of_step h with
  | @put client source uid text pc =>
    by_cases hc : client = q
    · have hph : (n.rx q).phase = .taken (uid, text) := by
        simp [Node.rx, RecieverPc.phase, pc, hc]
      convert RxMove.accept (n.rx q) (uid, text) hph using 1
      · rw [hph]
        rfl
      · simp [Node.rx, Node.acceptedFrom, RecieverPc.phase, hc]
    · apply rx_stay
      · simp [Node.rx, RecieverPc.phase, pc, hc, Phase.owed]
      · simp [Node.rx, Node.acceptedFrom, RecieverPc.phase, pc, hc]
  | @confirmed client source pc =>
    by_cases hc : client = q
    · have hph : (n.rx q).phase = .unacked := by simp [Node.rx, RecieverPc.phase, pc, hc]
      convert RxMove.ack (n.rx q) hph using 1
      · rw [hph]
        rfl
      · simp [Node.rx, Node.acceptedFrom, RecieverPc.phase, hc]
    · apply rx_stay
      · simp [Node.rx, RecieverPc.phase, pc, hc, Phase.owed]
      · simp [Node.rx, Node.acceptedFrom, RecieverPc.phase, pc, hc]
  | @unconfirmed client source pc fails =>
    by_cases hc : client = q
    · subst hc
      simp [hf source pc] at fails
    · apply rx_stay
      · simp [Node.rx, RecieverPc.phase, pc, hc, Phase.owed]
      · simp [Node.rx, Node.acceptedFrom, RecieverPc.phase, pc, hc]
  | @update client pc =>
    by_cases hc : client = q
    · have hph : (n.rx q).phase = .uncounted := by simp [Node.rx, RecieverPc.phase, pc, hc]
      convert RxMove.count (n.rx q) hph using 1
      · rw [hph]
        rfl
      · simp [Node.rx, Node.acceptedFrom, RecieverPc.phase, hc, NodeInfo.updateRecv]
    · apply rx_stay
      · simp [Node.rx, RecieverPc.phase, pc, hc, Phase.owed]
      · simp [Node.rx, Node.acceptedFrom, RecieverPc.phase, pc, hc,
          Node.modify_heap_of_ne n client _ (Ne.symm hc)]
  | timeout pc | replied pc | unreplied pc =>
    apply rx_stay
    · simp [Node.rx, RecieverPc.phase, pc, Phase.owed]
    · simp [Node.rx, Node.acceptedFrom, RecieverPc.phase, pc]
  | check pc goesOn =>
    apply rx_stay
    · simp [Node.rx, RecieverPc.phase, pc, Phase.owed]
    · rcases goesOn with ⟨rfl, -⟩ | ⟨rfl, -⟩ <;>
        simp [Node.rx, Node.acceptedFrom, RecieverPc.phase, pc]

/-- What it owes to a peer is what it sends there. -/
theorem Reciever.confirms_eq_owed (h : Reciever.step n env = some (n', out))
    (hf : env.sendFails = false) (hw : n.Wf) (hp : n.Peer e q) :
    confirms e out = (n.rx q).phase.owed := by
  cases Reciever.act_of_step h with
  | @confirmed client source pc =>
    obtain ⟨hlt, hend⟩ := hw.handling client source (by simp [pc, RecieverPc.handling])
    have hiff : source = e ↔ client = q := by
      constructor
      · intro he
        exact hp.unique client hlt (hend.trans he)
      · rintro rfl
        exact hend.symm.trans hp.endpoint
    by_cases hc : client = q
    · simp [confirms, hiff, Node.rx, RecieverPc.phase, pc, hc, Phase.owed]
    · simp [confirms, hiff, Node.rx, RecieverPc.phase, pc, hc, Phase.owed]
  | @put client source uid text pc | @update client pc =>
    by_cases hc : client = q <;> simp [confirms, Node.rx, RecieverPc.phase, pc, hc, Phase.owed]
  | unconfirmed pc fails | unreplied pc fails => simp [hf] at fails
  | timeout pc | replied pc | check pc =>
    simp [confirms, Node.rx, RecieverPc.phase, pc, Phase.owed]

theorem Reciever.step_rx (h : Reciever.step n env = some (n', out)) (hf : env.sendFails = false)
    (hw : n.Wf) (hp : n.Peer e q) : RxMove (n.rx q) none (confirms e out) (n'.rx q) := by
  rw [Reciever.confirms_eq_owed h hf hw hp]
  exact Reciever.step_owed h fun _ _ => hf

theorem Sender.step_rx (h : Sender.step n env = some (n', out)) :
    confirms e out = 0 ∧ n'.rx q = n.rx q := by
  cases Sender.act_of_step h with
  | @issue message client clients pc =>
    refine ⟨rfl, ?_⟩
    simp only [Node.rx, Rx.mk.injEq]
    refine ⟨rfl, ?_, rfl⟩
    by_cases hc : q = client
    · simp [hc, NodeInfo.getSendID]
    · simp [Node.modify_heap_of_ne n client _ hc]
  | _ => exact ⟨rfl, rfl⟩

theorem Checker.step_rx (h : Checker.step n env = some (n', out)) :
    confirms e out = 0 ∧ n'.rx q = n.rx q := by
  cases Checker.act_of_step h <;> exact ⟨rfl, rfl⟩

/-- What a thread does is one move of the receiving side of each of its links. -/
theorem Node.step_rx (h : n.step thread env = some (n', out)) (hf : env.sendFails = false)
    (hw : n.Wf) (hp : n.Peer e q) : RxMove (n.rx q) none (confirms e out) (n'.rx q) := by
  cases thread with
  | main =>
    obtain ⟨queue, pc, stopping, stopping', rfl, rfl⟩ := Main.act_of_step h
    exact .stay _
  | sender =>
    obtain ⟨hk, hr⟩ := Sender.step_rx (e := e) (q := q) h
    exact rx_stay hk hr
  | checker =>
    obtain ⟨hk, hr⟩ := Checker.step_rx (e := e) (q := q) h
    exact rx_stay hk hr
  | reciever => exact Reciever.step_rx h hf hw hp

/-- The counter of sent messages stays the length of the record of issued ones. -/
theorem Node.step_sent (h : n.step thread env = some (n', out))
    (hs : (n.heap r).sent = (n.issuedTo r).length) :
    (n'.heap r).sent = (n'.issuedTo r).length := by
  cases thread with
  | main =>
    obtain ⟨queue, pc, stopping, stopping', rfl, -⟩ := Main.act_of_step h
    exact hs
  | sender =>
    cases Sender.act_of_step h with
    | @issue message client clients pc =>
      by_cases hc : client = r
      · subst hc
        simp [Node.issuedTo, NodeInfo.getSendID] at hs ⊢
        exact hs
      · simpa [Node.issuedTo, hc, Node.modify_heap_of_ne n client _ (Ne.symm hc)] using hs
    | _ => exact hs
  | checker => cases Checker.act_of_step h <;> exact hs
  | reciever =>
    cases Reciever.act_of_step h with
    | @update client pc =>
      by_cases hc : r = client
      · subst hc
        simpa [Node.issuedTo, NodeInfo.updateRecv] using hs
      · simpa [Node.issuedTo, Node.modify_heap_of_ne n client _ hc] using hs
    | _ => exact hs

omit [DecidableEq Addr] in
/-- Ending or starting an iteration of the Reciever touches no link it is not handling. -/
theorem Node.link_reciever {pc : RecieverPc Addr τ} (h : pc.phase r = n.reciever.phase r) :
    Node.tx { n with reciever := pc } r = n.tx r ∧
    Node.rx { n with reciever := pc } r = n.rx r := by
  exact ⟨rfl, by simp [Node.rx, Node.acceptedFrom, h]⟩

/-- What a datagram from elsewhere does to the link with `e`: nothing. -/
theorem Reciever.receive_outside (h : Reciever.receive n source p env = some n')
    (hp : n.Peer e r) (hse : source ≠ e) : n'.tx r = n.tx r ∧ n'.rx r = n.rx r := by
  cases took_of_receive h with
  | passed pc ends =>
    apply Node.link_reciever
    rcases ends with rfl | rfl <;> simp [pc, RecieverPc.phase]
  | @accepted client uid text pc sent found =>
    have hne : client ≠ r := by
      rintro rfl
      exact hse ((Node.findNode_some found).2.symm.trans hp.endpoint)
    exact Node.link_reciever (by simp [pc, RecieverPc.phase, hne])
  | @delivered client pc sent found =>
    have hne : r ≠ client := by
      rintro rfl
      exact hse ((Node.findNode_some found).2.symm.trans hp.endpoint)
    simp [Node.tx, Node.rx, Node.issuedTo, Node.acceptedFrom, Node.held, Node.tasks, pc,
      RecieverPc.phase, Node.modify_heap_of_ne n client _ hne]
  | registered pc =>
    have hne : r ≠ n.allocated := Nat.ne_of_lt hp.lt
    simp [Node.tx, Node.rx, Node.issuedTo, Node.acceptedFrom, Node.held, Node.tasks, pc,
      RecieverPc.phase, Node.alloc_heap_of_lt _ _ hp.lt, hne]

/-- What a datagram from `e` does to the link with `e`. -/
theorem Reciever.receive_peer (h : Reciever.receive n e p env = some n') (hw : n.Wf)
    (hp : n.Peer e r) (hreg : ∀ name, p ≠ .register name) :
    (n'.tx r = n.tx r ∧ n'.rx r = n.rx r) ∨
    (∃ x, p = .message x.1 x.2 ∧ n'.tx r = n.tx r ∧ RxMove (n.rx r) (some x) 0 (n'.rx r)) ∨
    (p = .confirm ∧ n'.tx r = { n.tx r with acked := (n.tx r).acked + 1 } ∧ n'.rx r = n.rx r) := by
  have here : ∀ client, n.findNode e = some client → client = r := fun client hc =>
    hp.unique client (hw.nodes_lt _ (Node.findNode_some hc).1) (Node.findNode_some hc).2
  cases took_of_receive h with
  | passed pc ends =>
    left
    apply Node.link_reciever
    rcases ends with rfl | rfl <;> simp [pc, RecieverPc.phase]
  | @accepted client uid text pc sent found expected =>
    right
    left
    obtain rfl := here client found
    have hph : (n.rx client).phase = .idle := by simp [Node.rx, pc, RecieverPc.phase]
    refine ⟨(uid, text), sent, rfl, ?_⟩
    convert RxMove.take (n.rx client) (uid, text) hph expected.symm using 1
    simp [Node.rx, Node.acceptedFrom, Reciever.accept, RecieverPc.phase]
  | @delivered client pc sent found =>
    right
    right
    obtain rfl := here client found
    refine ⟨sent, ?_, ?_⟩
    · simp [Node.tx, Node.issuedTo, Node.held, Node.tasks, NodeInfo.updateLastDelivered]
    · simp [Node.rx, Node.acceptedFrom, NodeInfo.updateLastDelivered, pc, RecieverPc.phase]
  | @registered name pc sent => exact (hreg name sent).elim

theorem Reciever.receive_sent (h : Reciever.receive n source p env = some n')
    (hlt : r < n.allocated)
    (hs : (n.heap r).sent = (n.issuedTo r).length) : (n'.heap r).sent = (n'.issuedTo r).length := by
  cases took_of_receive h with
  | passed | accepted => exact hs
  | @delivered client =>
    by_cases hc : r = client
    · subst hc
      simpa [Node.issuedTo, NodeInfo.updateLastDelivered] using hs
    · simpa [Node.issuedTo, Node.modify_heap_of_ne n client _ hc] using hs
  | registered => simpa [Node.issuedTo, Node.alloc_heap_of_lt _ _ hlt] using hs

/-- No thread of a running node sends a registration. -/
theorem Node.step_out (h : n.step thread env = some (n', out)) {target : Endpoint Addr}
    (ho : out = some ⟨target, .datagram p⟩) (name : String) : p ≠ .register name := by
  rintro rfl
  cases thread with
  | main =>
    obtain ⟨queue, pc, stopping, stopping', rfl, rfl⟩ := Main.act_of_step h
    cases ho
  | sender => cases Sender.act_of_step h <;> cases ho
  | checker => cases Checker.act_of_step h <;> cases ho
  | reciever => cases Reciever.act_of_step h <;> cases ho

end Steps

end NetworkLabs.UdpChat
