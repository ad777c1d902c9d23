import NetworkLabs.UdpChat.LinkRefinement

/-! The neighbours a node may still send to, listed in `nodes` or not. -/
namespace NetworkLabs.UdpChat

open CountAck

variable {Addr τ : Type} {n n' : Node Addr τ} {env : Env} {thread : Thread}
  {out : Option (Send Addr τ)} {source e : Endpoint Addr} {p : Payload τ} {r q : Ref}

/-- The task a Checker is about to send. -/
def CheckerPc.sending : CheckerPc τ → List (CheckTask τ)
  | .send task => [task]
  | _ => []

/-- The Checker will send the task again unless a confirmation comes first. -/
def Node.resends (n : Node Addr τ) (task : CheckTask τ) : Bool :=
  decide (task.numFailed ≤ Checker.maxFailed) &&
    decide ((n.heap task.node).lastDelivered < task.uid)

/-- The NodeInfo objects that a message may still be sent on. -/
def Node.served (n : Node Addr τ) : List Ref :=
  n.nodes ++ n.sender.refs ++ (n.tasks.filter n.resends).map CheckTask.node ++
    n.checker.sending.map CheckTask.node

theorem Node.mem_served : r ∈ n.served ↔ r ∈ n.nodes ∨ r ∈ n.sender.refs ∨
    (∃ t ∈ n.tasks, n.resends t ∧ t.node = r) ∨ ∃ t ∈ n.checker.sending, t.node = r := by
  simp [served, and_assoc]

/-- Every reference on record was allocated. -/
structure Node.Recorded (n : Node Addr τ) : Prop where
  issued_lt : ∀ x ∈ n.issued, x.1 < n.allocated
  accepted_lt : ∀ x ∈ n.accepted, x.1 < n.allocated

/-- What a node issued to a neighbour and still has copies of. Acknowledgements and removal
are left out, so dropping a copy is always a move. -/
def Node.copies (n : Node Addr τ) (r : Ref) : Tx τ := ⟨n.issuedTo r, 0, n.held r, False⟩

theorem Node.copies_move {p : Tx τ} (h : TxMove (n.tx r) none p) :
    TxMove (n.copies r) none ⟨p.issued, 0, p.held, False⟩ := by
  rcases h with _ | m | _ | ⟨held', hsub, -⟩ | ⟨held', hsub⟩
  · exact .stay _
  · exact .issue (n.copies r) m
  · exact .unlist (n.copies r) held' hsub
  · exact .unlist (n.copies r) held' hsub

theorem Node.copies_drop (hi : n'.issued = n.issued) (hh : n'.held r ⊆ n.held r) :
    TxMove (n.copies r) none (n'.copies r) := by
  have hissued : n'.issuedTo r = n.issuedTo r := by simp [issuedTo, hi]
  simpa [copies, hissued] using TxMove.unlist (n.copies r) (n'.held r) hh

theorem Node.issuedTo_of_le (hn : n.Recorded) (hr : n.allocated ≤ r) : n.issuedTo r = [] := by
  rw [issuedTo, List.filterMap_eq_nil_iff]
  intro x hx
  have hne := Nat.ne_of_lt (Nat.lt_of_lt_of_le (hn.issued_lt x hx) hr)
  simp [hne]

theorem Node.acceptedFrom_of_le (hn : n.Recorded) (hq : n.allocated ≤ q) :
    n.acceptedFrom q = [] := by
  rw [acceptedFrom, List.filterMap_eq_nil_iff]
  intro x hx
  have hne := Nat.ne_of_lt (Nat.lt_of_lt_of_le (hn.accepted_lt x hx) hq)
  simp [hne]

theorem Node.copies_fresh (hw : n.Wf) (hrec : n.Recorded) (hr : n.allocated ≤ r) :
    n.copies r = ⟨[], 0, ∅, False⟩ := by
  have hissued : n.issuedTo r = [] := issuedTo_of_le hrec hr
  have hheld : n.held r = ∅ := by
    ext x
    simp only [held, Set.mem_ofPred_eq, Set.mem_empty_iff_false, iff_false]
    rintro (⟨t, ht, hn, -⟩ | hh)
    · exact Nat.not_lt_of_le hr (hn ▸ hw.tasks_lt t ht)
    · have hmem : r ∈ n.sender.refs := by
        cases hpc : n.sender <;> simp_all [SenderPc.inHand, SenderPc.refs]
      exact Nat.not_lt_of_le hr (hw.sender_lt r hmem)
  simp [copies, hissued, hheld]

theorem Node.served_of (hn : n'.nodes ⊆ n.nodes)
    (hs : ∀ c ∈ n'.sender.refs, c ∈ n.nodes ∨ c ∈ n.sender.refs)
    (ht : ∀ t ∈ n'.tasks, n'.resends t → t.node ∈ n.served)
    (hc : ∀ t ∈ n'.checker.sending, t.node ∈ n.served) : n'.served ⊆ n.served := by
  intro r hr
  rcases mem_served.mp hr with hr | hr | ⟨t, hm, hre, rfl⟩ | ⟨t, hm, rfl⟩
  · exact mem_served.mpr (.inl (hn hr))
  · exact mem_served.mpr ((hs r hr).imp_right .inl)
  · exact ht t hm hre
  · exact hc t hm

theorem Node.served_task {t : CheckTask τ} (h : t ∈ n.tasks) (hre : n.resends t) :
    t.node ∈ n.served :=
  mem_served.mpr (.inr (.inr (.inl ⟨t, h, hre, rfl⟩)))

theorem Node.served_sending {t : CheckTask τ} (h : t ∈ n.checker.sending) : t.node ∈ n.served :=
  mem_served.mpr (.inr (.inr (.inr ⟨t, h, rfl⟩)))

theorem Node.served_lt (hw : n.Wf) (h : r ∈ n.served) : r < n.allocated := by
  rcases mem_served.mp h with h | h | ⟨t, ht, -, rfl⟩ | ⟨t, ht, rfl⟩
  · exact hw.nodes_lt r h
  · exact hw.sender_lt r h
  · exact hw.tasks_lt t ht
  · refine hw.tasks_lt t (List.mem_append_right _ ?_)
    cases hpc : n.checker <;> simp_all [CheckerPc.sending, CheckerPc.hand]

theorem Node.resends_mono (hl : ∀ r, (n.heap r).lastDelivered ≤ (n'.heap r).lastDelivered)
    {t : CheckTask τ} (h : n'.resends t) : n.resends t := by
  simp only [resends, Bool.and_eq_true, decide_eq_true_eq] at h ⊢
  exact ⟨h.1, Nat.lt_of_le_of_lt (hl t.node) h.2⟩

/-- Without new tasks a node serves nobody new but what it lists. -/
theorem Node.served_keep (hn : n'.nodes ⊆ n.nodes)
    (hs : ∀ c ∈ n'.sender.refs, c ∈ n.nodes ∨ c ∈ n.sender.refs) (ht : ∀ t ∈ n'.tasks, t ∈ n.tasks)
    (hl : ∀ r, (n.heap r).lastDelivered ≤ (n'.heap r).lastDelivered)
    (hc : ∀ t ∈ n'.checker.sending, t.node ∈ n.served) : n'.served ⊆ n.served :=
  served_of hn hs (fun t hm hre => served_task (ht t hm) (resends_mono hl hre)) hc

/-- Nobody new is served by a node that only changes something else. -/
theorem Node.served_same (hn : n'.nodes = n.nodes) (hs : n'.sender.refs ⊆ n.sender.refs)
    (hq : n'.checkQueue.container = n.checkQueue.container) (hc : n'.checker = n.checker)
    (hl : ∀ r, (n.heap r).lastDelivered ≤ (n'.heap r).lastDelivered) : n'.served ⊆ n.served := by
  refine served_keep (by simp [hn]) (fun c h => .inr (hs h)) ?_ hl ?_
  · simp [tasks, hq, hc]
  · exact fun t ht => served_sending (hc ▸ ht)

section Steps
variable [DecidableEq Addr]

theorem Sender.step_served (h : Sender.step n env = some (n', out)) : n'.served ⊆ n.served := by
  have hact := Sender.act_of_step h
  have hrefs := Sender.act_refs hact
  cases hact with
  | @issue message client clients pc =>
    refine Node.served_same rfl (by simp [pc, SenderPc.refs]) rfl rfl ?_
    intro c
    by_cases hc : c = client
    · simp [hc, NodeInfo.getSendID]
    · simp [Node.modify_heap_of_ne _ _ _ hc]
  | @put message clients client uid pc =>
    have hclient : client ∈ n.sender.refs := by simp [pc, SenderPc.refs]
    refine Node.served_of (List.Subset.refl _) hrefs ?_ (fun _ => Node.served_sending (n := n))
    intro t hm hre
    have hmem : t ∈ n.tasks ∨ t = .new uid client message.message env.now := by
      simp only [Node.tasks, Storage.put, List.mem_append, List.mem_singleton] at hm ⊢
      grind
    rcases hmem with hmem | rfl
    · exact Node.served_task hmem hre
    · exact Node.mem_served.mpr (.inr (.inl hclient))
  | _ =>
    exact Node.served_keep (List.Subset.refl _) hrefs (fun _ => id) (fun _ => Nat.le_refl _)
      (fun _ => Node.served_sending (n := n))

omit [DecidableEq Addr] in
theorem Checker.step_served (h : Checker.step n env = some (n', out)) : n'.served ⊆ n.served := by
  have hsame : ∀ r, (n.heap r).lastDelivered ≤ (n.heap r).lastDelivered := fun _ => Nat.le_refl _
  cases Checker.act_of_step h with
  | woken pc | sent pc | unsent pc =>
    exact Node.served_keep (List.Subset.refl _) (fun _ => .inr)
      (by simp [Node.tasks, CheckerPc.hand, pc]) hsame (by simp [CheckerPc.sending])
  | take pc got =>
    exact Node.served_keep (List.Subset.refl _) (fun _ => .inr)
      (fun t => (Checker.get_tasks pc got t).mp) hsame (by simp [CheckerPc.sending])
  | remove pc =>
    exact Node.served_keep List.erase_subset (fun _ => .inr)
      (by simp +contextual [Node.tasks, CheckerPc.hand]) hsame (by simp [CheckerPc.sending])
  | @late task pc few waits =>
    have hhand : task ∈ n.tasks := by simp [Node.tasks, pc, CheckerPc.hand]
    refine Node.served_keep (List.Subset.refl _) (fun _ => .inr)
      (by simp [Node.tasks, CheckerPc.hand, pc]) hsame ?_
    intro t hm
    obtain rfl : t = task := by simpa [CheckerPc.sending] using hm
    exact Node.served_task hhand (by simp [Node.resends, waits, few])
  | drop pc =>
    exact Node.served_keep (List.Subset.refl _) (fun _ => .inr)
      (by simp +contextual [Node.tasks, CheckerPc.hand]) hsame (by simp [CheckerPc.sending])
  | @put task pc =>
    have hhand : task ∈ n.tasks := by simp [Node.tasks, pc, CheckerPc.hand]
    refine Node.served_of (List.Subset.refl _) (fun _ => .inr) ?_ (by simp [CheckerPc.sending])
    intro t hm hre
    simp only [Node.tasks, CheckerPc.hand, Storage.put, List.append_nil, List.mem_append,
      List.mem_singleton] at hm
    rcases hm with hm | rfl
    · exact Node.served_task (List.mem_append_left _ hm) hre
    · obtain ⟨hfew, hlate⟩ := Bool.and_eq_true_iff.mp hre
      have hcharged : task.numFailed + 1 ≤ Checker.maxFailed := of_decide_eq_true hfew
      have hbefore : n.resends task :=
        Bool.and_eq_true_iff.mpr ⟨decide_eq_true (Nat.le_of_succ_le hcharged), hlate⟩
      exact (Node.served_task hhand hbefore :)
  | check pc goesOn =>
    rcases goesOn with ⟨rfl, -⟩ | ⟨rfl, -⟩ <;>
      exact Node.served_keep (List.Subset.refl _) (fun _ => .inr)
        (by simp [Node.tasks, CheckerPc.hand, pc]) hsame (by simp [CheckerPc.sending])

omit [DecidableEq Addr] in
theorem Reciever.step_served (h : Reciever.step n env = some (n', out)) : n'.served ⊆ n.served := by
  cases Reciever.act_of_step h with
  | @update client pc =>
    refine Node.served_same rfl (List.Subset.refl _) rfl rfl ?_
    intro c
    by_cases hc : c = client
    · simp [hc, NodeInfo.updateRecv]
    · simp [Node.modify_heap_of_ne _ _ _ hc]
  | _ => exact Node.served_same rfl (List.Subset.refl _) rfl rfl (fun _ => Nat.le_refl _)

/-- A thread finds nobody new to send to. -/
theorem Node.step_served (h : n.step thread env = some (n', out)) : n'.served ⊆ n.served := by
  cases thread with
  | main =>
    obtain ⟨queue, pc, stopping, stopping', rfl, -⟩ := Main.act_of_step h
    exact Node.served_same rfl (List.Subset.refl _) rfl rfl (fun _ => Nat.le_refl _)
  | sender => exact Sender.step_served h
  | checker => exact Checker.step_served h
  | reciever => exact Reciever.step_served h

theorem Sender.step_copies (h : Sender.step n env = some (n', out))
    (hs : (n.heap r).sent = (n.issuedTo r).length) : TxMove (n.copies r) none (n'.copies r) := by
  have still (hi : n'.issued = n.issued) (ht : n'.tasks = n.tasks)
      (hs : n'.sender.inHand = n.sender.inHand ∨ n'.sender.inHand = none) :
      TxMove (n.copies r) none (n'.copies r) := by
    apply Node.copies_drop hi
    intro x hx
    simp only [Node.held, ht, Set.mem_ofPred_eq] at hx ⊢
    rcases hs with hs | hs <;> simp_all
  cases Sender.act_of_step h with
  | issue pc => exact Node.copies_move (Sender.issue_tx pc hs rfl)
  | sent pc => exact still rfl rfl (.inl (by simp [pc, SenderPc.inHand]))
  | put pc =>
    refine Node.copies_drop rfl ?_
    intro x hx
    simp only [Node.held, Node.tasks, SenderPc.inHand, pc, Storage.put, CheckTask.new,
      Set.mem_ofPred_eq] at hx ⊢
    grind
  | check pc goesOn => rcases goesOn with ⟨rfl, -⟩ | ⟨rfl, -⟩ <;> exact still rfl rfl (.inr rfl)
  | _ => exact still rfl rfl (.inr rfl)

omit [DecidableEq Addr] in
theorem Checker.step_copies (h : Checker.step n env = some (n', out)) :
    TxMove (n.copies r) none (n'.copies r) := by
  have hact := Checker.act_of_step h
  have hsent : n'.issued = n.issued ∧ n'.sender = n.sender := by
    cases hact <;> exact ⟨rfl, rfl⟩
  apply Node.copies_drop hsent.1
  rintro x (⟨t, ht, hn, hx⟩ | hh)
  · rcases Checker.act_tasks hact t ht with ht | ⟨task, pc, rfl⟩
    · exact .inl ⟨t, ht, hn, hx⟩
    · exact .inl ⟨task, by simp [Node.tasks, CheckerPc.hand, pc], hn, hx⟩
  · exact .inr (hsent.2 ▸ hh)

/-- What a thread does to the messages of one neighbour: issue the next one, or drop copies. -/
theorem Node.step_copies (h : n.step thread env = some (n', out))
    (hs : (n.heap r).sent = (n.issuedTo r).length) : TxMove (n.copies r) none (n'.copies r) := by
  cases thread with
  | main =>
    obtain ⟨queue, pc, stopping, stopping', rfl, -⟩ := Main.act_of_step h
    exact .stay _
  | sender => exact Sender.step_copies h hs
  | checker => exact Checker.step_copies h
  | reciever =>
    have htx : n'.issued = n.issued ∧ n'.held r = n.held r := by
      cases Reciever.act_of_step h <;> exact ⟨rfl, rfl⟩
    exact Node.copies_drop htx.1 htx.2.subset

/-- A message is sent to `e` from a copy kept for some neighbour served there. -/
theorem Node.step_emitted {x : Nat × τ} (h : n.step thread env = some (n', out))
    (hx : emitted e out = some x) :
    ∃ c ∈ n.served, (n.heap c).endpoint = e ∧ x ∈ n.held c := by
  cases thread with
  | main =>
    obtain ⟨queue, pc, stopping, stopping', rfl, rfl⟩ := Main.act_of_step h
    simp [emitted] at hx
  | sender =>
    cases Sender.act_of_step h with
    | @sent message clients client uid pc =>
      simp only [emitted, Option.ite_none_right_eq_some, Option.some.injEq] at hx
      obtain ⟨he, rfl⟩ := hx
      refine ⟨client, Node.mem_served.mpr (.inr (.inl (by simp [pc, SenderPc.refs]))), he, ?_⟩
      exact Node.held_hand (by simp [pc, SenderPc.inHand])
    | _ => simp [emitted] at hx
  | checker =>
    cases Checker.act_of_step h with
    | @sent task pc =>
      simp only [emitted, Option.ite_none_right_eq_some, Option.some.injEq] at hx
      obtain ⟨he, rfl⟩ := hx
      refine ⟨task.node, Node.served_sending (by simp [pc, CheckerPc.sending]), he, ?_⟩
      exact Node.held_task (by simp [Node.tasks, CheckerPc.hand, pc])
    | _ => simp [emitted] at hx
  | reciever => cases Reciever.act_of_step h <;> simp [emitted] at hx

theorem Node.step_recorded (h : n.step thread env = some (n', out)) (hw : n.Wf)
    (hn : n.Recorded) : n'.Recorded := by
  obtain ⟨hi, ha⟩ := hn
  cases thread with
  | main =>
    obtain ⟨queue, pc, stopping, stopping', rfl, -⟩ := Main.act_of_step h
    exact ⟨hi, ha⟩
  | sender =>
    cases Sender.act_of_step h with
    | @issue message client clients pc =>
      have hlt := hw.sender_lt client (by simp [pc, SenderPc.refs])
      refine ⟨?_, ha⟩
      intro x hx
      rcases List.mem_append.mp hx with hx | hx
      · exact hi x hx
      · rw [List.mem_singleton.mp hx]
        exact hlt
    | _ => exact ⟨hi, ha⟩
  | checker => cases Checker.act_of_step h <;> exact ⟨hi, ha⟩
  | reciever =>
    cases Reciever.act_of_step h with
    | @put client source uid text pc =>
      have hlt := (hw.handling client source (by simp [pc, RecieverPc.handling])).1
      refine ⟨hi, ?_⟩
      intro x hx
      rcases List.mem_append.mp hx with hx | hx
      · exact ha x hx
      · rw [List.mem_singleton.mp hx]
        exact hlt
    | _ => exact ⟨hi, ha⟩

/-- What a received datagram leaves alone. -/
theorem Reciever.receive_kept (h : Reciever.receive n source p env = some n') :
    n'.issued = n.issued ∧ n'.accepted = n.accepted ∧ n.allocated ≤ n'.allocated ∧
      n'.copies = n.copies := by
  cases took_of_receive h <;> exact ⟨rfl, rfl, by simp [Reciever.accept], rfl⟩

theorem Reciever.recorded_receive (h : Reciever.receive n source p env = some n')
    (hn : n.Recorded) : n'.Recorded := by
  obtain ⟨hi, ha, hle, -⟩ := receive_kept h
  exact ⟨fun x hx => (hn.issued_lt x (hi ▸ hx)).trans_le hle,
    fun x hx => (hn.accepted_lt x (ha ▸ hx)).trans_le hle⟩

theorem Reciever.receive_register {name : String}
    (h : Reciever.receive n source (.register name) env = some n') :
    n'.allocated = n.allocated + 1 ∧ (n'.heap n.allocated).sent = 0 := by
  unfold receive at h
  split at h <;> cases h
  exact ⟨rfl, by simp [NodeInfo.new]⟩

/-- Only a registration makes the node serve somebody new. -/
theorem Reciever.receive_served (h : Reciever.receive n source p env = some n') (hw : n.Wf)
    (hr : r ∈ n'.served) :
    (r ∈ n.served ∧ (n'.heap r).endpoint = (n.heap r).endpoint) ∨
      ∃ name, p = .register name ∧ r = n.allocated ∧ (n'.heap r).endpoint = source := by
  cases took_of_receive h with
  | passed | accepted => exact .inl ⟨hr, rfl⟩
  | @delivered client =>
    refine .inl ⟨Node.served_same ?_ ?_ ?_ ?_ ?_ hr, by simp⟩
    · rfl
    · exact List.Subset.refl _
    · rfl
    · rfl
    intro c
    by_cases hc : c = client
    · simp [hc, NodeInfo.updateLastDelivered]
    · simp [Node.modify_heap_of_ne _ _ _ hc]
  | @registered name pc sent =>
    by_cases hnew : r = n.allocated
    · subst hnew
      exact .inr ⟨name, sent, rfl, by simp⟩
    · have hold : r ∈ n.served := by
        rcases Node.mem_served.mp hr with hr | hr | ⟨t, ht, hre, rfl⟩ | hr
        · exact Node.mem_served.mpr (.inl (by simpa [hnew] using hr))
        · exact Node.mem_served.mpr (.inr (.inl hr))
        · have heap := Node.alloc_heap_of_lt n (.new source (some name)) (hw.tasks_lt t ht)
          exact Node.served_task ht (by simpa [Node.resends, heap] using hre)
        · exact Node.mem_served.mpr (.inr (.inr (.inr hr)))
      exact .inl ⟨hold, by simp [Node.alloc_heap_of_lt _ _ (Node.served_lt hw hold)]⟩

omit [DecidableEq Addr] in
theorem Reciever.step_rx_of_sent
    (h : Reciever.step n env = some (n', out)) (hw : n.Wf) (hp : n.Peer e q)
    (hf : ∀ c, n.reciever = .confirm c e → env.sendFails = false) :
    ∃ k, RxMove (n.rx q) none k (n'.rx q) := by
  refine ⟨_, Reciever.step_owed h ?_⟩
  intro source hpc
  obtain ⟨-, hend⟩ := hw.handling q source (by simp [hpc, RecieverPc.handling])
  exact hf q (by rw [hpc, ← hend, hp.endpoint])

/-- On the receiving side a failed send only matters for the confirmation of a message from `e`. -/
theorem Node.step_rx_of_sent (h : n.step thread env = some (n', out))
    (hw : n.Wf) (hp : n.Peer e q) (hf : thread = .reciever → ∀ c, n.reciever = .confirm c e →
      env.sendFails = false) : ∃ k, RxMove (n.rx q) none k (n'.rx q) := by
  cases thread with
  | main =>
    obtain ⟨queue, pc, stopping, stopping', rfl, -⟩ := Main.act_of_step h
    exact ⟨0, .stay _⟩
  | sender => exact ⟨0, rx_stay rfl (Sender.step_rx (e := e) h).2⟩
  | checker => exact ⟨0, rx_stay rfl (Checker.step_rx (e := e) h).2⟩
  | reciever => exact Reciever.step_rx_of_sent h hw hp (hf rfl)

end Steps

end NetworkLabs.UdpChat
