import NetworkLabs.UdpChat.Delivery

/-! A lost confirmation is never made up for: what a retransmission can and cannot repair. -/
namespace NetworkLabs.UdpChat

open Transition CountAck

variable {Addr τ : Type} {n n' : Node Addr τ} {env : Env} {thread : Thread} {k : Nat}
  {out : Option (Send Addr τ)} {source e : Endpoint Addr} {p : Payload τ} {r q : Ref}

theorem RecieverPc.owed_of_not_handling {pc : RecieverPc Addr τ} (h : pc.handling = none)
    (q : Ref) : (pc.phase q).owed = 0 := by
  cases pc with
  | update client =>
    simp only [phase]
    split <;> rfl
  | put client source uid text | confirm client source => simp [handling] at h
  | receive | reply newNode | check | finished | crashed => rfl

/-- No task for uid `k` of `r` will have failed too often when the Checker wakes up with it. -/
structure Node.Spared (n : Node Addr τ) (r : Ref) (k : Nat) : Prop where
  tasks : ∀ task ∈ n.tasks, task.node = r → task.uid = k → task.numFailed ≤ Checker.maxFailed
  resent : ∀ task, n.checker = .send task ∨ n.checker = .put task → task.node = r → task.uid = k →
    task.numFailed < Checker.maxFailed

theorem Node.Spared.congr (h : n.Spared r k)
    (hq : n'.checkQueue.container = n.checkQueue.container) (hc : n'.checker = n.checker) :
    n'.Spared r k := by
  refine ⟨?_, by simpa [hc] using h.resent⟩
  simpa [Node.tasks, hq, hc] using h.tasks

/-- A confirmed message is not sent again, so its tasks are charged no more. -/
theorem Checker.spared_step (h : Checker.step n env = some (n', out)) (hs : n.Spared r k)
    (hle : k ≤ (n.heap r).lastDelivered) : n'.Spared r k := by
  obtain ⟨ht, hr⟩ := hs
  have sameTasks {pc : CheckerPc τ} (hh : pc.hand = n.checker.hand)
      (hr' : ∀ task, pc = .send task ∨ pc = .put task → task.node = r → task.uid = k →
        task.numFailed < Checker.maxFailed) : Node.Spared { n with checker := pc } r k :=
    ⟨by simpa [Node.tasks, hh] using ht, hr'⟩
  cases Checker.act_of_step h with
  | woken pc => exact sameTasks (by simp [CheckerPc.hand, pc]) (by simp)
  | take pc got => exact ⟨fun t hm => ht t ((Checker.get_tasks pc got t).mp hm), by simp⟩
  | remove | drop =>
    refine ⟨fun t hm => ht t ?_, by simp⟩
    exact List.mem_append_left _ (by simpa [Node.tasks, CheckerPc.hand] using hm)
  | late pc few waits =>
    apply sameTasks (by simp [CheckerPc.hand, pc])
    rintro task' (hh | hh) rfl rfl <;> cases hh
    omega
  | @sent task pc | @unsent task pc =>
    apply sameTasks (by simp [CheckerPc.hand, pc])
    rintro task' (hh | hh) <;> cases hh
    exact hr task (.inl pc)
  | @put task pc =>
    refine ⟨?_, by simp⟩
    intro t hm hn hk
    rcases Checker.act_tasks (.put pc) t hm with hm | ⟨task', pc', rfl⟩
    · exact ht t hm hn hk
    · exact hr task' (.inr pc') hn hk
  | check pc goesOn =>
    rcases goesOn with ⟨rfl, -⟩ | ⟨rfl, -⟩ <;>
      exact sameTasks (by simp [CheckerPc.hand, pc]) (by simp)

/-- The Checker removes nobody for a message whose tasks are spared. -/
theorem Node.Spared.nodes_kept {task : CheckTask τ} (h : n.Spared r k)
    (hstep : Checker.step n env = some (n', out)) (hpc : n.checker = .sleep task)
    (hn : task.node = r) (hk : task.uid = k) : n'.nodes = n.nodes := by
  have hmem : task ∈ n.tasks := by simp [Node.tasks, hpc, CheckerPc.hand]
  have hle := h.tasks task hmem hn hk
  cases Checker.act_of_step hstep with
  | @remove task' pc failed =>
    obtain rfl : task' = task := by simpa [hpc, eq_comm] using pc
    omega
  | _ => rfl

section Steps
variable [DecidableEq Addr]

theorem Node.spared_step (h : n.step thread env = some (n', out)) (hs : n.Spared r k)
    (hle : k ≤ (n.heap r).lastDelivered) : n'.Spared r k := by
  cases thread with
  | main =>
    obtain ⟨queue, pc, stopping, stopping', rfl, -⟩ := Main.act_of_step h
    exact hs.congr rfl rfl
  | sender =>
    have hact := Sender.act_of_step h
    have hchecker : n'.checker = n.checker := by cases hact <;> rfl
    refine ⟨?_, by simpa [hchecker] using hs.resent⟩
    intro t hm hn hk
    rcases Sender.act_tasks hact t hm with hm | ⟨-, hfirst⟩
    · exact hs.tasks t hm hn hk
    · simp [hfirst, Checker.maxFailed]
  | checker => exact Checker.spared_step h hs hle
  | reciever => cases Reciever.act_of_step h <;> exact hs.congr rfl rfl

theorem Reciever.spared_receive (h : Reciever.receive n source p env = some n')
    (hs : n.Spared r k) : n'.Spared r k := by
  cases took_of_receive h <;> exact hs.congr rfl rfl

/-- A confirmation counts exactly if its sender is still listed. -/
theorem Reciever.receive_confirm (h : Reciever.receive n e .confirm env = some n') (hw : n.Wf)
    (hp : n.Peer e r) :
    (n'.heap r).lastDelivered = (n.heap r).lastDelivered + if r ∈ n.nodes then 1 else 0 := by
  unfold Reciever.receive at h
  split at h <;> try contradiction
  simp only at h
  split at h <;> cases h
  · rename_i hnone
    have hr : r ∉ n.nodes := by
      intro hr
      have := List.find?_eq_none.mp hnone r hr
      simp [hp.endpoint] at this
    simp [hr]
  · rename_i client hc
    obtain ⟨hmem, he⟩ := Node.findNode_some hc
    obtain rfl := hp.unique client (hw.nodes_lt _ hmem) he
    simp [hmem, NodeInfo.updateLastDelivered]

end Steps

namespace Link

variable {addr : Side → Endpoint Addr} {s t u : Link Addr τ} {i j : Side}

/-- The datagram in place `k` is a confirmation for side `i`. -/
def confirmAt (s : Link Addr τ) (i : Side) (k : Nat) : Bool :=
  s.net[k]?.any fun d => decide (d.1 = i) && d.2.isConfirm

/-- The confirmations that an action takes from the count of `r` for good: one lost, or one that
comes in when `r` is not listed any more. A repeated one makes up for one of these. -/
def lapse (i : Side) (r : Ref) (s : Link Addr τ) : Action Addr τ → Int
  | .lose k => if s.confirmAt i k then 1 else 0
  | .duplicate k => if s.confirmAt i k then -1 else 0
  | .receive j k _ => if j = i ∧ s.confirmAt i k ∧ r ∉ (s.node i).nodes then 1 else 0
  | _ => 0

/-- The confirmations counted, in flight and still to be sent, less the messages accepted. -/
def balance (i : Side) (r q : Ref) (s : Link Addr τ) : Int :=
  ((s.view i r q).tx.acked + (s.view i r q).acks + (s.view i r q).rx.phase.owed : Nat) -
    ((s.view i r q).rx.accepted.length : Nat)

theorem confirms_eraseIdx_add (s : Link Addr τ) (i : Side) (k : Nat) :
    ((s.net.eraseIdx k).countP fun d => decide (d.1 = i) && d.2.isConfirm) +
        (if s.confirmAt i k then 1 else 0) =
      s.net.countP fun d => decide (d.1 = i) && d.2.isConfirm := by
  rcases Nat.lt_or_ge k s.net.length with hk | hk
  · have hp := (List.getElem_cons_eraseIdx_perm hk).countP_eq
      (fun d => decide (d.1 = i) && d.2.isConfirm)
    rw [← hp, List.countP_cons]
    simp [confirmAt, List.getElem?_eq_getElem hk]
  · simp [confirmAt, List.getElem?_eq_none hk, List.eraseIdx_of_length_le hk]

theorem confirmAt_eq_false {d : Side × Payload τ} (hk : s.net[k]? = some d) (hj : d.1 ≠ i) :
    s.confirmAt i k = false := by
  simp [confirmAt, hk, hj]

variable [DecidableEq Addr] {xs ys zs : List (Action Addr τ)}

theorem balance_receive (hk : s.net[k]? = some (i, p))
    (h : Reciever.receive (s.node i) (addr i.other) p env = some n) (hs : Session addr i r q s) :
    balance i r q (s.commit i n (s.net.eraseIdx k)) =
      balance i r q s - lapse i r s (.receive i k env) := by
  have hreg : ∀ name, p ≠ .register name := by
    rintro name rfl
    exact hs.noRegister _ name (List.mem_of_getElem? hk)
  have herase := s.confirms_eraseIdx_add i k
  have hat : s.confirmAt i k = p.isConfirm := by simp [confirmAt, hk]
  simp only [balance, view_commit_self]
  by_cases hc : p.isConfirm = true
  · obtain rfl : p = .confirm := by cases p <;> simp_all [Payload.isConfirm]
    have hcount := Reciever.receive_confirm h (hs.wf i) hs.tx_peer
    simp only [hat, hc, lapse, Node.tx, view] at herase hcount ⊢
    split at hcount <;> simp_all <;> omega
  · rcases Reciever.receive_peer h (hs.wf i) hs.tx_peer hreg with ⟨htx, -⟩ | ⟨x, -, htx, -⟩ |
      ⟨rfl, -⟩
    · simp only [hat, hc, lapse, htx, view] at herase ⊢
      simp_all
    · simp only [hat, hc, lapse, htx, view] at herase ⊢
      simp_all
    · exact (hc rfl).elim

/-- Every action changes the balance by its lapse. -/
theorem balance_step {a : Action Addr τ} (h : step addr s a = some t) (hs : Session addr i r q s) :
    balance i r q t = balance i r q s - lapse i r s a := by
  cases act_of_step h with
  | @readLine j line n hn =>
    have hkept : n.tx = (s.node j).tx ∧ n.rx = (s.node j).rx := by
      cases Main.eq_of_readLine hn
      exact ⟨rfl, rfl⟩
    rcases Side.eq_or_eq_other i j with rfl | rfl
    · simp [balance, lapse, hkept.1, view]
    · simp [balance, lapse, hkept.2, view]
  | @thread j thread env n out calm hn =>
    rcases Side.eq_or_eq_other i j with rfl | rfl
    · have hm := TxMove.acked_eq (Node.step_tx hn calm (hs.wf j) hs.tx_peer hs.sent)
      simp [balance, lapse, view, hm, List.countP_append, countP_carried_self]
    · have hm := RxMove.owed_add (Node.step_rx hn calm (hs.wf i.other) hs.rx_peer)
      rw [balance, view_commit_other]
      simp only [balance, lapse, view, List.countP_append, countP_carried_other]
      omega
  | @receive j k env p n hk hn =>
    rcases Side.eq_or_eq_other i j with rfl | rfl
    · exact balance_receive hk hn hs
    · have hreg : ∀ name, p ≠ .register name := by
        rintro name rfl
        exact hs.noRegister _ name (List.mem_of_getElem? hk)
      have herase := s.confirms_eraseIdx_add i k
      rw [confirmAt_eq_false hk (Side.other_ne i)] at herase
      have howed : (n.rx q).phase.owed + ((s.node i.other).rx q).accepted.length =
          ((s.node i.other).rx q).phase.owed + (n.rx q).accepted.length := by
        rw [Side.other_other] at hn
        rcases Reciever.receive_peer hn (hs.wf i.other) hs.rx_peer hreg with ⟨-, hrx⟩ |
          ⟨x, -, -, hrx⟩ | ⟨-, -, hrx⟩
        · rw [hrx]
        · simpa using hrx.owed_add
        · rw [hrx]
      simp [balance, lapse, view] at herase ⊢
      omega
  | @outside j source p env n hj hn =>
    rcases Side.eq_or_eq_other i j with rfl | rfl
    · have htx := (Reciever.receive_outside hn hs.tx_peer hj).1
      simp [balance, lapse, view, htx]
    · rw [Side.other_other] at hj
      have hrx := (Reciever.receive_outside hn hs.rx_peer hj).2
      simp [balance, lapse, view, hrx]
  | @lose k =>
    have herase := s.confirms_eraseIdx_add i k
    simp only [balance, lapse, view] at herase ⊢
    split <;> simp_all
    omega
  | @duplicate k d hd =>
    simp only [balance, lapse, view, List.countP_append, List.countP_singleton, confirmAt, hd,
      Option.any_some]
    split <;> simp_all
    omega

/-- What was lapsed from the opening of a session on is missing from the count for good. -/
theorem balance_run (hs : Opened addr i r q s) (hu : Unconfirmed i r s)
    (h : (lts addr).MTr s xs t) : balance i r q t = -LTS.tally (step addr) (lapse i r) s xs := by
  have hzero : balance i r q s = 0 := by
    have hnone := confirms_eq_zero hu.no_confirm
    simp [balance, view, Node.tx, Node.rx, hu.lastDelivered, hnone, hs.idle, hs.none_accepted,
      Phase.owed]
  have := LTS.mTr_tally (m := balance i r q) session_trInv (fun _ _ _ => balance_step) h
    hs.toSession
  omega

/-- A message that counts as delivered and whose tasks are spared. -/
def Safe (i : Side) (r : Ref) (k : Nat) (s : Link Addr τ) : Prop :=
  k ≤ ((s.node i).heap r).lastDelivered ∧ (s.node i).Spared r k

theorem spared_step {a : Action Addr τ} (h : step addr s a = some t)
    (hle : k ≤ ((s.node i).heap r).lastDelivered) (hs : (s.node i).Spared r k) :
    (t.node i).Spared r k := by
  have kept : ∀ (j : Side) (n : Node Addr τ) (net : List (Side × Payload τ)),
      (j = i → n.Spared r k) → ((s.commit j n net).node i).Spared r k := by
    intro j n net hn
    rcases Side.eq_or_eq_other j i with rfl | rfl
    · simpa using hn rfl
    · simpa using hs
  cases act_of_step h with
  | @readLine j line n hn =>
    apply kept j n _
    rintro rfl
    cases Main.eq_of_readLine hn
    exact hs.congr rfl rfl
  | @thread j thread env n out calm hn =>
    apply kept j n _
    rintro rfl
    exact Node.spared_step hn hs hle
  | @receive j _ env p n hk hn | @outside j _ p env n hk hn =>
    apply kept j n _
    rintro rfl
    exact Reciever.spared_receive hn hs
  | lose | duplicate => exact hs

theorem safe_reachable (hs : Session addr i r q s) (hk : Safe i r k s)
    (h : (lts addr).MTr s xs t) : Safe i r k t := by
  have hinv : (lts addr).TrInv fun s : Link Addr τ => Session addr i r q s ∧ Safe i r k s := by
    rintro s a t hst ⟨hs, hle, hsp⟩
    obtain ⟨b, -, hv⟩ := refines s a t hst hs
    exact ⟨session_step hst hs, hle.trans (hv.acked_le), spared_step hst hle hsp⟩
  exact (LTS.mTr_of_trInv hinv h ⟨hs, hk⟩).2

/-- The action loses no confirmation for side `i`. -/
def keepsConfirms (i : Side) (s : Link Addr τ) : Action Addr τ → Bool
  | .lose k => !s.confirmAt i k
  | _ => true

/-- From `s`, where the receiving side has accepted uid `k` and the sending side still has a task
for it, to `u`: a copy of `k` comes in and is not ignored, and every confirmation that the
receiving side has sent or sends in answer comes in at the sending side. -/
structure Redelivery (addr : Side → Endpoint Addr) (i : Side) (r q : Ref) (k : Nat)
    (s : Link Addr τ) (ys : List (Action Addr τ)) (u : Link Addr τ) : Prop where
  accepted : ∃ text, (k, text) ∈ (s.node i.other).acceptedFrom q
  pending : ∃ task ∈ (s.node i).tasks, task.node = r ∧ task.uid = k
  run : ((lts addr).guard fun s a => keepsConfirms i s a).MTr s ys u
  read : ∃ zs j env ws t text, ys = zs ++ .receive i.other j env :: ws ∧ (lts addr).MTr s zs t ∧
    t.net[j]? = some (i.other, .message k text) ∧ (t.node i.other).failPercent < env.draw
  answered : (i, .confirm) ∉ u.net
  done : (u.node i.other).reciever.handling = none

/-- After a redelivery the message counts as delivered exactly if no more confirmations lapsed
since the session was opened than messages were accepted after it. It then costs nobody its place
in `nodes`, unless one of its tasks was charged too often before. -/
theorem redelivered_iff_lapses (hs : Opened addr i r q s) (hu : Unconfirmed i r s)
    (h : (lts addr).MTr s xs t) (hr : Redelivery addr i r q k t ys u) :
    (k ≤ ((u.node i).heap r).lastDelivered ↔
      k + LTS.tally (step addr) (lapse i r) s (xs ++ ys) ≤
        (((u.node i.other).acceptedFrom q).length : Int)) ∧
    (k ≤ ((u.node i).heap r).lastDelivered → (u.node i).Spared r k →
      ∀ zs v w env task, (lts addr).MTr u zs v → (lts addr).Tr v (.thread i .checker env) w →
        (v.node i).checker = .sleep task → task.node = r → task.uid = k →
        (w.node i).nodes = (v.node i).nodes) := by
  have hsu := h.append hr.run.of_guard
  constructor
  · have hbal := balance_run hs hu hsu
    have hacks := confirms_eq_zero hr.answered
    have howed := RecieverPc.owed_of_not_handling hr.done q
    simp only [balance, view, hacks, howed, Node.tx, Node.rx] at hbal
    omega
  · rintro hle hsp zs v w env task hv hstep hpc hn hk
    have hsess := LTS.mTr_of_trInv session_trInv hsu hs.toSession
    obtain ⟨-, hspared⟩ := safe_reachable hsess ⟨hle, hsp⟩ hv
    obtain ⟨n, out, -, hcheck, rfl⟩ := thread_of_step hstep
    simpa using hspared.nodes_kept hcheck hpc hn hk

/-- The Checker of `a` sends the one line again, and `b` is ready for it. -/
def pairResend : List (Action Nat String) :=
  [.thread .a .checker (.calm 0), .thread .a .checker (.calm 5000),
    .thread .a .checker (.calm 5000), .thread .b .reciever (.calm 5000)]

/-- The retransmission comes in at `b`, then the first confirmation at `a`. -/
def pairRecovered : List (Action Nat String) :=
  pairResend ++ [.receive .b 1 (.calm 5000), .receive .a 0 (.calm 5000)]

theorem redelivery_pair : Redelivery pairAddr .a 0 0 1 (pairAfter pairRun) pairRecovered
    (pairAfter (pairRun ++ pairRecovered)) where
  accepted := ⟨"hi", by decide⟩
  pending := ⟨⟨1, 0, "hi", 1, 5000⟩, by decide, rfl, rfl⟩
  run := LTS.mTr_guard_after (s := pairAfter pairRun) (by decide)
  read := ⟨pairResend, 1, .calm 5000, [.receive .a 0 (.calm 5000)], _, "hi", rfl,
    LTS.mTr_after (by decide), rfl, by decide⟩
  answered := by decide
  done := rfl

/-- The Checker puts the task back and takes it out again. -/
def pairRetaken : List (Action Nat String) :=
  List.replicate 3 (.thread .a .checker (.calm 5000))

theorem redelivered_iff_lapses_pair :
    1 ≤ (((pairAfter (pairRun ++ pairRecovered)).node .a).heap 0).lastDelivered ∧
      ((pairAfter (pairRun ++ pairRecovered ++ pairRetaken ++
        [.thread .a .checker (.calm 10000)])).node .a).nodes = [0] := by
  obtain ⟨ho, hu⟩ := opened_pair .a
  have h := mTr_pairAfter pairRun (by decide)
  have hboth := redelivered_iff_lapses (q := 0) ho hu h redelivery_pair
  have hle := hboth.1.mpr (by decide)
  have hsp : ((pairAfter (pairRun ++ pairRecovered)).node .a).Spared 0 1 := by
    refine ⟨?_, ?_⟩
    · intro task hm _ _
      obtain rfl : task = ⟨1, 0, "hi", 1, 5000⟩ := List.mem_singleton.mp hm
      decide
    · rintro task (hh | hh) _ _ <;> cases hh
      decide
  refine ⟨hle, hboth.2 hle hsp pairRetaken (pairAfter (pairRun ++ pairRecovered ++ pairRetaken)) _
    (.calm 10000) ⟨1, 0, "hi", 2, 10000⟩ ?_ ?_ rfl rfl rfl⟩
  · exact LTS.mTr_after (s := pairAfter (pairRun ++ pairRecovered)) (by decide)
  · rfl

/-- The confirmation is lost. -/
def pairUnconfirmed : List (Action Nat String) := pairRun ++ [.lose 0]

/-- The retransmission comes in at `b`, which answers nothing. -/
def pairIgnored : List (Action Nat String) := pairResend ++ [.receive .b 0 (.calm 5000)]

/-- Three more turns of the Checker. -/
def pairCharged : List (Action Nat String) :=
  [5000, 10000, 15000].flatMap fun now => [.thread .a .checker (.calm now),
    .thread .a .checker (.calm now), .thread .a .checker (.calm now),
    .thread .a .checker (.calm (now + 5000)), .thread .a .checker (.calm (now + 5000))]

theorem redelivery_unconfirmed :
    Redelivery pairAddr .a 0 0 1 (pairAfter pairUnconfirmed) pairIgnored
    (pairAfter (pairUnconfirmed ++ pairIgnored)) where
  accepted := ⟨"hi", by decide⟩
  pending := ⟨⟨1, 0, "hi", 1, 5000⟩, by decide, rfl, rfl⟩
  run := LTS.mTr_guard_after (s := pairAfter pairUnconfirmed) (by decide)
  read := ⟨pairResend, 0, .calm 5000, [], _, "hi", rfl, LTS.mTr_after (by decide), rfl, by decide⟩
  answered := by decide
  done := rfl

/-- Nothing is in flight any more, uid 1 does not count as delivered, and in the end `a` drops `b`
for it. -/
theorem not_recovered_unconfirmed :
    ¬ (∀ xs s ys u, (lts pairAddr).MTr pair xs s → Redelivery pairAddr .a 0 0 1 s ys u →
      1 ≤ ((u.node .a).heap 0).lastDelivered) ∧
    (pairAfter (pairUnconfirmed ++ pairIgnored)).net = [] ∧
    ((pairAfter (pairUnconfirmed ++ pairIgnored ++ pairCharged)).node .a).nodes = [] := by
  refine ⟨?_, rfl, by decide⟩
  intro hall
  have hle := hall _ _ _ _ (mTr_pairAfter pairUnconfirmed (by decide)) redelivery_unconfirmed
  exact absurd hle (by decide)

end Link

end NetworkLabs.UdpChat
