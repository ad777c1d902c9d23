import NetworkLabs.UdpChat.Solo

/-! What a node keeps of its links when sends throw. -/
namespace NetworkLabs.UdpChat

open Transition CountAck

variable {Addr τ : Type} {n n' : Node Addr τ} {env : Env} {thread : Thread}
  {out : Option (Send Addr τ)} {source : Endpoint Addr} {p : Payload τ} {r q : Ref}

/-- The neighbours that a broadcast has not come to yet. -/
def SenderPc.remaining : SenderPc Addr τ → Option (List Ref)
  | .loop _ clients | .send _ clients _ _ | .put _ clients _ _ => some clients
  | _ => none

/-- The uid of a message that is printed and goes to the queue next. -/
def RecieverPc.printing (q : Ref) : RecieverPc Addr τ → List Nat
  | .put client _ uid _ => if client = q then [uid] else []
  | _ => []

theorem RecieverPc.nodup_printing (q : Ref) (pc : RecieverPc Addr τ) : (pc.printing q).Nodup := by
  unfold printing
  split
  · split
    · exact List.pairwise_singleton _ _
    · exact List.nodup_nil
  · exact List.nodup_nil

namespace Node

/-- The uids of the messages printed that came in on one NodeInfo. -/
def printed (n : Node Addr τ) (q : Ref) : List Nat :=
  (n.acceptedFrom q).map Prod.fst ++ n.reciever.printing q

/-- Every uid has a task until it is confirmed or the neighbour removed, unless the Sender is in
its loop body for that neighbour; and nothing is printed or queued twice. -/
structure LinksKept (n : Node Addr τ) : Prop where
  task : ∀ r uid text, (r, uid, text) ∈ n.issued → r ∈ n.nodes → (n.heap r).lastDelivered < uid →
    (∀ x, n.sender.inHand ≠ some (r, x)) →
      ∃ t ∈ n.tasks, t.node = r ∧ t.uid = uid ∧ t.message = text
  once : ∀ q, (n.printed q).Nodup

/-- A broadcast that comes to an end has come to all neighbours. -/
def Broadcasts (n n' : Node Addr τ) : Prop :=
  ∀ clients, n.sender.remaining = some clients → n'.sender.remaining = none → clients = []

/-- No send of the Sender throws. -/
def broadcastsThrough (n : Node Addr τ) : Action Addr τ → Bool
  | .thread .sender env =>
    match n.sender with
    | .send _ _ _ _ => !env.sendFails
    | _ => true
  | _ => true

/-- The send of no confirmation throws. -/
def confirmsThrough (n : Node Addr τ) : Action Addr τ → Bool
  | .thread .reciever env =>
    match n.reciever with
    | .confirm _ _ => !env.sendFails
    | _ => true
  | _ => true

/-- What may throw is left to the Checker, which catches it, and to the send of a name, which
comes last in its case. -/
def sendsThrough (n : Node Addr τ) (a : Action Addr τ) : Bool :=
  n.broadcastsThrough a && n.confirmsThrough a

/-- The sending side of every link keeps what is not confirmed. -/
structure Keeping (n : Node Addr τ) : Prop extends n.Sound where
  kept : ∀ r < n.allocated, (n.tx r).Kept

/-- The receiving side of every link takes in each uid once. -/
structure Numbering (n : Node Addr τ) : Prop extends n.Sound where
  increasing : ∀ q < n.allocated, (n.rx q).Increasing

theorem kept_of_issued (h : n.issued = []) (r : Ref) : (n.tx r).Kept := by
  intro _ x hx
  simp [tx, issuedTo_eq_nil h] at hx

theorem increasing_of_accepted (h : n.accepted = []) (hp : n.reciever.phase q = .idle) :
    (n.rx q).Increasing := by
  refine ⟨?_, ?_, ?_⟩ <;> simp [rx, acceptedFrom_eq_nil h, hp]

theorem Started.keeping (h : n.Started) : n.Keeping := by
  refine ⟨h.sound, fun r _ => kept_of_issued ?_ r⟩
  cases h <;> rfl

theorem Started.numbering (h : n.Started) : n.Numbering := by
  refine ⟨h.sound, fun q _ => increasing_of_accepted ?_ ?_⟩
  · cases h <;> rfl
  · cases h <;> rfl

section Steps
variable [DecidableEq Addr]

/-- A datagram counts a confirmation, or leaves the sending side of a link as it is. -/
theorem receive_kept (h : Reciever.receive n source p env = some n') (hr : r < n.allocated)
    (hk : (n.tx r).Kept) : (n'.tx r).Kept := by
  cases Reciever.took_of_receive h with
  | passed | accepted => exact hk
  | @delivered client =>
    by_cases hc : r = client
    · subst hc
      have htx : tx { n.modify r (·.updateLastDelivered) with reciever := .check } r =
          { n.tx r with acked := (n.tx r).acked + 1 } := by
        simp [tx, issuedTo, held, tasks, NodeInfo.updateLastDelivered]
      rw [htx]
      exact hk.count
    · have htx : tx { n.modify client (·.updateLastDelivered) with reciever := .check } r =
          n.tx r := by
        simp [tx, issuedTo, held, tasks, modify_heap_of_ne _ _ _ hc]
      rw [htx]
      exact hk
  | @registered name =>
    have htx : tx { n.alloc (.new source (some name)) with
        nodes := n.nodes ++ [n.allocated], reciever := .reply n.allocated } r = n.tx r := by
      simp [tx, issuedTo, held, tasks, alloc_heap_of_lt _ _ hr, Nat.ne_of_lt hr]
    rw [htx]
    exact hk

/-- A datagram is taken in as the next message of a link, or leaves its receiving side as it is. -/
theorem receive_increasing (h : Reciever.receive n source p env = some n') (hq : q < n.allocated)
    (hi : (n.rx q).Increasing) : (n'.rx q).Increasing := by
  cases Reciever.took_of_receive h with
  | @passed next pc ends =>
    have hphase : next.phase q = n.reciever.phase q := by
      rcases ends with rfl | rfl <;> simp [pc, RecieverPc.phase]
    rw [(link_reciever hphase).2]
    exact hi
  | @accepted client uid text pc sent found expected =>
    by_cases hc : client = q
    · subst hc
      have hph : (n.rx client).phase = .idle := by simp [rx, pc, RecieverPc.phase]
      refine RxMove.increasing (i := some (uid, text)) (k := 0) ?_ hi
      convert RxMove.take (n.rx client) (uid, text) hph expected.symm using 1
      simp [rx, acceptedFrom, Reciever.accept, RecieverPc.phase]
    · have hphase : RecieverPc.phase q (.put client source uid text) = n.reciever.phase q := by
        simp [pc, RecieverPc.phase, hc]
      rw [Reciever.accept, (link_reciever hphase).2]
      exact hi
  | @delivered client pc =>
    have hrx : rx { n.modify client (·.updateLastDelivered) with reciever := .check } q =
        n.rx q := by
      by_cases hc : q = client
      · simp [rx, acceptedFrom, pc, RecieverPc.phase, hc, NodeInfo.updateLastDelivered]
      · simp [rx, acceptedFrom, pc, RecieverPc.phase, modify_heap_of_ne _ _ _ hc]
    rw [hrx]
    exact hi
  | @registered name pc =>
    have hrx : rx { n.alloc (.new source (some name)) with
        nodes := n.nodes ++ [n.allocated], reciever := .reply n.allocated } q = n.rx q := by
      simp [rx, acceptedFrom, pc, RecieverPc.phase, alloc_heap_of_lt _ _ hq]
    rw [hrx]
    exact hi

/-- What a thread does is a move of the receiving side of each link. -/
theorem step_rxMove (h : n.step thread env = some (n', out))
    (hf : n.confirmsThrough (.thread thread env) = true) (q : Ref) :
    ∃ k, RxMove (n.rx q) none k (n'.rx q) := by
  cases thread with
  | main =>
    obtain ⟨queue, pc, stopping, stopping', rfl, -⟩ := Main.act_of_step h
    exact ⟨0, .stay _⟩
  | sender => exact ⟨0, rx_stay rfl (Sender.step_rx (e := (n.heap q).endpoint) h).2⟩
  | checker => exact ⟨0, rx_stay rfl (Checker.step_rx (e := (n.heap q).endpoint) h).2⟩
  | reciever =>
    refine ⟨_, Reciever.step_owed h ?_⟩
    intro source hpc
    simpa [confirmsThrough, hpc] using hf

theorem keeping_next {a : Action Addr τ} (h : n.next a = some n')
    (ha : n.broadcastsThrough a = true) (hn : n.Keeping) : n'.Keeping := by
  refine ⟨sound_next h hn.toSound, ?_⟩
  intro r hr
  cases a with
  | readLine line =>
    obtain rfl := Main.eq_of_readLine h
    exact hn.kept r hr
  | thread thread env =>
    obtain ⟨out, hstep⟩ := step_of_next h
    rw [(step_heap hstep).1] at hr
    refine (step_txMove hstep ?_ hn.wf (hn.sent r hr)).kept (hn.kept r hr)
    rintro rfl message clients client uid hpc
    simpa [broadcastsThrough, hpc] using ha
  | receive source p env =>
    rcases Nat.lt_or_ge r n.allocated with hold | hnew
    · exact receive_kept h hold (hn.kept r hold)
    · obtain ⟨rfl, name, rfl⟩ := receive_new h hr hnew
      have hnone : n.issuedTo n.allocated = [] := issuedTo_of_le hn.recorded (Nat.le_refl _)
      intro _ x hx
      have hissued : x ∈ n.issuedTo n.allocated := hx
      rw [hnone] at hissued
      cases hissued

theorem numbering_next {a : Action Addr τ} (h : n.next a = some n')
    (ha : n.confirmsThrough a = true) (hn : n.Numbering) : n'.Numbering := by
  refine ⟨sound_next h hn.toSound, ?_⟩
  intro q hq
  cases a with
  | readLine line =>
    obtain rfl := Main.eq_of_readLine h
    exact hn.increasing q hq
  | thread thread env =>
    obtain ⟨out, hstep⟩ := step_of_next h
    rw [(step_heap hstep).1] at hq
    obtain ⟨k, hmove⟩ := step_rxMove hstep ha q
    exact hmove.increasing (hn.increasing q hq)
  | receive source p env =>
    rcases Nat.lt_or_ge q n.allocated with hold | hnew
    · exact receive_increasing h hold (hn.increasing q hold)
    · obtain ⟨rfl, name, rfl⟩ := receive_new h hq hnew
      have hnone : n.acceptedFrom n.allocated = [] :=
        acceptedFrom_of_le hn.recorded (Nat.le_refl _)
      have hrx : rx { n.alloc (.new source (some name)) with
          nodes := n.nodes ++ [n.allocated], reciever := .reply n.allocated } n.allocated =
          ⟨[], 1, .idle⟩ := by
        rw [← hnone]
        simp [rx, acceptedFrom, RecieverPc.phase, NodeInfo.new]
      rw [hrx]
      refine ⟨?_, ?_, ?_⟩ <;> simp

theorem broadcasts_next {a : Action Addr τ} (h : n.next a = some n')
    (ha : n.broadcastsThrough a = true) : n.Broadcasts n' := by
  intro clients hclients hnone
  cases a with
  | readLine line =>
    obtain rfl := Main.eq_of_readLine h
    simp [hclients] at hnone
  | thread thread env =>
    obtain ⟨out, hstep⟩ := step_of_next h
    cases thread with
    | main =>
      obtain ⟨queue, pc, stopping, stopping', rfl, -⟩ := Main.act_of_step hstep
      simp [hclients] at hnone
    | sender =>
      cases Sender.act_of_step hstep with
      | done pc =>
        rw [pc] at hclients
        exact (Option.some.inj hclients).symm
      | unsent pc fails => simp [broadcastsThrough, pc, fails] at ha
      | issue | skip | sent | put => cases hnone
      | woken pc | take pc | check pc | stopChecker pc | wakeChecker pc | join pc =>
        rw [pc] at hclients
        cases hclients
    | checker =>
      have hsender : n'.sender = n.sender := by cases Checker.act_of_step hstep <;> rfl
      simp [hsender, hclients] at hnone
    | reciever =>
      have hsender : n'.sender = n.sender := by cases Reciever.act_of_step hstep <;> rfl
      simp [hsender, hclients] at hnone
  | receive source p env =>
    have hsender : n'.sender = n.sender := by
      cases Reciever.took_of_receive h <;> rfl
    simp [hsender, hclients] at hnone

omit [DecidableEq Addr] in
theorem Keeping.task (hn : n.Keeping) {uid : Nat} {text : τ} (hissued : (r, uid, text) ∈ n.issued)
    (hr : r ∈ n.nodes) (hlate : (n.heap r).lastDelivered < uid)
    (hhand : ∀ x, n.sender.inHand ≠ some (r, x)) :
    ∃ t ∈ n.tasks, t.node = r ∧ t.uid = uid ∧ t.message = text := by
  have hmem : (uid, text) ∈ n.issuedTo r := by
    refine List.mem_filterMap.mpr ⟨_, hissued, ?_⟩
    simp
  rcases hn.kept r (hn.wf.nodes_lt r hr) hr _ hmem with hacked | hheld
  · exact absurd hlate (Nat.not_lt_of_le hacked)
  · rcases hheld with ⟨t, ht, hnode, hx⟩ | hx
    · exact ⟨t, ht, hnode, congrArg Prod.fst hx, congrArg Prod.snd hx⟩
    · exact absurd hx (hhand _)

omit [DecidableEq Addr] in
theorem phase_of_printing {uid : Nat} (h : uid ∈ n.reciever.printing q) :
    ∃ text, (n.rx q).phase = .taken (uid, text) := by
  cases hpc : n.reciever with
  | put client source uid' text =>
    simp only [hpc, RecieverPc.printing] at h
    split at h
    · rename_i hc
      rw [List.mem_singleton.mp h]
      exact ⟨text, by simp [rx, RecieverPc.phase, hpc, hc]⟩
    · cases h
  | _ => simp [hpc, RecieverPc.printing] at h

omit [DecidableEq Addr] in
theorem Numbering.nodup_printed (hn : n.Numbering) (q : Ref) : (n.printed q).Nodup := by
  rcases Nat.lt_or_ge q n.allocated with hold | hnew
  · obtain ⟨hpairwise, hbelow, htaken⟩ := hn.increasing q hold
    have hnodup : ((n.acceptedFrom q).map Prod.fst).Nodup :=
      (List.pairwise_map.mpr hpairwise).imp Nat.ne_of_lt
    refine List.nodup_append.mpr ⟨hnodup, n.reciever.nodup_printing q, ?_⟩
    intro x hx y hy
    obtain ⟨z, hz, rfl⟩ := List.mem_map.mp hx
    obtain ⟨text, hphase⟩ := phase_of_printing hy
    have hlt := hbelow z hz
    have huid : y = (n.rx q).expected := htaken _ hphase
    rw [hphase, ← huid] at hlt
    exact Nat.ne_of_lt hlt
  · have hnone : n.acceptedFrom q = [] := acceptedFrom_of_le hn.recorded hnew
    rw [printed, hnone, List.map_nil, List.nil_append]
    exact n.reciever.nodup_printing q

variable {m : Node Addr τ} {xs : List (Action Addr τ)}

theorem keeping_run (hm : m.Started)
    (h : (lts.guard fun n a => n.broadcastsThrough a).MTr m xs n) : n.Keeping := by
  refine LTS.mTr_of_trInv ?_ h hm.keeping
  rintro n a n' ⟨hnext, ha⟩ hn
  exact keeping_next hnext ha hn

theorem numbering_run (hm : m.Started)
    (h : (lts.guard fun n a => n.confirmsThrough a).MTr m xs n) : n.Numbering := by
  refine LTS.mTr_of_trInv ?_ h hm.numbering
  rintro n a n' ⟨hnext, ha⟩ hn
  exact numbering_next hnext ha hn

omit [DecidableEq Addr] in
theorem through_of_sends {a : Action Addr τ} (h : n.sendsThrough a = true) :
    n.broadcastsThrough a = true ∧ n.confirmsThrough a = true :=
  Bool.and_eq_true_iff.mp h

/-- As long as the sends of the Sender and of confirmations do not throw, the links are kept and
every broadcast comes to all neighbours, whichever other sends throw. -/
theorem links_kept (hm : m.Started)
    (h : (lts.guard fun n a => n.sendsThrough a).MTr m xs n) :
    n.LinksKept ∧ ∀ a n', (lts.guard fun n a => n.sendsThrough a).Tr n a n' → n.Broadcasts n' := by
  have hkeeping := keeping_run hm (h.guard_imp fun _ _ ha => (through_of_sends ha).1)
  have hnumbering := numbering_run hm (h.guard_imp fun _ _ ha => (through_of_sends ha).2)
  refine ⟨⟨?_, hnumbering.nodup_printed⟩, ?_⟩
  · intro r uid text
    exact hkeeping.task
  · rintro a n' ⟨hnext, ha⟩
    exact broadcasts_next hnext (through_of_sends ha).1

end Steps

/-- A child of a node at address 0. -/
def child : Node Nat String := Server.connect (Server.start ⟨1, 7⟩ "child" 0) ⟨0, 7⟩ "parent"

def failing : Env := ⟨0, true, 100⟩

/-- A neighbour registers, a line is typed, and its broadcast begins. -/
def broadcastStarted : List (Action Nat String) :=
  [.receive ⟨2, 7⟩ (.register "leaf") (.calm 0), .readLine "hi"] ++
    List.replicate 2 (.thread .sender (.calm 0))

/-- The first send of the broadcast throws. -/
def broadcastFails : List (Action Nat String) := broadcastStarted ++ [.thread .sender failing]

/-- A message comes in twice, and the first time its confirmation cannot be sent. -/
def confirmFails : List (Action Nat String) :=
  [.receive ⟨0, 7⟩ (.message 1 "hi") (.calm 0), .thread .reciever (.calm 0),
    .thread .reciever failing, .thread .reciever (.calm 0),
    .receive ⟨0, 7⟩ (.message 1 "hi") (.calm 0)]

theorem started_child : child.Started := .connected ⟨1, 7⟩ ⟨0, 7⟩ "child" "parent" 0

theorem links_kept_broadcastStarted :
    (LTS.after next child broadcastStarted).LinksKept ∧
      (LTS.after next child broadcastStarted).issued = [(0, 1, "hi")] :=
  ⟨(links_kept started_child (LTS.mTr_guard_after (by decide))).1, by decide⟩

/-- A uid is left without a task, a neighbour without the message, and a message is printed
twice. -/
theorem not_links_kept :
    ¬ (∀ xs n, lts.MTr child xs n → n.LinksKept) ∧
      ¬ (∀ xs n a n', lts.MTr child xs n → n.next a = some n' → n.Broadcasts n') ∧
        ¬ (∀ xs n, lts.MTr child xs n → ∀ q, (n.printed q).Nodup) := by
  refine ⟨?_, ?_, ?_⟩
  · intro hall
    have hkept := hall broadcastFails _ (LTS.mTr_after (by decide))
    have hhand : (LTS.after next child broadcastFails).sender.inHand = none := rfl
    obtain ⟨t, ht, -⟩ := hkept.task 0 1 "hi" (by decide) (by decide) (by decide) (by simp [hhand])
    have hnone : (LTS.after next child broadcastFails).tasks = [] := by decide
    rw [hnone] at ht
    cases ht
  · intro hall
    have hrest := hall broadcastStarted _ (.thread .sender failing) _
      (LTS.mTr_after (by decide)) rfl [1] (by decide) (by decide)
    cases hrest
  · intro hall
    have hnodup := hall confirmFails _ (LTS.mTr_after (by decide)) 0
    revert hnodup
    decide

end Node

end NetworkLabs.UdpChat
