import NetworkLabs.UdpChat.Node
import Mathlib.Tactic.Common

/-! References of a running node stay valid, and a neighbour's NodeInfo stays the only one
for its address and port until that neighbour registers again. -/
namespace NetworkLabs.UdpChat

variable {Addr τ : Type} {n n' : Node Addr τ} {env : Env} {thread : Thread}
  {out : Option (Send Addr τ)} {source e : Endpoint Addr} {p : Payload τ} {r : Ref}

/-- The NodeInfo objects a Sender will still use. -/
def SenderPc.refs : SenderPc Addr τ → List Ref
  | .loop _ clients => clients
  | .send _ clients client _ | .put _ clients client _ => client :: clients
  | _ => []

/-- The task a Checker has taken out of its queue. -/
def CheckerPc.hand : CheckerPc τ → List (CheckTask τ)
  | .sleep task | .send task | .put task => [task]
  | _ => []

/-- The link whose datagram the Reciever is accepting, with where it came from. -/
def RecieverPc.handling : RecieverPc Addr τ → Option (Ref × Endpoint Addr)
  | .put client source _ _ | .confirm client source => some (client, source)
  | _ => none

def Node.tasks (n : Node Addr τ) : List (CheckTask τ) := n.checkQueue.container ++ n.checker.hand

theorem Main.eq_of_readLine {line : τ} (h : Main.readLine n line = some n') :
    n' = { n with messageQueue := n.messageQueue.put ⟨none, 0, line⟩ } := by
  unfold Main.readLine at h
  split at h <;> cases h
  rfl

/-- The main thread changes its own place, the stop flags and the queue of lines. -/
theorem Main.act_of_step (h : Main.step n = some (n', out)) : ∃ queue pc stopping stopping',
    n' = { n with messageQueue := queue, main := pc, senderStopping := stopping,
                  recieverStopping := stopping' } ∧ out = none := by
  unfold Main.step at h
  (repeat' split at h) <;> cases h <;> exact ⟨_, _, _, _, rfl, rfl⟩

/-- One action of the Sender. -/
inductive Sender.Act [DecidableEq Addr] (n : Node Addr τ) (env : Env) :
    Node Addr τ → Option (Send Addr τ) → Prop
  | woken {queue : Storage (Message Addr τ)} (pc : n.sender = .get)
      (got : n.messageQueue.get = some (none, queue)) :
      Act n env { n with sender := .stopChecker } none
  | take {message : Message Addr τ} {queue : Storage (Message Addr τ)} (pc : n.sender = .get)
      (got : n.messageQueue.get = some (some message, queue)) :
      Act n env { n with messageQueue := queue, sender := .loop message n.nodes } none
  | done {message : Message Addr τ} (pc : n.sender = .loop message []) :
      Act n env { n with sender := .check } none
  | issue {message : Message Addr τ} {client : Ref} {clients : List Ref}
      (pc : n.sender = .loop message (client :: clients))
      (goes : message.goesTo (n.heap client) = true) :
      Act n env { n.modify client (·.getSendID.2) with
        issued := n.issued ++ [(client, (n.heap client).getSendID.1, message.message)]
        sender := .send message clients client (n.heap client).getSendID.1 } none
  | skip {message : Message Addr τ} {client : Ref} {clients : List Ref}
      (pc : n.sender = .loop message (client :: clients))
      (stays : ¬ message.goesTo (n.heap client) = true) :
      Act n env { n with sender := .loop message clients } none
  | sent {message : Message Addr τ} {clients : List Ref} {client : Ref} {uid : Nat}
      (pc : n.sender = .send message clients client uid) (sends : env.sendFails = false) :
      Act n env { n with sender := .put message clients client uid }
        (some ⟨(n.heap client).endpoint, .datagram (.message uid message.message)⟩)
  | unsent {message : Message Addr τ} {clients : List Ref} {client : Ref} {uid : Nat}
      (pc : n.sender = .send message clients client uid) (fails : env.sendFails = true) :
      Act n env { n with sender := .check } none
  | put {message : Message Addr τ} {clients : List Ref} {client : Ref} {uid : Nat}
      (pc : n.sender = .put message clients client uid) :
      Act n env { n with
        checkQueue := n.checkQueue.put (.new uid client message.message env.now)
        sender := .loop message clients } none
  | check {next : SenderPc Addr τ} (pc : n.sender = .check)
      (goesOn : next = .stopChecker ∧ n.senderStopping = true ∨
        next = .get ∧ n.senderStopping = false) : Act n env { n with sender := next } none
  | stopChecker (pc : n.sender = .stopChecker) :
      Act n env { n with checkerStopping := true, sender := .wakeChecker } none
  | wakeChecker (pc : n.sender = .wakeChecker) :
      Act n env { n with checkQueue := n.checkQueue.wakeup, sender := .join } none
  | join (pc : n.sender = .join) (ended : n.checker = .finished) :
      Act n env { n with sender := .finished } none

theorem Sender.act_of_step [DecidableEq Addr] (h : Sender.step n env = some (n', out)) :
    Sender.Act n env n' out := by
  unfold Sender.step at h
  cases hpc : n.sender with
  | get =>
    simp only [hpc] at h
    split at h <;> cases h
    · exact .woken hpc (by assumption)
    · exact .take hpc (by assumption)
  | loop message clients =>
    cases clients with
    | nil =>
      simp only [hpc] at h
      cases h
      exact .done hpc
    | cons client clients =>
      simp only [hpc] at h
      split at h <;> cases h
      · exact .issue hpc (by assumption)
      · exact .skip hpc (by assumption)
  | send message clients client uid =>
    simp only [hpc] at h
    split at h <;> cases h
    · exact .unsent hpc (by assumption)
    · exact .sent hpc (by simpa using ‹¬ env.sendFails = true›)
  | put message clients client uid =>
    simp only [hpc] at h
    cases h
    exact .put hpc
  | check =>
    simp only [hpc] at h
    cases h
    exact .check hpc (by split <;> simp_all)
  | stopChecker =>
    simp only [hpc] at h
    cases h
    exact .stopChecker hpc
  | wakeChecker =>
    simp only [hpc] at h
    cases h
    exact .wakeChecker hpc
  | join =>
    simp only [hpc] at h
    split at h <;> cases h
    exact .join hpc (by assumption)
  | finished => simp [hpc] at h

/-- One action of the Checker. -/
inductive Checker.Act (n : Node Addr τ) (env : Env) : Node Addr τ → Option (Send Addr τ) → Prop
  | woken {queue : Storage (CheckTask τ)} (pc : n.checker = .get)
      (got : n.checkQueue.get = some (none, queue)) : Act n env { n with checker := .finished } none
  | take {task : CheckTask τ} {queue : Storage (CheckTask τ)} (pc : n.checker = .get)
      (got : n.checkQueue.get = some (some task, queue)) :
      Act n env { n with checkQueue := queue, checker := .sleep task } none
  | remove {task : CheckTask τ} (pc : n.checker = .sleep task)
      (failed : Checker.maxFailed < task.numFailed) (due : task.checkTime ≤ env.now) :
      Act n env { n with nodes := n.nodes.erase task.node, checker := .check } none
  | late {task : CheckTask τ} (pc : n.checker = .sleep task)
      (few : task.numFailed ≤ Checker.maxFailed)
      (waits : (n.heap task.node).lastDelivered < task.uid) (due : task.checkTime ≤ env.now) :
      Act n env { n with checker := .send task } none
  | drop {task : CheckTask τ} (pc : n.checker = .sleep task)
      (few : task.numFailed ≤ Checker.maxFailed)
      (delivered : task.uid ≤ (n.heap task.node).lastDelivered) (due : task.checkTime ≤ env.now) :
      Act n env { n with checker := .check } none
  | sent {task : CheckTask τ} (pc : n.checker = .send task) (sends : env.sendFails = false) :
      Act n env { n with checker := .put task }
        (some ⟨(n.heap task.node).endpoint, .datagram (.message task.uid task.message)⟩)
  | unsent {task : CheckTask τ} (pc : n.checker = .send task) (fails : env.sendFails = true) :
      Act n env { n with checker := .put task } none
  | put {task : CheckTask τ} (pc : n.checker = .put task) :
      Act n env { n with
        checkQueue := n.checkQueue.put (task.updateTask env.now), checker := .check } none
  | check {next : CheckerPc τ} (pc : n.checker = .check)
      (goesOn : next = .finished ∧ n.checkerStopping = true ∨
        next = .get ∧ n.checkerStopping = false) : Act n env { n with checker := next } none

theorem Checker.act_of_step (h : Checker.step n env = some (n', out)) :
    Checker.Act n env n' out := by
  unfold Checker.step at h
  cases hpc : n.checker with
  | get =>
    simp only [hpc] at h
    split at h <;> cases h
    · exact .woken hpc (by assumption)
    · exact .take hpc (by assumption)
  | sleep task =>
    simp only [hpc] at h
    split at h
    · cases h
    have due := Int.not_lt.mp ‹¬ env.now < task.checkTime›
    split at h
    · cases h
      exact .remove hpc (by assumption) due
    have few := Nat.le_of_not_lt ‹¬ task.numFailed > Checker.maxFailed›
    split at h <;> cases h
    · exact .late hpc few (by assumption) due
    · exact .drop hpc few (Nat.le_of_not_lt (by assumption)) due
  | send task =>
    simp only [hpc] at h
    split at h <;> cases h
    · exact .unsent hpc (by assumption)
    · exact .sent hpc (by simpa using ‹¬ env.sendFails = true›)
  | put task =>
    simp only [hpc] at h
    cases h
    exact .put hpc
  | check =>
    simp only [hpc] at h
    cases h
    exact .check hpc (by split <;> simp_all)
  | finished => simp [hpc] at h

/-- One action of the Reciever but for a datagram that comes in. -/
inductive Reciever.Act (n : Node Addr τ) (env : Env) : Node Addr τ → Option (Send Addr τ) → Prop
  | timeout (pc : n.reciever = .receive) : Act n env { n with reciever := .check } none
  | put {client : Ref} {source : Endpoint Addr} {uid : Nat} {text : τ}
      (pc : n.reciever = .put client source uid text) :
      Act n env { n with
        messageQueue := n.messageQueue.put ⟨some source.address, source.port, text⟩
        accepted := n.accepted ++ [(client, uid, text)]
        reciever := .confirm client source } none
  | confirmed {client : Ref} {source : Endpoint Addr} (pc : n.reciever = .confirm client source)
      (sends : env.sendFails = false) :
      Act n env { n with reciever := .update client } (some ⟨source, .datagram .confirm⟩)
  | unconfirmed {client : Ref} {source : Endpoint Addr} (pc : n.reciever = .confirm client source)
      (fails : env.sendFails = true) : Act n env { n with reciever := .check } none
  | update {client : Ref} (pc : n.reciever = .update client) :
      Act n env { n.modify client (·.updateRecv) with reciever := .check } none
  | replied {newNode : Ref} (pc : n.reciever = .reply newNode) (sends : env.sendFails = false) :
      Act n env { n with reciever := .check } (some ⟨(n.heap newNode).endpoint, .name n.name⟩)
  | unreplied {newNode : Ref} (pc : n.reciever = .reply newNode) (fails : env.sendFails = true) :
      Act n env { n with reciever := .check } none
  | check {next : RecieverPc Addr τ} (pc : n.reciever = .check)
      (goesOn : next = .finished ∧ n.recieverStopping = true ∨
        next = .receive ∧ n.recieverStopping = false) :
      Act n env { n with reciever := next } none

theorem Reciever.act_of_step (h : Reciever.step n env = some (n', out)) :
    Reciever.Act n env n' out := by
  unfold Reciever.step at h
  cases hpc : n.reciever with
  | receive =>
    simp only [hpc] at h
    cases h
    exact .timeout hpc
  | put client source uid text =>
    simp only [hpc] at h
    cases h
    exact .put hpc
  | confirm client source =>
    simp only [hpc] at h
    split at h <;> cases h
    · exact .unconfirmed hpc (by assumption)
    · exact .confirmed hpc (by simpa using ‹¬ env.sendFails = true›)
  | update client =>
    simp only [hpc] at h
    cases h
    exact .update hpc
  | reply newNode =>
    simp only [hpc] at h
    split at h <;> cases h
    · exact .unreplied hpc (by assumption)
    · exact .replied hpc (by simpa using ‹¬ env.sendFails = true›)
  | check =>
    simp only [hpc] at h
    cases h
    exact .check hpc (by split <;> simp_all)
  | finished | crashed => simp [hpc] at h

/-- Every reference in use was allocated, and `nodes` lists none of them twice. -/
structure Node.Wf (n : Node Addr τ) : Prop where
  nodes_lt : ∀ r ∈ n.nodes, r < n.allocated
  nodup : n.nodes.Nodup
  sender_lt : ∀ r ∈ n.sender.refs, r < n.allocated
  tasks_lt : ∀ t ∈ n.tasks, t.node < n.allocated
  handling : ∀ c e, n.reciever.handling = some (c, e) →
    c < n.allocated ∧ (n.heap c).endpoint = e

/-- `r` is the one NodeInfo that the node has for `e`. -/
structure Node.Peer (n : Node Addr τ) (e : Endpoint Addr) (r : Ref) : Prop where
  lt : r < n.allocated
  endpoint : (n.heap r).endpoint = e
  unique : ∀ r' < n.allocated, (n.heap r').endpoint = e → r' = r

theorem Node.endpoint_modify {f : NodeInfo Addr → NodeInfo Addr}
    (hf : ∀ i, (f i).endpoint = i.endpoint) (n : Node Addr τ) (c r : Ref) :
    ((n.modify c f).heap r).endpoint = (n.heap r).endpoint := by
  by_cases h : r = c
  · subst h
    simp [hf]
  · simp [h, modify_heap_of_ne]

@[simp] theorem Node.endpoint_modify_sent (n : Node Addr τ) (c r : Ref) :
    ((n.modify c (·.getSendID.2)).heap r).endpoint = (n.heap r).endpoint :=
  Node.endpoint_modify NodeInfo.endpoint_getSendID n c r

@[simp] theorem Node.endpoint_modify_recieved (n : Node Addr τ) (c r : Ref) :
    ((n.modify c (·.updateRecv)).heap r).endpoint = (n.heap r).endpoint :=
  Node.endpoint_modify NodeInfo.endpoint_updateRecv n c r

@[simp] theorem Node.endpoint_modify_delivered (n : Node Addr τ) (c r : Ref) :
    ((n.modify c (·.updateLastDelivered)).heap r).endpoint = (n.heap r).endpoint :=
  Node.endpoint_modify NodeInfo.endpoint_updateLastDelivered n c r

theorem Node.Peer.congr (hp : n.Peer e r) (ha : n'.allocated = n.allocated)
    (he : ∀ r, (n'.heap r).endpoint = (n.heap r).endpoint) : n'.Peer e r := by
  refine ⟨ha ▸ hp.lt, (he r).trans hp.endpoint, ?_⟩
  intro r' hlt heq
  exact hp.unique r' (ha ▸ hlt) ((he r').symm.trans heq)

theorem Node.wf_alloc {pc : RecieverPc Addr τ} {info : NodeInfo Addr} (hn : n.Wf)
    (hpc : pc.handling = none) :
    Node.Wf { n.alloc info with nodes := n.nodes ++ [n.allocated], reciever := pc } := by
  refine ⟨?_, ?_, ?_, ?_, by simp [hpc]⟩
  · intro r hr
    rcases List.mem_append.mp hr with hr | hr
    · exact Nat.lt_succ_of_lt (hn.nodes_lt r hr)
    · simp_all
  · refine List.nodup_append.mpr ⟨hn.nodup, by simp, ?_⟩
    intro r hr r' hr' heq
    have hlt := hn.nodes_lt r hr
    rw [List.mem_singleton.mp hr'] at heq
    exact Nat.lt_irrefl _ (heq ▸ hlt)
  · exact fun r hr => Nat.lt_succ_of_lt (hn.sender_lt r hr)
  · exact fun t ht => Nat.lt_succ_of_lt (hn.tasks_lt t ht)

section Steps
variable [DecidableEq Addr]

theorem Node.findNode_some (h : n.findNode e = some r) :
    r ∈ n.nodes ∧ (n.heap r).endpoint = e := by
  have hp := List.find?_some h
  exact ⟨List.mem_of_find?_eq_some h, by simpa using hp⟩

/-- A thread changes no address, makes no NodeInfo and lists no new one. -/
theorem Node.step_heap (h : n.step thread env = some (n', out)) :
    n'.allocated = n.allocated ∧ (∀ r, (n'.heap r).endpoint = (n.heap r).endpoint) ∧
      n'.nodes.Sublist n.nodes := by
  cases thread with
  | main =>
    obtain ⟨queue, pc, stopping, stopping', rfl, -⟩ := Main.act_of_step h
    simp
  | sender => cases Sender.act_of_step h <;> simp
  | checker =>
    cases Checker.act_of_step h with
    | remove => exact ⟨rfl, fun _ => rfl, List.erase_sublist⟩
    | _ => simp
  | reciever => cases Reciever.act_of_step h <;> simp

theorem Sender.act_refs (h : Sender.Act n env n' out) :
    ∀ r ∈ n'.sender.refs, r ∈ n.nodes ∨ r ∈ n.sender.refs := by
  cases h with
  | take => exact fun r hr => .inl hr
  | check pc goesOn => rcases goesOn with ⟨rfl, -⟩ | ⟨rfl, -⟩ <;> simp [SenderPc.refs]
  | woken pc | done pc | issue pc | skip pc | sent pc | unsent pc | put pc | stopChecker pc
  | wakeChecker pc | join pc => simp +contextual [pc, SenderPc.refs]

/-- A task of the Sender is one it had already or a new one for a neighbour in its hand. -/
theorem Sender.act_tasks (h : Sender.Act n env n' out) :
    ∀ t ∈ n'.tasks, t ∈ n.tasks ∨ t.node ∈ n.sender.refs ∧ t.numFailed = 1 := by
  cases h with
  | @put message clients client uid pc =>
    intro t ht
    simp only [Node.tasks, Storage.put, List.mem_append, List.mem_singleton] at ht ⊢
    rcases ht with (ht | rfl) | ht
    · exact .inl (.inl ht)
    · exact .inr (by simp [pc, SenderPc.refs, CheckTask.new])
    · exact .inl (.inr ht)
  | _ => exact fun t ht => .inl ht

omit [DecidableEq Addr] in
/-- A task of the Checker is one it had before, charged once more when it is put back. -/
theorem Checker.act_tasks (h : Checker.Act n env n' out) :
    ∀ t ∈ n'.tasks, t ∈ n.tasks ∨ ∃ task, n.checker = .put task ∧ t = task.updateTask env.now := by
  cases h with
  | take pc got =>
    intro t ht
    refine .inl ?_
    simp only [Node.tasks, CheckerPc.hand, pc, Storage.get_some got, List.mem_append] at ht ⊢
    grind
  | put pc =>
    intro t ht
    simp only [Node.tasks, CheckerPc.hand, Storage.put, List.append_nil, List.mem_append,
      List.mem_singleton] at ht ⊢
    rcases ht with ht | rfl
    · exact .inl (.inl ht)
    · exact .inr ⟨_, pc, rfl⟩
  | check pc goesOn =>
    intro t ht
    rcases goesOn with ⟨rfl, -⟩ | ⟨rfl, -⟩ <;>
      exact .inl (by simpa [Node.tasks, CheckerPc.hand, pc] using ht)
  | woken pc | remove pc | late pc | drop pc | sent pc | unsent pc =>
    exact fun t ht => .inl (by simp_all [Node.tasks, CheckerPc.hand])

theorem Node.step_sender_refs (h : n.step thread env = some (n', out)) (hn : n.Wf) :
    ∀ r ∈ n'.sender.refs, r < n.allocated := by
  cases thread with
  | main =>
    obtain ⟨queue, pc, stopping, stopping', rfl, -⟩ := Main.act_of_step h
    exact hn.sender_lt
  | sender =>
    intro r hr
    exact (Sender.act_refs (Sender.act_of_step h) r hr).elim (hn.nodes_lt r) (hn.sender_lt r)
  | checker => cases Checker.act_of_step h <;> exact hn.sender_lt
  | reciever => cases Reciever.act_of_step h <;> exact hn.sender_lt

theorem Node.step_tasks (h : n.step thread env = some (n', out)) (hn : n.Wf) :
    ∀ t ∈ n'.tasks, t.node < n.allocated := by
  cases thread with
  | main =>
    obtain ⟨queue, pc, stopping, stopping', rfl, -⟩ := Main.act_of_step h
    exact hn.tasks_lt
  | sender =>
    intro t ht
    rcases Sender.act_tasks (Sender.act_of_step h) t ht with ht | ⟨hr, -⟩
    · exact hn.tasks_lt t ht
    · exact hn.sender_lt _ hr
  | checker =>
    intro t ht
    rcases Checker.act_tasks (Checker.act_of_step h) t ht with ht | ⟨task, pc, rfl⟩
    · exact hn.tasks_lt t ht
    · exact hn.tasks_lt task (by simp [Node.tasks, CheckerPc.hand, pc])
  | reciever => cases Reciever.act_of_step h <;> exact hn.tasks_lt

theorem Node.step_handling (h : n.step thread env = some (n', out)) {c : Ref}
    (hc : n'.reciever.handling = some (c, e)) : n.reciever.handling = some (c, e) := by
  cases thread with
  | main =>
    obtain ⟨queue, pc, stopping, stopping', rfl, -⟩ := Main.act_of_step h
    exact hc
  | sender => cases Sender.act_of_step h <;> exact hc
  | checker => cases Checker.act_of_step h <;> exact hc
  | reciever =>
    cases Reciever.act_of_step h with
    | check pc goesOn => rcases goesOn with ⟨rfl, -⟩ | ⟨rfl, -⟩ <;> simp [RecieverPc.handling] at hc
    | put pc => simpa [RecieverPc.handling, pc] using hc
    | _ => simp [RecieverPc.handling] at hc

/-- Every action of a thread keeps the references valid. -/
theorem Node.wf_step (h : n.step thread env = some (n', out)) (hn : n.Wf) : n'.Wf := by
  obtain ⟨ha, hend, hnodes⟩ := step_heap h
  refine ⟨?_, hnodes.nodup hn.nodup, ?_, ?_, ?_⟩
  · intro r hr
    exact ha ▸ hn.nodes_lt r (hnodes.subset hr)
  · exact ha ▸ step_sender_refs h hn
  · exact ha ▸ step_tasks h hn
  · intro c e hc
    obtain ⟨hlt, he⟩ := hn.handling c e (step_handling h hc)
    exact ⟨ha ▸ hlt, (hend c).trans he⟩

theorem Node.peer_step (h : n.step thread env = some (n', out)) (hp : n.Peer e r) :
    n'.Peer e r := by
  obtain ⟨ha, hend, _⟩ := step_heap h
  exact hp.congr ha hend

/-- Everything one received datagram can do. -/
inductive Reciever.Took (n : Node Addr τ) (source : Endpoint Addr) (p : Payload τ) :
    Node Addr τ → Prop
  | passed {next : RecieverPc Addr τ} (pc : n.reciever = .receive)
      (ends : next = .check ∨ next = .crashed) : Took n source p { n with reciever := next }
  | accepted {client : Ref} {uid : Nat} {text : τ} (pc : n.reciever = .receive)
      (sent : p = .message uid text) (found : n.findNode source = some client)
      (expected : (n.heap client).expectedID = uid) :
      Took n source p (accept n client source uid text)
  | delivered {client : Ref} (pc : n.reciever = .receive) (sent : p = .confirm)
      (found : n.findNode source = some client) :
      Took n source p { n.modify client (·.updateLastDelivered) with reciever := .check }
  | registered {name : String} (pc : n.reciever = .receive) (sent : p = .register name) :
      Took n source p { n.alloc (.new source (some name)) with
        nodes := n.nodes ++ [n.allocated], reciever := .reply n.allocated }

theorem Reciever.took_of_receive (h : Reciever.receive n source p env = some n') :
    Reciever.Took n source p n' := by
  unfold receive at h
  split at h <;> try contradiction
  rename_i hpc
  cases p with
  | message uid text =>
    simp only at h
    split at h
    · cases h
      exact .passed hpc (.inl rfl)
    rename_i client hc
    split at h
    · split at h
      · cases h
        exact .passed hpc (.inr rfl)
      split at h
      · rename_i hid
        cases h
        exact .accepted hpc rfl hc hid
      · cases h
        exact .passed hpc (.inl rfl)
    · cases h
      exact .passed hpc (.inl rfl)
  | badMessage =>
    simp only at h
    split at h
    · cases h
      exact .passed hpc (.inl rfl)
    split at h
    · cases h
      exact .passed hpc (.inr rfl)
    · cases h
      exact .passed hpc (.inl rfl)
  | confirm =>
    simp only at h
    split at h
    · cases h
      exact .passed hpc (.inl rfl)
    · rename_i client hc
      cases h
      exact .delivered hpc rfl hc
  | register name =>
    cases h
    exact .registered hpc rfl
  | other =>
    cases h
    exact .passed hpc (.inl rfl)
  | unreadable =>
    cases h
    exact .passed hpc (.inr rfl)

theorem Reciever.wf_receive (h : Reciever.receive n source p env = some n') (hn : n.Wf) :
    n'.Wf := by
  cases took_of_receive h with
  | passed pc ends =>
    refine ⟨hn.nodes_lt, hn.nodup, hn.sender_lt, hn.tasks_lt, ?_⟩
    rcases ends with rfl | rfl <;> simp [RecieverPc.handling]
  | accepted pc sent found =>
    refine ⟨hn.nodes_lt, hn.nodup, hn.sender_lt, hn.tasks_lt, ?_⟩
    rintro c e ⟨⟩
    obtain ⟨hmem, he⟩ := Node.findNode_some found
    exact ⟨hn.nodes_lt _ hmem, he⟩
  | delivered =>
    exact ⟨hn.nodes_lt, hn.nodup, hn.sender_lt, hn.tasks_lt, by simp [RecieverPc.handling]⟩
  | registered => exact Node.wf_alloc hn rfl

/-- Only a new registration from `e` itself makes a second NodeInfo for it. -/
theorem Reciever.peer_receive (h : Reciever.receive n source p env = some n')
    (hr : ∀ name, p = .register name → source ≠ e) (hp : n.Peer e r) : n'.Peer e r := by
  cases took_of_receive h with
  | passed | accepted => exact hp.congr rfl (fun _ => rfl)
  | delivered => exact hp.congr rfl (fun r => by simp)
  | @registered name pc sent =>
    refine ⟨Nat.lt_succ_of_lt hp.lt, ?_, ?_⟩
    · simpa [Node.alloc_heap_of_lt _ _ hp.lt] using hp.endpoint
    · intro r' hlt he
      rcases Nat.lt_succ_iff_lt_or_eq.mp hlt with hlt | rfl
      · exact hp.unique r' hlt (by simpa [Node.alloc_heap_of_lt _ _ hlt] using he)
      · exact (hr name sent (by simpa using he)).elim

end Steps

theorem Main.wf_readLine {line : τ} (h : Main.readLine n line = some n') (hn : n.Wf) : n'.Wf := by
  cases Main.eq_of_readLine h
  exact ⟨hn.nodes_lt, hn.nodup, hn.sender_lt, hn.tasks_lt, hn.handling⟩

theorem Main.peer_readLine {line : τ} (h : Main.readLine n line = some n') (hp : n.Peer e r) :
    n'.Peer e r := by
  cases Main.eq_of_readLine h
  exact hp.congr rfl (fun _ => rfl)

end NetworkLabs.UdpChat
