import NetworkLabs.Retry
import NetworkLabs.UdpChat.SendFailure

/-! When the Checker removes a neighbour. -/
namespace NetworkLabs.UdpChat

open Transition Retry

variable {Addr τ : Type}

def CheckTask.key (t : CheckTask τ) : Ref × Nat := (t.node, t.uid)

/-- A task that waits in the queue or while the Checker sleeps. -/
def CheckTask.job (t : CheckTask τ) : Job (Ref × Nat) := ⟨t.key, t.numFailed, some t.checkTime⟩

def SenderPc.jobs : SenderPc Addr τ → Multiset (Job (Ref × Nat))
  | .send _ _ client uid => {⟨(client, uid), 0, none⟩}
  | .put _ _ client uid => {⟨(client, uid), 1, none⟩}
  | _ => 0

def CheckerPc.jobs : CheckerPc τ → Multiset (Job (Ref × Nat))
  | .sleep task => {task.job}
  | .send task => {⟨task.key, task.numFailed, none⟩}
  | .put task => {⟨task.key, task.numFailed + 1, none⟩}
  | _ => 0

/-- A task whose last resend has been decided on is not looked at again before its removal. -/
def CheckerPc.spent : CheckerPc τ → List (Ref × Nat)
  | .sleep task => if Checker.maxFailed < task.numFailed then [task.key] else []
  | .send task | .put task => if Checker.maxFailed < task.numFailed + 1 then [task.key] else []
  | _ => []

namespace Node

def queued (tasks : List (CheckTask τ)) : Multiset (Job (Ref × Nat)) := tasks.map CheckTask.job

/-- The messages that are being sent, wait for their confirmation or are being resent. -/
def jobs (n : Node Addr τ) : Multiset (Job (Ref × Nat)) :=
  n.sender.jobs + (n.checker.jobs + queued n.checkQueue.container)

def spent (n : Node Addr τ) : List (Ref × Nat) :=
  (n.checkQueue.container.filter fun t => Checker.maxFailed < t.numFailed).map CheckTask.key ++
    n.checker.spent

/-- The call of `socket.send` with a message that the step of a thread is, if it is one. -/
def attempts (n : Node Addr τ) (thread : Thread) (env : Env) : List (Attempt (Ref × Nat)) :=
  match thread with
  | .sender =>
    match n.sender with
    | .send _ _ client uid => [⟨(client, uid), env.sendFails, env.now⟩]
    | _ => []
  | .checker =>
    match n.checker with
    | .send task => [⟨task.key, env.sendFails, env.now⟩]
    | _ => []
  | .main | .reciever => []

/-- The message that a datagram confirms after its last resend has been decided on. -/
def confirmsLate [DecidableEq Addr] (n : Node Addr τ) (source : Endpoint Addr) (p : Payload τ) :
    List (Ref × Nat) :=
  match p, n.findNode source with
  | .confirm, some client =>
    if (client, (n.heap client).lastDelivered + 1) ∈ n.spent then
      [(client, (n.heap client).lastDelivered + 1)]
    else []
  | _, _ => []

/-- The Checker executes `nodes.remove` for the task. -/
def Removes (n : Node Addr τ) (env : Env) (task : CheckTask τ) : Prop :=
  n.checker = .sleep task ∧ task.checkTime ≤ env.now ∧ Checker.maxFailed < task.numFailed

end Node

/-- A node with the time, the calls of `socket.send` with its messages, and the messages that were
confirmed late. -/
structure Watched (Addr τ : Type) where
  node : Node Addr τ
  now : Int
  tried : List (Attempt (Ref × Nat))
  late : List (Ref × Nat)

namespace Watched

open Node

def start (n : Node Addr τ) (now : Int) : Watched Addr τ := ⟨n, now, [], []⟩

/-- Time never goes back. -/
def step [DecidableEq Addr] (s : Watched Addr τ) : Action Addr τ → Option (Watched Addr τ)
  | .readLine line => (Main.readLine s.node line).map fun n => { s with node := n }
  | .thread thread env =>
    if env.now < s.now then none
    else (s.node.step thread env).map fun r =>
      { s with node := r.1, now := env.now, tried := s.tried ++ s.node.attempts thread env }
  | .receive source p env =>
    if env.now < s.now then none
    else (Reciever.receive s.node source p env).map fun n =>
      { s with node := n, now := env.now, late := s.late ++ s.node.confirmsLate source p }

def lts [DecidableEq Addr] : LTS (Watched Addr τ) (Action Addr τ) := .ofStep step

/-- The message of the task is not confirmed, was transmitted four times, and the last time at
least `comfirmTimeout` ago. -/
structure Justified (s : Watched Addr τ) (env : Env) (task : CheckTask τ) : Prop where
  unconfirmed : (s.node.heap task.node).lastDelivered < task.uid
  transmitted : (through s.tried task.key).length = 4
  elapsed : ∀ a ∈ through s.tried task.key, a.time + CheckTask.comfirmTimeout ≤ env.now

variable {n n' : Node Addr τ} {env : Env} {out : Option (Send Addr τ)} {thread : Thread}
  {as : List (Attempt (Ref × Nat))} {s t : Watched Addr τ} {k : Ref × Nat}

/-- The uid was issued to the neighbour. -/
def Issued (n : Node Addr τ) (k : Ref × Nat) : Prop :=
  k.1 < n.allocated ∧ k.2 ≤ (n.heap k.1).sent

/-- No message is attempted more than four times. -/
abbrev Right (issued : Ref × Nat → Prop) (n : Node Addr τ) (as : List (Attempt (Ref × Nat))) :
    Prop :=
  Balanced issued CheckTask.comfirmTimeout 4 n.jobs as

theorem queued_cons (t : CheckTask τ) (tasks : List (CheckTask τ)) :
    queued (t :: tasks) = t.job ::ₘ queued tasks := rfl

theorem queued_append (tasks : List (CheckTask τ)) (t : CheckTask τ) :
    queued (tasks ++ [t]) = t.job ::ₘ queued tasks := by
  rw [queued, List.map_append, List.map_singleton]
  exact Multiset.coe_eq_coe.mpr (List.perm_append_singleton _ _)

theorem jobs_of_sender (j : Job (Ref × Nat)) (h : n.sender.jobs = {j}) :
    n.jobs = j ::ₘ (n.checker.jobs + queued n.checkQueue.container) := by
  rw [jobs, h, Multiset.singleton_add]

theorem jobs_of_checker (j : Job (Ref × Nat)) (h : n.checker.jobs = {j}) :
    n.jobs = j ::ₘ (n.sender.jobs + queued n.checkQueue.container) := by
  rw [jobs, h, Multiset.singleton_add, Multiset.add_cons]

theorem jobs_of_idle (h : n.checker.jobs = 0) :
    n.jobs = n.sender.jobs + queued n.checkQueue.container := by
  rw [jobs, h, Multiset.zero_add]

section Steps
variable [DecidableEq Addr]

theorem right_sender (h : Sender.Act n env n' out) (hw : n.Wf) (hr : Right (Issued n) n as)
    (hissued : ∀ k, Issued n k → Issued n' k) (hpast : ∀ a ∈ as, a.time ≤ env.now) :
    Right (Issued n') n' (as ++ n.attempts .sender env) := by
  have hr' := hr.mono hissued
  cases h with
  | @issue message client clients pc goes =>
    have hnew : ¬ Issued n (client, (n.heap client).sent + 1) :=
      fun h => absurd h.2 (Nat.not_succ_le_self _)
    have hlt : client < n.allocated := hw.sender_lt client (by simp [pc, SenderPc.refs])
    simp only [attempts, pc, List.append_nil]
    have hissue := hr.issue hnew hissued ⟨hlt, by simp [NodeInfo.getSendID]⟩
    simpa [Right, jobs, pc, SenderPc.jobs, NodeInfo.getSendID] using hissue
  | @sent message clients client uid pc sends =>
    rw [jobs_of_sender ⟨(client, uid), 0, none⟩ (by rw [pc, SenderPc.jobs])] at hr'
    simp only [attempts, pc]
    exact hr'.attempt (by decide) _ _
  | @unsent message clients client uid pc fails =>
    rw [jobs_of_sender ⟨(client, uid), 0, none⟩ (by rw [pc, SenderPc.jobs])] at hr'
    simp only [attempts, pc]
    simpa [Right, jobs, SenderPc.jobs] using (hr'.attempt (by decide) env.sendFails env.now).drop
  | @put message clients client uid pc =>
    rw [jobs_of_sender ⟨(client, uid), 1, none⟩ (by rw [pc, SenderPc.jobs])] at hr'
    simp only [attempts, pc, List.append_nil]
    have hsleep := hr'.sleep hpast
    simpa [Right, jobs, SenderPc.jobs, Storage.put, queued_append, CheckTask.job, CheckTask.new,
      CheckTask.key] using hsleep
  | check pc goesOn =>
    rcases goesOn with ⟨rfl, -⟩ | ⟨rfl, -⟩ <;>
      simpa [Right, jobs, attempts, pc, SenderPc.jobs] using hr'
  | woken pc | take pc | done pc | skip pc | stopChecker pc | wakeChecker pc | join pc =>
    simpa [Right, jobs, attempts, pc, SenderPc.jobs, Storage.wakeup] using hr'

omit [DecidableEq Addr] in
theorem right_checker {issued : Ref × Nat → Prop} (h : Checker.Act n env n' out)
    (hr : Right issued n as)
    (hsending : ∀ task, n.checker = .send task → task.numFailed ≤ Checker.maxFailed)
    (hpast : ∀ a ∈ as, a.time ≤ env.now) : Right issued n' (as ++ n.attempts .checker env) := by
  cases h with
  | @take task queue pc got =>
    have hidle : n.checker.jobs = 0 := by simp only [pc, CheckerPc.jobs]
    rw [Right, jobs_of_idle hidle, Storage.get_some got, queued_cons, Multiset.add_cons] at hr
    simp only [attempts, pc, List.append_nil]
    rw [Right, jobs_of_checker task.job (by rw [CheckerPc.jobs])]
    exact hr
  | @remove task pc failed due =>
    rw [Right, jobs_of_checker task.job (by rw [pc, CheckerPc.jobs])] at hr
    simp only [attempts, pc, List.append_nil]
    simpa [Right, jobs, CheckerPc.jobs] using hr.drop
  | @late task pc few waits due =>
    rw [Right, jobs_of_checker task.job (by rw [pc, CheckerPc.jobs])] at hr
    simp only [attempts, pc, List.append_nil]
    rw [Right, jobs_of_checker ⟨task.key, task.numFailed, none⟩ (by rw [CheckerPc.jobs])]
    exact hr.wake
  | @drop task pc few delivered due =>
    rw [Right, jobs_of_checker task.job (by rw [pc, CheckerPc.jobs])] at hr
    simp only [attempts, pc, List.append_nil]
    simpa [Right, jobs, CheckerPc.jobs] using hr.drop
  | @sent task pc sends =>
    rw [Right, jobs_of_checker ⟨task.key, task.numFailed, none⟩ (by rw [pc, CheckerPc.jobs])] at hr
    simp only [attempts, pc]
    rw [Right, jobs_of_checker ⟨task.key, task.numFailed + 1, none⟩ (by rw [CheckerPc.jobs])]
    exact hr.attempt (Nat.lt_succ_of_le (hsending task pc)) _ _
  | @unsent task pc fails =>
    rw [Right, jobs_of_checker ⟨task.key, task.numFailed, none⟩ (by rw [pc, CheckerPc.jobs])] at hr
    simp only [attempts, pc]
    rw [Right, jobs_of_checker ⟨task.key, task.numFailed + 1, none⟩ (by rw [CheckerPc.jobs])]
    exact hr.attempt (Nat.lt_succ_of_le (hsending task pc)) _ _
  | @put task pc =>
    rw [Right, jobs_of_checker ⟨task.key, task.numFailed + 1, none⟩
      (by rw [pc, CheckerPc.jobs])] at hr
    simp only [attempts, pc, List.append_nil]
    have hsleep := hr.sleep hpast
    simpa [Right, jobs, CheckerPc.jobs, Storage.put, queued_append, CheckTask.job,
      CheckTask.updateTask, CheckTask.key] using hsleep
  | check pc goesOn =>
    rcases goesOn with ⟨rfl, -⟩ | ⟨rfl, -⟩ <;>
      simpa [Right, jobs, attempts, pc, CheckerPc.jobs] using hr
  | woken pc =>
    simpa [Right, jobs, attempts, pc, CheckerPc.jobs] using hr

theorem right_step (h : n.step thread env = some (n', out)) (hw : n.Wf)
    (hr : Right (Issued n) n as) (hissued : ∀ k, Issued n k → Issued n' k)
    (hsending : ∀ task, n.checker = .send task → task.numFailed ≤ Checker.maxFailed)
    (hpast : ∀ a ∈ as, a.time ≤ env.now) :
    Right (Issued n') n' (as ++ n.attempts thread env) := by
  cases thread with
  | main =>
    obtain ⟨queue, pc, stopping, stopping', rfl, -⟩ := Main.act_of_step h
    simpa [Right, jobs, attempts] using hr.mono hissued
  | sender => exact right_sender (Sender.act_of_step h) hw hr hissued hpast
  | checker => exact right_checker (Checker.act_of_step h) (hr.mono hissued) hsending hpast
  | reciever => cases Reciever.act_of_step h <;> simpa [Right, jobs, attempts] using hr.mono hissued

/-- The calls that go through are the messages that a thread hands to `socket.send`. -/
theorem attempt_iff_out (h : n.step thread env = some (n', out)) (e : Endpoint Addr) (uid : Nat) :
    (∃ a ∈ n.attempts thread env, a.thrown = false ∧ (n.heap a.key.1).endpoint = e ∧
      a.key.2 = uid) ↔ ∃ text, out = some ⟨e, .datagram (.message uid text)⟩ := by
  cases thread with
  | main =>
    obtain ⟨queue, pc, stopping, stopping', -, rfl⟩ := Main.act_of_step h
    simp [attempts]
  | sender =>
    cases Sender.act_of_step h with
    | sent pc sends => simp [attempts, pc, sends]
    | unsent pc fails => simp [attempts, pc, fails]
    | woken pc | take pc | done pc | issue pc | skip pc | put pc | check pc | stopChecker pc
    | wakeChecker pc | join pc => simp [attempts, pc]
  | checker =>
    cases Checker.act_of_step h with
    | sent pc sends => simp [attempts, pc, sends, CheckTask.key]
    | unsent pc fails => simp [attempts, pc, fails]
    | woken pc | take pc | remove pc | late pc | drop pc | put pc | check pc =>
      simp [attempts, pc]
  | reciever => cases Reciever.act_of_step h <;> simp [attempts]

/-- A thread lowers no counter and confirms nothing. -/
theorem counters_step (h : n.step thread env = some (n', out)) (r : Ref) :
    (n.heap r).sent ≤ (n'.heap r).sent ∧
      (n'.heap r).lastDelivered = (n.heap r).lastDelivered := by
  cases thread with
  | main =>
    obtain ⟨queue, pc, stopping, stopping', rfl, -⟩ := Main.act_of_step h
    exact ⟨Nat.le_refl _, rfl⟩
  | sender =>
    cases Sender.act_of_step h with
    | @issue message client clients =>
      by_cases hr : r = client
      · subst hr
        simp [NodeInfo.getSendID]
      · simp [modify_heap_of_ne _ _ _ hr]
    | _ => exact ⟨Nat.le_refl _, rfl⟩
  | checker => cases Checker.act_of_step h <;> exact ⟨Nat.le_refl _, rfl⟩
  | reciever =>
    cases Reciever.act_of_step h with
    | @update client =>
      by_cases hr : r = client
      · subst hr
        simp [NodeInfo.updateRecv]
      · simp [modify_heap_of_ne _ _ _ hr]
    | _ => exact ⟨Nat.le_refl _, rfl⟩

theorem issued_step (h : n.step thread env = some (n', out)) (hk : Issued n k) : Issued n' k := by
  obtain ⟨hallocated, -, -⟩ := step_heap h
  exact ⟨hallocated ▸ hk.1, Nat.le_trans hk.2 (counters_step h k.1).1⟩

omit [DecidableEq Addr] in
theorem spent_put (queue : Storage (CheckTask τ)) (task : CheckTask τ) (hk : k ∈
    ((queue.put task).container.filter fun t =>
      Checker.maxFailed < t.numFailed).map CheckTask.key) :
    k ∈ (queue.container.filter fun t => Checker.maxFailed < t.numFailed).map CheckTask.key ∨
      (Checker.maxFailed < task.numFailed ∧ k = task.key) := by
  rw [Storage.put, List.filter_append, List.map_append, List.mem_append] at hk
  apply hk.imp_right
  intro hk
  by_cases hspent : Checker.maxFailed < task.numFailed
  · rw [List.filter_cons_of_pos (by simpa using hspent)] at hk
    exact ⟨hspent, by simpa using hk⟩
  · rw [List.filter_cons_of_neg (by simpa using hspent)] at hk
    cases hk

/-- A last resend is decided on for a message that is not confirmed. -/
theorem spent_step (h : n.step thread env = some (n', out)) (hk : k ∈ n'.spent) :
    k ∈ n.spent ∨ (n.heap k.1).lastDelivered < k.2 := by
  cases thread with
  | main =>
    obtain ⟨queue, pc, stopping, stopping', rfl, -⟩ := Main.act_of_step h
    exact .inl hk
  | sender =>
    cases Sender.act_of_step h with
    | put pc =>
      rcases List.mem_append.mp hk with hk | hk
      · rcases spent_put _ _ hk with hk | ⟨hspent, -⟩
        · exact .inl (List.mem_append_left _ hk)
        · exact absurd hspent (by simp [CheckTask.new, Checker.maxFailed])
      · exact .inl (List.mem_append_right _ hk)
    | _ => exact .inl hk
  | checker =>
    rw [spent, List.mem_append] at hk ⊢
    cases Checker.act_of_step h with
    | @take task queue pc got =>
      refine .inl (.inl ?_)
      rw [Storage.get_some got, List.filter_cons]
      by_cases hspent : Checker.maxFailed < task.numFailed
      · simpa [CheckerPc.spent, hspent, or_comm] using hk
      · simpa [CheckerPc.spent, hspent] using hk
    | @late task pc few waits due =>
      apply hk.imp .inl
      intro hk
      simp only [CheckerPc.spent] at hk
      split at hk
      · obtain rfl := List.mem_singleton.mp hk
        exact waits
      · cases hk
    | @put task pc =>
      rcases hk with hk | hk
      · rcases spent_put _ _ hk with hk | ⟨hspent, rfl⟩
        · exact .inl (.inl hk)
        · refine .inl (.inr ?_)
          have hlast : Checker.maxFailed < task.numFailed + 1 := hspent
          rw [pc, CheckerPc.spent, if_pos hlast]
          exact List.mem_singleton.mpr rfl
      · cases hk
    | sent pc | unsent pc =>
      rw [pc]
      exact .inl hk
    | check pc goesOn =>
      rcases goesOn with ⟨rfl, -⟩ | ⟨rfl, -⟩ <;>
        exact .inl (.inl (hk.resolve_right List.not_mem_nil))
    | woken | remove | drop => exact .inl (.inl (hk.resolve_right List.not_mem_nil))
  | reciever => cases Reciever.act_of_step h <;> exact .inl hk

/-- A datagram changes nothing of what the Sender and the Checker have to do. -/
theorem jobs_receive {source : Endpoint Addr} {p : Payload τ}
    (h : Reciever.receive n source p env = some n') :
    n'.jobs = n.jobs ∧ n'.spent = n.spent ∧ n'.checker = n.checker := by
  cases Reciever.took_of_receive h <;> exact ⟨rfl, rfl, rfl⟩

/-- A datagram issues nothing, and it confirms at most the next message of a neighbour. -/
theorem counters_receive {source : Endpoint Addr} {p : Payload τ}
    (h : Reciever.receive n source p env = some n') {r : Ref} (hr : r < n.allocated) :
    r < n'.allocated ∧ (n'.heap r).sent = (n.heap r).sent ∧
      ((n'.heap r).lastDelivered = (n.heap r).lastDelivered ∨
        (n'.heap r).lastDelivered = (n.heap r).lastDelivered + 1 ∧ p = .confirm ∧
          n.findNode source = some r) := by
  cases Reciever.took_of_receive h with
  | passed | accepted => exact ⟨hr, rfl, .inl rfl⟩
  | @delivered client pc sent found =>
    by_cases heq : r = client
    · subst heq
      refine ⟨hr, ?_, .inr ⟨?_, sent, found⟩⟩
      · simp [NodeInfo.updateLastDelivered]
      · simp [NodeInfo.updateLastDelivered]
    · have hother := modify_heap_of_ne n client (·.updateLastDelivered) heq
      exact ⟨hr, congrArg NodeInfo.sent hother, .inl (congrArg NodeInfo.lastDelivered hother)⟩
  | @registered name =>
    have hold := alloc_heap_of_lt n (.new source (some name)) hr
    exact ⟨Nat.lt_succ_of_lt hr, congrArg NodeInfo.sent hold,
      .inl (congrArg NodeInfo.lastDelivered hold)⟩

omit [DecidableEq Addr] in
theorem spent_lt (hw : n.Wf) (hk : k ∈ n.spent) : k.1 < n.allocated := by
  rw [spent, List.mem_append] at hk
  rcases hk with hk | hk
  · obtain ⟨task, htask, rfl⟩ := List.mem_map.mp hk
    exact hw.tasks_lt task (List.mem_append_left _ (List.mem_of_mem_filter htask))
  · cases hpc : n.checker with
    | sleep task | send task | put task =>
      simp only [hpc, CheckerPc.spent] at hk
      split at hk
      · obtain rfl := List.mem_singleton.mp hk
        exact hw.tasks_lt task (by simp [tasks, hpc, CheckerPc.hand])
      · cases hk
    | get | check | finished =>
      rw [hpc] at hk
      cases hk

/-- The ledger is right, and a message whose last resend has been decided on is confirmed exactly
if that happened late. -/
structure Inv (s : Watched Addr τ) : Prop where
  wf : s.node.Wf
  right : Right (Issued s.node) s.node s.tried
  past : ∀ a ∈ s.tried, a.time ≤ s.now
  sending : ∀ task, s.node.checker = .send task → task.numFailed ≤ Checker.maxFailed
  spent : ∀ k ∈ s.node.spent, (s.node.heap k.1).lastDelivered < k.2 ∨ k ∈ s.late
  late : ∀ k ∈ s.late, k.1 < s.node.allocated ∧ k.2 ≤ (s.node.heap k.1).lastDelivered

omit [DecidableEq Addr] in
theorem inv_start (h : n.Started) (now : Int) : (start n now).Inv := by
  refine ⟨h.sound.wf, ?_, nofun, ?_, ?_, nofun⟩
  · cases h with
    | alone => exact balanced_zero
    | connected => exact balanced_zero
  · cases h with
    | alone => exact nofun
    | connected => exact nofun
  · cases h with
    | alone => exact nofun
    | connected => exact nofun

theorem sending_step (h : n.step thread env = some (n', out))
    (hn : ∀ task, n.checker = .send task → task.numFailed ≤ Checker.maxFailed) :
    ∀ task, n'.checker = .send task → task.numFailed ≤ Checker.maxFailed := by
  cases thread with
  | main =>
    obtain ⟨queue, pc, stopping, stopping', rfl, -⟩ := Main.act_of_step h
    exact hn
  | sender => cases Sender.act_of_step h <;> exact hn
  | checker =>
    cases Checker.act_of_step h with
    | late pc few =>
      rintro _ ⟨⟩
      exact few
    | check pc goesOn => rcases goesOn with ⟨rfl, -⟩ | ⟨rfl, -⟩ <;> exact nofun
    | _ => exact nofun
  | reciever => cases Reciever.act_of_step h <;> exact hn

omit [DecidableEq Addr] in
theorem past_attempts {now : Int} (hnow : now ≤ env.now) (h : ∀ a ∈ as, a.time ≤ now) :
    ∀ a ∈ as ++ n.attempts thread env, a.time ≤ env.now := by
  intro a ha
  rcases List.mem_append.mp ha with ha | ha
  · exact Int.le_trans (h a ha) hnow
  · unfold attempts at ha
    (repeat' split at ha) <;> simp_all

theorem inv_thread (h : s.step (.thread thread env) = some t) (hs : s.Inv) : t.Inv := by
  simp only [step, Option.ite_none_left_eq_some] at h
  obtain ⟨hnow, h⟩ := h
  obtain ⟨⟨n, out⟩, hstep, rfl⟩ := Option.map_eq_some_iff.mp h
  have hnow := Int.not_lt.mp hnow
  obtain ⟨hallocated, -, -⟩ := step_heap hstep
  refine ⟨wf_step hstep hs.wf, ?_, past_attempts hnow hs.past, sending_step hstep hs.sending,
    ?_, ?_⟩
  · exact right_step hstep hs.wf hs.right (fun k => issued_step hstep) hs.sending
      fun a ha => Int.le_trans (hs.past a ha) hnow
  · intro k hk
    simp only [(counters_step hstep k.1).2]
    rcases spent_step hstep hk with hk | hk
    · exact hs.spent k hk
    · exact .inl hk
  · intro k hk
    simp only [(counters_step hstep k.1).2, hallocated]
    exact hs.late k hk

theorem receive_confirmed {source : Endpoint Addr} {client : Ref}
    (h : Reciever.receive n source .confirm env = some n') (hc : n.findNode source = some client) :
    n' = { n.modify client (·.updateLastDelivered) with reciever := .check } := by
  unfold Reciever.receive at h
  split at h
  · simp only [hc] at h
    cases h
    rfl
  · cases h

theorem of_confirmsLate {source : Endpoint Addr} {p : Payload τ}
    (hk : k ∈ n.confirmsLate source p) :
    ∃ client, p = .confirm ∧ n.findNode source = some client ∧
      k = (client, (n.heap client).lastDelivered + 1) ∧ k ∈ n.spent := by
  unfold confirmsLate at hk
  split at hk
  · rename_i client hfind
    split at hk
    · rename_i hmem
      obtain rfl := List.mem_singleton.mp hk
      exact ⟨client, rfl, hfind, rfl, hmem⟩
    · cases hk
  · cases hk

theorem inv_receive {source : Endpoint Addr} {p : Payload τ}
    (h : s.step (.receive source p env) = some t) (hs : s.Inv) : t.Inv := by
  simp only [step, Option.ite_none_left_eq_some] at h
  obtain ⟨hnow, h⟩ := h
  obtain ⟨n, hreceive, rfl⟩ := Option.map_eq_some_iff.mp h
  obtain ⟨hjobs, hspent, hchecker⟩ := jobs_receive hreceive
  refine ⟨Reciever.wf_receive hreceive hs.wf, ?_,
    fun a ha => Int.le_trans (hs.past a ha) (Int.not_lt.mp hnow), ?_, ?_, ?_⟩
  · rw [Right, hjobs]
    apply hs.right.mono
    intro k hk
    obtain ⟨hlt, hsent, -⟩ := counters_receive hreceive hk.1
    exact ⟨hlt, hsent ▸ hk.2⟩
  · rw [hchecker]
    exact hs.sending
  · intro k hk
    rw [hspent] at hk
    obtain ⟨-, -, hdelivered⟩ := counters_receive hreceive (spent_lt hs.wf hk)
    simp only [List.mem_append]
    rcases hs.spent k hk with hlt | hlate
    · rcases hdelivered with hsame | ⟨hnext, rfl, hfind⟩
      · exact .inl (hsame ▸ hlt)
      · by_cases hlast : (s.node.heap k.1).lastDelivered + 1 = k.2
        · refine .inr (.inr ?_)
          have hkey : (k.1, (s.node.heap k.1).lastDelivered + 1) = k := by rw [hlast]
          simp only [confirmsLate, hfind, hkey, if_pos hk, List.mem_singleton]
        · exact .inl (by omega)
    · exact .inr (.inl hlate)
  · intro k hk
    rcases List.mem_append.mp hk with hk | hk
    · obtain ⟨hlt, hle⟩ := hs.late k hk
      obtain ⟨hlt', -, hdelivered⟩ := counters_receive hreceive hlt
      have hle' : k.2 ≤ (n.heap k.1).lastDelivered := by omega
      exact ⟨hlt', hle'⟩
    · obtain ⟨client, rfl, hfind, rfl, hmem⟩ := of_confirmsLate hk
      have hlt : client < s.node.allocated := spent_lt hs.wf hmem
      obtain rfl := receive_confirmed hreceive hfind
      exact ⟨hlt, by simp [NodeInfo.updateLastDelivered]⟩

theorem inv_step {a : Action Addr τ} (h : s.step a = some t) (hs : s.Inv) : t.Inv := by
  cases a with
  | readLine line =>
    obtain ⟨n, hread, rfl⟩ := Option.map_eq_some_iff.mp h
    have hw := Main.wf_readLine hread hs.wf
    obtain rfl := Main.eq_of_readLine hread
    exact ⟨hw, hs.right, hs.past, hs.sending, hs.spent, hs.late⟩
  | thread thread env => exact inv_thread h hs
  | receive source p env => exact inv_receive h hs

theorem inv_of_run {xs : List (Action Addr τ)} (h : lts.MTr s xs t) (hs : s.Inv) : t.Inv :=
  LTS.mTr_of_trInv (fun _ _ _ hstep => inv_step hstep) h hs

omit [DecidableEq Addr] in
/-- A task that the Checker is about to remove has been attempted four times. -/
theorem Inv.attempts {task : CheckTask τ} (hs : s.Inv) (hr : s.node.Removes env task) :
    (made s.tried task.key).length = 4 ∧
      ∀ a ∈ made s.tried task.key, a.time + CheckTask.comfirmTimeout ≤ task.checkTime := by
  obtain ⟨hpc, -, hfailed⟩ := hr
  have hright := hs.right
  rw [Right, jobs_of_checker task.job (by rw [hpc, CheckerPc.jobs])] at hright
  obtain ⟨-, ⟨hattempts, hlimit, hwaits⟩, -⟩ := balanced_cons.mp hright
  have hfour : task.numFailed = 4 := Nat.le_antisymm hlimit hfailed
  exact ⟨hattempts.trans hfour, hwaits _ rfl⟩

omit [DecidableEq Addr] in
/-- And it is unconfirmed exactly if no confirmation came late. -/
theorem Inv.unconfirmed_iff {task : CheckTask τ} (hs : s.Inv) (hr : s.node.Removes env task) :
    (s.node.heap task.node).lastDelivered < task.uid ↔ task.key ∉ s.late := by
  obtain ⟨hpc, -, hfailed⟩ := hr
  have hmem : task.key ∈ s.node.spent := by
    rw [Node.spent, hpc, CheckerPc.spent, if_pos hfailed]
    exact List.mem_append_right _ (List.mem_singleton.mpr rfl)
  constructor
  · intro hlt hlate
    exact absurd (hs.late _ hlate).2 (Nat.not_le_of_lt hlt)
  · exact (hs.spent _ hmem).resolve_right

/-- In every run, the clock of which does not go back, a removal is justified exactly if no call of
`socket.send` with the message threw and no confirmation of it came after its last resend had been
decided on. -/
theorem removal_justified_iff {xs : List (Action Addr τ)} {now : Int} {task : CheckTask τ}
    (hn : n.Started) (h : lts.MTr (start n now) xs s) (hr : s.node.Removes env task) :
    s.Justified env task ↔
      (∀ a ∈ s.tried, a.key = task.key → a.thrown = false) ∧ task.key ∉ s.late := by
  have hs := inv_of_run h (inv_start hn now)
  obtain ⟨hlength, hwaits⟩ := hs.attempts hr
  rw [← length_through_iff hlength, ← hs.unconfirmed_iff hr]
  constructor
  · exact fun hj => ⟨hj.transmitted, hj.unconfirmed⟩
  · rintro ⟨htransmitted, hunconfirmed⟩
    refine ⟨hunconfirmed, htransmitted, fun a ha => ?_⟩
    exact Int.le_trans (hwaits a (List.mem_of_mem_filter ha)) hr.2.1

end Steps

/-- A round of the Checker that ends with a resend. -/
def round (now : Int) : List (Action Nat String) := List.replicate 5 (.thread .checker (.calm now))

/-- A line is sent to the parent and resent three times. -/
def unanswered : List (Action Nat String) :=
  [.readLine "hi"] ++ List.replicate 4 (.thread .sender (.calm 0)) ++ round 5000 ++ round 10000 ++
    round 15000 ++ [.thread .checker (.calm 15000)]

theorem justified_unanswered :
    (LTS.after step (start child 0) unanswered).Justified (.calm 20000) ⟨1, 0, "hi", 4, 20000⟩ :=
  (removal_justified_iff started_child (LTS.mTr_after (by decide)) ⟨rfl, by decide, by decide⟩).mpr
    ⟨by decide, by decide⟩

/-- The parent confirms the last resend, and is removed. -/
theorem not_justified_confirmed : ¬ ∀ (n : Node Nat String) now xs s env task, n.Started →
    lts.MTr (start n now) xs s → s.node.Removes env task → s.Justified env task := by
  intro hall
  have hjustified := hall child 0 (unanswered ++ [.receive ⟨0, 7⟩ .confirm (.calm 15000)]) _
    (.calm 20000) ⟨1, 0, "hi", 4, 20000⟩ started_child (LTS.mTr_after (by decide))
    ⟨rfl, by decide, by decide⟩
  exact absurd hjustified.unconfirmed (by decide)

end Watched

end NetworkLabs.UdpChat
