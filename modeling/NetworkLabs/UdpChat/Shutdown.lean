import NetworkLabs.UdpChat.Solo

/-! How a node ends, after its input has ended or its registration got no answer. -/
namespace NetworkLabs.UdpChat

open Transition

variable {Addr τ : Type} {n n' : Node Addr τ} {env : Env} {thread : Thread}
  {out : Option (Send Addr τ)}

/-- Where `Server.main` is. The Checker is started by the constructor, the Sender and the Reciever
only by `work`. -/
inductive Stage (Addr : Type)
  | connecting (parent : Endpoint Addr)
  | working
  | timedOut
deriving DecidableEq

structure Life (Addr τ : Type) where
  stage : Stage Addr
  node : Node Addr τ

/-- `Server.cleanup` of a Sender and a Reciever that were not started: joining them takes no
time. -/
def Main.cleanup (n : Node Addr τ) : Option (Node Addr τ) :=
  match n.main with
  | .joinSender => some { n with main := .joinReciever }
  | .joinReciever => some { n with main := .closed }
  | _ => (Main.step n).map Prod.fst

namespace Life

open Node

/-- `connect` gets some datagram, fails with another `IOException` than the timeout, or times
out. -/
inductive Action (Addr τ : Type)
  | answered (reply : String)
  | failed
  | timeout
  | act (a : Node.Action Addr τ)

/-- A node with a parent to connect to, or without one. -/
inductive Launched : Life Addr τ → Prop
  | child (self parent : Endpoint Addr) (name : String) (failPercent : Nat) :
      Launched ⟨.connecting parent, Server.start self name failPercent⟩
  | root (self : Endpoint Addr) (name : String) (failPercent : Nat) :
      Launched ⟨.working, Server.start self name failPercent⟩

/-- `cleanup` was called. -/
def Cleaning (s : Life Addr τ) : Prop :=
  match s.stage with
  | .connecting _ => False
  | .working => s.node.main ≠ .reading
  | .timedOut => True

/-- Every thread that was started has ended. -/
def Ended (s : Life Addr τ) : Prop :=
  s.node.main = .closed ∧ s.node.checker = .finished ∧
    (s.stage = .working →
      s.node.sender = .finished ∧ (s.node.reciever = .finished ∨ s.node.reciever = .crashed))

/-- Who has got how far with the shutdown, and what is set by then. -/
structure Relayed (n : Node Addr τ) : Prop where
  sender : n.main ∉ [.reading, .stopSender] → n.senderStopping = true
  reciever : n.main ∉ [.reading, .stopSender, .stopReciever] → n.recieverStopping = true
  woken : n.main ∉ [.reading, .stopSender, .stopReciever, .wakeup] →
    n.messageQueue.wakeupState = true
  checker : n.sender = .wakeChecker ∨ n.sender = .join ∨ n.sender = .finished →
    n.checkerStopping = true
  checkerWoken : n.sender = .join ∨ n.sender = .finished → n.checkQueue.wakeupState = true
  joined : n.sender = .finished → n.checker = .finished

/-- Nobody but the constructor has done anything for the Checker. -/
structure Waiting (n : Node Addr τ) : Prop where
  checker : n.checker = .get
  queue : n.checkQueue = .empty

/-- What holds of a node at each stage. -/
def Inv (s : Life Addr τ) : Prop :=
  match s.stage with
  | .connecting _ => Waiting s.node ∧ Relayed s.node
  | .working => Relayed s.node
  | .timedOut => Waiting s.node

variable {s t : Life Addr τ}

theorem relayed_start (self : Endpoint Addr) (name : String) (failPercent : Nat) :
    Relayed (Server.start self name failPercent : Node Addr τ) := by
  refine ⟨?_, ?_, ?_, ?_, ?_, ?_⟩ <;> simp [Server.start]

theorem Launched.inv (h : s.Launched) : s.Inv := by
  cases h with
  | child self parent name failPercent => exact ⟨⟨rfl, rfl⟩, relayed_start self name failPercent⟩
  | root self name failPercent => exact relayed_start self name failPercent

/-- A Checker with an empty queue that nobody wakes does nothing. -/
theorem Waiting.step_checker (h : Waiting n) : Checker.step n env = none := by
  simp [Checker.step, h.checker, h.queue, Storage.get, Storage.empty]

theorem Waiting.cleanup (hc : Main.cleanup n = some n') (h : Waiting n) : Waiting n' := by
  unfold Main.cleanup at hc
  split at hc
  · cases hc
    exact ⟨h.checker, h.queue⟩
  · cases hc
    exact ⟨h.checker, h.queue⟩
  · obtain ⟨⟨n'', out⟩, hstep, rfl⟩ := Option.map_eq_some_iff.mp hc
    obtain ⟨queue, pc, stopping, stopping', rfl, -⟩ := Main.act_of_step hstep
    exact ⟨h.checker, h.queue⟩

theorem relayed_main (h : Main.step n = some (n', out)) (hn : Relayed n) : Relayed n' := by
  obtain ⟨hsender, hreciever, hwoken, hchecker, hcheckerWoken, hjoined⟩ := hn
  unfold Main.step at h
  cases hpc : n.main <;> simp only [hpc] at h <;> (try split at h) <;> cases h
  all_goals refine ⟨?_, ?_, ?_, hchecker, hcheckerWoken, hjoined⟩ <;> simp_all [Storage.wakeup]

/-- The Checker and the Reciever leave the flags and the wake-ups as they are. -/
theorem Relayed.congr (hn : Relayed n) (hmain : n'.main = n.main) (hsender : n'.sender = n.sender)
    (hs : n'.senderStopping = n.senderStopping) (hr : n'.recieverStopping = n.recieverStopping)
    (hc : n'.checkerStopping = n.checkerStopping)
    (hq : n'.messageQueue.wakeupState = n.messageQueue.wakeupState)
    (hcq : n'.checkQueue.wakeupState = n.checkQueue.wakeupState)
    (hjoined : n.checker = .finished → n'.checker = .finished) : Relayed n' := by
  refine ⟨?_, ?_, ?_, ?_, ?_, ?_⟩
  · rw [hmain, hs]
    exact hn.sender
  · rw [hmain, hr]
    exact hn.reciever
  · rw [hmain, hq]
    exact hn.woken
  · rw [hsender, hc]
    exact hn.checker
  · rw [hsender, hcq]
    exact hn.checkerWoken
  · rw [hsender]
    exact fun h => hjoined (hn.joined h)

theorem relayed_checker (h : Checker.step n env = some (n', out)) (hn : Relayed n) :
    Relayed n' := by
  cases Checker.act_of_step h with
  | take pc got =>
    exact hn.congr rfl rfl rfl rfl rfl rfl (Storage.wakeupState_of_get_some got) (by simp [pc])
  | woken pc | remove pc | late pc | drop pc | sent pc | unsent pc | put pc | check pc =>
    exact hn.congr rfl rfl rfl rfl rfl rfl rfl (by simp [pc])

theorem relayed_reciever (h : Reciever.step n env = some (n', out)) (hn : Relayed n) :
    Relayed n' := by
  cases Reciever.act_of_step h <;> exact hn.congr rfl rfl rfl rfl rfl rfl rfl id

/-- The Reciever never waits: `socket.receive` times out. -/
theorem reciever_of_stuck (h : ∀ env, Reciever.step n env = none) :
    n.reciever = .finished ∨ n.reciever = .crashed := by
  have hcalm := h (.calm 0)
  cases hpc : n.reciever with
  | finished => exact .inl rfl
  | crashed => exact .inr rfl
  | _ => simp [Reciever.step, hpc, quiet, Env.calm] at hcalm

/-- The Checker waits in `get` only: a sleep ends once its time has come. -/
theorem checker_of_stuck (h : ∀ env, Checker.step n env = none) :
    n.checker = .finished ∨ n.checker = .get ∧ n.checkQueue.wakeupState = false := by
  cases hpc : n.checker with
  | finished => exact .inl rfl
  | get =>
    refine .inr ⟨rfl, Storage.wakeupState_of_waits ?_⟩
    have hcalm := h (.calm 0)
    simp only [Checker.step, hpc] at hcalm
    split at hcalm
    · assumption
    · cases hcalm
    · cases hcalm
  | sleep task =>
    have hdue := h (.calm task.checkTime)
    simp only [Checker.step, hpc, Env.calm, Int.lt_irrefl, if_false] at hdue
    split at hdue
    · cases hdue
    · split at hdue <;> cases hdue
  | _ =>
    have hcalm := h (.calm 0)
    simp [Checker.step, hpc, quiet, Env.calm] at hcalm

theorem main_of_stuck (h : Main.step n = none) (hmain : n.main ≠ .reading) :
    n.main = .closed ∨ n.main = .joinSender ∧ n.sender ≠ .finished ∨
      n.main = .joinReciever ∧ n.reciever ≠ .finished ∧ n.reciever ≠ .crashed := by
  cases hpc : n.main with
  | closed => exact .inl rfl
  | joinSender =>
    refine .inr (.inl ⟨rfl, ?_⟩)
    intro hsender
    simp [Main.step, hpc, hsender, quiet] at h
  | joinReciever =>
    refine .inr (.inr ⟨rfl, ?_, ?_⟩) <;> intro hreciever <;>
      simp [Main.step, hpc, hreciever, quiet] at h
  | reading => exact absurd hpc hmain
  | _ => simp [Main.step, hpc, quiet] at h

section Steps
variable [DecidableEq Addr]

theorem sender_of_stuck (h : ∀ env, Sender.step n env = none) :
    n.sender = .finished ∨ n.sender = .get ∧ n.messageQueue.wakeupState = false ∨
      n.sender = .join ∧ n.checker ≠ .finished := by
  have hcalm := h (.calm 0)
  cases hpc : n.sender with
  | finished => exact .inl rfl
  | get =>
    refine .inr (.inl ⟨rfl, Storage.wakeupState_of_waits ?_⟩)
    simp only [Sender.step, hpc] at hcalm
    split at hcalm
    · assumption
    · cases hcalm
    · cases hcalm
  | join =>
    refine .inr (.inr ⟨rfl, ?_⟩)
    intro hchecker
    simp [Sender.step, hpc, hchecker, quiet] at hcalm
  | loop message clients =>
    cases clients with
    | nil => simp [Sender.step, hpc, quiet] at hcalm
    | cons client clients =>
      simp only [Sender.step, hpc] at hcalm
      split at hcalm <;> cases hcalm
  | _ => simp [Sender.step, hpc, quiet, Env.calm] at hcalm

/-- The end of each thread lets the next one end. -/
theorem ended_of_stuck (hn : Relayed n) (hmain : n.main ≠ .reading)
    (h : ∀ thread env, n.step thread env = none) :
    n.main = .closed ∧ n.checker = .finished ∧ n.sender = .finished ∧
      (n.reciever = .finished ∨ n.reciever = .crashed) := by
  have hreciever := reciever_of_stuck (h .reciever)
  have hclosed : n.main = .closed ∨ n.main = .joinSender ∧ n.sender ≠ .finished := by
    rcases main_of_stuck (h .main (.calm 0)) hmain with hm | hm | ⟨-, hnot, hnot'⟩
    · exact .inl hm
    · exact .inr hm
    · rcases hreciever with hr | hr
      · exact absurd hr hnot
      · exact absurd hr hnot'
  have hwoken : n.messageQueue.wakeupState = true := by
    apply hn.woken
    rcases hclosed with hm | ⟨hm, -⟩ <;> simp [hm]
  have hchecker : n.sender = .join ∨ n.sender = .finished → n.checker = .finished := by
    intro hs
    rcases checker_of_stuck (h .checker) with hc | ⟨-, hwaits⟩
    · exact hc
    · rw [hn.checkerWoken hs] at hwaits
      cases hwaits
  have hsender : n.sender = .finished := by
    rcases sender_of_stuck (h .sender) with hs | ⟨-, hwaits⟩ | ⟨hs, hnot⟩
    · exact hs
    · rw [hwoken] at hwaits
      cases hwaits
    · exact absurd (hchecker (.inl hs)) hnot
  rcases hclosed with hm | ⟨-, hnot⟩
  · exact ⟨hm, hchecker (.inr hsender), hsender, hreciever⟩
  · exact absurd hsender hnot

theorem relayed_sender (h : Sender.step n env = some (n', out)) (hn : Relayed n) : Relayed n' := by
  cases Sender.act_of_step h with
  | take pc got =>
    refine ⟨hn.sender, hn.reciever, ?_, by simp, by simp, by simp⟩
    simp only [Storage.wakeupState_of_get_some got]
    exact hn.woken
  | check pc goesOn =>
    rcases goesOn with ⟨rfl, -⟩ | ⟨rfl, -⟩ <;>
      exact ⟨hn.sender, hn.reciever, hn.woken, by simp, by simp, by simp⟩
  | stopChecker pc => exact ⟨hn.sender, hn.reciever, hn.woken, by simp, by simp, by simp⟩
  | wakeChecker pc =>
    exact ⟨hn.sender, hn.reciever, hn.woken, fun _ => hn.checker (.inl pc), fun _ => rfl, by simp⟩
  | join pc ended =>
    exact ⟨hn.sender, hn.reciever, hn.woken, fun _ => hn.checker (.inr (.inl pc)),
      fun _ => hn.checkerWoken (.inl pc), fun _ => ended⟩
  | woken | done | issue | skip | sent | unsent | put =>
    exact ⟨hn.sender, hn.reciever, hn.woken, by simp, by simp, by simp⟩

theorem relayed_next {a : Node.Action Addr τ} (h : n.next a = some n') (hn : Relayed n) :
    Relayed n' := by
  cases a with
  | readLine line =>
    obtain rfl := Main.eq_of_readLine h
    exact hn.congr rfl rfl rfl rfl rfl rfl rfl id
  | thread thread env =>
    obtain ⟨out, hstep⟩ := step_of_next h
    cases thread with
    | main => exact relayed_main hstep hn
    | sender => exact relayed_sender hstep hn
    | checker => exact relayed_checker hstep hn
    | reciever => exact relayed_reciever hstep hn
  | receive source p env =>
    cases Reciever.took_of_receive h <;> exact hn.congr rfl rfl rfl rfl rfl rfl rfl id

/-- While `Server.main` is not in `work`, only it and the Checker run. -/
def step (s : Life Addr τ) : Action Addr τ → Option (Life Addr τ)
  | .answered reply =>
    match s.stage with
    | .connecting parent => some ⟨.working, Server.connect s.node parent reply⟩
    | _ => none
  | .failed =>
    match s.stage with
    | .connecting _ => some { s with stage := .working }
    | _ => none
  | .timeout =>
    match s.stage with
    | .connecting _ => some ⟨.timedOut, { s.node with main := .stopSender }⟩
    | _ => none
  | .act a =>
    match s.stage, a with
    | .working, a => (s.node.next a).map fun n => { s with node := n }
    | .timedOut, .thread .main _ => (Main.cleanup s.node).map fun n => { s with node := n }
    | _, .thread .checker env => (Checker.step s.node env).map fun x => { s with node := x.1 }
    | _, _ => none

def lts : LTS (Life Addr τ) (Action Addr τ) := .ofStep step

/-- No thread can take a further step. -/
def Stuck (s : Life Addr τ) : Prop := ∀ a, s.step a = none

theorem inv_step {a : Action Addr τ} (h : s.step a = some t) (hs : s.Inv) : t.Inv := by
  obtain ⟨stage, n⟩ := s
  cases stage with
  | connecting parent =>
    obtain ⟨hwaiting, hrelayed⟩ := hs
    cases a with
    | answered reply =>
      cases h
      exact hrelayed.congr rfl rfl rfl rfl rfl rfl rfl id
    | failed =>
      cases h
      exact hrelayed
    | timeout =>
      cases h
      exact ⟨hwaiting.checker, hwaiting.queue⟩
    | act a =>
      simp only [step] at h
      split at h
      · cases ‹Stage.connecting parent = Stage.working›
      · cases ‹Stage.connecting parent = Stage.timedOut›
      · rw [hwaiting.step_checker] at h
        cases h
      · cases h
  | working =>
    cases a with
    | act a =>
      obtain ⟨n', hn, rfl⟩ := Option.map_eq_some_iff.mp h
      exact relayed_next hn hs
    | _ => cases h
  | timedOut =>
    cases a with
    | act a =>
      simp only [step] at h
      split at h
      · cases ‹Stage.timedOut = Stage.working›
      · obtain ⟨n', hn, rfl⟩ := Option.map_eq_some_iff.mp h
        exact Waiting.cleanup hn hs
      · rw [Waiting.step_checker hs] at h
        cases h
      · cases h
    | _ => cases h

/-- After the last thread nothing happens. -/
theorem stuck_of_ended (hs : s.Ended) (hstage : s.stage = .working) : s.Stuck := by
  obtain ⟨hmain, hchecker, hrest⟩ := hs
  obtain ⟨hsender, hreciever⟩ := hrest hstage
  intro a
  cases a with
  | act a =>
    simp only [step, hstage, Option.map_eq_none_iff]
    cases a with
    | readLine line => simp [next, Main.readLine, hmain]
    | thread thread env =>
      cases thread with
      | main => simp [next, Node.step, Main.step, hmain]
      | sender => simp [next, Node.step, Sender.step, hsender]
      | checker => simp [next, Node.step, Checker.step, hchecker]
      | reciever => rcases hreciever with hr | hr <;> simp [next, Node.step, Reciever.step, hr]
    | receive source p env =>
      rcases hreciever with hr | hr <;> simp [next, Reciever.receive, hr]
  | _ => simp [step, hstage]

/-- After a timeout nobody is left to wake the Checker. -/
theorem stuck_of_timedOut (hs : Waiting s.node) (hstage : s.stage = .timedOut)
    (hmain : s.node.main = .closed) : s.Stuck := by
  intro a
  cases a with
  | act a =>
    simp only [step, hstage]
    split
    · cases ‹Stage.timedOut = Stage.working›
    · simp [Main.cleanup, Main.step, hmain]
    · rw [hs.step_checker]
      rfl
    · rfl
  | _ => simp [step, hstage]

variable {m : Life Addr τ} {xs : List (Action Addr τ)}

theorem inv_run (hm : m.Launched) (h : lts.MTr m xs s) : s.Inv :=
  LTS.mTr_of_trInv (fun _ _ _ hstep hs => inv_step hstep hs) h hm.inv

/-- Whenever nothing can happen any more after `cleanup` was called, every thread that was started
has ended, exactly if the registration had not timed out. -/
theorem ends_iff (hm : m.Launched) (h : lts.MTr m xs s) (hc : s.Cleaning) (hs : s.Stuck) :
    s.Ended ↔ s.stage ≠ .timedOut := by
  have hinv := inv_run hm h
  obtain ⟨stage, n⟩ := s
  cases stage with
  | connecting parent => exact hc.elim
  | working =>
    refine iff_of_true ?_ (by simp)
    have hthreads : ∀ thread env, n.step thread env = none := by
      intro thread env
      simpa [step, next] using hs (.act (.thread thread env))
    obtain ⟨hmain, hchecker, hsender, hreciever⟩ := ended_of_stuck hinv hc hthreads
    exact ⟨hmain, hchecker, fun _ => ⟨hsender, hreciever⟩⟩
  | timedOut =>
    refine iff_of_false ?_ (by simp)
    rintro ⟨-, hchecker, -⟩
    rw [Waiting.checker hinv] at hchecker
    cases hchecker

end Steps

/-- The input of a node without a parent ends at once. -/
def stopped : List (Action Nat String) :=
  List.replicate 4 (.act (.thread .main (.calm 0))) ++
    List.replicate 3 (.act (.thread .sender (.calm 0))) ++
      [.act (.thread .checker (.calm 0)), .act (.thread .sender (.calm 0))] ++
        List.replicate 2 (.act (.thread .reciever (.calm 0))) ++
          List.replicate 2 (.act (.thread .main (.calm 0)))

def root : Life Nat String := ⟨.working, Server.start ⟨0, 7⟩ "root" 0⟩

theorem stuck_stopped : (LTS.after step root stopped).Stuck :=
  stuck_of_ended ⟨rfl, rfl, fun _ => ⟨rfl, .inl rfl⟩⟩ rfl

theorem ended_stopped : (LTS.after step root stopped).Ended :=
  (ends_iff (.root ⟨0, 7⟩ "root" 0) (LTS.mTr_after (by decide) : lts.MTr root stopped _)
    (by decide : (LTS.after step root stopped).node.main ≠ .reading) stuck_stopped).mpr
      (by decide)

/-- The parent does not answer. -/
def unanswered : List (Action Nat String) :=
  .timeout :: List.replicate 5 (.act (.thread .main (.calm 0)))

def orphan : Life Nat String := ⟨.connecting ⟨0, 7⟩, Server.start ⟨1, 7⟩ "child" 0⟩

/-- The Checker waits for ever. -/
theorem not_ended_unanswered :
    ¬ ∀ (xs : List (Action Nat String)) (s : Life Nat String), lts.MTr orphan xs s →
      s.Cleaning → s.Stuck → s.Ended := by
  intro hall
  have hstuck : (LTS.after step orphan unanswered).Stuck :=
    stuck_of_timedOut ⟨rfl, rfl⟩ rfl rfl
  have hended := hall unanswered _ (LTS.mTr_after (by decide)) trivial hstuck
  have hchecker := hended.2.1
  cases hchecker

end Life

end NetworkLabs.UdpChat
