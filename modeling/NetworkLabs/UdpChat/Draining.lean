import NetworkLabs.UdpChat.SendFailure

/-! What becomes of the lines that were typed before a node is stopped. -/
namespace NetworkLabs.UdpChat

open Transition

variable {Addr τ : Type} {n n' : Node Addr τ} {env : Env} {thread : Thread}
  {out : Option (Send Addr τ)}

/-- One message that the Sender took, the neighbours in `nodes` then, what it sent, and whether
one of its sends threw. -/
structure Broadcast (Addr τ : Type) where
  message : Message Addr τ
  neighbours : List (Endpoint Addr)
  sent : List (Send Addr τ)
  thrown : Bool

/-- Sent once to each neighbour, in the order of `nodes`. -/
structure Broadcast.Complete (b : Broadcast Addr τ) : Prop where
  targets : b.sent.map Send.target = b.neighbours
  texts : ∀ x ∈ b.sent, ∃ uid, x.packet = .datagram (.message uid b.message.message)

/-- The texts of the messages that were typed at the node itself. -/
def typed (messages : List (Message Addr τ)) : List τ :=
  messages.filterMap fun message =>
    match message.source with
    | none => some message.message
    | some _ => none

@[simp] theorem typed_nil : typed ([] : List (Message Addr τ)) = [] := rfl

theorem typed_append (xs ys : List (Message Addr τ)) : typed (xs ++ ys) = typed xs ++ typed ys :=
  List.filterMap_append

/-- Past the loop of `Sender.run`. -/
def SenderPc.left : SenderPc Addr τ → Bool
  | .stopChecker | .wakeChecker | .join | .finished => true
  | _ => false

/-- The message that is broadcast and the neighbours it is not sent to yet. -/
def SenderPc.broadcast : SenderPc Addr τ → Option (Message Addr τ × List Ref)
  | .loop message clients | .put message clients _ _ => some (message, clients)
  | .send message clients client _ => some (message, client :: clients)
  | _ => none

/-- A node with the lines that were read, the broadcasts that came to an end, and the one that is
going on. -/
structure Drain (Addr τ : Type) where
  node : Node Addr τ
  lines : List τ
  broadcasts : List (Broadcast Addr τ)
  current : Option (Broadcast Addr τ)

namespace Drain

open Node

def start (n : Node Addr τ) : Drain Addr τ := ⟨n, [], [], none⟩

/-- What an action of the Sender adds to the record. -/
def record (s : Drain Addr τ) (n' : Node Addr τ) (out : Option (Send Addr τ)) : Drain Addr τ :=
  match s.node.sender, n'.sender with
  | .get, .loop message clients =>
    { s with
      node := n'
      current := some ⟨message, clients.map fun r => (n'.heap r).endpoint, [], false⟩ }
  | .send _ _ _ _, .check =>
    { s with
      node := n'
      broadcasts := s.broadcasts ++ (s.current.map fun b => { b with thrown := true }).toList
      current := none }
  | _, .check =>
    { s with
      node := n'
      broadcasts := s.broadcasts ++ s.current.toList
      current := none }
  | _, _ =>
    { s with
      node := n'
      current := s.current.map fun b => { b with sent := b.sent ++ out.toList } }

section Steps
variable [DecidableEq Addr]

def step (s : Drain Addr τ) : Action Addr τ → Option (Drain Addr τ)
  | .readLine line => (Main.readLine s.node line).map fun n =>
      { s with node := n, lines := s.lines ++ [line] }
  | .thread .sender env => (Sender.step s.node env).map fun x => s.record x.1 x.2
  | a => (s.node.next a).map fun n => { s with node := n }

def lts : LTS (Drain Addr τ) (Action Addr τ) := .ofStep step

end Steps

/-- Every line that was read is broadcast, being broadcast, or still in the queue. -/
structure Accounted (s : Drain Addr τ) : Prop where
  lines : s.lines = typed (s.broadcasts.map Broadcast.message) ++
    typed (s.current.toList.map Broadcast.message) ++ typed s.node.messageQueue.container
  complete : ∀ b ∈ s.broadcasts, b.message.source = none → b.thrown = false → b.Complete
  ended : s.node.sender.left = true → s.current = none ∧ s.node.main ≠ .reading

/-- The Sender has left, and what was queued in `s` still is, with nothing more broadcast. -/
structure Abandoned (s t : Drain Addr τ) : Prop where
  left : t.node.sender.left = true
  queue : typed s.node.messageQueue.container <+: typed t.node.messageQueue.container
  broadcasts : t.broadcasts = s.broadcasts
  current : t.current = s.current

/-- The broadcast that is going on, if any, was sent to the neighbours before the pending ones. -/
structure Ongoing (s : Drain Addr τ) : Prop where
  idle : s.node.sender.broadcast = none → s.current = none
  busy : ∀ message pending, s.node.sender.broadcast = some (message, pending) →
    ∃ b, s.current = some b ∧ b.message = message ∧ (message.source = none →
      b.sent.map Send.target ++ pending.map (fun r => (s.node.heap r).endpoint) = b.neighbours ∧
        ∀ x ∈ b.sent, ∃ uid, x.packet = .datagram (.message uid b.message.message))

/-- The Sender is only stopped by `cleanup`. -/
structure Stopping (n : Node Addr τ) : Prop where
  flags : n.senderStopping = true ∨ n.messageQueue.wakeupState = true → n.main ≠ .reading
  left : n.sender.left = true → n.main ≠ .reading

structure Inv (s : Drain Addr τ) : Prop where
  sound : s.node.Sound
  lines : s.lines = typed (s.broadcasts.map Broadcast.message) ++
    typed (s.current.toList.map Broadcast.message) ++ typed s.node.messageQueue.container
  complete : ∀ b ∈ s.broadcasts, b.message.source = none → b.thrown = false → b.Complete
  ongoing : s.Ongoing
  stopping : Stopping s.node

variable {s t : Drain Addr τ}

theorem broadcast_of_left {pc : SenderPc Addr τ} (h : pc.left = true) : pc.broadcast = none := by
  cases pc <;> simp_all [SenderPc.left, SenderPc.broadcast]

theorem Inv.accounts (h : s.Inv) : s.Accounted := by
  refine ⟨h.lines, h.complete, ?_⟩
  intro hleft
  exact ⟨h.ongoing.idle (broadcast_of_left hleft), h.stopping.left hleft⟩

theorem inv_start (h : n.Started) : (start n).Inv := by
  refine ⟨h.sound, ?_, by simp [start], ⟨?_, ?_⟩, ⟨?_, ?_⟩⟩
  · cases h <;> rfl
  · intro _
    rfl
  · cases h <;> simp [start, Server.start, Server.connect, SenderPc.broadcast, Node.alloc]
  · cases h <;> simp [start, Server.start, Server.connect, Storage.empty, Node.alloc]
  · cases h <;> simp [start, Server.start, Server.connect, SenderPc.left, Node.alloc]

theorem refs_of_broadcast {pc : SenderPc Addr τ} {message : Message Addr τ} {pending : List Ref}
    {r : Ref} (h : pc.broadcast = some (message, pending)) (hr : r ∈ pending) : r ∈ pc.refs := by
  cases pc <;> simp_all [SenderPc.broadcast, SenderPc.refs]

/-- What the other threads leave to the Sender: its place, and the lines in the queue. -/
structure Aside (n n' : Node Addr τ) : Prop where
  sender : n'.sender = n.sender
  queue : typed n'.messageQueue.container = typed n.messageQueue.container
  stopping : Stopping n → Stopping n'

theorem Inv.aside (h : s.Inv) (hs : n.Sound) (ha : Aside s.node n)
    (hend : ∀ r < s.node.allocated, (n.heap r).endpoint = (s.node.heap r).endpoint) :
    Inv { s with node := n } := by
  refine ⟨hs, ?_, h.complete, ⟨?_, ?_⟩, ha.stopping h.stopping⟩
  · rw [ha.queue]
    exact h.lines
  · rw [ha.sender]
    exact h.ongoing.idle
  · rw [ha.sender]
    intro message pending hpc
    obtain ⟨b, hb, hmessage, hsent⟩ := h.ongoing.busy message pending hpc
    refine ⟨b, hb, hmessage, ?_⟩
    intro hsource
    obtain ⟨htargets, htexts⟩ := hsent hsource
    refine ⟨?_, htexts⟩
    rw [← htargets]
    congr 1
    apply List.map_congr_left
    intro r hr
    exact hend r (h.sound.wf.sender_lt r (refs_of_broadcast hpc hr))

/-- The main thread does not read lines after its first step of `cleanup`. -/
theorem aside_main (h : Main.step n = some (n', out)) : Aside n n' := by
  unfold Main.step at h
  (repeat' split at h) <;> cases h
  all_goals
    refine ⟨rfl, rfl, fun hs => ⟨fun _ => by simp, fun _ => by simp⟩⟩

theorem aside_checker (h : Checker.step n env = some (n', out)) : Aside n n' := by
  cases Checker.act_of_step h <;> exact ⟨rfl, rfl, fun hs => ⟨hs.flags, hs.left⟩⟩

/-- What the Reciever puts in the queue was not typed here. -/
theorem aside_reciever (h : Reciever.step n env = some (n', out)) : Aside n n' := by
  cases Reciever.act_of_step h with
  | put pc =>
    refine ⟨rfl, ?_, fun hs => ⟨hs.flags, hs.left⟩⟩
    simp [Storage.put, typed]
  | _ => exact ⟨rfl, rfl, fun hs => ⟨hs.flags, hs.left⟩⟩

section Steps
variable [DecidableEq Addr]

theorem aside_receive {source : Endpoint Addr} {p : Payload τ}
    (h : Reciever.receive n source p env = some n') : Aside n n' := by
  cases Reciever.took_of_receive h <;> exact ⟨rfl, rfl, fun hs => ⟨hs.flags, hs.left⟩⟩

theorem inv_readLine {line : τ} (h : Main.readLine s.node line = some n) (hs : s.Inv) :
    Inv { s with node := n, lines := s.lines ++ [line] } := by
  have hsound := sound_next (a := .readLine line) h hs.sound
  obtain rfl := Main.eq_of_readLine h
  refine ⟨hsound, ?_, hs.complete, ⟨hs.ongoing.idle, hs.ongoing.busy⟩,
    ⟨hs.stopping.flags, hs.stopping.left⟩⟩
  simp only [Storage.put, typed_append, hs.lines, List.append_assoc]
  rfl

/-- A typed message goes to every neighbour. -/
theorem goesTo_of_typed {message : Message Addr τ} (h : message.source = none)
    (client : NodeInfo Addr) : message.goesTo client = true := by
  simp [Message.goesTo, h]

omit [DecidableEq Addr] in
theorem record_end {message : Message Addr τ} (hs : s.node.sender = .loop message [])
    (h : n.sender = .check) : s.record n out =
      { s with node := n, broadcasts := s.broadcasts ++ s.current.toList, current := none } := by
  unfold record
  rw [hs, h]

omit [DecidableEq Addr] in
theorem record_thrown {message : Message Addr τ} {clients : List Ref} {client : Ref} {uid : Nat}
    (hs : s.node.sender = .send message clients client uid) (h : n.sender = .check) :
    s.record n out = { s with
      node := n
      broadcasts := s.broadcasts ++ (s.current.map fun b => { b with thrown := true }).toList
      current := none } := by
  unfold record
  rw [hs, h]

omit [DecidableEq Addr] in
/-- Between its first and its last step a broadcast is only added to. -/
theorem record_on (hs : s.node.sender ≠ .get ∨ n.sender.broadcast = none) (hn : n.sender ≠ .check) :
    s.record n out = { s with
      node := n
      current := s.current.map fun b => { b with sent := b.sent ++ out.toList } } := by
  unfold record
  split
  · rename_i message clients hget hloop
    rcases hs with hs | hs
    · exact absurd hget hs
    · rw [hloop] at hs
      cases hs
  · exact absurd ‹n.sender = .check› hn
  · exact absurd ‹n.sender = .check› hn
  · rfl

omit [DecidableEq Addr] in
/-- The Sender goes on with a broadcast, or stays without one. -/
theorem Inv.goes_on (h : s.Inv) (hn : n.Sound) {current : Option (Broadcast Addr τ)}
    (hqueue : n.messageQueue = s.node.messageQueue) (hmain : n.main = s.node.main)
    (hstop : n.senderStopping = s.node.senderStopping)
    (hleft : n.sender.left = true → s.node.main ≠ .reading)
    (hcurrent : current.map Broadcast.message = s.current.map Broadcast.message)
    (hongoing : Ongoing { s with node := n, current := current }) :
    Inv { s with node := n, current := current } := by
  refine ⟨hn, ?_, h.complete, hongoing, ⟨?_, ?_⟩⟩
  · have hlines := h.lines
    rw [← Option.toList_map, ← hcurrent, Option.toList_map, ← hqueue] at hlines
    exact hlines
  · simp only [hqueue, hmain, hstop]
    exact h.stopping.flags
  · simp only [hmain]
    exact hleft

omit [DecidableEq Addr] in
/-- A step outside of any broadcast. -/
theorem Inv.idles (h : s.Inv) (hn : n.Sound) (hs : s.node.sender.broadcast = none)
    (hpc : n.sender.broadcast = none) (hqueue : n.messageQueue = s.node.messageQueue)
    (hmain : n.main = s.node.main) (hstop : n.senderStopping = s.node.senderStopping)
    (hleft : n.sender.left = true → s.node.main ≠ .reading) (hcheck : n.sender ≠ .check) :
    (s.record n none).Inv := by
  have hnone := h.ongoing.idle hs
  rw [record_on (.inr hpc) hcheck]
  refine h.goes_on hn hqueue hmain hstop hleft ?_ ⟨?_, ?_⟩
  · simp [hnone]
  · simp [hnone]
  · simp [hpc]

omit [DecidableEq Addr] in
/-- A step within a broadcast. -/
theorem Inv.proceeds (h : s.Inv) (hn : n.Sound) {message : Message Addr τ} {pending : List Ref}
    {b : Broadcast Addr τ} (hs : s.node.sender ≠ .get)
    (hpc : n.sender.broadcast = some (message, pending))
    (hqueue : n.messageQueue = s.node.messageQueue) (hmain : n.main = s.node.main)
    (hstop : n.senderStopping = s.node.senderStopping) (hb : s.current = some b)
    (hmessage : b.message = message)
    (hsent : message.source = none → (b.sent ++ out.toList).map Send.target ++
      pending.map (fun r => (n.heap r).endpoint) = b.neighbours ∧
        ∀ x ∈ b.sent ++ out.toList, ∃ uid, x.packet = .datagram (.message uid b.message.message)) :
    (s.record n out).Inv := by
  have hcheck : n.sender ≠ .check := by
    intro hcheck
    rw [hcheck] at hpc
    cases hpc
  rw [record_on (.inl hs) hcheck, hb, Option.map_some]
  refine h.goes_on hn hqueue hmain hstop ?_ (by simp [hb]) ⟨?_, ?_⟩
  · intro hleft
    rw [broadcast_of_left hleft] at hpc
    cases hpc
  · intro hnone
    cases hpc.symm.trans hnone
  · intro _ _ hpc'
    obtain ⟨rfl, rfl⟩ := Prod.mk.inj (Option.some.inj (hpc.symm.trans hpc'))
    exact ⟨_, rfl, hmessage, hsent⟩

omit [DecidableEq Addr] in
/-- The last step of a broadcast. -/
theorem Inv.closes (h : s.Inv) (hn : n.Sound) {b b' : Broadcast Addr τ} (hpc : n.sender = .check)
    (hqueue : n.messageQueue = s.node.messageQueue) (hmain : n.main = s.node.main)
    (hstop : n.senderStopping = s.node.senderStopping) (hb : s.current = some b)
    (hmessage : b'.message = b.message)
    (hcomplete : b'.message.source = none → b'.thrown = false → b'.Complete) :
    Inv { s with node := n, broadcasts := s.broadcasts ++ [b'], current := none } := by
  refine ⟨hn, ?_, ?_, ⟨?_, ?_⟩, ⟨?_, ?_⟩⟩
  · have hlines := h.lines
    simpa [hb, hqueue, hmessage, typed_append] using hlines
  · intro b'' hb''
    rcases List.mem_append.mp hb'' with hb'' | hb''
    · exact h.complete b'' hb''
    · rw [List.mem_singleton.mp hb'']
      exact hcomplete
  · intro _
    rfl
  · simp [hpc, SenderPc.broadcast]
  · simp only [hqueue, hmain, hstop]
    exact h.stopping.flags
  · simp [hpc, SenderPc.left]

theorem inv_sender (h : Sender.step s.node env = some (n, out)) (hs : s.Inv) :
    (s.record n out).Inv := by
  have hsound : n.Sound := sound_step (show s.node.step .sender env = some (n, out) from h) hs.sound
  have hongoing := hs.ongoing
  cases Sender.act_of_step h with
  | woken pc got =>
    refine hs.idles hsound (by rw [pc]; rfl) rfl rfl rfl rfl ?_ (by simp)
    intro _
    exact hs.stopping.flags (.inr (Storage.wakeupState_of_get got))
  | @take message queue pc got =>
    have hqueue := Storage.get_some got
    have hnone := hs.ongoing.idle (by rw [pc]; rfl)
    simp only [record, pc]
    refine ⟨hsound, ?_, hs.complete, ⟨by simp [SenderPc.broadcast], ?_⟩,
      ⟨?_, by simp [SenderPc.left]⟩⟩
    · have hlines := hs.lines
      rw [hqueue, hnone, ← List.singleton_append, typed_append] at hlines
      simpa [List.append_assoc] using hlines
    · rintro _ _ ⟨⟩
      refine ⟨_, rfl, rfl, ?_⟩
      intro _
      simp
    · simp only [Storage.wakeupState_of_get_some got]
      exact hs.stopping.flags
  | @done message pc =>
    obtain ⟨b, hb, hmessage, hsent⟩ := hs.ongoing.busy message [] (by rw [pc]; rfl)
    rw [record_end pc rfl, hb, Option.toList_some]
    apply hs.closes hsound rfl rfl rfl rfl hb rfl
    intro hsource _
    obtain ⟨htargets, htexts⟩ := hsent (hmessage ▸ hsource)
    exact ⟨by simpa using htargets, htexts⟩
  | @unsent message clients client uid pc =>
    obtain ⟨b, hb, -⟩ := hs.ongoing.busy message (client :: clients) (by rw [pc]; rfl)
    rw [record_thrown pc rfl, hb, Option.map_some, Option.toList_some]
    refine hs.closes hsound rfl rfl rfl rfl hb rfl ?_
    intro _ hsends
    cases hsends
  | @issue message client clients pc goes =>
    obtain ⟨b, hb, hmessage, hsent⟩ := hs.ongoing.busy message (client :: clients) (by rw [pc]; rfl)
    apply hs.proceeds hsound (by simp [pc]) rfl rfl rfl rfl hb hmessage
    intro hsource
    simpa using hsent hsource
  | @skip message client clients pc stays =>
    obtain ⟨b, hb, hmessage, -⟩ := hs.ongoing.busy message (client :: clients) (by rw [pc]; rfl)
    apply hs.proceeds hsound (by simp [pc]) rfl rfl rfl rfl hb hmessage
    intro hsource
    exact absurd (goesTo_of_typed hsource _) stays
  | @sent message clients client uid pc =>
    obtain ⟨b, hb, hmessage, hsent⟩ := hs.ongoing.busy message (client :: clients) (by rw [pc]; rfl)
    apply hs.proceeds hsound (by simp [pc]) rfl rfl rfl rfl hb hmessage
    intro hsource
    obtain ⟨htargets, htexts⟩ := hsent hsource
    refine ⟨by simpa using htargets, ?_⟩
    intro x hx
    rcases List.mem_append.mp hx with hx | hx
    · exact htexts x hx
    · rw [List.mem_singleton.mp hx, hmessage]
      exact ⟨uid, rfl⟩
  | @put message clients client uid pc =>
    obtain ⟨b, hb, hmessage, hsent⟩ := hs.ongoing.busy message clients (by rw [pc]; rfl)
    apply hs.proceeds hsound (by simp [pc]) rfl rfl rfl rfl hb hmessage
    intro hsource
    simpa using hsent hsource
  | check pc goesOn =>
    rcases goesOn with ⟨rfl, hstop⟩ | ⟨rfl, -⟩
    · refine hs.idles hsound (by rw [pc]; rfl) rfl rfl rfl rfl ?_ (by simp)
      intro _
      exact hs.stopping.flags (.inl hstop)
    · exact hs.idles hsound (by rw [pc]; rfl) rfl rfl rfl rfl (by simp [SenderPc.left]) (by simp)
  | stopChecker pc | wakeChecker pc | join pc =>
    refine hs.idles hsound (by rw [pc]; rfl) rfl rfl rfl rfl ?_ (by simp)
    intro _
    exact hs.stopping.left (by rw [pc]; rfl)

/-- A line is read, the Sender acts, or another thread does. -/
theorem step_cases {a : Action Addr τ} (h : s.step a = some t) :
    (∃ line n, Main.readLine s.node line = some n ∧
      t = { s with node := n, lines := s.lines ++ [line] }) ∨
    (∃ env n out, Sender.step s.node env = some (n, out) ∧ t = s.record n out) ∨
    ∃ n, s.node.next a = some n ∧ Aside s.node n ∧ t = { s with node := n } := by
  cases a with
  | readLine line =>
    obtain ⟨n, hn, rfl⟩ := Option.map_eq_some_iff.mp h
    exact .inl ⟨line, n, hn, rfl⟩
  | thread thread env =>
    cases thread with
    | sender =>
      obtain ⟨⟨n, out⟩, hn, rfl⟩ := Option.map_eq_some_iff.mp h
      exact .inr (.inl ⟨env, n, out, hn, rfl⟩)
    | main =>
      obtain ⟨n, hn, rfl⟩ := Option.map_eq_some_iff.mp h
      obtain ⟨out, hstep⟩ := step_of_next hn
      exact .inr (.inr ⟨n, hn, aside_main hstep, rfl⟩)
    | checker =>
      obtain ⟨n, hn, rfl⟩ := Option.map_eq_some_iff.mp h
      obtain ⟨out, hstep⟩ := step_of_next hn
      exact .inr (.inr ⟨n, hn, aside_checker hstep, rfl⟩)
    | reciever =>
      obtain ⟨n, hn, rfl⟩ := Option.map_eq_some_iff.mp h
      obtain ⟨out, hstep⟩ := step_of_next hn
      exact .inr (.inr ⟨n, hn, aside_reciever hstep, rfl⟩)
  | receive source p env =>
    obtain ⟨n, hn, rfl⟩ := Option.map_eq_some_iff.mp h
    exact .inr (.inr ⟨n, hn, aside_receive hn, rfl⟩)

theorem inv_step {a : Action Addr τ} (h : s.step a = some t) (hs : s.Inv) : t.Inv := by
  obtain ⟨line, n, hn, rfl⟩ | ⟨env, n, out, hn, rfl⟩ | ⟨n, hn, haside, rfl⟩ := step_cases h
  · exact inv_readLine hn hs
  · exact inv_sender hn hs
  · exact hs.aside (sound_next hn hs.sound) haside fun _ hr => endpoint_next hn hr

omit [DecidableEq Addr] in
theorem record_node : (s.record n out).node = n := by
  unfold record
  split <;> rfl

/-- The record leaves what a node can do as it is. -/
theorem node_of_step (s : Drain Addr τ) (a : Action Addr τ) :
    (s.step a).map Drain.node = s.node.next a := by
  cases a with
  | readLine line => simp [step, next, Function.comp_def]
  | thread thread env =>
    cases thread with
    | sender => simp [step, next, Node.step, Function.comp_def, record_node]
    | _ => simp [step, Function.comp_def]
  | receive source p env => simp [step, Function.comp_def]

omit [DecidableEq Addr] in
theorem Abandoned.trans {u : Drain Addr τ} (h : Abandoned s t) (h' : Abandoned t u) :
    Abandoned s u :=
  ⟨h'.left, h.queue.trans h'.queue, h'.broadcasts.trans h.broadcasts, h'.current.trans h.current⟩

variable {m : Node Addr τ} {xs : List (Action Addr τ)}

end Steps

/-- A line is typed, and the input ends before the Sender takes it. -/
def dropped : List (Action Nat String) :=
  [.readLine "hi"] ++ List.replicate 4 (.thread .main (.calm 0)) ++
    List.replicate 3 (.thread .sender (.calm 0)) ++
      [.thread .checker (.calm 0), .thread .sender (.calm 0)]

end Drain

end NetworkLabs.UdpChat
